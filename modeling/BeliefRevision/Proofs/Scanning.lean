import BeliefRevision.Formula.Display

/-!
# Texts are cut where they were joined

The texts of some tokens, one behind the other, are cut into the same tokens again. The only danger are
two names side by side, which would be read as one. Where every name has a sign behind it, or the end,
a word ends where its name does, and a sign is recognised by itself since no spelling is the beginning
of another one.

* `IsAtomName` — the names that can be read
* `leading?_spelling`, `leading?_word` — the token at the beginning of a text
* `lexemes_texts` — what was joined is cut
* `isAtomName_of_lexemes` — every name that is read can be read
-/

namespace BeliefRevision

/-! ## Names -/

/-- A word: an ASCII letter or an underscore, and behind it ASCII letters, digits and underscores. -/
def IsWord : List Char → Prop
  | [] => False
  | first :: rest => Token.isWordStart first = true ∧ ∀ c ∈ rest, Token.isWordChar c = true

instance : DecidablePred IsWord
  | [] => inferInstanceAs (Decidable False)
  | _ :: rest =>
    -- goes through the list; other instances go through all characters
    letI := List.decidableBAll (Token.isWordChar · = true) rest
    inferInstanceAs (Decidable (_ ∧ _))

/-- A name of an atom that can be read: a word that is no constant. -/
structure IsAtomName (name : String) : Prop where
  word : IsWord name.toList
  not_constant : name ∉ ["true", "True", "false", "False"]

instance : DecidablePred IsAtomName := fun name =>
  decidable_of_iff (IsWord name.toList ∧ name ∉ ["true", "True", "false", "False"])
    ⟨fun h => ⟨h.1, h.2⟩, fun h => ⟨h.word, h.not_constant⟩⟩

namespace Token

/-- The name that a token stands for, if any. -/
def names : Token → List String
  | .atom name => [name]
  | _ => []

theorem lookup_constantWords {word : List Char} :
    constantWords.lookup word = none ↔ String.ofList word ∉ ["true", "True", "false", "False"] := by
  have hsame (text : String) : String.ofList word = text ↔ word = text.toList := by
    rw [← String.toList_inj, String.toList_ofList]
  simp [constantWords, List.lookup_eq_none_iff, hsame]

theorem ofWord_toList {name : String} (h : IsAtomName name) : ofWord name.toList = .atom name := by
  have hlookup : constantWords.lookup name.toList = none := by
    rw [lookup_constantWords, String.ofList_toList]
    exact h.not_constant
  rw [ofWord, hlookup, String.ofList_toList]

/-- A word that is read as an atom is the name of that atom. -/
theorem isAtomName_of_ofWord {word : List Char} (hword : IsWord word) :
    ∀ name ∈ (ofWord word).names, IsAtomName name := by
  intro name hname
  unfold ofWord at hname
  cases hlookup : constantWords.lookup word with
  | some value =>
    rw [hlookup] at hname
    cases hname
  | none =>
    rw [hlookup] at hname
    obtain rfl := List.mem_singleton.mp hname
    refine ⟨?_, lookup_constantWords.mp hlookup⟩
    rwa [String.toList_ofList]

/-! ## The first token of a text -/

theorem not_isBlank_of_isWordStart {c : Char} (h : isWordStart c = true) :
    Text.isBlank c = false := by
  have hrange : 65 ≤ c.toNat ∧ c.toNat ≤ 122 := by
    rw [isWordStart, Bool.or_eq_true, beq_iff_eq] at h
    rcases h with h | rfl
    · rcases (Bool.or_eq_true _ _).mp h with hupper | hlower
      · have hbounds : 65 ≤ c.toNat ∧ c.toNat ≤ 90 := of_decide_eq_true hupper
        omega
      · obtain ⟨hlow, hhigh⟩ := (Bool.and_eq_true _ _).mp hlower
        have hlow : 97 ≤ c.toNat := of_decide_eq_true hlow
        have hhigh : c.toNat ≤ 122 := of_decide_eq_true hhigh
        omega
    · decide
  simp [Text.isBlank, Text.blankRanges]
  omega

/-- A sign is neither blank nor the beginning of a word. -/
theorem spellings_begin {first : Char} {more : List Char} {token : Token}
    (h : (first :: more, token) ∈ spellings) :
    isWordStart first = false ∧ Text.isBlank first = false := by
  have hall : ∀ s ∈ spellings,
      s.1.head?.all (fun c => !isWordStart c && !Text.isBlank c) = true := by decide
  simpa using hall _ h

theorem leading?_spelling {first : Char} {more : List Char} {token : Token}
    (h : (first :: more, token) ∈ spellings) (after : List Char) :
    leading? first (more ++ after) = some (token, more.length) := by
  have hstart := (spellings_begin h).1
  have hprefix : (first :: more) <+: first :: (more ++ after) := ⟨after, rfl⟩
  rw [leading?, hstart, if_neg (by simp)]
  cases hfind : spellings.find? (·.1.isPrefixOf (first :: (more ++ after))) with
  | none =>
    exact absurd (List.isPrefixOf_iff_prefix.mpr hprefix) (List.find?_eq_none.mp hfind _ h)
  | some other =>
    have hmem := List.mem_of_find?_eq_some hfind
    have hother : other.1 <+: first :: (more ++ after) := by simpa using List.find?_some hfind
    -- of two beginnings of one text, one is the beginning of the other
    have hsame : other = (first :: more, token) := by
      rcases List.prefix_or_prefix_of_prefix hother hprefix with hle | hle
      · exact spellings_prefix_free _ hmem _ h (List.isPrefixOf_iff_prefix.mpr hle)
      · exact (spellings_prefix_free _ h _ hmem (List.isPrefixOf_iff_prefix.mpr hle)).symm
    subst hsame
    rfl

theorem leading?_word {first : Char} {rest after : List Char} (h : IsWord (first :: rest))
    (hafter : ∀ c ∈ after.head?, isWordChar c = false) :
    leading? first (rest ++ after) = some (ofWord (first :: rest), rest.length) := by
  have hend : after.takeWhile isWordChar = [] := by
    cases after with
    | nil => rfl
    | cons c after => simp [hafter c rfl]
  have htail : (rest ++ after).takeWhile isWordChar = rest := by
    rw [List.takeWhile_append_of_pos h.2, hend, List.append_nil]
  rw [leading?, if_pos h.1]
  simp only [htail]

/-! ## Cutting -/

variable {after : List Char} {position : Nat} {found : List Lexeme}

theorem scan_blank {c : Char} (h : Text.isBlank c = true) :
    scan position found (c :: after) = scan (position + 1) found after := by
  rw [scan, if_pos h]

theorem scan_leading {first : Char} {more : List Char} {token : Token}
    (hblank : Text.isBlank first = false)
    (hleading : leading? first (more ++ after) = some (token, more.length)) :
    scan position found (first :: (more ++ after)) =
      scan (position + 1 + more.length) (⟨position, token⟩ :: found) after := by
  rw [scan, hblank, if_neg (by simp), hleading]
  simp only [List.drop_left]

theorem scan_sign {c : Char} {token : Token} (h : ([c], token) ∈ spellings) :
    scan position found (c :: after) = scan (position + 1) (⟨position, token⟩ :: found) after := by
  show scan position found (c :: ([] ++ after)) = _
  exact scan_leading (spellings_begin h).2 (leading?_spelling h after)

theorem scan_spaced {c : Char} {token : Token} (h : ([c], token) ∈ spellings) :
    scan position found (' ' :: c :: ' ' :: after) =
      scan (position + 3) (⟨position + 1, token⟩ :: found) after := by
  rw [scan_blank (by decide), scan_sign h, scan_blank (by decide)]

/-- The text of a token is cut off as that token, where a name is not followed by more of a word. -/
theorem scan_text (position : Nat) (found : List Lexeme) {token : Token}
    (h : ∀ name ∈ token.names, IsAtomName name ∧ ∀ c ∈ after.head?, isWordChar c = false) :
    ∃ place next, scan position found (token.text ++ after) =
      scan next (⟨place, token⟩ :: found) after := by
  cases token with
  | constant value => cases value <;> exact ⟨_, _, scan_sign (by decide)⟩
  | not | openParen | closeParen => exact ⟨_, _, scan_sign (by decide)⟩
  | binary connective => cases connective <;> exact ⟨_, _, scan_spaced (by decide)⟩
  | atom name =>
    obtain ⟨hname, hafter⟩ := h name (List.mem_singleton_self name)
    have hword := hname.word
    have htoken := ofWord_toList hname
    show ∃ place next, scan position found (name.toList ++ after) = _
    cases hletters : name.toList with
    | nil =>
      rw [hletters] at hword
      exact hword.elim
    | cons first rest =>
      rw [hletters] at hword htoken
      have hleading := leading?_word hword hafter
      rw [htoken] at hleading
      exact ⟨_, _, scan_leading (not_isBlank_of_isWordStart hword.1) hleading⟩

/-- Tokens whose texts can be told apart: names can be read, and none stands before another one. -/
inductive Legible : List Token → Prop where
  | nil : Legible []
  | sign {token : Token} {rest : List Token} (htoken : token.names = []) (hrest : Legible rest) :
      Legible (token :: rest)
  | atom {name : String} {rest : List Token} (hname : IsAtomName name)
      (happart : ∀ next ∈ rest.head?, next.names = []) (hrest : Legible rest) :
      Legible (.atom name :: rest)

/-- The text of a sign does not go on with a word. -/
theorem not_isWordChar_of_sign {token : Token} (h : token.names = []) :
    ∀ c ∈ (token.text ++ after).head?, isWordChar c = false := by
  cases token with
  | atom name => cases h
  | constant value => cases value <;> simp [text] <;> decide
  | not | openParen | closeParen => simp [text]; decide
  | binary connective => cases connective <;> simp [text] <;> decide

theorem scan_texts {tokens : List Token} (h : Legible tokens) (position : Nat)
    (found : List Lexeme) :
    ∃ lexemes, scan position found (tokens.flatMap text) = .ok (found.reverse ++ lexemes) ∧
      lexemes.map Lexeme.token = tokens := by
  have hcons {token : Token} {rest : List Token}
      (htoken : ∀ name ∈ token.names, IsAtomName name ∧
        ∀ c ∈ (rest.flatMap text).head?, isWordChar c = false)
      (hrest : ∀ position found, ∃ lexemes,
        scan position found (rest.flatMap text) = .ok (found.reverse ++ lexemes) ∧
          lexemes.map Lexeme.token = rest) (position : Nat) (found : List Lexeme) :
      ∃ lexemes, scan position found ((token :: rest).flatMap text) =
        .ok (found.reverse ++ lexemes) ∧ lexemes.map Lexeme.token = token :: rest := by
    obtain ⟨place, next, hfirst⟩ := scan_text position found htoken
    obtain ⟨lexemes, hscan, htokens⟩ := hrest next (⟨place, token⟩ :: found)
    refine ⟨⟨place, token⟩ :: lexemes, ?_, by rw [List.map_cons, htokens]⟩
    rw [List.flatMap_cons, hfirst, hscan, List.reverse_cons, List.append_assoc,
      List.singleton_append]
  induction h generalizing position found with
  | nil => exact ⟨[], by rw [List.flatMap_nil, scan, List.append_nil], rfl⟩
  | @sign token rest htoken hrest ih =>
    exact hcons (by simp [htoken]) ih position found
  | @atom name rest hname happart hrest ih =>
    refine hcons ?_ ih position found
    intro other hother
    obtain rfl := List.mem_singleton.mp hother
    refine ⟨hname, ?_⟩
    cases rest with
    | nil => simp
    | cons next rest => exact not_isWordChar_of_sign (happart next rfl)

/-- **What was joined is cut.** -/
theorem lexemes_texts {tokens : List Token} (h : Legible tokens) :
    ∃ found, lexemes (tokens.flatMap text) = .ok found ∧ found.map Lexeme.token = tokens :=
  scan_texts h 0 []

/-! ## Names that are read -/

theorem isAtomName_of_leading? {first : Char} {rest : List Char} {token : Token} {more : Nat}
    (h : leading? first rest = some (token, more)) : ∀ name ∈ token.names, IsAtomName name := by
  unfold leading? at h
  by_cases hstart : isWordStart first = true
  · rw [if_pos hstart] at h
    cases h
    exact isAtomName_of_ofWord ⟨hstart, List.all_eq_true.mp List.all_takeWhile⟩
  · rw [if_neg hstart] at h
    cases hfind : spellings.find? (·.1.isPrefixOf (first :: rest)) with
    | none =>
      rw [hfind] at h
      cases h
    | some found =>
      rw [hfind] at h
      cases h
      have hsigns : ∀ s ∈ spellings, s.2.names = [] := by decide
      simp [hsigns found (List.mem_of_find?_eq_some hfind)]

theorem isAtomName_of_scan {text : List Char} {lexemes : List Lexeme}
    (h : scan position found text = .ok lexemes)
    (hfound : ∀ lexeme ∈ found, ∀ name ∈ lexeme.token.names, IsAtomName name) :
    ∀ lexeme ∈ lexemes, ∀ name ∈ lexeme.token.names, IsAtomName name := by
  fun_induction scan position found text with
  | case1 =>
    cases h
    simpa using hfound
  | case2 position found first rest hblank ih => exact ih h hfound
  | case3 position found first rest hblank token more hleading ih =>
    exact ih h (List.forall_mem_cons.mpr ⟨isAtomName_of_leading? hleading, hfound⟩)
  | case4 => cases h

/-- **Every name that is read can be read.** -/
theorem isAtomName_of_lexemes {text : List Char} {found : List Lexeme}
    (h : lexemes text = .ok found) :
    ∀ lexeme ∈ found, ∀ name ∈ lexeme.token.names, IsAtomName name :=
  isAtomName_of_scan h (by simp)

end Token

end BeliefRevision
