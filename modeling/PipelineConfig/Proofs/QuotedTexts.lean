import PipelineConfig.Json.Parse

/-!
# Quoted texts are read back

A text may be spelled between its quotes in more than one way. Whatever spelling of single
characters is chosen, if each is read as the character that it spells, then a quoted text is
read as the text.
-/

namespace PipelineConfig

namespace Text

/-- There are no more parts than characters in them, if no part is empty. -/
theorem length_le_join {parts : List String} (h : ∀ s ∈ parts, 0 < s.toList.length) :
    parts.length ≤ (String.join parts).toList.length := by
  induction parts with
  | nil => exact Nat.zero_le _
  | cons first others ih =>
    have hfirst := h first List.mem_cons_self
    have hothers := ih fun s hm => h s (List.mem_cons_of_mem _ hm)
    rw [String.join_cons, String.toList_append, List.length_append, List.length_cons]
    omega

end Text

section Hexadecimal

/-- A digit is read as the number that it writes. -/
theorem hexValue_digitChar {n : Nat} (h : n < 16) : hexValue (Nat.digitChar n) = some n := by
  revert n
  decide

theorem length_fourHex (code : Nat) : (Json.fourHex code).toList.length = 4 := by
  rw [Json.fourHex, String.toList_ofList]
  rfl

/-- Four digits are read as the code that they write. -/
theorem hexNumber_fourHex {code : Nat} (h : code < 65536) :
    hexNumber (Json.fourHex code).toList = some code := by
  have hdigit : ∀ n, hexValue (Nat.digitChar (n % 16)) = some (n % 16) := fun n =>
    hexValue_digitChar (Nat.mod_lt n (by decide))
  have hcode : 16 * (16 * (16 * (code / 4096 % 16) + code / 256 % 16) + code / 16 % 16) +
      code % 16 = code := by omega
  rw [Json.fourHex, String.toList_ofList]
  simp [hexNumber, hdigit, hcode]

end Hexadecimal

namespace Reader

section Takes

variable {α β : Type}

/-- The reader takes the value off the front of the text and leaves the rest. -/
def Takes (reader : Reader α) (text : List Char) (a : α) (rest : List Char) : Prop :=
  reader text = .ok (a, rest)

variable {reader : Reader α} {next : α → Reader β} {text between rest : List Char} {a : α} {b : β}

theorem takes_pure (a : α) (text : List Char) : (pure a : Reader α).Takes text a text := rfl

theorem Takes.bind (h : reader.Takes text a between) (hn : (next a).Takes between b rest) :
    (reader >>= next).Takes text b rest := by
  change (reader text >>= fun r => next r.1 r.2) = _
  rw [h]
  exact hn

theorem Takes.map (h : reader.Takes text a rest) (f : α → β) :
    (f <$> reader).Takes text (f a) rest := by
  change (reader >>= fun a => pure (f a)).Takes text (f a) rest
  exact h.bind (takes_pure _ _)

theorem takes_remaining (text : List Char) : remaining.Takes text text text := rfl

theorem takes_peek (text : List Char) : peek.Takes text text.head? text := rfl

theorem takes_advance (c : Char) (text : List Char) : advance.Takes (c :: text) () text := rfl

/-- Where no space comes first, nothing is passed over. -/
theorem takes_peekPastSpace {c : Char} (h : isSpace c = false) (text : List Char) :
    peekPastSpace.Takes (c :: text) (some c) (c :: text) := by
  have hkept : (c :: text).dropWhile isSpace = c :: text :=
    List.dropWhile_cons_of_neg (Bool.eq_false_iff.mp h)
  change Except.ok (((c :: text).dropWhile isSpace).head?, (c :: text).dropWhile isSpace) = _
  rw [hkept]
  rfl

/-- A reader that leaves nothing but space reads the whole text. -/
theorem Takes.run {text : String} (h : reader.Takes text.toList a rest)
    (hrest : rest.dropWhile isSpace = []) : reader.run text = .ok a := by
  have hpeek : peekPastSpace.Takes rest none [] := by
    change Except.ok ((rest.dropWhile isSpace).head?, rest.dropWhile isSpace) = _
    rw [hrest]
    rfl
  have hwhole : (whole reader).Takes text.toList a [] := h.bind (hpeek.bind (takes_pure a []))
  rw [Reader.run, hwhole]

end Takes

section Characters

theorem length_le_byteSize (text : List Char) : text.length ≤ byteSize text := by
  induction text with
  | nil => exact Nat.le_refl 0
  | cons c text ih =>
    have hsize := c.utf8Size_pos
    change text.length + 1 ≤ c.utf8Size + byteSize text
    omega

theorem takes_escapeCode {code : Nat} (h : code < 65536) (text : List Char) :
    escapeCode.Takes ((Json.fourHex code).toList ++ text) code text := by
  have henough : ¬ byteSize ((Json.fourHex code).toList ++ text) < 4 := by
    have hle := length_le_byteSize ((Json.fourHex code).toList ++ text)
    rw [List.length_append, length_fourHex] at hle
    omega
  have htake : ((Json.fourHex code).toList ++ text).take 4 = (Json.fourHex code).toList := by
    rw [← length_fourHex code, List.take_left]
  have hdrop : ((Json.fourHex code).toList ++ text).drop 4 = text := by
    rw [← length_fourHex code, List.drop_left]
  rw [escapeCode]
  refine (takes_remaining _).bind ?_
  rw [if_neg henough, htake, if_pos (length_fourHex code), hexNumber_fourHex h]
  change Takes (do set (((Json.fourHex code).toList ++ text).drop 4); pure code) _ _ _
  rw [hdrop]
  rfl

/-- A code that is no surrogate stands for its character. -/
theorem takes_codeEscape {code : Nat} (h : code < 0xD800) (text : List Char) :
    codeEscape.Takes ((Json.fourHex code).toList ++ text) (Char.ofNat code) text := by
  have htrailing : isTrailingSurrogate code = false := by
    have hlow : ¬ 0xDC00 ≤ code := by omega
    simp [isTrailingSurrogate, hlow]
  have hleading : isLeadingSurrogate code = false := by
    have hlow : ¬ 0xD800 ≤ code := by omega
    simp [isLeadingSurrogate, hlow]
  rw [codeEscape]
  refine (takes_escapeCode (by omega) text).bind ?_
  rw [htrailing, hleading]
  exact takes_pure _ _

/-- Between the quotes of a string the text is read as the character. -/
def Spells (spelling : String) (c : Char) : Prop :=
  ∀ rest, character.Takes (spelling.toList ++ rest) (some c) rest

theorem spells_code {c : Char} (h : c.toNat < 0xD800) :
    Spells ("\\u" ++ Json.fourHex c.toNat) c := by
  intro rest
  rw [String.toList_append, List.append_assoc]
  refine (takes_peek _).bind ?_
  refine (takes_advance '\\' _).bind ?_
  refine Takes.map ?_ some
  refine (takes_peek _).bind ?_
  refine (takes_advance 'u' _).bind ?_
  have hcode := takes_codeEscape h rest
  rwa [Char.ofNat_toNat] at hcode

theorem spells_letter {letter c : Char} (h : letterEscape letter = some c) :
    Spells (String.ofList ['\\', letter]) c := by
  intro rest
  have hu : letter ≠ 'u' := by
    rintro rfl
    cases h
  rw [String.toList_ofList]
  refine (takes_peek _).bind ?_
  refine (takes_advance '\\' (letter :: rest)).bind ?_
  refine Takes.map ?_ some
  refine (takes_peek (letter :: rest)).bind ?_
  dsimp only [List.head?_cons]
  split
  · next he => cases he
  · next he =>
    cases he
    exact absurd rfl hu
  · next he =>
    cases he
    rw [h]
    exact (takes_advance letter rest).bind (takes_pure c rest)

/-- A character that needs no escape spells itself. -/
theorem spells_plain {c : Char} (h : 32 ≤ c.toNat) (hquote : c ≠ '"') (hbackslash : c ≠ '\\') :
    Spells c.toString c := by
  intro rest
  have htext : c.toString.toList ++ rest = c :: rest := by simp
  rw [htext]
  refine (takes_peek _).bind ?_
  dsimp only [List.head?_cons]
  split
  · next he => cases he
  · next he =>
    cases he
    exact absurd rfl hquote
  · next he =>
    cases he
    exact absurd rfl hbackslash
  · next he =>
    cases he
    rw [if_neg (Nat.not_lt.mpr h)]
    exact (takes_advance c rest).bind (takes_pure _ _)

/-- A spelling is never empty, as no character is read where the text ends. -/
theorem Spells.length_pos {spelling : String} {c : Char} (h : Spells spelling c) :
    0 < spelling.toList.length := by
  cases htext : spelling.toList with
  | nil =>
    have hend := h []
    rw [htext] at hend
    cases hend
  | cons => exact Nat.zero_lt_succ _

end Characters

/-- A text in quotes, every character of it spelled. -/
def enquote (spelling : Char → String) (s : String) : String :=
  "\"" ++ String.join (s.toList.map spelling) ++ "\""

theorem toList_enquote (spelling : Char → String) (s : String) (rest : List Char) :
    (enquote spelling s).toList ++ rest =
      '"' :: ((String.join (s.toList.map spelling)).toList ++ '"' :: rest) := by
  simp [enquote, String.toList_append]

section Strings

variable {spelling : Char → String} (h : ∀ c, Spells (spelling c) c)

include h

theorem takes_characters (s : List Char) {count : Nat} (hc : s.length < count)
    (rest : List Char) :
    (characters count).Takes ((String.join (s.map spelling)).toList ++ '"' :: rest) s rest := by
  induction s generalizing count with
  | nil =>
    obtain ⟨count, rfl⟩ := Nat.exists_eq_add_one.mpr (Nat.zero_lt_of_lt hc)
    rfl
  | cons c s ih =>
    obtain ⟨count, rfl⟩ := Nat.exists_eq_add_one.mpr (Nat.zero_lt_of_lt hc)
    rw [List.map_cons, String.join_cons, String.toList_append, List.append_assoc]
    refine (h c _).bind ?_
    exact (ih (Nat.lt_of_succ_lt_succ hc)).bind (takes_pure _ _)

/-- A text is read from after its opening quote. -/
theorem takes_quoted (s : String) (rest : List Char) :
    quoted.Takes ((String.join (s.toList.map spelling)).toList ++ '"' :: rest) s rest := by
  have hnonempty : ∀ t ∈ s.toList.map spelling, 0 < t.toList.length := by
    intro t ht
    obtain ⟨c, -, rfl⟩ := List.mem_map.mp ht
    exact (h c).length_pos
  have hcount : s.toList.length <
      ((String.join (s.toList.map spelling)).toList ++ '"' :: rest).length := by
    have hle := Text.length_le_join hnonempty
    rw [List.length_map] at hle
    rw [List.length_append, List.length_cons]
    omega
  rw [quoted]
  refine (takes_remaining _).bind ?_
  have hread := (takes_characters h s.toList hcount rest).map String.ofList
  rwa [String.ofList_toList] at hread

/-- A text in quotes is a value, whatever may lie inside of values. -/
theorem takes_string (inner : Option (Reader Json)) (s : String) (rest : List Char) :
    (valueAround inner).Takes ((enquote spelling s).toList ++ rest) (.string s) rest := by
  rw [toList_enquote]
  refine (takes_peekPastSpace (by decide) _).bind ?_
  exact (takes_advance _ _).bind ((takes_quoted h s rest).map Json.string)

end Strings

end Reader

end PipelineConfig
