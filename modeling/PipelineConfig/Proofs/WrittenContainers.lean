import Mathlib.Data.List.DropRight
import PipelineConfig.Proofs.Members
import PipelineConfig.Proofs.QuotedTexts

/-!
# Containers are read back

An array is read as its elements and an object as its members, if each of these is read from
its own text wherever that ends. A text ends where what comes next cannot go on with a number.
-/

namespace PipelineConfig

namespace Text

/-- The first text, and then the others, each after a separator. -/
theorem intercalate_cons (separator first : String) (others : List String) :
    separator.intercalate (first :: others) =
      first ++ String.join (others.map fun s => separator ++ s) := by
  induction others generalizing first with
  | nil =>
    rw [String.intercalate_singleton, List.map_nil, String.join_nil, String.append_empty]
  | cons second others ih =>
    rw [String.intercalate_cons_cons, ih, List.map_cons, String.join_cons, String.append_assoc,
      String.append_assoc]

theorem length_le_intercalate (separator : String) {parts : List String}
    (h : ∀ s ∈ parts, 0 < s.toList.length) :
    parts.length ≤ (separator.intercalate parts).toList.length := by
  cases parts with
  | nil => exact Nat.zero_le _
  | cons first others =>
    have hfirst := h first List.mem_cons_self
    have hparts : ∀ t ∈ others.map fun s => separator ++ s, 0 < t.toList.length := by
      intro t ht
      obtain ⟨s, hs, rfl⟩ := List.mem_map.mp ht
      rw [String.toList_append, List.length_append]
      exact Nat.lt_add_left _ (h s (List.mem_cons_of_mem _ hs))
    have hothers := length_le_join hparts
    rw [List.length_map] at hothers
    rw [intercalate_cons, String.toList_append, List.length_append, List.length_cons]
    omega

end Text

namespace Reader

section Ends

/-- What comes next does not go on with a number. -/
def Ends (rest : List Char) : Prop :=
  ∀ c, rest.head? = some c → c.isDigit = false ∧ c ≠ '.' ∧ c ≠ 'e' ∧ c ≠ 'E'

theorem ends_nil : Ends [] := nofun

theorem ends_cons {c : Char} (h : c.isDigit = false ∧ c ≠ '.' ∧ c ≠ 'e' ∧ c ≠ 'E')
    (rest : List Char) : Ends (c :: rest) := by
  intro d hd
  cases hd
  exact h

/-- An element or a member is followed by a comma or by the end of its container. -/
theorem ends_join {c : Char} (h : c.isDigit = false ∧ c ≠ '.' ∧ c ≠ 'e' ∧ c ≠ 'E')
    (parts : List String) (rest : List Char) :
    Ends ((String.join (parts.map fun s => "," ++ s)).toList ++ c :: rest) := by
  cases parts with
  | nil => exact ends_cons h rest
  | cons first others =>
    rw [List.map_cons, String.join_cons, String.toList_append, String.toList_append,
      List.append_assoc, List.append_assoc]
    exact ends_cons (by decide) _

/-- The reader takes the text off the front as the value, wherever the text ends. -/
def ReadsBack {α : Type} (reader : Reader α) (text : String) (a : α) : Prop :=
  ∀ rest, Ends rest → reader.Takes (text.toList ++ rest) a rest

end Ends

section Values

variable {inner : Option (Reader Json)} {text rest : List Char} {v : Json}

theorem exists_valueAround (budget : Nat) : ∃ inner, value budget = valueAround inner := by
  cases budget with
  | zero => exact ⟨none, rfl⟩
  | succ budget => exact ⟨some (value budget), rfl⟩

/-- Space before a value makes no difference. -/
theorem takes_dropWhile_isSpace (h : (valueAround inner).Takes text v rest) :
    (valueAround inner).Takes (text.dropWhile isSpace) v rest := by
  have hpeek : ∀ next : Option Char → Reader Json,
      (peekPastSpace >>= next) (text.dropWhile isSpace) = (peekPastSpace >>= next) text := by
    intro next
    change (peekPastSpace (text.dropWhile isSpace) >>= fun r => next r.1 r.2) =
      (peekPastSpace text >>= fun r => next r.1 r.2)
    rw [peekPastSpace, peekPastSpace, List.dropWhile_idempotent]
  exact (hpeek _).trans h

/-- After the space a value begins, and not with the end of an array. -/
theorem exists_begin (h : (valueAround inner).Takes text v rest) :
    ∃ c, peekPastSpace.Takes text (some c) (text.dropWhile isSpace) ∧ c ≠ ']' := by
  have hpast := takes_dropWhile_isSpace h
  have hpeek : peekPastSpace.Takes text (text.dropWhile isSpace).head? (text.dropWhile isSpace) :=
    rfl
  cases hbegin : text.dropWhile isSpace with
  | nil =>
    rw [hbegin] at hpast
    cases hpast
  | cons c left =>
    rw [hbegin] at hpast hpeek
    refine ⟨c, hpeek, ?_⟩
    rintro rfl
    cases hpast

theorem ReadsBack.length_pos {s : String} (h : (valueAround inner).ReadsBack s v) :
    0 < s.toList.length := by
  cases htext : s.toList with
  | nil =>
    have hread := h [] ends_nil
    rw [htext] at hread
    cases hread
  | cons => exact Nat.zero_lt_succ _

/-- A text in quotes is read back. -/
theorem readsBack_string {spelling : Char → String} (h : ∀ c, Spells (spelling c) c)
    (budget : Nat) (s : String) : (value budget).ReadsBack (enquote spelling s) (.string s) := by
  intro rest _
  obtain ⟨inner, hinner⟩ := exists_valueAround budget
  rw [hinner]
  exact takes_string h inner s rest

end Values

section Elements

variable {β : Type} {inner : Option (Reader Json)} {write : β → String} {meaning : β → Json}

/-- Where a value comes next, an array begins with it. -/
theorem takes_anotherElement_true {text rest : List Char} {v : Json}
    (h : (valueAround inner).Takes text v rest) :
    (anotherElement true).Takes text true (text.dropWhile isSpace) := by
  obtain ⟨c, hpeek, hc⟩ := exists_begin h
  refine hpeek.bind ?_
  split
  · next he => cases he
  · next he =>
    cases he
    exact absurd rfl hc
  · exact takes_pure _ _

/-- Where a comma and a value come next, an array goes on with the value. -/
theorem takes_anotherElement_false {text rest : List Char} {v : Json}
    (h : (valueAround inner).Takes text v rest) :
    (anotherElement false).Takes (',' :: text) true (text.dropWhile isSpace) := by
  obtain ⟨c, hpeek, hc⟩ := exists_begin h
  refine (takes_peekPastSpace (by decide) text).bind ?_
  refine (takes_advance ',' text).bind ?_
  refine hpeek.bind ?_
  split
  · next he => cases he
  · next he =>
    cases he
    exact absurd rfl hc
  · exact takes_pure _ _

/-- The elements that come after the first one are read up to the end of the array. -/
theorem takes_laterElements {bs : List β}
    (h : ∀ b ∈ bs, (valueAround inner).ReadsBack (write b) (meaning b)) {fuel : Nat}
    (hf : bs.length < fuel) (rest : List Char) :
    (elements (valueAround inner) fuel false).Takes
      ((String.join ((bs.map write).map fun s => "," ++ s)).toList ++ ']' :: rest)
      (bs.map meaning) rest := by
  induction bs generalizing fuel with
  | nil =>
    obtain ⟨fuel, rfl⟩ := Nat.exists_eq_add_one.mpr (Nat.zero_lt_of_lt hf)
    rfl
  | cons b bs ih =>
    obtain ⟨fuel, rfl⟩ := Nat.exists_eq_add_one.mpr (Nat.zero_lt_of_lt hf)
    have hfirst := h b List.mem_cons_self _ (ends_join (c := ']') (by decide) (bs.map write) rest)
    have hlater := ih (fun b hm => h b (List.mem_cons_of_mem _ hm)) (Nat.lt_of_succ_lt_succ hf)
    rw [List.map_cons, List.map_cons, String.join_cons, String.toList_append,
      String.toList_append, List.append_assoc, List.append_assoc, elements]
    refine (takes_anotherElement_false hfirst).bind ?_
    exact (takes_dropWhile_isSpace hfirst).bind (hlater.bind (takes_pure _ _))

theorem takes_elements {bs : List β}
    (h : ∀ b ∈ bs, (valueAround inner).ReadsBack (write b) (meaning b)) {fuel : Nat}
    (hf : bs.length < fuel) (rest : List Char) :
    (elements (valueAround inner) fuel true).Takes
      ((",".intercalate (bs.map write)).toList ++ ']' :: rest) (bs.map meaning) rest := by
  obtain ⟨fuel, rfl⟩ := Nat.exists_eq_add_one.mpr (Nat.zero_lt_of_lt hf)
  cases bs with
  | nil => rfl
  | cons b bs =>
    have hfirst := h b List.mem_cons_self _ (ends_join (c := ']') (by decide) (bs.map write) rest)
    have hlater := takes_laterElements (fun b hm => h b (List.mem_cons_of_mem _ hm))
      (Nat.lt_of_succ_lt_succ hf) rest
    rw [List.map_cons, Text.intercalate_cons, String.toList_append, List.append_assoc, elements]
    refine (takes_anotherElement_true hfirst).bind ?_
    exact (takes_dropWhile_isSpace hfirst).bind (hlater.bind (takes_pure _ _))

/-- An array is read as its elements. -/
theorem readsBack_array (budget : Nat) {bs : List β}
    (h : ∀ b ∈ bs, (value budget).ReadsBack (write b) (meaning b)) :
    (value (budget + 1)).ReadsBack ("[" ++ ",".intercalate (bs.map write) ++ "]")
      (.array (bs.map meaning)) := by
  intro rest _
  obtain ⟨inner, hinner⟩ := exists_valueAround budget
  rw [hinner] at h
  let text := (",".intercalate (bs.map write)).toList ++ ']' :: rest
  have htext : ("[" ++ ",".intercalate (bs.map write) ++ "]").toList ++ rest = '[' :: text := by
    simp [text, String.toList_append]
  have hnonempty : ∀ t ∈ bs.map write, 0 < t.toList.length := by
    intro t ht
    obtain ⟨b, hb, rfl⟩ := List.mem_map.mp ht
    exact (h b hb).length_pos
  have hfuel : bs.length < text.length := by
    have hle := Text.length_le_intercalate "," hnonempty
    rw [List.length_map] at hle
    rw [List.length_append, List.length_cons]
    omega
  have harray := (takes_elements h hfuel rest).map Json.array
  rw [htext, value, hinner]
  refine (takes_peekPastSpace (by decide) _).bind ?_
  exact (takes_advance _ _).bind ((takes_remaining _).bind harray)

end Elements

/-- A member as it is written: its key in quotes, a colon, and its value. -/
def memberOf {β : Type} (spelling : Char → String) (write : β → String) (m : String × β) :
    String :=
  enquote spelling m.1 ++ ":" ++ write m.2

section Members

variable {β : Type} {spelling : Char → String} {reader : Reader Json} {write : β → String}
  {meaning : β → Json}

/-- A member begins with the quote of its key. -/
theorem toList_memberOf (m : String × β) (rest : List Char) :
    (memberOf spelling write m).toList ++ rest =
      '"' :: ((String.join (m.1.toList.map spelling)).toList ++
        '"' :: ':' :: ((write m.2).toList ++ rest)) := by
  rw [memberOf, String.toList_append, String.toList_append, List.append_assoc, List.append_assoc,
    toList_enquote]
  rfl

variable (hs : ∀ c, Spells (spelling c) c)

include hs

/-- A member is read, and then what comes after it. -/
theorem takes_member {α : Type} {m : String × β} {next : String → Json → Reader α} {a : α}
    {text rest : List Char} (h : reader.ReadsBack (write m.2) (meaning m.2)) (ht : Ends text)
    (hn : (next m.1 (meaning m.2)).Takes text a rest) :
    (do
      advance
      let key ← quoted
      colon
      let v ← reader
      next key v : Reader α).Takes ((memberOf spelling write m).toList ++ text) a rest := by
  rw [toList_memberOf]
  refine (takes_advance _ _).bind ?_
  refine (takes_quoted hs m.1 _).bind ?_
  have hcolon : ∀ text, colon.Takes (':' :: text) () text := fun text =>
    (takes_peekPastSpace (by decide) _).bind (takes_advance _ _)
  refine (hcolon _).bind ?_
  exact (h text ht).bind hn

/-- The members that come after the first one are read up to the end of the object. -/
theorem takes_laterMembers {ms : List (String × β)}
    (h : ∀ m ∈ ms, reader.ReadsBack (write m.2) (meaning m.2)) {fuel : Nat}
    (hf : ms.length < fuel) (rest : List Char) :
    (members reader fuel false).Takes
      ((String.join ((ms.map (memberOf spelling write)).map fun s => "," ++ s)).toList ++
        '\x7d' :: rest)
      (ms.map fun m => (m.1, meaning m.2)) rest := by
  induction ms generalizing fuel with
  | nil =>
    obtain ⟨fuel, rfl⟩ := Nat.exists_eq_add_one.mpr (Nat.zero_lt_of_lt hf)
    rfl
  | cons m ms ih =>
    obtain ⟨fuel, rfl⟩ := Nat.exists_eq_add_one.mpr (Nat.zero_lt_of_lt hf)
    have hmore : ∀ text, (anotherMember false).Takes
        (",".toList ++ ((memberOf spelling write m).toList ++ text)) true
        ((memberOf spelling write m).toList ++ text) := by
      intro text
      rw [toList_memberOf]
      rfl
    have hends := ends_join (c := '\x7d') (by decide) (ms.map (memberOf spelling write)) rest
    have hlater := ih (fun m hm => h m (List.mem_cons_of_mem _ hm)) (Nat.lt_of_succ_lt_succ hf)
    rw [List.map_cons, List.map_cons, String.join_cons, String.toList_append,
      String.toList_append, List.append_assoc, List.append_assoc, members]
    exact (hmore _).bind (takes_member hs (h m List.mem_cons_self) hends
      (hlater.bind (takes_pure _ _)))

theorem takes_members {ms : List (String × β)}
    (h : ∀ m ∈ ms, reader.ReadsBack (write m.2) (meaning m.2)) {fuel : Nat}
    (hf : ms.length < fuel) (rest : List Char) :
    (members reader fuel true).Takes
      ((",".intercalate (ms.map (memberOf spelling write))).toList ++ '\x7d' :: rest)
      (ms.map fun m => (m.1, meaning m.2)) rest := by
  obtain ⟨fuel, rfl⟩ := Nat.exists_eq_add_one.mpr (Nat.zero_lt_of_lt hf)
  cases ms with
  | nil => rfl
  | cons m ms =>
    have hmore : ∀ text, (anotherMember true).Takes
        ((memberOf spelling write m).toList ++ text) true
        ((memberOf spelling write m).toList ++ text) := by
      intro text
      rw [toList_memberOf]
      rfl
    have hends := ends_join (c := '\x7d') (by decide) (ms.map (memberOf spelling write)) rest
    have hlater := takes_laterMembers hs (fun m hm => h m (List.mem_cons_of_mem _ hm))
      (Nat.lt_of_succ_lt_succ hf) rest
    rw [List.map_cons, Text.intercalate_cons, String.toList_append, List.append_assoc, members]
    exact (hmore _).bind (takes_member hs (h m List.mem_cons_self) hends
      (hlater.bind (takes_pure _ _)))

/-- An object is read as its members, if none of them is under the key of another. -/
theorem readsBack_object (budget : Nat) {ms : List (String × β)}
    (hd : (ms.map Prod.fst).Nodup)
    (h : ∀ m ∈ ms, (value budget).ReadsBack (write m.2) (meaning m.2)) :
    (value (budget + 1)).ReadsBack
      ("\x7b" ++ ",".intercalate (ms.map (memberOf spelling write)) ++ "\x7d")
      (.object (ms.map fun m => (m.1, meaning m.2))) := by
  intro rest _
  let text := (",".intercalate (ms.map (memberOf spelling write))).toList ++ '\x7d' :: rest
  have htext : ("\x7b" ++ ",".intercalate (ms.map (memberOf spelling write)) ++ "\x7d").toList ++
      rest = '\x7b' :: text := by
    simp [text, String.toList_append]
  have hnonempty : ∀ t ∈ ms.map (memberOf spelling write), 0 < t.toList.length := by
    intro t ht
    obtain ⟨m, -, rfl⟩ := List.mem_map.mp ht
    simp [memberOf, enquote, String.toList_append]
  have hfuel : ms.length < text.length := by
    have hle := Text.length_le_intercalate "," hnonempty
    rw [List.length_map] at hle
    rw [List.length_append, List.length_cons]
    omega
  have hcollected : Members.collect (ms.map fun m => (m.1, meaning m.2)) =
      ms.map fun m => (m.1, meaning m.2) := by
    apply Members.collect_of_nodup
    rwa [List.map_map]
  have hobject := (takes_members hs h hfuel rest).map fun found =>
    Json.object (Members.collect found)
  rw [hcollected] at hobject
  obtain ⟨inner, hinner⟩ := exists_valueAround budget
  rw [htext, value, hinner]
  rw [hinner] at hobject
  refine (takes_peekPastSpace (by decide) _).bind ?_
  exact (takes_advance _ _).bind ((takes_remaining _).bind hobject)

end Members

end Reader

end PipelineConfig
