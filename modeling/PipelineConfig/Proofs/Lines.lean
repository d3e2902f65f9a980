import PipelineConfig.Tool.Document

/-!
# Answers are lines

The compact text of a value never breaks the line, whatever is in it: line feeds within
its strings are escaped, and nothing else in it has any. So what the tool answers with is
one line, and the line tells data from an error.
-/

namespace PipelineConfig

/-- The text has no line feed. -/
def OneLine (s : String) : Prop := '\n' ∉ s.toList

instance (s : String) : Decidable (OneLine s) := inferInstanceAs (Decidable (¬ _))

namespace OneLine

variable {s t : String}

theorem append (hs : OneLine s) (ht : OneLine t) : OneLine (s ++ t) := by
  rw [OneLine, String.toList_append, List.mem_append]
  exact fun h => h.elim hs ht

theorem ofList {chars : List Char} (h : ∀ c ∈ chars, c ≠ '\n') : OneLine (String.ofList chars) := by
  rw [OneLine, String.toList_ofList]
  exact fun hm => h _ hm rfl

theorem join {parts : List String} (h : ∀ s ∈ parts, OneLine s) : OneLine (String.join parts) := by
  induction parts with
  | nil => decide
  | cons first rest ih =>
    rw [String.join_cons]
    exact (h first List.mem_cons_self).append (ih fun s hm => h s (List.mem_cons_of_mem _ hm))

theorem intercalate (hs : OneLine s) {parts : List String} (h : ∀ t ∈ parts, OneLine t) :
    OneLine (s.intercalate parts) := by
  induction parts with
  | nil =>
    rw [String.intercalate_nil]
    decide
  | cons first rest ih =>
    have hfirst := h first List.mem_cons_self
    have hrest := ih fun t hm => h t (List.mem_cons_of_mem _ hm)
    cases rest with
    | nil =>
      rw [String.intercalate_singleton]
      exact hfirst
    | cons second others =>
      rw [String.intercalate_cons_cons]
      exact (hfirst.append hs).append hrest

theorem digitChar (n : Nat) : Nat.digitChar n ≠ '\n' := by
  grind [Nat.digitChar]

theorem nat (n : Nat) : OneLine (toString n) := by
  intro h
  have hdigits : '\n' ∈ Nat.toDigits 10 n := by
    rw [← Nat.toList_repr]
    exact h
  have hdigit := Nat.isDigit_of_mem_toDigits (by decide) (by decide) hdigits
  revert hdigit
  decide

theorem int (n : Int) : OneLine (toString n) := by
  cases n with
  | ofNat n => exact nat n
  | negSucc n => exact append (by decide) (nat (n + 1))

end OneLine

namespace Binary64

theorem oneLine_digitText (digits : List Nat) : OneLine (digitText digits) := by
  refine OneLine.ofList fun c hm => ?_
  obtain ⟨n, -, rfl⟩ := List.mem_map.mp hm
  exact OneLine.digitChar n

theorem Decimal.oneLine_text (d : Decimal) : OneLine d.text := by
  have hdigits := oneLine_digitText
  unfold text
  dsimp only
  split
  · split
    · exact (hdigits _).append (by decide)
    · exact ((hdigits _).append (by decide)).append (hdigits _)
  · split
    · exact OneLine.append (by decide) (hdigits _)
    · have hfraction : OneLine (if d.digits.length ≤ 1 then "" else
          "." ++ digitText (d.digits.drop 1)) := by
        split
        · decide
        · exact OneLine.append (by decide) (hdigits _)
      have hsign : OneLine (if d.point - 1 < 0 then "-" else "+") := by split <;> decide
      exact ((((hdigits _).append hfraction).append (by decide)).append hsign).append (.nat _)

theorem oneLine_text (x : Binary64) : OneLine x.text := by
  have hsign : OneLine (if x.negative then "-" else "") := by split <;> decide
  refine hsign.append ?_
  split
  · decide
  · exact Decimal.oneLine_text _

end Binary64

namespace Json

theorem oneLine_number (n : Number) : OneLine n.text := by
  cases n with
  | integer n => exact .int n
  | float x => exact x.oneLine_text

theorem oneLine_fourHex (code : Nat) : OneLine (fourHex code) := by
  refine OneLine.ofList fun d hm => ?_
  obtain ⟨n, -, rfl⟩ := List.mem_map.mp hm
  exact OneLine.digitChar _

theorem oneLine_escape (c : Char) : OneLine (escape c) := by
  unfold escape
  split
  iterate 7 decide
  split
  · exact OneLine.append (by decide) (oneLine_fourHex _)
  · next hplain =>
    refine OneLine.ofList fun d hm => ?_
    rintro rfl
    cases List.mem_singleton.mp hm
    exact hplain (by decide)

theorem oneLine_quoted (s : String) : OneLine (quoted s) := by
  have hescaped : OneLine (String.join (s.toList.map escape)) := by
    refine OneLine.join fun part hm => ?_
    obtain ⟨c, -, rfl⟩ := List.mem_map.mp hm
    exact oneLine_escape c
  exact (OneLine.append (by decide) hescaped).append (by decide)

mutual

/-- The text of a value is on one line. -/
theorem oneLine_text : ∀ v : Json, OneLine v.text
  | .null => by decide
  | .bool true => by decide
  | .bool false => by decide
  | .number n => oneLine_number n
  | .string s => oneLine_quoted s
  | .array elements =>
    (OneLine.append (by decide) (OneLine.intercalate (by decide)
      (oneLine_textOfElements elements))).append (by decide)
  | .object members =>
    (OneLine.append (by decide) (OneLine.intercalate (by decide)
      (oneLine_textOfMembers members))).append (by decide)

theorem oneLine_textOfElements : ∀ elements : List Json, ∀ t ∈ textOfElements elements, OneLine t
  | [] => fun _ hm => by cases hm
  | v :: rest => List.forall_mem_cons.mpr ⟨oneLine_text v, oneLine_textOfElements rest⟩

theorem oneLine_textOfMembers :
    ∀ members : List (String × Json), ∀ t ∈ textOfMembers members, OneLine t
  | [] => fun _ hm => by cases hm
  | (key, v) :: rest => List.forall_mem_cons.mpr
      ⟨((oneLine_quoted key).append (by decide)).append (oneLine_text v),
        oneLine_textOfMembers rest⟩

end

end Json

end PipelineConfig
