import PipelineConfig.Log.Record
import PipelineConfig.Proofs.ByteOrder
import PipelineConfig.Proofs.Lines
import PipelineConfig.Proofs.WrittenContainers

/-!
# Log records are read back

Whatever is logged, its record is one line, and the line is read as an object of exactly
what was logged: the event, the level, and the fields in ascending order of the bytes of
their keys. The order in which fields were given leaves no trace.
-/

namespace PipelineConfig

namespace LogRecord

section Escapes

theorem oneLine_escape (c : Char) : OneLine (escape c) := by
  unfold escape
  split
  iterate 5 decide
  split
  · exact OneLine.append (by decide) (Json.oneLine_fourHex _)
  · next hplain =>
    refine OneLine.ofList fun d hm => ?_
    rintro rfl
    cases List.mem_singleton.mp hm
    exact hplain (by decide)

/-- Every character is read back from its escape. -/
theorem spells_escape (c : Char) : Reader.Spells (escape c) c := by
  unfold escape
  split
  · exact Reader.spells_letter rfl
  · exact Reader.spells_letter rfl
  · exact Reader.spells_letter rfl
  · exact Reader.spells_letter rfl
  · exact Reader.spells_letter rfl
  · next hquote hbackslash _ _ _ =>
    split
    · next hcontrol =>
      apply Reader.spells_code
      simp only [isControl, Bool.or_eq_true, Bool.and_eq_true, decide_eq_true_eq] at hcontrol
      omega
    · next hplain =>
      refine Reader.spells_plain ?_ hquote hbackslash
      simp only [isControl, Bool.or_eq_true, Bool.and_eq_true, decide_eq_true_eq] at hplain
      omega

theorem oneLine_quoted (s : String) : OneLine (quoted s) := by
  have hescaped : OneLine (String.join (s.toList.map escape)) := by
    refine OneLine.join fun part hm => ?_
    obtain ⟨c, -, rfl⟩ := List.mem_map.mp hm
    exact oneLine_escape c
  exact (OneLine.append (by decide) hescaped).append (by decide)

end Escapes

section Order

variable {record : LogRecord} (hd : (record.fields.map Prod.fst).Nodup)

theorem perm_sortedFields (record : LogRecord) : record.sortedFields.Perm record.fields :=
  List.mergeSort_perm _ _

include hd

theorem nodup_keys_sortedFields : (record.sortedFields.map Prod.fst).Nodup :=
  ((perm_sortedFields record).map Prod.fst).nodup_iff.mpr hd

/-- Under distinct keys the bytes of the keys are in strictly ascending order. -/
theorem pairwise_sortedFields :
    record.sortedFields.Pairwise fun a b => Text.bytes a.1 < Text.bytes b.1 := by
  have hsorted := pairwise_mergeSort_text Prod.fst record.fields
  have hdistinct := List.pairwise_map.mp (nodup_keys_sortedFields hd)
  refine (hsorted.and hdistinct).imp fun {a b} ⟨hle, hne⟩ => ?_
  exact Text.bytes_lt_bytes (Std.lt_of_le_of_ne (of_decide_eq_true hle) hne)

/-- Under distinct keys the fields are sorted in the same way, in whatever order they come. -/
theorem sortedFields_eq_of_perm {fields : List (String × String)}
    (hp : fields.Perm record.fields) :
    sortedFields { record with fields := fields } = record.sortedFields := by
  have hfrom := perm_sortedFields { record with fields := fields }
  refine List.Perm.eq_of_pairwise ?_ (pairwise_mergeSort_text Prod.fst fields)
    (pairwise_mergeSort_text Prod.fst record.fields)
    (hfrom.trans (hp.trans (perm_sortedFields record).symm))
  intro a b ha hb hab hba
  have hkey : a.1 = b.1 := String.le_antisymm (of_decide_eq_true hab) (of_decide_eq_true hba)
  have hmema : (b.1, a.2) ∈ record.fields := by
    rw [← hkey]
    exact hp.mem_iff.mp (hfrom.mem_iff.mp ha)
  have hmemb : (b.1, b.2) ∈ record.fields := (perm_sortedFields record).mem_iff.mp hb
  exact Prod.ext hkey (Members.eq_of_mem hd hmema hmemb)

/-- Fields in ascending order of their keys are the sorted ones. -/
theorem sortedFields_eq {sorted : List (String × String)} (hp : sorted.Perm record.fields)
    (ha : sorted.Pairwise fun a b => decide (a.1 ≤ b.1) = true) :
    record.sortedFields = sorted := by
  rw [← sortedFields_eq_of_perm hd hp]
  exact List.mergeSort_of_pairwise ha

end Order

/-- The line of a record without its end. -/
def body (record : LogRecord) : String :=
  "\x7b" ++ ",".intercalate (record.members.map memberText) ++ "\x7d"

theorem line_eq (record : LogRecord) : record.line = record.body ++ "\n" := by
  have hend : "\x7d\n" = "\x7d" ++ "\n" := by decide
  rw [line, body, hend, ← String.append_assoc]

theorem oneLine_body (record : LogRecord) : OneLine record.body := by
  refine (OneLine.append (by decide) ?_).append (by decide)
  refine OneLine.intercalate (by decide) fun t ht => ?_
  obtain ⟨member, -, rfl⟩ := List.mem_map.mp ht
  exact ((oneLine_quoted member.1).append (by decide)).append (oneLine_quoted member.2)

/-- What the line is read as: an object of the members. -/
def content (record : LogRecord) : Json :=
  .object (record.members.map fun member => (member.1, .string member.2))

/-- The line is read as its content, if no member is under the key of another. -/
theorem parse_line {record : LogRecord} (hd : (record.members.map Prod.fst).Nodup) :
    Json.parse record.line = .ok record.content := by
  have hread : (Reader.value Json.maxNesting).ReadsBack record.body record.content :=
    Reader.readsBack_object spells_escape 126 hd fun member _ =>
      Reader.readsBack_string spells_escape 126 member.2
  have htext : record.line.toList = record.body.toList ++ ['\n'] := by
    rw [line_eq, String.toList_append]
    rfl
  have htakes := hread ['\n'] (Reader.ends_cons (by decide) [])
  rw [← htext] at htakes
  exact htakes.run rfl

/-- No key repeats another if the keys of the fields are distinct and new. -/
theorem nodup_keys_members {record : LogRecord} (hd : (record.fields.map Prod.fst).Nodup)
    (hevent : "event" ∉ record.fields.map Prod.fst)
    (hseverity : "severity" ∉ record.fields.map Prod.fst) :
    (record.members.map Prod.fst).Nodup := by
  have hkeys : ∀ key, key ∈ record.sortedFields.map Prod.fst ↔ key ∈ record.fields.map Prod.fst :=
    fun key => ((perm_sortedFields record).map Prod.fst).mem_iff
  rw [members, List.map_cons, List.map_cons, List.nodup_cons, List.nodup_cons, List.mem_cons,
    hkeys, hkeys]
  have hnames : "event" ≠ "severity" := by decide
  exact ⟨fun h => h.elim hnames hevent, hseverity, nodup_keys_sortedFields hd⟩

/-- The record is one line that tells what was logged, no more and no less. -/
theorem line_tells (record : LogRecord) (hd : (record.fields.map Prod.fst).Nodup)
    (hevent : "event" ∉ record.fields.map Prod.fst)
    (hseverity : "severity" ∉ record.fields.map Prod.fst) :
    (∃ body, record.line = body ++ "\n" ∧ '\n' ∉ body.toList) ∧
    (∃ sorted : List (String × String), sorted.Perm record.fields ∧
      (sorted.Pairwise fun a b => Text.bytes a.1 < Text.bytes b.1) ∧
      Json.parse record.line = .ok (.object (("event", .string record.event) ::
        ("severity", .string record.level.name) ::
          sorted.map fun field => (field.1, .string field.2)))) ∧
    ∀ fields, fields.Perm record.fields →
      line { record with fields := fields } = record.line := by
  refine ⟨⟨record.body, record.line_eq, record.oneLine_body⟩, ?_, ?_⟩
  · exact ⟨record.sortedFields, perm_sortedFields record, pairwise_sortedFields hd,
      parse_line (nodup_keys_members hd hevent hseverity)⟩
  · intro fields hp
    rw [line, line, members, members, sortedFields_eq_of_perm hd hp]

/-- A record with quotes, a text that looks like an escape, control characters of both ranges
and keys that are not in order. -/
def awkward : LogRecord :=
  ⟨.warn, "a \"b\"\n", [("ü", "\\u0041"), ("code", "\u0085"), ("z", "é\t")]⟩

/-- The awkward record is told in the order of its keys. -/
theorem line_tells_awkward :
    (∃ body, awkward.line = body ++ "\n" ∧ '\n' ∉ body.toList) ∧
    Json.parse awkward.line = .ok (.object [("event", .string "a \"b\"\n"),
      ("severity", .string "WARN"), ("code", .string "\u0085"), ("z", .string "é\t"),
      ("ü", .string "\\u0041")]) ∧
    line { awkward with fields := awkward.fields.reverse } = awkward.line := by
  obtain ⟨hline, ⟨sorted, hperm, hascending, hread⟩, hsame⟩ :=
    line_tells awkward (by decide) (by decide) (by decide)
  have hsorted : sorted = [("code", "\u0085"), ("z", "é\t"), ("ü", "\\u0041")] := by
    refine List.Perm.eq_of_pairwise (fun a b _ _ hab hba => absurd hba (List.lt_asymm hab))
      hascending ?_ (hperm.trans ?_)
    · simp only [Text.bytes_eq]
      decide
    · decide
  rw [hsorted] at hread
  exact ⟨hline, hread, hsame _ (List.reverse_perm _)⟩

end LogRecord

end PipelineConfig
