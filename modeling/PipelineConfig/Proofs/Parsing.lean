import PipelineConfig.Json.Parse
import PipelineConfig.Proofs.Members
import PipelineConfig.Proofs.Values

/-!
# Values that are read are well keyed

Whatever a text holds, the value that is read from it repeats no key in any object:
the members of an object are collected before the object is made. What a reader made
of parts can give is known from what its parts give.
-/

namespace PipelineConfig

namespace Reader

variable {α β : Type}

/-- Whatever the reader reads has the property. -/
def Yields (reader : Reader α) (p : α → Prop) : Prop :=
  ∀ text found, reader text = .ok found → p found.1

variable {reader : Reader α} {p : α → Prop} {q : β → Prop}

theorem yields_true : reader.Yields fun _ => True := fun _ _ _ => trivial

theorem yields_pure {a : α} (h : p a) : (pure a : Reader α).Yields p := by
  intro text found hr
  cases hr
  exact h

/-- A failure yields nothing. -/
theorem yields_ahead {problem : Problem} : (ahead problem : Reader α).Yields p := by
  intro text found hr
  cases hr

theorem Yields.bind {next : α → Reader β} (hr : reader.Yields p)
    (hn : ∀ a, p a → (next a).Yields q) : (reader >>= next).Yields q := by
  intro text found h
  change (reader text >>= fun r => next r.1 r.2) = .ok found at h
  cases hread : reader text with
  | error failure =>
    rw [hread] at h
    cases h
  | ok r =>
    rw [hread] at h
    exact hn r.1 (hr text r hread) r.2 found h

/-- What comes after a reader alone decides what is yielded. -/
theorem yields_bind {next : α → Reader β} (hn : ∀ a, (next a).Yields q) :
    (reader >>= next).Yields q :=
  yields_true.bind fun a _ => hn a

theorem Yields.map {f : α → β} (hr : reader.Yields p) (hf : ∀ a, p a → q (f a)) :
    (f <$> reader).Yields q :=
  hr.bind fun a ha => yields_pure (hf a ha)

/-- Elements are what the reader of one yields. -/
theorem yields_elements {element : Reader Json} (h : element.Yields Json.WellKeyed)
    (fuel : Nat) (first : Bool) :
    (elements element fuel first).Yields fun found => ∀ v ∈ found, v.WellKeyed := by
  induction fuel generalizing first with
  | zero => exact yields_ahead
  | succ fuel ih =>
    rw [elements]
    refine yields_bind fun more => ?_
    cases more with
    | false => exact yields_bind fun _ => yields_pure (by simp)
    | true =>
      refine h.bind fun v hv => (ih false).bind fun rest hrest => yields_pure ?_
      exact List.forall_mem_cons.mpr ⟨hv, hrest⟩

/-- The values of members are what the reader of one yields. -/
theorem yields_members {value : Reader Json} (h : value.Yields Json.WellKeyed)
    (fuel : Nat) (first : Bool) :
    (members value fuel first).Yields fun found => ∀ m ∈ found, m.2.WellKeyed := by
  induction fuel generalizing first with
  | zero => exact yields_ahead
  | succ fuel ih =>
    rw [members]
    refine yields_bind fun more => ?_
    cases more with
    | false => exact yields_bind fun _ => yields_pure (by simp)
    | true =>
      refine yields_bind fun _ => yields_bind fun key => yields_bind fun _ => ?_
      refine h.bind fun v hv => (ih false).bind fun rest hrest => yields_pure ?_
      exact List.forall_mem_cons.mpr ⟨hv, hrest⟩

theorem yields_valueAround {inner : Option (Reader Json)}
    (h : ∀ value, inner = some value → value.Yields Json.WellKeyed) :
    (valueAround inner).Yields Json.WellKeyed := by
  unfold valueAround
  refine yields_bind fun next => ?_
  split
  · exact yields_ahead
  · exact yields_bind fun _ => yields_bind fun _ => yields_pure .null
  · exact yields_bind fun _ => yields_bind fun _ => yields_pure (.bool true)
  · exact yields_bind fun _ => yields_bind fun _ => yields_pure (.bool false)
  · exact yields_bind fun _ => yields_true.map fun s _ => .string s
  · exact yields_bind fun _ => yields_true.map fun n _ => .number n
  · split
    · exact yields_ahead
    · next element =>
      refine yields_bind fun _ => yields_bind fun left => ?_
      exact (yields_elements (h element rfl) left.length true).map fun _ hall => .array hall
  · split
    · exact yields_ahead
    · next value =>
      refine yields_bind fun _ => yields_bind fun left => ?_
      refine (yields_members (h value rfl) left.length true).map fun found hall => ?_
      refine .object Members.nodup_keys_collect fun name v hm => ?_
      exact hall (name, v) (Members.mem_of_mem_collect hm)
  · split
    · exact yields_true.map fun n _ => .number n
    · exact yields_ahead

/-- Whatever budget of open containers, a value that is read is well keyed. -/
theorem yields_value (budget : Nat) : (value budget).Yields Json.WellKeyed := by
  induction budget with
  | zero => exact yields_valueAround fun value h => by cases h
  | succ budget ih =>
    refine yields_valueAround fun value h => ?_
    cases h
    exact ih

/-- Running a reader on a whole text gives what the reader yields. -/
theorem Yields.run (h : reader.Yields p) {text : String} {a : α}
    (hr : reader.run text = .ok a) : p a := by
  have hwhole : (whole reader).Yields p := by
    refine h.bind fun a ha => yields_bind fun next => ?_
    cases next with
    | none => exact yields_pure ha
    | some c => exact yields_ahead
  rw [Reader.run] at hr
  split at hr
  · next value rest hread =>
    cases hr
    exact hwhole text.toList (a, rest) hread
  · cases hr

end Reader

/-- A value that is read from a text repeats no key in any object. -/
theorem Json.wellKeyed_of_parse {text : String} {v : Json} (h : Json.parse text = .ok v) :
    v.WellKeyed :=
  (Reader.yields_value Json.maxNesting).run h

end PipelineConfig
