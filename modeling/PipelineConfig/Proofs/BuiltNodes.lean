import PipelineConfig.Proofs.InvertedBounds
import PipelineConfig.Proofs.Rereading

/-!
# Nodes that are built

Whatever steps a node is built by, it is written as a definition that can be read. No step
leaves bounds out of order, as integers that are in order compare as such after rounding. A
node that was built comes back as it was, unless a default is null, an object is built
without fields or a name is given to two fields, anywhere in its tree.
-/

namespace PipelineConfig

/-- Integers that are in order compare as such. -/
theorem Bounds.inverted_eq_false_of_le {least greatest : Option Int}
    (h : ∀ m n, least = some m → greatest = some n → m ≤ n) :
    (ofIntegers least greatest).inverted = false := by
  cases least with
  | none => rfl
  | some m =>
    cases greatest with
    | none => rfl
    | some n =>
      have hmono := Number.order_mono (h m n rfl rfl)
      exact decide_eq_false (by omega)

namespace Schema

/-- A node that comes of finitely many steps, none of which is a misuse. -/
inductive Built : Schema → Prop where
  /-- Any text. -/
  | anyString : Built anyString
  /-- Any whole number. -/
  | anyInteger : Built anyInteger
  /-- Any number. -/
  | anyNumber : Built anyNumber
  /-- Any truth value. -/
  | anyBoolean : Built anyBoolean
  /-- An object with the given fields, each of which has a node that is built. -/
  | form {properties : List (String × Schema)} :
      (∀ name node, (name, node) ∈ properties → Built node) → Built (form properties)
  /-- Any object. -/
  | anyObject : Built anyObject
  /-- An array of elements whose node is built. -/
  | listOf {items : Schema} : Built items → Built items.listOf
  /-- The field must be there. -/
  | asRequired {node : Schema} : Built node → Built node.asRequired
  /-- The field takes a value when it is left out. -/
  | withDefault {node : Schema} {value : Json} : Built node → value.WellKeyed →
      Built (node.withDefault value)
  /-- The field has a name for people. -/
  | withTitle {node : Schema} {title : String} : Built node → Built (node.withTitle title)
  /-- The field is one of some values. -/
  | allowing {node narrowed : Schema} {values : List Json} : Built node →
      (∀ v ∈ values, v.WellKeyed) → node.allowing values = .ok narrowed → Built narrowed
  /-- The field lies within bounds. -/
  | within {node narrowed : Schema} {minimum maximum : Option Int} : Built node →
      node.within minimum maximum = .ok narrowed → Built narrowed
  /-- The elements of the array are distinct. -/
  | distinct {node narrowed : Schema} : Built node → node.distinct = .ok narrowed →
      Built narrowed

/-! ### What a step can do -/

section Steps

variable {node narrowed : Schema}

/-- Values are allowed on a leaf only. -/
theorem exists_leaf_of_allowing {values : List Json} (h : node.allowing values = .ok narrowed) :
    ∃ header type allowed, node = leaf header type allowed ∧
      narrowed = leaf header type values := by
  obtain ⟨-, h⟩ := ite_error_eq_ok_iff.mp h
  split at h
  · next header type allowed _ =>
    cases h
    exact ⟨header, type, allowed, rfl, rfl⟩
  · cases h

/-- Bounds are set on a leaf only, and are in order. -/
theorem exists_leaf_of_within {minimum maximum : Option Int}
    (h : node.within minimum maximum = .ok narrowed) :
    ∃ header type allowed, node = leaf header type allowed ∧
      narrowed = leaf header (type.withBounds (.ofIntegers minimum maximum)) allowed ∧
      ∀ least greatest, minimum = some least → maximum = some greatest → least ≤ greatest := by
  obtain ⟨hinverted, h⟩ := ite_error_eq_ok_iff.mp h
  have hordered : ∀ least greatest, minimum = some least → maximum = some greatest →
      least ≤ greatest := by
    rintro least greatest rfl rfl
    exact Int.not_lt.mp fun hlt => hinverted (decide_eq_true hlt)
  split at h
  · next header bounds allowed _ =>
    cases h
    exact ⟨header, .integer bounds, allowed, rfl, rfl, hordered⟩
  · next header bounds allowed _ =>
    cases h
    exact ⟨header, .number bounds, allowed, rfl, rfl, hordered⟩
  · cases h

/-- Elements are made distinct in an array only. -/
theorem exists_array_of_distinct (h : node.distinct = .ok narrowed) :
    ∃ header unique items, node = array header unique items ∧
      narrowed = array header true items := by
  cases node with
  | array header unique items =>
    cases h
    exact ⟨header, unique, items, rfl, rfl⟩
  | leaf | object | openObject => cases h

end Steps

namespace Orderly

variable {node narrowed : Schema}

theorem header (h : node.Orderly) : node.header.WellKeyed := by
  cases h <;> assumption

theorem of_contains {inner : Schema} (hc : node.Contains inner) (h : node.Orderly) :
    inner.Orderly := by
  induction hc with
  | self => exact h
  | field hm _ ih =>
    cases h with
    | object _ hfields => exact ih (hfields _ _ hm)
  | items _ ih =>
    cases h with
    | array _ hitems => exact ih hitems

theorem withHeader {header : Header} (h : node.Orderly) (hk : header.WellKeyed) :
    (node.withHeader header).Orderly := by
  cases h with
  | leaf _ hbounds hallowed => exact .leaf hk hbounds hallowed
  | object _ hfields => exact .object hk hfields
  | openObject => exact .openObject hk
  | array _ hitems => exact .array hk hitems

theorem allowing {values : List Json} (h : node.Orderly) (hv : ∀ v ∈ values, v.WellKeyed)
    (hs : node.allowing values = .ok narrowed) : narrowed.Orderly := by
  obtain ⟨header, type, allowed, rfl, rfl⟩ := exists_leaf_of_allowing hs
  cases h with
  | leaf hheader hbounds _ => exact .leaf hheader hbounds hv

theorem within {minimum maximum : Option Int} (h : node.Orderly)
    (hs : node.within minimum maximum = .ok narrowed) : narrowed.Orderly := by
  obtain ⟨header, type, allowed, rfl, rfl, hordered⟩ := exists_leaf_of_within hs
  cases h with
  | leaf hheader hbounds hallowed =>
    refine .leaf hheader ?_ hallowed
    cases type with
    | integer | number => exact Bounds.inverted_eq_false_of_le hordered
    | string | boolean => exact hbounds

theorem distinct (h : node.Orderly) (hs : node.distinct = .ok narrowed) : narrowed.Orderly := by
  obtain ⟨header, unique, items, rfl, rfl⟩ := exists_array_of_distinct hs
  cases h with
  | array hheader hitems => exact .array hheader hitems

end Orderly

/-- No step leads to a node that is not orderly. -/
theorem Built.orderly {node : Schema} (h : node.Built) : node.Orderly := by
  have hplain : Header.WellKeyed {} := fun v hv => by cases hv
  have hnone : ∀ v ∈ ([] : List Json), v.WellKeyed := fun v hm => by cases hm
  induction h with
  | anyString | anyInteger | anyNumber | anyBoolean => exact .leaf hplain rfl hnone
  | form _ ih => exact .object hplain ih
  | anyObject => exact .openObject hplain
  | listOf _ ih => exact .array hplain ih
  | asRequired _ ih | withTitle _ ih => exact ih.withHeader ih.header
  | withDefault _ hv ih =>
    exact ih.withHeader fun v he => by
      cases he
      exact hv
  | allowing _ hv hs ih => exact ih.allowing hv hs
  | within _ hs ih => exact ih.within hs
  | distinct _ hs ih => exact ih.distinct hs

/-- Well keyed defaults are all that is built into a node. -/
theorem Built.wellKeyed {node : Schema} (h : node.Built) : node.WellKeyed :=
  fun _ hc => (h.orderly.of_contains hc).header

/-- A node that is built can be read from what it is written as, under any path. It is the
same exactly if nothing in its tree is lost, and then is the very node. -/
theorem read_from_written {node : Schema} (hn : node.Built) (path : String) :
    ∃ read, ofJson path node.toJson = .ok read ∧
      (read.same node = true ↔ ¬ ∃ inner, node.Contains inner ∧ inner.Lossy) ∧
      ((¬ ∃ inner, node.Contains inner ∧ inner.Lossy) → read = node) := by
  have hlossless : (¬ ∃ inner, node.Contains inner ∧ inner.Lossy) ↔ node.Lossless := by
    simp only [Lossless, not_exists, not_and]
  refine ⟨node.reread, ofJson_toJson_reread hn.orderly path, ?_, ?_⟩
  · rw [hlossless, same_reread_iff hn.orderly]
  · rw [hlossless]
    exact reread_eq_self

/-- A worker comes back as it was built. A list of pools, in which the default of a field is
null, comes back as another one. -/
theorem read_from_written_pools :
    let threads := withDefault (.number (.integer 4))
      (leaf {} (.integer (.ofIntegers (some 1) (some 64))) [])
    let mode := asRequired (leaf {} .string [.string "fast", .string "safe"])
    let tags := array {} true anyString
    let worker := withTitle "Worker" (form [("threads", threads), ("mode", mode), ("tags", tags)])
    let pools := listOf (form [("worker", worker), ("idle", withDefault .null anyBoolean)])
    (∃ read, ofJson "worker" worker.toJson = .ok read ∧ read = worker) ∧
      ∃ read, ofJson "pools" pools.toJson = .ok read ∧ read.same pools = false := by
  intro threads mode tags worker pools
  have hbounded : anyInteger.within (some 1) (some 64) =
      .ok (leaf {} (.integer (.ofIntegers (some 1) (some 64))) []) := rfl
  have hthreads : threads.Built := .withDefault (.within .anyInteger hbounded) (.number _)
  have hallowed : anyString.allowing [.string "fast", .string "safe"] =
      .ok (leaf {} .string [.string "fast", .string "safe"]) := rfl
  have hmode : mode.Built := by
    refine .asRequired (.allowing .anyString (fun v hm => ?_) hallowed)
    simp only [List.mem_cons, List.not_mem_nil, or_false] at hm
    obtain rfl | rfl := hm <;> exact .string _
  have htags : tags.Built := .distinct (.listOf .anyString) rfl
  have hworker : worker.Built := by
    refine .withTitle (.form fun name node hm => ?_)
    simp only [List.mem_cons, List.not_mem_nil, or_false, Prod.mk.injEq] at hm
    obtain ⟨-, rfl⟩ | ⟨-, rfl⟩ | ⟨-, rfl⟩ := hm
    · exact hthreads
    · exact hmode
    · exact htags
  have hpools : pools.Built := by
    refine .listOf (.form fun name node hm => ?_)
    simp only [List.mem_cons, List.not_mem_nil, or_false, Prod.mk.injEq] at hm
    obtain ⟨-, rfl⟩ | ⟨-, rfl⟩ := hm
    · exact hworker
    · exact .withDefault .anyBoolean .null
  have hlossless : worker.Lossless := by
    refine lossless_object.mpr ⟨nofun, nofun, by decide, fun name child hm => ?_⟩
    simp only [List.mem_cons, List.not_mem_nil, or_false, Prod.mk.injEq] at hm
    obtain ⟨-, rfl⟩ | ⟨-, rfl⟩ | ⟨-, rfl⟩ := hm
    · exact lossless_leaf.mpr nofun
    · exact lossless_leaf.mpr nofun
    · exact lossless_array.mpr ⟨nofun, lossless_leaf.mpr nofun⟩
  have hlost : ∃ inner, pools.Contains inner ∧ inner.Lossy :=
    ⟨_, .items (.field (List.mem_cons_of_mem _ List.mem_cons_self) (.self _)), .nullDefault rfl⟩
  obtain ⟨read, hread, -, hsame⟩ := read_from_written hworker "worker"
  obtain ⟨other, hother, hiff, -⟩ := read_from_written hpools "pools"
  refine ⟨⟨read, hread, hsame fun ⟨inner, hc, hl⟩ => hlossless inner hc hl⟩, other, hother, ?_⟩
  exact Bool.eq_false_iff.mpr fun hs => hiff.mp hs hlost

end Schema

end PipelineConfig
