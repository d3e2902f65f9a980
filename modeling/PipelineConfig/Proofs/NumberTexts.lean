import Mathlib.Algebra.Ring.Int.Defs
import Mathlib.Algebra.Ring.Nat
import PipelineConfig.Proofs.WrittenContainers

/-!
# Numbers are read back

The text of a number does not show where it ends. So a number is read back from within a
longer text only if what comes next does not go on with it, and then it is read as from a
text of its own. Every integer of 64 bits is read from its own text.
-/

namespace PipelineConfig

namespace Reader

section Steady

variable {α β : Type} {reader : Reader α} {next : α → Reader β} {text : List Char}

/-- What the reader takes off the front of the text, it also takes if the text goes on. -/
def Steady (reader : Reader α) (text : List Char) : Prop :=
  ∀ a left rest, Ends rest → reader.Takes text a left →
    reader.Takes (text ++ rest) a (left ++ rest)

theorem Takes.of_bind {b : β} {rest : List Char} (h : (reader >>= next).Takes text b rest) :
    ∃ a between, reader.Takes text a between ∧ (next a).Takes between b rest := by
  change (reader text >>= fun r => next r.1 r.2) = _ at h
  obtain ⟨⟨a, between⟩, hr, hn⟩ := bind_eq_ok_iff.mp h
  exact ⟨a, between, hr, hn⟩

theorem Takes.of_map {f : α → β} {b : β} {rest : List Char}
    (h : (f <$> reader).Takes text b rest) : ∃ a, reader.Takes text a rest ∧ f a = b := by
  change (reader >>= fun a => pure (f a)).Takes text b rest at h
  obtain ⟨a, between, hr, hn⟩ := h.of_bind
  cases hn
  exact ⟨a, hr, rfl⟩

theorem steady_pure (a : α) (text : List Char) : (pure a : Reader α).Steady text := by
  intro b left rest _ h
  cases h
  rfl

theorem Steady.bind (h : reader.Steady text)
    (hn : ∀ a left, reader.Takes text a left → (next a).Steady left) :
    (reader >>= next).Steady text := by
  intro b left rest hends htakes
  obtain ⟨a, between, hr, hb⟩ := htakes.of_bind
  exact (h a between rest hends hr).bind (hn a between hr b left rest hends hb)

theorem Steady.map (h : reader.Steady text) (f : α → β) : (f <$> reader).Steady text :=
  h.bind fun a left _ => steady_pure (f a) left

theorem steady_ahead (problem : Problem) (text : List Char) :
    (ahead problem : Reader α).Steady text := by
  intro a left rest _ h
  cases h

theorem steady_after (bytes : Nat) (problem : Problem) (text : List Char) :
    (after bytes problem : Reader α).Steady text := by
  intro a left rest _ h
  cases h

theorem steady_advance (c : Char) (text : List Char) : advance.Steady (c :: text) := by
  intro a left rest _ h
  cases h
  rfl

/-- A look at the next character makes no difference if the end of the text is taken like
anything that ends a number. -/
theorem steady_peek {next : Option Char → Reader β}
    (hnone : ∀ b left rest, Ends rest → (next none).Takes [] b left →
      (next rest.head?).Takes rest b (left ++ rest))
    (hsome : ∀ c others, text = c :: others → (next (some c)).Steady text) :
    (peek >>= next).Steady text := by
  intro b left rest hends h
  obtain ⟨o, between, hpeek, hb⟩ := h.of_bind
  cases hpeek
  cases text with
  | nil => exact (takes_peek rest).bind (hnone b left rest hends hb)
  | cons c others =>
    exact (takes_peek (c :: others ++ rest)).bind (hsome c others rfl b left rest hends hb)

end Steady

section Digits

theorem steady_digits (text : List Char) : digits.Steady text := by
  intro a left rest hends h
  cases h
  have hstop : rest.takeWhile Char.isDigit = [] ∧ rest.dropWhile Char.isDigit = rest := by
    cases rest with
    | nil => exact ⟨rfl, rfl⟩
    | cons c rest =>
      have hc := (hends c rfl).1
      exact ⟨List.takeWhile_cons_of_neg (Bool.eq_false_iff.mp hc),
        List.dropWhile_cons_of_neg (Bool.eq_false_iff.mp hc)⟩
  have hspan : (text ++ rest).takeWhile Char.isDigit = text.takeWhile Char.isDigit ∧
      (text ++ rest).dropWhile Char.isDigit = text.dropWhile Char.isDigit ++ rest := by
    induction text with
    | nil => exact hstop
    | cons c text ih =>
      rw [List.cons_append, List.takeWhile_cons, List.dropWhile_cons, List.takeWhile_cons,
        List.dropWhile_cons, ih.1, ih.2]
      cases c.isDigit <;> exact ⟨rfl, rfl⟩
  rw [Takes, digits, hspan.1, hspan.2]

theorem steady_wholeDigits (unfinished : Problem) (text : List Char) :
    (wholeDigits unfinished).Steady text := by
  unfold wholeDigits
  refine steady_peek (fun b left rest _ h => by cases h) fun c others htext => ?_
  subst htext
  split
  · next he => cases he
  · next he =>
    cases he
    refine (steady_advance '0' others).bind fun _ left h => ?_
    refine steady_peek (fun b left rest hends h => ?_) fun c others htext => ?_
    · cases h
      cases rest with
      | nil => rfl
      | cons d rest =>
        dsimp only [List.head?_cons]
        rw [(hends d rfl).1]
        rfl
    · dsimp only
      split
      · exact steady_ahead _ _
      · exact steady_pure _ _
  · split
    · exact steady_digits _
    · exact steady_after _ _ _

theorem steady_fractionDigits (unfinished : Problem) (text : List Char) :
    (fractionDigits unfinished).Steady text := by
  unfold fractionDigits
  refine steady_peek (fun b left rest hends h => ?_) fun c others htext => ?_
  · cases h
    cases rest with
    | nil => rfl
    | cons d rest =>
      have hd := (hends d rfl).2.1
      dsimp only [List.head?_cons]
      split
      · next he =>
        cases he
        exact absurd rfl hd
      · rfl
  · subst htext
    split
    · next he =>
      cases he
      refine (steady_advance '.' others).bind fun _ left h => ?_
      refine (steady_digits left).bind fun found left h => ?_
      split
      · refine steady_peek (fun b left rest _ h => by cases h) fun c others htext => ?_
        exact steady_ahead _ _
      · exact steady_pure _ _
    · exact steady_pure _ _

theorem steady_atLeastOne (unfinished : Problem) (text : List Char) :
    (exponent.atLeastOne unfinished).Steady text := by
  unfold exponent.atLeastOne
  refine steady_peek (fun b left rest _ h => by cases h) fun c others htext => ?_
  dsimp only
  split
  · exact steady_digits _
  · exact steady_after _ _ _

theorem steady_signed (unfinished : Problem) (text : List Char) :
    (exponent.signed unfinished).Steady text := by
  have hdigits : ∀ down text, (do pure (down, ← exponent.atLeastOne unfinished) :
      Reader (Bool × List Nat)).Steady text := fun down text =>
    (steady_atLeastOne unfinished text).bind fun found left _ => steady_pure _ _
  unfold exponent.signed
  refine steady_peek (fun b left rest _ h => by cases h) fun c others htext => ?_
  subst htext
  split
  · next he =>
    cases he
    exact (steady_advance '+' others).bind fun _ left _ => hdigits false left
  · next he =>
    cases he
    exact (steady_advance '-' others).bind fun _ left _ => hdigits true left
  · exact hdigits false _

theorem steady_exponent (unfinished : Problem) (text : List Char) :
    (exponent unfinished).Steady text := by
  unfold exponent
  refine steady_peek (fun b left rest hends h => ?_) fun c others htext => ?_
  · cases h
    cases rest with
    | nil => rfl
    | cons d rest =>
      obtain ⟨-, -, he, hE⟩ := hends d rfl
      dsimp only [List.head?_cons]
      split
      · next hd =>
        cases hd
        exact absurd rfl he
      · next hd =>
        cases hd
        exact absurd rfl hE
      · rfl
  · subst htext
    split
    · next he =>
      cases he
      exact (steady_advance 'e' others).bind fun _ left _ => (steady_signed unfinished left).map _
    · next he =>
      cases he
      exact (steady_advance 'E' others).bind fun _ left _ => (steady_signed unfinished left).map _
    · exact steady_pure _ _

theorem steady_number (negative : Bool) (text : List Char) : (number negative).Steady text := by
  unfold number
  have hnumeral : (numeral .valueMissing negative).Steady text := by
    unfold numeral
    refine (steady_wholeDigits _ text).bind fun whole left _ => ?_
    refine (steady_fractionDigits _ left).bind fun fraction left _ => ?_
    exact (steady_exponent _ left).bind fun power left _ => steady_pure _ _
  refine hnumeral.bind fun written left _ => ?_
  split
  · exact steady_pure _ _
  · intro a left rest _ h
    cases h

end Digits

theorem eq_of_takes_word {letters text rest : List Char} {v w : Json}
    (h : (do advance; word letters; pure v : Reader Json).Takes text w rest) : v = w := by
  obtain ⟨_, _, -, hword⟩ := h.of_bind
  obtain ⟨_, _, -, hpure⟩ := hword.of_bind
  cases hpure
  rfl

/-- A number that is read from a text of its own is read back wherever that ends. -/
theorem readsBack_number {n : Number}
    (h : (valueAround none).Takes n.text.toList (.number n) []) (budget : Nat) :
    (value budget).ReadsBack n.text (.number n) := by
  intro rest hends
  obtain ⟨inner, hinner⟩ := exists_valueAround budget
  rw [hinner]
  generalize n.text.toList = text at h ⊢
  obtain ⟨o, between, hpeek, hnext⟩ := h.of_bind
  cases hpeek
  cases hbegin : text.dropWhile isSpace with
  | nil =>
    rw [hbegin] at hnext
    cases hnext
  | cons c others =>
    have hpeek : peekPastSpace.Takes (text ++ rest) (some c) (c :: others ++ rest) := by
      have hpast : (text ++ rest).dropWhile isSpace = c :: others ++ rest := by
        rw [List.dropWhile_append, hbegin]
        rfl
      change Except.ok (((text ++ rest).dropWhile isSpace).head?, _) = _
      rw [hpast]
      rfl
    rw [hbegin] at hnext
    refine hpeek.bind ?_
    dsimp only [List.head?_cons] at hnext
    -- Only what begins with a sign or a digit is read as a number.
    split at hnext
    · next he => cases he
    · exact nomatch eq_of_takes_word hnext
    · exact nomatch eq_of_takes_word hnext
    · exact nomatch eq_of_takes_word hnext
    · obtain ⟨_, _, -, hquoted⟩ := hnext.of_bind
      obtain ⟨s, -, hs⟩ := hquoted.of_map
      cases hs
    · next he =>
      cases he
      exact ((steady_advance '-' others).bind fun _ left _ => (steady_number true left).map _)
        _ _ _ hends hnext
    · cases hnext
    · cases hnext
    · next hdefault =>
      have hsteady : (if c.isDigit then Json.number <$> number false
          else ahead .valueExpected).Steady (c :: others) := by
        split
        · exact (steady_number false _).map _
        · exact steady_ahead _ _
      cases hdefault
      exact hsteady _ _ _ hends hnext

section Integers

variable {m : Nat}

theorem isDigit_of_mem_toDigits {c : Char} (h : c ∈ Nat.toDigits 10 m) : c.isDigit = true :=
  Nat.isDigit_of_mem_toDigits (by decide) (by decide) h

/-- No digit but a single one is a leading zero. -/
theorem exists_first_digit (hm : 0 < m) :
    ∃ c others, Nat.toDigits 10 m = c :: others ∧ c ≠ '0' := by
  induction m using Nat.strong_induction_on with
  | _ m ih =>
    rw [Nat.toDigits_eq_if (by decide)]
    split
    · next hsmall =>
      have hdigit : ∀ d < 10, 0 < d → d.digitChar ≠ '0' := by decide
      exact ⟨m.digitChar, [], rfl, hdigit m hsmall hm⟩
    · next hlarge =>
      obtain ⟨c, others, hdigits, hc⟩ := ih (m / 10) (by omega) (by omega)
      exact ⟨c, others ++ [(m % 10).digitChar], by rw [hdigits, List.cons_append], hc⟩

theorem digitValue_digitChar {d : Nat} (h : d < 10) : digitValue d.digitChar = d := by
  revert d
  decide

/-- The digits of a number that fits a significand are all kept. -/
theorem ofWhole_toDigits (h : m < Significand.limit) :
    Significand.ofWhole ((Nat.toDigits 10 m).map digitValue) = ⟨m, 0⟩ := by
  induction m using Nat.strong_induction_on with
  | _ m ih =>
    rw [Nat.toDigits_eq_if (by decide)]
    split
    · next hsmall =>
      rw [List.map_cons, List.map_nil, digitValue_digitChar hsmall, Significand.ofWhole,
        List.foldl_cons, List.foldl_nil, Nat.mul_zero, Nat.zero_add, if_pos ⟨rfl, h⟩]
    · next hlarge =>
      have hrest := ih (m / 10) (by omega) (by omega)
      have hlast : 10 * (m / 10) + m % 10 = m := by omega
      rw [List.map_append, Significand.ofWhole, List.foldl_append]
      rw [Significand.ofWhole] at hrest
      rw [hrest, List.map_cons, digitValue_digitChar (by omega)]
      simp only [List.map_nil, List.foldl_cons, List.foldl_nil, hlast, h, and_self, if_true]

theorem takes_wholeDigits (unfinished : Problem) (m : Nat) :
    (wholeDigits unfinished).Takes (Nat.toDigits 10 m) ((Nat.toDigits 10 m).map digitValue) [] := by
  obtain rfl | hm := Nat.eq_zero_or_pos m
  · rfl
  · obtain ⟨c, others, hdigits, hc⟩ := exists_first_digit hm
    have hall : ∀ d ∈ Nat.toDigits 10 m, d.isDigit = true := fun d => isDigit_of_mem_toDigits
    have htaken : digits.Takes (Nat.toDigits 10 m) ((Nat.toDigits 10 m).map digitValue) [] := by
      rw [Takes, digits, List.takeWhile_eq_self_iff.mpr hall, List.dropWhile_eq_nil_iff.mpr hall]
    rw [hdigits] at hall htaken ⊢
    refine (takes_peek _).bind ?_
    dsimp only [List.head?_cons]
    split
    · next he => cases he
    · next he =>
      cases he
      exact absurd rfl hc
    · next he =>
      cases he
      rw [if_pos (hall c List.mem_cons_self)]
      exact htaken

/-- Digits alone are a numeral without fraction and exponent. -/
theorem takes_numeral (negative : Bool) (m : Nat) :
    (numeral .valueMissing negative).Takes (Nat.toDigits 10 m)
      ⟨negative, (Nat.toDigits 10 m).map digitValue, [], none⟩ [] :=
  (takes_wholeDigits _ m).bind rfl

theorem takes_number {negative : Bool} {n : Number}
    (h : (⟨negative, (Nat.toDigits 10 m).map digitValue, [], none⟩ : Numeral).value = .ok n) :
    (number negative).Takes (Nat.toDigits 10 m) n [] := by
  refine (takes_numeral negative m).bind ?_
  rw [h]
  rfl

theorem value_natural (h : m < 2 ^ 64) :
    (⟨false, (Nat.toDigits 10 m).map digitValue, [], none⟩ : Numeral).value =
      .ok (.integer m) := by
  rw [Numeral.value, ofWhole_toDigits h]
  rfl

theorem value_negated (hm : 0 < m) (h : m ≤ 2 ^ 63) :
    (⟨true, (Nat.toDigits 10 m).map digitValue, [], none⟩ : Numeral).value =
      .ok (.integer (-m)) := by
  have hfits : m < Significand.limit := Nat.lt_of_le_of_lt h (by decide)
  have hexact : ¬ (m = 0 ∨ Nat.pow 2 63 < m) := by
    rintro (hzero | hlarge)
    · omega
    · exact Nat.not_lt.mpr h hlarge
  rw [Numeral.value, ofWhole_toDigits hfits]
  dsimp only
  rw [if_neg (by decide), if_neg (by decide), if_pos rfl, if_neg hexact]

/-- A natural number is no word, text or container. -/
theorem takes_natural (h : m < 2 ^ 64) :
    (valueAround none).Takes (Nat.toDigits 10 m) (.number (.integer m)) [] := by
  have hread := takes_number (value_natural h)
  have hdigit : ∀ c ∈ Nat.toDigits 10 m, c.isDigit = true := fun c => isDigit_of_mem_toDigits
  cases hdigits : Nat.toDigits 10 m with
  | nil => exact absurd hdigits (Nat.toDigits_ne_nil)
  | cons c others =>
    have hc : c.isDigit = true := hdigit c (by rw [hdigits]; exact List.mem_cons_self)
    rw [hdigits] at hread
    have hspace : isSpace c = false := by
      refine Bool.eq_false_iff.mpr fun hs => ?_
      simp only [isSpace, Bool.or_eq_true, beq_iff_eq] at hs
      obtain ((rfl | rfl) | rfl) | rfl := hs
      all_goals exact absurd hc (by decide)
    refine (takes_peekPastSpace hspace others).bind ?_
    split
    · next he => cases he
    iterate 7
      · next he =>
        cases he
        exact absurd hc (by decide)
    · next he =>
      cases he
      rw [if_pos hc]
      exact hread.map Json.number

/-- An integer of 64 bits is read from its own text. -/
theorem takes_integer {n : Int} (hlow : -2 ^ 63 ≤ n) (hhigh : n < 2 ^ 64) :
    (valueAround none).Takes (Number.integer n).text.toList (.number (.integer n)) [] := by
  have htext : ∀ m : Nat, (toString m).toList = Nat.toDigits 10 m := fun m => Nat.toList_repr
  cases n with
  | ofNat m =>
    change (valueAround none).Takes (toString m).toList (.number (.integer m)) []
    have hfits : (m : Int) < 2 ^ 64 := hhigh
    rw [htext]
    exact takes_natural (by omega)
  | negSucc m =>
    change (valueAround none).Takes ("-" ++ toString (m + 1)).toList _ []
    rw [String.toList_append, htext]
    have hread := takes_number (value_negated (Nat.zero_lt_succ m) (by omega))
    refine (takes_peekPastSpace (by decide) _).bind ?_
    exact (takes_advance '-' _).bind (hread.map Json.number)

end Integers

end Reader

end PipelineConfig
