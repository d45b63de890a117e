import Mathlib.Algebra.Group.Nat.Defs
import Mathlib.Tactic.Common
import ShaderWord.Definition

/-!
# Pinned bits

A pin gives values to some bits of a word. The fixed bits of a definition are a pin, and so are the
bits of a field under the key that it selects by.

Pins are put together by OR of their masks and of their values (`Pin.join`), whether they agree or not.
Three facts say what the result is good for: if the pins agree with one another, they all hold of the joined
value (`holds_join_value`) and the join holds where all of them do (`holds_join_iff`); and what disagrees with
the join disagrees with one of the pins (`exists_disagrees_of_join`).
-/

namespace ShaderWord

/-! ### Words as sets of bits -/

theorem inter_eq_zero_iff {a b : Word} :
    a &&& b = 0 ↔ ∀ i, a.getLsbD i = true → b.getLsbD i = false := by
  rw [BitVec.eq_of_getLsbD_eq_iff]
  constructor
  · intro h i ha
    simpa [ha] using h i (BitVec.lt_of_getLsbD ha)
  · intro h i _
    cases ha : a.getLsbD i with
    | false => simp [ha]
    | true => simp [ha, h i ha]

theorem inter_eq_left_iff {a b : Word} :
    a &&& b = a ↔ ∀ i, a.getLsbD i = true → b.getLsbD i = true := by
  rw [BitVec.eq_of_getLsbD_eq_iff]
  constructor
  · intro h i ha
    simpa [ha] using h i (BitVec.lt_of_getLsbD ha)
  · intro h i _
    cases ha : a.getLsbD i with
    | false => simp [ha]
    | true => simp [ha, h i ha]

/-! ### Pins -/

/-- Some bits of a word, and the values they are to have. -/
structure Pin where
  mask : Word
  value : Word

/-- The fixed bits. -/
def Shape.pin (s : Shape) : Pin := ⟨s.mask, s.value⟩

/-- The bits of the field as `key` has them. -/
def Field.pin (f : Field) (key : Word) : Pin := ⟨f.slice.mask, key <<< f.slice.offset.toNat⟩

namespace Pin

/-- The word has the pinned values. -/
def Holds (p : Pin) (w : Word) : Prop := w &&& p.mask = p.value

/-- No bit of the value is outside the mask. -/
def IsWithin (p : Pin) : Prop := p.value &&& ~~~p.mask = 0

/-- The pins have the same value at each bit that both pin. -/
def Agrees (p q : Pin) : Prop := (p.value ^^^ q.value) &&& (p.mask &&& q.mask) = 0

instance (p q : Pin) : Decidable (p.Agrees q) := inferInstanceAs (Decidable (_ = _))

/-- The bits and the values of all pins together. -/
def join (ps : List Pin) : Pin :=
  ⟨(ps.map mask).foldl (· ||| ·) 0, (ps.map value).foldl (· ||| ·) 0⟩

/-! ### One bit at a time -/

section Bits

variable {p q : Pin} {w : Word}

theorem isWithin_iff :
    p.IsWithin ↔ ∀ i, p.value.getLsbD i = true → p.mask.getLsbD i = true := by
  unfold IsWithin
  rw [inter_eq_zero_iff]
  refine forall_congr' fun i => forall_congr' fun hi => ?_
  simp [BitVec.lt_of_getLsbD hi]

theorem agrees_iff :
    p.Agrees q ↔ ∀ i, p.mask.getLsbD i = true → q.mask.getLsbD i = true →
      p.value.getLsbD i = q.value.getLsbD i := by
  unfold Agrees
  rw [BitVec.and_comm, inter_eq_zero_iff]
  refine forall_congr' fun i => ?_
  simp

theorem holds_iff (h : p.IsWithin) :
    p.Holds w ↔ ∀ i, p.mask.getLsbD i = true → w.getLsbD i = p.value.getLsbD i := by
  unfold Holds
  rw [BitVec.eq_of_getLsbD_eq_iff]
  constructor
  · intro hw i hi
    simpa [hi] using hw i (BitVec.lt_of_getLsbD hi)
  · intro hw i _
    rw [BitVec.getLsbD_and]
    cases hm : p.mask.getLsbD i with
    | true => simp [hw i hm]
    | false =>
      have hv : p.value.getLsbD i ≠ true := fun hv => by simp [isWithin_iff.1 h i hv] at hm
      simpa using hv

theorem Agrees.symm (h : p.Agrees q) : q.Agrees p :=
  agrees_iff.2 fun i hq hp => (agrees_iff.1 h i hp hq).symm

theorem agrees_refl (p : Pin) : p.Agrees p := agrees_iff.2 fun _ _ _ => rfl

theorem agrees_of_holds (hp : p.Holds w) (hq : q.Holds w) : p.Agrees q := by
  unfold Holds at hp hq
  rw [agrees_iff, ← hp, ← hq]
  intro i hpi hqi
  simp [hpi, hqi]

theorem agrees_of_disjoint (h : p.mask &&& q.mask = 0) : p.Agrees q := by
  unfold Agrees
  rw [h]
  exact BitVec.and_zero

end Bits

/-! ### Pins put together -/

section Join

variable {ps qs : List Pin} {p q : Pin}

lemma getLsbD_foldl_or {ws : List Word} {i : Nat} :
    (ws.foldl (· ||| ·) 0).getLsbD i = true ↔ ∃ w ∈ ws, w.getLsbD i = true := by
  suffices h : ∀ a : Word, (ws.foldl (· ||| ·) a).getLsbD i = true ↔
      a.getLsbD i = true ∨ ∃ w ∈ ws, w.getLsbD i = true by
    simpa using h 0
  induction ws with
  | nil => simp
  | cons v ws ih =>
    intro a
    rw [List.foldl_cons, ih]
    simp [or_assoc]

lemma getLsbD_mask_join {i : Nat} :
    (join ps).mask.getLsbD i = true ↔ ∃ p ∈ ps, p.mask.getLsbD i = true := by
  unfold join
  rw [getLsbD_foldl_or]
  simp

lemma getLsbD_value_join {i : Nat} :
    (join ps).value.getLsbD i = true ↔ ∃ p ∈ ps, p.value.getLsbD i = true := by
  unfold join
  rw [getLsbD_foldl_or]
  simp

theorem join_concat (ps : List Pin) (p : Pin) :
    join (ps ++ [p]) = ⟨(join ps).mask ||| p.mask, (join ps).value ||| p.value⟩ := by
  simp [join, List.foldl_append]

theorem join_congr (h : ∀ p, p ∈ ps ↔ p ∈ qs) : join ps = join qs := by
  have hm : (join ps).mask = (join qs).mask := by
    refine BitVec.eq_of_getLsbD_eq fun i _ => Bool.eq_iff_iff.2 ?_
    simp only [getLsbD_mask_join, h]
  have hv : (join ps).value = (join qs).value := by
    refine BitVec.eq_of_getLsbD_eq fun i _ => Bool.eq_iff_iff.2 ?_
    simp only [getLsbD_value_join, h]
  calc join ps = ⟨(join ps).mask, (join ps).value⟩ := rfl
    _ = ⟨(join qs).mask, (join qs).value⟩ := by rw [hm, hv]
    _ = join qs := rfl

/-- Where the pins agree with one another, the joined value is the value of each. -/
lemma getLsbD_value_join_of_agrees (hw : ∀ p ∈ ps, p.IsWithin)
    (ha : ∀ p ∈ ps, ∀ q ∈ ps, p.Agrees q) (hp : p ∈ ps) {i : Nat} (hi : p.mask.getLsbD i = true) :
    (join ps).value.getLsbD i = p.value.getLsbD i := by
  rw [Bool.eq_iff_iff, getLsbD_value_join]
  constructor
  · rintro ⟨q, hq, hqi⟩
    rw [agrees_iff.1 (ha p hp q hq) i hi (isWithin_iff.1 (hw q hq) i hqi)]
    exact hqi
  · intro hpi
    exact ⟨p, hp, hpi⟩

/-- **Pins that agree with one another have a common word**, the joined value. -/
theorem holds_join_value (hw : ∀ p ∈ ps, p.IsWithin) (ha : ∀ p ∈ ps, ∀ q ∈ ps, p.Agrees q)
    (hp : p ∈ ps) : p.Holds (join ps).value :=
  (holds_iff (hw p hp)).2 fun _ hi => getLsbD_value_join_of_agrees hw ha hp hi

theorem isWithin_join (hw : ∀ p ∈ ps, p.IsWithin) : (join ps).IsWithin := by
  rw [isWithin_iff]
  intro i hi
  obtain ⟨p, hp, hpi⟩ := getLsbD_value_join.1 hi
  exact getLsbD_mask_join.2 ⟨p, hp, isWithin_iff.1 (hw p hp) i hpi⟩

theorem holds_join_iff {w : Word} (hw : ∀ p ∈ ps, p.IsWithin)
    (ha : ∀ p ∈ ps, ∀ q ∈ ps, p.Agrees q) : (join ps).Holds w ↔ ∀ p ∈ ps, p.Holds w := by
  rw [holds_iff (isWithin_join hw)]
  constructor
  · intro h p hp
    refine (holds_iff (hw p hp)).2 fun i hi => ?_
    rw [h i (getLsbD_mask_join.2 ⟨p, hp, hi⟩), getLsbD_value_join_of_agrees hw ha hp hi]
  · intro h i hi
    obtain ⟨p, hp, hpi⟩ := getLsbD_mask_join.1 hi
    rw [(holds_iff (hw p hp)).1 (h p hp) i hpi, getLsbD_value_join_of_agrees hw ha hp hpi]

theorem agrees_of_join (hw : ∀ p ∈ ps, p.IsWithin) (ha : ∀ p ∈ ps, ∀ q ∈ ps, p.Agrees q)
    (h : (join ps).Agrees q) (hp : p ∈ ps) : p.Agrees q := by
  rw [agrees_iff] at h ⊢
  intro i hpi hqi
  rw [← getLsbD_value_join_of_agrees hw ha hp hpi]
  exact h i (getLsbD_mask_join.2 ⟨p, hp, hpi⟩) hqi

/-- **What disagrees with the join disagrees with one of the pins**, even where these do not agree with one
another. -/
theorem exists_disagrees_of_join (hw : ∀ p ∈ ps, p.IsWithin) (h : ¬ (join ps).Agrees q) :
    ∃ p ∈ ps, ¬ p.Agrees q := by
  by_contra hall
  push Not at hall
  refine h (agrees_iff.2 fun i hm hq => ?_)
  rw [Bool.eq_iff_iff, getLsbD_value_join]
  constructor
  · rintro ⟨p, hp, hpi⟩
    rwa [← agrees_iff.1 (hall p hp) i (isWithin_iff.1 (hw p hp) i hpi) hq]
  · intro hqi
    obtain ⟨p, hp, hpi⟩ := getLsbD_mask_join.1 hm
    exact ⟨p, hp, (agrees_iff.1 (hall p hp) i hpi hq).trans hqi⟩

end Join

end Pin

/-! ### Pins of definitions and fields -/

theorem Shape.accepts_iff {s : Shape} {w : Word} : s.accepts w = true ↔ s.pin.Holds w := by
  simp [Shape.accepts, Shape.pin, Pin.Holds]

section Key

variable {f : Field} {key w : Word}

lemma getLsbD_eq_false_of_fits {n i : Nat} (h : key >>> n = 0) (hi : n ≤ i) :
    key.getLsbD i = false := by
  have := congrArg (·.getLsbD (i - n)) h
  simpa [Nat.add_sub_cancel' hi] using this

theorem fits_iff {n : Nat} : key >>> n = 0 ↔ key.toNat < 2 ^ n := by
  rw [← BitVec.toNat_inj, BitVec.toNat_ushiftRight, Nat.shiftRight_eq_div_pow]
  simp [Nat.div_eq_zero_iff]

theorem Slice.fits_raw (s : Slice) (w : Word) : s.raw w >>> s.width.toNat = 0 := by
  refine BitVec.eq_of_getLsbD_eq fun i _ => ?_
  have hout : ¬ s.width.toNat + i < s.width.toNat := by omega
  rw [BitVec.getLsbD_ushiftRight, getLsbD_raw, decide_eq_false hout]
  simp

theorem Field.isWithin_pin (h : key >>> f.slice.width.toNat = 0) : (f.pin key).IsWithin := by
  rw [Pin.isWithin_iff]
  intro i hi
  simp only [Field.pin, BitVec.getLsbD_shiftLeft, Slice.getLsbD_mask, Bool.and_eq_true,
    Bool.not_eq_eq_eq_not, Bool.not_true, decide_eq_true_eq, decide_eq_false_iff_not] at hi ⊢
  obtain ⟨⟨hlt, hle⟩, hkey⟩ := hi
  refine ⟨hlt, by omega, ?_⟩
  by_contra hge
  rw [getLsbD_eq_false_of_fits h (by omega)] at hkey
  cases hkey

/-- A word has the bits of a key in a field if and only if the field reads that key. -/
theorem Field.holds_pin_iff (hv : f.slice.IsValid) (h : key >>> f.slice.width.toNat = 0) :
    (f.pin key).Holds w ↔ f.slice.raw w = key := by
  obtain ⟨-, hfit⟩ := hv
  rw [Pin.holds_iff (Field.isWithin_pin h), BitVec.eq_of_getLsbD_eq_iff]
  simp only [Field.pin, Slice.getLsbD_mask, Slice.getLsbD_raw, BitVec.getLsbD_shiftLeft]
  constructor
  · intro hw i hi
    by_cases hlt : i < f.slice.width.toNat
    · have := hw (f.slice.offset.toNat + i) (by simp; omega)
      rw [this]
      simp [hlt]
      omega
    · rw [getLsbD_eq_false_of_fits h (by omega)]
      simp [hlt]
  · intro hk i hi
    simp only [Bool.and_eq_true, decide_eq_true_eq] at hi
    have := hk (i - f.slice.offset.toNat) (by omega)
    rw [Nat.add_sub_cancel' (by omega)] at this
    rw [← this]
    simp only [hi.1, decide_true, Bool.true_and]
    have h1 : i - f.slice.offset.toNat < f.slice.width.toNat := by omega
    have h2 : ¬ i < f.slice.offset.toNat := by omega
    simp [h1, h2]

end Key

end ShaderWord
