import Mathlib.Algebra.Group.Int.Defs
import ShaderWord.Proofs.Pin

/-!
# Ranges of bits as numbers

* `bitsAt w low width` — the number in the `width` bits of `w` from bit `low` up, and `signedBitsAt w low width`
  the two's complement number in them;
* `Shape.FixedBy s fixed` — what `s` fixes are these fields, to these numbers.

A slice reads the number in its range (`Slice.toNat_raw`, `Slice.toInt_extract_of_signed`), and a shape accepts
the words that have its numbers in the ranges of the fields that it fixes (`Shape.accepts_iff_of_fixedBy`).
-/

namespace ShaderWord

/-- The number in the `width` bits of the word from bit `low` up. -/
def bitsAt (w : Word) (low width : Nat) : Nat := (w.extractLsb' low width).toNat

/-- The two's complement number in the `width` bits of the word from bit `low` up. -/
def signedBitsAt (w : Word) (low width : Nat) : Int := (w.extractLsb' low width).toInt

theorem bitsAt_lt (w : Word) (low width : Nat) : bitsAt w low width < 2 ^ width :=
  (w.extractLsb' low width).isLt

theorem signedBitsAt_bounds (w : Word) (low : Nat) {width n : Nat} (h : width ≤ n) :
    -2 ^ (n - 1) ≤ signedBitsAt w low width ∧ signedBitsAt w low width < 2 ^ (n - 1) := by
  have hpow : (2 : Int) ^ (width - 1) ≤ 2 ^ (n - 1) := by
    exact_mod_cast Nat.pow_le_pow_right (by decide) (by omega)
  have hlow := BitVec.le_toInt (w.extractLsb' low width)
  have hhigh := BitVec.toInt_lt (x := w.extractLsb' low width)
  rw [signedBitsAt]
  omega

/-- Sign extension reads the low bits as a two's complement number. -/
theorem toInt_signExtend (w : Word) {n : Nat} (h : n ≤ 64) :
    (signExtend w n).toInt = (w.setWidth n).toInt := by
  rw [signExtend, Int64.toInt_ofBitVec, Nat.min_eq_left h, BitVec.toInt_signExtend_of_le h]

/-! ### Slices -/

namespace Slice

variable {s : Slice} {w key : Word}

theorem setWidth_raw (s : Slice) (w : Word) :
    (s.raw w).setWidth s.width.toNat = w.extractLsb' s.offset.toNat s.width.toNat := by
  refine BitVec.eq_of_getLsbD_eq fun i hi => ?_
  rw [BitVec.getLsbD_setWidth, getLsbD_raw, BitVec.getLsbD_extractLsb', decide_eq_true hi,
    Bool.true_and]

/-- **A slice reads the number in its range.** -/
theorem toNat_raw (s : Slice) (w : Word) :
    (s.raw w).toNat = bitsAt w s.offset.toNat s.width.toNat := by
  rw [bitsAt, ← setWidth_raw, BitVec.toNat_setWidth, Nat.mod_eq_of_lt (fits_iff.1 (s.fits_raw w))]

theorem raw_eq_iff : s.raw w = key ↔ bitsAt w s.offset.toNat s.width.toNat = key.toNat := by
  rw [← BitVec.toNat_inj, toNat_raw]

theorem toInt_extract_of_unsigned (h : s.signed = false) :
    (s.extract w).toInt = bitsAt w s.offset.toNat s.width.toNat := by
  rw [extract, if_neg (by simp [h]), Value.toInt, toNat_raw]

theorem toInt_extract_of_signed (h : s.signed = true) (hwidth : s.width.toNat ≤ 64) :
    (s.extract w).toInt = signedBitsAt w s.offset.toNat s.width.toNat := by
  rw [extract, if_pos h, Value.toInt, toInt_signExtend _ hwidth, setWidth_raw, signedBitsAt]

end Slice

/-! ### Shapes that fix fields -/

namespace Shape

variable {s : Shape} {fixed : List (Field × Word)} {w : Word}

/-- The shape fixes these fields to these numbers, and nothing else. -/
def FixedBy (s : Shape) (fixed : List (Field × Word)) : Prop :=
  let pins := fixed.map fun p => p.1.pin p.2
  (s.mask = (Pin.join pins).mask ∧ s.value = (Pin.join pins).value) ∧
    (∀ p ∈ fixed, p.1.slice.IsValid ∧ p.2 >>> p.1.slice.width.toNat = 0) ∧
      ∀ p ∈ fixed, ∀ q ∈ fixed, (p.1.pin p.2).Agrees (q.1.pin q.2)

instance (s : Shape) (fixed : List (Field × Word)) : Decidable (s.FixedBy fixed) :=
  inferInstanceAs (Decidable ((_ ∧ _) ∧ _ ∧ _))

/-- **A shape accepts the words with its numbers** in the fields that it fixes. -/
theorem accepts_iff_of_fixedBy (h : s.FixedBy fixed) : s.accepts w = true ↔
    ∀ p ∈ fixed, bitsAt w p.1.slice.offset.toNat p.1.slice.width.toNat = p.2.toNat := by
  obtain ⟨⟨hmask, hvalue⟩, hfit, hagree⟩ := h
  have hpin : s.pin = Pin.join (fixed.map fun p => p.1.pin p.2) := by rw [pin, hmask, hvalue]
  have hwithin : ∀ q ∈ fixed.map (fun p => p.1.pin p.2), q.IsWithin := by
    rw [List.forall_mem_map]
    exact fun p hp => Field.isWithin_pin (hfit p hp).2
  have hagrees : ∀ q ∈ fixed.map (fun p => p.1.pin p.2), ∀ q' ∈ fixed.map (fun p => p.1.pin p.2),
      q.Agrees q' := by
    simp only [List.forall_mem_map]
    exact hagree
  rw [accepts_iff, hpin, Pin.holds_join_iff hwithin hagrees, List.forall_mem_map]
  refine forall_congr' fun p => forall_congr' fun hp => ?_
  rw [Field.holds_pin_iff (hfit p hp).1 (hfit p hp).2, Slice.raw_eq_iff]

end Shape

end ShaderWord
