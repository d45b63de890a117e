import Mathlib.Algebra.BigOperators.Intervals
import Mathlib.Data.Int.ModEq
import ShaderWord.Proofs.BitRanges

/-!
# Extraction is exact

* `Slice.HasBit s i` — the bit `i` is in the range of the slice, whether a word has such a bit or not;
* `binary bit n` — the number that the bits below `n` write, and `twosComplement bit n` the one that they write where
  the highest counts negative.

Masks, what is read and overlaps are said one bit at a time, for ranges that run off the word too. A number of `n` bits
is read as the only one in the signed range of `n` bits that it is congruent to (`BitVec.toInt_eq_iff`), and that
is what its bits write (`signedBitsAt_eq`).
-/

namespace ShaderWord

/-! ### Bits of slices -/

namespace Slice

variable {s t : Slice} {w : Word} {i : Nat}

/-- The bit is in the range of the slice. -/
def HasBit (s : Slice) (i : Nat) : Prop := s.offset.toNat ≤ i ∧ i < s.offset.toNat + s.width.toNat

theorem getLsbD_mask_iff : s.mask.getLsbD i = true ↔ i < 64 ∧ s.HasBit i := by
  rw [getLsbD_mask, Bool.and_eq_true, decide_eq_true_iff, decide_eq_true_iff, HasBit]

theorem getLsbD_raw_iff : (s.raw w).getLsbD i = true ↔
    i < s.width.toNat ∧ s.offset.toNat + i < 64 ∧ w.getLsbD (s.offset.toNat + i) = true := by
  rw [getLsbD_raw, Bool.and_eq_true, decide_eq_true_iff]
  exact and_congr_right fun _ => ⟨fun h => ⟨BitVec.lt_of_getLsbD h, h⟩, And.right⟩

theorem overlaps_iff : s.overlaps t = true ↔ ∃ i < 64, s.HasBit i ∧ t.HasBit i := by
  have hne : s.overlaps t = true ↔ ¬ s.mask &&& t.mask = 0 := by simp [overlaps]
  rw [hne, inter_eq_zero_iff]
  push Not
  simp only [Bool.ne_false_iff, getLsbD_mask_iff]
  constructor
  · rintro ⟨i, ⟨hi, hs⟩, -, ht⟩
    exact ⟨i, hi, hs, ht⟩
  · rintro ⟨i, hi, hs, ht⟩
    exact ⟨i, ⟨hi, hs⟩, hi, ht⟩

end Slice

/-! ### Numbers that bits write -/

/-- The number that the bits below `n` write. -/
def binary (bit : Nat → Bool) (n : Nat) : Nat := ∑ j ∈ Finset.range n, (bit j).toNat * 2 ^ j

/-- The two's complement number that the bits below `n` write: the highest of them counts negative. -/
def twosComplement (bit : Nat → Bool) (n : Nat) : Int :=
  binary bit (n - 1) - (bit (n - 1)).toNat * 2 ^ (n - 1)

section Ranges

variable {w : Word} {low width : Nat}

theorem bitsAt_eq (w : Word) (low width : Nat) :
    bitsAt w low width = binary (fun j => w.getLsbD (low + j)) width := by
  induction width with
  | zero => simp [bitsAt, binary, BitVec.of_length_zero]
  | succ n ih =>
    have hbit : w.toNat >>> low / 2 ^ n % 2 = (w.getLsbD (low + n)).toNat := by
      rw [← Nat.toNat_testBit, Nat.testBit_shiftRight, BitVec.testBit_toNat]
    rw [bitsAt, BitVec.extractLsb'_toNat] at ih ⊢
    rw [Nat.mod_pow_succ, ih, hbit, binary, binary, Finset.sum_range_succ, Nat.mul_comm]

/-- **The two's complement number in a range** is what its bits write. -/
theorem signedBitsAt_eq (w : Word) (low : Nat) (hpos : 1 ≤ width) :
    signedBitsAt w low width = twosComplement (fun j => w.getLsbD (low + j)) width := by
  obtain ⟨n, rfl⟩ := Nat.exists_eq_add_of_le' hpos
  have hmsb : (w.extractLsb' low (n + 1)).msb = w.getLsbD (low + n) := by
    rw [BitVec.msb_eq_getLsbD_last, BitVec.getLsbD_extractLsb']
    simp
  have hnat : (w.extractLsb' low (n + 1)).toNat =
      binary (fun j => w.getLsbD (low + j)) n + (w.getLsbD (low + n)).toNat * 2 ^ n := by
    rw [← bitsAt, bitsAt_eq, binary, Finset.sum_range_succ, binary]
  rw [signedBitsAt, BitVec.toInt_eq_msb_cond, hmsb, hnat, twosComplement, Nat.add_sub_cancel]
  cases w.getLsbD (low + n) with
  | false => simp
  | true =>
    simp only [if_true, Bool.toNat_true, Nat.pow_succ]
    push_cast
    omega

end Ranges

/-! ### Numbers of so many bits -/

section Residues

variable {n : Nat} {z : Int}

/-- **A two's complement number of `n` bits** is the only one in their range that is congruent to the number read
unsigned. -/
theorem toInt_eq_iff {x : BitVec n} (hpos : 1 ≤ n) : x.toInt = z ↔
    (-2 ^ (n - 1) ≤ z ∧ z < 2 ^ (n - 1)) ∧ z ≡ x.toNat [ZMOD 2 ^ n] := by
  have hpow : (2 : Int) ^ n = ((2 ^ n : Nat) : Int) := by push_cast; rfl
  rw [Int.ModEq, hpow]
  constructor
  · rintro rfl
    refine ⟨⟨BitVec.le_toInt x, BitVec.toInt_lt⟩, ?_⟩
    rw [BitVec.toInt_eq_toNat_bmod, Int.bmod_emod]
  · rintro ⟨⟨hlow, hhigh⟩, hmod⟩
    have hdouble : (2 : Int) ^ n = 2 ^ (n - 1) * 2 := by
      rw [← pow_succ, Nat.sub_add_cancel hpos]
    calc x.toInt = (x.toNat : Int).bmod (2 ^ n) := BitVec.toInt_eq_toNat_bmod x
      _ = z.bmod (2 ^ n) := by rw [← Int.emod_bmod, ← hmod, Int.emod_bmod]
      _ = z := Int.bmod_eq_of_le_mul_two (by omega) (by omega)

theorem toInt_signExtend_eq_iff {w : Word} (hpos : 1 ≤ n) (h : n ≤ 64) : (signExtend w n).toInt = z ↔
    (-2 ^ (n - 1) ≤ z ∧ z < 2 ^ (n - 1)) ∧ z ≡ w.toNat [ZMOD 2 ^ n] := by
  have hmod : ((w.setWidth n).toNat : Int) ≡ w.toNat [ZMOD 2 ^ n] := by
    rw [BitVec.toNat_setWidth]
    push_cast
    exact Int.mod_modEq _ _
  rw [toInt_signExtend w h, toInt_eq_iff hpos]
  exact and_congr_right fun _ => ⟨fun hz => hz.trans hmod, fun hz => hz.trans hmod.symm⟩

end Residues

namespace Slice

theorem exists_extract_of_signed {s : Slice} (w : Word) (hv : s.IsValid) (h : s.signed = true) :
    ∃ number, s.extract w = .signed number ∧
      number.toInt = twosComplement (fun j => w.getLsbD (s.offset.toNat + j)) s.width.toNat := by
  refine ⟨signExtend (s.raw w) s.width.toNat, if_pos h, ?_⟩
  have hread : (s.extract w).toInt = signedBitsAt w s.offset.toNat s.width.toNat :=
    toInt_extract_of_signed h (by have := hv.2; omega)
  rw [extract, if_pos h, signedBitsAt_eq w _ hv.1] at hread
  exact hread

/-- **Extraction is exact**, for slices that are valid or not. The mask has the bits of the word that are in the range,
what is read has these bits at the bottom, and slices overlap where they share one. Sign extension makes the only
number of the signed range that is congruent to the word, and a valid signed slice reads the two's complement
number that exactly its bits write. -/
theorem extraction_exact (s : Slice) (w : Word) :
    (∀ i < 64, s.mask.getLsbD i = true ↔ s.HasBit i) ∧
    (∀ j, (s.raw w).getLsbD j = true ↔
      j < s.width.toNat ∧ s.offset.toNat + j < 64 ∧ w.getLsbD (s.offset.toNat + j) = true) ∧
    (∀ t : Slice, s.overlaps t = true ↔ ∃ i < 64, s.HasBit i ∧ t.HasBit i) ∧
    (∀ n, 1 ≤ n → n ≤ 64 → ∀ z : Int, (signExtend w n).toInt = z ↔
      (-2 ^ (n - 1) ≤ z ∧ z < 2 ^ (n - 1)) ∧ z ≡ w.toNat [ZMOD 2 ^ n]) ∧
    (s.IsValid → s.signed = true → ∃ number, s.extract w = .signed number ∧
      number.toInt = twosComplement (fun j => w.getLsbD (s.offset.toNat + j)) s.width.toNat) := by
  refine ⟨fun i hi => ?_, fun j => getLsbD_raw_iff, fun t => overlaps_iff, ?_, ?_⟩
  · rw [getLsbD_mask_iff, and_iff_right hi]
  · exact fun n hpos hn z => toInt_signExtend_eq_iff hpos hn
  · exact exists_extract_of_signed w

/-- A negative byte, and ranges that run off the word: they share its highest bit. -/
theorem extraction_exact_negativeByte :
    (⟨4, 8, true⟩ : Slice).IsValid ∧ (∃ number, (⟨4, 8, true⟩ : Slice).extract 0x800 = .signed number ∧
      number.toInt = -128) ∧ (⟨60, 255, true⟩ : Slice).overlaps ⟨63, 9, false⟩ = true := by
  have hv : (⟨4, 8, true⟩ : Slice).IsValid := by decide
  obtain ⟨number, hextract, hnumber⟩ := (extraction_exact ⟨4, 8, true⟩ 0x800).2.2.2.2 hv rfl
  have hoverlap := (extraction_exact ⟨60, 255, true⟩ 0).2.2.1 ⟨63, 9, false⟩
  refine ⟨hv, ⟨number, hextract, hnumber.trans (by decide)⟩, hoverlap.2 ⟨63, ?_⟩⟩
  simp [HasBit]

end Slice

end ShaderWord
