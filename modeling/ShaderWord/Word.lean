import ShaderWord.Rounding
import ShaderWord.Text

/-!
# Words, values and bit fields

A word is 64 bits, bit 0 the lowest. `lowBits n` has the low `n` bits set and `signExtend w n` reads
the low `n` bits of `w` as a two's complement number. Both are total in `n`: from 64 on they mean the
whole word.

A slice is a range of bits of a word, given by its lowest bit and its width. Any pair of bytes is a
slice; `Slice.IsValid` says that it is not empty and lies within the word. Of a slice that runs off the
word only the bits within it count. What a slice of a word holds is a `Value`, read unsigned or as a
two's complement number. A value converts to an integer type exactly when it fits, and always to
floating point, where it is rounded to the nearest number.
-/

namespace ShaderWord

/-! ### Words -/

/-- An instruction word, a mask over one, or a number held in one. -/
abbrev Word := BitVec 64

/-- The low `n` bits set. -/
def lowBits (n : Nat) : Word := BitVec.allOnes 64 >>> (64 - n)

/-- The low `n` bits of `w` as a two's complement number; 0 for no bits. -/
def signExtend (w : Word) (n : Nat) : Int64 :=
  .ofBitVec ((w.setWidth (min n 64)).signExtend 64)

theorem getLsbD_lowBits (n i : Nat) :
    (lowBits n).getLsbD i = (decide (i < n) && decide (i < 64)) := by
  simp only [lowBits, BitVec.getLsbD_ushiftRight, BitVec.getLsbD_allOnes, ← Bool.decide_and]
  rw [decide_eq_decide]
  omega

@[simp] theorem lowBits_zero : lowBits 0 = 0 := rfl

theorem lowBits_of_le {n : Nat} (h : 64 ≤ n) : lowBits n = BitVec.allOnes 64 := by
  simp [lowBits, Nat.sub_eq_zero_of_le h]

@[simp] theorem signExtend_zero (w : Word) : signExtend w 0 = 0 := by
  change Int64.ofBitVec ((w.setWidth 0).signExtend 64) = 0
  rw [show w.setWidth 0 = 0#0 from BitVec.of_length_zero]
  rfl

/-! ### Values -/

/-- The value of one field. -/
inductive Value where
  | unsigned (bits : Word)
  | signed (number : Int64)
  deriving DecidableEq

namespace Value

/-- The value's 64 bits; a signed one keeps its two's complement form. -/
def bits : Value → Word
  | unsigned w => w
  | signed n => n.toBitVec

/-- The number the value stands for. -/
def toInt : Value → Int
  | unsigned w => w.toNat
  | signed n => n.toInt

def isSigned : Value → Bool
  | unsigned _ => false
  | signed _ => true

/-- Sign, then magnitude in hexadecimal: `0x2a`, `-0x4`. -/
def render (v : Value) : String :=
  if v.toInt < 0 then "-" ++ Text.hex v.toInt.natAbs else Text.hex v.toInt.natAbs

/-- The sign stands before the mark. -/
example : (unsigned 42).render = "0x2a" ∧ (signed (-4)).render = "-0x4" := by decide +kernel

@[simp] theorem bits_unsigned (w : Word) : (unsigned w).bits = w := rfl

@[simp] theorem bits_signed (n : Int64) : (signed n).bits = n.toBitVec := rfl

/-- The value in an unsigned type of `width` bits, if it fits. -/
def toUnsigned? (width : Nat) (v : Value) : Option Nat :=
  if 0 ≤ v.toInt ∧ v.toInt < (1 <<< width : Nat) then some v.toInt.toNat else none

/-- The value in a two's complement type of `width` bits, if it fits. -/
def toSigned? (width : Nat) (v : Value) : Option Int :=
  if -(1 <<< (width - 1) : Nat) ≤ v.toInt ∧ v.toInt < (1 <<< (width - 1) : Nat) then some v.toInt
  else none

/-- The bits of the value in a floating-point format. -/
def toBinary (f : BinaryFormat) (v : Value) : Nat :=
  f.encode (v.toInt < 0) v.toInt.natAbs

/-- A tie goes to the even neighbour: of 2^24 and 2^24 + 2, then of 2^24 + 2 and 2^24 + 4. -/
example : (Value.unsigned 0x1000001).toBinary .single = 0x4b800000 ∧
    (Value.unsigned 0x1000003).toBinary .single = 0x4b800002 := by decide +kernel

end Value

/-! ### Bit slices -/

/-- A range of bits and how to read them. -/
structure Slice where
  offset : UInt8
  width : UInt8
  signed : Bool
  deriving DecidableEq

namespace Slice

/-- The slice has bits, and all of them are bits of a word. -/
def IsValid (s : Slice) : Prop :=
  1 ≤ s.width.toNat ∧ s.offset.toNat + s.width.toNat ≤ 64

instance (s : Slice) : Decidable s.IsValid := inferInstanceAs (Decidable (_ ∧ _))

/-- The bits of a word that the slice covers. -/
def mask (s : Slice) : Word := lowBits s.width.toNat <<< s.offset.toNat

/-- The covered bits of `w`, moved down to bit 0. -/
def raw (s : Slice) (w : Word) : Word := (w >>> s.offset.toNat) &&& lowBits s.width.toNat

/-- The covered bits of `w` as a value, sign-extended if the slice is signed. -/
def extract (s : Slice) (w : Word) : Value :=
  if s.signed then .signed (signExtend (s.raw w) s.width.toNat) else .unsigned (s.raw w)

/-- The slices share a bit of the word. -/
def overlaps (s t : Slice) : Bool := s.mask &&& t.mask != 0

theorem getLsbD_mask (s : Slice) (i : Nat) :
    s.mask.getLsbD i =
      (decide (i < 64) && decide (s.offset.toNat ≤ i ∧ i < s.offset.toNat + s.width.toNat)) := by
  simp only [mask, BitVec.getLsbD_shiftLeft, getLsbD_lowBits]
  grind

theorem getLsbD_raw (s : Slice) (w : Word) (i : Nat) :
    (s.raw w).getLsbD i = (decide (i < s.width.toNat) && w.getLsbD (s.offset.toNat + i)) := by
  simp only [raw, BitVec.getLsbD_and, BitVec.getLsbD_ushiftRight, getLsbD_lowBits]
  by_cases h : i < 64
  · simp [h, Bool.and_comm]
  · have : w.getLsbD (s.offset.toNat + i) = false := BitVec.getLsbD_of_ge _ _ (by omega)
    simp [this]

end Slice

/-- A named slice. -/
structure Field where
  name : String
  slice : Slice
  deriving DecidableEq

end ShaderWord
