import ShaderWord.Proofs.Pin

/-!
# Arithmetic that checks itself

* `Checked α` — a result, or the `Fault` of an operation that has none on the operands it was given;
* `Checked.add`, `Checked.sub`, `Checked.shiftLeft`, `Checked.place`, `Checked.narrow`, `Checked.get` and the others —
  the operations; `Checked.add_eq_ok` and so on say when they have a result;
* `Checked.mask`, `Checked.raw`, `Checked.extract` — slices, read by these operations.

Slices are read without a fault for any offset and any width (`Checked.mask_eq`, `Checked.raw_eq`,
`Checked.extract_eq`): a shift that may be too far is guarded where it stands.
-/

namespace ShaderWord

/-- Why an operation has no result. -/
inductive Fault where
  /-- The sum or the difference is no number of the type. -/
  | overflow
  /-- A shift by all the bits of a word or more. -/
  | shiftAmount
  /-- A shift that moves bits of a key out of the word. -/
  | lostBits
  /-- The narrower type does not have the number. -/
  | narrowing
  /-- Nothing is stored at the index. -/
  | index
  /-- The walk goes to a node that does not stand before the one it comes from. -/
  | ascent
  deriving DecidableEq

/-- A result or a fault. -/
abbrev Checked := Except Fault

namespace Checked

/-! ### Operations -/

section Operations

variable {α β : Type} {a b : UInt32} {w : Word} {n : Nat}

@[simp] theorem ok_bind (x : α) (f : α → Checked β) : Except.ok x >>= f = f x := rfl

def add (a b : UInt32) : Checked UInt32 :=
  if a.toNat + b.toNat < 2 ^ 32 then .ok (a + b) else .error .overflow

def sub (a b : UInt32) : Checked UInt32 := if b ≤ a then .ok (a - b) else .error .overflow

def subWord (v w : Word) : Checked Word := if w ≤ v then .ok (v - w) else .error .overflow

def shiftLeft (w : Word) (n : Nat) : Checked Word :=
  if n < 64 then .ok (w <<< n) else .error .shiftAmount

def shiftRight (w : Word) (n : Nat) : Checked Word :=
  if n < 64 then .ok (w >>> n) else .error .shiftAmount

/-- The shift keeps the sign. -/
def shiftRightSigned (w : Word) (n : Nat) : Checked Word :=
  if n < 64 then .ok (w.sshiftRight n) else .error .shiftAmount

/-- Moves a key up to where it stands in a word. -/
def place (key : Word) (n : Nat) : Checked Word := do
  let placed ← shiftLeft key n
  if placed >>> n = key then return placed else .error .lostBits

def narrow (a : UInt32) : Checked UInt8 :=
  if a.toUInt8.toUInt32 = a then .ok a.toUInt8 else .error .narrowing

def get (xs : Array α) (i : Nat) : Checked α :=
  match xs[i]? with
  | some x => .ok x
  | none => .error .index

example : add 4294967295 1 = .error .overflow ∧ sub 3 4 = .error .overflow ∧
    shiftLeft 1 64 = .error .shiftAmount ∧ place 0x30 60 = .error .lostBits ∧
    narrow 256 = .error .narrowing := ⟨rfl, rfl, rfl, rfl, rfl⟩

theorem add_eq_ok (h : a.toNat + b.toNat < 2 ^ 32) : add a b = .ok (a + b) := if_pos h

theorem sub_eq_ok (h : b ≤ a) : sub a b = .ok (a - b) := if_pos h

theorem shiftLeft_eq_ok (h : n < 64) : shiftLeft w n = .ok (w <<< n) := if_pos h

theorem shiftRight_eq_ok (h : n < 64) : shiftRight w n = .ok (w >>> n) := if_pos h

theorem shiftRightSigned_eq_ok (h : n < 64) : shiftRightSigned w n = .ok (w.sshiftRight n) := if_pos h

theorem narrow_eq_ok (h : a.toNat < 2 ^ 8) : narrow a = .ok a.toUInt8 := by
  refine if_pos (UInt32.toNat_inj.1 ?_)
  rw [UInt8.toNat_toUInt32, UInt32.toNat_toUInt8, Nat.mod_eq_of_lt h]

theorem get_eq_ok {xs : Array α} {i : Nat} {x : α} (h : xs[i]? = some x) : get xs i = .ok x := by
  rw [get, h]

/-- A key that fits in `width` bits can be placed where these are bits of a word. -/
theorem place_eq_ok {key : Word} {width : Nat} (hkey : key >>> width = 0) (h : n + width ≤ 64)
    (hn : n < 64) : place key n = .ok (key <<< n) := by
  have hroom : key.toNat * 2 ^ n < 2 ^ 64 := by
    calc key.toNat * 2 ^ n < 2 ^ width * 2 ^ n :=
          Nat.mul_lt_mul_of_pos_right (fits_iff.1 hkey) (Nat.two_pow_pos n)
      _ = 2 ^ (width + n) := (Nat.pow_add ..).symm
      _ ≤ 2 ^ 64 := Nat.pow_le_pow_right (by decide) (by omega)
  have hback : key <<< n >>> n = key := by
    rw [← BitVec.toNat_inj, BitVec.toNat_ushiftRight, BitVec.toNat_shiftLeft, Nat.shiftLeft_eq,
      Nat.mod_eq_of_lt hroom, Nat.shiftRight_eq_div_pow, Nat.mul_div_cancel _ (Nat.two_pow_pos n)]
  rw [place, shiftLeft_eq_ok hn]
  exact if_pos hback

end Operations

/-! ### Words and slices -/

/-- The low `width` bits set. -/
def lowBits (width : UInt8) : Checked Word :=
  if 64 ≤ width.toNat then return BitVec.allOnes 64
  else do subWord (← shiftLeft 1 width.toNat) 1

/-- The low `width` bits as a two's complement number. -/
def signExtend (w : Word) (width : UInt8) : Checked Int64 :=
  if width = 0 then return 0
  else if 64 ≤ width.toNat then return .ofBitVec w
  else do
    let amount ← sub 64 width.toUInt32
    let highest ← shiftLeft w amount.toNat
    return .ofBitVec (← shiftRightSigned highest amount.toNat)

/-- The bits that the slice covers; from an offset of 64 on there are none. -/
def mask (s : Slice) : Checked Word := do
  let low ← lowBits s.width
  return if s.offset.toNat < 64 then low <<< s.offset.toNat else 0

def raw (s : Slice) (w : Word) : Checked Word := do
  let low ← lowBits s.width
  return (if s.offset.toNat < 64 then w >>> s.offset.toNat else 0) &&& low

def extract (s : Slice) (w : Word) : Checked Value := do
  let bits ← raw s w
  if s.signed then return .signed (← signExtend bits s.width) else return .unsigned bits

def overlaps (s t : Slice) : Checked Bool := do
  let shared := (← mask s) &&& (← mask t)
  return shared != 0

def isValid (s : Slice) : Checked Bool :=
  if 1 ≤ s.width.toNat ∧ s.width.toNat ≤ 64 then do
    let upper ← add s.offset.toUInt32 s.width.toUInt32
    return decide (upper ≤ 64)
  else return false

theorem toNat_one_shiftLeft {n : Nat} (h : n < 64) : ((1 : Word) <<< n).toNat = 2 ^ n := by
  have hpow : 2 ^ n < 2 ^ 64 := Nat.pow_lt_pow_right (by decide) h
  rw [BitVec.toNat_shiftLeft, Nat.shiftLeft_eq]
  simpa using Nat.mod_eq_of_lt hpow

theorem one_le_one_shiftLeft {n : Nat} (h : n < 64) : (1 : Word) ≤ (1 : Word) <<< n := by
  rw [BitVec.le_def, toNat_one_shiftLeft h]
  exact Nat.one_le_two_pow

theorem one_shiftLeft_sub_one {n : Nat} (h : n < 64) :
    (1 : Word) <<< n - 1 = ShaderWord.lowBits n := by
  have hdiv : (2 ^ 64 - 1) / 2 ^ (64 - n) = 2 ^ n - 1 := by
    have hsplit : 2 ^ (64 - n) * 2 ^ n = 2 ^ 64 := by
      rw [← Nat.pow_add]
      congr 1
      omega
    have hpos : 0 < 2 ^ (64 - n) * 2 ^ n := Nat.mul_pos (Nat.two_pow_pos _) (Nat.two_pow_pos _)
    have hquot := Nat.mul_sub_div 0 _ _ hpos
    rwa [hsplit, Nat.zero_div] at hquot
  rw [← BitVec.toNat_inj, BitVec.toNat_sub_of_le (one_le_one_shiftLeft h), toNat_one_shiftLeft h,
    ShaderWord.lowBits, BitVec.toNat_ushiftRight, Nat.shiftRight_eq_div_pow, BitVec.toNat_allOnes, hdiv]
  rfl

theorem lowBits_eq (width : UInt8) : lowBits width = .ok (ShaderWord.lowBits width.toNat) := by
  by_cases h : 64 ≤ width.toNat
  · rw [lowBits, if_pos h, ShaderWord.lowBits_of_le h]
    rfl
  · have hwidth : width.toNat < 64 := by omega
    rw [lowBits, if_neg h, shiftLeft_eq_ok hwidth, ok_bind, ← one_shiftLeft_sub_one hwidth]
    exact if_pos (one_le_one_shiftLeft hwidth)

/-- The low bits at the top of a word, and back with their sign. -/
theorem sshiftRight_shiftLeft (w : Word) {n : Nat} (hpos : 0 < n) (h : n < 64) :
    (w <<< (64 - n)).sshiftRight (64 - n) = (w.setWidth n).signExtend 64 := by
  refine BitVec.eq_of_getLsbD_eq fun i hi => ?_
  rw [BitVec.getLsbD_sshiftRight, BitVec.getLsbD_signExtend, BitVec.getLsbD_shiftLeft,
    BitVec.getLsbD_setWidth, BitVec.msb_shiftLeft, BitVec.msb_setWidth, BitVec.getMsbD]
  have hword : ¬ 64 ≤ i := by omega
  by_cases hin : i < n
  · have hlt : 64 - n + i < 64 := by omega
    have hge : ¬ 64 - n + i < 64 - n := by omega
    have hback : 64 - n + i - (64 - n) = i := by omega
    simp [hi, hin, hlt, hge, hback, hword]
  · have hge : ¬ 64 - n + i < 64 := by omega
    have hback : 64 - 1 - (64 - n) = n - 1 := by omega
    have hamount : 64 - n < 64 := by omega
    simp [hi, hin, hge, hback, hpos, hword, hamount]

theorem signExtend_eq (w : Word) (width : UInt8) :
    signExtend w width = .ok (ShaderWord.signExtend w width.toNat) := by
  by_cases hzero : width = 0
  · subst hzero
    exact congrArg Except.ok (signExtend_zero w).symm
  by_cases hall : 64 ≤ width.toNat
  · rw [signExtend, if_neg hzero, if_pos hall, ShaderWord.signExtend, Nat.min_eq_right hall,
      BitVec.setWidth_eq, BitVec.signExtend_eq]
    rfl
  · have hpos : 0 < width.toNat := Nat.pos_of_ne_zero fun h => hzero (UInt8.toNat_inj.1 h)
    have hlt : width.toNat < 64 := by omega
    have hle : width.toUInt32 ≤ 64 := by
      rw [UInt32.le_iff_toNat_le, UInt8.toNat_toUInt32]
      exact Nat.le_of_lt hlt
    have hamount : (64 - width.toUInt32).toNat = 64 - width.toNat := by
      rw [UInt32.toNat_sub_of_le _ _ hle, UInt8.toNat_toUInt32]
      rfl
    have hbound : (64 - width.toUInt32).toNat < 64 := by omega
    rw [signExtend, if_neg hzero, if_neg hall, sub_eq_ok hle, ok_bind, shiftLeft_eq_ok hbound, ok_bind,
      shiftRightSigned_eq_ok hbound, hamount, sshiftRight_shiftLeft w hpos hlt, ShaderWord.signExtend,
      Nat.min_eq_left (Nat.le_of_lt hlt)]
    rfl

theorem mask_eq (s : Slice) : mask s = .ok s.mask := by
  have hshift : (if s.offset.toNat < 64 then ShaderWord.lowBits s.width.toNat <<< s.offset.toNat
      else 0) = s.mask := by
    split_ifs with h
    · rfl
    · rw [Slice.mask, BitVec.shiftLeft_eq_zero (by omega)]
      rfl
  rw [mask, lowBits_eq]
  exact congrArg Except.ok hshift

theorem raw_eq (s : Slice) (w : Word) : raw s w = .ok (s.raw w) := by
  have hshift : (if s.offset.toNat < 64 then w >>> s.offset.toNat else 0) = w >>> s.offset.toNat := by
    split_ifs with h
    · rfl
    · rw [BitVec.ushiftRight_eq_zero (by omega)]
      rfl
  rw [raw, lowBits_eq, hshift]
  rfl

theorem extract_eq (s : Slice) (w : Word) : extract s w = .ok (s.extract w) := by
  rw [extract, raw_eq, ok_bind, signExtend_eq, Slice.extract]
  cases s.signed <;> rfl

theorem overlaps_eq (s t : Slice) : overlaps s t = .ok (s.overlaps t) := by
  rw [overlaps, mask_eq, mask_eq]
  rfl

theorem isValid_eq (s : Slice) : isValid s = .ok (decide s.IsValid) := by
  have hsum : s.offset.toUInt32.toNat + s.width.toUInt32.toNat < 2 ^ 32 := by
    have := s.offset.toNat_lt
    have := s.width.toNat_lt
    rw [UInt8.toNat_toUInt32, UInt8.toNat_toUInt32]
    omega
  have hupper : s.offset.toUInt32 + s.width.toUInt32 ≤ 64 ↔ s.offset.toNat + s.width.toNat ≤ 64 := by
    rw [UInt32.le_iff_toNat_le, UInt32.toNat_add, Nat.mod_eq_of_lt hsum, UInt8.toNat_toUInt32,
      UInt8.toNat_toUInt32]
    rfl
  rw [isValid, add_eq_ok hsum, ok_bind]
  by_cases hwidth : 1 ≤ s.width.toNat ∧ s.width.toNat ≤ 64
  · have hvalid : s.offset.toUInt32 + s.width.toUInt32 ≤ 64 ↔ s.IsValid := by
      rw [hupper, Slice.IsValid, and_iff_right hwidth.1]
    rw [if_pos hwidth, decide_eq_decide.2 hvalid]
    rfl
  · have hvalid : ¬ s.IsValid := fun h => hwidth ⟨h.1, by have := h.2; omega⟩
    rw [if_neg hwidth, decide_eq_false hvalid]
    rfl

end Checked

end ShaderWord
