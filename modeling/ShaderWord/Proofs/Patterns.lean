import Mathlib.Data.String.Basic
import ShaderWord.Draft
import ShaderWord.Proofs.Pin
import ShaderWord.Table.Writer

/-!
# Patterns

A pattern writes a number in binary, the highest digit first. `IsBinary n pattern` says that it has `n` digits
and no other characters.

A member of `n` bits takes the patterns of `n` digits and no others (`isBinary_of_patternBits?`,
`exists_patternBits?`), and takes them for the number of `n` bits that they write (`patternOf_eq_iff`).
-/

namespace ShaderWord

section Patterns

open Table

variable {w : Word}

/-- The digit of a bit. -/
def bitDigit (w : Word) (i : Nat) : Char := if w.getLsbD i then '1' else '0'

theorem patternOf_eq (n : Nat) (w : Word) :
    patternOf n w = .ofList ((List.range n).reverse.map (bitDigit w)) := rfl

theorem appendDigit_bitDigit (bits w : Word) (i : Nat) :
    Member.appendDigit bits (bitDigit w i) = some (bits <<< 1 ||| if w.getLsbD i then 1 else 0) := by
  unfold bitDigit
  cases w.getLsbD i <;> simp [Member.appendDigit]

theorem getLsbD_bit (b : Bool) (i : Nat) :
    (if b = true then 1 else 0 : Word).getLsbD i = (decide (i = 0) && b) := by
  cases b with
  | false => simp
  | true => simp [BitVec.getLsbD_one]

/-- A bit is put below a number, and then the bits below it. -/
theorem shiftLeft_or_bit (bits w : Word) (n : Nat) :
    (bits <<< 1 ||| if w.getLsbD n then 1 else 0) <<< n ||| (w &&& lowBits n) =
      bits <<< (n + 1) ||| (w &&& lowBits (n + 1)) := by
  refine BitVec.eq_of_getLsbD_eq fun i hi => ?_
  simp only [BitVec.getLsbD_or, BitVec.getLsbD_shiftLeft, BitVec.getLsbD_and, getLsbD_lowBits,
    getLsbD_bit, hi]
  rcases Nat.lt_trichotomy i n with hlt | rfl | hlt
  · simp [hlt, Nat.lt_succ_of_lt hlt]
  · simp
  · have hne : i - n ≠ 0 := by omega
    have hpred : i - n - 1 = i - (n + 1) := by omega
    have hout : ¬ i < n ∧ ¬ i < n + 1 := by omega
    have hin : i - n < 64 := by omega
    simp [hne, hpred, hout, hin]

/-- The digits of the low bits, the highest first, shift the number up and put the bits below. -/
theorem foldlM_appendDigit (bits w : Word) (n : Nat) :
    ((List.range n).reverse.map (bitDigit w)).foldlM Member.appendDigit bits =
      some (bits <<< n ||| (w &&& lowBits n)) := by
  induction n generalizing bits with
  | zero => simp
  | succ n ih =>
    rw [List.range_succ, List.reverse_append, List.reverse_singleton, List.singleton_append, List.map_cons,
      List.foldlM_cons, appendDigit_bitDigit, Option.bind_eq_bind, Option.bind_some, ih,
      shiftLeft_or_bit]

/-! ### What a pattern is made of -/

/-- The pattern consists of `n` digits. -/
def IsBinary (n : Nat) (pattern : String) : Prop :=
  pattern.toList.length = n ∧ ∀ c ∈ pattern.toList, c = '0' ∨ c = '1'

instance (n : Nat) (pattern : String) : Decidable (IsBinary n pattern) :=
  inferInstanceAs (Decidable (_ ∧ _))

theorem isBinary_patternOf (n : Nat) (w : Word) : IsBinary n (patternOf n w) := by
  rw [IsBinary, patternOf_eq, String.toList_ofList]
  refine ⟨by simp, fun c hc => ?_⟩
  obtain ⟨i, -, rfl⟩ := List.mem_map.1 hc
  unfold bitDigit
  split
  · exact .inr rfl
  · exact .inl rfl

theorem utf8Len_of_digits {cs : List Char} (h : ∀ c ∈ cs, c = '0' ∨ c = '1') :
    String.utf8Len cs = cs.length := by
  induction cs with
  | nil => rfl
  | cons c cs ih =>
    obtain ⟨hc, hcs⟩ := List.forall_mem_cons.1 h
    have hsize : c.utf8Size = 1 := by rcases hc with rfl | rfl <;> rfl
    rw [String.utf8Len_cons, ih hcs, hsize, List.length_cons]

theorem IsBinary.utf8ByteSize_eq {n : Nat} {pattern : String} (h : IsBinary n pattern) :
    pattern.utf8ByteSize = n := by
  rw [← String.ofList_toList (s := pattern), String.utf8ByteSize_ofList, utf8Len_of_digits h.2, h.1]

theorem digits_of_foldlM {cs : List Char} {start bits : Word}
    (h : cs.foldlM Member.appendDigit start = some bits) : ∀ c ∈ cs, c = '0' ∨ c = '1' := by
  induction cs generalizing start with
  | nil => simp
  | cons c cs ih =>
    rw [List.foldlM_cons, Option.bind_eq_bind, Option.bind_eq_some_iff] at h
    obtain ⟨next, hnext, hrest⟩ := h
    refine List.forall_mem_cons.2 ⟨?_, ih hrest⟩
    by_contra hother
    obtain ⟨hzero, hone⟩ := not_or.1 hother
    rw [Member.appendDigit, if_neg hzero, if_neg hone] at hnext
    cases hnext

/-- **A pattern that is taken is binary**, and has the width of its member. The width of a pattern is a
number of 32 bits, which is why the pattern must not be as long as that. -/
theorem isBinary_of_patternBits? {width : UInt32} {pattern : String} {bits : Word}
    (hsize : pattern.utf8ByteSize < 2 ^ 32) (h : Member.patternBits? width pattern = some bits) :
    IsBinary width.toNat pattern := by
  unfold Member.patternBits? at h
  split at h
  case isFalse => cases h
  case isTrue hwidth =>
    have hbinary : IsBinary pattern.toList.length pattern := ⟨rfl, digits_of_foldlM h⟩
    have hlength : width.toNat = pattern.toList.length := by
      rw [← hwidth, Member.patternWidth, UInt32.toNat_ofNat_of_lt' hsize, hbinary.utf8ByteSize_eq]
    rwa [hlength]

/-! ### What a pattern writes -/

theorem inter_lowBits_of_fits {n : Nat} (h : w >>> n = 0) : w &&& lowBits n = w := by
  refine inter_eq_left_iff.2 fun i hi => ?_
  have hword := BitVec.lt_of_getLsbD hi
  by_cases hlow : i < n
  · rw [getLsbD_lowBits, decide_eq_true hlow, decide_eq_true hword]
    rfl
  · rw [getLsbD_eq_false_of_fits h (by omega)] at hi
    cases hi

/-- **A pattern is read as the bits that it was written from.** -/
theorem patternBits?_patternOf (width : UInt32) (w : Word) :
    Member.patternBits? width (patternOf width.toNat w) = some (w &&& lowBits width.toNat) := by
  have hwidth : Member.patternWidth (patternOf width.toNat w) = width := by
    rw [Member.patternWidth, (isBinary_patternOf _ w).utf8ByteSize_eq]
    simp
  rw [Member.patternBits?, if_pos hwidth, patternOf_eq, String.toList_ofList, foldlM_appendDigit]
  simp

/-- The digits of a pattern as bits, the first of them highest. -/
def digitBits (pattern : String) : List Bool := pattern.toList.map fun c => c = '1'

theorem exists_patternOf_eq {n : Nat} {pattern : String} (h : IsBinary n pattern) (hn : n ≤ 64) :
    ∃ bits : Word, bits >>> n = 0 ∧ patternOf n bits = pattern := by
  obtain ⟨hlength, hdigits⟩ := h
  have hbits : (digitBits pattern).length = n := by rw [digitBits, List.length_map, hlength]
  refine ⟨(BitVec.ofBoolListBE (digitBits pattern)).setWidth 64, ?_, ?_⟩
  · refine BitVec.eq_of_getLsbD_eq fun i _ => ?_
    rw [BitVec.getLsbD_ushiftRight, BitVec.getLsbD_setWidth, BitVec.getLsbD_of_ge _ (n + i) (by omega)]
    simp
  · rw [patternOf_eq, ← String.ofList_toList (s := pattern), String.ofList_inj, String.ofList_toList]
    refine List.ext_getElem (by simp [hlength]) fun k hk hk' => ?_
    rw [List.getElem_map, List.getElem_reverse, List.getElem_range, List.length_range]
    have hindex : (digitBits pattern).length - 1 - (n - 1 - k) = k := by omega
    have hbit : ((BitVec.ofBoolListBE (digitBits pattern)).setWidth 64).getLsbD (n - 1 - k) =
        decide (pattern.toList[k] = '1') := by
      have hword : n - 1 - k < 64 := by omega
      have hlow : n - 1 - k < (digitBits pattern).length := by omega
      have hdigit : (digitBits pattern).getD k false = decide (pattern.toList[k] = '1') := by
        rw [digitBits, List.getD_eq_getElem?_getD, List.getElem?_map, List.getElem?_eq_getElem hk']
        rfl
      rw [BitVec.getLsbD_setWidth, BitVec.getLsbD_ofBoolListBE, hindex, hdigit, decide_eq_true hword,
        decide_eq_true hlow]
      rfl
    rw [bitDigit, hbit]
    rcases hdigits _ (List.getElem_mem hk') with hzero | hone
    · simp [hzero]
    · simp [hone]

/-- **A binary pattern is taken**, for the number that it writes. -/
theorem exists_patternBits? {width : UInt32} {pattern : String} (h : IsBinary width.toNat pattern)
    (hwidth : width.toNat ≤ 64) : ∃ bits : Word, Member.patternBits? width pattern = some bits ∧
      bits >>> width.toNat = 0 ∧ patternOf width.toNat bits = pattern := by
  obtain ⟨bits, hfits, rfl⟩ := exists_patternOf_eq h hwidth
  refine ⟨bits, ?_, hfits, rfl⟩
  rw [patternBits?_patternOf, inter_lowBits_of_fits hfits]

theorem patternOf_eq_iff {n : Nat} {a b : Word} (ha : a >>> n = 0) (hb : b >>> n = 0) :
    patternOf n a = patternOf n b ↔ a = b := by
  refine ⟨fun h => BitVec.eq_of_getLsbD_eq fun i _ => ?_, fun h => by rw [h]⟩
  by_cases hi : i < n
  · rw [patternOf_eq, patternOf_eq, String.ofList_inj, List.map_inj_left] at h
    have hdigit := h i (by simpa using hi)
    unfold bitDigit at hdigit
    cases ha : a.getLsbD i <;> cases hb : b.getLsbD i <;> simp_all
  · rw [getLsbD_eq_false_of_fits ha (by omega), getLsbD_eq_false_of_fits hb (by omega)]

end Patterns

end ShaderWord
