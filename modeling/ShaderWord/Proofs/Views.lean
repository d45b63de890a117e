import Mathlib.Data.List.ReduceOption
import ShaderWord.Proofs.OpcodeMap
import ShaderWord.Usse.View

/-!
# What the views show

A view names the fields of its format by hand, far from the layout that it relies on, and an instruction is not
viewed at all if a name is wrong or a number does not fit.

* `Yields P x` — `x` is a value with the property `P`;
* `Vmov.Shows v w`, and so on — the numbers of `v` are those in the bits of `w` that the format declares;
* `Operation.readings inst` — what the five views read from `inst`.

Each view reads the instructions of its format and shows them (`Vmov.yields_read?`), and only these
(`View.read?_ofFields_of_ne`), so one view and no other reads a word that decodes, and none reads a word that does not
(`Usse.views_exact`).
-/

namespace ShaderWord

/-! ### Values with a property -/

/-- There is a value, and it has the property. -/
def Yields {α : Type} (P : α → Prop) (x : Option α) : Prop := ∃ a, x = some a ∧ P a

namespace Yields

variable {α β : Type} {P : α → Prop} {Q : β → Prop} {x : Option α}

theorem bind {f : α → Option β} (h : Yields P x) (hf : ∀ a, P a → Yields Q (f a)) :
    Yields Q (x >>= f) := by
  obtain ⟨a, rfl, ha⟩ := h
  exact hf a ha

theorem map {f : α → β} (h : Yields P x) (hf : ∀ a, P a → Q (f a)) : Yields Q (x.map f) := by
  obtain ⟨a, rfl, ha⟩ := h
  exact ⟨f a, rfl, hf a ha⟩

end Yields

/-! ### Fields as numbers of fixed width -/

namespace Value

variable {v : Value} {width : Nat}

theorem toUnsigned?_eq_some {n : Nat} (h : v.toInt = n) (hn : n < 2 ^ width) :
    v.toUnsigned? width = some n := by
  rw [toUnsigned?, h, Nat.one_shiftLeft, if_pos ⟨Int.natCast_nonneg n, by exact_mod_cast hn⟩,
    Int.toNat_natCast]

theorem toSigned?_eq_some {i : Int} (h : v.toInt = i)
    (hi : -2 ^ (width - 1) ≤ i ∧ i < 2 ^ (width - 1)) : v.toSigned? width = some i := by
  rw [toSigned?, h, Nat.one_shiftLeft, if_pos (by exact_mod_cast hi)]

end Value

namespace Chain

variable {c : Chain} {w : Word} {name : String} {low width : UInt8}

/-- A field of at most eight bits is read as a number of eight. -/
theorem yields_byte? (hf : c.field? name = some ⟨name, ⟨low, width, false⟩⟩) (hwidth : width.toNat ≤ 8) :
    Yields (fun b => b.toNat = bitsAt w low.toNat width.toNat) ((c.instruction w).byte? name) := by
  have hlt : bitsAt w low.toNat width.toNat < 2 ^ 8 :=
    Nat.lt_of_lt_of_le (bitsAt_lt ..) (Nat.pow_le_pow_right (by decide) hwidth)
  rw [Instruction.byte?, field?_instruction, hf, Option.map_some, Option.bind_some,
    Value.toUnsigned?_eq_some (Slice.toInt_extract_of_unsigned rfl) hlt]
  exact ⟨_, rfl, UInt8.toNat_ofNat_of_lt' hlt⟩

theorem yields_word32? (hf : c.field? name = some ⟨name, ⟨low, width, false⟩⟩)
    (hwidth : width.toNat ≤ 32) :
    Yields (fun n => n.toNat = bitsAt w low.toNat width.toNat) ((c.instruction w).word32? name) := by
  have hlt : bitsAt w low.toNat width.toNat < 2 ^ 32 :=
    Nat.lt_of_lt_of_le (bitsAt_lt ..) (Nat.pow_le_pow_right (by decide) hwidth)
  rw [Instruction.word32?, field?_instruction, hf, Option.map_some, Option.bind_some,
    Value.toUnsigned?_eq_some (Slice.toInt_extract_of_unsigned rfl) hlt]
  exact ⟨_, rfl, UInt32.toNat_ofNat_of_lt' hlt⟩

theorem yields_int32? (hf : c.field? name = some ⟨name, ⟨low, width, true⟩⟩)
    (hwidth : width.toNat ≤ 32) :
    Yields (fun n => n.toInt = signedBitsAt w low.toNat width.toNat) ((c.instruction w).int32? name) := by
  have hbounds := signedBitsAt_bounds w low.toNat hwidth
  have hvalue : (Slice.extract ⟨low, width, true⟩ w).toInt = signedBitsAt w low.toNat width.toNat :=
    Slice.toInt_extract_of_signed rfl (Nat.le_trans hwidth (by decide))
  rw [Instruction.int32?, field?_instruction, hf, Option.map_some, Option.bind_some,
    Value.toSigned?_eq_some hvalue hbounds]
  exact ⟨_, rfl, Int32.toInt_ofInt_of_le hbounds.1 hbounds.2⟩

theorem byte?_eq_none (hf : c.field? name = none) : (c.instruction w).byte? name = none := by
  rw [Instruction.byte?, field?_instruction, hf]
  rfl

end Chain

namespace Usse

/-! ### What the views show -/

/-- The numbers are those of a vector move. -/
structure Vmov.Shows (v : Vmov) (w : Word) : Prop where
  pred : v.pred.toNat = bitsAt w 56 3
  skipinv : v.skipinv.toNat = bitsAt w 55 1
  syncstart : v.syncstart.toNat = bitsAt w 52 1
  moveType : v.moveType.toNat = bitsAt w 45 3
  repeatCount : v.repeatCount.toNat = bitsAt w 43 2
  nosched : v.nosched.toNat = bitsAt w 42 1
  moveDataType : v.moveDataType.toNat = bitsAt w 39 3
  src0Swiz : v.src0Swiz.toNat = bitsAt w 35 3
  destMask : v.destMask.toNat = bitsAt w 24 4
  destN : v.destN.toNat = bitsAt w 18 6
  src0N : v.src0N.toNat = bitsAt w 12 6
  src1N : v.src1N.toNat = bitsAt w 6 6
  src2N : v.src2N.toNat = bitsAt w 0 6

/-- The numbers are those of a single-issue vector multiply-add. -/
structure Vmadsi.Shows (v : Vmadsi) (w : Word) : Prop where
  pred : v.pred.toNat = bitsAt w 56 3
  skipinv : v.skipinv.toNat = bitsAt w 55 1
  endFlag : v.endFlag.toNat = bitsAt w 52 1
  incrementMode : v.incrementMode.toNat = bitsAt w 48 2
  repeatCount : v.repeatCount.toNat = bitsAt w 45 2
  nosched : v.nosched.toNat = bitsAt w 44 1
  writeMask : v.writeMask.toNat = bitsAt w 40 4
  destN : v.destN.toNat = bitsAt w 23 6
  gpi0N : v.gpi0N.toNat = bitsAt w 13 2
  gpi1N : v.gpi1N.toNat = bitsAt w 11 2
  src1N : v.src1N.toNat = bitsAt w 6 5
  src2N : v.src2N.toNat = bitsAt w 0 6

/-- The numbers are those of a four-component vector multiply-add. -/
structure Vmad4.Shows (v : Vmad4) (w : Word) : Prop where
  pred : v.pred.toNat = bitsAt w 56 3
  skipinv : v.skipinv.toNat = bitsAt w 55 1
  syncstart : v.syncstart.toNat = bitsAt w 53 1
  nosched : v.nosched.toNat = bitsAt w 44 1
  destMask : v.destMask.toNat = bitsAt w 40 4
  src1Mod : v.src1Mod.toNat = bitsAt w 38 2
  src2Mod : v.src2Mod.toNat = bitsAt w 37 1
  destN : v.destN.toNat = bitsAt w 24 6
  src0N : v.src0N.toNat = bitsAt w 18 6
  src1N : v.src1N.toNat = bitsAt w 12 6
  src2N : v.src2N.toNat = bitsAt w 6 6

/-- The numbers are those of a phase instruction. -/
structure Phas.Shows (v : Phas) (w : Word) : Prop where
  endFlag : v.endFlag.toNat = bitsAt w 58 1
  imm : v.imm.toNat = bitsAt w 57 1
  mode : v.mode.toNat = bitsAt w 55 1
  waitCond : v.waitCond.toNat = bitsAt w 50 3
  tempCount : v.tempCount.toNat = bitsAt w 41 8
  exeAddr : v.exeAddr.toNat = bitsAt w 21 20
  src1N : v.src1N.toNat = bitsAt w 10 7
  src2N : v.src2N.toNat = bitsAt w 3 7

/-- The operation is that of the category and its numbers are those of the word. -/
def SpecOp.Shows (w : Word) : SpecOp → Prop
  | .flow flowOp branchOffset => bitsAt w 51 3 = 0 ∧
    flowOp.toNat = bitsAt w 45 4 ∧ branchOffset.toInt = signedBitsAt w 0 20
  | .moe moeOp moeData => bitsAt w 51 3 = 1 ∧
    moeOp.toNat = bitsAt w 46 3 ∧ moeData.toNat = bitsAt w 0 24
  | .sync syncOp syncTarget => bitsAt w 51 3 = 2 ∧
    syncOp.toNat = bitsAt w 46 3 ∧ syncTarget.toNat = bitsAt w 0 8
  | .kill killMask => (bitsAt w 51 3 = 3 ∧ bitsAt w 50 1 = 0) ∧ killMask.toNat = bitsAt w 0 4
  | .halt haltCode => (bitsAt w 51 3 = 3 ∧ bitsAt w 50 1 = 1) ∧ haltCode.toNat = bitsAt w 0 8

/-- The numbers are those of a special instruction, and `special` is there for category 3 only. -/
structure Spec.Shows (v : Spec) (w : Word) : Prop where
  pred : v.pred.toNat = bitsAt w 56 3
  skipinv : v.skipinv.toNat = bitsAt w 55 1
  nosched : v.nosched.toNat = bitsAt w 54 1
  category : v.category.toNat = bitsAt w 51 3
  special : v.special.map UInt8.toNat = if bitsAt w 51 3 = 3 then some (bitsAt w 50 1) else none
  op : v.op.Shows w

namespace Operation

/-- The numbers are those of the word. -/
def Shows (w : Word) : Operation → Prop
  | .vmov v => v.Shows w
  | .vmadsi v => v.Shows w
  | .vmad4 v => v.Shows w
  | .phas v => v.Shows w
  | .spec v => v.Shows w

/-- The format whose view this is. -/
def format : Operation → String
  | .vmov _ => "vmov"
  | .vmadsi _ => "vmadsi"
  | .vmad4 _ => "vmad4"
  | .phas _ => "phas"
  | .spec _ => "spec"

/-- What the five views read. -/
def readings (inst : Instruction) : List Operation :=
  [(Vmov.read? inst).map vmov, (Vmadsi.read? inst).map vmadsi, (Vmad4.read? inst).map vmad4,
    (Phas.read? inst).map phas, (Spec.read? inst).map spec].reduceOption

end Operation

/-! ### What the views read -/

theorem Vmov.yields_read? (w : Word) :
    Yields (Vmov.Shows · w) (Vmov.read? (vmovAt.instruction w)) := by
  have hformat : (vmovAt.instruction w).format = "vmov" := rfl
  rw [Vmov.read?, Vmov.view, View.read?_ofFields_of_eq hformat]
  refine (Chain.yields_byte? rfl (by decide)).bind fun _ pred => ?_
  refine (Chain.yields_byte? rfl (by decide)).bind fun _ skipinv => ?_
  refine (Chain.yields_byte? rfl (by decide)).bind fun _ syncstart => ?_
  refine (Chain.yields_byte? rfl (by decide)).bind fun _ moveType => ?_
  refine (Chain.yields_byte? rfl (by decide)).bind fun _ repeatCount => ?_
  refine (Chain.yields_byte? rfl (by decide)).bind fun _ nosched => ?_
  refine (Chain.yields_byte? rfl (by decide)).bind fun _ moveDataType => ?_
  refine (Chain.yields_byte? rfl (by decide)).bind fun _ src0Swiz => ?_
  refine (Chain.yields_byte? rfl (by decide)).bind fun _ destMask => ?_
  refine (Chain.yields_byte? rfl (by decide)).bind fun _ destN => ?_
  refine (Chain.yields_byte? rfl (by decide)).bind fun _ src0N => ?_
  refine (Chain.yields_byte? rfl (by decide)).bind fun _ src1N => ?_
  refine (Chain.yields_byte? rfl (by decide)).bind fun _ src2N => ?_
  exact ⟨_, rfl, ⟨pred, skipinv, syncstart, moveType, repeatCount, nosched, moveDataType, src0Swiz,
    destMask, destN, src0N, src1N, src2N⟩⟩

theorem Vmadsi.yields_read? (w : Word) :
    Yields (Vmadsi.Shows · w) (Vmadsi.read? (vmadsiAt.instruction w)) := by
  have hformat : (vmadsiAt.instruction w).format = "vmadsi" := rfl
  rw [Vmadsi.read?, Vmadsi.view, View.read?_ofFields_of_eq hformat]
  refine (Chain.yields_byte? rfl (by decide)).bind fun _ pred => ?_
  refine (Chain.yields_byte? rfl (by decide)).bind fun _ skipinv => ?_
  refine (Chain.yields_byte? rfl (by decide)).bind fun _ endFlag => ?_
  refine (Chain.yields_byte? rfl (by decide)).bind fun _ incrementMode => ?_
  refine (Chain.yields_byte? rfl (by decide)).bind fun _ repeatCount => ?_
  refine (Chain.yields_byte? rfl (by decide)).bind fun _ nosched => ?_
  refine (Chain.yields_byte? rfl (by decide)).bind fun _ writeMask => ?_
  refine (Chain.yields_byte? rfl (by decide)).bind fun _ destN => ?_
  refine (Chain.yields_byte? rfl (by decide)).bind fun _ gpi0N => ?_
  refine (Chain.yields_byte? rfl (by decide)).bind fun _ gpi1N => ?_
  refine (Chain.yields_byte? rfl (by decide)).bind fun _ src1N => ?_
  refine (Chain.yields_byte? rfl (by decide)).bind fun _ src2N => ?_
  exact ⟨_, rfl, ⟨pred, skipinv, endFlag, incrementMode, repeatCount, nosched, writeMask, destN, gpi0N,
    gpi1N, src1N, src2N⟩⟩

theorem Vmad4.yields_read? (w : Word) :
    Yields (Vmad4.Shows · w) (Vmad4.read? (vmad4At.instruction w)) := by
  have hformat : (vmad4At.instruction w).format = "vmad4" := rfl
  rw [Vmad4.read?, Vmad4.view, View.read?_ofFields_of_eq hformat]
  refine (Chain.yields_byte? rfl (by decide)).bind fun _ pred => ?_
  refine (Chain.yields_byte? rfl (by decide)).bind fun _ skipinv => ?_
  refine (Chain.yields_byte? rfl (by decide)).bind fun _ syncstart => ?_
  refine (Chain.yields_byte? rfl (by decide)).bind fun _ nosched => ?_
  refine (Chain.yields_byte? rfl (by decide)).bind fun _ destMask => ?_
  refine (Chain.yields_byte? rfl (by decide)).bind fun _ src1Mod => ?_
  refine (Chain.yields_byte? rfl (by decide)).bind fun _ src2Mod => ?_
  refine (Chain.yields_byte? rfl (by decide)).bind fun _ destN => ?_
  refine (Chain.yields_byte? rfl (by decide)).bind fun _ src0N => ?_
  refine (Chain.yields_byte? rfl (by decide)).bind fun _ src1N => ?_
  refine (Chain.yields_byte? rfl (by decide)).bind fun _ src2N => ?_
  exact ⟨_, rfl, ⟨pred, skipinv, syncstart, nosched, destMask, src1Mod, src2Mod, destN, src0N, src1N, src2N⟩⟩

theorem Phas.yields_read? (w : Word) :
    Yields (Phas.Shows · w) (Phas.read? (phasAt.instruction w)) := by
  have hformat : (phasAt.instruction w).format = "phas" := rfl
  rw [Phas.read?, Phas.view, View.read?_ofFields_of_eq hformat]
  refine (Chain.yields_byte? rfl (by decide)).bind fun _ endFlag => ?_
  refine (Chain.yields_byte? rfl (by decide)).bind fun _ imm => ?_
  refine (Chain.yields_byte? rfl (by decide)).bind fun _ mode => ?_
  refine (Chain.yields_byte? rfl (by decide)).bind fun _ waitCond => ?_
  refine (Chain.yields_byte? rfl (by decide)).bind fun _ tempCount => ?_
  refine (Chain.yields_word32? rfl (by decide)).bind fun _ exeAddr => ?_
  refine (Chain.yields_byte? rfl (by decide)).bind fun _ src1N => ?_
  refine (Chain.yields_byte? rfl (by decide)).bind fun _ src2N => ?_
  exact ⟨_, rfl, ⟨endFlag, imm, mode, waitCond, tempCount, exeAddr, src1N, src2N⟩⟩

section SpecOp

variable {w : Word}

theorem yields_flow (h : bitsAt w 51 3 = 0) :
    Yields (SpecOp.Shows w) (SpecOp.read? (flowAt.instruction w)) := by
  have hkey : (flowAt.instruction w).key = "spec.flow" := rfl
  rw [SpecOp.read?, hkey]
  refine (Chain.yields_byte? rfl (by decide)).bind fun _ flowOp => ?_
  refine (Chain.yields_int32? rfl (by decide)).bind fun _ branchOffset => ?_
  exact ⟨_, rfl, h, flowOp, branchOffset⟩

theorem yields_moe (h : bitsAt w 51 3 = 1) :
    Yields (SpecOp.Shows w) (SpecOp.read? (moeAt.instruction w)) := by
  have hkey : (moeAt.instruction w).key = "spec.moe" := rfl
  rw [SpecOp.read?, hkey]
  refine (Chain.yields_byte? rfl (by decide)).bind fun _ moeOp => ?_
  refine (Chain.yields_word32? rfl (by decide)).bind fun _ moeData => ?_
  exact ⟨_, rfl, h, moeOp, moeData⟩

theorem yields_sync (h : bitsAt w 51 3 = 2) :
    Yields (SpecOp.Shows w) (SpecOp.read? (syncAt.instruction w)) := by
  have hkey : (syncAt.instruction w).key = "spec.sync" := rfl
  rw [SpecOp.read?, hkey]
  refine (Chain.yields_byte? rfl (by decide)).bind fun _ syncOp => ?_
  refine (Chain.yields_byte? rfl (by decide)).bind fun _ syncTarget => ?_
  exact ⟨_, rfl, h, syncOp, syncTarget⟩

theorem yields_kill (h : bitsAt w 51 3 = 3 ∧ bitsAt w 50 1 = 0) :
    Yields (SpecOp.Shows w) (SpecOp.read? (killAt.instruction w)) := by
  have hkey : (killAt.instruction w).key = "spec.misc.kill" := rfl
  rw [SpecOp.read?, hkey]
  refine (Chain.yields_byte? rfl (by decide)).bind fun _ killMask => ?_
  exact ⟨_, rfl, h, killMask⟩

theorem yields_halt (h : bitsAt w 51 3 = 3 ∧ bitsAt w 50 1 = 1) :
    Yields (SpecOp.Shows w) (SpecOp.read? (haltAt.instruction w)) := by
  have hkey : (haltAt.instruction w).key = "spec.misc.halt" := rfl
  rw [SpecOp.read?, hkey]
  refine (Chain.yields_byte? rfl (by decide)).bind fun _ haltCode => ?_
  exact ⟨_, rfl, h, haltCode⟩

/-- Where a variant has its operation, the rest of the view is read off the fields of `spec`. -/
theorem Spec.yields_read? {c : Chain} (hformat : (c.instruction w).format = "spec")
    (hspec : ∀ name f, specRoot.field? name = some f → c.field? name = some f)
    (hop : Yields (SpecOp.Shows w) (SpecOp.read? (c.instruction w)))
    (hspecial : ((c.instruction w).byte? "special").map UInt8.toNat =
      if bitsAt w 51 3 = 3 then some (bitsAt w 50 1) else none) :
    Yields (Spec.Shows · w) (Spec.read? (c.instruction w)) := by
  rw [Spec.read?, Spec.view, View.read?_ofFields_of_eq hformat]
  refine hop.bind fun _ op => ?_
  refine (Chain.yields_byte? (hspec _ _ rfl) (by decide)).bind fun _ pred => ?_
  refine (Chain.yields_byte? (hspec _ _ rfl) (by decide)).bind fun _ skipinv => ?_
  refine (Chain.yields_byte? (hspec _ _ rfl) (by decide)).bind fun _ nosched => ?_
  refine (Chain.yields_byte? (hspec _ _ rfl) (by decide)).bind fun _ category => ?_
  exact ⟨_, rfl, ⟨pred, skipinv, nosched, category, hspecial, op⟩⟩

theorem Spec.yields_read?_specAt {k : Word} {d : Definition} (hnone : (specAt k d).field? "special" = none)
    (hcategory : bitsAt w 51 3 ≠ 3)
    (hop : Yields (SpecOp.Shows w) (SpecOp.read? ((specAt k d).instruction w))) :
    Yields (Spec.Shows · w) (Spec.read? ((specAt k d).instruction w)) := by
  refine Spec.yields_read? rfl (fun name f hf => Chain.field?_extend hf) hop ?_
  rw [if_neg hcategory, Chain.byte?_eq_none hnone, Option.map_none]

theorem Spec.yields_read?_miscAt {k : Word} {d : Definition} (hcategory : bitsAt w 51 3 = 3)
    (hop : Yields (SpecOp.Shows w) (SpecOp.read? ((miscAt k d).instruction w))) :
    Yields (Spec.Shows · w) (Spec.read? ((miscAt k d).instruction w)) := by
  refine Spec.yields_read? rfl (fun name f hf => Chain.field?_extend (Chain.field?_extend hf)) hop ?_
  have hfield : (miscAt k d).field? "special" = some Usse.special := Chain.field?_extend field?_special
  obtain ⟨b, hb, hbits⟩ := Chain.yields_byte? (w := w) hfield (by decide)
  rw [if_pos hcategory, hb, Option.map_some, hbits]
  rfl

end SpecOp

/-! ### Every format and every word -/

namespace Operation

variable {w : Word} {c : Chain}

theorem yields_of_spec (hformat : (c.instruction w).format = "spec")
    (h : Yields (Spec.Shows · w) (Spec.read? (c.instruction w))) :
    Yields (fun op => op.format = (c.instruction w).format ∧ op.Shows w) (read? (c.instruction w)) := by
  simp only [read?, hformat]
  exact h.map fun v hv => ⟨rfl, hv⟩

/-- **At each position the operation of the format is read**, and it shows the word. -/
theorem yields_read? (hc : c ∈ Chain.terminals builtIn) (hw : c.Admits w) :
    Yields (fun op => op.format = (c.instruction w).format ∧ op.Shows w) (read? (c.instruction w)) := by
  rw [terminals_builtIn] at hc
  simp only [List.mem_cons, List.not_mem_nil, or_false] at hc
  rcases hc with rfl | rfl | rfl | rfl | rfl | rfl | rfl | rfl | rfl
  · have hformat : (vmovAt.instruction w).format = "vmov" := rfl
    simp only [read?, hformat]
    exact (Vmov.yields_read? w).map fun v hv => ⟨rfl, hv⟩
  · have hformat : (vmadsiAt.instruction w).format = "vmadsi" := rfl
    simp only [read?, hformat]
    exact (Vmadsi.yields_read? w).map fun v hv => ⟨rfl, hv⟩
  · have hformat : (vmad4At.instruction w).format = "vmad4" := rfl
    simp only [read?, hformat]
    exact (Vmad4.yields_read? w).map fun v hv => ⟨rfl, hv⟩
  · have hformat : (phasAt.instruction w).format = "phas" := rfl
    simp only [read?, hformat]
    exact (Phas.yields_read? w).map fun v hv => ⟨rfl, hv⟩
  · have hcategory : bitsAt w 51 3 = 0 := ((admits_specAt (by decide)).1 hw).2
    exact yields_of_spec rfl (Spec.yields_read?_specAt rfl (by omega) (yields_flow hcategory))
  · have hcategory : bitsAt w 51 3 = 1 := ((admits_specAt (by decide)).1 hw).2
    exact yields_of_spec rfl (Spec.yields_read?_specAt rfl (by omega) (yields_moe hcategory))
  · have hcategory : bitsAt w 51 3 = 2 := ((admits_specAt (by decide)).1 hw).2
    exact yields_of_spec rfl (Spec.yields_read?_specAt rfl (by omega) (yields_sync hcategory))
  · obtain ⟨hmisc, hspecial⟩ := (admits_miscAt (by decide)).1 hw
    have hcategory := (admits_miscRoot.1 hmisc).2
    exact yields_of_spec rfl (Spec.yields_read?_miscAt hcategory (yields_kill ⟨hcategory, hspecial⟩))
  · obtain ⟨hmisc, hspecial⟩ := (admits_miscAt (by decide)).1 hw
    have hcategory := (admits_miscRoot.1 hmisc).2
    exact yields_of_spec rfl (Spec.yields_read?_miscAt hcategory (yields_halt ⟨hcategory, hspecial⟩))

/-- A view reads the instructions of its format only, so what is read is what the format's view reads. -/
theorem readings_eq (inst : Instruction) : readings inst = (read? inst).toList := by
  have hvmov : inst.format ≠ "vmov" → Vmov.read? inst = none := View.read?_ofFields_of_ne
  have hvmadsi : inst.format ≠ "vmadsi" → Vmadsi.read? inst = none := View.read?_ofFields_of_ne
  have hvmad4 : inst.format ≠ "vmad4" → Vmad4.read? inst = none := View.read?_ofFields_of_ne
  have hphas : inst.format ≠ "phas" → Phas.read? inst = none := View.read?_ofFields_of_ne
  have hspec : inst.format ≠ "spec" → Spec.read? inst = none := View.read?_ofFields_of_ne
  rw [readings, read?]
  split
  case h_1 h =>
    rw [hvmadsi (by simp [h]), hvmad4 (by simp [h]), hphas (by simp [h]), hspec (by simp [h])]
    cases Vmov.read? inst <;> rfl
  case h_2 h =>
    rw [hvmov (by simp [h]), hvmad4 (by simp [h]), hphas (by simp [h]), hspec (by simp [h])]
    cases Vmadsi.read? inst <;> rfl
  case h_3 h =>
    rw [hvmov (by simp [h]), hvmadsi (by simp [h]), hphas (by simp [h]), hspec (by simp [h])]
    cases Vmad4.read? inst <;> rfl
  case h_4 h =>
    rw [hvmov (by simp [h]), hvmadsi (by simp [h]), hvmad4 (by simp [h]), hspec (by simp [h])]
    cases Phas.read? inst <;> rfl
  case h_5 h =>
    rw [hvmov (by simp [h]), hvmadsi (by simp [h]), hvmad4 (by simp [h]), hphas (by simp [h])]
    cases Spec.read? inst <;> rfl
  case h_6 h1 h2 h3 h4 h5 =>
    rw [hvmov h1, hvmadsi h2, hvmad4 h3, hphas h4, hspec h5]
    rfl

end Operation

/-- **One view shows a word that decodes, and none a word that does not.** The operation is that of the
instruction's format, and its numbers are those in the bits of the word. -/
theorem views_exact : ∃ r, registry = .ok r ∧
    (∀ w inst, r.decode w = .ok inst → ∃ op, Operation.ofInstruction inst = .ok op ∧
      op.format = inst.format ∧ Operation.readings inst = [op] ∧ op.Shows w) ∧
    ∀ w e, r.decode w = .error e → ∀ slot, Operation.readings (r.redecode slot w).1 = [] ∧
      Operation.ofInstruction (r.redecode slot w).1 = .error (.viewMismatch "" "UsseInstruction") := by
  obtain ⟨r, hr⟩ := exists_build
  refine ⟨r, registry_eq.trans hr, fun w inst hinst => ?_, fun w e he slot => ?_⟩
  · obtain ⟨c, hc, hw, -⟩ := Registry.exists_admits_of_decode hr hinst
    obtain rfl : inst = c.instruction w :=
      Except.ok.inj (hinst.symm.trans (Registry.decode_eq_of_admits hr hc hw))
    obtain ⟨op, hop, hformat, hshows⟩ := Operation.yields_read? hc hw
    refine ⟨op, ?_, hformat, ?_, hshows⟩
    · rw [Operation.ofInstruction, hop]
    · rw [Operation.readings_eq, hop, Option.toList_some]
  · obtain ⟨_, _, _, _, hdecode, _⟩ | ⟨_, _, hredecode⟩ := Registry.redecode_cases hr slot w
    · rw [hdecode] at he
      cases he
    · rw [hredecode]
      exact ⟨rfl, rfl⟩

/-- The first word branches four back. The second is of no format, and decoded in place of the first it leaves
nothing to view. -/
theorem views_exact_branch : ∃ r inst v, registry = .ok r ∧ r.decode 0xF8000000000FFFFC = .ok inst ∧
    Operation.ofInstruction inst = .ok (.spec v) ∧ Operation.readings inst = [.spec v] ∧
    v.category = 0 ∧ v.special = none ∧ v.op = .flow 0 (-4) ∧
    r.decode 0x1000000000000000 = .error (.unknownFormat 0x1000000000000000) ∧
    Operation.readings (r.redecode inst 0x1000000000000000).1 = [] := by
  obtain ⟨r, hr, hviews, hnone⟩ := views_exact
  have hbuild : Registry.build builtIn = .ok r := registry_eq.symm.trans hr
  have hflow : flowAt.Admits 0xF8000000000FFFFC := by
    rw [flowAt, admits_specAt (by decide), admits_specRoot]
    decide
  have hmem : flowAt ∈ Chain.terminals builtIn := List.mem_of_getElem? (i := 4) rfl
  have hinst := Registry.decode_eq_of_admits hbuild hmem hflow
  have herror : r.decode 0x1000000000000000 = .error (.unknownFormat 0x1000000000000000) := by
    have hdecode : r.decode 0x1000000000000000 = (r.trace 0x1000000000000000).read .blank := rfl
    rw [hdecode, Registry.trace_eq_of_refused hbuild (by decide)]
    rfl
  obtain ⟨op, hof, hformat, hreadings, hshows⟩ := hviews _ _ hinst
  obtain ⟨v, rfl⟩ : ∃ v, op = .spec v := by
    have hspec : op.format = "spec" := hformat
    cases op with
    | spec v => exact ⟨v, rfl⟩
    | _ => simp [Operation.format] at hspec
  refine ⟨r, _, v, hr, hinst, hof, hreadings, ?_, ?_, ?_, herror, (hnone _ _ herror _).1⟩
  · exact UInt8.toNat_inj.1 hshows.category
  · have hspecial := hshows.special
    rw [if_neg (by decide)] at hspecial
    exact Option.map_eq_none_iff.1 hspecial
  · have hop := hshows.op
    cases hv : v.op with rw [hv] at hop
    | flow flowOp branchOffset =>
      obtain ⟨-, hflowOp, hoffset⟩ := hop
      obtain rfl : flowOp = 0 := UInt8.toNat_inj.1 hflowOp
      obtain rfl : branchOffset = -4 := Int32.toInt_inj.1 hoffset
      rfl
    | moe => exact absurd hop.1 (by decide)
    | sync => exact absurd hop.1 (by decide)
    | kill => exact absurd hop.1.1 (by decide)
    | halt => exact absurd hop.1.1 (by decide)

end Usse

end ShaderWord
