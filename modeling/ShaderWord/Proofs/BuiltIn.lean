import ShaderWord.Proofs.BitRanges
import ShaderWord.Proofs.Care
import ShaderWord.Usse.Formats

/-!
# The built-in formats, written out

The drafts of the built-in formats say how wide their members are. Here is where the members come to lie, and
which bits they fix: `Usse.builtIn` is what the drafts build (`Usse.definitions_eq`), and it makes a registry
(`Usse.exists_build`).

A definition is reached in nine ways, and `Usse.terminals_builtIn` lists them. Whether a word goes there is said
by the numbers in a few ranges of its bits (`Usse.admits_vmovAt` and the others).
-/

namespace ShaderWord.Usse

/-! ### Shapes -/

def op1 : Field := ⟨"op1", ⟨59, 5, false⟩⟩

def phaseSelect : Field := ⟨"phase_select", ⟨49, 1, false⟩⟩

def category : Field := ⟨"category", ⟨51, 3, false⟩⟩

def special : Field := ⟨"special", ⟨50, 1, false⟩⟩

def vmovShape : Shape := ⟨"vmov", 0xF800000000000000, 0x3800000000000000,
  [op1, ⟨"pred", ⟨56, 3, false⟩⟩, ⟨"skipinv", ⟨55, 1, false⟩⟩, ⟨"test_bit_2", ⟨54, 1, false⟩⟩,
   ⟨"src0_comp_sel", ⟨53, 1, false⟩⟩, ⟨"syncstart", ⟨52, 1, false⟩⟩,
   ⟨"dest_bank_ext", ⟨51, 1, false⟩⟩, ⟨"end_or_src0_bank_ext", ⟨50, 1, false⟩⟩,
   ⟨"src1_bank_ext", ⟨49, 1, false⟩⟩, ⟨"src2_bank_ext", ⟨48, 1, false⟩⟩,
   ⟨"move_type", ⟨45, 3, false⟩⟩, ⟨"repeat_count", ⟨43, 2, false⟩⟩, ⟨"nosched", ⟨42, 1, false⟩⟩,
   ⟨"move_data_type", ⟨39, 3, false⟩⟩, ⟨"test_bit_1", ⟨38, 1, false⟩⟩,
   ⟨"src0_swiz", ⟨35, 3, false⟩⟩, ⟨"src0_bank_sel", ⟨34, 1, false⟩⟩,
   ⟨"dest_bank_sel", ⟨32, 2, false⟩⟩, ⟨"src1_bank_sel", ⟨30, 2, false⟩⟩,
   ⟨"src2_bank_sel", ⟨28, 2, false⟩⟩, ⟨"dest_mask", ⟨24, 4, false⟩⟩, ⟨"dest_n", ⟨18, 6, false⟩⟩,
   ⟨"src0_n", ⟨12, 6, false⟩⟩, ⟨"src1_n", ⟨6, 6, false⟩⟩, ⟨"src2_n", ⟨0, 6, false⟩⟩]⟩

def vmadsiShape : Shape := ⟨"vmadsi", 0xF800000000000000, 0,
  [op1, ⟨"pred", ⟨56, 3, false⟩⟩, ⟨"skipinv", ⟨55, 1, false⟩⟩,
   ⟨"gpi1_swiz_ext", ⟨54, 1, false⟩⟩, ⟨"dest_use_bank", ⟨53, 1, false⟩⟩, ⟨"end", ⟨52, 1, false⟩⟩,
   ⟨"src1_bank_ext", ⟨51, 1, false⟩⟩, ⟨"src2_bank_ext", ⟨50, 1, false⟩⟩,
   ⟨"increment_mode", ⟨48, 2, false⟩⟩, ⟨"gpi0_abs", ⟨47, 1, false⟩⟩,
   ⟨"repeat_count", ⟨45, 2, false⟩⟩, ⟨"nosched", ⟨44, 1, false⟩⟩, ⟨"write_mask", ⟨40, 4, false⟩⟩,
   ⟨"src1_neg", ⟨39, 1, false⟩⟩, ⟨"src1_abs", ⟨38, 1, false⟩⟩, ⟨"gpi1_neg", ⟨37, 1, false⟩⟩,
   ⟨"gpi1_abs", ⟨36, 1, false⟩⟩, ⟨"gpi0_swiz_ext", ⟨35, 1, false⟩⟩,
   ⟨"dest_bank", ⟨33, 2, false⟩⟩, ⟨"src1_bank", ⟨31, 2, false⟩⟩, ⟨"src2_bank", ⟨29, 2, false⟩⟩,
   ⟨"dest_n", ⟨23, 6, false⟩⟩, ⟨"gpi1_swiz", ⟨19, 4, false⟩⟩, ⟨"gpi0_swiz", ⟨15, 4, false⟩⟩,
   ⟨"gpi0_n", ⟨13, 2, false⟩⟩, ⟨"gpi1_n", ⟨11, 2, false⟩⟩, ⟨"src1_n", ⟨6, 5, false⟩⟩,
   ⟨"src2_n", ⟨0, 6, false⟩⟩]⟩

def vmad4Shape : Shape := ⟨"vmad4", 0xF800000000000000, 0x0800000000000000,
  [op1, ⟨"pred", ⟨56, 3, false⟩⟩, ⟨"skipinv", ⟨55, 1, false⟩⟩,
   ⟨"src1_swiz_bit2", ⟨54, 1, false⟩⟩, ⟨"syncstart", ⟨53, 1, false⟩⟩,
   ⟨"dest_bank_ext", ⟨52, 1, false⟩⟩, ⟨"src1_swiz_bit1", ⟨51, 1, false⟩⟩,
   ⟨"src1_bank_ext", ⟨50, 1, false⟩⟩, ⟨"src2_bank_ext", ⟨49, 1, false⟩⟩,
   ⟨"src2_swiz", ⟨45, 4, false⟩⟩, ⟨"nosched", ⟨44, 1, false⟩⟩, ⟨"dest_mask", ⟨40, 4, false⟩⟩,
   ⟨"src1_mod", ⟨38, 2, false⟩⟩, ⟨"src2_mod", ⟨37, 1, false⟩⟩, ⟨"src1_swiz_bit0", ⟨36, 1, false⟩⟩,
   ⟨"dest_bank_sel", ⟨34, 2, false⟩⟩, ⟨"src1_bank_sel", ⟨32, 2, false⟩⟩,
   ⟨"src2_bank_sel", ⟨30, 2, false⟩⟩, ⟨"dest_n", ⟨24, 6, false⟩⟩, ⟨"src0_n", ⟨18, 6, false⟩⟩,
   ⟨"src1_n", ⟨12, 6, false⟩⟩, ⟨"src2_n", ⟨6, 6, false⟩⟩]⟩

def phasShape : Shape := ⟨"phas", 0xF802000000000000, 0xF802000000000000,
  [op1, ⟨"end", ⟨58, 1, false⟩⟩, ⟨"imm", ⟨57, 1, false⟩⟩, ⟨"src1_bank_ext", ⟨56, 1, false⟩⟩,
   ⟨"mode", ⟨55, 1, false⟩⟩, ⟨"rate_hi", ⟨54, 1, false⟩⟩, ⟨"rate_lo_or_nosched", ⟨53, 1, false⟩⟩,
   ⟨"wait_cond", ⟨50, 3, false⟩⟩, phaseSelect, ⟨"temp_count", ⟨41, 8, false⟩⟩,
   ⟨"exe_addr", ⟨21, 20, false⟩⟩, ⟨"src1_bank", ⟨19, 2, false⟩⟩, ⟨"src2_bank", ⟨17, 2, false⟩⟩,
   ⟨"src1_n", ⟨10, 7, false⟩⟩, ⟨"src2_n", ⟨3, 7, false⟩⟩]⟩

def specShape : Shape := ⟨"spec", 0xF802000000000000, 0xF800000000000000,
  [op1, ⟨"pred", ⟨56, 3, false⟩⟩, ⟨"skipinv", ⟨55, 1, false⟩⟩, ⟨"nosched", ⟨54, 1, false⟩⟩,
   category, phaseSelect]⟩

def flowShape : Shape :=
  ⟨"flow", 0, 0, [⟨"flow_op", ⟨45, 4, false⟩⟩, ⟨"branch_offset", ⟨0, 20, true⟩⟩]⟩

def moeShape : Shape := ⟨"moe", 0, 0, [⟨"moe_op", ⟨46, 3, false⟩⟩, ⟨"moe_data", ⟨0, 24, false⟩⟩]⟩

def syncShape : Shape :=
  ⟨"sync", 0, 0, [⟨"sync_op", ⟨46, 3, false⟩⟩, ⟨"sync_target", ⟨0, 8, false⟩⟩]⟩

def miscShape : Shape := ⟨"misc", 0, 0, [special]⟩

def killShape : Shape := ⟨"kill", 0, 0, [⟨"kill_mask", ⟨0, 4, false⟩⟩]⟩

def haltShape : Shape := ⟨"halt", 0, 0, [⟨"halt_code", ⟨0, 8, false⟩⟩]⟩

def misc : Definition :=
  .select miscShape "special" [(0, .leaf killShape), (1, .leaf haltShape)]

/-- The cases of `spec`. -/
def categories : List (Word × Definition) :=
  [(0, .leaf flowShape), (1, .leaf moeShape), (2, .leaf syncShape), (3, misc)]

/-- What the drafts build. -/
def builtIn : List Definition :=
  [.leaf vmovShape, .leaf vmadsiShape, .leaf vmad4Shape, .leaf phasShape,
   .select specShape "category" categories]

/-- **Where the members of the built-in formats come to lie.** -/
theorem definitions_eq : definitions = .ok builtIn := by
  decide +kernel

theorem exists_build : ∃ r, Registry.build builtIn = .ok r := by
  have hok : (Registry.build builtIn).toOption.isSome = true := by decide +kernel
  cases h : Registry.build builtIn with
  | ok r => exact ⟨r, rfl⟩
  | error e =>
    rw [h] at hok
    cases hok

theorem registry_eq : registry = Registry.build builtIn := by
  rw [registry, definitions_eq, Except.bind]

/-! ### Positions -/

def vmovAt : Chain := ⟨[], .leaf vmovShape⟩

def vmadsiAt : Chain := ⟨[], .leaf vmadsiShape⟩

def vmad4At : Chain := ⟨[], .leaf vmad4Shape⟩

def phasAt : Chain := ⟨[], .leaf phasShape⟩

def specRoot : Chain := ⟨[], .select specShape "category" categories⟩

/-- A case of `spec`. -/
def specAt (category : Word) (d : Definition) : Chain := specRoot.extend ⟨"category", category⟩ d

/-- The case of `spec` that selects again. -/
def miscRoot : Chain := specAt 3 misc

/-- A case of `misc`. -/
def miscAt (special : Word) (d : Definition) : Chain := miscRoot.extend ⟨"special", special⟩ d

def flowAt : Chain := specAt 0 (.leaf flowShape)

def moeAt : Chain := specAt 1 (.leaf moeShape)

def syncAt : Chain := specAt 2 (.leaf syncShape)

def killAt : Chain := miscAt 0 (.leaf killShape)

def haltAt : Chain := miscAt 1 (.leaf haltShape)

/-- **The nine positions without cases.** -/
theorem terminals_builtIn : Chain.terminals builtIn =
    [vmovAt, vmadsiAt, vmad4At, phasAt, flowAt, moeAt, syncAt, killAt, haltAt] := rfl

/-! ### Which words go where -/

section Admits

variable {w k : Word} {d : Definition}

theorem accepts_of_fixedBy_nil {s : Shape} (h : s.FixedBy []) : s.accepts w = true := by
  simpa using Shape.accepts_iff_of_fixedBy h (w := w)

theorem admits_vmovAt : vmovAt.Admits w ↔ bitsAt w 59 5 = 0b00111 := by
  have hfixed : vmovShape.FixedBy [(op1, 0b00111)] := by decide
  simpa [op1, vmovAt, Chain.admits_root, Tree.label] using Shape.accepts_iff_of_fixedBy hfixed (w := w)

theorem admits_vmadsiAt : vmadsiAt.Admits w ↔ bitsAt w 59 5 = 0b00000 := by
  have hfixed : vmadsiShape.FixedBy [(op1, 0b00000)] := by decide
  simpa [op1, vmadsiAt, Chain.admits_root, Tree.label] using Shape.accepts_iff_of_fixedBy hfixed (w := w)

theorem admits_vmad4At : vmad4At.Admits w ↔ bitsAt w 59 5 = 0b00001 := by
  have hfixed : vmad4Shape.FixedBy [(op1, 0b00001)] := by decide
  simpa [op1, vmad4At, Chain.admits_root, Tree.label] using Shape.accepts_iff_of_fixedBy hfixed (w := w)

theorem admits_phasAt : phasAt.Admits w ↔ bitsAt w 59 5 = 0b11111 ∧ bitsAt w 49 1 = 1 := by
  have hfixed : phasShape.FixedBy [(op1, 0b11111), (phaseSelect, 1)] := by decide
  simpa [op1, phaseSelect, phasAt, Chain.admits_root, Tree.label] using
    Shape.accepts_iff_of_fixedBy hfixed (w := w)

theorem admits_specRoot : specRoot.Admits w ↔ bitsAt w 59 5 = 0b11111 ∧ bitsAt w 49 1 = 0 := by
  have hfixed : specShape.FixedBy [(op1, 0b11111), (phaseSelect, 0)] := by decide
  simpa [op1, phaseSelect, specRoot, Chain.admits_root, Tree.label] using
    Shape.accepts_iff_of_fixedBy hfixed (w := w)

theorem field?_category : specRoot.field? "category" = some category := rfl

theorem field?_special : miscRoot.field? "special" = some special := rfl

/-- A case of `spec` that fixes nothing itself takes the words of its category. -/
theorem admits_specAt (h : d.label.FixedBy []) :
    (specAt k d).Admits w ↔ specRoot.Admits w ∧ bitsAt w 51 3 = k.toNat := by
  have hknown : ∀ q ∈ specRoot.path, ∃ f, specRoot.field? q.field = some f := by
    simp [specRoot, Chain.path]
  rw [specAt, Chain.admits_extend hknown field?_category, Slice.raw_eq_iff, accepts_of_fixedBy_nil h,
    eq_self_iff_true, and_true]
  rfl

theorem admits_miscRoot : miscRoot.Admits w ↔ specRoot.Admits w ∧ bitsAt w 51 3 = 3 := by
  have hfixed : miscShape.FixedBy [] := by decide
  exact admits_specAt hfixed

theorem admits_miscAt (h : d.label.FixedBy []) :
    (miscAt k d).Admits w ↔ miscRoot.Admits w ∧ bitsAt w 50 1 = k.toNat := by
  have hknown : ∀ q ∈ miscRoot.path, ∃ f, miscRoot.field? q.field = some f := by
    simpa [miscRoot, specAt, specRoot, Chain.path] using ⟨category, rfl⟩
  rw [miscAt, Chain.admits_extend hknown field?_special, Slice.raw_eq_iff, accepts_of_fixedBy_nil h,
    eq_self_iff_true, and_true]
  rfl

end Admits

end ShaderWord.Usse
