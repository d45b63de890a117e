import ShaderWord.Draft
import ShaderWord.Registry

/-!
# The built-in instruction set

The formats of the universal scalable shader engine. Each has its major opcode in `op1`, the top five
bits; `phas` and `spec` share one and differ in `phase_select`.
-/

namespace ShaderWord.Usse

/-- Vector move. -/
def vmov : Draft := .ofMembers "vmov"
  [.fixed "op1" "00111", .field "pred" 3, .field "skipinv" 1, .field "test_bit_2" 1,
   .field "src0_comp_sel" 1, .field "syncstart" 1, .field "dest_bank_ext" 1,
   .field "end_or_src0_bank_ext" 1, .field "src1_bank_ext" 1, .field "src2_bank_ext" 1,
   .field "move_type" 3, .field "repeat_count" 2, .field "nosched" 1, .field "move_data_type" 3,
   .field "test_bit_1" 1, .field "src0_swiz" 3, .field "src0_bank_sel" 1,
   .field "dest_bank_sel" 2, .field "src1_bank_sel" 2, .field "src2_bank_sel" 2,
   .field "dest_mask" 4, .field "dest_n" 6, .field "src0_n" 6, .field "src1_n" 6,
   .field "src2_n" 6]

/-- Single-issue vector multiply-add. -/
def vmadsi : Draft := .ofMembers "vmadsi"
  [.fixed "op1" "00000", .field "pred" 3, .field "skipinv" 1, .field "gpi1_swiz_ext" 1,
   .field "dest_use_bank" 1, .field "end" 1, .field "src1_bank_ext" 1, .field "src2_bank_ext" 1,
   .field "increment_mode" 2, .field "gpi0_abs" 1, .field "repeat_count" 2, .field "nosched" 1,
   .field "write_mask" 4, .field "src1_neg" 1, .field "src1_abs" 1, .field "gpi1_neg" 1,
   .field "gpi1_abs" 1, .field "gpi0_swiz_ext" 1, .field "dest_bank" 2, .field "src1_bank" 2,
   .field "src2_bank" 2, .field "dest_n" 6, .field "gpi1_swiz" 4, .field "gpi0_swiz" 4,
   .field "gpi0_n" 2, .field "gpi1_n" 2, .field "src1_n" 5, .field "src2_n" 6]

/-- Four-component vector multiply-add; the low six bits are open. -/
def vmad4 : Draft := .ofMembers "vmad4"
  [.fixed "op1" "00001", .field "pred" 3, .field "skipinv" 1, .field "src1_swiz_bit2" 1,
   .field "syncstart" 1, .field "dest_bank_ext" 1, .field "src1_swiz_bit1" 1,
   .field "src1_bank_ext" 1, .field "src2_bank_ext" 1, .field "src2_swiz" 4, .field "nosched" 1,
   .field "dest_mask" 4, .field "src1_mod" 2, .field "src2_mod" 1, .field "src1_swiz_bit0" 1,
   .field "dest_bank_sel" 2, .field "src1_bank_sel" 2, .field "src2_bank_sel" 2,
   .field "dest_n" 6, .field "src0_n" 6, .field "src1_n" 6, .field "src2_n" 6]

/-- Phase. -/
def phas : Draft := .ofMembers "phas"
  [.fixed "op1" "11111", .field "end" 1, .field "imm" 1, .field "src1_bank_ext" 1,
   .field "mode" 1, .field "rate_hi" 1, .field "rate_lo_or_nosched" 1, .field "wait_cond" 3,
   .fixed "phase_select" "1", .field "temp_count" 8, .field "exe_addr" 20, .field "src1_bank" 2,
   .field "src2_bank" 2, .field "src1_n" 7, .field "src2_n" 7]

/-- Special instructions: flow control, memory and synchronisation by category, and under category 3
two more by `special`. -/
def spec : Draft :=
  Draft.ofMembers "spec"
    [.fixed "op1" "11111", .field "pred" 3, .field "skipinv" 1, .field "nosched" 1,
     .field "category" 3, .atBit 49 (.fixed "phase_select" "0")]
  |>.select "category"
    [(0, .ofMembers "flow" [.atBit 45 (.field "flow_op" 4), .atBit 0 (.signed "branch_offset" 20)]),
     (1, .ofMembers "moe" [.atBit 46 (.field "moe_op" 3), .atBit 0 (.field "moe_data" 24)]),
     (2, .ofMembers "sync" [.atBit 46 (.field "sync_op" 3), .atBit 0 (.field "sync_target" 8)]),
     (3, Draft.ofMembers "misc" [.atBit 50 (.field "special" 1)]
       |>.select "special"
         [(0, .ofMembers "kill" [.atBit 0 (.field "kill_mask" 4)]),
          (1, .ofMembers "halt" [.atBit 0 (.field "halt_code" 8)])])]

/-- The formats, in order. -/
def formats : List Draft := [vmov, vmadsi, vmad4, phas, spec]

def definitions : Except Defect (List Definition) := formats.mapM Draft.build

def registry : Except Defect Registry := definitions.bind Registry.build

end ShaderWord.Usse
