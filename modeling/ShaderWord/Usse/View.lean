import ShaderWord.Dispatch

/-!
# Views of the built-in instructions

Each format of the built-in set has a record of the fields that matter to a reader of shader code, as
fixed-width numbers. `Operation` is any of the records.
-/

namespace ShaderWord

namespace Instruction

/-- A field as a number of eight bits, if it is there and fits. -/
def byte? (inst : Instruction) (name : String) : Option UInt8 :=
  (inst.field? name).bind fun v => (v.toUnsigned? 8).map UInt8.ofNat

/-- A field as a number of 32 bits, if it is there and fits. -/
def word32? (inst : Instruction) (name : String) : Option UInt32 :=
  (inst.field? name).bind fun v => (v.toUnsigned? 32).map UInt32.ofNat

/-- A field as a two's complement number of 32 bits, if it is there and fits. -/
def int32? (inst : Instruction) (name : String) : Option Int32 :=
  (inst.field? name).bind fun v => (v.toSigned? 32).map Int32.ofInt

end Instruction

namespace View

variable {α : Type} {name format : String} {fields? : Instruction → Option α} {inst : Instruction}

/-- The view that reads the instructions of the format by their fields, and no other instruction. -/
def ofFields (name format : String) (fields? : Instruction → Option α) : View α where
  name := name
  format := format
  read? inst := if inst.format = format then fields? inst else none

theorem read?_ofFields_of_eq (h : inst.format = format) :
    (ofFields name format fields?).read? inst = fields? inst := if_pos h

theorem read?_ofFields_of_ne (h : inst.format ≠ format) :
    (ofFields name format fields?).read? inst = none := if_neg h

end View

namespace Usse

/-- A record as text: its name, then the fields in braces. -/
def renderRecord (name : String) (fields : List (String × String)) : String :=
  let shown := fields.map fun (label, value) => label ++ ": " ++ value
  name ++ " \x7b " ++ ", ".intercalate shown ++ " \x7d"

/-! ## `vmov` -/

/-- The fields of a vector move. -/
structure Vmov where
  (pred skipinv syncstart moveType repeatCount nosched moveDataType src0Swiz destMask destN : UInt8)
  (src0N src1N src2N : UInt8)
  deriving DecidableEq

namespace Vmov

def view : View Vmov := .ofFields "Vmov" "vmov" fun inst => do
  return {
    pred := ← inst.byte? "pred"
    skipinv := ← inst.byte? "skipinv"
    syncstart := ← inst.byte? "syncstart"
    moveType := ← inst.byte? "move_type"
    repeatCount := ← inst.byte? "repeat_count"
    nosched := ← inst.byte? "nosched"
    moveDataType := ← inst.byte? "move_data_type"
    src0Swiz := ← inst.byte? "src0_swiz"
    destMask := ← inst.byte? "dest_mask"
    destN := ← inst.byte? "dest_n"
    src0N := ← inst.byte? "src0_n"
    src1N := ← inst.byte? "src1_n"
    src2N := ← inst.byte? "src2_n"
  }

def read? (inst : Instruction) : Option Vmov := view.read? inst

def render (v : Vmov) : String :=
  renderRecord "Vmov"
    [("pred", toString v.pred), ("skipinv", toString v.skipinv),
     ("syncstart", toString v.syncstart), ("move_type", toString v.moveType),
     ("repeat_count", toString v.repeatCount), ("nosched", toString v.nosched),
     ("move_data_type", toString v.moveDataType), ("src0_swiz", toString v.src0Swiz),
     ("dest_mask", toString v.destMask), ("dest_n", toString v.destN),
     ("src0_n", toString v.src0N), ("src1_n", toString v.src1N), ("src2_n", toString v.src2N)]

end Vmov

/-! ## `vmadsi` -/

/-- The fields of a single-issue vector multiply-add. -/
structure Vmadsi where
  (pred skipinv endFlag incrementMode repeatCount nosched writeMask destN gpi0N gpi1N src1N : UInt8)
  src2N : UInt8
  deriving DecidableEq

namespace Vmadsi

def view : View Vmadsi := .ofFields "Vmadsi" "vmadsi" fun inst => do
  return {
    pred := ← inst.byte? "pred"
    skipinv := ← inst.byte? "skipinv"
    endFlag := ← inst.byte? "end"
    incrementMode := ← inst.byte? "increment_mode"
    repeatCount := ← inst.byte? "repeat_count"
    nosched := ← inst.byte? "nosched"
    writeMask := ← inst.byte? "write_mask"
    destN := ← inst.byte? "dest_n"
    gpi0N := ← inst.byte? "gpi0_n"
    gpi1N := ← inst.byte? "gpi1_n"
    src1N := ← inst.byte? "src1_n"
    src2N := ← inst.byte? "src2_n"
  }

def read? (inst : Instruction) : Option Vmadsi := view.read? inst

def render (v : Vmadsi) : String :=
  renderRecord "Vmadsi"
    [("pred", toString v.pred), ("skipinv", toString v.skipinv), ("end", toString v.endFlag),
     ("increment_mode", toString v.incrementMode), ("repeat_count", toString v.repeatCount),
     ("nosched", toString v.nosched), ("write_mask", toString v.writeMask),
     ("dest_n", toString v.destN), ("gpi0_n", toString v.gpi0N), ("gpi1_n", toString v.gpi1N),
     ("src1_n", toString v.src1N), ("src2_n", toString v.src2N)]

end Vmadsi

/-! ## `vmad4` -/

/-- The fields of a four-component vector multiply-add. -/
structure Vmad4 where
  (pred skipinv syncstart nosched destMask src1Mod src2Mod destN src0N src1N src2N : UInt8)
  deriving DecidableEq

namespace Vmad4

def view : View Vmad4 := .ofFields "Vmad4" "vmad4" fun inst => do
  return {
    pred := ← inst.byte? "pred"
    skipinv := ← inst.byte? "skipinv"
    syncstart := ← inst.byte? "syncstart"
    nosched := ← inst.byte? "nosched"
    destMask := ← inst.byte? "dest_mask"
    src1Mod := ← inst.byte? "src1_mod"
    src2Mod := ← inst.byte? "src2_mod"
    destN := ← inst.byte? "dest_n"
    src0N := ← inst.byte? "src0_n"
    src1N := ← inst.byte? "src1_n"
    src2N := ← inst.byte? "src2_n"
  }

def read? (inst : Instruction) : Option Vmad4 := view.read? inst

def render (v : Vmad4) : String :=
  renderRecord "Vmad4"
    [("pred", toString v.pred), ("skipinv", toString v.skipinv),
     ("syncstart", toString v.syncstart), ("nosched", toString v.nosched),
     ("dest_mask", toString v.destMask), ("src1_mod", toString v.src1Mod),
     ("src2_mod", toString v.src2Mod), ("dest_n", toString v.destN), ("src0_n", toString v.src0N),
     ("src1_n", toString v.src1N), ("src2_n", toString v.src2N)]

end Vmad4

/-! ## `phas` -/

/-- The fields of a phase instruction. -/
structure Phas where
  (endFlag imm mode waitCond tempCount : UInt8)
  exeAddr : UInt32
  (src1N src2N : UInt8)
  deriving DecidableEq

namespace Phas

def view : View Phas := .ofFields "Phas" "phas" fun inst => do
  return {
    endFlag := ← inst.byte? "end"
    imm := ← inst.byte? "imm"
    mode := ← inst.byte? "mode"
    waitCond := ← inst.byte? "wait_cond"
    tempCount := ← inst.byte? "temp_count"
    exeAddr := ← inst.word32? "exe_addr"
    src1N := ← inst.byte? "src1_n"
    src2N := ← inst.byte? "src2_n"
  }

def read? (inst : Instruction) : Option Phas := view.read? inst

def render (v : Phas) : String :=
  renderRecord "Phas"
    [("end", toString v.endFlag), ("imm", toString v.imm), ("mode", toString v.mode),
     ("wait_cond", toString v.waitCond), ("temp_count", toString v.tempCount),
     ("exe_addr", toString v.exeAddr), ("src1_n", toString v.src1N), ("src2_n", toString v.src2N)]

end Phas

/-! ## `spec` -/

/-- What a special instruction does. -/
inductive SpecOp where
  | flow (flowOp : UInt8) (branchOffset : Int32)
  | moe (moeOp : UInt8) (moeData : UInt32)
  | sync (syncOp syncTarget : UInt8)
  | kill (killMask : UInt8)
  | halt (haltCode : UInt8)
  deriving DecidableEq

namespace SpecOp

/-- The operation by the instruction's full key. -/
def read? (inst : Instruction) : Option SpecOp :=
  match inst.key with
  | "spec.flow" => return .flow (← inst.byte? "flow_op") (← inst.int32? "branch_offset")
  | "spec.moe" => return .moe (← inst.byte? "moe_op") (← inst.word32? "moe_data")
  | "spec.sync" => return .sync (← inst.byte? "sync_op") (← inst.byte? "sync_target")
  | "spec.misc.kill" => return .kill (← inst.byte? "kill_mask")
  | "spec.misc.halt" => return .halt (← inst.byte? "halt_code")
  | _ => none

def render : SpecOp → String
  | flow op offset =>
    renderRecord "Flow" [("flow_op", toString op), ("branch_offset", toString offset)]
  | moe op data => renderRecord "Moe" [("moe_op", toString op), ("moe_data", toString data)]
  | sync op target =>
    renderRecord "Sync" [("sync_op", toString op), ("sync_target", toString target)]
  | kill mask => renderRecord "Kill" [("kill_mask", toString mask)]
  | halt code => renderRecord "Halt" [("halt_code", toString code)]

end SpecOp

/-- A special instruction; `category` has selected the operation, under one category together with
`special`. -/
structure Spec where
  (pred skipinv nosched category : UInt8)
  special : Option UInt8
  op : SpecOp
  deriving DecidableEq

namespace Spec

def view : View Spec := .ofFields "Spec" "spec" fun inst => do
  return {
    op := ← SpecOp.read? inst
    pred := ← inst.byte? "pred"
    skipinv := ← inst.byte? "skipinv"
    nosched := ← inst.byte? "nosched"
    category := ← inst.byte? "category"
    special := inst.byte? "special"
  }

def read? (inst : Instruction) : Option Spec := view.read? inst

def render (v : Spec) : String :=
  let special := match v.special with
    | none => "None"
    | some n => s!"Some({n})"
  renderRecord "Spec"
    [("pred", toString v.pred), ("skipinv", toString v.skipinv), ("nosched", toString v.nosched),
     ("category", toString v.category), ("special", special), ("op", v.op.render)]

end Spec

/-! ## Any format -/

/-- An instruction of the built-in set. -/
inductive Operation where
  | vmov (v : Vmov)
  | vmadsi (v : Vmadsi)
  | vmad4 (v : Vmad4)
  | phas (v : Phas)
  | spec (v : Spec)
  deriving DecidableEq

namespace Operation

/-- The operation of the instruction's format, if it has the fields. -/
def read? (inst : Instruction) : Option Operation :=
  match inst.format with
  | "vmov" => (Vmov.read? inst).map vmov
  | "vmadsi" => (Vmadsi.read? inst).map vmadsi
  | "vmad4" => (Vmad4.read? inst).map vmad4
  | "phas" => (Phas.read? inst).map phas
  | "spec" => (Spec.read? inst).map spec
  | _ => none

/-- The operation that an instruction is. -/
def ofInstruction (inst : Instruction) : Except DispatchError Operation :=
  match read? inst with
  | some op => .ok op
  | none => .error (.viewMismatch inst.key "UsseInstruction")

def render : Operation → String
  | vmov v => "Vmov(" ++ v.render ++ ")"
  | vmadsi v => "Vmadsi(" ++ v.render ++ ")"
  | vmad4 v => "Vmad4(" ++ v.render ++ ")"
  | phas v => "Phas(" ++ v.render ++ ")"
  | spec v => "Spec(" ++ v.render ++ ")"

end Operation

end Usse

end ShaderWord
