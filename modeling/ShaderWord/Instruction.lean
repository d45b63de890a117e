import ShaderWord.Decode

/-!
# Instructions

An instruction is what an observer keeps of a trace: the word, the layout it reached and a value for
each field of the layout. A new trace replaces what an instruction held, so one instruction can be
decoded into again and again.
-/

namespace ShaderWord

/-- A word, decoded or not. -/
structure Instruction where
  word : Word
  layout : Option Layout
  values : List Value
  deriving DecidableEq

namespace Instruction

/-- The instruction before anything is decoded. -/
def blank : Instruction := ⟨0, none, []⟩

/-- The instruction after an event. -/
def observe (inst : Instruction) : Event → Instruction
  | .start w => ⟨w, none, []⟩
  | .format _ => inst
  | .discriminant _ _ => inst
  | .field _ v => { inst with values := inst.values ++ [v] }
  | .finish layout => { inst with layout := some layout }

/-- A layout was reached. -/
def isDecoded (inst : Instruction) : Bool := inst.layout.isSome

/-- The bytes of an instruction, whatever it is. -/
def byteSize : Nat := 8

/-- The name of the format, empty if nothing is decoded. -/
def format (inst : Instruction) : String := (inst.layout.map Layout.format).getD ""

/-- The dispatch key, empty if nothing is decoded. -/
def key (inst : Instruction) : String := (inst.layout.map Layout.key).getD ""

/-- The choices that lead to the layout. -/
def path (inst : Instruction) : List Choice := (inst.layout.map Layout.path).getD []

/-- The names of the fields with their values, in order. -/
def fields (inst : Instruction) : List (String × Value) :=
  ((inst.layout.map Layout.fields).getD []).map Field.name |>.zip inst.values

/-- The value of a field. -/
def field? (inst : Instruction) (name : String) : Option Value :=
  inst.fields.lookup name

/-- The value by which a discriminant chose on the way to the layout. -/
def discriminant? (inst : Instruction) (field : String) : Option Word :=
  (inst.path.find? (·.field = field)).map Choice.key

/-- The key and the fields, as in `key a=0x1, b=0x2`. -/
def render (inst : Instruction) : String :=
  match inst.layout with
  | none =>
    let shown := Text.hexPadded 16 inst.word.toNat
    s!"(bad {shown})"
  | some layout =>
    let shown := inst.fields.map fun (name, value) => name ++ "=" ++ value.render
    if shown.isEmpty then layout.key else layout.key ++ " " ++ ", ".intercalate shown

end Instruction

namespace Registry

/-- Decodes the word into an instruction, in place of what that held. -/
def redecode (r : Registry) (slot : Instruction) (w : Word) :
    Instruction × Except DecodeError Unit :=
  let t := r.trace w
  (t.observe Instruction.observe slot, t.result)

/-- The instruction that the word is. -/
def decode (r : Registry) (w : Word) : Except DecodeError Instruction :=
  let (inst, result) := r.redecode .blank w
  result.map fun _ => inst

end Registry

end ShaderWord
