import ShaderWord.Instruction

/-!
# Decoding along the definitions

What a word means can be read off the definitions without compiling them: the format that accepts the
word, and then for each discriminant the case whose key is the value of its field, as long as the case
accepts the word too.
-/

namespace ShaderWord.Definition

/-- What a walk has passed: the names, the fields and the choices from the format down. -/
structure Passed where
  names : List String
  fields : List Field
  path : List Choice

namespace Passed

/-- The walk enters a definition. -/
def enter (p : Passed) (s : Shape) : Passed :=
  { p with names := p.names ++ [s.name], fields := p.fields ++ s.fields }

/-- The instruction of a walk that ends here. -/
def instruction (p : Passed) (format : String) (w : Word) : Instruction where
  word := w
  layout := some ⟨Key.ofNames p.names, format, p.path, p.fields⟩
  values := p.fields.map fun f => f.slice.extract w

end Passed

mutual
/-- The walk through a definition that accepts the word. -/
def walk (format : String) (w : Word) (p : Passed) : Definition → Except DecodeError Instruction
  | .leaf s => .ok ((p.enter s).instruction format w)
  | .select s field cases =>
    let p := p.enter s
    match p.fields.find? (·.name = field) with
    | none => .error (.unknownDiscriminant format field 0 w)
    | some f => walkCases format w p field (f.slice.raw w) cases
/-- The walk through the first case whose key is `value`. -/
def walkCases (format : String) (w : Word) (p : Passed) (field : String) (value : Word) :
    List (Word × Definition) → Except DecodeError Instruction
  | [] => .error (.unknownDiscriminant format field value w)
  | (key, child) :: rest =>
    if key = value then
      if child.label.accepts w then
        walk format w { p with path := p.path ++ [⟨field, key⟩] } child
      else .error (.unknownDiscriminant format field value w)
    else walkCases format w p field value rest
end

/-- What the word is under the definitions. -/
def decode (definitions : List Definition) (w : Word) : Except DecodeError Instruction :=
  match definitions.find? (·.label.accepts w) with
  | none => .error (.unknownFormat w)
  | some d => walk d.label.name w ⟨[], [], []⟩ d

end ShaderWord.Definition
