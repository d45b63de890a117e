import ShaderWord.Registry.Admission

/-!
# Decoding plans

Resolving a definition settles what its text leaves open: the slice that each discriminant reads and,
for each definition without cases, its layout. On the way down from a top-level format the definitions
settle names, fields and bits (`Settled`): fields may not repeat, overlap or be fixed in part, and a
case may not contradict the bits fixed before it.
-/

namespace ShaderWord

/-- What the definitions passed on the way down have settled. -/
structure Settled where
  names : List String
  mask : Word
  value : Word
  fields : List Field
  path : List Choice

/-- A definition with its discriminants looked up and its layouts made. -/
inductive Plan where
  | terminal (shape : Shape) (layout : Layout)
  | branch (shape : Shape) (selector : Field) (cases : List (Word × Plan))

namespace Settled

/-- Nothing is settled above a top-level format. -/
def empty : Settled := ⟨[], 0, 0, [], []⟩

/-- The defect of a field beside an earlier one. -/
def conflict? (owner : String) (f earlier : Field) : Option Defect :=
  if earlier.name = f.name then some (.duplicateField owner f.name)
  else if earlier.slice.overlaps f.slice then
    some (.overlappingFields owner earlier.name f.name)
  else none

/-- Some bits of the slice are fixed, but not all. -/
def isPartlyFixed (s : Settled) (slice : Slice) : Bool :=
  slice.mask &&& s.mask != 0 && slice.mask &&& s.mask != slice.mask

/-- Adds a field of the definition `owner`. -/
def declare (owner : String) (s : Settled) (f : Field) : Except Defect Settled :=
  if ¬ f.slice.IsValid then
    .error (.invalidField owner f.name f.slice.offset.toUInt32 f.slice.width.toUInt32)
  else
    match s.fields.findSome? (conflict? owner f) with
    | some defect => .error defect
    | none =>
      if s.isPartlyFixed f.slice then .error (.aliasedField owner f.name)
      else .ok { s with fields := s.fields ++ [f] }

def declareAll (owner : String) (s : Settled) : List Field → Except Defect Settled
  | [] => .ok s
  | f :: rest => do
    let s ← s.declare owner f
    s.declareAll owner rest

/-- The shape agrees with the bits fixed so far. -/
def agrees (s : Settled) (shape : Shape) : Bool :=
  (shape.value ^^^ s.value) &&& (shape.mask &&& s.mask) == 0

/-- Takes in one more definition of the format. -/
def enter (format : String) (s : Settled) (shape : Shape) : Except Defect Settled := do
  shape.requirePredicate
  if s.agrees shape then
    declareAll shape.name
      { s with
        names := s.names ++ [shape.name]
        mask := s.mask ||| shape.mask
        value := s.value ||| shape.value }
      shape.fields
  else .error (.unreachableVariant format shape.name)

/-- The field that the discriminant of `owner` reads. -/
def selector (owner : String) (s : Settled) (field : String) : Except Defect Field :=
  match s.fields.find? (·.name = field) with
  | none => .error (.unknownDiscriminantField owner field)
  | some f => if f.slice.signed then .error (.signedDiscriminant owner field) else .ok f

/-- Takes the case that the value `key` of the selector chooses; the key fixes its bits. -/
def choose (owner : String) (s : Settled) (selector : Field) (key : Word) : Except Defect Settled :=
  if key >>> selector.slice.width.toNat = 0 then
    .ok { s with
      mask := s.mask ||| selector.slice.mask
      value := s.value ||| key <<< selector.slice.offset.toNat
      path := s.path ++ [⟨selector.name, key⟩] }
  else .error (.discriminantKeyOutOfRange owner selector.name key)

/-- The layout of a definition without cases. -/
def layout (format : String) (s : Settled) : Layout :=
  ⟨Key.ofNames s.names, format, s.path, s.fields⟩

end Settled

namespace Plan

def shape : Plan → Shape
  | terminal s _ => s
  | branch s _ _ => s

mutual
/-- Resolves a definition of the format, given what is settled above it. -/
def resolve (format : String) (s : Settled) : Definition → Except Defect Plan
  | .leaf shape => do
    let s ← s.enter format shape
    return terminal shape (s.layout format)
  | .select shape field cases => do
    let s ← s.enter format shape
    let selector ← s.selector shape.name field
    return branch shape selector (← resolveCases format shape.name s selector cases)
/-- Resolves the cases that the selector tells apart. -/
def resolveCases (format owner : String) (s : Settled) (selector : Field) :
    List (Word × Definition) → Except Defect (List (Word × Plan))
  | [] => .ok []
  | (key, child) :: rest => do
    let plan ← resolve format (← s.choose owner selector key) child
    return (key, plan) :: (← resolveCases format owner s selector rest)
end

/-- Resolves a top-level format. -/
def ofDefinition (d : Definition) : Except Defect Plan := resolve d.label.name .empty d

/-- Resolves top-level formats, in order. -/
def ofDefinitions : List Definition → Except Defect (List Plan)
  | [] => .ok []
  | d :: rest => do
    let plan ← ofDefinition d
    return plan :: (← ofDefinitions rest)

mutual
/-- The layouts of a plan, in declaration order. -/
def layouts : Plan → List Layout
  | terminal _ layout => [layout]
  | branch _ _ cases => layoutsOfCases cases
/-- The layouts of all cases. -/
def layoutsOfCases : List (Word × Plan) → List Layout
  | [] => []
  | (_, plan) :: rest => plan.layouts ++ layoutsOfCases rest
end

end Plan

end ShaderWord
