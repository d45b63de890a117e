import ShaderWord.Defect
import ShaderWord.Definition

/-!
# Admission of definitions

What a list of definitions must keep to before it is resolved: usable and distinct names, fixed values
within their masks, no word that two formats accept, and chains of discriminants that are short, never
select twice on one field and tell their cases apart by key and by name. Each check answers the first
defect it meets.
-/

namespace ShaderWord

/-- How many discriminants may follow one another below a top-level format. -/
def chainLimit : Nat := 8

namespace Shape

def requireName (s : Shape) : Except Defect Unit :=
  if Key.IsName s.name then .ok () else .error (.invalidName s.name)

/-- The fixed value lies within the mask. -/
def requirePredicate (s : Shape) : Except Defect Unit :=
  if s.value &&& ~~~s.mask = 0 then .ok () else .error (.invalidPredicate s.name s.mask s.value)

/-- The defect of two formats that accept a common word: they agree on the bits that both fix. -/
def ambiguity? (s t : Shape) : Option Defect :=
  if (s.value ^^^ t.value) &&& (s.mask &&& t.mask) = 0 then
    some (.ambiguousFormats s.name t.name (s.value ||| t.value))
  else none

end Shape

namespace Admission

/-- Names and fixed values of the formats, `earlier` being the names before them. -/
def vetFormats (earlier : List String) : List Shape → Except Defect Unit
  | [] => .ok ()
  | s :: rest => do
    s.requireName
    s.requirePredicate
    if s.name ∈ earlier then .error (.duplicateFormat s.name)
    else vetFormats (s.name :: earlier) rest

/-- The first two formats with a common word. -/
def ambiguity? : List Shape → Option Defect
  | [] => none
  | s :: rest => rest.findSome? s.ambiguity? <|> ambiguity? rest

/-- Names and keys of the cases under one discriminant, `earlier` being the cases before them. -/
def vetCases (owner field : String) (earlier : List (Word × Definition)) :
    List (Word × Definition) → Except Defect Unit
  | [] => .ok ()
  | (key, child) :: rest => do
    child.label.requireName
    if earlier.any (·.1 = key) then .error (.duplicateDiscriminantKey owner field key)
    else if earlier.any (·.2.label.name = child.label.name) then
      .error (.duplicateVariant owner field child.label.name)
    else vetCases owner field ((key, child) :: earlier) rest

mutual
/-- The discriminants of a definition, `used` being the fields that have selected above it. -/
def vetChain (format : String) (used : List String) : Definition → Except Defect Unit
  | .leaf _ => .ok ()
  | .select s field cases =>
    if chainLimit ≤ used.length then
      .error (.discriminantTooDeep format chainLimit)
    else if field ∈ used then .error (.redundantDiscriminant s.name field)
    else do
      vetCases s.name field [] cases
      vetChains format (field :: used) cases
/-- The discriminants of the cases, in order. -/
def vetChains (format : String) (used : List String) :
    List (Word × Definition) → Except Defect Unit
  | [] => .ok ()
  | (_, child) :: rest => do
    vetChain format used child
    vetChains format used rest
end

/-- All checks of a list of definitions. -/
def vet (definitions : List Definition) : Except Defect Unit := do
  let shapes := definitions.map Tree.label
  vetFormats [] shapes
  match ambiguity? shapes with
  | some defect => .error defect
  | none => definitions.forM fun d => vetChain d.label.name [] d

end Admission

end ShaderWord
