import ShaderWord.Word

/-!
# Defects of definitions

Why a layout cannot be drawn up, or why a list of definitions makes no registry.
-/

namespace ShaderWord

/-- What is wrong, and where. -/
inductive Defect where
  /-- Both formats accept the word `witness`. -/
  | ambiguousFormats (first second : String) (witness : Word)
  | duplicateFormat (name : String)
  /-- The name is empty or holds a dot. -/
  | invalidName (name : String)
  | duplicateVariant (format field variant : String)
  /-- The variant and what leads to it fix a bit differently. -/
  | unreachableVariant (format variant : String)
  /-- The fixed value has bits outside the mask. -/
  | invalidPredicate (format : String) (mask value : Word)
  | invalidField (format field : String) (offset width : UInt32)
  | memberOverlap (format member : String)
  | badPattern (format member pattern : String)
  | duplicateField (format field : String)
  | overlappingFields (format first second : String)
  /-- Some bits of the field are fixed, others are not. -/
  | aliasedField (format field : String)
  | unknownDiscriminantField (format field : String)
  | signedDiscriminant (format field : String)
  | duplicateDiscriminantKey (format field : String) (key : Word)
  | discriminantKeyOutOfRange (format field : String) (key : Word)
  /-- The field has selected a case further up. -/
  | redundantDiscriminant (format field : String)
  | discriminantTooDeep (format : String) (limit : Nat)
  deriving DecidableEq

namespace Defect

open Text

def message : Defect → String
  | ambiguousFormats first second witness =>
    let word := hexPadded 16 witness.toNat
    s!"formats `{first}` and `{second}` can both match word {word}"
  | duplicateFormat name => s!"format `{name}` is defined more than once"
  | invalidName name =>
    let shown := quoted name
    s!"{shown} is not a usable definition name: names must be non-empty and contain no `.`"
  | duplicateVariant format field variant =>
    s!"format `{format}`: two variants of discriminant `{field}` are both named `{variant}`"
  | unreachableVariant format variant =>
    s!"format `{format}`: variant `{variant}` fixes bits its parents already fix differently"
  | invalidPredicate format mask value =>
    let fixed := hex value.toNat
    let within := hex mask.toNat
    s!"format `{format}`: fixed value {fixed} has bits outside fixed mask {within}"
  | invalidField format field offset width =>
    s!"format `{format}`: field `{field}` (offset {offset}, width {width}) does not fit in 64 bits"
  | memberOverlap format member =>
    s!"format `{format}`: member `{member}` starts above the previous member"
  | badPattern format member pattern =>
    let shown := quoted pattern
    s!"format `{format}`: bad bit pattern {shown} for `{member}`"
  | duplicateField format field => s!"format `{format}`: field `{field}` is declared twice"
  | overlappingFields format first second =>
    s!"format `{format}`: fields `{first}` and `{second}` overlap"
  | aliasedField format field =>
    s!"format `{format}`: field `{field}` is only partly covered by fixed bits"
  | unknownDiscriminantField format field =>
    s!"format `{format}`: discriminant `{field}` names no field"
  | signedDiscriminant format field => s!"format `{format}`: discriminant `{field}` is signed"
  | duplicateDiscriminantKey format field key =>
    let value := key.toNat
    s!"format `{format}`: discriminant `{field}` has value {value} twice"
  | discriminantKeyOutOfRange format field key =>
    let value := key.toNat
    s!"format `{format}`: discriminant `{field}` cannot hold value {value}"
  | redundantDiscriminant format field =>
    s!"format `{format}`: discriminant `{field}` is already resolved further up the chain"
  | discriminantTooDeep format limit =>
    s!"format `{format}`: discriminant chain is deeper than {limit}"

end Defect

end ShaderWord
