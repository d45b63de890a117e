import ShaderWord.Proofs.Trail
import ShaderWord.Registry.Admission

/-!
# Presence of defects

`Defect.IsPresent` says what a defect says, of the definitions themselves and without regard to the order in which
anything is checked: that there is a position with the names the defect gives, and that the rule the
defect stands for is broken there. The two defects of layouts that are still being drawn up are never
present in definitions.
-/

namespace ShaderWord.Defect

/-- A definition of the name, at some position, is as `P` says. -/
def InDefinition (ds : List Definition) (name : String) (P : Chain → Prop) : Prop :=
  ∃ c ∈ Chain.ofDefinitions ds, c.target.label.name = name ∧ P c

/-- A definition of the name has a discriminant on the field, and is with its cases as `P` says. -/
def InDiscriminant (ds : List Definition) (name field : String)
    (P : Chain → List (Word × Definition) → Prop) : Prop :=
  InDefinition ds name fun c => ∃ cases, c.target.selection = some (field, cases) ∧ P c cases

/-- What the defect says is so, at a position with the names it gives. -/
def IsPresent (ds : List Definition) : Defect → Prop
  | ambiguousFormats first second w =>
    ∃ a b, [a, b].Sublist ds ∧ a.label.name = first ∧ b.label.name = second ∧
      a.label.accepts w = true ∧ b.label.accepts w = true
  | duplicateFormat name =>
    ∃ a b, [a, b].Sublist ds ∧ a.label.name = name ∧ b.label.name = name
  | invalidName name => InDefinition ds name fun _ => name = "" ∨ '.' ∈ name.toList
  | duplicateVariant format field variant =>
    InDiscriminant ds format field fun _ cases =>
      ∃ a b, [a, b].Sublist cases ∧ a.2.label.name = variant ∧ b.2.label.name = variant
  | unreachableVariant format variant =>
    InDefinition ds variant fun c => c.names.head? = some format ∧
      (∃ p ∈ c.above.pins, ¬ p.Agrees c.target.label.pin) ∧ ∀ w, ¬ c.Admits w
  | invalidPredicate format mask value =>
    InDefinition ds format fun c => c.target.label.mask = mask ∧ c.target.label.value = value ∧
      ∃ i, value.getLsbD i = true ∧ mask.getLsbD i = false
  | invalidField format field offset width =>
    InDefinition ds format fun c => ∃ f ∈ c.target.label.fields, f.name = field ∧
      f.slice.offset.toUInt32 = offset ∧ f.slice.width.toUInt32 = width ∧
        (width.toNat = 0 ∨ 64 < offset.toNat + width.toNat)
  | memberOverlap _ _ => False
  | badPattern _ _ _ => False
  | duplicateField format field =>
    InDefinition ds format fun c =>
      ∃ f g, [f, g].Sublist c.fields ∧ f.name = field ∧ g.name = field
  | overlappingFields format first second =>
    InDefinition ds format fun c =>
      ∃ f g, [f, g].Sublist c.fields ∧ f.name = first ∧ g.name = second ∧
        ∃ i, f.slice.mask.getLsbD i = true ∧ g.slice.mask.getLsbD i = true
  | aliasedField format field =>
    InDefinition ds format fun c => ∃ f ∈ c.target.label.fields, f.name = field ∧
      (∃ i, f.slice.mask.getLsbD i = true ∧ ∃ s ∈ c.shapes, s.mask.getLsbD i = true) ∧
      ∃ i, f.slice.mask.getLsbD i = true ∧ c.pinned.getLsbD i = false
  | unknownDiscriminantField format field =>
    InDiscriminant ds format field fun c _ => ∀ f ∈ c.fields, f.name ≠ field
  | signedDiscriminant format field =>
    InDiscriminant ds format field fun c _ =>
      ∃ f, c.field? field = some f ∧ f.slice.signed = true
  | duplicateDiscriminantKey format field key =>
    InDiscriminant ds format field fun _ cases =>
      ∃ a b, [a, b].Sublist cases ∧ a.1 = key ∧ b.1 = key
  | discriminantKeyOutOfRange format field key =>
    InDiscriminant ds format field fun c cases => (∃ child, (key, child) ∈ cases) ∧
      ∃ f, c.field? field = some f ∧ 2 ^ f.slice.width.toNat ≤ key.toNat
  | redundantDiscriminant format field =>
    InDiscriminant ds format field fun c _ => field ∈ c.path.map Choice.field
  | discriminantTooDeep format limit =>
    limit = 8 ∧ ∃ c ∈ Chain.ofDefinitions ds, c.names.head? = some format ∧
      c.target.selection.isSome ∧ 8 < c.path.length + 1

end ShaderWord.Defect
