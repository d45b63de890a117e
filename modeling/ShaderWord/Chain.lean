import ShaderWord.Definition

/-!
# Chains of definitions

A chain leads from a top-level format to one of its definitions, by way of the definitions in between,
their discriminants and the keys of the cases taken. What a chain says of a word, it says without
regard to the other cases: `Chain.Admits` is that every definition accepts the word and every
discriminant has its key.
-/

namespace ShaderWord

/-- A definition with cases, and the case taken. -/
structure Link where
  shape : Shape
  choice : Choice

/-- The way to a definition. -/
structure Chain where
  links : List Link
  target : Definition

namespace Chain

/-- The chain with one more link on top. -/
def below (l : Link) (c : Chain) : Chain := ⟨l :: c.links, c.target⟩

mutual
/-- The chains to a definition and to those below it, in declaration order. -/
def ofDefinition : Definition → List Chain
  | .leaf s => [⟨[], .leaf s⟩]
  | .select s field cases => ⟨[], .select s field cases⟩ :: ofCases s field cases
/-- The chains by way of the cases. -/
def ofCases (s : Shape) (field : String) : List (Word × Definition) → List Chain
  | [] => []
  | (key, child) :: rest =>
    (ofDefinition child).map (below ⟨s, ⟨field, key⟩⟩) ++ ofCases s field rest
end

/-- The target has no cases. -/
def isTerminal (c : Chain) : Bool := c.target.selection.isNone

/-- The definitions from the format down. -/
def shapes (c : Chain) : List Shape := c.links.map Link.shape ++ [c.target.label]

def names (c : Chain) : List String := c.shapes.map Shape.name

def fields (c : Chain) : List Field := c.shapes.flatMap Shape.fields

def path (c : Chain) : List Choice := c.links.map Link.choice

/-- The dispatch key of the target. -/
def key (c : Chain) : String := Key.ofNames c.names

/-- The field of a name. -/
def field? (c : Chain) (name : String) : Option Field := c.fields.find? (·.name = name)

/-- The layout of the target. -/
def layout (c : Chain) : Layout := ⟨c.key, (c.names.head?).getD "", c.path, c.fields⟩

/-- The bits that the definitions and the discriminants of the chain pin. -/
def pinned (c : Chain) : Word :=
  let fixed := c.shapes.map Shape.mask
  let selectors := c.path.filterMap fun p => (c.field? p.field).map fun f => f.slice.mask
  (fixed ++ selectors).foldl (· ||| ·) 0

/-- Every definition of the chain accepts the word and every discriminant has its key. -/
def Admits (c : Chain) (w : Word) : Prop :=
  (∀ s ∈ c.shapes, s.accepts w) ∧
    ∀ p ∈ c.path, ∃ f, c.field? p.field = some f ∧ f.slice.raw w = p.key

instance (c : Chain) (w : Word) : Decidable (c.Admits w) :=
  inferInstanceAs (Decidable ((∀ s ∈ c.shapes, s.accepts w = true) ∧
    ∀ p ∈ c.path, ∃ f, f ∈ c.field? p.field ∧ f.slice.raw w = p.key))

end Chain

end ShaderWord
