import ShaderWord.Registry.Plan

/-!
# Registries

A registry is a list of definitions made ready for decoding. `Registry.build` admits only lists in
which no two formats accept one word, so the order of the formats never decides what a word means.

A decoder walks plans laid out in one vector: a node stands after the nodes of its cases, and the last
node of a plan is its root. A branch keeps its cases in increasing order of key and searches them by
halving.
-/

namespace ShaderWord

/-! ### Node vectors -/

/-- A case of a branch: its key and the index of its node. -/
structure CaseEntry where
  key : Word
  node : Nat
  deriving DecidableEq

/-- A plan's outermost definition; its cases are other nodes of the vector. -/
inductive Node where
  | terminal (shape : Shape) (layout : Layout)
  | branch (shape : Shape) (selector : Field) (cases : Array CaseEntry)

namespace CaseEntry

/-- Puts a case before the first of a greater key. -/
def insert (c : CaseEntry) : List CaseEntry → List CaseEntry
  | [] => [c]
  | d :: rest => if c.key < d.key then c :: d :: rest else d :: insert c rest

/-- The cases in order of key. -/
def sort (cases : List CaseEntry) : Array CaseEntry :=
  (cases.foldl (fun sorted c => c.insert sorted) []).toArray

/-- The node of the case with the key, among the cases from `low` to before `high`. -/
def search (cases : Array CaseEntry) (key : Word) (low high : Nat) : Option Nat :=
  if _ : low < high then
    let middle := (low + high) / 2
    match cases[middle]? with
    | none => none
    | some c =>
      if c.key = key then some c.node
      else if c.key < key then search cases key (middle + 1) high
      else search cases key low middle
  else none
termination_by high - low

end CaseEntry

namespace Node

def shape : Node → Shape
  | terminal s _ => s
  | branch s _ _ => s

mutual
/-- The vector with the nodes of a plan behind it. -/
def push (nodes : Array Node) : Plan → Array Node
  | .terminal shape layout => nodes.push (.terminal shape layout)
  | .branch shape selector cases =>
    let (nodes, entries) := pushCases nodes cases
    nodes.push (.branch shape selector (CaseEntry.sort entries))
/-- The vector with the nodes of all cases behind it, and the entries of the cases. -/
def pushCases (nodes : Array Node) : List (Word × Plan) → Array Node × List CaseEntry
  | [] => (nodes, [])
  | (key, plan) :: rest =>
    let nodes := push nodes plan
    let entry := ⟨key, nodes.size - 1⟩
    let (nodes, entries) := pushCases nodes rest
    (nodes, entry :: entries)
end

/-- The vector with the nodes of the plans behind it, and the roots of the plans. -/
def pushRoots (nodes : Array Node) : List Plan → Array Node × List Nat
  | [] => (nodes, [])
  | plan :: rest =>
    let nodes := push nodes plan
    let root := nodes.size - 1
    let (nodes, roots) := pushRoots nodes rest
    (nodes, root :: roots)

end Node

/-! ### Registries -/

/-- The definitions of a decoder, their nodes with the root of each format, and their layouts in
declaration order. -/
structure Registry where
  definitions : List Definition
  nodes : Array Node
  roots : List Nat
  layouts : List Layout

namespace Registry

/-- The registry of resolved definitions. -/
def ofPlans (definitions : List Definition) (plans : List Plan) : Registry :=
  let (nodes, roots) := Node.pushRoots #[] plans
  ⟨definitions, nodes, roots, plans.flatMap Plan.layouts⟩

/-- The registry of the definitions, or their first defect. -/
def build (definitions : List Definition) : Except Defect Registry := do
  Admission.vet definitions
  return ofPlans definitions (← Plan.ofDefinitions definitions)

/-- The number of formats. -/
def size (r : Registry) : Nat := r.definitions.length

def isEmpty (r : Registry) : Bool := r.definitions.isEmpty

/-- The names of the formats, in order. -/
def names (r : Registry) : List String := r.definitions.map (·.label.name)

/-- The format of a name. -/
def get? (r : Registry) (name : String) : Option Definition :=
  r.definitions.find? (·.label.name = name)

/-- Every key that a decoded instruction can have and every key that encloses one, each once. -/
def keys (r : Registry) : List String :=
  (r.layouts.flatMap (Key.enclosing ·.key)).eraseDups

/-- How many formats accept the word. -/
def acceptingCount (r : Registry) (w : Word) : Nat := r.definitions.countP (·.label.accepts w)

end Registry

end ShaderWord
