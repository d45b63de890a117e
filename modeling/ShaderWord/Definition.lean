import ShaderWord.Word

/-!
# Format definitions

A definition accepts the words that agree with its fixed bits and names the fields of such a word. A
definition with cases narrows further: the value of one field selects the case. So definitions are
trees whose inner nodes select a subtree by the value of a named field (`Tree`); `Tree.induct` is
induction with the hypothesis for every case, and equality of trees is decidable.

A key joins the names of definitions from a top-level format down with dots. The keys that enclose a
key are itself and what is left of it when it is cut at one of its dots. What a definition without cases
contributes to the words that reach it is its `Layout`.
-/

namespace ShaderWord

/-! ### Selection trees -/

/-- A labelled tree. The cases of a `select` node are in declaration order, and nothing keeps a key
from occurring twice. -/
inductive Tree (α : Type) where
  | leaf (label : α)
  | select (label : α) (field : String) (cases : List (Word × Tree α))

namespace Tree

variable {α : Type}

def label : Tree α → α
  | leaf a => a
  | select a _ _ => a

/-- The field that selects a case, and the cases. -/
def selection : Tree α → Option (String × List (Word × Tree α))
  | leaf _ => none
  | select _ f cs => some (f, cs)

theorem induct {P : Tree α → Prop} (leaf : ∀ a, P (.leaf a))
    (select : ∀ a f cs, (∀ c ∈ cs, P c.2) → P (.select a f cs)) (t : Tree α) : P t :=
  Tree.rec (motive_1 := P) (motive_2 := fun cs => ∀ c ∈ cs, P c.2) (motive_3 := fun c => P c.2)
    leaf select (fun _ h => nomatch h)
    (fun _ _ hc hcs => List.forall_mem_cons.2 ⟨hc, hcs⟩) (fun _ _ h => h) t

/-! ### Equality of trees -/

section Equality

variable [DecidableEq α]

mutual
/-- The trees are equal. -/
def same : Tree α → Tree α → Bool
  | leaf a, leaf b => a = b
  | select a f cs, select b g ds => a = b && f = g && sameCases cs ds
  | _, _ => false
/-- The lists of cases are equal. -/
def sameCases : List (Word × Tree α) → List (Word × Tree α) → Bool
  | [], [] => true
  | (k, t) :: cs, (l, u) :: ds => k = l && t.same u && sameCases cs ds
  | _, _ => false
end

mutual
theorem same_iff : ∀ t u : Tree α, t.same u = true ↔ t = u
  | leaf a, leaf b => by simp [same]
  | select a f cs, select b g ds => by simp [same, sameCases_iff cs ds, and_assoc]
  | leaf _, select .. => by simp [same]
  | select .., leaf _ => by simp [same]
theorem sameCases_iff : ∀ cs ds : List (Word × Tree α), sameCases cs ds = true ↔ cs = ds
  | [], [] => by simp [sameCases]
  | (k, t) :: cs, (l, u) :: ds => by simp [sameCases, same_iff t u, sameCases_iff cs ds]
  | [], _ :: _ => by simp [sameCases]
  | _ :: _, [] => by simp [sameCases]
end

instance : DecidableEq (Tree α) := fun t u => decidable_of_iff _ (same_iff t u)

end Equality

end Tree

/-! ### Definitions -/

/-- What one definition says by itself, its cases apart: a name, the fixed bits as mask and value,
and the fields in order. -/
structure Shape where
  name : String
  mask : Word
  value : Word
  fields : List Field
  deriving DecidableEq

namespace Shape

/-- The word agrees with the fixed bits. -/
def accepts (s : Shape) (w : Word) : Bool := w &&& s.mask == s.value

end Shape

/-- A format definition: a shape, and the cases under the field that selects among them. -/
abbrev Definition := Tree Shape

/-! ### Dispatch keys -/

namespace Key

/-- The key of the definition that the names lead to. -/
def ofNames (names : List String) : String := ".".intercalate names

/-- What follows each dot, in order. -/
def afterDots : List Char → List (List Char)
  | [] => []
  | c :: rest => if c = '.' then rest :: afterDots rest else afterDots rest

/-- The key and what stands before each of its dots, the longest first. -/
def enclosing (key : String) : List String :=
  key :: (afterDots key.toList.reverse).map fun before => .ofList before.reverse

/-- The name can be part of a key. -/
def IsName (name : String) : Prop := name ≠ "" ∧ '.' ∉ name.toList

instance (name : String) : Decidable (IsName name) := inferInstanceAs (Decidable (_ ∧ _))

/-- A leading dot has the empty key before it. -/
example : enclosing "a..b" = ["a..b", "a.", "a"] ∧ enclosing ".x" = [".x", ""] := by decide +kernel

end Key

/-! ### Layouts -/

/-- A field that selects a case, and the value that selects it. -/
structure Choice where
  field : String
  key : Word
  deriving DecidableEq

/-- A resolved layout: its dispatch key, its top-level format, the choices that lead to it and all
fields from the format down. -/
structure Layout where
  key : String
  format : String
  path : List Choice
  fields : List Field
  deriving DecidableEq

end ShaderWord
