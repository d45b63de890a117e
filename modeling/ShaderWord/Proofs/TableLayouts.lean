import Mathlib.Data.List.Dedup
import ShaderWord.Proofs.Drawings
import ShaderWord.Table.Document

/-!
# Layouts of tables

* `Tree.labels t` — the labels of `t`, that of a tree before those of its cases;
* `Table.FormatSpec.objects f` — the member objects of `f`, each with the name that is above it;
* `Table.FormatSpec.layout f` — the layout of `f` without regard to the objects that have not one key.

A format with an object of more or fewer keys is not drawn up, and the first of them is reported; any other
format has its layout (`Table.FormatSpec.draft_eq`).
-/

namespace ShaderWord

/-! ### Labels -/

namespace Tree

variable {α : Type}

mutual
/-- The labels, depth first and the cases in declaration order. -/
def labels : Tree α → List α
  | leaf a => [a]
  | select a _ cases => a :: labelsOfCases cases
/-- The labels of the cases. -/
def labelsOfCases : List (Word × Tree α) → List α
  | [] => []
  | (_, t) :: rest => t.labels ++ labelsOfCases rest
end

variable {P : α → Prop}

mutual
theorem each_iff_labels : ∀ t : Tree α, t.Each P ↔ ∀ a ∈ t.labels, P a
  | leaf a => by
    rw [labels, List.forall_mem_singleton]
    exact ⟨fun h => by cases h; assumption, .leaf⟩
  | select a field cases => by
    rw [labels, List.forall_mem_cons, ← each_iff_labelsOfCases cases]
    constructor
    · rintro (_ | ⟨h, hcases⟩)
      exact ⟨h, hcases⟩
    · rintro ⟨h, hcases⟩
      exact .select h hcases
theorem each_iff_labelsOfCases : ∀ cases : List (Word × Tree α),
    (∀ c ∈ cases, c.2.Each P) ↔ ∀ a ∈ labelsOfCases cases, P a
  | [] => by simp [labelsOfCases]
  | (key, t) :: rest => by
    rw [labelsOfCases, List.forall_mem_cons, List.forall_mem_append, each_iff_labels t,
      each_iff_labelsOfCases rest]
end

end Tree

namespace Table

deriving instance DecidableEq for Heading

deriving instance DecidableEq for Document

/-! ### Objects and their members -/

/-- How many different keys the object has. -/
def MemberObject.keyCount (o : MemberObject) : Nat := (o.map Prod.fst).dedup.length

/-- The member of an object, if it has one entry. -/
def MemberObject.member? : MemberObject → Option Member
  | [(name, spec)] => some (spec.member name)
  | _ => none

/-- What is reported of an object below a format or a case of the name. -/
def keysError? (o : String × MemberObject) : Option TableError :=
  if o.2.length = 1 then none else some (.memberKeys o.1 o.2.length)

namespace Heading

/-- The member objects, each with the name that is above it. -/
def objects (h : Heading) : List (String × MemberObject) := h.members.map fun o => (h.name, o)

/-- The members of the objects, in order. -/
def layoutMembers (h : Heading) : List Member := h.members.filterMap MemberObject.member?

/-- The members laid out. -/
def layout (h : Heading) : Draft := .ofMembers h.name h.layoutMembers

end Heading

namespace FormatSpec

/-- The member objects of a format and of its cases, depth first. -/
def objects (f : FormatSpec) : List (String × MemberObject) := f.labels.flatMap Heading.objects

/-- The member objects of cases. -/
def objectsOfCases (cases : List (Word × FormatSpec)) : List (String × MemberObject) :=
  (Tree.labelsOfCases cases).flatMap Heading.objects

mutual
/-- The members laid out, down to the last case. -/
def layout : FormatSpec → Draft
  | .leaf h => h.layout
  | .select h field cases => h.layout.select field (layouts cases)
/-- The members of the cases laid out. -/
def layouts : List (Word × FormatSpec) → List (Word × Draft)
  | [] => []
  | (key, f) :: rest => (key, f.layout) :: layouts rest
end

theorem layouts_eq_map (cases : List (Word × FormatSpec)) :
    layouts cases = cases.map fun c => (c.1, c.2.layout) := by
  induction cases with
  | nil => rfl
  | cons c rest ih => rw [layouts, ih, List.map_cons]

theorem objects_leaf (h : Heading) : objects (.leaf h) = h.objects := by
  rw [objects, Tree.labels, List.flatMap_singleton]

theorem objects_select (h : Heading) (field : String) (cases : List (Word × FormatSpec)) :
    objects (.select h field cases) = h.objects ++ objectsOfCases cases := by
  rw [objects, Tree.labels, List.flatMap_cons, objectsOfCases]

theorem objectsOfCases_cons (key : Word) (f : FormatSpec) (rest : List (Word × FormatSpec)) :
    objectsOfCases ((key, f) :: rest) = f.objects ++ objectsOfCases rest := by
  rw [objectsOfCases, Tree.labelsOfCases, List.flatMap_append, objects, objectsOfCases]

end FormatSpec

/-! ### Drawing up -/

/-- The value, or the error instead if there is one. -/
def unlessError {α : Type} (e : Option TableError) (x : α) : Except TableError α :=
  match e with
  | some e => .error e
  | none => .ok x

section UnlessError

variable {α : Type} {e : Option TableError} {x : α}

theorem unlessError_eq_ok_iff {y : α} : unlessError e x = .ok y ↔ e = none ∧ x = y := by
  cases e <;> simp [unlessError]

end UnlessError

theorem Heading.addMembers_eq_unlessError (name : String) (d : Draft) (objects : List MemberObject) :
    addMembers name d objects = unlessError (objects.findSome? fun o => keysError? (name, o))
      ((objects.filterMap MemberObject.member?).foldl Draft.member d) := by
  induction objects generalizing d with
  | nil => rfl
  | cons o rest ih =>
    match o with
    | [] => rfl
    | [(member, spec)] => exact ih (d.member (spec.member member))
    | _ :: _ :: _ => rfl

theorem Heading.draft_eq (h : Heading) :
    h.draft = unlessError (h.objects.findSome? keysError?) h.layout := by
  rw [objects, List.findSome?_map]
  exact addMembers_eq_unlessError h.name (.new h.name) h.members

mutual
/-- **A format is drawn up unless one of its objects has not one key**: the first is reported, whatever
mistakes there are in the layout before it. -/
theorem FormatSpec.draft_eq : ∀ f : FormatSpec,
    f.draft = unlessError (f.objects.findSome? keysError?) f.layout
  | .leaf h => by rw [draft, objects_leaf, layout, h.draft_eq]
  | .select h field cases => by
    rw [draft, objects_select, layout, List.findSome?_append, h.draft_eq, FormatSpec.draftCases_eq cases]
    cases h.objects.findSome? keysError? with
    | some e => rfl
    | none => cases (objectsOfCases cases).findSome? keysError? <;> rfl
theorem FormatSpec.draftCases_eq : ∀ cases : List (Word × FormatSpec),
    draftCases cases = unlessError ((objectsOfCases cases).findSome? keysError?) (layouts cases)
  | [] => rfl
  | (key, f) :: rest => by
    rw [draftCases, objectsOfCases_cons, layouts, List.findSome?_append, FormatSpec.draft_eq f,
      FormatSpec.draftCases_eq rest]
    cases f.objects.findSome? keysError? with
    | some e => rfl
    | none => cases (objectsOfCases rest).findSome? keysError? <;> rfl
end

section Definitions

variable {f : FormatSpec} {d : Definition} {e : TableError}

theorem FormatSpec.definition_eq_ok_iff : f.definition = .ok d ↔
    f.objects.findSome? keysError? = none ∧ f.layout.build = .ok d := by
  rw [definition, draft_eq, bind_eq_ok_iff]
  simp only [unlessError_eq_ok_iff, and_assoc, exists_and_left, exists_eq_left']
  cases f.layout.build <;> simp

end Definitions

end Table

end ShaderWord
