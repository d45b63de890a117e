import ShaderWord.Proofs.CheckedDrafts
import ShaderWord.Proofs.Refinement

/-!
# Building registries with checks

* `Checked.build ds` — a registry, built by operations that check themselves;
* `Checked.AllValid s` — the fields that are settled are valid.

A field is checked when it is declared, and a key is placed by it levels further down, where all that is known of
it is that it is settled. So the fields that are settled stay valid on the way down, and that is enough for the
key of a case to be placed without a loss (`Checked.choose_eq`): whatever the definitions are, the run has no
fault and answers what `Registry.build` does (`Checked.build_eq`).
-/

namespace ShaderWord.Checked

open CheckedBuild

/-! ### Fields -/

/-- The defect of a field beside an earlier one. -/
def conflict? (owner : String) (f earlier : Field) : Checked (Option Defect) := do
  if earlier.name = f.name then return some (.duplicateField owner f.name)
  else if ← overlaps earlier.slice f.slice then
    return some (.overlappingFields owner earlier.name f.name)
  else return none

/-- The first defect of a field beside earlier ones. -/
def firstConflict? (owner : String) (f : Field) (earlier : List Field) : Checked (Option Defect) :=
  earlier.findSomeM? (conflict? owner f)

/-- Some bits of the slice are fixed, but not all. -/
def isPartlyFixed (s : Settled) (slice : Slice) : Checked Bool := do
  let fixed := (← mask slice) &&& s.mask
  return fixed != 0 && fixed != (← mask slice)

/-- Adds a field of the definition `owner`. -/
def declare (owner : String) (s : Settled) (f : Field) : CheckedBuild Settled := do
  if ← isValid f.slice then
    match ← firstConflict? owner f s.fields with
    | some defect => throw defect
    | none =>
      if ← isPartlyFixed s f.slice then throw (.aliasedField owner f.name)
      else return { s with fields := s.fields ++ [f] }
  else throw (.invalidField owner f.name f.slice.offset.toUInt32 f.slice.width.toUInt32)

def declareAll (owner : String) (s : Settled) : List Field → CheckedBuild Settled
  | [] => return s
  | f :: rest => do
    let s ← declare owner s f
    declareAll owner s rest

/-! ### Definitions -/

/-- Takes in one more definition of the format. -/
def enter (format : String) (s : Settled) (shape : Shape) : CheckedBuild Settled := do
  answer shape.requirePredicate
  if s.agrees shape then
    declareAll shape.name
      { s with
        names := s.names ++ [shape.name]
        mask := s.mask ||| shape.mask
        value := s.value ||| shape.value }
      shape.fields
  else throw (.unreachableVariant format shape.name)

/-- The key has no more bits than the selector. -/
def fits (key : Word) (width : UInt8) : Checked Bool :=
  if width.toNat < 64 then do return (← shiftRight key width.toNat) = 0 else return true

/-- Takes the case that the value `key` of the selector chooses; the key fixes its bits. -/
def choose (owner : String) (s : Settled) (selector : Field) (key : Word) : CheckedBuild Settled := do
  if ← fits key selector.slice.width then
    let fixed ← mask selector.slice
    let placed ← place key selector.slice.offset.toNat
    return { s with
      mask := s.mask ||| fixed
      value := s.value ||| placed
      path := s.path ++ [⟨selector.name, key⟩] }
  else throw (.discriminantKeyOutOfRange owner selector.name key)

mutual
/-- Resolves a definition of the format, given what is settled above it. -/
def resolve (format : String) (s : Settled) : Definition → CheckedBuild Plan
  | .leaf shape => do
    let s ← enter format s shape
    return .terminal shape (s.layout format)
  | .select shape field cases => do
    let s ← enter format s shape
    let selector ← answer (s.selector shape.name field)
    return .branch shape selector (← resolveCases format shape.name s selector cases)
/-- Resolves the cases that the selector tells apart. -/
def resolveCases (format owner : String) (s : Settled) (selector : Field) :
    List (Word × Definition) → CheckedBuild (List (Word × Plan))
  | [] => return []
  | (key, child) :: rest => do
    let plan ← resolve format (← choose owner s selector key) child
    return (key, plan) :: (← resolveCases format owner s selector rest)
end

/-- Resolves top-level formats, in order. -/
def resolveAll : List Definition → CheckedBuild (List Plan)
  | [] => return []
  | d :: rest => do
    let plan ← resolve d.label.name .empty d
    return plan :: (← resolveAll rest)

/-- The registry of the definitions, or their first defect. -/
def build (definitions : List Definition) : CheckedBuild Registry := do
  answer (Admission.vet definitions)
  return Registry.ofPlans definitions (← resolveAll definitions)

/-! ### Fields without a fault -/

section NoFault

variable {owner format : String} {s s' : Settled} {f : Field}

theorem conflict?_eq (owner : String) (f g : Field) :
    conflict? owner f g = .ok (Settled.conflict? owner f g) := by
  unfold conflict? Settled.conflict?
  rw [overlaps_eq, ok_bind]
  split_ifs <;> rfl

theorem firstConflict?_eq (owner : String) (f : Field) (earlier : List Field) :
    firstConflict? owner f earlier = .ok (earlier.findSome? (Settled.conflict? owner f)) := by
  unfold firstConflict?
  induction earlier with
  | nil => rfl
  | cons g earlier ih =>
    rw [List.findSomeM?_cons, conflict?_eq, ok_bind, List.findSome?_cons]
    cases Settled.conflict? owner f g with
    | none => exact ih
    | some e => rfl

theorem isPartlyFixed_eq (s : Settled) (slice : Slice) :
    isPartlyFixed s slice = .ok (s.isPartlyFixed slice) := by
  rw [isPartlyFixed, mask_eq]
  rfl

theorem declare_eq (owner : String) (s : Settled) (f : Field) :
    declare owner s f = answer (s.declare owner f) := by
  unfold declare Settled.declare
  rw [isValid_eq, lift_bind, firstConflict?_eq, lift_bind]
  by_cases hvalid : f.slice.IsValid
  · rw [if_pos (decide_eq_true hvalid), if_neg (not_not_intro hvalid)]
    cases s.fields.findSome? (Settled.conflict? owner f) with
    | some e => rfl
    | none =>
      dsimp only
      rw [isPartlyFixed_eq, lift_bind]
      split_ifs <;> rfl
  · rw [if_neg (by simpa using hvalid), if_pos hvalid, throw_eq]

theorem declareAll_eq (owner : String) (s : Settled) (fs : List Field) :
    declareAll owner s fs = answer (s.declareAll owner fs) := by
  induction fs generalizing s with
  | nil => rfl
  | cons f fs ih =>
    rw [declareAll, declare_eq, Settled.declareAll]
    exact answer_bind fun s' _ => ih s'

/-! ### Definitions without a fault -/

theorem enter_eq (format : String) (s : Settled) (shape : Shape) :
    enter format s shape = answer (s.enter format shape) := by
  unfold enter Settled.enter
  refine answer_bind fun _ _ => ?_
  split_ifs
  · exact declareAll_eq ..
  · rfl

theorem fits_eq (key : Word) (width : UInt8) :
    fits key width = .ok (decide (key >>> width.toNat = 0)) := by
  unfold fits
  split_ifs with h
  · rw [shiftRight_eq_ok h]
    rfl
  · have hzero : key >>> width.toNat = 0 := BitVec.ushiftRight_eq_zero (by omega)
    rw [decide_eq_true hzero]
    rfl

/-- **A key that has no more bits than a valid selector is placed without a loss.** -/
theorem choose_eq (hf : f.slice.IsValid) (owner : String) (s : Settled) (key : Word) :
    choose owner s f key = answer (s.choose owner f key) := by
  obtain ⟨hpos, hroom⟩ := hf
  unfold choose Settled.choose
  rw [fits_eq, lift_bind]
  by_cases hkey : key >>> f.slice.width.toNat = 0
  · rw [if_pos (decide_eq_true hkey), if_pos hkey, mask_eq, lift_bind,
      place_eq_ok hkey hroom (by omega), lift_bind, pure_eq]
  · rw [if_neg (by simpa using hkey), if_neg hkey, throw_eq]

/-- The fields that are settled are valid. -/
def AllValid (s : Settled) : Prop := ∀ f ∈ s.fields, f.slice.IsValid

theorem allValid_enter {shape : Shape} (h : AllValid s) (hs : s.enter format shape = .ok s') :
    AllValid s' := by
  obtain ⟨ht, rfl⟩ := Settled.enter_eq_ok_iff.1 hs
  exact List.forall_mem_append.2 ⟨h, ht.valid⟩

theorem allValid_choose {key : Word} (h : AllValid s) (hs : s.choose owner f key = .ok s') :
    AllValid s' := by
  obtain ⟨-, rfl⟩ := Settled.choose_eq_ok_iff.1 hs
  exact h

theorem resolveCases_eq {cases : List (Word × Definition)} (h : AllValid s) (hf : f.slice.IsValid)
    (ih : ∀ c ∈ cases, ∀ s, AllValid s → resolve format s c.2 = answer (Plan.resolve format s c.2)) :
    resolveCases format owner s f cases = answer (Plan.resolveCases format owner s f cases) := by
  induction cases with
  | nil => rfl
  | cons c rest hrest =>
    obtain ⟨hc, ih⟩ := List.forall_mem_cons.1 ih
    rw [resolveCases, choose_eq hf, Plan.resolveCases]
    refine answer_bind fun s' hs' => ?_
    rw [hc s' (allValid_choose h hs')]
    refine answer_bind fun plan _ => ?_
    rw [hrest ih]
    exact answer_bind fun plans _ => rfl

/-- **A definition is resolved without a fault** below fields that are valid. -/
theorem resolve_eq (h : AllValid s) (d : Definition) :
    resolve format s d = answer (Plan.resolve format s d) := by
  induction d using Tree.induct generalizing s with
  | leaf shape =>
    rw [resolve, enter_eq, Plan.resolve]
    exact answer_bind fun s' _ => rfl
  | select shape field cases ih =>
    rw [resolve, enter_eq, Plan.resolve]
    refine answer_bind fun s' hs' => answer_bind fun f hf => ?_
    have hs' := allValid_enter h hs'
    have hvalid : f.slice.IsValid := hs' f (List.mem_of_find?_eq_some (Settled.selector_eq_ok_iff.1 hf).1)
    rw [resolveCases_eq hs' hvalid fun c hc s hs => ih c hc hs]
    exact answer_bind fun plans _ => rfl

theorem resolveAll_eq (ds : List Definition) : resolveAll ds = answer (Plan.ofDefinitions ds) := by
  induction ds with
  | nil => rfl
  | cons d ds ih =>
    have hempty : AllValid .empty := fun f hf => (nomatch hf)
    rw [resolveAll, resolve_eq hempty, Plan.ofDefinitions]
    refine answer_bind fun plan _ => ?_
    rw [ih]
    exact answer_bind fun plans _ => rfl

/-- **A registry is built without a fault**, whatever the definitions are. -/
theorem build_eq (ds : List Definition) : build ds = answer (Registry.build ds) := by
  unfold build Registry.build
  refine answer_bind fun _ _ => ?_
  rw [resolveAll_eq]
  exact answer_bind fun plans _ => rfl

end NoFault

end ShaderWord.Checked
