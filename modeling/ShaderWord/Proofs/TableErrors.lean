import ShaderWord.Proofs.TableKeys

/-!
# Which error of a table is reported

* `Table.FormatSpec.placements f` — the members of `f`, each with those above it in its layout, depth first;
* `Table.Placement.defect? p` — what is wrong with the member where nothing is with those above it;
* `Table.FormatSpec.HasError f e` — `e` is the error of `f`: of the first object that has not one key, or else
  of the first member that has a defect.

Objects are looked at while a format is drawn up, and members only when its layout is built, through the
layouts of the cases (`Table.FormatSpec.mistake?_layout`). What is reported of a table is the error of the first
format that has one (`Table.parse_exact`).
-/

namespace ShaderWord

/-! ### Mistakes of layouts -/

/-- The error of a computation that fails. -/
def failure? {ε α : Type} : Except ε α → Option ε
  | .ok _ => none
  | .error e => some e

namespace Draft

/-- The mistake for which the layout is not built. -/
def mistake? (d : Draft) : Option Defect := failure? d.build

variable {d : Draft} {format : String} {ms : List Member} {e : Defect} {definition : Definition}

theorem mistake?_eq_some_iff : d.mistake? = some e ↔ d.state = .error e := by
  unfold mistake? build
  cases d.state <;> simp [failure?, Except.map]

theorem mistake?_select (d : Draft) (field : String) (cases : List (Word × Draft)) :
    (d.select field cases).mistake? = d.mistake?.or (failure? (buildCases cases)) := by
  unfold mistake? build select
  cases d.state with
  | error e => rfl
  | ok p => cases buildCases cases <;> rfl

theorem failure?_buildCases_cons (key : Word) (d : Draft) (rest : List (Word × Draft)) :
    failure? (buildCases ((key, d) :: rest)) = d.mistake?.or (failure? (buildCases rest)) := by
  rw [buildCases, mistake?]
  cases d.build with
  | error e => rfl
  | ok child => cases buildCases rest <;> rfl

theorem build_select_eq_ok_iff {field : String} {cases : List (Word × Draft)} :
    (d.select field cases).build = .ok definition ↔ ∃ p children, d.state = .ok p ∧
      buildCases cases = .ok children ∧
        .select ⟨d.name, p.mask, p.value, p.fields⟩ field children = definition := by
  unfold build select
  cases d.state with
  | error e => simp [Except.bind, Except.map]
  | ok p => cases buildCases cases <;> simp [Except.bind, Except.map, Progress.toDefinition]

/-! ### Layouts of members -/

theorem foldl_member_error (name : String) (e : Defect) (ms : List Member) :
    ms.foldl member ⟨name, .error e⟩ = ⟨name, .error e⟩ := by
  induction ms with
  | nil => rfl
  | cons m ms ih => exact ih

theorem name_ofMembers (name : String) (ms : List Member) : (ofMembers name ms).name = name := by
  have hfold : ∀ d : Draft, (ms.foldl member d).name = d.name := by
    induction ms with
    | nil => exact fun _ => rfl
    | cons m ms ih => exact fun d => ih (d.member m)
  exact hfold (.new name)

/-- A mistake stays, whatever members follow. -/
theorem mistake?_ofMembers_append (h : (ofMembers format ms).mistake? = some e) (ms' : List Member) :
    (ofMembers format (ms ++ ms')).mistake? = some e := by
  have hstate : ofMembers format ms = ⟨format, .error e⟩ :=
    calc ofMembers format ms = ⟨(ofMembers format ms).name, (ofMembers format ms).state⟩ := rfl
      _ = ⟨format, .error e⟩ := by rw [name_ofMembers, mistake?_eq_some_iff.1 h]
  rw [ofMembers, List.foldl_append, ← ofMembers, hstate, foldl_member_error]
  rfl

theorem selection_of_ofMembers {p : Progress} (h : (ofMembers format ms).state = .ok p) :
    p.selection = none := by
  have hfold : ∀ (ms : List Member) (d : Draft), (∀ q, d.state = .ok q → q.selection = none) →
      ∀ q, (ms.foldl member d).state = .ok q → q.selection = none := by
    intro ms
    induction ms with
    | nil => exact fun _ hd => hd
    | cons m ms ih =>
      intro d hd
      refine ih (d.member m) fun q hq => ?_
      obtain ⟨p, hp, hadd⟩ := bind_eq_ok_iff.1 hq
      rw [Progress.selection_of_add hadd, hd p hp]
  refine hfold ms (.new format) ?_ p h
  rintro _ ⟨⟩
  rfl

theorem build_ofMembers {p : Progress} (h : (ofMembers format ms).state = .ok p) :
    (ofMembers format ms).build = .ok (.leaf ⟨format, p.mask, p.value, p.fields⟩) := by
  rw [build, h, name_ofMembers]
  simp [Except.map, Progress.toDefinition, selection_of_ofMembers h]

end Draft

namespace Table

/-! ### Members in their places -/

/-- A member of a layout, with the members above it. -/
structure Placement where
  format : String
  above : List Member
  member : Member

/-- What is wrong with the member, where nothing is with the members above it: the mistake for which they are
no more built with it. -/
def Placement.defect? (p : Placement) : Option Defect :=
  if (Draft.ofMembers p.format p.above).mistake?.isSome then none
  else (Draft.ofMembers p.format (p.above ++ [p.member])).mistake?

/-- The members, each with those above it, the first being below `above`. -/
def placementsBelow (format : String) (above : List Member) : List Member → List Placement
  | [] => []
  | m :: rest => ⟨format, above, m⟩ :: placementsBelow format (above ++ [m]) rest

/-- The members of a heading in their places. -/
def Heading.placements (h : Heading) : List Placement := placementsBelow h.name [] h.layoutMembers

/-- The mistake of a layout of members is what is wrong with the first that something is wrong with. -/
theorem findSome?_placementsBelow {format : String} {above : List Member}
    (h : (Draft.ofMembers format above).mistake? = none) (ms : List Member) :
    (placementsBelow format above ms).findSome? Placement.defect? =
      (Draft.ofMembers format (above ++ ms)).mistake? := by
  induction ms generalizing above with
  | nil => rw [placementsBelow, List.findSome?_nil, List.append_nil, h]
  | cons m rest ih =>
    have hdefect : Placement.defect? ⟨format, above, m⟩ =
        (Draft.ofMembers format (above ++ [m])).mistake? := by
      rw [Placement.defect?, h]
      rfl
    have happend : above ++ m :: rest = above ++ [m] ++ rest := List.append_cons above m rest
    rw [placementsBelow, List.findSome?_cons, hdefect, happend]
    cases hm : (Draft.ofMembers format (above ++ [m])).mistake? with
    | none => exact ih hm
    | some e => exact (Draft.mistake?_ofMembers_append hm rest).symm

theorem Heading.mistake?_layout (h : Heading) :
    h.layout.mistake? = h.placements.findSome? Placement.defect? := by
  have hempty : (Draft.ofMembers h.name []).mistake? = none := rfl
  exact (findSome?_placementsBelow hempty h.layoutMembers).symm

namespace FormatSpec

/-- The members of a format and of its cases in their places, depth first. -/
def placements (f : FormatSpec) : List Placement := f.labels.flatMap Heading.placements

/-- The members of cases in their places. -/
def placementsOfCases (cases : List (Word × FormatSpec)) : List Placement :=
  (Tree.labelsOfCases cases).flatMap Heading.placements

mutual
/-- **The mistake of a layout is what is wrong with its first member that something is wrong with**, those of
a format before those of its cases. -/
theorem mistake?_layout : ∀ f : FormatSpec,
    f.layout.mistake? = f.placements.findSome? Placement.defect?
  | .leaf h => by rw [placements, Tree.labels, List.flatMap_singleton, layout, h.mistake?_layout]
  | .select h field cases => by
    rw [placements, Tree.labels, List.flatMap_cons, List.findSome?_append, ← h.mistake?_layout,
      ← placementsOfCases, ← mistake?_layouts cases, layout, Draft.mistake?_select]
theorem mistake?_layouts : ∀ cases : List (Word × FormatSpec),
    failure? (Draft.buildCases (layouts cases)) = (placementsOfCases cases).findSome? Placement.defect?
  | [] => rfl
  | (key, f) :: rest => by
    rw [placementsOfCases, Tree.labelsOfCases, List.flatMap_append, List.findSome?_append,
      ← placements, ← placementsOfCases, ← mistake?_layout f, ← mistake?_layouts rest, layouts,
      Draft.failure?_buildCases_cons]
end

end FormatSpec

end Table

/-! ### Definitions of formats -/

/-- The trees have the same discriminants and keys, and their labels are related. -/
inductive Tree.Corresponds {α β : Type} (R : α → β → Prop) : Tree α → Tree β → Prop
  | leaf {a : α} {b : β} (h : R a b) : Corresponds R (.leaf a) (.leaf b)
  | select {a : α} {b : β} (field : String) {cases : List (Word × Tree α)} {cases' : List (Word × Tree β)}
      (h : R a b) (hcases : List.Forall₂ (AtKey (Corresponds R)) cases cases') :
      Corresponds R (.select a field cases) (.select b field cases')

namespace Table

/-- The members of the heading are laid out to the shape. -/
def Heading.Draws (h : Heading) (s : Shape) : Prop := h.layout.build = .ok (.leaf s)

namespace FormatSpec

mutual
/-- **A layout is built to a definition of the same form**, each shape being laid out from its members. -/
theorem corresponds_of_build : ∀ (f : FormatSpec) {d : Definition}, f.layout.build = .ok d →
    f.Corresponds Heading.Draws d
  | .leaf h, d, hbuild => by
    obtain ⟨p, hp, -⟩ := Draft.exists_of_build hbuild
    have hdraws := Draft.build_ofMembers hp
    obtain rfl := Except.ok.inj (hdraws.symm.trans hbuild)
    exact .leaf hdraws
  | .select h field cases, d, hbuild => by
    obtain ⟨p, children, hp, hchildren, rfl⟩ := Draft.build_select_eq_ok_iff.1 hbuild
    have hname : h.layout.name = h.name := Draft.name_ofMembers _ _
    rw [hname]
    exact .select field (Draft.build_ofMembers hp) (corresponds_of_buildCases cases hchildren)
theorem corresponds_of_buildCases : ∀ (cases : List (Word × FormatSpec)) {children : List (Word × Definition)},
    Draft.buildCases (layouts cases) = .ok children →
      List.Forall₂ (Tree.AtKey (Tree.Corresponds Heading.Draws)) cases children
  | [], children, hbuild => by
    obtain rfl := Except.ok.inj hbuild
    exact .nil
  | (key, f) :: rest, children, hbuild => by
    rw [layouts, Draft.buildCases] at hbuild
    obtain ⟨child, hchild, hbuild⟩ := bind_eq_ok_iff.1 hbuild
    obtain ⟨others, hothers, hbuild⟩ := bind_eq_ok_iff.1 hbuild
    obtain rfl := Except.ok.inj hbuild
    exact .cons (.mk key (corresponds_of_build f hchild)) (corresponds_of_buildCases rest hothers)
end

/-! ### Errors of formats -/

/-- The error of a format. An object that has not one key counts before any defect of a member, wherever they
are; of several objects, and of several members, the first counts. -/
inductive HasError (f : FormatSpec) : TableError → Prop
  | keys {before after : List (String × MemberObject)} {name : String} {object : MemberObject}
      (hsplit : f.objects = before ++ (name, object) :: after) (hbefore : ∀ o ∈ before, o.2.keyCount = 1)
      (h : object.keyCount ≠ 1) : HasError f (.memberKeys name object.keyCount)
  | layout {before after : List Placement} {p : Placement} {defect : Defect}
      (hkeys : ∀ o ∈ f.objects, o.2.keyCount = 1) (hsplit : f.placements = before ++ p :: after)
      (hbefore : ∀ q ∈ before, q.defect? = none) (h : p.defect? = some defect) :
      HasError f (.defective defect)

variable {f : FormatSpec} {e : TableError} {d : Definition}

end FormatSpec

/-! ### Errors of tables -/

/-- The error of a table is that of the first format that has one. -/
def Document.HasError (d : Document) (e : TableError) : Prop :=
  ∃ before f after, d.formats = before ++ f :: after ∧ (∀ g ∈ before, ∀ e', ¬ g.HasError e') ∧ f.HasError e

end Table

end ShaderWord
