import Mathlib.Data.List.Induction
import ShaderWord.Proofs.Placing

/-!
# Layouts are packed as declared

* `Draft.Step.IsMistake upper step` — what is wrong with a step if the bits below `upper` are left, and
  `Draft.Step.Fails` the defect that it is reported as;
* `Draft.IsClean steps` — no step is a mistake below the members before it.

Clean steps draw up a packed layout (`Draft.exists_of_isClean`). A step that is a mistake leaves its defect
(`Draft.step_of_fails`), which stays; so the defect of a layout is that of the first mistake
(`Draft.build_eq_error_iff`).
-/

namespace ShaderWord

namespace Draft

/-! ### Steps -/

/-- The member of a step that adds one. -/
def Step.member? : Step → Option Member
  | .member m => some m
  | .select .. => none

/-- The members that the steps add, in order. -/
def members (steps : List Step) : List Member := steps.filterMap Step.member?

namespace Step

/-- The step is a mistake if the bits below `upper` are left. -/
inductive IsMistake (upper : Nat) : Step → Prop
  | size {m : Member} (h : m.IsMissized) : IsMistake upper (.member m)
  | room {m : Member} (h : ¬ m.Fits upper) : IsMistake upper (.member m)
  | pattern {m : Member} {pattern : String} (hpattern : m.pattern = some pattern)
      (h : ¬ IsBinary m.width.toNat pattern) : IsMistake upper (.member m)
  | case {field : String} {cases : List (Word × Draft)} {c : Word × Draft} {e : Defect} (hc : c ∈ cases)
      (h : c.2.build = .error e) : IsMistake upper (.select field cases)

/-- The defect that the mistake is reported as: of several that a member makes the first, its place before its
pattern, and of several cases with one that of the first. -/
inductive Fails (format : String) (upper : Nat) : Step → Defect → Prop
  | place {m : Member} {e : Defect} (h : m.Misfits format upper e) : Fails format upper (.member m) e
  | pattern {m : Member} {pattern : String} (hsize : ¬ m.IsMissized) (hroom : m.Fits upper)
      (hpattern : m.pattern = some pattern) (h : ¬ IsBinary m.width.toNat pattern) :
      Fails format upper (.member m) (.badPattern format m.name pattern)
  | case {field : String} {before after : List (Word × Draft)} {c : Word × Draft} {e : Defect}
      (hbefore : ∀ b ∈ before, ∃ d, b.2.build = .ok d) (h : c.2.build = .error e) :
      Fails format upper (.select field (before ++ c :: after)) e

end Step

/-- No step is a mistake below the members before it. -/
def IsClean (steps : List Step) : Prop :=
  ∀ before step after, steps = before ++ step :: after → ¬ step.IsMistake (lowerEnd (members before))

theorem members_append (steps steps' : List Step) :
    members (steps ++ steps') = members steps ++ members steps' :=
  List.filterMap_append

theorem isClean_append_singleton {steps : List Step} {step : Step} : IsClean (steps ++ [step]) ↔
    IsClean steps ∧ ¬ step.IsMistake (lowerEnd (members steps)) := by
  constructor
  · intro h
    refine ⟨fun before st after heq => h before st (after ++ [step]) ?_, h steps step [] rfl⟩
    rw [heq, List.append_assoc, List.cons_append]
  · rintro ⟨hsteps, hstep⟩ before st after heq
    rcases List.eq_nil_or_concat after with rfl | ⟨after, last, rfl⟩
    · obtain ⟨rfl, hlast⟩ := List.append_inj' heq rfl
      obtain rfl := List.singleton_inj.1 hlast
      exact hstep
    · rw [List.concat_eq_append, ← List.cons_append, ← List.append_assoc] at heq
      exact hsteps before st after (List.append_inj' heq rfl).1

theorem exists_first_mistake {steps : List Step} (h : ¬ IsClean steps) : ∃ before step after,
    steps = before ++ step :: after ∧ IsClean before ∧ step.IsMistake (lowerEnd (members before)) := by
  induction steps using List.reverseRecOn with
  | nil => exact absurd (fun before step after heq => by simp at heq) h
  | append_singleton steps last ih =>
    by_cases hsteps : IsClean steps
    · refine ⟨steps, last, [], rfl, hsteps, ?_⟩
      by_contra hlast
      exact h (isClean_append_singleton.2 ⟨hsteps, hlast⟩)
    · obtain ⟨before, step, after, rfl, hbefore, hstep⟩ := ih hsteps
      exact ⟨before, step, after ++ [last], by simp, hbefore, hstep⟩

/-! ### Cases -/

section Cases

variable {cases : List (Word × Draft)} {e : Defect}

theorem exists_buildCase_iff {c : Word × Draft} :
    (∃ child, buildCase c = .ok child) ↔ ∃ d, c.2.build = .ok d := by
  simp only [buildCase, bind_eq_ok_iff]
  constructor
  · rintro ⟨_, d, hd, -⟩
    exact ⟨d, hd⟩
  · rintro ⟨d, hd⟩
    exact ⟨_, d, hd, rfl⟩

theorem buildCase_eq_error_iff {c : Word × Draft} : buildCase c = .error e ↔ c.2.build = .error e := by
  rw [buildCase, bind_eq_error_iff]
  refine or_iff_left ?_
  rintro ⟨d, -, h⟩
  cases h

theorem exists_buildCases_iff :
    (∃ children, buildCases cases = .ok children) ↔ ∀ c ∈ cases, ∃ d, c.2.build = .ok d := by
  simp only [buildCases_eq_mapM, exists_mapM_iff, exists_buildCase_iff]

theorem buildCases_eq_error_iff : buildCases cases = .error e ↔
    ∃ before c after, cases = before ++ c :: after ∧ (∀ b ∈ before, ∃ d, b.2.build = .ok d) ∧
      c.2.build = .error e := by
  simp only [buildCases_eq_mapM, mapM_eq_error_iff, exists_buildCase_iff, buildCase_eq_error_iff]

end Cases

theorem Step.IsMistake.exists_fails {upper : Nat} {step : Step} (format : String)
    (h : step.IsMistake upper) : ∃ e, step.Fails format upper e := by
  cases h with
  | size h => exact (Member.exists_misfits format (.inl h)).imp fun _ => .place
  | room h => exact (Member.exists_misfits format (.inr h)).imp fun _ => .place
  | @pattern m pattern hpattern h =>
    by_cases hplace : m.IsMissized ∨ ¬ m.Fits upper
    · exact (Member.exists_misfits format hplace).imp fun _ => .place
    · obtain ⟨hsize, hroom⟩ := not_or.1 hplace
      exact ⟨_, .pattern hsize (not_not.1 hroom) hpattern h⟩
  | @case field cases c e hc h =>
    cases hcases : buildCases cases with
    | ok children =>
      obtain ⟨d, hd⟩ := exists_buildCases_iff.1 ⟨children, hcases⟩ c hc
      rw [h] at hd
      cases hd
    | error e' =>
      obtain ⟨before, c', after, rfl, hbefore, herror⟩ := buildCases_eq_error_iff.1 hcases
      exact ⟨e', .case hbefore herror⟩

/-! ### Runs -/

section Steps

variable {name : String} {p : Progress} {ms : List Member} {step : Step} {steps before after : List Step}
  {e : Defect}

theorem step_member (name : String) (p : Progress) (m : Member) :
    Draft.step ⟨name, .ok p⟩ (.member m) = ⟨name, p.add name m⟩ := rfl

theorem step_select (name : String) (p : Progress) (field : String) (cases : List (Word × Draft)) :
    Draft.step ⟨name, .ok p⟩ (.select field cases) = ⟨name, (buildCases cases).map fun children =>
      { p with selection := some (field, children) }⟩ := rfl

/-- **A mistake leaves its defect.** -/
theorem step_of_fails (hp : p.Packs ms) (hshort : ∀ m ∈ members [step], m.IsShort)
    (h : step.Fails name (lowerEnd ms) e) : Draft.step ⟨name, .ok p⟩ step = ⟨name, .error e⟩ := by
  cases h with
  | place h => rw [step_member, hp.add_of_misfits h]
  | @pattern m pattern hsize hroom hpattern h =>
    have hm : m.IsShort := hshort m (by simp [members, Step.member?])
    rw [step_member, hp.add_of_not_isBinary hm hsize hroom hpattern h]
  | @case field before after c e hbefore h =>
    have hcases := buildCases_eq_error_iff.2 ⟨before, c, after, rfl, hbefore, h⟩
    rw [step_select, hcases]
    rfl

theorem foldl_step_error (name : String) (e : Defect) (steps : List Step) :
    steps.foldl Draft.step ⟨name, .error e⟩ = ⟨name, .error e⟩ := by
  induction steps with
  | nil => rfl
  | cons step steps ih => cases step <;> exact ih

/-- **Clean steps draw up a packed layout.** -/
theorem exists_of_isClean (name : String) (h : IsClean steps) :
    ∃ p, ofSteps name steps = ⟨name, .ok p⟩ ∧ p.Packs (members steps) := by
  induction steps using List.reverseRecOn with
  | nil => exact ⟨.start, rfl, .start⟩
  | append_singleton steps step ih =>
    obtain ⟨hsteps, hstep⟩ := isClean_append_singleton.1 h
    obtain ⟨p, hp, hpacks⟩ := ih hsteps
    rw [ofSteps, List.foldl_append, ← ofSteps, hp, List.foldl_cons, List.foldl_nil, members_append]
    cases step with
    | member m =>
      obtain ⟨q, hadd, hq⟩ := hpacks.add name (fun h => hstep (.size h))
        (not_not.1 fun h => hstep (.room h)) fun pattern hpattern =>
          not_not.1 fun h => hstep (.pattern hpattern h)
      exact ⟨q, by rw [step_member, hadd], hq⟩
    | select field cases =>
      have hbuilt : ∀ c ∈ cases, ∃ d, c.2.build = .ok d := by
        intro c hc
        cases hbuild : c.2.build with
        | ok d => exact ⟨d, rfl⟩
        | error e => exact absurd (.case hc hbuild) hstep
      obtain ⟨children, hchildren⟩ := exists_buildCases_iff.2 hbuilt
      refine ⟨{ p with selection := some (field, children) }, ?_, ?_⟩
      · rw [step_select, hchildren]
        rfl
      · have hnone : members [.select field cases] = [] := rfl
        rw [hnone, List.append_nil]
        exact hpacks.select _

theorem build_of_isClean (name : String) (h : IsClean steps) :
    ∃ d, (ofSteps name steps).build = .ok d ∧ d.label.IsPacked (members steps) := by
  obtain ⟨p, hp, hpacks⟩ := exists_of_isClean name h
  refine ⟨p.toDefinition name, ?_, hpacks.isPacked_toDefinition name⟩
  rw [hp]
  rfl

theorem build_of_fails (hshort : ∀ m ∈ members (before ++ step :: after), m.IsShort)
    (hbefore : IsClean before) (h : step.Fails name (lowerEnd (members before)) e) :
    (ofSteps name (before ++ step :: after)).build = .error e := by
  obtain ⟨p, hp, hpacks⟩ := exists_of_isClean name hbefore
  have hstep := step_of_fails hpacks (fun m hm => hshort m ?_) h
  · rw [ofSteps, List.foldl_append, ← ofSteps, hp, List.foldl_cons, hstep, foldl_step_error]
    rfl
  · rw [members_append, ← List.singleton_append, members_append]
    exact List.mem_append_right _ (List.mem_append_left _ hm)

/-- Steps that are not clean leave the defect of the first mistake. -/
theorem exists_build_eq_error (name : String) (hshort : ∀ m ∈ members steps, m.IsShort)
    (h : ¬ IsClean steps) : ∃ before step after e, steps = before ++ step :: after ∧ IsClean before ∧
      step.IsMistake (lowerEnd (members before)) ∧ step.Fails name (lowerEnd (members before)) e ∧
      (ofSteps name steps).build = .error e := by
  obtain ⟨before, step, after, rfl, hbefore, hstep⟩ := exists_first_mistake h
  obtain ⟨e, hfails⟩ := hstep.exists_fails name
  exact ⟨before, step, after, e, rfl, hbefore, hstep, hfails, build_of_fails hshort hbefore hfails⟩

/-- **A layout is drawn up if and only if no step is a mistake.** -/
theorem exists_build_iff (name : String) (hshort : ∀ m ∈ members steps, m.IsShort) :
    (∃ d, (ofSteps name steps).build = .ok d) ↔ IsClean steps := by
  constructor
  · rintro ⟨d, hd⟩
    by_contra hclean
    obtain ⟨_, _, _, e, -, -, -, -, herror⟩ := exists_build_eq_error name hshort hclean
    rw [herror] at hd
    cases hd
  · intro h
    exact (build_of_isClean name h).imp fun d hd => hd.1

/-- **The defect of a layout is that of the first mistake.** -/
theorem build_eq_error_iff (hshort : ∀ m ∈ members steps, m.IsShort) :
    (ofSteps name steps).build = .error e ↔ ∃ before step after, steps = before ++ step :: after ∧
      IsClean before ∧ step.IsMistake (lowerEnd (members before)) ∧
      step.Fails name (lowerEnd (members before)) e := by
  constructor
  · intro h
    have hclean : ¬ IsClean steps := by
      intro hclean
      obtain ⟨d, hd⟩ := (exists_build_iff name hshort).2 hclean
      rw [h] at hd
      cases hd
    obtain ⟨before, step, after, e', heq, hbefore, hstep, hfails, herror⟩ :=
      exists_build_eq_error name hshort hclean
    obtain rfl := Except.error.inj (h.symm.trans herror)
    exact ⟨before, step, after, heq, hbefore, hstep, hfails⟩
  · rintro ⟨before, step, after, rfl, hbefore, -, hfails⟩
    exact build_of_fails hshort hbefore hfails

end Steps

/-- **A layout is packed as declared.** It is drawn up if and only if no step is a mistake, and else has the
defect of the first, whatever steps follow. What is drawn up has a field for each member in order, which lies
below the one before and is valid; the bits of the members with patterns are fixed, and those words are
accepted in which their fields have these patterns. -/
theorem packing_exact (name : String) {steps : List Step} (hshort : ∀ m ∈ members steps, m.IsShort) :
    ((∃ d, (ofSteps name steps).build = .ok d) ↔ IsClean steps) ∧
    (∀ e, (ofSteps name steps).build = .error e ↔ ∃ before step after, steps = before ++ step :: after ∧
      IsClean before ∧ step.IsMistake (lowerEnd (members before)) ∧
      step.Fails name (lowerEnd (members before)) e) ∧
    ∀ d, (ofSteps name steps).build = .ok d → d.label.IsPacked (members steps) := by
  refine ⟨exists_build_iff name hshort, fun e => build_eq_error_iff hshort, fun d hd => ?_⟩
  obtain ⟨d', hd', hpacked⟩ := build_of_isClean name ((exists_build_iff name hshort).1 ⟨d, hd⟩)
  obtain rfl : d' = d := Except.ok.inj (hd'.symm.trans hd)
  exact hpacked

/-- Members with and without a pattern or a place of their own, and a selection in between. -/
def packedSteps : List Step :=
  [.member (.fixed "op" "101"), .member (.field "kind" 2), .select "kind" [(2, .new "b"), (1, .new "a")],
    .member (.atBit 4 (.signed "x" 8)), .member (.fixed "end" "0110")]

/-- The steps draw up a layout of 64 bits, in which bits 12 to 58 are left open. A step more that goes far
beyond the word is a mistake, and the one after it does not show. -/
theorem packing_exact_packedSteps :
    let mistake : Step := .member (.atBit 4294967295 (.field "y" 1))
    (∀ m ∈ members packedSteps, m.IsShort) ∧ IsClean packedSteps ∧
    (∃ d, (ofSteps "t" packedSteps).build = .ok d ∧ d.label.IsPacked (members packedSteps) ∧
      d.label.fields = [⟨"op", ⟨61, 3, false⟩⟩, ⟨"kind", ⟨59, 2, false⟩⟩, ⟨"x", ⟨4, 8, true⟩⟩,
        ⟨"end", ⟨0, 4, false⟩⟩]) ∧
    (ofSteps "t" (packedSteps ++ [mistake, .member (.field "z" 0)])).build =
      .error (.invalidField "t" "y" 4294967295 1) := by
  intro mistake
  have hshort : ∀ m ∈ members packedSteps, m.IsShort := by decide
  have hall : ∀ m ∈ members (packedSteps ++ [mistake, .member (.field "z" 0)]), m.IsShort := by decide
  obtain ⟨d, hd⟩ : ∃ d, (ofSteps "t" packedSteps).build = .ok d := ⟨_, rfl⟩
  have hpacked := (packing_exact "t" hshort).2.2 d hd
  have hclean := (packing_exact "t" hshort).1.1 ⟨d, hd⟩
  refine ⟨hshort, hclean, ⟨d, hd, hpacked, ?_⟩, ?_⟩
  · obtain rfl := Except.ok.inj hd
    rfl
  · have hroom : ¬ (Member.atBit 4294967295 (.field "y" 1)).Fits (lowerEnd (members packedSteps)) := by
      unfold Member.Fits
      decide
    have hsize : ¬ (Member.atBit 4294967295 (.field "y" 1)).IsMissized :=
      Member.not_isMissized_iff.2 (by decide)
    exact ((packing_exact "t" hall).2.1 _).2
      ⟨packedSteps, mistake, _, rfl, hclean, .room hroom, .place (.beyond hsize rfl (by decide))⟩

end Draft

end ShaderWord
