import Mathlib.Data.List.Forall2
import ShaderWord.Proofs.Admission
import ShaderWord.Registry.Plan

/-!
# What resolution settles

* `Settled.Records s t` — what is settled is what the trail `t` says, the fixed bits being the join of its pins;
* `Chain.IsResolved c` — the rules that a position must keep to, without regard to how it was reached;
* `Plan.exists_ofDefinitions_iff`: definitions can be resolved if and only if every position keeps to them.
-/

namespace ShaderWord

/-! ### Slices that are fixed in part -/

/-- The mask has all bits of the slice or none. -/
def Slice.IsWholeIn (s : Slice) (m : Word) : Prop := s.mask &&& m = 0 ∨ s.mask &&& m = s.mask

namespace Slice

instance (s : Slice) (m : Word) : Decidable (s.IsWholeIn m) := inferInstanceAs (Decidable (_ ∨ _))

variable {s : Slice} {m : Word}

theorem isWholeIn_iff :
    s.IsWholeIn m ↔ (∀ i, s.mask.getLsbD i = true → m.getLsbD i = false) ∨
      ∀ i, s.mask.getLsbD i = true → m.getLsbD i = true := by
  unfold IsWholeIn
  rw [inter_eq_zero_iff, inter_eq_left_iff]

theorem not_isWholeIn_iff :
    ¬ s.IsWholeIn m ↔ (∃ i, s.mask.getLsbD i = true ∧ m.getLsbD i = true) ∧
      ∃ i, s.mask.getLsbD i = true ∧ m.getLsbD i = false := by
  rw [isWholeIn_iff, not_or]
  push Not
  simp only [ne_eq, Bool.not_eq_false, Bool.not_eq_true]

end Slice

/-! ### Fields, one after another -/

namespace Settled

variable {s s' : Settled} {shape : Shape} {f g : Field} {fs : List Field} {owner format : String}
  {e : Defect}

theorem conflict?_eq_none_iff : conflict? owner f g = none ↔ g.IsApart f := by
  unfold conflict? Field.IsApart Slice.overlaps
  split_ifs <;> simp_all

theorem conflict?_eq_some (h : conflict? owner f g = some e) :
    g.name = f.name ∧ e = .duplicateField owner f.name ∨
      g.slice.mask &&& f.slice.mask ≠ 0 ∧ e = .overlappingFields owner g.name f.name := by
  unfold conflict? Slice.overlaps at h
  split_ifs at h with hname hover
  · exact Or.inl ⟨hname, (Option.some.inj h).symm⟩
  · exact Or.inr ⟨by simpa using hover, (Option.some.inj h).symm⟩

theorem isPartlyFixed_eq_false_iff {slice : Slice} :
    s.isPartlyFixed slice = false ↔ slice.IsWholeIn s.mask := by
  unfold isPartlyFixed Slice.IsWholeIn
  simp only [Bool.and_eq_false_iff, bne_eq_false_iff_eq]

theorem declare_eq_ok_iff :
    s.declare owner f = .ok s' ↔
      f.slice.IsValid ∧ (∀ g ∈ s.fields, g.IsApart f) ∧ f.slice.IsWholeIn s.mask ∧
        { s with fields := s.fields ++ [f] } = s' := by
  have hnone : s.fields.findSome? (conflict? owner f) = none ↔ ∀ g ∈ s.fields, g.IsApart f := by
    rw [List.findSome?_eq_none_iff]
    exact forall₂_congr fun _ _ => conflict?_eq_none_iff
  unfold declare
  by_cases hv : f.slice.IsValid
  · rw [if_neg (not_not.2 hv)]
    cases hfind : s.fields.findSome? (conflict? owner f) with
    | some d =>
      have hconflict : ¬ ∀ g ∈ s.fields, g.IsApart f := fun h => by
        rw [hnone.2 h] at hfind
        cases hfind
      simp [hconflict]
    | none =>
      have happ := hnone.1 hfind
      rw [← isPartlyFixed_eq_false_iff]
      cases hpart : s.isPartlyFixed f.slice with
      | true => simp
      | false => simpa [hv] using fun _ => happ
  · simp [hv]

theorem declare_eq_error (h : s.declare owner f = .error e) :
    ¬ f.slice.IsValid ∧
        e = .invalidField owner f.name f.slice.offset.toUInt32 f.slice.width.toUInt32 ∨
      (∃ g ∈ s.fields, g.name = f.name ∧ e = .duplicateField owner f.name) ∨
      (∃ g ∈ s.fields, g.slice.mask &&& f.slice.mask ≠ 0 ∧
        e = .overlappingFields owner g.name f.name) ∨
      (∀ g ∈ s.fields, g.IsApart f) ∧ ¬ f.slice.IsWholeIn s.mask ∧
        e = .aliasedField owner f.name := by
  unfold declare at h
  split at h
  · next hv => exact Or.inl ⟨hv, (Except.error.inj h).symm⟩
  · split at h
    · next d hfind =>
      obtain rfl := Except.error.inj h
      obtain ⟨g, hg, hd⟩ := List.exists_of_findSome?_eq_some hfind
      rcases conflict?_eq_some hd with ⟨hname, rfl⟩ | ⟨hover, rfl⟩
      · exact Or.inr (Or.inl ⟨g, hg, hname, rfl⟩)
      · exact Or.inr (Or.inr (Or.inl ⟨g, hg, hover, rfl⟩))
    · next hfind =>
      have happ : ∀ g ∈ s.fields, g.IsApart f := fun g hg =>
        conflict?_eq_none_iff.1 (List.findSome?_eq_none_iff.1 hfind g hg)
      split at h
      · next hpart =>
        have hwhole : ¬ f.slice.IsWholeIn s.mask := fun hw => by
          rw [isPartlyFixed_eq_false_iff.2 hw] at hpart
          cases hpart
        exact Or.inr (Or.inr (Or.inr ⟨happ, hwhole, (Except.error.inj h).symm⟩))
      · cases h

theorem declareAll_eq_ok_iff :
    s.declareAll owner fs = .ok s' ↔
      (∀ f ∈ fs, f.slice.IsValid ∧ f.slice.IsWholeIn s.mask) ∧
        (∀ g ∈ s.fields, ∀ f ∈ fs, g.IsApart f) ∧ fs.Pairwise Field.IsApart ∧
          { s with fields := s.fields ++ fs } = s' := by
  induction fs generalizing s with
  | nil => simp [declareAll]
  | cons f rest ih =>
    rw [declareAll, bind_eq_ok_iff, List.forall_mem_cons, List.pairwise_cons]
    constructor
    · rintro ⟨_, hf, hrest⟩
      obtain ⟨hv, happ, hwhole, rfl⟩ := declare_eq_ok_iff.1 hf
      obtain ⟨hall, hbefore, hpairs, rfl⟩ := ih.1 hrest
      refine ⟨⟨⟨hv, hwhole⟩, hall⟩, ?_, ⟨?_, hpairs⟩, by simp⟩
      · intro g hg h hh
        rcases List.mem_cons.1 hh with rfl | hh
        · exact happ g hg
        · exact hbefore g (List.mem_append_left _ hg) h hh
      · intro h hh
        exact hbefore f (by simp) h hh
    · rintro ⟨⟨⟨hv, hwhole⟩, hall⟩, hbefore, ⟨hf, hpairs⟩, rfl⟩
      refine ⟨_, declare_eq_ok_iff.2 ⟨hv, fun g hg => hbefore g hg f (by simp), hwhole, rfl⟩,
        ih.2 ⟨hall, ?_, hpairs, by simp⟩⟩
      intro g hg h hh
      rcases List.mem_append.1 hg with hg | hg
      · exact hbefore g hg h (List.mem_cons_of_mem _ hh)
      · obtain rfl := List.mem_singleton.1 hg
        exact hf h hh

theorem declareAll_eq_error (h : s.declareAll owner fs = .error e) :
    ∃ before f after, fs = before ++ f :: after ∧
      { s with fields := s.fields ++ before }.declare owner f = .error e := by
  induction fs generalizing s with
  | nil => cases h
  | cons f rest ih =>
    rw [declareAll, bind_eq_error_iff] at h
    rcases h with h | ⟨_, hf, h⟩
    · exact ⟨[], f, rest, rfl, by simpa using h⟩
    · obtain ⟨-, -, -, rfl⟩ := declare_eq_ok_iff.1 hf
      obtain ⟨before, g, after, rfl, hg⟩ := ih h
      exact ⟨f :: before, g, after, rfl, by simpa using hg⟩

/-! ### Definitions, selectors and choices -/

/-- The fixed bits. -/
def pin (s : Settled) : Pin := ⟨s.mask, s.value⟩

/-- What is settled after a definition. -/
def after (s : Settled) (shape : Shape) : Settled where
  names := s.names ++ [shape.name]
  mask := s.mask ||| shape.mask
  value := s.value ||| shape.value
  fields := s.fields ++ shape.fields
  path := s.path

/-- The definition can follow on what is settled. -/
structure Takes (s : Settled) (shape : Shape) : Prop where
  within : shape.pin.IsWithin
  agrees : s.pin.Agrees shape.pin
  valid : ∀ f ∈ shape.fields, f.slice.IsValid
  whole : ∀ f ∈ shape.fields, f.slice.IsWholeIn (s.mask ||| shape.mask)
  apart_before : ∀ g ∈ s.fields, ∀ f ∈ shape.fields, g.IsApart f
  apart : shape.fields.Pairwise Field.IsApart

theorem agrees_iff : s.agrees shape = true ↔ s.pin.Agrees shape.pin := by
  unfold agrees Pin.Agrees pin Shape.pin
  rw [beq_iff_eq, BitVec.xor_comm, BitVec.and_comm shape.mask]

theorem enter_eq_ok_iff :
    s.enter format shape = .ok s' ↔ s.Takes shape ∧ s.after shape = s' := by
  unfold enter
  rw [bind_unit_eq_ok_iff, Shape.requirePredicate_eq_ok_iff]
  split_ifs with hagrees
  · rw [declareAll_eq_ok_iff]
    rw [agrees_iff] at hagrees
    constructor
    · rintro ⟨hwithin, hfields, hbefore, hpairs, rfl⟩
      exact ⟨⟨hwithin, hagrees, fun f hf => (hfields f hf).1, fun f hf => (hfields f hf).2,
        hbefore, hpairs⟩, rfl⟩
    · rintro ⟨h, rfl⟩
      exact ⟨h.within, fun f hf => ⟨h.valid f hf, h.whole f hf⟩, h.apart_before, h.apart, rfl⟩
  · rw [agrees_iff] at hagrees
    constructor
    · rintro ⟨-, h⟩
      cases h
    · rintro ⟨h, -⟩
      exact absurd h.agrees hagrees

theorem selector_eq_ok_iff {field : String} :
    s.selector owner field = .ok f ↔
      s.fields.find? (·.name = field) = some f ∧ f.slice.signed = false := by
  unfold selector
  cases s.fields.find? (·.name = field) with
  | none => simp
  | some g => cases hs : g.slice.signed <;> simp [hs] <;> grind

theorem selector_eq_error {field : String} (h : s.selector owner field = .error e) :
    s.fields.find? (·.name = field) = none ∧ e = .unknownDiscriminantField owner field ∨
      (∃ f, s.fields.find? (·.name = field) = some f ∧ f.slice.signed = true) ∧
        e = .signedDiscriminant owner field := by
  unfold selector at h
  split at h
  · next hfind => exact Or.inl ⟨hfind, (Except.error.inj h).symm⟩
  · next g hfind =>
    split_ifs at h with hsigned
    exact Or.inr ⟨⟨g, hfind, hsigned⟩, (Except.error.inj h).symm⟩

/-- What is settled after a choice. -/
def chosen (s : Settled) (f : Field) (key : Word) : Settled where
  names := s.names
  mask := s.mask ||| (f.pin key).mask
  value := s.value ||| (f.pin key).value
  fields := s.fields
  path := s.path ++ [⟨f.name, key⟩]

theorem choose_eq_ok_iff {key : Word} :
    s.choose owner f key = .ok s' ↔
      key >>> f.slice.width.toNat = 0 ∧ s.chosen f key = s' := by
  unfold choose
  split_ifs with hfit
  · simp [hfit, chosen, Field.pin]
  · constructor
    · intro h
      cases h
    · rintro ⟨h, -⟩
      exact absurd h hfit

theorem choose_eq_error {key : Word} (h : s.choose owner f key = .error e) :
    ¬ key >>> f.slice.width.toNat = 0 ∧ e = .discriminantKeyOutOfRange owner f.name key := by
  unfold choose at h
  split_ifs at h with hfit
  exact ⟨hfit, (Except.error.inj h).symm⟩

/-! ### What is settled is what the trail says -/

/-- What is settled is what the trail says. -/
structure Records (s : Settled) (t : Trail) : Prop where
  names : s.names = t.shapes.map Shape.name
  fields : s.fields = t.fields
  path : s.path = t.path
  pin : s.pin = Pin.join t.pins
  sound : t.IsSound

namespace Records

variable {t : Trail}

theorem empty : Settled.empty.Records Trail.empty := ⟨rfl, rfl, rfl, rfl, Trail.IsSound.empty⟩

/-- A definition adds its fixed bits to the trail's, whether they agree or not. -/
theorem pin_after (h : s.Records t) : (s.after shape).pin = Pin.join (t.enter shape).pins := by
  rw [Pin.join_congr fun _ => h.sound.mem_pins_enter, Pin.join_concat, ← h.pin]
  rfl

theorem enter (h : s.Records t) (ht : s.Takes shape) : (s.after shape).Records (t.enter shape) where
  names := by simp [after, h.names]
  fields := by simp [after, h.fields]
  path := h.path
  pin := h.pin_after
  sound := by
    refine h.sound.enter ht.within ht.valid (List.pairwise_append.2 ⟨h.sound.apart, ht.apart, ?_⟩)
    rw [← h.fields]
    exact ht.apart_before

theorem choose {key : Word} (h : s.Records t) (hf : t.field? f.name = some f)
    (hu : f.slice.signed = false) (hfit : key >>> f.slice.width.toNat = 0) :
    (s.chosen f key).Records (t.choose ⟨f.name, key⟩) where
  names := h.names
  fields := h.fields
  path := by simp [chosen, h.path]
  pin := by
    rw [Trail.pins_choose hf, Pin.join_concat, ← h.pin]
    rfl
  sound := h.sound.choose hf hu hfit

end Records

end Settled

/-! ### Resolving a definition -/

namespace Plan

variable {format owner field : String} {s : Settled} {shape : Shape} {f : Field} {p : Plan}
  {ps : List (Word × Plan)} {cases : List (Word × Definition)} {e : Defect}

theorem resolve_leaf_eq_ok_iff :
    resolve format s (.leaf shape) = .ok p ↔
      s.Takes shape ∧ p = .terminal shape ((s.after shape).layout format) := by
  rw [resolve, bind_eq_ok_iff]
  constructor
  · rintro ⟨s', hs', hp⟩
    obtain ⟨ht, rfl⟩ := Settled.enter_eq_ok_iff.1 hs'
    exact ⟨ht, (Except.ok.inj hp).symm⟩
  · rintro ⟨ht, rfl⟩
    exact ⟨_, Settled.enter_eq_ok_iff.2 ⟨ht, rfl⟩, rfl⟩

/-- Resolves one case under a discriminant. -/
def resolveCase (format owner : String) (s : Settled) (selector : Field) (c : Word × Definition) :
    Except Defect (Word × Plan) := do
  let plan ← resolve format (← s.choose owner selector c.1) c.2
  return (c.1, plan)

/-- A case is resolved to a plan under its key. -/
def ResolvesCase (format : String) (s : Settled) (f : Field) (c : Word × Definition)
    (p : Word × Plan) : Prop :=
  c.1 = p.1 ∧ c.1 >>> f.slice.width.toNat = 0 ∧ resolve format (s.chosen f c.1) c.2 = .ok p.2

theorem resolveCases_eq_mapM :
    resolveCases format owner s f cases = cases.mapM (resolveCase format owner s f) := by
  induction cases with
  | nil => rfl
  | cons c rest ih =>
    rw [resolveCases, ih, List.mapM_cons, resolveCase]
    simp only [bind_assoc, pure_bind]

theorem resolveCase_eq_ok_iff {c : Word × Definition} {q : Word × Plan} :
    resolveCase format owner s f c = .ok q ↔ ResolvesCase format s f c q := by
  obtain ⟨key, plan⟩ := q
  simp only [resolveCase, bind_eq_ok_iff]
  constructor
  · rintro ⟨_, hs, q, hq, h⟩
    obtain ⟨hfit, rfl⟩ := Settled.choose_eq_ok_iff.1 hs
    obtain ⟨rfl, rfl⟩ := Prod.mk.inj (Except.ok.inj h)
    exact ⟨rfl, hfit, hq⟩
  · rintro ⟨rfl, hfit, hq⟩
    exact ⟨_, Settled.choose_eq_ok_iff.2 ⟨hfit, rfl⟩, plan, hq, rfl⟩

theorem resolveCases_eq_ok_iff :
    resolveCases format owner s f cases = .ok ps ↔
      List.Forall₂ (ResolvesCase format s f) cases ps := by
  simp only [resolveCases_eq_mapM, mapM_eq_ok_iff, resolveCase_eq_ok_iff]

theorem exists_of_resolveCases_eq_error (h : resolveCases format owner s f cases = .error e) :
    ∃ c ∈ cases, s.choose owner f c.1 = .error e ∨
      c.1 >>> f.slice.width.toNat = 0 ∧ resolve format (s.chosen f c.1) c.2 = .error e := by
  rw [resolveCases_eq_mapM] at h
  obtain ⟨c, hc, h⟩ := exists_of_mapM_eq_error h
  refine ⟨c, hc, ?_⟩
  simp only [resolveCase, bind_eq_error_iff] at h
  rcases h with hchoose | ⟨_, hs, hresolve | ⟨_, -, h⟩⟩
  · exact Or.inl hchoose
  · obtain ⟨hfit, rfl⟩ := Settled.choose_eq_ok_iff.1 hs
    exact Or.inr ⟨hfit, hresolve⟩
  · cases h

theorem resolve_select_eq_ok_iff :
    resolve format s (.select shape field cases) = .ok p ↔
      s.Takes shape ∧ ∃ f, (s.after shape).fields.find? (·.name = field) = some f ∧
        f.slice.signed = false ∧ ∃ ps, List.Forall₂ (ResolvesCase format (s.after shape) f) cases ps ∧
          p = .branch shape f ps := by
  rw [resolve]
  simp only [bind_eq_ok_iff]
  constructor
  · rintro ⟨_, hs, f, hf, ps, hps, hp⟩
    obtain ⟨ht, rfl⟩ := Settled.enter_eq_ok_iff.1 hs
    obtain ⟨hfind, hu⟩ := Settled.selector_eq_ok_iff.1 hf
    exact ⟨ht, f, hfind, hu, ps, resolveCases_eq_ok_iff.1 hps, (Except.ok.inj hp).symm⟩
  · rintro ⟨ht, f, hfind, hu, ps, hps, rfl⟩
    exact ⟨_, Settled.enter_eq_ok_iff.2 ⟨ht, rfl⟩, f, Settled.selector_eq_ok_iff.2 ⟨hfind, hu⟩, ps,
      resolveCases_eq_ok_iff.2 hps, rfl⟩

theorem ofDefinitions_eq_mapM (ds : List Definition) : ofDefinitions ds = ds.mapM ofDefinition := by
  induction ds with
  | nil => rfl
  | cons d rest ih => rw [ofDefinitions, ih, List.mapM_cons]

theorem ofDefinitions_eq_ok_iff {ds : List Definition} {plans : List Plan} :
    ofDefinitions ds = .ok plans ↔ List.Forall₂ (fun d p => ofDefinition d = .ok p) ds plans := by
  rw [ofDefinitions_eq_mapM, mapM_eq_ok_iff]

theorem takes_of_resolve {d : Definition} (h : resolve format s d = .ok p) : s.Takes d.label := by
  cases d with
  | leaf shape => exact (resolve_leaf_eq_ok_iff.1 h).1
  | select shape field cases => exact (resolve_select_eq_ok_iff.1 h).1

end Plan

/-! ### Positions -/

namespace Chain

/-- The rules that a position keeps to where definitions can be resolved. -/
structure IsResolved (c : Chain) : Prop where
  sound : c.trail.IsSound
  agrees : (Pin.join c.above.pins).Agrees c.target.label.pin
  whole : ∀ f ∈ c.target.label.fields, f.slice.IsWholeIn c.pinned
  selector : ∀ field cases, c.target.selection = some (field, cases) →
    ∃ f, c.field? field = some f ∧ f.slice.signed = false ∧
      ∀ p ∈ cases, p.1 >>> f.slice.width.toNat = 0

variable {c : Chain} {s : Settled}

theorem pinned_eq_of_records (h : s.Records c.above) : c.pinned = s.mask ||| c.target.label.mask := by
  rw [pinned_eq, trail_eq_enter, ← h.pin_after]
  rfl

theorem IsResolved.takes (h : c.IsResolved) (hs : s.Records c.above) : s.Takes c.target.label := by
  have hfields : c.trail.fields = s.fields ++ c.target.label.fields := by
    rw [trail_eq_enter, Trail.fields_enter, hs.fields]
  have hpairs := h.sound.apart
  rw [hfields, List.pairwise_append] at hpairs
  refine ⟨h.sound.within _ (by simp [trail, shapes]), ?_, ?_, ?_, hpairs.2.2, hpairs.2.1⟩
  · rw [hs.pin]
    exact h.agrees
  · intro f hf
    exact h.sound.valid f (by simp [hfields, hf])
  · rw [← pinned_eq_of_records hs]
    exact h.whole

/-- The rules are kept at positions alike, if the discriminant there is the same and has no other keys. -/
theorem IsResolved.of_alike {c' : Chain} (h : c.IsResolved) (ha : c.Alike c')
    (hkeys : ∀ field cases', c'.target.selection = some (field, cases') →
      ∃ cases, c.target.selection = some (field, cases) ∧ ∀ p ∈ cases', ∃ q ∈ cases, q.1 = p.1) :
    c'.IsResolved where
  sound := ha.trail_eq ▸ h.sound
  agrees := by
    rw [← ha.above_eq, ← ha.label]
    exact h.agrees
  whole := by
    rw [← ha.label, ← ha.pinned_eq]
    exact h.whole
  selector := by
    intro field cases' hsel
    obtain ⟨cases, hsel, hsame⟩ := hkeys field cases' hsel
    obtain ⟨f, hf, hu, hfits⟩ := h.selector field cases hsel
    refine ⟨f, by rw [← ha.field?_eq, hf], hu, ?_⟩
    intro p hp
    obtain ⟨q, hq, hkey⟩ := hsame p hp
    rw [← hkey]
    exact hfits q hq

theorem records_extend {f : Field} {key : Word} (child : Definition) (h : s.Records c.trail)
    (hf : c.field? f.name = some f) (hu : f.slice.signed = false)
    (hfit : key >>> f.slice.width.toNat = 0) :
    (s.chosen f key).Records (c.extend ⟨f.name, key⟩ child).above := by
  rw [above_extend]
  exact h.choose hf hu hfit

theorem exists_of_resolve_select {format field : String} {shape : Shape}
    {cases : List (Word × Definition)} {p : Plan} (h : s.Records c.above)
    (ht : c.target = .select shape field cases) (hp : Plan.resolve format s c.target = .ok p) :
    (s.after shape).Records c.trail ∧ ∃ f, c.field? f.name = some f ∧ f.name = field ∧
      f.slice.signed = false ∧ ∃ ps,
        List.Forall₂ (Plan.ResolvesCase format (s.after shape) f) cases ps ∧
          p = .branch shape f ps := by
  have hlabel := Tree.label_of_select ht
  rw [ht] at hp
  obtain ⟨htakes, f, hfind, hu, ps, hps, rfl⟩ := Plan.resolve_select_eq_ok_iff.1 hp
  have hrec : (s.after shape).Records c.trail := by
    rw [trail_eq_enter, hlabel]
    exact h.enter htakes
  rw [hrec.fields] at hfind
  obtain ⟨-, rfl⟩ := Trail.field?_eq_some hfind
  exact ⟨hrec, f, hfind, rfl, hu, ps, hps, rfl⟩

theorem isResolved_of_records {format : String} {p : Plan} (h : s.Records c.above)
    (hp : Plan.resolve format s c.target = .ok p) : c.IsResolved := by
  have ht : s.Takes c.target.label := Plan.takes_of_resolve hp
  refine ⟨(h.enter ht).sound, ?_, ?_, ?_⟩
  · rw [← h.pin]
    exact ht.agrees
  · rw [pinned_eq_of_records h]
    exact ht.whole
  · intro field cases hsel
    cases htarget : c.target with
    | leaf shape =>
      rw [htarget] at hsel
      cases hsel
    | select shape field' cases' =>
      obtain ⟨rfl, rfl⟩ : field' = field ∧ cases' = cases := by
        simpa [htarget, Tree.selection] using hsel
      obtain ⟨-, f, hf, rfl, hu, ps, hps, -⟩ := exists_of_resolve_select h htarget hp
      refine ⟨f, hf, hu, fun q hq => ?_⟩
      obtain ⟨-, -, -, hfit, -⟩ := exists_of_forall₂_left hps hq
      exact hfit

end Chain

namespace Plan

/-- Down to each position what is settled is what the trail above says. -/
theorem exists_records_of_ofDefinition {d : Definition} {p : Plan} (h : ofDefinition d = .ok p) :
    ∀ c ∈ Chain.ofDefinition d, ∃ s q, s.Records c.above ∧
      resolve d.label.name s c.target = .ok q := by
  refine Chain.induct ⟨_, _, Settled.Records.empty, h⟩ ?_
  rintro c - shape field cases key child htarget hmem ⟨s, q, hs, hq⟩
  obtain ⟨hrec, f, hf, rfl, hu, ps, hps, -⟩ := Chain.exists_of_resolve_select hs htarget hq
  obtain ⟨r, -, -, hfit, hr⟩ := exists_of_forall₂_left hps hmem
  exact ⟨_, _, Chain.records_extend child hrec hf hu hfit, hr⟩

/-- From a position whose rules are kept, below it too, the definition can be resolved. -/
theorem exists_resolve {format : String} {d : Definition}
    (hall : ∀ c ∈ Chain.ofDefinition d, c.IsResolved) {c : Chain} (hc : c ∈ Chain.ofDefinition d)
    {s : Settled} (hs : s.Records c.above) : ∃ p, resolve format s c.target = .ok p := by
  generalize ht : c.target = t
  induction t using Tree.induct generalizing c s with
  | leaf shape =>
    have htakes := (hall c hc).takes hs
    rw [Tree.label_of_leaf ht] at htakes
    exact ⟨_, resolve_leaf_eq_ok_iff.2 ⟨htakes, rfl⟩⟩
  | select shape field cases ih =>
    have htakes := (hall c hc).takes hs
    have hrec : (s.after c.target.label).Records c.trail := hs.enter htakes
    rw [Tree.label_of_select ht] at htakes hrec
    obtain ⟨f, hf, hu, hfits⟩ := (hall c hc).selector field cases (Tree.selection_of_select ht)
    obtain ⟨-, rfl⟩ := Trail.field?_eq_some (t := c.trail) hf
    have hfind : (s.after shape).fields.find? (·.name = f.name) = some f := by
      rw [hrec.fields]
      exact hf
    obtain ⟨ps, hps⟩ : ∃ ps, List.Forall₂ (ResolvesCase format (s.after shape) f) cases ps := by
      refine exists_forall₂ fun q hq => ?_
      have hbelow := Chain.records_extend q.2 hrec hf hu (hfits q hq)
      obtain ⟨p, hp⟩ := ih q hq (Chain.extend_mem hc ht hq) hbelow rfl
      exact ⟨(q.1, p), rfl, hfits q hq, hp⟩
    exact ⟨_, resolve_select_eq_ok_iff.2 ⟨htakes, f, hfind, hu, ps, hps, rfl⟩⟩

/-- **Definitions can be resolved if and only if every position keeps to the rules.** -/
theorem exists_ofDefinitions_iff {ds : List Definition} :
    (∃ plans, ofDefinitions ds = .ok plans) ↔ ∀ c ∈ Chain.ofDefinitions ds, c.IsResolved := by
  constructor
  · rintro ⟨plans, h⟩ c hc
    obtain ⟨d, hd, hc⟩ := Chain.exists_of_mem_ofDefinitions hc
    obtain ⟨p, -, hp⟩ := exists_of_forall₂_left (ofDefinitions_eq_ok_iff.1 h) hd
    obtain ⟨s, q, hs, hq⟩ := exists_records_of_ofDefinition hp c hc
    exact Chain.isResolved_of_records hs hq
  · intro hall
    simp only [ofDefinitions_eq_ok_iff]
    refine exists_forall₂ fun d hd => ?_
    exact exists_resolve (fun c hc => hall c (Chain.mem_ofDefinitions hd hc)) (Chain.root_mem d)
      Settled.Records.empty

end Plan

end ShaderWord
