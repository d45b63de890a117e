import ShaderWord.Proofs.Resolution
import ShaderWord.Registry

/-!
# Rejection is justified

Every step of `Registry.build` that can fail answers a defect that is present: admission by
`Admission.isPresent_of_vet`, and resolution by what it finds wrong at a position (`Chain.FailsAt`), in terms
of the trail above, which is what is settled there (`Settled.Records`).
-/

namespace ShaderWord

/-! ### Words that a position admits -/

namespace Chain

variable {c : Chain} {w : Word}

theorem holds_of_admits (h : c.above.IsSound) (hw : c.Admits w) :
    (∀ p ∈ c.above.pins, p.Holds w) ∧ c.target.label.pin.Holds w := by
  obtain ⟨hshapes, hpath⟩ := hw
  refine ⟨fun p hp => ?_, Shape.accepts_iff.1 (hshapes _ (by simp [shapes]))⟩
  rcases Trail.mem_pins.1 hp with ⟨s, hs, rfl⟩ | ⟨q, hq, f, hf, rfl⟩
  · exact Shape.accepts_iff.1 (hshapes s (List.mem_append_left _ hs))
  · obtain ⟨g, hg, hraw⟩ := hpath q hq
    -- the target's own fields come last, so the field of the name is still `f`
    have hsame : c.field? q.field = some f := Trail.field?_enter (s := c.target.label) hf
    obtain rfl : g = f := Option.some.inj (hg.symm.trans hsame)
    exact (h.holds_choice_iff hq hf).2 hraw

/-- A definition that contradicts what is pinned above it accepts nothing that gets there. -/
theorem not_admits_of_disagrees (h : c.above.IsSound) {p : Pin} (hp : p ∈ c.above.pins)
    (hne : ¬ p.Agrees c.target.label.pin) : ¬ c.Admits w := fun hw =>
  hne (Pin.agrees_of_holds ((holds_of_admits h hw).1 p hp) (holds_of_admits h hw).2)

end Chain

/-! ### Defects found at a position -/

/-- What resolution finds wrong at a position of a format. Nothing is said of the order in which it looks, but
that a field is fixed in part only once it is apart from all fields before it. -/
inductive Chain.FailsAt (format : String) (c : Chain) : Defect → Prop
  | predicate (h : ¬ c.target.label.pin.IsWithin) : FailsAt format c
      (.invalidPredicate c.target.label.name c.target.label.mask c.target.label.value)
  | unreachable (h : ¬ (Pin.join c.above.pins).Agrees c.target.label.pin) :
      FailsAt format c (.unreachableVariant format c.target.label.name)
  | invalid {before after : List Field} {f : Field}
      (hfields : c.target.label.fields = before ++ f :: after) (h : ¬ f.slice.IsValid) : FailsAt format c
        (.invalidField c.target.label.name f.name f.slice.offset.toUInt32 f.slice.width.toUInt32)
  | duplicate {before after : List Field} {f g : Field}
      (hfields : c.target.label.fields = before ++ f :: after) (hg : g ∈ c.above.fields ++ before)
      (h : g.name = f.name) : FailsAt format c (.duplicateField c.target.label.name f.name)
  | overlap {before after : List Field} {f g : Field}
      (hfields : c.target.label.fields = before ++ f :: after) (hg : g ∈ c.above.fields ++ before)
      (h : g.slice.mask &&& f.slice.mask ≠ 0) :
      FailsAt format c (.overlappingFields c.target.label.name g.name f.name)
  | aliased {before after : List Field} {f : Field}
      (hfields : c.target.label.fields = before ++ f :: after)
      (happ : ∀ g ∈ c.above.fields ++ before, g.IsApart f) (h : ¬ f.slice.IsWholeIn c.pinned) :
      FailsAt format c (.aliasedField c.target.label.name f.name)
  | unknown {field : String} {cases : List (Word × Definition)}
      (hsel : c.target.selection = some (field, cases)) (h : c.field? field = none) :
      FailsAt format c (.unknownDiscriminantField c.target.label.name field)
  | signed {field : String} {cases : List (Word × Definition)} {f : Field}
      (hsel : c.target.selection = some (field, cases)) (hf : c.field? field = some f)
      (h : f.slice.signed = true) : FailsAt format c (.signedDiscriminant c.target.label.name field)
  | range {field : String} {cases : List (Word × Definition)} {f : Field} {key : Word} {child : Definition}
      (hsel : c.target.selection = some (field, cases)) (hf : c.field? field = some f)
      (hmem : (key, child) ∈ cases) (h : ¬ key >>> f.slice.width.toNat = 0) :
      FailsAt format c (.discriminantKeyOutOfRange c.target.label.name field key)

namespace Chain

variable {d : Definition} {c : Chain} {s : Settled} {e : Defect} {format : String}

theorem failsAt_of_declareAll (hs : s.Records c.above)
    (h : { s.after c.target.label with fields := s.fields }.declareAll c.target.label.name
      c.target.label.fields = .error e) : c.FailsAt format e := by
  obtain ⟨before, f, after, hsplit, hf⟩ := Settled.declareAll_eq_error h
  rcases Settled.declare_eq_error hf with
    ⟨hv, rfl⟩ | ⟨g, hg, hname, rfl⟩ | ⟨g, hg, hover, rfl⟩ | ⟨happ, hwhole, rfl⟩
  · exact .invalid hsplit hv
  · exact .duplicate hsplit (by rwa [← hs.fields]) hname
  · exact .overlap hsplit (by rwa [← hs.fields]) hover
  · have hmask : c.pinned = (s.after c.target.label).mask := pinned_eq_of_records hs
    refine .aliased hsplit ?_ (by rwa [hmask])
    rwa [← hs.fields]

theorem failsAt_of_enter (hs : s.Records c.above) (h : s.enter format c.target.label = .error e) :
    c.FailsAt format e := by
  unfold Settled.enter at h
  rcases bind_eq_error_iff.1 h with hpred | ⟨_, -, h⟩
  · obtain ⟨hwithin, rfl⟩ := Shape.requirePredicate_eq_error_iff.1 hpred
    exact .predicate hwithin
  · split at h
    · exact failsAt_of_declareAll hs h
    · next hagrees =>
      obtain rfl := Except.error.inj h
      rw [Settled.agrees_iff, hs.pin] at hagrees
      exact .unreachable hagrees

/-- **Resolution answers what it finds wrong at one of the positions**, where all is well above. -/
theorem exists_failsAt_of_resolve (hc : c ∈ ofDefinition d) (hs : s.Records c.above)
    (h : Plan.resolve format s c.target = .error e) :
    ∃ b ∈ ofDefinition d, b.above.IsSound ∧ b.FailsAt format e := by
  -- down the target, along with the position
  generalize ht : c.target = t at h
  induction t using Tree.induct generalizing c s with
  | leaf shape =>
    rw [Plan.resolve, ← Tree.label_of_leaf ht] at h
    rcases bind_eq_error_iff.1 h with henter | ⟨_, -, h⟩
    · exact ⟨c, hc, hs.sound, failsAt_of_enter hs henter⟩
    · cases h
  | select shape field cases ih =>
    have hsel := Tree.selection_of_select ht
    rw [Plan.resolve, ← Tree.label_of_select ht] at h
    rcases bind_eq_error_iff.1 h with henter | ⟨_, henter, hbelow⟩
    · exact ⟨c, hc, hs.sound, failsAt_of_enter hs henter⟩
    obtain ⟨htakes, rfl⟩ := Settled.enter_eq_ok_iff.1 henter
    have hrec : (s.after c.target.label).Records c.trail := hs.enter htakes
    rcases bind_eq_error_iff.1 hbelow with hselector | ⟨f, hselector, hchosen⟩
    · rcases Settled.selector_eq_error hselector with ⟨hnone, rfl⟩ | ⟨⟨f, hfind, hsigned⟩, rfl⟩
      · rw [hrec.fields] at hnone
        exact ⟨c, hc, hs.sound, .unknown hsel hnone⟩
      · rw [hrec.fields] at hfind
        exact ⟨c, hc, hs.sound, .signed hsel hfind hsigned⟩
    obtain ⟨hfind, hu⟩ := Settled.selector_eq_ok_iff.1 hselector
    rw [hrec.fields] at hfind
    obtain ⟨-, rfl⟩ := Trail.field?_eq_some hfind
    rcases bind_eq_error_iff.1 hchosen with hcases | ⟨_, -, hok⟩
    · obtain ⟨⟨key, child⟩, hchild, hchoose | ⟨hfit, hresolve⟩⟩ :=
        Plan.exists_of_resolveCases_eq_error hcases
      · obtain ⟨hwide, rfl⟩ := Settled.choose_eq_error hchoose
        exact ⟨c, hc, hs.sound, .range hsel hfind hchild hwide⟩
      · have hbelow := records_extend child hrec hfind hu hfit
        exact ih _ hchild (extend_mem hc ht hchild) hbelow rfl hresolve
    · cases hok

theorem exists_failsAt_of_ofDefinitions {ds : List Definition} (h : Plan.ofDefinitions ds = .error e) :
    ∃ d ∈ ds, ∃ c ∈ ofDefinition d, c.above.IsSound ∧ c.FailsAt d.label.name e := by
  rw [Plan.ofDefinitions_eq_mapM] at h
  obtain ⟨d, hd, hresolve⟩ := exists_of_mapM_eq_error h
  exact ⟨d, hd, exists_failsAt_of_resolve (root_mem d) Settled.Records.empty hresolve⟩

end Chain

/-! ### What is found is present -/

section Position

variable {ds : List Definition} {d : Definition} {c : Chain} {e : Defect}

/-- Only definitions pin a bit of a field that is apart from all fields above. -/
theorem Chain.exists_fixes_of_pinned (h : c.above.IsSound) {f : Field}
    (happ : ∀ g ∈ c.above.fields, g.IsApart f) {i : Nat} (hi : f.slice.mask.getLsbD i = true)
    (hp : c.pinned.getLsbD i = true) : ∃ s ∈ c.shapes, s.mask.getLsbD i = true := by
  rw [Chain.pinned_eq, Pin.getLsbD_mask_join] at hp
  obtain ⟨q, hq, hqi⟩ := hp
  rw [Chain.trail_eq_enter, h.mem_pins_enter] at hq
  rcases List.mem_append.1 hq with hq | hq
  · rcases Trail.mem_pins.1 hq with ⟨s, hs, rfl⟩ | ⟨p, -, g, hg, rfl⟩
    · exact ⟨s, List.mem_append_left _ hs, hqi⟩
    · exact ((happ g (Trail.field?_eq_some hg).1).not_common hqi hi).elim
  · obtain rfl := List.mem_singleton.1 hq
    exact ⟨c.target.label, by simp [Chain.shapes], hqi⟩

theorem Chain.pair_sublist_fields {before after : List Field} {f g : Field}
    (hfields : c.target.label.fields = before ++ f :: after) (hg : g ∈ c.above.fields ++ before) :
    [g, f].Sublist c.fields := by
  have hall : c.fields = (c.above.fields ++ before) ++ f :: after := by
    rw [List.append_assoc, ← hfields]
    simp [Chain.fields, Chain.shapes, Trail.fields, Chain.above]
  rw [hall]
  exact (List.singleton_sublist.2 hg).append (List.singleton_sublist.2 List.mem_cons_self)

/-- **What resolution finds at a position is present.** -/
theorem isPresent_of_failsAt (hd : d ∈ ds) (hc : c ∈ Chain.ofDefinition d) (hs : c.above.IsSound)
    (h : c.FailsAt d.label.name e) : e.IsPresent ds := by
  have hmem := Chain.mem_ofDefinitions hd hc
  cases h with
  | predicate hwithin => exact Defect.isPresent_invalidPredicate hmem hwithin
  | unreachable hne =>
    obtain ⟨p, hp, hne⟩ := Pin.exists_disagrees_of_join (fun q hq => hs.isWithin_of_mem_pins hq) hne
    exact ⟨c, hmem, rfl, Chain.head?_names hc, ⟨p, hp, hne⟩, fun w =>
      Chain.not_admits_of_disagrees hs hp hne⟩
  | @invalid before after f hfields hv =>
    refine ⟨c, hmem, rfl, f, by simp [hfields], rfl, rfl, rfl, ?_⟩
    unfold Slice.IsValid at hv
    simp only [UInt8.toNat_toUInt32]
    omega
  | duplicate hfields hg hname =>
    exact ⟨c, hmem, rfl, _, _, Chain.pair_sublist_fields hfields hg, hname, rfl⟩
  | overlap hfields hg hover =>
    rw [Ne, inter_eq_zero_iff] at hover
    push Not at hover
    obtain ⟨i, hgi, hfi⟩ := hover
    exact ⟨c, hmem, rfl, _, _, Chain.pair_sublist_fields hfields hg, rfl, rfl, i, hgi,
      Bool.not_eq_false _ ▸ hfi⟩
  | @aliased before after f hfields happ hwhole =>
    rw [Slice.not_isWholeIn_iff] at hwhole
    obtain ⟨⟨i, hi, hpin⟩, hfree⟩ := hwhole
    -- no field above shares a bit with `f`, so no key can have pinned the bit that is fixed
    have habove : ∀ g ∈ c.above.fields, g.IsApart f := fun g hg => happ g (List.mem_append_left _ hg)
    exact ⟨c, hmem, rfl, f, by simp [hfields], rfl,
      ⟨i, hi, Chain.exists_fixes_of_pinned hs habove hi hpin⟩, hfree⟩
  | unknown hsel hnone =>
    refine ⟨c, hmem, rfl, _, hsel, fun f hf => ?_⟩
    simpa using List.find?_eq_none.1 hnone f hf
  | signed hsel hfind hsigned => exact ⟨c, hmem, rfl, _, hsel, _, hfind, hsigned⟩
  | range hsel hfind hchild hwide =>
    rw [fits_iff, Nat.not_lt] at hwide
    exact ⟨c, hmem, rfl, _, hsel, ⟨_, hchild⟩, _, hfind, hwide⟩

end Position

theorem isPresent_of_ofDefinitions {ds : List Definition} {e : Defect}
    (h : Plan.ofDefinitions ds = .error e) : e.IsPresent ds := by
  obtain ⟨d, hd, c, hc, hs, hfails⟩ := Chain.exists_failsAt_of_ofDefinitions h
  exact isPresent_of_failsAt hd hc hs hfails

/-- A build answers what the vetting does, and what the resolution does of vetted definitions. -/
theorem Registry.build_eq_error_iff {ds : List Definition} {e : Defect} :
    Registry.build ds = .error e ↔ Admission.vet ds = .error e ∨
      Admission.vet ds = .ok () ∧ Plan.ofDefinitions ds = .error e := by
  unfold Registry.build
  rw [bind_eq_error_iff]
  constructor
  · rintro (hvet | ⟨⟨⟩, hvet, h⟩)
    · exact .inl hvet
    · rcases bind_eq_error_iff.1 h with hplans | ⟨_, -, h⟩
      · exact .inr ⟨hvet, hplans⟩
      · cases h
  · rintro (hvet | ⟨hvet, hplans⟩)
    · exact .inl hvet
    · exact .inr ⟨(), hvet, bind_eq_error_iff.2 (.inl hplans)⟩

/-- **Rejection is justified**: the defect that a build answers is present in the definitions. -/
theorem Registry.isPresent_of_build {ds : List Definition} {e : Defect}
    (h : Registry.build ds = .error e) : e.IsPresent ds := by
  rcases Registry.build_eq_error_iff.1 h with hvet | ⟨-, hplans⟩
  · exact Admission.isPresent_of_vet hvet
  · exact isPresent_of_ofDefinitions hplans

/-- A format that fixes two bits as 1, and a case that has the first of them as 0. -/
def contradictory : Definition :=
  .select ⟨"t", 3, 1, [⟨"kind", ⟨0, 2, false⟩⟩]⟩ "kind" [(1, .leaf ⟨"c", 1, 0, []⟩)]

/-- The case is answered as unreachable, and it is. -/
theorem Registry.isPresent_of_build_contradictory :
    Registry.build [contradictory] = .error (.unreachableVariant "t" "c") ∧
      (Defect.unreachableVariant "t" "c").IsPresent [contradictory] := by
  have h : Registry.build [contradictory] = .error (.unreachableVariant "t" "c") := by rfl
  exact ⟨h, Registry.isPresent_of_build h⟩

end ShaderWord
