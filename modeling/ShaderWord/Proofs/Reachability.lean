import ShaderWord.Proofs.Walks

/-!
# Which layouts can be reached

* `Chain.KeysAgree c` — no key that selects on the way contradicts a bit that a definition fixes before it;
* `Chain.exists_admits_iff`: in definitions that are accepted this is what it takes for a word to get to `c`.

What a case contradicts is refused, be it fixed bits or keys (`Chain.IsResolved.agrees`), and two keys never
meet in a bit; but a key is not compared with the bits that are fixed before it, and its case is accepted
even if no word gets there.
-/

namespace ShaderWord

theorem Pin.agrees_concat {ps : List Pin} {q : Pin} (h : ∀ p ∈ ps, ∀ r ∈ ps, p.Agrees r)
    (hq : ∀ p ∈ ps, p.Agrees q) : ∀ p ∈ ps ++ [q], ∀ r ∈ ps ++ [q], p.Agrees r := by
  intro p hp r hr
  rcases List.mem_append.1 hp with hps | hpq
  · rcases List.mem_append.1 hr with hrs | hrq
    · exact h p hps r hrs
    · rw [List.mem_singleton.1 hrq]
      exact hq p hps
  · rw [List.mem_singleton.1 hpq]
    rcases List.mem_append.1 hr with hrs | hrq
    · exact (hq r hrs).symm
    · rw [List.mem_singleton.1 hrq]
      exact Pin.agrees_refl q

namespace Chain

variable {c : Chain} {w : Word}

/-- A position admits the words that have all its pinned values. -/
theorem admits_iff_holds (h : c.trail.IsSound) :
    c.Admits w ↔ ∀ p ∈ c.trail.pins, p.Holds w := by
  constructor
  · rintro ⟨hshapes, hpath⟩ q hq
    rcases Trail.mem_pins.1 hq with ⟨s, hs, rfl⟩ | ⟨p, hp, f, hf, rfl⟩
    · exact Shape.accepts_iff.1 (hshapes s hs)
    · obtain ⟨g, hg, hgw⟩ := hpath p hp
      obtain rfl : g = f := Option.some.inj (hg.symm.trans hf)
      exact (h.holds_choice_iff hp hf).2 hgw
  · intro hall
    refine ⟨fun s hs => Shape.accepts_iff.2 (hall _ (Trail.mem_pins.2 (Or.inl ⟨s, hs, rfl⟩))), ?_⟩
    intro p hp
    obtain ⟨f, hf⟩ := h.exists_field hp
    have hpin : (f.pin p.key).Holds w := hall _ (Trail.mem_pins.2 (Or.inr ⟨p, hp, f, hf, rfl⟩))
    exact ⟨f, hf, (h.holds_choice_iff hp hf).1 hpin⟩

/-- Each key that selects on the way agrees with the bits that the definitions fix down to the one it
selects in. -/
def KeysAgree (c : Chain) : Prop :=
  ∀ before l after, c.links = before ++ l :: after → ∀ f, c.field? l.choice.field = some f →
    ∀ s ∈ before.map Link.shape ++ [l.shape], (f.pin l.choice.key).Agrees s.pin

theorem KeysAgree.of_extend {p : Choice} {child : Definition} (h : (c.extend p child).KeysAgree) :
    c.KeysAgree := by
  intro before l after hlinks f hf
  refine h before l (after ++ [⟨c.target.label, p⟩]) ?_ f (field?_extend hf)
  rw [links_extend, hlinks, List.append_assoc, List.cons_append]

theorem KeysAgree.last {p : Choice} {child : Definition} {f : Field}
    (h : (c.extend p child).KeysAgree) (hf : c.field? p.field = some f) :
    ∀ s ∈ c.shapes, (f.pin p.key).Agrees s.pin :=
  h c.links ⟨c.target.label, p⟩ [] rfl f (field?_extend hf)

section Accepted

variable {ds : List Definition} {d : Definition}

theorem agrees_of_fresh (h : Accepted ds) (hc : c ∈ ofDefinitions ds) {f g : Field}
    {p : Choice} {key : Word} (hp : p ∈ c.path) (hg : c.trail.field? p.field = some g)
    (hf : c.trail.field? f.name = some f) (hfresh : f.name ∉ c.path.map Choice.field) :
    (g.pin p.key).Agrees (f.pin key) := by
  obtain ⟨hgmem, hgname⟩ := Trail.field?_eq_some hg
  have hne : g ≠ f := by
    rintro rfl
    exact hfresh (hgname ▸ List.mem_map_of_mem hp)
  have happ := (h.resolved c hc).sound.apart_of_ne hgmem (Trail.field?_eq_some hf).1 hne
  exact Pin.agrees_of_disjoint happ.2

/-- Where the keys agree with the bits fixed before them, all that is pinned agrees. -/
theorem agrees_of_keysAgree (h : Accepted ds) (hd : d ∈ ds) :
    ∀ c ∈ ofDefinition d, c.KeysAgree → ∀ p ∈ c.trail.pins, ∀ q ∈ c.trail.pins, p.Agrees q := by
  refine induct ?_ ?_
  · intro _ p hp q hq
    obtain rfl : p = d.label.pin := by simpa [trail, Trail.pins, shapes, path] using hp
    obtain rfl : q = d.label.pin := by simpa [trail, Trail.pins, shapes, path] using hq
    exact Pin.agrees_refl _
  intro c hc shape field cases key child ht hmem ih hkeys
  have hcds : c ∈ ofDefinitions ds := mem_ofDefinitions hd hc
  have hext : c.extend ⟨field, key⟩ child ∈ ofDefinitions ds :=
    mem_ofDefinitions hd (extend_mem hc ht hmem)
  have hsel := Tree.selection_of_select ht
  obtain ⟨f, hf, hu, hfits⟩ := (h.resolved c hcds).selector field cases hsel
  have hsound : (c.extend ⟨field, key⟩ child).above.IsSound := by
    rw [above_extend]
    exact (h.resolved c hcds).sound.choose hf hu (hfits _ hmem)
  have habove : (c.extend ⟨field, key⟩ child).above.pins = c.trail.pins ++ [f.pin key] := by
    rw [above_extend]
    exact Trail.pins_choose hf
  -- first the new key beside what is pinned before it, then the case below
  have hchosen : ∀ p ∈ (c.extend ⟨field, key⟩ child).above.pins,
      ∀ q ∈ (c.extend ⟨field, key⟩ child).above.pins, p.Agrees q := by
    rw [habove]
    refine Pin.agrees_concat (ih hkeys.of_extend) fun p hp => ?_
    rcases Trail.mem_pins.1 hp with ⟨s, hs, rfl⟩ | ⟨q, hq, g, hg, rfl⟩
    · exact (hkeys.last hf s hs).symm
    · obtain ⟨-, rfl⟩ := Trail.field?_eq_some (t := c.trail) hf
      exact agrees_of_fresh h hcds hq hg hf (h.vetted.selections c hcds _ _ hsel).fresh.2
  intro p hp q hq
  refine Pin.agrees_concat hchosen (fun r hr => ?_) p (hsound.mem_pins_enter.1 hp) q
    (hsound.mem_pins_enter.1 hq)
  exact Pin.agrees_of_join (fun _ => hsound.isWithin_of_mem_pins) hchosen
    (h.resolved _ hext).agrees hr

/-- **A word gets to a position if and only if the keys agree** with the bits fixed before them. -/
theorem exists_admits_iff (h : Accepted ds) (hc : c ∈ ofDefinitions ds) :
    (∃ w, c.Admits w) ↔ c.KeysAgree := by
  have hsound := (h.resolved c hc).sound
  constructor
  · rintro ⟨w, hw⟩ before l after hlinks f hf s hs
    rw [admits_iff_holds hsound] at hw
    have hchoice : l.choice ∈ c.path := by simp [path, hlinks]
    have hshape : s ∈ c.shapes := by
      rw [shapes, hlinks, List.map_append, List.map_cons]
      simp only [List.mem_append, List.mem_cons, List.not_mem_nil, or_false] at hs ⊢
      tauto
    exact Pin.agrees_of_holds (hw _ (Trail.mem_pins.2 (Or.inr ⟨_, hchoice, f, hf, rfl⟩)))
      (hw _ (Trail.mem_pins.2 (Or.inl ⟨s, hshape, rfl⟩)))
  · intro hkeys
    obtain ⟨d, hd, hcd⟩ := exists_of_mem_ofDefinitions hc
    refine ⟨(Pin.join c.trail.pins).value, (admits_iff_holds hsound).2 fun p hp => ?_⟩
    exact Pin.holds_join_value (fun _ => hsound.isWithin_of_mem_pins)
      (agrees_of_keysAgree h hd c hcd hkeys) hp

theorem exists_reaches_iff (h : Accepted ds) (hc : c ∈ ofDefinitions ds)
    (ht : c.isTerminal = true) :
    (∃ w inst, Definition.decode ds w = .ok inst ∧ inst.layout = some c.layout) ↔ c.KeysAgree := by
  rw [← exists_admits_iff h hc]
  exact exists_congr fun w => reaches_iff h hc ht

end Accepted

end Chain

/-! ### The layouts of a registry -/

namespace Registry

variable {ds : List Definition} {r : Registry}

/-- **A layout of a registry can be reached if and only if the keys on the way to its position agree** with
the bits that are fixed before them. -/
theorem reachable_iff_keysAgree (h : build ds = .ok r) :
    ∀ layout ∈ r.layouts, ∃ c ∈ Chain.ofDefinitions ds, c.isTerminal = true ∧ c.layout = layout ∧
      ((∃ w inst, r.decode w = .ok inst ∧ inst.layout = some layout) ↔ c.KeysAgree) := by
  obtain ⟨hacc, hdecode, hlayouts⟩ := accepted_of_build h
  intro layout hlayout
  obtain ⟨c, hc, ht, rfl⟩ := hlayouts.1 hlayout
  refine ⟨c, hc, ht, rfl, ?_⟩
  simp only [hdecode]
  exact Chain.exists_reaches_iff hacc hc ht

/-- Both layouts are reached: the keys 2 and 1 select in a format that fixes no bit of their field. -/
theorem reachable_iff_keysAgree_twoCases : ∃ r, build [twoCases] = .ok r ∧
    r.layouts.map Layout.key = ["t.b", "t.a"] ∧
    ∀ layout ∈ r.layouts, ∃ w inst, r.decode w = .ok inst ∧ inst.layout = some layout := by
  obtain ⟨r, hr, hkeys⟩ : ∃ r, build [twoCases] = .ok r ∧ r.layouts.map Layout.key = ["t.b", "t.a"] :=
    ⟨_, rfl, by decide +kernel⟩
  have hwords : ∀ c ∈ Chain.ofDefinitions [twoCases], c.isTerminal = true →
      c.Admits 0x52 ∨ c.Admits 0x11 := by
    decide +kernel
  refine ⟨r, hr, hkeys, fun layout hlayout => ?_⟩
  obtain ⟨c, hc, ht, -, hreach⟩ := reachable_iff_keysAgree hr layout hlayout
  refine hreach.2 ((Chain.exists_admits_iff (accepted_of_build hr).1 hc).1 ?_)
  exact (hwords c hc ht).elim (fun h => ⟨_, h⟩) fun h => ⟨_, h⟩

end Registry

/-- A format that fixes its selector as 2, and a case for 1. -/
def deadCase : Definition :=
  .select ⟨"t", 3, 2, [⟨"kind", ⟨0, 2, false⟩⟩]⟩ "kind" [(1, .leaf ⟨"c", 0, 0, []⟩)]

/-- The case is accepted, and no word is decoded to its layout. -/
theorem Registry.not_reachable_deadCase : ∃ r, build [deadCase] = .ok r ∧
    ∃ layout ∈ r.layouts, ¬ ∃ w inst, r.decode w = .ok inst ∧ inst.layout = some layout := by
  obtain ⟨r, hr⟩ : ∃ r, build [deadCase] = .ok r := ⟨_, rfl⟩
  obtain ⟨hacc, hdecode, hlayouts⟩ := accepted_of_build hr
  let c : Chain := ⟨[⟨deadCase.label, ⟨"kind", 1⟩⟩], .leaf ⟨"c", 0, 0, []⟩⟩
  have hc : c ∈ Chain.ofDefinitions [deadCase] := List.mem_cons_of_mem _ List.mem_cons_self
  refine ⟨r, hr, c.layout, hlayouts.2 ⟨c, hc, rfl, rfl⟩, ?_⟩
  simp only [hdecode]
  rw [Chain.exists_reaches_iff hacc hc rfl]
  intro hkeys
  have hpins := hkeys [] ⟨deadCase.label, ⟨"kind", 1⟩⟩ [] rfl ⟨"kind", ⟨0, 2, false⟩⟩ rfl
    deadCase.label List.mem_cons_self
  exact absurd hpins (by decide)

end ShaderWord
