import ShaderWord.Proofs.Accepted

/-!
# Which fields are fixed in part

A field is compared with the bits that are fixed when it is declared (`Chain.IsResolved.whole`), and not with
those that are fixed further down. So it may end up fixed in part, and `Chain.isWholeIn_pinned_iff` says
when: if no bit of it is fixed where it is declared, it does not select, and the definitions further down
fix some of its bits but not all.
-/

namespace ShaderWord

theorem Slice.isWholeIn_congr {s : Slice} {m m' : Word}
    (h : ∀ i, s.mask.getLsbD i = true → m.getLsbD i = m'.getLsbD i) :
    s.IsWholeIn m ↔ s.IsWholeIn m' := by
  rw [isWholeIn_iff, isWholeIn_iff]
  refine or_congr (forall_congr' fun i => ?_) (forall_congr' fun i => ?_)
  · exact forall_congr' fun hi => by rw [h i hi]
  · exact forall_congr' fun hi => by rw [h i hi]

namespace Chain

variable {c : Chain} {d : Definition} {f : Field}

/-- The position `c'` is that of the definition `owner` on the way to `c`, after those of `above`. -/
structure StopsAt (c' c : Chain) (above : List Shape) (owner : Shape) : Prop where
  target : c'.target.label = owner
  shapes : c'.shapes = above ++ [owner]
  path : c'.path ⊆ c.path

theorem StopsAt.last {above : List Shape} {owner : Shape} (h : c.shapes = above ++ [owner]) :
    c.StopsAt c above owner :=
  ⟨List.singleton_inj.1 (List.append_inj_right' h rfl), h, List.Subset.refl _⟩

theorem exists_stopsAt {above below : List Shape} {owner : Shape} (hc : c ∈ ofDefinition d)
    (h : c.shapes = above ++ owner :: below) : ∃ c' ∈ ofDefinition d, c'.StopsAt c above owner := by
  refine induct (P := fun c => ∀ {above below : List Shape}, c.shapes = above ++ owner :: below →
    ∃ c' ∈ ofDefinition d, c'.StopsAt c above owner) ?_ ?_ c hc h
  · intro above below h
    have hlen := congrArg List.length h
    simp only [shapes, List.map_nil, List.nil_append, List.length_nil, List.length_append,
      List.length_cons] at hlen
    obtain rfl : below = [] := List.length_eq_zero_iff.1 (by omega)
    exact ⟨_, root_mem d, StopsAt.last h⟩
  · intro c hc shape field cases key child ht hmem ih above below h
    -- the way ends at its last definition, and before it the definition is on the shorter way
    rcases List.eq_nil_or_concat below with rfl | ⟨below, s, rfl⟩
    · exact ⟨_, extend_mem hc ht hmem, StopsAt.last h⟩
    · rw [shapes_extend, List.concat_eq_append, ← List.cons_append, ← List.append_assoc] at h
      obtain ⟨c', hc', hstop⟩ := ih (List.append_inj_left' h rfl)
      refine ⟨c', hc', hstop.target, hstop.shapes, fun p hp => ?_⟩
      rw [path_extend]
      exact List.mem_append_left _ (hstop.path hp)

/-- A bit of a field is pinned by a definition, or by the choice that the field selects. -/
theorem pinned_iff_of_mem_fields (h : c.trail.IsSound) (hf : f ∈ c.fields) {i : Nat}
    (hi : f.slice.mask.getLsbD i = true) :
    c.pinned.getLsbD i = true ↔
      (∃ s ∈ c.shapes, s.mask.getLsbD i = true) ∨ f.name ∈ c.path.map Choice.field := by
  rw [pinned_eq, Pin.getLsbD_mask_join]
  constructor
  · rintro ⟨q, hq, hqi⟩
    rcases Trail.mem_pins.1 hq with ⟨s, hs, rfl⟩ | ⟨p, hp, g, hg, rfl⟩
    · exact Or.inl ⟨s, hs, hqi⟩
    · obtain ⟨hgmem, hgname⟩ := Trail.field?_eq_some hg
      by_cases heq : g = f
      · exact Or.inr (List.mem_map.2 ⟨p, hp, by rw [← hgname, heq]⟩)
      · exact ((h.apart_of_ne hgmem hf heq).not_common hqi hi).elim
  · rintro (⟨s, hs, hsi⟩ | hname)
    · exact ⟨s.pin, Trail.mem_pins.2 (Or.inl ⟨s, hs, rfl⟩), hsi⟩
    · obtain ⟨p, hp, hpname⟩ := List.mem_map.1 hname
      obtain ⟨g, hg⟩ := h.exists_field hp
      obtain ⟨hgmem, hgname⟩ := Trail.field?_eq_some hg
      have heq : g = f := by
        by_contra hne
        exact (h.apart_of_ne hgmem hf hne).1 (hgname.trans hpname)
      exact ⟨g.pin p.key, Trail.mem_pins.2 (Or.inr ⟨p, hp, g, hg, rfl⟩), heq ▸ hi⟩

theorem pinned_mono {c' : Chain} (h : c.trail.IsSound) (h' : c'.trail.IsSound)
    (hshapes : c'.shapes ⊆ c.shapes) (hpath : c'.path ⊆ c.path) (hf : f ∈ c'.fields) {i : Nat}
    (hi : f.slice.mask.getLsbD i = true) (hp : c'.pinned.getLsbD i = true) :
    c.pinned.getLsbD i = true := by
  have hfc : f ∈ c.fields := by
    obtain ⟨s, hs, hfs⟩ := List.mem_flatMap.1 hf
    exact List.mem_flatMap.2 ⟨s, hshapes hs, hfs⟩
  rw [pinned_iff_of_mem_fields h hfc hi]
  rcases (pinned_iff_of_mem_fields h' hf hi).1 hp with ⟨s, hs, hsi⟩ | hname
  · exact Or.inl ⟨s, hshapes hs, hsi⟩
  · exact Or.inr (List.map_subset _ hpath hname)

section Owner

variable {ds : List Definition} {above below : List Shape} {owner : Shape} {i : Nat}
  (hacc : Accepted ds) (hc : c ∈ ofDefinitions ds) (hsplit : c.shapes = above ++ owner :: below)
  (hf : f ∈ owner.fields)
include hacc hc hsplit hf

/-- A field with a fixed bit where it is declared is fixed there as a whole, and nothing is ever taken back. -/
theorem pinned_of_fixed (hfixed : ∃ s ∈ above ++ [owner], f.slice.mask &&& s.mask ≠ 0)
    (hi : f.slice.mask.getLsbD i = true) : c.pinned.getLsbD i = true := by
  obtain ⟨d, hd, hcd⟩ := exists_of_mem_ofDefinitions hc
  obtain ⟨c', hcd', hstop⟩ := exists_stopsAt hcd hsplit
  have hc' : c' ∈ ofDefinitions ds := mem_ofDefinitions hd hcd'
  have hsound' := (hacc.resolved c' hc').sound
  have hmem' : f ∈ c'.fields := List.mem_flatMap.2 ⟨owner, by simp [hstop.shapes], hf⟩
  obtain ⟨s, hs, hover⟩ := hfixed
  rw [Ne, inter_eq_zero_iff] at hover
  push Not at hover
  obtain ⟨j, hfj, hsj⟩ := hover
  have hj : c'.pinned.getLsbD j = true :=
    (pinned_iff_of_mem_fields hsound' hmem' hfj).2
      (Or.inl ⟨s, by rwa [hstop.shapes], by simpa using hsj⟩)
  -- where the field is declared the build has checked it
  have hwhole : f.slice.IsWholeIn c'.pinned :=
    (hacc.resolved c' hc').whole f (by rwa [hstop.target])
  have hall : c'.pinned.getLsbD i = true := by
    rcases Slice.isWholeIn_iff.1 hwhole with hnone | hall
    · rw [hnone j hfj] at hj
      cases hj
    · exact hall i hi
  have hshapes : c'.shapes ⊆ c.shapes := by
    rw [hstop.shapes, hsplit]
    exact List.append_subset.2 ⟨List.subset_append_left _ _, by simp⟩
  exact pinned_mono (hacc.resolved c hc).sound hsound' hshapes hstop.path hmem' hi hall

/-- Of a field that is free where it is declared, and does not select, those bits are pinned that the definitions
further down fix. -/
theorem pinned_iff_of_free (hselects : f.name ∉ c.path.map Choice.field)
    (hfree : ∀ s ∈ above ++ [owner], f.slice.mask &&& s.mask = 0) (hi : f.slice.mask.getLsbD i = true) :
    c.pinned.getLsbD i = true ↔ ∃ s ∈ below, s.mask.getLsbD i = true := by
  have hmem : f ∈ c.fields := List.mem_flatMap.2 ⟨owner, by simp [hsplit], hf⟩
  have hsplit' : c.shapes = (above ++ [owner]) ++ below := by simp [hsplit]
  rw [pinned_iff_of_mem_fields (hacc.resolved c hc).sound hmem hi, or_iff_left hselects, hsplit']
  constructor
  · rintro ⟨s, hs, hsi⟩
    rcases List.mem_append.1 hs with hs | hs
    · rw [inter_eq_zero_iff.1 (hfree s hs) i hi] at hsi
      cases hsi
    · exact ⟨s, hs, hsi⟩
  · rintro ⟨s, hs, hsi⟩
    exact ⟨s, List.mem_append_right _ hs, hsi⟩

/-- **When a field is fixed as a whole or not at all**: it selects, or it is fixed where it is declared, or the
definitions further down fix all of it or nothing. -/
theorem isWholeIn_pinned_iff : f.slice.IsWholeIn c.pinned ↔
    f.name ∈ c.path.map Choice.field ∨ (∃ s ∈ above ++ [owner], f.slice.mask &&& s.mask ≠ 0) ∨
      f.slice.IsWholeIn ((below.map Shape.mask).foldl (· ||| ·) 0) := by
  have hmem : f ∈ c.fields := List.mem_flatMap.2 ⟨owner, by simp [hsplit], hf⟩
  by_cases hselects : f.name ∈ c.path.map Choice.field
  · refine iff_of_true (Slice.isWholeIn_iff.2 (Or.inr fun i hi => ?_)) (Or.inl hselects)
    exact (pinned_iff_of_mem_fields (hacc.resolved c hc).sound hmem hi).2 (Or.inr hselects)
  by_cases hfixed : ∃ s ∈ above ++ [owner], f.slice.mask &&& s.mask ≠ 0
  · refine iff_of_true (Slice.isWholeIn_iff.2 (Or.inr fun i hi => ?_)) (Or.inr (Or.inl hfixed))
    exact pinned_of_fixed hacc hc hsplit hf hfixed hi
  · rw [or_iff_right hselects, or_iff_right hfixed]
    push Not at hfixed
    refine Slice.isWholeIn_congr fun i hi => Bool.eq_iff_iff.2 ?_
    rw [pinned_iff_of_free hacc hc hsplit hf hselects hfixed hi, Pin.getLsbD_foldl_or]
    simp only [List.mem_map, exists_exists_and_eq_and]

end Owner

end Chain

namespace Registry

/-- **When the fields of a layout are fixed as a whole or not at all**, layout by layout and field by field. -/
theorem isWholeIn_pinned_of_build {ds : List Definition} {r : Registry} (h : build ds = .ok r) :
    ∀ layout ∈ r.layouts, ∃ c ∈ Chain.ofDefinitions ds, c.isTerminal = true ∧ c.layout = layout ∧
      ∀ above owner below, c.shapes = above ++ owner :: below → ∀ f ∈ owner.fields,
        (f.slice.IsWholeIn c.pinned ↔
          f.name ∈ layout.path.map Choice.field ∨
            (∃ s ∈ above ++ [owner], f.slice.mask &&& s.mask ≠ 0) ∨
              f.slice.IsWholeIn ((below.map Shape.mask).foldl (· ||| ·) 0)) := by
  obtain ⟨hacc, -, hlayouts⟩ := accepted_of_build h
  intro layout hlayout
  obtain ⟨c, hc, ht, rfl⟩ := hlayouts.1 hlayout
  refine ⟨c, hc, ht, rfl, fun above owner below hsplit f hf => ?_⟩
  exact Chain.isWholeIn_pinned_iff hacc hc hsplit hf

/-- Of the fields of a layout one selects, so that all its bits are pinned, and below the other nothing is fixed. -/
theorem isWholeIn_pinned_of_build_twoCases : ∃ r, build [twoCases] = .ok r ∧
    ∃ c ∈ Chain.ofDefinitions [twoCases], c.key = "t.b" ∧ c.layout ∈ r.layouts ∧ c.pinned = 0xF3 ∧
      c.fields.map Field.name = ["kind", "x"] ∧ ∀ f ∈ c.fields, f.slice.IsWholeIn c.pinned := by
  obtain ⟨r, hr⟩ : ∃ r, build [twoCases] = .ok r := ⟨_, rfl⟩
  obtain ⟨hacc, -, hlayouts⟩ := accepted_of_build hr
  let last : Shape := ⟨"b", 0xC0, 0x40, [⟨"x", ⟨8, 8, true⟩⟩]⟩
  let c : Chain := ⟨[⟨twoCases.label, ⟨"kind", 2⟩⟩], .leaf last⟩
  have hc : c ∈ Chain.ofDefinitions [twoCases] := List.mem_cons_of_mem _ List.mem_cons_self
  have hlayout : c.layout ∈ r.layouts := hlayouts.2 ⟨c, hc, rfl, rfl⟩
  obtain ⟨c', hc', -, hsame, hwhole⟩ := isWholeIn_pinned_of_build hr c.layout hlayout
  obtain rfl : c' = c := Chain.eq_of_layout_eq hacc.vetted hc' hc hsame
  refine ⟨r, hr, c, hc, rfl, hlayout, by decide +kernel, rfl, fun f hf => ?_⟩
  have hf : f = ⟨"kind", ⟨0, 2, false⟩⟩ ∨ f = ⟨"x", ⟨8, 8, true⟩⟩ := by
    simpa [c, last, Chain.fields, Chain.shapes, twoCases, Tree.label] using hf
  rcases hf with rfl | rfl
  · exact (hwhole [] twoCases.label [last] rfl _ List.mem_cons_self).2 (.inl List.mem_cons_self)
  · exact (hwhole [twoCases.label] last [] rfl _ List.mem_cons_self).2 (.inr (.inr (by decide)))

end Registry

/-- A format with a free field of four bits, and a case that fixes the lowest of them. -/
def partlyFixed : Definition :=
  .select ⟨"t", 0, 0, [⟨"x", ⟨0, 4, false⟩⟩, ⟨"kind", ⟨4, 1, false⟩⟩]⟩ "kind"
    [(0, .leaf ⟨"c", 1, 0, []⟩)]

/-- The case is accepted, and of the field's bits one is pinned and three are not. -/
theorem Registry.not_isWholeIn_partlyFixed : ∃ r, build [partlyFixed] = .ok r ∧
    ∃ c ∈ Chain.ofDefinitions [partlyFixed], c.isTerminal = true ∧ c.layout ∈ r.layouts ∧
      ∃ f ∈ c.layout.fields, ¬ f.slice.IsWholeIn c.pinned := by
  obtain ⟨r, hr⟩ : ∃ r, build [partlyFixed] = .ok r := ⟨_, rfl⟩
  obtain ⟨-, -, hlayouts⟩ := accepted_of_build hr
  let c : Chain := ⟨[⟨partlyFixed.label, ⟨"kind", 0⟩⟩], .leaf ⟨"c", 1, 0, []⟩⟩
  have hc : c ∈ Chain.ofDefinitions [partlyFixed] := List.mem_cons_of_mem _ List.mem_cons_self
  refine ⟨r, hr, c, hc, rfl, hlayouts.2 ⟨c, hc, rfl, rfl⟩, ⟨"x", ⟨0, 4, false⟩⟩,
    List.mem_cons_self, ?_⟩
  decide

end ShaderWord
