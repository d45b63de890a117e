import Mathlib.Data.List.Nodup
import ShaderWord.Proofs.Resolution
import ShaderWord.Registry

/-!
# Layouts and positions

The layouts of a registry are those of the terminal positions, in declaration order
(`Registry.layouts_ofPlans`). Where formats have different names and cases different keys a layout tells
its position (`Chain.eq_of_layout_eq`).
-/

namespace ShaderWord

/-! ### The layouts of a registry -/

namespace Chain

variable {c : Chain}

theorem layout_eq_of_records {s : Settled} {format : String} (h : s.Records c.trail)
    (hformat : c.names.head? = some format) : s.layout format = c.layout := by
  have hnames : s.names = c.names := h.names
  have hfields : s.fields = c.fields := h.fields
  have hpath : s.path = c.path := h.path
  unfold Settled.layout layout key
  rw [hnames, hfields, hpath, hformat]
  rfl

/-- The layouts of the terminal chains that go on from a position. -/
def layoutsFrom (c : Chain) (d : Definition) : List Layout :=
  ((ofDefinition d).filter isTerminal).map fun c' => (c.append c').layout

theorem layoutsFrom_leaf {shape : Shape} (h : c.target = .leaf shape) :
    c.layoutsFrom (.leaf shape) = [c.layout] := by
  have hroot : c.append ⟨[], .leaf shape⟩ = c := by rw [← h, append_root]
  change [(c.append ⟨[], .leaf shape⟩).layout] = [c.layout]
  rw [hroot]

theorem layoutsFrom_ofCases {shape : Shape} {field : String} {cases : List (Word × Definition)}
    (hlabel : c.target.label = shape) :
    ((ofCases shape field cases).filter isTerminal).map (fun c' => (c.append c').layout) =
      cases.flatMap fun p => (c.extend ⟨field, p.1⟩ p.2).layoutsFrom p.2 := by
  induction cases with
  | nil => rfl
  | cons head rest ih =>
    obtain ⟨key, child⟩ := head
    have hbelow : ∀ c' : Chain, c.append (c'.below ⟨shape, ⟨field, key⟩⟩) =
        (c.extend ⟨field, key⟩ child).append c' := fun c' => by
      rw [← hlabel, append_below c ⟨field, key⟩ child]
    rw [ofCases, List.filter_append, List.map_append, ih, List.flatMap_cons, layoutsFrom,
      List.filter_map, List.map_map]
    congr 1
    refine List.map_congr_left fun c' _ => ?_
    rw [Function.comp_apply, hbelow]

theorem layoutsFrom_select {shape : Shape} {field : String} {cases : List (Word × Definition)}
    (hlabel : c.target.label = shape) :
    c.layoutsFrom (.select shape field cases) =
      cases.flatMap fun p => (c.extend ⟨field, p.1⟩ p.2).layoutsFrom p.2 := by
  rw [← layoutsFrom_ofCases hlabel]
  simp [layoutsFrom, ofDefinition, isTerminal, Tree.selection]

end Chain

namespace Plan

theorem layoutsOfCases_eq (ps : List (Word × Plan)) :
    layoutsOfCases ps = ps.flatMap fun p => p.2.layouts := by
  induction ps with
  | nil => rfl
  | cons p rest ih => rw [layoutsOfCases, ih, List.flatMap_cons]

lemma flatMap_eq_of_forall₂ {α β γ : Type} {R : α → β → Prop} {as : List α} {bs : List β}
    {f : α → List γ} {g : β → List γ} (h : List.Forall₂ R as bs)
    (hR : ∀ a ∈ as, ∀ b, R a b → g b = f a) : bs.flatMap g = as.flatMap f := by
  induction h with
  | nil => rfl
  | @cons a b as bs hab _ ih =>
    obtain ⟨ha, hR⟩ := List.forall_mem_cons.1 hR
    rw [List.flatMap_cons, List.flatMap_cons, ha b hab, ih hR]

/-- The layouts of a plan are those of the terminal chains that go on from where it was resolved. -/
theorem layouts_of_resolve {format : String} {s : Settled} {c : Chain} {p : Plan}
    (hs : s.Records c.above) (hformat : c.names.head? = some format)
    (h : resolve format s c.target = .ok p) : p.layouts = c.layoutsFrom c.target := by
  generalize ht : c.target = t at h
  induction t using Tree.induct generalizing c s p with
  | leaf shape =>
    obtain ⟨htakes, rfl⟩ := resolve_leaf_eq_ok_iff.1 h
    have hrec : (s.after shape).Records c.trail := by
      rw [Chain.trail_eq_enter, Tree.label_of_leaf ht]
      exact hs.enter htakes
    rw [layouts, Chain.layoutsFrom_leaf ht, Chain.layout_eq_of_records hrec hformat]
  | select shape field cases ih =>
    rw [← ht] at h
    obtain ⟨hrec, f, hf, rfl, hu, ps, hps, rfl⟩ := Chain.exists_of_resolve_select hs ht h
    rw [layouts, layoutsOfCases_eq, Chain.layoutsFrom_select (Tree.label_of_select ht)]
    refine flatMap_eq_of_forall₂ hps fun q hq p hp => ?_
    obtain ⟨-, hfit, hp⟩ := hp
    have hbelow := Chain.records_extend q.2 hrec hf hu hfit
    have hhead : (c.extend ⟨f.name, q.1⟩ q.2).names.head? = some format := by
      rw [Chain.names_extend, List.head?_append, hformat]
      rfl
    exact ih q hq hbelow hhead rfl hp

end Plan

/-- **The layouts of a registry are those of its terminal positions**, in declaration order. -/
theorem Registry.layouts_ofPlans {ds : List Definition} {plans : List Plan}
    (h : Plan.ofDefinitions ds = .ok plans) :
    (Registry.ofPlans ds plans).layouts =
      ((Chain.ofDefinitions ds).filter Chain.isTerminal).map Chain.layout := by
  have hplans : plans.flatMap Plan.layouts =
      ds.flatMap fun d => (⟨[], d⟩ : Chain).layoutsFrom d :=
    Plan.flatMap_eq_of_forall₂ (Plan.ofDefinitions_eq_ok_iff.1 h) fun d _ p hp =>
      Plan.layouts_of_resolve (c := ⟨[], d⟩) Settled.Records.empty rfl hp
  change plans.flatMap Plan.layouts = _
  rw [hplans, Chain.ofDefinitions, List.filter_flatMap, List.map_flatMap]
  rfl

/-! ### A layout tells its position -/

namespace Chain

/-- Where cases have different keys the choices tell the position. -/
theorem eq_of_path_eq {d : Definition}
    (hd : ∀ c ∈ ofDefinition d, ∀ field cases, c.target.selection = some (field, cases) →
      (cases.map Prod.fst).Nodup) {c c' : Chain} (hc : c ∈ ofDefinition d)
    (hc' : c' ∈ ofDefinition d) (h : c.path = c'.path) : c = c' := by
  induction d using Tree.induct generalizing c c' with
  | leaf shape =>
    obtain rfl : c = ⟨[], .leaf shape⟩ := by simpa [ofDefinition] using hc
    obtain rfl : c' = ⟨[], .leaf shape⟩ := by simpa [ofDefinition] using hc'
    rfl
  | select shape field cases ih =>
    have hkeys := hd _ (root_mem _) field cases rfl
    rcases mem_ofDefinition.1 hc with rfl | ⟨_, _, _, key, child, heq, hmem, b, hb, rfl⟩
    · rcases mem_ofDefinition.1 hc' with rfl | ⟨_, _, _, key', child', heq', hmem', b', hb', rfl⟩
      · rfl
      · cases h
    · obtain ⟨rfl, rfl, rfl⟩ := Tree.select.inj heq
      rcases mem_ofDefinition.1 hc' with rfl | ⟨_, _, _, key', child', heq', hmem', b', hb', rfl⟩
      · cases h
      · obtain ⟨rfl, rfl, rfl⟩ := Tree.select.inj heq'
        obtain ⟨hchoice, hpath⟩ := List.cons.inj h
        obtain rfl : key = key' := (Choice.mk.inj hchoice).2
        obtain ⟨-, rfl⟩ := Prod.mk.inj (List.inj_on_of_nodup_map hkeys hmem hmem' rfl)
        have hbelow : ∀ a ∈ ofDefinition child, ∀ field' cases',
            a.target.selection = some (field', cases') → (cases'.map Prod.fst).Nodup :=
          fun a ha => hd (a.below ⟨shape, ⟨field, key⟩⟩) (below_mem hmem ha)
        rw [ih _ hmem hbelow hb hb' hpath]

/-- **A layout tells its position** in definitions that have been admitted. -/
theorem eq_of_layout_eq {ds : List Definition} (hv : Admission.Vetted ds) {c c' : Chain}
    (hc : c ∈ ofDefinitions ds) (hc' : c' ∈ ofDefinitions ds) (h : c.layout = c'.layout) :
    c = c' := by
  obtain ⟨d, hd, hcd⟩ := exists_of_mem_ofDefinitions hc
  obtain ⟨d', hd', hcd'⟩ := exists_of_mem_ofDefinitions hc'
  obtain ⟨-, hformat, hpath, -⟩ := Layout.mk.inj h
  rw [head?_names hcd, head?_names hcd', Option.getD_some, Option.getD_some] at hformat
  obtain rfl : d = d' := List.inj_on_of_nodup_map hv.names_nodup hd hd' hformat
  refine eq_of_path_eq (fun a ha field cases hsel => ?_) hcd hcd' hpath
  exact (hv.selections a (mem_ofDefinitions hd ha) field cases hsel).apart.keys_nodup

end Chain

end ShaderWord
