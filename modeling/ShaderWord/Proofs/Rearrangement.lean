import Mathlib.Data.List.Perm.Basic
import ShaderWord.Proofs.Traces

/-!
# The order of formats and cases does not matter

* `Tree.Rearranges t u` — the trees differ in nothing but the order of cases, at any depth;
* `Tree.RearrangesList ts us` — the lists differ in nothing but that and their own order;
* `Chain.Matches c c'` — positions of two such trees with the same way down.

Definitions that are rearranged have matching positions, so the same lists of them are accepted
(`Accepted.rearranged`) and the same is reported of every word (`Registry.trace_eq_of_rearranges`), although nodes,
roots and layouts stand in another order.
-/

namespace ShaderWord

/-! ### Rearranged trees -/

namespace Tree

variable {α : Type}

/-- The trees differ in nothing but the order of cases, at any depth. -/
inductive Rearranges : Tree α → Tree α → Prop where
  | leaf (a : α) : Rearranges (.leaf a) (.leaf a)
  /-- The cases between have the keys of `cases` in their order, and the trees rearranged. -/
  | select (a : α) (field : String) {cases between cases' : List (Word × Tree α)}
      (keys : cases.map Prod.fst = between.map Prod.fst)
      (trees : List.Forall₂ Rearranges (cases.map Prod.snd) (between.map Prod.snd))
      (order : between.Perm cases') : Rearranges (.select a field cases) (.select a field cases')

/-- The lists differ in nothing but their order and the order of cases, at any depth. -/
def RearrangesList (ts us : List (Tree α)) : Prop :=
  ∃ between, List.Forall₂ Rearranges ts between ∧ between.Perm us

/-- The cases have one key, and the trees are rearranged. -/
def RearrangesCase (c d : Word × Tree α) : Prop := c.1 = d.1 ∧ c.2.Rearranges d.2

variable {t u : Tree α} {ts us : List (Tree α)} {a : α} {field : String}
  {cases cases' : List (Word × Tree α)}

theorem forall₂_rearrangesCase_iff {between : List (Word × Tree α)} :
    List.Forall₂ RearrangesCase cases between ↔ cases.map Prod.fst = between.map Prod.fst ∧
      List.Forall₂ Rearranges (cases.map Prod.snd) (between.map Prod.snd) := by
  rw [← List.forall₂_eq_eq_eq]
  simp only [List.forall₂_map_left_iff, List.forall₂_map_right_iff]
  constructor
  · intro h
    exact ⟨h.imp fun _ _ hc => hc.1, h.imp fun _ _ hc => hc.2⟩
  · rintro ⟨hkeys, htrees⟩
    induction hkeys with
    | nil => exact List.Forall₂.nil
    | cons hkey _ ih =>
      obtain ⟨htree, htrees⟩ := List.forall₂_cons.1 htrees
      exact List.Forall₂.cons ⟨hkey, htree⟩ (ih htrees)

theorem Rearranges.label_eq (h : t.Rearranges u) : t.label = u.label := by
  cases h <;> rfl

theorem rearranges_select_iff : (Tree.select a field cases).Rearranges u ↔
    ∃ between cases', List.Forall₂ RearrangesCase cases between ∧ between.Perm cases' ∧
      u = .select a field cases' := by
  constructor
  · intro h
    cases h with
    | select _ _ keys trees order =>
      exact ⟨_, _, forall₂_rearrangesCase_iff.2 ⟨keys, trees⟩, order, rfl⟩
  · rintro ⟨between, cases', hcases, order, rfl⟩
    obtain ⟨keys, trees⟩ := forall₂_rearrangesCase_iff.1 hcases
    exact Rearranges.select a field keys trees order

theorem Rearranges.refl (t : Tree α) : t.Rearranges t := by
  induction t using Tree.induct with
  | leaf a => exact Rearranges.leaf a
  | select a field cases ih =>
    have hcases : List.Forall₂ RearrangesCase cases cases :=
      List.forall₂_same.2 fun c hc => ⟨rfl, ih c hc⟩
    exact rearranges_select_iff.2 ⟨cases, cases, hcases, List.Perm.refl _, rfl⟩

theorem Rearranges.symm (h : t.Rearranges u) : u.Rearranges t := by
  induction t using Tree.induct generalizing u with
  | leaf a =>
    cases h
    exact Rearranges.leaf a
  | select a field cases ih =>
    obtain ⟨between, cases', hcases, order, rfl⟩ := rearranges_select_iff.1 h
    have hback : List.Forall₂ RearrangesCase between cases := by
      refine List.Forall₂.flip (List.forall₂_iff_get.2 ?_)
      obtain ⟨hlen, hget⟩ := List.forall₂_iff_get.1 hcases
      refine ⟨hlen, fun i hi hi' => ?_⟩
      obtain ⟨hkey, htree⟩ := hget i hi hi'
      exact ⟨hkey.symm, ih _ (List.get_mem _ _) htree⟩
    obtain ⟨between', hcases', order'⟩ := List.perm_comp_forall₂ order.symm hback
    exact rearranges_select_iff.2 ⟨between', cases, hcases', order', rfl⟩

theorem RearrangesList.symm (h : RearrangesList ts us) : RearrangesList us ts := by
  obtain ⟨between, htrees, order⟩ := h
  have hback : List.Forall₂ Rearranges between ts :=
    (htrees.imp fun _ _ h => h.symm).flip
  exact List.perm_comp_forall₂ order.symm hback

theorem RearrangesList.exists_left (h : RearrangesList ts us) (hu : u ∈ us) :
    ∃ t ∈ ts, t.Rearranges u := by
  obtain ⟨between, htrees, order⟩ := h
  exact exists_of_forall₂_right htrees (order.mem_iff.2 hu)

theorem RearrangesList.labels (h : RearrangesList ts us) :
    (ts.map Tree.label).Perm (us.map Tree.label) := by
  obtain ⟨between, htrees, order⟩ := h
  have hlabels : ts.map Tree.label = between.map Tree.label :=
    List.forall₂_eq_eq_eq ▸ List.forall₂_map_left_iff.2
      (List.forall₂_map_right_iff.2 (htrees.imp fun _ _ h => h.label_eq))
  rw [hlabels]
  exact order.map _

/-- What rearranged cases have in common: the keys, and at each key the label. -/
theorem Rearranges.cases_perm (h : (Tree.select a field cases).Rearranges (.select a field cases')) :
    (cases.map fun c => (c.1, c.2.label)).Perm (cases'.map fun c => (c.1, c.2.label)) := by
  obtain ⟨between, cases'', hcases, order, heq⟩ := rearranges_select_iff.1 h
  obtain ⟨-, -, rfl⟩ := Tree.select.inj heq
  have hsame : cases.map (fun c => (c.1, c.2.label)) = between.map fun c => (c.1, c.2.label) := by
    rw [← List.forall₂_eq_eq_eq, List.forall₂_map_left_iff, List.forall₂_map_right_iff]
    exact hcases.imp fun c d hcd => Prod.ext hcd.1 hcd.2.label_eq
  rw [hsame]
  exact order.map _

theorem Rearranges.exists_case (h : (Tree.select a field cases).Rearranges (.select a field cases'))
    {key : Word} (hu : (key, u) ∈ cases') : ∃ t, (key, t) ∈ cases ∧ t.Rearranges u := by
  obtain ⟨between, cases'', hcases, order, heq⟩ := rearranges_select_iff.1 h
  obtain ⟨-, -, rfl⟩ := Tree.select.inj heq
  obtain ⟨⟨key', t⟩, ht, rfl, htu⟩ := exists_of_forall₂_right hcases (order.mem_iff.2 hu)
  exact ⟨t, ht, htu⟩

end Tree

/-! ### Matching positions -/

namespace Chain

/-- The ways down are the same, and what is below is rearranged. -/
structure Matches (c c' : Chain) : Prop where
  links : c.links = c'.links
  target : c.target.Rearranges c'.target

variable {ds ds' : List Definition} {d d' : Definition} {c c' : Chain} {w : Word} {field : String}
  {cases cases' : List (Word × Definition)}

namespace Matches

theorem symm (h : c.Matches c') : c'.Matches c := ⟨h.links.symm, h.target.symm⟩

theorem alike (h : c.Matches c') : c.Alike c' := ⟨h.links, h.target.label_eq⟩

theorem exists_selection (h : c.Matches c') (hsel : c'.target.selection = some (field, cases')) :
    ∃ shape cases, c.target = .select shape field cases ∧ c'.target = .select shape field cases' ∧
      (Tree.select shape field cases).Rearranges (.select shape field cases') := by
  cases ht : c'.target with
  | leaf shape =>
    rw [ht] at hsel
    cases hsel
  | select shape field' cases'' =>
    obtain ⟨rfl, rfl⟩ : field' = field ∧ cases'' = cases' := by
      simpa [ht, Tree.selection] using hsel
    have hback : (Tree.select shape field' cases'').Rearranges c.target := ht ▸ h.target.symm
    obtain ⟨_, cases, -, -, hc⟩ := Tree.rearranges_select_iff.1 hback
    refine ⟨shape, cases, hc, rfl, ?_⟩
    rw [← hc, ← ht]
    exact h.target

/-- Where a word ends at one position it ends at the other. -/
theorem endsAt (h : c.Matches c') (hw : c.EndsAt w) : c'.EndsAt w where
  admits := h.alike.admits_iff.1 hw.admits
  stuck := by
    intro field cases' hsel f hf child hmem
    obtain ⟨shape, cases, ht, -, hcases⟩ := h.exists_selection hsel
    obtain ⟨child', hmem', hchild⟩ := hcases.exists_case hmem
    rw [← hchild.label_eq]
    exact hw.stuck field cases (Tree.selection_of_select ht) f (by rw [h.alike.field?_eq, hf]) child' hmem'

theorem report_eq (h : c.Matches c') : c.report w = c'.report w := by
  have hending : c.ending w = c'.ending w := by
    unfold ending
    cases hsel : c'.target.selection with
    | none =>
      have hnone : c.target.selection = none := by
        cases hsel' : c.target.selection with
        | none => rfl
        | some selection =>
          obtain ⟨shape, cases, ht, -, -⟩ := h.symm.exists_selection hsel'
          rw [Tree.selection_of_select ht] at hsel
          cases hsel
      rw [hnone]
      simp only [h.alike.layout_eq]
    | some selection =>
      obtain ⟨shape, cases, ht, -, -⟩ := h.exists_selection hsel
      rw [Tree.selection_of_select ht]
      simp only [h.alike.layout_eq, h.alike.field?_eq]
  rw [report, report, hending, h.alike.path_eq, h.alike.layout_eq]

end Matches

/-- **Every position of a rearranged definition matches one of the definition.** -/
theorem exists_matches_of_rearranges (h : d.Rearranges d') :
    ∀ c' ∈ ofDefinition d', ∃ c ∈ ofDefinition d, c.Matches c' := by
  refine induct ⟨_, root_mem d, rfl, h⟩ ?_
  rintro c' - shape field cases' key child' ht' hmem' ⟨c, hc, hmatch⟩
  obtain ⟨shape', cases, ht, -, hcases⟩ :=
    hmatch.exists_selection (Tree.selection_of_select ht')
  obtain ⟨child, hmem, hchild⟩ := hcases.exists_case hmem'
  exact ⟨_, extend_mem hc ht hmem, (hmatch.alike.extend _ hchild.label_eq).links, hchild⟩

theorem exists_matches (h : Tree.RearrangesList ds ds') (hc' : c' ∈ ofDefinitions ds') :
    ∃ c ∈ ofDefinitions ds, c.Matches c' := by
  obtain ⟨d', hd', hcd'⟩ := exists_of_mem_ofDefinitions hc'
  obtain ⟨d, hd, hrearr⟩ := h.exists_left hd'
  obtain ⟨c, hc, hmatch⟩ := exists_matches_of_rearranges hrearr c' hcd'
  exact ⟨c, mem_ofDefinitions hd hc, hmatch⟩

/-! ### Rules at matching positions -/

theorem IsResolved.of_matches (h : c.IsResolved) (hm : c.Matches c') : c'.IsResolved := by
  refine h.of_alike hm.alike fun field cases' hsel => ?_
  obtain ⟨shape, cases, ht, -, hcases⟩ := hm.exists_selection hsel
  refine ⟨cases, Tree.selection_of_select ht, ?_⟩
  rintro ⟨key, child'⟩ hmem'
  obtain ⟨child, hmem, -⟩ := hcases.exists_case hmem'
  exact ⟨_, hmem, rfl⟩

end Chain

namespace Admission

variable {c c' : Chain} {field : String} {cases cases' : List (Word × Definition)} {shape : Shape}

theorem CasesApart.of_rearranges (h : CasesApart cases)
    (hcases : (Tree.select shape field cases).Rearranges (.select shape field cases')) :
    CasesApart cases' where
  names := by
    rintro ⟨key, child'⟩ hmem'
    obtain ⟨child, hmem, hchild⟩ := hcases.exists_case hmem'
    rw [← hchild.label_eq]
    exact h.names (key, child) hmem
  keys_nodup := by
    have hkeys := hcases.cases_perm.map Prod.fst
    simp only [List.map_map] at hkeys
    exact hkeys.nodup_iff.1 h.keys_nodup
  names_nodup := by
    have hnames := hcases.cases_perm.map fun c => c.2.name
    simp only [List.map_map] at hnames
    exact hnames.nodup_iff.1 h.names_nodup

end Admission

/-- **Rearranged definitions are accepted together.** -/
theorem Accepted.rearranged {ds ds' : List Definition} (h : Accepted ds)
    (hr : Tree.RearrangesList ds ds') : Accepted ds' where
  vetted := by
    have hlabels := hr.labels
    have hnames := hlabels.map Shape.name
    simp only [List.map_map] at hnames
    refine ⟨fun d' hd' => ?_, fun d' hd' => ?_, hnames.nodup_iff.1 h.vetted.names_nodup, ?_, ?_⟩
    · obtain ⟨d, hd, hrearr⟩ := hr.exists_left hd'
      exact hrearr.label_eq ▸ h.vetted.names d hd
    · obtain ⟨d, hd, hrearr⟩ := hr.exists_left hd'
      exact hrearr.label_eq ▸ h.vetted.within d hd
    · have hpairs : (ds.map Tree.label).Pairwise fun a b => ¬ a.pin.Agrees b.pin :=
        List.pairwise_map.2 h.vetted.disagree
      exact List.pairwise_map.1
        (hpairs.perm hlabels fun hne hagrees => hne hagrees.symm)
    · intro c' hc' field cases' hsel
      obtain ⟨c, hc, hm⟩ := Chain.exists_matches hr hc'
      obtain ⟨shape, cases, ht, -, hcases⟩ := hm.exists_selection hsel
      obtain ⟨hshort, hfresh, hapart⟩ :=
        h.vetted.selections c hc field cases (Tree.selection_of_select ht)
      exact ⟨hm.alike.path_eq ▸ hshort, hm.alike.path_eq ▸ hfresh, hapart.of_rearranges hcases⟩
  resolved := by
    intro c' hc'
    obtain ⟨c, hc, hm⟩ := Chain.exists_matches hr hc'
    exact (h.resolved c hc).of_matches hm

namespace Registry

variable {ds ds' : List Definition} {r r' : Registry}

/-- **The same is reported of every word**, whatever the order. -/
theorem trace_eq_of_rearranges (hr : Tree.RearrangesList ds ds') (h : build ds = .ok r)
    (h' : build ds' = .ok r') (w : Word) : r.trace w = r'.trace w := by
  have hacc := (accepted_of_build h).1
  by_cases hd : ∃ d ∈ ds, d.label.accepts w = true
  · obtain ⟨d, hd, haccept⟩ := hd
    obtain ⟨c, hcd, hend⟩ := Chain.exists_endsAt hacc hd haccept
    have hc := Chain.mem_ofDefinitions hd hcd
    obtain ⟨c', hc', hm⟩ := Chain.exists_matches hr.symm hc
    rw [trace_eq_report h hc hend, trace_eq_report h' hc' (hm.symm.endsAt hend), hm.report_eq]
  · have hrefused : ∀ d ∈ ds, d.label.accepts w = false := by simpa using hd
    have hrefused' : ∀ d' ∈ ds', d'.label.accepts w = false := by
      intro d' hd'
      obtain ⟨d, hd, hrearr⟩ := hr.exists_left hd'
      exact hrearr.label_eq ▸ hrefused d hd
    rw [trace_eq_of_refused h hrefused, trace_eq_of_refused h' hrefused']

/-- **Decoding does not depend on the order of declaration.** Of lists that differ in nothing but the order of
formats and, at any depth, of cases, both are built or neither is, and then every word is decoded to the
same instruction or is refused with the same error. -/
theorem decode_eq_of_rearranges (hr : Tree.RearrangesList ds ds') :
    ((∃ r, build ds = .ok r) ↔ ∃ r', build ds' = .ok r') ∧
      ∀ r r', build ds = .ok r → build ds' = .ok r' → ∀ w, r.decode w = r'.decode w := by
  refine ⟨?_, fun r r' h h' w => ?_⟩
  · rw [exists_build_iff, exists_build_iff]
    exact ⟨fun h => h.rearranged hr, fun h => h.rearranged hr.symm⟩
  · have hdecode : ∀ r : Registry, r.decode w = (r.trace w).read .blank := fun _ => rfl
    rw [hdecode, hdecode, trace_eq_of_rearranges hr h h']

end Registry

/-- The formats of `reusedNames`, and the cases of the first, in another order. -/
def reorderedNames : List Definition :=
  [.leaf ⟨"b", 8, 0, []⟩,
    .select ⟨"a", 8, 8, [⟨"k", ⟨0, 1, false⟩⟩]⟩ "k" [(1, nestedCase), (0, .leaf ⟨"a", 0, 0, []⟩)]]

/-- The word 9 decodes to `a.b.a` in either order. -/
theorem Registry.decode_eq_of_rearranges_reusedNames :
    Tree.RearrangesList reusedNames reorderedNames ∧ ∃ r r' inst, build reusedNames = .ok r ∧
      build reorderedNames = .ok r' ∧ r.decode 9 = .ok inst ∧ inst.key = "a.b.a" ∧
        r'.decode 9 = .ok inst := by
  have hcases : (Tree.select ⟨"a", 8, 8, [⟨"k", ⟨0, 1, false⟩⟩]⟩ "k"
      [(0, .leaf ⟨"a", 0, 0, []⟩), (1, nestedCase)]).Rearranges
        (.select ⟨"a", 8, 8, [⟨"k", ⟨0, 1, false⟩⟩]⟩ "k"
          [(1, nestedCase), (0, .leaf ⟨"a", 0, 0, []⟩)]) := by
    refine Tree.rearranges_select_iff.2 ⟨_, _, ?_, List.Perm.swap _ _ _, rfl⟩
    exact List.forall₂_same.2 fun c _ => ⟨rfl, Tree.Rearranges.refl c.2⟩
  have hr : Tree.RearrangesList reusedNames reorderedNames := by
    refine ⟨_, List.Forall₂.cons hcases (List.Forall₂.cons (Tree.Rearranges.refl _) ?_),
      List.Perm.swap _ _ _⟩
    exact List.Forall₂.nil
  obtain ⟨r, h⟩ : ∃ r, build reusedNames = .ok r := ⟨_, rfl⟩
  obtain ⟨hboth, hdecode⟩ := decode_eq_of_rearranges hr
  obtain ⟨r', h'⟩ := hboth.1 ⟨r, h⟩
  obtain ⟨inst, hinst, hkey⟩ : ∃ inst, r.decode 9 = .ok inst ∧ inst.key = "a.b.a" := by
    rw [(accepted_of_build h).2.1]
    exact ⟨_, rfl, rfl⟩
  exact ⟨hr, r, r', inst, h, h', hinst, hkey, (hdecode r r' h h' 9).symm.trans hinst⟩

end ShaderWord
