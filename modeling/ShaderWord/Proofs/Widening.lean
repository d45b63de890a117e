import Mathlib.Data.List.Forall2
import ShaderWord.Proofs.Care

/-!
# More formats and more cases

* `Tree.Widens t u` — `u` has the cases of `t` and perhaps others between them, at any depth;
* `Tree.WidensList ts us` — `us` has the trees of `ts`, widened, and perhaps others between them;
* `Chain.Widens c c'` — positions of two such trees with the same way down.

Every position of a list has its like in a wider one, so a list is accepted if a wider one is
(`Accepted.of_widens`), and what a terminal position admits it admits there as well. More formats and more cases
never change what a word decodes to, although nodes, roots, layouts and the sorted keys stand elsewhere
(`Registry.decode_eq_of_widens`).
-/

namespace ShaderWord

/-! ### Sublists up to a relation -/

section Sublists

variable {α β γ : Type} {R : α → β → Prop} {as : List α} {bs : List β}

theorem map_sublist_of_sublistForall₂ {f : α → γ} {g : β → γ} (h : List.SublistForall₂ R as bs)
    (hfg : ∀ a b, R a b → f a = g b) : (as.map f).Sublist (bs.map g) := by
  induction h with
  | nil => exact List.nil_sublist _
  | cons hab _ ih =>
    rw [List.map_cons, List.map_cons, hfg _ _ hab]
    exact ih.cons_cons _
  | cons_right _ ih => exact ih.cons _

theorem exists_of_sublistForall₂_left (h : List.SublistForall₂ R as bs) {a : α} (ha : a ∈ as) :
    ∃ b ∈ bs, R a b := by
  obtain ⟨between, hbetween, hsub⟩ := List.sublistForall₂_iff.1 h
  obtain ⟨b, hb, hR⟩ := exists_of_forall₂_left hbetween ha
  exact ⟨b, hsub.subset hb, hR⟩

end Sublists

/-! ### Wider trees -/

namespace Tree

variable {α : Type}

/-- The second tree has the cases of the first and perhaps others between them, at any depth. -/
inductive Widens : Tree α → Tree α → Prop where
  | leaf (a : α) : Widens (.leaf a) (.leaf a)
  | select (a : α) (field : String) {cases cases' : List (Word × Tree α)}
      (h : List.SublistForall₂ (AtKey Widens) cases cases') :
      Widens (.select a field cases) (.select a field cases')

/-- The second list has the trees of the first, widened, and perhaps others between them. -/
def WidensList (ts us : List (Tree α)) : Prop := List.SublistForall₂ Widens ts us

/-- The second list of cases has those of the first, widened, and perhaps others between them. -/
def WidensCases (cases cases' : List (Word × Tree α)) : Prop :=
  List.SublistForall₂ (AtKey Widens) cases cases'

variable {t u : Tree α} {ts us : List (Tree α)} {field : String} {cases cases' : List (Word × Tree α)}

namespace Widens

theorem label_eq (h : t.Widens u) : t.label = u.label := by
  cases h <;> rfl

theorem exists_selection (h : t.Widens u) (hsel : t.selection = some (field, cases)) :
    ∃ cases', u.selection = some (field, cases') ∧ WidensCases cases cases' := by
  cases h with
  | leaf a => cases hsel
  | select a field' hcases =>
    obtain ⟨rfl, rfl⟩ := Prod.mk.inj (Option.some.inj hsel)
    exact ⟨_, rfl, hcases⟩

theorem selection_eq_none (h : t.Widens u) (hsel : t.selection = none) : u.selection = none := by
  cases h with
  | leaf a => rfl
  | select a field hcases => cases hsel

theorem refl (t : Tree α) : t.Widens t := by
  induction t using Tree.induct with
  | leaf a => exact Widens.leaf a
  | select a field cases ih =>
    refine Widens.select a field (List.sublistForall₂_iff.2 ⟨cases, ?_, List.Sublist.refl cases⟩)
    exact List.forall₂_same.2 fun c hc => AtKey.mk c.1 (ih c hc)

end Widens

theorem WidensList.labels_sublist (h : WidensList ts us) :
    (ts.map Tree.label).Sublist (us.map Tree.label) :=
  map_sublist_of_sublistForall₂ h fun _ _ h => h.label_eq

/-- The keys and the labels of the cases are found in the wider cases. -/
theorem WidensCases.labels_sublist (h : WidensCases cases cases') :
    (cases.map fun c => (c.1, c.2.label)).Sublist (cases'.map fun c => (c.1, c.2.label)) := by
  refine map_sublist_of_sublistForall₂ h ?_
  rintro _ _ ⟨key, htu⟩
  exact Prod.ext rfl htu.label_eq

theorem WidensCases.exists_case (h : WidensCases cases cases') {key : Word} (ht : (key, t) ∈ cases) :
    ∃ u, (key, u) ∈ cases' ∧ t.Widens u := by
  obtain ⟨_, hmem, ⟨_, htu⟩⟩ := exists_of_sublistForall₂_left h ht
  exact ⟨_, hmem, htu⟩

end Tree

/-! ### Positions of wider trees -/

namespace Chain

/-- The ways down are the same, and what is below is widened. -/
structure Widens (c c' : Chain) : Prop where
  links : c.links = c'.links
  target : c.target.Widens c'.target

variable {ds ds' : List Definition} {d d' : Definition} {c c' : Chain} {w : Word}

theorem Widens.alike (h : c.Widens c') : c.Alike c' := ⟨h.links, h.target.label_eq⟩

theorem Alike.instruction_eq (h : c.Alike c') : c.instruction w = c'.instruction w := by
  rw [instruction, instruction, h.layout_eq, h.fields_eq]

/-- **Every position has its like in a wider definition.** -/
theorem exists_widens_of_widens (h : d.Widens d') :
    ∀ c ∈ ofDefinition d, ∃ c' ∈ ofDefinition d', c.Widens c' := by
  refine induct ⟨_, root_mem d', rfl, h⟩ ?_
  rintro c - shape field cases key child ht hmem ⟨c', hc', hwiden⟩
  obtain ⟨cases', hsel', hcases⟩ :=
    hwiden.target.exists_selection (Tree.selection_of_select ht)
  obtain ⟨child', hmem', hchild⟩ := hcases.exists_case hmem
  cases ht' : c'.target with
  | leaf shape' =>
    rw [ht'] at hsel'
    cases hsel'
  | select shape' field' cases'' =>
    obtain ⟨rfl, rfl⟩ : field' = field ∧ cases'' = cases' := by
      simpa [ht', Tree.selection] using hsel'
    exact ⟨_, extend_mem hc' ht' hmem', (hwiden.alike.extend _ hchild.label_eq).links, hchild⟩

theorem exists_widens (h : Tree.WidensList ds ds') (hc : c ∈ ofDefinitions ds) :
    ∃ c' ∈ ofDefinitions ds', c.Widens c' := by
  obtain ⟨d, hd, hcd⟩ := exists_of_mem_ofDefinitions hc
  obtain ⟨d', hd', hwiden⟩ := exists_of_sublistForall₂_left h hd
  obtain ⟨c', hc', hcc'⟩ := exists_widens_of_widens hwiden c hcd
  exact ⟨c', mem_ofDefinitions hd' hc', hcc'⟩

theorem exists_terminal (h : Tree.WidensList ds ds') (hc : c ∈ terminals ds) :
    ∃ c' ∈ terminals ds', c.Alike c' := by
  obtain ⟨hc, ht⟩ := mem_terminals.1 hc
  obtain ⟨c', hc', hwiden⟩ := exists_widens h hc
  have hsel : c.target.selection = none := by simpa [isTerminal] using ht
  have ht' : c'.isTerminal = true := by
    rw [isTerminal, hwiden.target.selection_eq_none hsel]
    rfl
  exact ⟨c', mem_terminals.2 ⟨hc', ht'⟩, hwiden.alike⟩

/-- Rules that are kept with more cases are kept without them. -/
theorem IsResolved.of_widens (h : c'.IsResolved) (hw : c.Widens c') : c.IsResolved := by
  refine h.of_alike hw.alike.symm fun field cases hsel => ?_
  obtain ⟨cases', hsel', hcases⟩ := hw.target.exists_selection hsel
  refine ⟨cases', hsel', ?_⟩
  rintro ⟨key, child⟩ hmem
  obtain ⟨child', hmem', -⟩ := hcases.exists_case hmem
  exact ⟨_, hmem', rfl⟩

end Chain

/-! ### What is accepted with more is accepted without -/

namespace Admission

variable {c c' : Chain} {field : String} {cases cases' : List (Word × Definition)}

theorem CasesApart.of_widens (h : CasesApart cases') (hw : Tree.WidensCases cases cases') :
    CasesApart cases where
  names := by
    rintro ⟨key, child⟩ hmem
    obtain ⟨child', hmem', hchild⟩ := hw.exists_case hmem
    show Key.IsName child.label.name
    rw [hchild.label_eq]
    exact h.names (key, child') hmem'
  keys_nodup := by
    have hkeys := hw.labels_sublist.map Prod.fst
    simp only [List.map_map] at hkeys
    exact h.keys_nodup.sublist hkeys
  names_nodup := by
    have hnames := hw.labels_sublist.map fun c => c.2.name
    simp only [List.map_map] at hnames
    exact h.names_nodup.sublist hnames

theorem SelectionVetted.of_widens (h : SelectionVetted [] c' field cases') (hc : c.Alike c')
    (hw : Tree.WidensCases cases cases') : SelectionVetted [] c field cases where
  short := hc.path_eq ▸ h.short
  fresh := hc.path_eq ▸ h.fresh
  apart := h.apart.of_widens hw

theorem Vetted.of_widens {ds ds' : List Definition} (h : Vetted ds') (hw : Tree.WidensList ds ds') :
    Vetted ds where
  names := by
    intro d hd
    obtain ⟨d', hd', hwiden⟩ := exists_of_sublistForall₂_left hw hd
    exact hwiden.label_eq ▸ h.names d' hd'
  within := by
    intro d hd
    obtain ⟨d', hd', hwiden⟩ := exists_of_sublistForall₂_left hw hd
    exact hwiden.label_eq ▸ h.within d' hd'
  names_nodup := by
    have hnames := hw.labels_sublist.map Shape.name
    simp only [List.map_map] at hnames
    exact h.names_nodup.sublist hnames
  disagree := by
    have hpairs : (ds'.map Tree.label).Pairwise fun a b => ¬ a.pin.Agrees b.pin :=
      List.pairwise_map.2 h.disagree
    exact List.pairwise_map.1 (hpairs.sublist hw.labels_sublist)
  selections := by
    intro c hc field cases hsel
    obtain ⟨c', hc', hwiden⟩ := Chain.exists_widens hw hc
    obtain ⟨cases', hsel', hcases⟩ := hwiden.target.exists_selection hsel
    exact (h.selections c' hc' field cases' hsel').of_widens hwiden.alike hcases

end Admission

/-- **A list is accepted if a wider one is.** -/
theorem Accepted.of_widens {ds ds' : List Definition} (h : Accepted ds')
    (hw : Tree.WidensList ds ds') : Accepted ds where
  vetted := h.vetted.of_widens hw
  resolved := by
    intro c hc
    obtain ⟨c', hc', hwiden⟩ := Chain.exists_widens hw hc
    exact (h.resolved c' hc').of_widens hwiden

namespace Registry

variable {ds ds' : List Definition} {r' : Registry}

/-- **More formats and more cases change nothing that decodes.** If a list with additional formats and, at any
depth, additional cases is built, so is the list without them, and every word that the latter decodes is
decoded to the same instruction by the former. -/
theorem decode_eq_of_widens (hw : Tree.WidensList ds ds') (h' : build ds' = .ok r') :
    ∃ r, build ds = .ok r ∧ ∀ w inst, r.decode w = .ok inst → r'.decode w = .ok inst := by
  have hacc : Accepted ds := (accepted_of_build h').1.of_widens hw
  obtain ⟨r, h⟩ := exists_build_iff.2 hacc
  refine ⟨r, h, fun w inst hinst => ?_⟩
  obtain ⟨c, hc, hadmits, -⟩ := exists_admits_of_decode h hinst
  obtain rfl : c.instruction w = inst :=
    Except.ok.inj ((decode_eq_of_admits h hc hadmits).symm.trans hinst)
  obtain ⟨c', hc', halike⟩ := Chain.exists_terminal hw hc
  rw [decode_eq_of_admits h' hc' (halike.admits_iff.1 hadmits), halike.instruction_eq]

end Registry

/-- One format with one case, which has one case in turn. -/
def nestedNames : List Definition :=
  [.select ⟨"a", 8, 8, [⟨"k", ⟨0, 1, false⟩⟩]⟩ "k" [(1, nestedCase)]]

/-- The format of `nestedNames` between two others, with one more case before each of its cases. -/
def widenedNames : List Definition :=
  [.leaf ⟨"c", 12, 4, []⟩,
    .select ⟨"a", 8, 8, [⟨"k", ⟨0, 1, false⟩⟩]⟩ "k"
      [(0, .leaf ⟨"a", 0, 0, []⟩),
        (1, .select ⟨"b", 0, 0, [⟨"j", ⟨1, 1, false⟩⟩]⟩ "j"
          [(1, .leaf ⟨"c", 0, 0, []⟩), (0, .leaf ⟨"a", 0, 0, []⟩)])],
    .leaf ⟨"b", 12, 0, []⟩]

/-- The word 9 decodes to `a.b.a`. -/
theorem Registry.decode_eq_of_widens_nestedNames : Tree.WidensList nestedNames widenedNames ∧
    ∃ r r' inst, build nestedNames = .ok r ∧ build widenedNames = .ok r' ∧
      r.decode 9 = .ok inst ∧ r'.decode 9 = .ok inst := by
  have hcase : nestedCase.Widens (.select ⟨"b", 0, 0, [⟨"j", ⟨1, 1, false⟩⟩]⟩ "j"
      [(1, .leaf ⟨"c", 0, 0, []⟩), (0, .leaf ⟨"a", 0, 0, []⟩)]) :=
    .select _ _ (.cons_right (.cons (.mk 0 (.refl _)) .nil))
  have hw : Tree.WidensList nestedNames widenedNames :=
    .cons_right (.cons (.select _ _ (.cons_right (.cons (.mk 1 hcase) .nil))) .nil)
  obtain ⟨r', h'⟩ : ∃ r', build widenedNames = .ok r' := ⟨_, rfl⟩
  obtain ⟨r, h, hdecode⟩ := decode_eq_of_widens hw h'
  obtain ⟨inst, hinst⟩ : ∃ inst, r.decode 9 = .ok inst := by
    rw [(accepted_of_build h).2.1]
    exact ⟨_, rfl⟩
  exact ⟨hw, r, r', inst, h, h', hinst, hdecode 9 inst hinst⟩

end ShaderWord
