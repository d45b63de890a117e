import ShaderWord.Proofs.Layouts
import ShaderWord.Proofs.Refinement

/-!
# What a build accepts

A list of definitions is built if and only if it is `Accepted` (`Registry.exists_build_iff`), that is, if its
formats are vetted and each position keeps to its rules. What is built then decodes as the definitions
are read, and has the layouts of their terminal positions (`Registry.accepted_of_build`). On the way to a
position there are at most eight choices (`Chain.length_links_le`), no two by one field
(`Chain.nodup_path_fields`).
-/

namespace ShaderWord

/-- Definitions that keep to the rules of admission and of resolution. -/
structure Accepted (ds : List Definition) : Prop where
  vetted : Admission.Vetted ds
  resolved : ∀ c ∈ Chain.ofDefinitions ds, c.IsResolved

namespace Chain

variable {ds : List Definition} {d : Definition} {c : Chain}

theorem length_links_le (hv : Admission.Vetted ds) (hd : d ∈ ds) :
    ∀ c ∈ ofDefinition d, c.links.length ≤ chainLimit := by
  refine induct (Nat.zero_le _) ?_
  intro c hc shape field cases key child ht _ _
  have hshort := (hv.selections c (mem_ofDefinitions hd hc) field cases (Tree.selection_of_select ht)).short
  rw [links_extend, List.length_append, List.length_singleton]
  simp only [path, List.length_map, List.length_nil, Nat.zero_add] at hshort
  exact hshort

theorem nodup_path_fields (hv : Admission.Vetted ds) (hc : c ∈ ofDefinitions ds) :
    (c.path.map Choice.field).Nodup := by
  obtain ⟨d, hd, hcd⟩ := exists_of_mem_ofDefinitions hc
  refine induct (P := fun c => (c.path.map Choice.field).Nodup) List.nodup_nil ?_ c hcd
  intro c hc shape field cases key child ht _ ih
  have hfresh := (hv.selections c (mem_ofDefinitions hd hc) field cases
    (Tree.selection_of_select ht)).fresh.2
  rw [path_extend, List.map_append, List.nodup_append]
  refine ⟨ih, by simp, ?_⟩
  intro a ha b hb hab
  obtain rfl : b = field := by simpa using hb
  exact hfresh (hab ▸ ha)

end Chain

namespace Accepted

variable {ds : List Definition} {c : Chain} {field : String} {cases : List (Word × Definition)}

theorem keys_nodup (h : Accepted ds) (hc : c ∈ Chain.ofDefinitions ds)
    (hsel : c.target.selection = some (field, cases)) : (cases.map Prod.fst).Nodup :=
  (h.vetted.selections c hc field cases hsel).apart.keys_nodup

theorem eq_of_accepts (h : Accepted ds) {a b : Definition} {w : Word} (ha : a ∈ ds) (hb : b ∈ ds)
    (haw : a.label.accepts w = true) (hbw : b.label.accepts w = true) : a = b := by
  have : Std.Symm fun a b : Definition => ¬ a.label.pin.Agrees b.label.pin :=
    ⟨fun _ _ hne hagrees => hne hagrees.symm⟩
  by_contra hne
  refine h.vetted.disagree.forall ha hb hne ?_
  exact Shape.agrees_of_accepts haw hbw

theorem find?_eq_some (h : Accepted ds) {d : Definition} {w : Word} (hd : d ∈ ds)
    (hw : d.label.accepts w = true) : ds.find? (·.label.accepts w) = some d := by
  cases hfind : ds.find? (·.label.accepts w) with
  | none => exact absurd hw (by simpa using List.find?_eq_none.1 hfind d hd)
  | some d' =>
    have hw' : d'.label.accepts w = true := by simpa using List.find?_some hfind
    rw [h.eq_of_accepts (List.mem_of_find?_eq_some hfind) hd hw' hw]

end Accepted

namespace Registry

variable {ds : List Definition} {r : Registry}

/-- **A list is built if and only if it is accepted.** -/
theorem exists_build_iff : (∃ r, build ds = .ok r) ↔ Accepted ds := by
  constructor
  · rintro ⟨r, h⟩
    obtain ⟨hv, plans, hplans, -⟩ := build_eq_ok_iff.1 h
    exact ⟨hv, Plan.exists_ofDefinitions_iff.1 ⟨plans, hplans⟩⟩
  · intro h
    obtain ⟨plans, hplans⟩ := Plan.exists_ofDefinitions_iff.2 h.resolved
    exact ⟨_, build_eq_ok_iff.2 ⟨h.vetted, plans, hplans, rfl⟩⟩

/-- What is built decodes as its definitions, which are accepted, and has the layouts of their terminal
positions. -/
theorem accepted_of_build (h : build ds = .ok r) : Accepted ds ∧
    (∀ w, r.decode w = Definition.decode ds w) ∧
      ∀ {layout}, layout ∈ r.layouts ↔
        ∃ c ∈ Chain.ofDefinitions ds, c.isTerminal = true ∧ c.layout = layout := by
  obtain ⟨hv, plans, hplans, rfl⟩ := build_eq_ok_iff.1 h
  refine ⟨exists_build_iff.1 ⟨_, h⟩, decode_ofPlans hv hplans, ?_⟩
  rw [layouts_ofPlans hplans]
  simp [and_assoc]

end Registry

end ShaderWord
