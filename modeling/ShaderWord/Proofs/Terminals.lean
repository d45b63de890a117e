import ShaderWord.Proofs.Drawings
import ShaderWord.Proofs.Naming

/-!
# Terminal positions and their layouts

* `Tree.leaves t` — the labels of the leaves of `t`, those of one case before those of the next;
* `Layout.IsSound l` — the fields of `l` are valid and apart, and each choice on its path is one that a field
  of `l` can make.

The terminal positions stand for the leaves, in order (`Chain.map_label_terminals`), and at every position of
accepted definitions what is declared and chosen on the way is sound (`Accepted.isSound_layout`).
-/

namespace ShaderWord

/-! ### Leaves -/

namespace Tree

variable {α : Type}

mutual
/-- The labels of the leaves, depth first and the cases in declaration order. -/
def leaves : Tree α → List α
  | leaf a => [a]
  | select _ _ cases => leavesOfCases cases
/-- The labels of the leaves of the cases. -/
def leavesOfCases : List (Word × Tree α) → List α
  | [] => []
  | (_, t) :: rest => t.leaves ++ leavesOfCases rest
end

end Tree

namespace Chain

mutual
/-- The terminal positions of a definition stand for its leaves. -/
theorem map_label_terminal : ∀ d : Definition,
    ((ofDefinition d).filter isTerminal).map (·.target.label) = d.leaves
  | .leaf s => rfl
  | .select s field cases => by
    rw [Tree.leaves, ← map_label_terminalOfCases s field cases]
    rfl
theorem map_label_terminalOfCases (s : Shape) (field : String) : ∀ cases : List (Word × Definition),
    ((ofCases s field cases).filter isTerminal).map (·.target.label) = Tree.leavesOfCases cases
  | [] => rfl
  | (key, child) :: rest => by
    -- a link on top changes neither the target nor whether it has cases
    rw [Tree.leavesOfCases, ← map_label_terminal child, ← map_label_terminalOfCases s field rest,
      ofCases, List.filter_append, List.map_append, List.filter_map, List.map_map]
    rfl
end

/-- **The terminal positions stand for the leaves**, in order. -/
theorem map_label_terminals (ds : List Definition) :
    (terminals ds).map (·.target.label) = ds.flatMap Tree.leaves := by
  rw [terminals, ofDefinitions, List.filter_flatMap, List.map_flatMap]
  exact List.flatMap_congr fun d _ => map_label_terminal d

end Chain

/-! ### Sound layouts -/

/-- Valid fields with different names, one below the other in the word; and at most eight choices, by
different fields of the layout, which are read unsigned and have the bits for the key. -/
structure Layout.IsSound (l : Layout) : Prop where
  valid : ∀ f ∈ l.fields, f.slice.IsValid
  names : (l.fields.map Field.name).Nodup
  disjoint : l.fields.Pairwise fun f g => f.slice.LiesBelow g.slice ∨ g.slice.LiesBelow f.slice
  short : l.path.length ≤ 8
  selectors : (l.path.map Choice.field).Nodup
  known : ∀ p ∈ l.path, ∃ f ∈ l.fields, f.name = p.field ∧ f.slice.signed = false ∧
    p.key.toNat < 2 ^ f.slice.width.toNat

/-- **At every position of accepted definitions** the layout is sound. -/
theorem Accepted.isSound_layout {ds : List Definition} {c : Chain} (h : Accepted ds)
    (hc : c ∈ Chain.ofDefinitions ds) : c.layout.IsSound where
  valid := (h.resolved c hc).sound.valid
  names := List.pairwise_map.2 ((h.resolved c hc).sound.apart.imp fun hfg => hfg.1)
  disjoint := by
    obtain ⟨-, hvalid, hapart, -⟩ := (h.resolved c hc).sound
    refine hapart.imp_of_mem fun {f g} hf hg hfg => ?_
    exact Slice.liesBelow_or_liesBelow (hvalid f hf) (hvalid g hg) hfg.2
  short := by
    obtain ⟨d, hd, hcd⟩ := Chain.exists_of_mem_ofDefinitions hc
    have hlinks := Chain.length_links_le h.vetted hd c hcd
    rwa [← List.length_map Link.choice] at hlinks
  selectors := Chain.nodup_path_fields h.vetted hc
  known := by
    intro p hp
    obtain ⟨f, hf, hunsigned, hfits⟩ := (h.resolved c hc).sound.known p hp
    obtain ⟨hmem, hname⟩ := Trail.field?_eq_some hf
    exact ⟨f, hmem, hname, hunsigned, fits_iff.1 hfits⟩

/-- **A registry has one layout for each definition without cases**, depth first and in declaration order,
with the fields and the choices on the way to it from the top; and all its layouts are sound. -/
theorem Registry.layouts_exact {ds : List Definition} {r : Registry} (h : build ds = .ok r) :
    r.layouts = (Chain.terminals ds).map Chain.layout ∧
      (Chain.terminals ds).map (·.target.label) = ds.flatMap Tree.leaves ∧
      r.layouts.map Layout.fields = (Chain.terminals ds).map (·.shapes.flatMap Shape.fields) ∧
      r.layouts.map Layout.path = (Chain.terminals ds).map (·.links.map Link.choice) ∧
      ∀ l ∈ r.layouts, l.IsSound := by
  have hlayouts := layouts_eq_of_build h
  refine ⟨hlayouts, Chain.map_label_terminals ds, ?_, ?_, fun l hl => ?_⟩
  · rw [hlayouts, List.map_map]
    rfl
  · rw [hlayouts, List.map_map]
    rfl
  · rw [hlayouts] at hl
    obtain ⟨c, hc, rfl⟩ := List.mem_map.1 hl
    exact (accepted_of_build h).1.isSound_layout (Chain.mem_terminals.1 hc).1

/-- The case with the greater key is declared first, and its layout comes first. -/
theorem Registry.layouts_exact_twoCases : ∃ r, build [twoCases] = .ok r ∧
    r.layouts.map Layout.key = ["t.b", "t.a"] ∧
    r.layouts.map Layout.path = [[⟨"kind", 2⟩], [⟨"kind", 1⟩]] ∧
    r.layouts.map Layout.fields =
      [[⟨"kind", ⟨0, 2, false⟩⟩, ⟨"x", ⟨8, 8, true⟩⟩], [⟨"kind", ⟨0, 2, false⟩⟩]] ∧
    ∀ l ∈ r.layouts, l.IsSound := by
  obtain ⟨r, hr⟩ : ∃ r, build [twoCases] = .ok r := ⟨_, rfl⟩
  obtain ⟨hlayouts, -, hfields, hpath, hsound⟩ := layouts_exact hr
  refine ⟨r, hr, ?_, ?_, ?_, hsound⟩
  · rw [hlayouts]
    decide
  · rw [hpath]
    decide
  · rw [hfields]
    decide

end ShaderWord
