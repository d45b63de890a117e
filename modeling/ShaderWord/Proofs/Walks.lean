import ShaderWord.Proofs.Accepted

/-!
# Walks and positions

A word reaches the layout of a terminal position if and only if the position admits it (`Chain.reaches_iff`):
a walk comes to every position that admits the word (`Chain.walk_eq_of_admits`) and ends at one that does
(`Chain.exists_admits_of_walk`).
-/

namespace ShaderWord

/-! ### One case further -/

namespace Definition

variable {format field : String} {w value : Word} {p : Passed} {cases : List (Word × Definition)}

theorem walkCases_eq_of_mem (hn : (cases.map Prod.fst).Nodup) {child : Definition}
    (hmem : (value, child) ∈ cases) (haccept : child.label.accepts w = true) :
    walkCases format w p field value cases =
      walk format w { p with path := p.path ++ [⟨field, value⟩] } child := by
  induction cases with
  | nil => cases hmem
  | cons head rest ih =>
    obtain ⟨key, other⟩ := head
    obtain ⟨hfresh, hn⟩ := List.nodup_cons.1 hn
    rw [walkCases]
    rcases List.mem_cons.1 hmem with heq | hmem
    · obtain ⟨rfl, rfl⟩ := Prod.mk.inj heq
      rw [if_pos rfl, if_pos haccept]
    · have hne : key ≠ value := by
        rintro rfl
        exact hfresh (List.mem_map.2 ⟨_, hmem, rfl⟩)
      rw [if_neg hne, ih hn hmem]

theorem exists_of_walkCases_eq_ok {inst : Instruction}
    (h : walkCases format w p field value cases = .ok inst) :
    ∃ child, (value, child) ∈ cases ∧ child.label.accepts w = true ∧
      walk format w { p with path := p.path ++ [⟨field, value⟩] } child = .ok inst := by
  induction cases with
  | nil => cases h
  | cons head rest ih =>
    obtain ⟨key, child⟩ := head
    rw [walkCases] at h
    split_ifs at h with hkey haccept
    · exact ⟨child, hkey ▸ List.mem_cons_self, haccept, hkey ▸ h⟩
    · obtain ⟨other, hmem, hother⟩ := ih h
      exact ⟨other, List.mem_cons_of_mem _ hmem, hother⟩

end Definition

namespace Chain

variable {c : Chain} {p : Choice} {child : Definition} {w : Word} {name : String} {f : Field}

theorem field?_extend (h : c.field? name = some f) : (c.extend p child).field? name = some f := by
  unfold field? fields at h ⊢
  rw [shapes_extend, List.flatMap_append, List.find?_append, h, Option.some_or]

/-- A position admits what its parent admits, with the key in the field and the bits fixed. -/
theorem admits_extend (hknown : ∀ q ∈ c.path, ∃ f, c.field? q.field = some f)
    (hf : c.field? p.field = some f) :
    (c.extend p child).Admits w ↔
      c.Admits w ∧ f.slice.raw w = p.key ∧ child.label.accepts w = true := by
  have hsame : ∀ q : Choice, (∃ g, c.field? q.field = some g) →
      ((∃ g, (c.extend p child).field? q.field = some g ∧ g.slice.raw w = q.key) ↔
        ∃ g, c.field? q.field = some g ∧ g.slice.raw w = q.key) := by
    rintro q ⟨g, hg⟩
    rw [field?_extend hg, hg]
  unfold Admits
  simp only [shapes_extend, path_extend, List.mem_append, List.mem_singleton, or_imp, forall_and,
    forall_eq]
  constructor
  · rintro ⟨⟨hshapes, haccept⟩, hpath, hp⟩
    refine ⟨⟨hshapes, fun q hq => (hsame q (hknown q hq)).1 (hpath q hq)⟩, ?_, haccept⟩
    obtain ⟨g, hg, hraw⟩ := (hsame p ⟨f, hf⟩).1 hp
    rwa [← Option.some.inj (hg.symm.trans hf)]
  · rintro ⟨⟨hshapes, hpath⟩, hraw, haccept⟩
    exact ⟨⟨hshapes, haccept⟩, fun q hq => (hsame q (hknown q hq)).2 (hpath q hq),
      (hsame p ⟨f, hf⟩).2 ⟨f, hf, hraw⟩⟩

/-- What a walk has passed when it enters the target. -/
def passed (c : Chain) : Definition.Passed := ⟨c.above.shapes.map Shape.name, c.above.fields, c.path⟩

theorem passed_enter (c : Chain) : c.passed.enter c.target.label = ⟨c.names, c.fields, c.path⟩ := by
  simp [passed, Definition.Passed.enter, names, fields, shapes, above, Trail.fields]

theorem passed_extend (c : Chain) (p : Choice) (child : Definition) :
    (c.extend p child).passed = ⟨c.names, c.fields, c.path ++ [p]⟩ := by
  unfold passed
  rw [above_extend, path_extend]
  rfl

/-- A walk goes from a position to the case of the value that its selector has. -/
theorem walk_select {format field : String} {shape : Shape} {cases : List (Word × Definition)}
    (ht : c.target = .select shape field cases) (hf : c.field? field = some f) :
    Definition.walk format w c.passed c.target =
      Definition.walkCases format w ⟨c.names, c.fields, c.path⟩ field (f.slice.raw w) cases := by
  have hlabel : c.target.label = shape := by rw [ht]; rfl
  have hfind : c.fields.find? (·.name = field) = some f := hf
  rw [ht, Definition.walk, ← hlabel, passed_enter]
  simp only [hfind]

/-! ### Walks down to positions -/

section Walk

variable {ds : List Definition} {d : Definition} {format : String}

theorem admits_extend_of_accepted (h : Accepted ds) (hc : c ∈ ofDefinitions ds)
    (hf : c.field? p.field = some f) :
    (c.extend p child).Admits w ↔
      c.Admits w ∧ f.slice.raw w = p.key ∧ child.label.accepts w = true :=
  admits_extend (fun _ => (h.resolved c hc).sound.exists_field) hf

/-- **A walk comes to every position that admits the word.** -/
theorem walk_eq_of_admits (format : String) (h : Accepted ds) (hd : d ∈ ds) :
    ∀ c ∈ ofDefinition d, c.Admits w →
      Definition.walk format w ⟨[], [], []⟩ d = Definition.walk format w c.passed c.target := by
  refine induct (fun _ => rfl) ?_
  intro c hc shape field cases key child ht hmem ih hw
  have hmemds : c ∈ ofDefinitions ds := mem_ofDefinitions hd hc
  have hsel := Tree.selection_of_select ht
  obtain ⟨f, hf, -, -⟩ := (h.resolved c hmemds).selector field cases hsel
  obtain ⟨hcw, hraw, haccept⟩ := (admits_extend_of_accepted h hmemds hf).1 hw
  rw [ih hcw, walk_select ht hf, passed_extend, hraw,
    Definition.walkCases_eq_of_mem (h.keys_nodup hmemds hsel) hmem haccept]
  rfl

/-- **A walk ends at a position that admits the word.** -/
theorem exists_admits_of_walk (h : Accepted ds) (hd : d ∈ ds) {c : Chain} (hc : c ∈ ofDefinition d)
    (hw : c.Admits w) {inst : Instruction}
    (hinst : Definition.walk d.label.name w c.passed c.target = .ok inst) :
    ∃ c' ∈ ofDefinition d, c'.isTerminal = true ∧ c'.Admits w ∧ inst.layout = some c'.layout := by
  generalize ht : c.target = t at hinst
  induction t using Tree.induct generalizing c with
  | leaf shape =>
    have hlabel : c.target.label = shape := by rw [ht]; rfl
    rw [Definition.walk, ← hlabel, passed_enter] at hinst
    obtain rfl := Except.ok.inj hinst
    refine ⟨c, hc, by simp [isTerminal, ht, Tree.selection], hw, ?_⟩
    unfold layout key
    rw [head?_names hc]
    rfl
  | select shape field cases ih =>
    have hmemds : c ∈ ofDefinitions ds := mem_ofDefinitions hd hc
    have hsel := Tree.selection_of_select ht
    obtain ⟨f, hf, -, -⟩ := (h.resolved c hmemds).selector field cases hsel
    rw [← ht, walk_select ht hf] at hinst
    obtain ⟨child, hmem, haccept, hwalk⟩ := Definition.exists_of_walkCases_eq_ok hinst
    have hext : (c.extend ⟨field, f.slice.raw w⟩ child).Admits w :=
      (admits_extend_of_accepted h hmemds hf).2 ⟨hw, rfl, haccept⟩
    refine ih _ hmem (extend_mem hc ht hmem) hext rfl ?_
    rw [passed_extend]
    exact hwalk

theorem admits_root {w : Word} : (⟨[], d⟩ : Chain).Admits w ↔ d.label.accepts w = true := by
  simp [Admits, shapes, path]

theorem exists_admits_of_decode (h : Accepted ds) {inst : Instruction}
    (hinst : Definition.decode ds w = .ok inst) :
    ∃ c ∈ ofDefinitions ds, c.isTerminal = true ∧ c.Admits w ∧ inst.layout = some c.layout := by
  unfold Definition.decode at hinst
  cases hfind : ds.find? (·.label.accepts w) with
  | none => simp [hfind] at hinst
  | some d =>
    rw [hfind] at hinst
    have hd : d ∈ ds := List.mem_of_find?_eq_some hfind
    have haccept : d.label.accepts w = true := by simpa using List.find?_some hfind
    obtain ⟨c, hc, hrest⟩ :=
      exists_admits_of_walk h hd (root_mem d) (admits_root.2 haccept) hinst
    exact ⟨c, mem_ofDefinitions hd hc, hrest⟩

theorem exists_decode_of_admits (h : Accepted ds) (hc : c ∈ ofDefinitions ds)
    (ht : c.isTerminal = true) (hw : c.Admits w) :
    ∃ inst, Definition.decode ds w = .ok inst ∧ inst.layout = some c.layout := by
  obtain ⟨d, hd, hcd⟩ := exists_of_mem_ofDefinitions hc
  have haccept : d.label.accepts w = true :=
    hw.1 d.label (List.mem_of_mem_head? (head?_shapes hcd))
  have hfind := h.find?_eq_some hd haccept
  have hwalk := walk_eq_of_admits d.label.name h hd c hcd hw
  cases htarget : c.target with
  | select shape field cases => simp [isTerminal, htarget, Tree.selection] at ht
  | leaf shape =>
    have hlabel : c.target.label = shape := by rw [htarget]; rfl
    rw [htarget, Definition.walk, ← hlabel, passed_enter] at hwalk
    refine ⟨_, by unfold Definition.decode; rw [hfind]; exact hwalk, ?_⟩
    unfold layout key
    rw [head?_names hcd]
    rfl

/-- **A word reaches the layout of a terminal position if and only if the position admits it.** -/
theorem reaches_iff (h : Accepted ds) (hc : c ∈ ofDefinitions ds) (ht : c.isTerminal = true) :
    (∃ inst, Definition.decode ds w = .ok inst ∧ inst.layout = some c.layout) ↔ c.Admits w := by
  constructor
  · rintro ⟨inst, hinst, hlayout⟩
    obtain ⟨c', hc', -, hw, hlayout'⟩ := exists_admits_of_decode h hinst
    have heq : c.layout = c'.layout := Option.some.inj (hlayout.symm.trans hlayout')
    rwa [eq_of_layout_eq h.vetted hc hc' heq]
  · exact exists_decode_of_admits h hc ht

end Walk

end Chain

end ShaderWord
