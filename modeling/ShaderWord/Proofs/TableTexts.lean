import ShaderWord.Proofs.Accepted
import ShaderWord.Proofs.Tables

/-!
# Tables as they are written

The readers of a table, from the members of a format up to the whole text, take from what is written of
definitions what a table says of them (`Table.ofText_write`). So definitions that have been drawn up, and
that a registry accepts, are parsed back from their table.

A case is read whole, and nested no deeper than that allows: for that the table of a definition with `n`
discriminants one below the other is at most `3 * n + 3` deep (`Table.isPlain_definitionEntries`).
-/

namespace ShaderWord.Table

open Json Json.Scan

/-! ### How deep a table nests -/

section Depth

variable {d : Definition} {n : Nat}

theorem isPlain_memberEntries (s : Shape) (f : Field) (n : Nat) :
    ∀ e ∈ memberEntries s f, IsPlain n e.2 := by
  have hcount := toNat_le_maxSignificand f.slice.width
  have hoffset := toNat_le_maxSignificand f.slice.offset
  unfold memberEntries
  cases s.pattern? f with
  | none => simp [IsPlain.number hcount, IsPlain.number hoffset, IsPlain.bool]
  | some bits => simp [IsPlain.number hcount, IsPlain.number hoffset, IsPlain.bool, IsPlain.string]

theorem isPlain_shapeEntries (s : Shape) (n : Nat) : ∀ e ∈ shapeEntries s, IsPlain (n + 3) e.2 := by
  have hmembers : IsPlain (n + 3) (.array (s.fields.map (memberJson s))) := by
    refine .array fun j hj => ?_
    obtain ⟨f, -, rfl⟩ := List.mem_map.1 hj
    rw [memberJson_eq]
    refine .object fun e he => ?_
    obtain rfl := List.mem_singleton.1 he
    exact .object (isPlain_memberEntries s f n)
  simp [shapeEntries, IsPlain.string, hmembers]

/-- **Every discriminant takes the table three levels deeper.** -/
theorem isPlain_definitionEntries (h : ∀ c ∈ Chain.ofDefinition d, c.links.length ≤ n) :
    ∀ e ∈ definitionEntries d, IsPlain (3 * n + 3) e.2 := by
  induction d using Tree.induct generalizing n with
  | leaf s => exact isPlain_shapeEntries s (3 * n)
  | select s field cases ih =>
    have hcases : ∀ j ∈ cases.map caseJson, IsPlain (3 * n + 1) j := by
      intro j hj
      obtain ⟨c, hc, rfl⟩ := List.mem_map.1 hj
      have hbelow : ∀ b ∈ Chain.ofDefinition c.2, b.links.length + 1 ≤ n := by
        intro b hb
        exact h (b.below ⟨s, ⟨field, c.1⟩⟩) (Chain.below_mem hc hb)
      -- there is a discriminant less below the case, and object, array and object around it
      obtain ⟨m, rfl⟩ : ∃ m, n = m + 1 := ⟨n - 1, by have := hbelow _ (Chain.root_mem c.2); omega⟩
      have hentries := ih c hc fun b hb => Nat.le_of_succ_le_succ (hbelow b hb)
      refine .object (List.forall_mem_cons.2 ⟨.number (word_le_maxSignificand c.1), ?_⟩)
      exact fun e he => (hentries e he).mono (by omega)
    rw [definitionEntries, List.forall_mem_append, casesJson_eq_map]
    refine ⟨isPlain_shapeEntries s (3 * n), ?_⟩
    rw [List.forall_mem_singleton]
    refine .object (List.forall_mem_cons.2 ⟨.string field, ?_⟩)
    rw [List.forall_mem_singleton]
    exact .array hcases

theorem isPlain_of_cases {field : String} {cases : List (Word × Definition)}
    (h : IsPlain n (.object [("field", .string field), ("cases", .array (casesJson cases))])) :
    ∀ c ∈ cases, ∀ e ∈ definitionEntries c.2, IsPlain n e.2 := by
  intro c hc e he
  have harray : IsPlain n (.array (casesJson cases)) := h.of_object ("cases", _) (by simp)
  have hcase : IsPlain n (caseJson c) :=
    harray.of_array _ (casesJson_eq_map cases ▸ List.mem_map.2 ⟨c, hc, rfl⟩)
  exact hcase.of_object e (List.mem_cons_of_mem _ he)

end Depth

/-! ### Readers -/

section Readers

variable {α : Type} {x : α} {j : Json} {rest : List Char}

theorem takes_require (x : α) : Takes (require (some x)) rest x rest := .pure x

theorem takes_entryOnce {value : Scan α} (h : Reads value j x) (hrest : EndsValue rest) :
    Takes (entryOnce none value) (':' :: (j.write ++ rest)) (some x) rest := by
  unfold entryOnce
  rw [if_neg (by simp)]
  exact takes_colon.bind ((h.takes rest hrest).bind (.pure (some x)))

theorem reads_readMemberObject (s : Shape) (f : Field) :
    Reads readMemberObject (memberJson s f) [(f.name, .ofField s f)] := by
  rw [memberJson_eq]
  have hread := reads_read (IsPlain.object (isPlain_memberEntries s f (maxNesting - 6)))
  refine reads_object fun rest => (takes_ahead rfl).bind ?_
  rw [if_pos rfl]
  refine takes_advance.bind (takes_entries (.cons (fun rest hrest => ?_) (.nil _)))
  refine takes_colon.bind ((hread.takes rest hrest).bind ?_)
  rw [memberSpec?_memberEntries]
  exact (takes_require _).bind (.pure _)

theorem reads_readMembers (s : Shape) :
    Reads (readArray readMemberObject) (.array (s.fields.map (memberJson s)))
      (Heading.ofShape s).members := by
  refine reads_readArray ?_
  rw [Heading.ofShape, List.forall₂_map_left_iff, List.forall₂_map_right_iff]
  exact List.forall₂_same.2 fun f _ => reads_readMemberObject s f

theorem ne_value_of_mem_definitionEntries {d : Definition} {e : String × Json}
    (he : e ∈ definitionEntries d) : e.1 ≠ "value" := by
  revert e
  cases d with
  | leaf s => simp [definitionEntries, shapeEntries]
  | select s field cases => simp [definitionEntries, shapeEntries]

/-- A case is read, its definition by way of entries that have been read whole. -/
theorem reads_readCase {c : Word × Definition}
    (h : ∀ e ∈ definitionEntries c.2, IsPlain (maxNesting - 6) e.2) :
    Reads readCase (caseJson c) (c.1, .ofDefinition c.2) := by
  have hkey : Reads (do return .ofNat 64 (← readNatural)) (.number (.ofNat c.1.toNat)) c.1 := by
    simpa using (reads_readNatural (word_le_maxSignificand c.1)).map (BitVec.ofNat 64)
  refine reads_object fun rest => (takes_ahead rfl).bind ?_
  rw [if_pos rfl]
  refine takes_advance.bind ((takes_entries (.cons (t := (some c.1, [])) (fun rest hrest => ?_)
    (gathers_read (fun met => (some c.1, met)) ?_ (fun e he => reads_read (h e he)) []))).bind ?_)
  · rw [if_pos rfl]
    exact (takes_entryOnce hkey hrest).bind (.pure _)
  · intro e he met
    rw [if_neg (ne_value_of_mem_definitionEntries he)]
  · -- the entries have come in reverse
    rw [List.append_nil]
    dsimp only
    rw [List.reverse_reverse, spec_definitionEntries]
    exact (takes_require c.1).bind ((takes_require _).bind (.pure _))

theorem reads_readCases {cases : List (Word × Definition)}
    (h : ∀ c ∈ cases, ∀ e ∈ definitionEntries c.2, IsPlain (maxNesting - 6) e.2) :
    Reads (readArray readCase) (.array (casesJson cases)) (FormatSpec.ofCases cases) := by
  refine reads_readArray ?_
  rw [casesJson_eq_map, FormatSpec.ofCases_eq_map, List.forall₂_map_left_iff, List.forall₂_map_right_iff]
  exact List.forall₂_same.2 fun c hc => reads_readCase (h c hc)

theorem reads_readSelection {field : String} {cases : List (Word × Definition)}
    (h : ∀ c ∈ cases, ∀ e ∈ definitionEntries c.2, IsPlain (maxNesting - 6) e.2) :
    Reads readSelection (.object [("field", .string field), ("cases", .array (casesJson cases))])
      (field, FormatSpec.ofCases cases) := by
  refine reads_object fun rest => (takes_ahead rfl).bind ?_
  rw [if_pos rfl]
  refine takes_advance.bind ((takes_entries (.cons (t := (some field, none)) (fun rest hrest => ?_)
    (.cons (t := (some field, some (FormatSpec.ofCases cases))) (fun rest hrest => ?_) (.nil _)))).bind ?_)
  · exact (takes_entryOnce (reads_readText field) hrest).bind (.pure _)
  · exact (takes_entryOnce (reads_readCases h) hrest).bind (.pure _)
  · exact (takes_require field).bind ((takes_require _).bind (.pure _))

/-- **A format is read as it is written.** -/
theorem reads_readFormat {d : Definition} (h : ∀ e ∈ definitionEntries d, IsPlain (maxNesting - 6) e.2) :
    Reads readFormat (.object (definitionEntries d)) (.ofDefinition d) := by
  refine reads_object fun rest => (takes_ahead rfl).bind ?_
  rw [if_pos rfl]
  cases d with
  | leaf s =>
    refine takes_advance.bind ((takes_entries (.cons (t := ⟨some s.name, none, none⟩) (fun rest hrest => ?_)
      (.cons (t := ⟨some s.name, some (Heading.ofShape s).members, none⟩) (fun rest hrest => ?_)
        (.nil _)))).bind ?_)
    · exact (takes_entryOnce (reads_readText s.name) hrest).bind (.pure _)
    · exact (takes_entryOnce (reads_readMembers s) hrest).bind (.pure _)
    · exact takes_require _
  | select s field cases =>
    have hcases := isPlain_of_cases (h ("discriminant", _) (List.mem_append_right _ List.mem_cons_self))
    refine takes_advance.bind ((takes_entries (.cons (t := ⟨some s.name, none, none⟩) (fun rest hrest => ?_)
      (.cons (t := ⟨some s.name, some (Heading.ofShape s).members, none⟩) (fun rest hrest => ?_)
        (.cons (t := ⟨some s.name, some (Heading.ofShape s).members,
          some (some (field, FormatSpec.ofCases cases))⟩) (fun rest hrest => ?_) (.nil _))))).bind ?_)
    · exact (takes_entryOnce (reads_readText s.name) hrest).bind (.pure _)
    · exact (takes_entryOnce (reads_readMembers s) hrest).bind (.pure _)
    · exact (takes_entryOnce (reads_readOption (reads_readSelection hcases)) hrest).bind (.pure _)
    · exact takes_require _

end Readers

/-! ### Texts -/

/-- **The text of a table says what the table says.** -/
theorem ofText_write {ds : List Definition}
    (h : ∀ d ∈ ds, ∀ e ∈ definitionEntries d, IsPlain (maxNesting - 6) e.2) :
    Document.ofText (write ds) = .ok ⟨ds.map .ofDefinition⟩ := by
  have hformats : Reads (readArray readFormat)
      (.array (ds.map fun d => .object (definitionEntries d))) (ds.map .ofDefinition) := by
    refine reads_readArray ?_
    rw [List.forall₂_map_left_iff, List.forall₂_map_right_iff]
    exact List.forall₂_same.2 fun d hd => reads_readFormat (h d hd)
  have hdocument : Reads readDocument (toJson ds) ⟨ds.map .ofDefinition⟩ := by
    refine reads_object fun rest => (takes_ahead rfl).bind ?_
    rw [if_pos rfl]
    refine takes_advance.bind ((takes_entries (.cons (t := some (ds.map .ofDefinition))
      (fun rest hrest => ?_) (.nil _))).bind ?_)
    · exact takes_entryOnce hformats hrest
    · exact (takes_require _).bind (.pure _)
  have htext : Takes (do let d ← readDocument; finish; return d) (toJson ds).write
      ⟨ds.map .ofDefinition⟩ [] := by
    have htakes := hdocument.takes [] endsValue_nil
    rw [List.append_nil] at htakes
    exact htakes.bind (takes_finish.bind (.pure _))
  rw [Document.ofText, Table.write, String.toList_ofList]
  exact congrArg (Except.map Prod.fst) htext

/-- What a table says of spelled definitions are the definitions. -/
theorem definitions_ofDefinition {ds : List Definition} (h : ∀ d ∈ ds, d.Each IsSpelled) :
    Document.definitions ⟨ds.map .ofDefinition⟩ = .ok ds := by
  unfold Document.definitions
  induction ds with
  | nil => rfl
  | cons d ds ih =>
    obtain ⟨hd, hds⟩ := List.forall_mem_cons.1 h
    have hrest := ih hds
    simp only [List.map_cons, List.mapM_cons, FormatSpec.definition_ofDefinition hd] at hrest ⊢
    rw [hrest]
    rfl

end ShaderWord.Table

namespace ShaderWord

/-! ### Definitions that are accepted -/

/-- **Tables can express what can be drawn up.** Definitions that have been drawn up, and that a registry
accepts, are what their table is parsed to, in order; so the table has the same registry, which decodes every
word as that one does. -/
theorem Table.registry_write {ds : List Definition} {r : Registry}
    (hdrawn : ∀ d ∈ ds, ∃ draft : Draft, draft.IsDrawnWith (fun _ => True) ∧ draft.build = .ok d)
    (h : Registry.build ds = .ok r) :
    Table.parse (Table.write ds) = .ok ds ∧ Table.registry (Table.write ds) = .ok r := by
  have hacc := (Registry.accepted_of_build h).1
  have hplain : ∀ d ∈ ds, ∀ e ∈ definitionEntries d, Json.IsPlain (maxNesting - 6) e.2 := by
    intro d hd e he
    exact (isPlain_definitionEntries (Chain.length_links_le hacc.vetted hd) e he).mono (by decide)
  have hspelled : ∀ d ∈ ds, d.Each IsSpelled := by
    intro d hd
    obtain ⟨draft, hdraft, hbuild⟩ := hdrawn d hd
    refine (hdraft.each_isLaid hbuild).and (Tree.each_of_targets fun c hc => ?_)
    have hsound := (hacc.resolved c (Chain.mem_ofDefinitions hd hc)).sound
    exact hsound.within c.target.label (by simp [Chain.trail, Chain.shapes])
  have hparse : Table.parse (Table.write ds) = .ok ds := by
    rw [Table.parse, ofText_write hplain]
    exact definitions_ofDefinition hspelled
  refine ⟨hparse, ?_⟩
  rw [Table.registry, hparse]
  simp only [bind, Except.bind, h]

/-- A layout with a pattern, a signed member at a place of its own and two discriminants, one of them in a
case whose name takes escapes. -/
def drawnLayout : Draft :=
  (((Draft.new "t").member (.fixed "op" "101")).member (.field "kind" 2)).member
    (.atBit 4 (.signed "x" 8)) |>.select "kind"
      [(2, ((Draft.new "\"é\n").member (.atBit 0 (.field "mode" 1))).select "mode" [(0, .new "a")]),
        (1, .new "b")]

/-- The definition that it draws up. -/
def drawnDefinition : Definition :=
  .select ⟨"t", 7 <<< 61, 5 <<< 61, [⟨"op", ⟨61, 3, false⟩⟩, ⟨"kind", ⟨59, 2, false⟩⟩, ⟨"x", ⟨4, 8, true⟩⟩]⟩
    "kind" [(2, .select ⟨"\"é\n", 0, 0, [⟨"mode", ⟨0, 1, false⟩⟩]⟩ "mode" [(0, .leaf ⟨"a", 0, 0, []⟩)]),
      (1, .leaf ⟨"b", 0, 0, []⟩)]

theorem Table.registry_write_drawnLayout : drawnLayout.build = .ok drawnDefinition ∧
    ∃ r, Registry.build [drawnDefinition] = .ok r ∧
      Table.parse (Table.write [drawnDefinition]) = .ok [drawnDefinition] ∧
        Table.registry (Table.write [drawnDefinition]) = .ok r := by
  have hbuild : drawnLayout.build = .ok drawnDefinition := by rfl
  have hdrawn : drawnLayout.IsDrawnWith fun _ => True := by
    refine .select (.member (.member (.member (.new "t") trivial) trivial) trivial) "kind" ?_
    simp only [List.mem_cons, List.not_mem_nil, or_false, forall_eq_or_imp, forall_eq]
    refine ⟨.select (.member (.new _) trivial) "mode" ?_, .new "b"⟩
    simpa using Draft.IsDrawnWith.new "a"
  have haccepted : (Registry.build [drawnDefinition]).toBool = true := by decide +kernel
  obtain ⟨r, hr⟩ : ∃ r, Registry.build [drawnDefinition] = .ok r := by
    cases hr : Registry.build [drawnDefinition] with
    | ok r => exact ⟨r, rfl⟩
    | error e =>
      rw [hr] at haccepted
      cases haccepted
  refine ⟨hbuild, r, hr, registry_write ?_ hr⟩
  simpa using ⟨drawnLayout, hdrawn, hbuild⟩

end ShaderWord
