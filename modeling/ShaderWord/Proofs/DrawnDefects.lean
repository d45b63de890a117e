import Mathlib.Data.List.Forall2
import ShaderWord.Proofs.Placing
import ShaderWord.Proofs.Rejection
import ShaderWord.Proofs.TableLayouts
import ShaderWord.Proofs.Tables

/-!
# Defects that drawn definitions do not have

* `Definition.IsProduced d` — a layout has been built to `d`, or a table has been parsed to `d` and others,
  and the patterns are not too long to be counted;
* `Defect.IsOfField e` — `e` is a defect of a field.

What is produced is spelled, down to the last case (`Definition.IsProduced.each_isSpelled`). So its fields
are valid and its values within their masks; and a field of a case that is fixed in part is so by a field
above it, with which it overlaps, and that counts first (`Chain.isWholeIn_pinned_of_isLaid`).
-/

namespace ShaderWord

/-! ### Positions of trees -/

theorem Tree.Each.of_chain {P : Shape → Prop} {d : Definition} (h : d.Each P) :
    ∀ c ∈ Chain.ofDefinition d, (∀ s ∈ c.shapes, P s) ∧ c.target.Each P := by
  have hlabel : ∀ {t : Definition}, t.Each P → P t.label := by
    rintro _ (ht | ⟨ht, -⟩) <;> exact ht
  refine Chain.induct ⟨?_, h⟩ ?_
  · intro s hs
    obtain rfl : s = d.label := by simpa [Chain.shapes] using hs
    exact hlabel h
  · rintro c - shape field cases key child ht hmem ⟨hshapes, htarget⟩
    rw [ht] at htarget
    cases htarget with
    | select _ hcases =>
      have hchild : child.Each P := hcases (key, child) hmem
      refine ⟨?_, hchild⟩
      rw [Chain.shapes_extend, List.forall_mem_append, List.forall_mem_singleton]
      exact ⟨hshapes, hlabel hchild⟩

/-! ### What is produced -/

namespace Draft

theorem Progress.isInvariant_packs : IsInvariant Member.IsShort fun p => ∃ ms, p.Packs ms where
  start := ⟨[], .start⟩
  add := by
    rintro format p q m hshort ⟨ms, hp⟩ h
    exact ⟨_, hp.add_of_eq_ok hshort h⟩
  select := by
    rintro p selection ⟨ms, hp⟩
    exact ⟨ms, hp.select selection⟩

theorem IsDrawnWith.each_isSpelled {d : Draft} {definition : Definition}
    (h : d.IsDrawnWith Member.IsShort) (hbuild : d.build = .ok definition) :
    definition.Each Table.IsSpelled := by
  refine h.each Progress.isInvariant_packs ?_ hbuild
  rintro p name ⟨ms, hp⟩
  exact ⟨hp.laid.laid, hp.within⟩

theorem isDrawnWith_foldl_member {M : Member → Prop} {d : Draft} {ms : List Member}
    (hd : d.IsDrawnWith M) (hms : ∀ m ∈ ms, M m) : (ms.foldl member d).IsDrawnWith M := by
  induction ms generalizing d with
  | nil => exact hd
  | cons m ms ih =>
    obtain ⟨hm, hms⟩ := List.forall_mem_cons.1 hms
    exact ih (.member hd hm) hms

end Draft

namespace Table

/-- The patterns of the members are not too long. -/
def Heading.HasShortPatterns (h : Heading) : Prop := ∀ m ∈ h.layoutMembers, m.IsShort

/-- The patterns of all members are not too long. -/
def Document.HasShortPatterns (d : Document) : Prop := ∀ f ∈ d.formats, f.Each Heading.HasShortPatterns

instance (h : Heading) : Decidable h.HasShortPatterns :=
  inferInstanceAs (Decidable (∀ m ∈ h.layoutMembers, m.IsShort))

namespace FormatSpec

variable {f : FormatSpec}

theorem isDrawnWith_layout (h : f.Each Heading.HasShortPatterns) :
    f.layout.IsDrawnWith Member.IsShort := by
  induction h with
  | @leaf h hshort => exact Draft.isDrawnWith_foldl_member (.new h.name) hshort
  | @select h field cases hshort _ ih =>
    refine .select (Draft.isDrawnWith_foldl_member (.new h.name) hshort) field fun c hc => ?_
    rw [layouts_eq_map, List.mem_map] at hc
    obtain ⟨b, hb, rfl⟩ := hc
    exact ih b hb

end FormatSpec

theorem exists_of_mem_definitions {doc : Document} {ds : List Definition} {d : Definition}
    (h : doc.definitions = .ok ds) (hd : d ∈ ds) : ∃ f ∈ doc.formats, f.definition = .ok d := by
  have hall : List.Forall₂ (fun (f : FormatSpec) d => f.definition = .ok d) doc.formats ds :=
    mapM_eq_ok_iff.1 h
  obtain ⟨f, hf, hdefinition⟩ := exists_of_forall₂_right hall hd
  exact ⟨f, hf, hdefinition⟩

end Table

/-- A layout has been built to the definition, or a table has been parsed to it and others. The patterns are
such that their bytes can be counted in 32 bits. -/
inductive Definition.IsProduced : Definition → Prop
  | built {draft : Draft} {d : Definition} (hdrawn : draft.IsDrawnWith Member.IsShort)
      (hbuild : draft.build = .ok d) : IsProduced d
  | parsed {text : String} {doc : Table.Document} {ds : List Definition} {d : Definition}
      (hread : Table.Document.ofText text = .ok doc) (hshort : doc.HasShortPatterns)
      (hparse : Table.parse text = .ok ds) (hd : d ∈ ds) : IsProduced d

/-- **What is produced is spelled**, down to the last case. -/
theorem Definition.IsProduced.each_isSpelled {d : Definition} (h : d.IsProduced) :
    d.Each Table.IsSpelled := by
  cases h with
  | built hdrawn hbuild => exact hdrawn.each_isSpelled hbuild
  | parsed hread hshort hparse hd =>
    rw [Table.parse, hread] at hparse
    obtain ⟨f, hf, hdefinition⟩ := Table.exists_of_mem_definitions hparse hd
    exact (Table.FormatSpec.isDrawnWith_layout (hshort f hf)).each_isSpelled
      (Table.FormatSpec.definition_eq_ok_iff.1 hdefinition).2

/-! ### Fields of laid shapes -/

namespace Chain

variable {c : Chain} {f : Field} {before after : List Field}

/-- **A field of laid shapes that is apart from those before it is fixed as a whole or not at all**: the fixed
bits above it belong to fields. -/
theorem isWholeIn_pinned_of_isLaid (hs : c.above.IsSound) (hlaid : ∀ s ∈ c.shapes, s.IsLaid)
    (hf : f ∈ c.target.label.fields) (happ : ∀ g ∈ c.above.fields, g.IsApart f) :
    f.slice.IsWholeIn c.pinned := by
  have htarget : c.target.label.IsLaid := hlaid _ (by simp [shapes])
  have hown : ∀ i, c.target.label.mask.getLsbD i = true → c.pinned.getLsbD i = true := by
    intro i hi
    rw [pinned_eq, Pin.getLsbD_mask_join]
    refine ⟨c.target.label.pin, ?_, hi⟩
    rw [trail_eq_enter, hs.mem_pins_enter]
    exact List.mem_append_right _ (List.mem_singleton_self _)
  rw [Slice.isWholeIn_iff]
  rcases htarget.whole f hf with hall | hnone
  · exact .inr fun i hi => hown i (inter_eq_left_iff.1 hall i hi)
  · refine .inl fun i hi => ?_
    by_contra hpinned
    obtain ⟨s, hmem, hsi⟩ := exists_fixes_of_pinned hs happ hi (by simpa using hpinned)
    rcases List.mem_append.1 hmem with habove | hlast
    · -- the bit is one of a field above
      obtain ⟨g, hg, hgi⟩ := (hlaid s hmem).covered i hsi
      have hgabove : g ∈ c.above.fields := List.mem_flatMap.2 ⟨s, habove, hg⟩
      exact (happ g hgabove).not_common hgi hi
    · obtain rfl := List.mem_singleton.1 hlast
      rw [inter_eq_zero_iff.1 hnone i hi] at hsi
      cases hsi

theorem inter_eq_zero_of_isLaid {g : Field} (hlaid : c.target.label.IsLaid)
    (hfields : c.target.label.fields = before ++ f :: after) (hg : g ∈ before) :
    g.slice.mask &&& f.slice.mask = 0 := by
  have hdescend := hlaid.descend
  rw [hfields, List.pairwise_append] at hdescend
  rw [BitVec.and_comm]
  exact Slice.mask_inter_of_liesBelow (hdescend.2.2 g hg f List.mem_cons_self)

/-- The shapes on the way to the position, and the last one, are spelled. -/
def IsSpelled (c : Chain) : Prop := ∀ s ∈ c.shapes, Table.IsSpelled s

namespace IsSpelled

variable {format name field first second : String} {offset width : UInt32}

theorem target (h : c.IsSpelled) : Table.IsSpelled c.target.label :=
  h c.target.label (by simp [shapes])

theorem not_failsAt_invalidField (h : c.IsSpelled) :
    ¬ c.FailsAt format (.invalidField name field offset width) := by
  intro hfails
  cases hfails with
  | @invalid before after f hfields hinvalid => exact hinvalid (h.target.1.valid f (by simp [hfields]))

theorem not_failsAt_aliasedField (h : c.IsSpelled) (hs : c.above.IsSound) :
    ¬ c.FailsAt format (.aliasedField name field) := by
  intro hfails
  cases hfails with
  | @aliased before after f hfields happ hpart =>
    refine hpart (isWholeIn_pinned_of_isLaid hs (fun s hs => (h s hs).1) (by simp [hfields]) ?_)
    exact fun g hg => happ g (List.mem_append_left _ hg)

theorem exists_overlap (h : c.IsSpelled) (hfails : c.FailsAt format (.overlappingFields name first second)) :
    c.target.label.name = name ∧ ∃ f ∈ c.above.fields, f.name = first ∧
      ∃ g ∈ c.target.label.fields, g.name = second ∧ f.slice.mask &&& g.slice.mask ≠ 0 := by
  cases hfails with
  | @overlap before after g f hfields hf hmeet =>
    rcases List.mem_append.1 hf with habove | hbefore
    · exact ⟨rfl, f, habove, rfl, g, by simp [hfields], rfl, hmeet⟩
    · exact absurd (inter_eq_zero_of_isLaid h.target.1 hfields hbefore) hmeet

end IsSpelled

end Chain

theorem Definition.IsProduced.isSpelled {ds : List Definition} (h : ∀ d ∈ ds, d.IsProduced) :
    ∀ c ∈ Chain.ofDefinitions ds, c.IsSpelled := by
  intro c hc
  obtain ⟨d, hd, hcd⟩ := Chain.exists_of_mem_ofDefinitions hc
  exact ((h d hd).each_isSpelled.of_chain c hcd).1

/-! ### What admission does not look at -/

/-- The defect is one of a field. -/
def Defect.IsOfField : Defect → Prop
  | invalidField .. | duplicateField .. | overlappingFields .. | aliasedField .. => True
  | _ => False

namespace Admission

variable {e : Defect}

theorem not_isOfField_of_vetFormats {earlier : List String} {ss : List Shape}
    (h : vetFormats earlier ss = .error e) : ¬ e.IsOfField := by
  induction ss generalizing earlier with
  | nil => cases h
  | cons s rest ih =>
    simp only [vetFormats, bind_eq_error_iff, Shape.requireName_eq_error_iff,
      Shape.requirePredicate_eq_error_iff] at h
    rcases h with ⟨-, rfl⟩ | ⟨_, -, ⟨-, rfl⟩ | ⟨_, -, h⟩⟩
    · exact id
    · exact id
    · split at h
      · obtain rfl := Except.error.inj h
        exact id
      · exact ih h

theorem not_isOfField_of_vetChain {format : String} {used : List String} {d : Definition}
    (h : vetChain format used d = .error e) : ¬ e.IsOfField := by
  induction d using Tree.induct generalizing used with
  | leaf s => simp [vetChain] at h
  | select s field cases ih =>
    rw [vetChain] at h
    split_ifs at h with hdeep hused
    · obtain rfl := Except.error.inj h
      exact id
    · obtain rfl := Except.error.inj h
      exact id
    · rcases bind_eq_error_iff.1 h with hcases | ⟨_, -, hbelow⟩
      · rcases vetCases_eq_error [] hcases with ⟨c, -, -, rfl⟩ | ⟨a, b, -, ⟨-, rfl⟩ | ⟨-, rfl⟩⟩ <;> exact id
      · rw [vetChains_eq_forM] at hbelow
        obtain ⟨c, hc, hbelow⟩ := exists_of_forM_eq_error hbelow
        exact ih c hc hbelow

/-- **Admission does not look at fields.** -/
theorem not_isOfField_of_vet {ds : List Definition} (h : vet ds = .error e) : ¬ e.IsOfField := by
  unfold vet at h
  rcases bind_eq_error_iff.1 h with hformats | ⟨_, -, h⟩
  · exact not_isOfField_of_vetFormats hformats
  · split at h
    · next hamb =>
      obtain rfl := Except.error.inj h
      obtain ⟨_, _, s, t, -, -, -, hst, -⟩ := exists_first_of_ambiguity? hamb
      obtain ⟨-, rfl⟩ := Shape.ambiguity?_eq_some_iff.1 hst
      exact id
    · obtain ⟨d, -, hchain⟩ := exists_of_forM_eq_error h
      exact not_isOfField_of_vetChain hchain

end Admission

/-! ### Builds of what is produced -/

namespace Registry

variable {ds : List Definition} {e : Defect}

/-- A defect of a field is one that resolution finds at a position. -/
theorem exists_failsAt_of_build (h : build ds = .error e) (hfield : e.IsOfField) :
    ∃ format, ∃ c ∈ Chain.ofDefinitions ds, c.above.IsSound ∧ c.FailsAt format e := by
  rcases build_eq_error_iff.1 h with hvet | ⟨-, hplans⟩
  · exact absurd hfield (Admission.not_isOfField_of_vet hvet)
  · obtain ⟨d, hd, c, hc, hsound, hfails⟩ := Chain.exists_failsAt_of_ofDefinitions hplans
    exact ⟨d.label.name, c, Chain.mem_ofDefinitions hd hc, hsound, hfails⟩

/-- No fixed value is reported, be it by admission or by resolution, where all are within their masks. -/
theorem ne_invalidPredicate_of_isSpelled (hspelled : ∀ c ∈ Chain.ofDefinitions ds, c.IsSpelled)
    {name : String} {mask value : Word} : build ds ≠ .error (.invalidPredicate name mask value) := by
  intro hbuild
  have hpresent : (Defect.invalidPredicate name mask value).IsPresent ds := by
    rcases build_eq_error_iff.1 hbuild with hvet | ⟨-, hplans⟩
    · exact Admission.isPresent_of_vet hvet
    · exact isPresent_of_ofDefinitions hplans
  obtain ⟨c, hc, -, rfl, rfl, i, hvalue, hmask⟩ := hpresent
  have hset : c.target.label.mask.getLsbD i = true :=
    Pin.isWithin_iff.1 (hspelled c hc).target.2 i hvalue
  rw [hmask] at hset
  cases hset

/-- **What is produced has no defect that a layout could have shown.** Of definitions that layouts have been
built to, or tables parsed to, no fixed value is reported to be outside its mask, no field to be invalid and
none to be fixed in part; and fields are reported to overlap only if one is of a definition above the other's.
So of definitions without discriminants none are. -/
theorem build_of_isProduced (h : ∀ d ∈ ds, d.IsProduced) :
    (∀ name mask value, build ds ≠ .error (.invalidPredicate name mask value)) ∧
    (∀ name field offset width, build ds ≠ .error (.invalidField name field offset width)) ∧
    (∀ name field, build ds ≠ .error (.aliasedField name field)) ∧
    (∀ name first second, build ds = .error (.overlappingFields name first second) →
      ∃ c ∈ Chain.ofDefinitions ds, c.target.label.name = name ∧
        ∃ f ∈ c.above.fields, f.name = first ∧ ∃ g ∈ c.target.label.fields, g.name = second ∧
          f.slice.mask &&& g.slice.mask ≠ 0) ∧
    ((∀ d ∈ ds, d.selection = none) →
      ∀ name first second, build ds ≠ .error (.overlappingFields name first second)) := by
  have hspelled := Definition.IsProduced.isSpelled h
  refine ⟨?_, ?_, ?_, ?_, ?_⟩
  · exact fun _ _ _ => ne_invalidPredicate_of_isSpelled hspelled
  · intro name field offset width hbuild
    obtain ⟨_, c, hc, -, hfails⟩ := exists_failsAt_of_build hbuild trivial
    exact (hspelled c hc).not_failsAt_invalidField hfails
  · intro name field hbuild
    obtain ⟨_, c, hc, hsound, hfails⟩ := exists_failsAt_of_build hbuild trivial
    exact (hspelled c hc).not_failsAt_aliasedField hsound hfails
  · intro name first second hbuild
    obtain ⟨_, c, hc, -, hfails⟩ := exists_failsAt_of_build hbuild trivial
    exact ⟨c, hc, (hspelled c hc).exists_overlap hfails⟩
  · intro hleaves name first second hbuild
    obtain ⟨_, c, hc, -, hfails⟩ := exists_failsAt_of_build hbuild trivial
    obtain ⟨-, f, hf, -⟩ := (hspelled c hc).exists_overlap hfails
    obtain ⟨d, hd, hcd⟩ := Chain.exists_of_mem_ofDefinitions hc
    -- a definition without cases has nothing above it
    rcases Chain.mem_ofDefinition.1 hcd with rfl | ⟨s, field, cases, _, _, rfl, -⟩
    · simp [Chain.above, Trail.fields] at hf
    · exact absurd (hleaves _ hd) (by simp [Tree.selection])

end Registry

/-- A layout with a case that has one bit of a pattern above, and the bit below it. -/
def crossingLayout : Draft :=
  ((Draft.new "t").member (.fixed "op" "101")).member (.field "kind" 2) |>.select "kind"
    [(1, (Draft.new "b").member (.atBit 60 (.field "x" 2)))]

/-- The definition that it is built to. -/
def crossingDefinition : Definition :=
  .select ⟨"t", 7 <<< 61, 5 <<< 61, [⟨"op", ⟨61, 3, false⟩⟩, ⟨"kind", ⟨59, 2, false⟩⟩]⟩ "kind"
    [(1, .leaf ⟨"b", 0, 0, [⟨"x", ⟨60, 2, false⟩⟩]⟩)]

/-- The text of a table with one format. -/
def plainTable : String :=
  "\x7b\"formats\": [\x7b\"name\": \"u\", \"members\": [\x7b\"op\": \"01\"\x7d, \x7b\"y\": 3\x7d]\x7d]\x7d"

/-- The definition of the format. -/
def plainDefinition : Definition :=
  .leaf ⟨"u", 3 <<< 62, 1 <<< 62, [⟨"op", ⟨62, 2, false⟩⟩, ⟨"y", ⟨59, 3, false⟩⟩]⟩

theorem crossingDefinition_isProduced : crossingDefinition.IsProduced := by
  have hdrawn : crossingLayout.IsDrawnWith Member.IsShort := by
    refine .select (.member (.member (.new "t") (by decide)) (by decide)) "kind" ?_
    simpa using .member (.new "b") (by decide)
  exact .built hdrawn rfl

theorem plainDefinition_isProduced : plainDefinition.IsProduced := by
  have hread : Table.Document.ofText plainTable =
      .ok ⟨[.leaf ⟨"u", [[("op", .pattern "01")], [("y", .width 3)]]⟩]⟩ := by
    rw [Table.Document.ofText, plainTable, String.toList_ofList]
    decide +kernel
  have hparse : Table.parse plainTable = .ok [plainDefinition] := by
    rw [Table.parse, hread]
    rfl
  refine .parsed hread ?_ hparse List.mem_cons_self
  intro f hf
  obtain rfl := List.mem_singleton.1 hf
  exact .leaf (by decide)

/-- Of the two the case is reported to overlap with what is above it, and not to be fixed in part. -/
theorem Registry.build_of_isProduced_crossing :
    (∀ d ∈ [crossingDefinition, plainDefinition], d.IsProduced) ∧
    build [crossingDefinition, plainDefinition] = .error (.overlappingFields "b" "op" "x") ∧
    (∀ name field, build [crossingDefinition, plainDefinition] ≠ .error (.aliasedField name field)) ∧
    (∃ c ∈ Chain.ofDefinitions [crossingDefinition, plainDefinition], c.target.label.name = "b" ∧
      ∃ f ∈ c.above.fields, f.name = "op" ∧ ∃ g ∈ c.target.label.fields, g.name = "x" ∧
        f.slice.mask &&& g.slice.mask ≠ 0) ∧
    ∀ name first second, build [plainDefinition] ≠ .error (.overlappingFields name first second) := by
  have hproduced : ∀ d ∈ [crossingDefinition, plainDefinition], d.IsProduced := by
    simp [crossingDefinition_isProduced, plainDefinition_isProduced]
  have hplain : ∀ d ∈ [plainDefinition], d.IsProduced := by simp [plainDefinition_isProduced]
  have hbuild : build [crossingDefinition, plainDefinition] =
      .error (.overlappingFields "b" "op" "x") := by rfl
  obtain ⟨-, -, haliased, hoverlap, -⟩ := build_of_isProduced hproduced
  refine ⟨hproduced, hbuild, haliased, hoverlap _ _ _ hbuild, ?_⟩
  exact (build_of_isProduced hplain).2.2.2.2 (by simp [plainDefinition, Tree.selection])

end ShaderWord
