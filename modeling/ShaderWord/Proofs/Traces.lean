import ShaderWord.Proofs.Naming
import ShaderWord.Proofs.Walks

/-!
# What is reported of a word

* `Chain.EndsAt c w` — the way of `w` ends at `c`: the position admits the word, and the case of the value that
  its selector has, if there is one, does not accept it;
* `Chain.report c w` — the start, the format, the choices on the way to `c`, and then the fields and the layout
  of a terminal position, or nothing more;
* `Registry.trace_eq_report`: of a word whose way ends at `c` this is what is reported, although the path of a
  layout is settled when a registry is built and the events are read off the word.

A word that some format accepts has such an end (`Chain.exists_endsAt`), and of any other word nothing but the
start is reported.
-/

namespace ShaderWord

/-- What is reported of a choice. -/
def Event.ofChoice (p : Choice) : Event := .discriminant p.field p.key

/-- The trace after more events at its front. -/
def Trace.afterAll (es : List Event) (t : Trace) : Trace := ⟨es ++ t.events, t.result⟩

namespace Chain

variable {c : Chain} {w : Word} {f : Field}

/-- The position admits the word, and the word goes on into none of its cases. -/
structure EndsAt (c : Chain) (w : Word) : Prop where
  admits : c.Admits w
  stuck : ∀ field cases, c.target.selection = some (field, cases) → ∀ f, c.field? field = some f →
    ∀ child, (f.slice.raw w, child) ∈ cases → child.label.accepts w = false

/-- What is reported where a way ends. -/
def ending (c : Chain) (w : Word) : Trace :=
  match c.target.selection with
  | none => .finish c.layout w
  | some (field, _) =>
    let value := ((c.field? field).map fun f => f.slice.raw w).getD 0
    .failure (.unknownDiscriminant c.layout.format field value w)

/-- What is reported of a word whose way ends at the position. -/
def report (c : Chain) (w : Word) : Trace :=
  (((c.ending w).afterAll (c.path.map Event.ofChoice)).after (.format c.layout.format)).after (.start w)

/-! ### Ends -/

section Ends

variable {ds : List Definition} {d : Definition}

theorem format_layout (hc : c ∈ ofDefinition d) : c.layout.format = d.label.name := by
  simp [layout, head?_names hc]

/-- **From a position that admits the word its way goes on to an end.** -/
theorem exists_endsAt_of_admits (h : Accepted ds) (hd : d ∈ ds) (hc : c ∈ ofDefinition d)
    (hw : c.Admits w) : ∃ c' ∈ ofDefinition d, c'.EndsAt w := by
  generalize ht : c.target = t
  induction t using Tree.induct generalizing c with
  | leaf shape =>
    refine ⟨c, hc, hw, fun field cases hsel => ?_⟩
    rw [ht] at hsel
    cases hsel
  | select shape field cases ih =>
    have hmemds : c ∈ ofDefinitions ds := mem_ofDefinitions hd hc
    have hsel := Tree.selection_of_select ht
    obtain ⟨f, hf, -, -⟩ := (h.resolved c hmemds).selector field cases hsel
    by_cases hgo : ∃ child, (f.slice.raw w, child) ∈ cases ∧ child.label.accepts w = true
    · obtain ⟨child, hmem, haccept⟩ := hgo
      have hext : (c.extend ⟨field, f.slice.raw w⟩ child).Admits w :=
        (admits_extend_of_accepted h hmemds hf).2 ⟨hw, rfl, haccept⟩
      exact ih _ hmem (extend_mem hc ht hmem) hext rfl
    · refine ⟨c, hc, hw, fun field' cases' hsel' g hg child hmem => ?_⟩
      obtain ⟨rfl, rfl⟩ : field = field' ∧ cases = cases' := by
        simpa [hsel] using hsel'
      obtain rfl : f = g := Option.some.inj (hf.symm.trans hg)
      by_contra haccept
      exact hgo ⟨child, hmem, by simpa using haccept⟩

/-- A word has an end in each format that accepts it. -/
theorem exists_endsAt (h : Accepted ds) (hd : d ∈ ds) (hw : d.label.accepts w = true) :
    ∃ c ∈ ofDefinition d, c.EndsAt w :=
  exists_endsAt_of_admits h hd (root_mem d) (admits_root.2 hw)

end Ends

end Chain

/-! ### What reports leave -/

namespace Trace

variable {t : Trace} {w : Word} {inst : Instruction}

theorem observe_afterAll_choices (ps : List Choice) :
    (t.afterAll (ps.map Event.ofChoice)).observe Instruction.observe inst =
      t.observe Instruction.observe inst := by
  induction ps with
  | nil => rfl
  | cons p ps ih => exact ih

/-- What a fresh report leaves does not depend on what was there before. -/
theorem observe_finish {layout : Layout} :
    (finish layout w).observe Instruction.observe ⟨w, none, []⟩ =
      ⟨w, some layout, layout.fields.map fun f => f.slice.extract w⟩ := by
  simp [finish, observe, observe_fields, Instruction.observe]

end Trace

namespace Chain

variable {c : Chain} {w : Word} {inst : Instruction} {field : String} {cases : List (Word × Definition)}
  {f : Field}

/-- The instruction of a word that reaches the layout of the position. -/
def instruction (c : Chain) (w : Word) : Instruction :=
  ⟨w, some c.layout, c.fields.map fun f => f.slice.extract w⟩

theorem report_of_isTerminal (ht : c.isTerminal = true) :
    c.report w =
      ⟨[.start w, .format c.layout.format] ++ c.path.map Event.ofChoice ++
        c.fields.map (fun f => .field f (f.slice.extract w)) ++ [.finish c.layout], .ok ()⟩ := by
  have hsel : c.target.selection = none := by simpa [isTerminal] using ht
  have hfields : c.layout.fields = c.fields := rfl
  rw [report, ending, hsel]
  simp [Trace.after, Trace.afterAll, Trace.finish, hfields]

theorem report_of_selection (hsel : c.target.selection = some (field, cases))
    (hf : c.field? field = some f) :
    c.report w = ⟨[.start w, .format c.layout.format] ++ c.path.map Event.ofChoice,
      .error (.unknownDiscriminant c.layout.format field (f.slice.raw w) w)⟩ := by
  rw [report, ending, hsel]
  simp [Trace.after, Trace.afterAll, Trace.failure, hf]

theorem observe_report : (c.report w).observe Instruction.observe inst =
    (c.ending w).observe Instruction.observe ⟨w, none, []⟩ :=
  Trace.observe_afterAll_choices c.path

theorem observe_report_of_isTerminal (ht : c.isTerminal = true) :
    (c.report w).observe Instruction.observe inst = c.instruction w := by
  have hsel : c.target.selection = none := by simpa [isTerminal] using ht
  rw [observe_report, ending, hsel, Trace.observe_finish]
  rfl

theorem observe_report_of_selection (hsel : c.target.selection = some (field, cases)) :
    (c.report w).observe Instruction.observe inst = ⟨w, none, []⟩ := by
  rw [observe_report, ending, hsel]
  rfl

end Chain

/-! ### Plans along the way -/

namespace Plan

variable {format : String} {w value : Word} {s : Settled} {f : Field} {cases : List (Word × Definition)}
  {ps : List (Word × Plan)}

theorem exists_descendCases_eq (hps : List.Forall₂ (ResolvesCase format s f) cases ps)
    (hn : (cases.map Prod.fst).Nodup) {child : Definition} (hmem : (value, child) ∈ cases)
    (haccept : child.label.accepts w = true) :
    ∃ q, resolve format (s.chosen f value) child = .ok q ∧ descendCases format w f value ps =
      (q.descend format w).after (.discriminant f.name value) := by
  induction hps with
  | nil => cases hmem
  | @cons c p rest ps hcase _ ih =>
    obtain ⟨key, other⟩ := c
    obtain ⟨_, plan⟩ := p
    obtain ⟨rfl, -, hplan⟩ := hcase
    obtain ⟨hfresh, hn⟩ := List.nodup_cons.1 hn
    rw [descendCases]
    rcases List.mem_cons.1 hmem with heq | hmem
    · obtain ⟨rfl, rfl⟩ := Prod.mk.inj heq
      refine ⟨plan, hplan, ?_⟩
      rw [if_pos rfl, if_pos (by rw [shape_of_resolve hplan, haccept])]
    · have hne : key ≠ value := by
        rintro rfl
        exact hfresh (List.mem_map.2 ⟨_, hmem, rfl⟩)
      rw [if_neg hne]
      exact ih hn hmem

theorem descendCases_eq_failure (hps : List.Forall₂ (ResolvesCase format s f) cases ps)
    (hstuck : ∀ child, (value, child) ∈ cases → child.label.accepts w = false) :
    descendCases format w f value ps = .failure (.unknownDiscriminant format f.name value w) := by
  induction hps with
  | nil => rfl
  | @cons c p rest ps hcase _ ih =>
    obtain ⟨key, child⟩ := c
    obtain ⟨_, plan⟩ := p
    obtain ⟨rfl, -, hplan⟩ := hcase
    rw [descendCases]
    by_cases hkey : key = value
    · have hrefuse : plan.shape.accepts w = false := by
        rw [shape_of_resolve hplan]
        exact hstuck child (by rw [hkey]; exact List.mem_cons_self)
      rw [if_pos hkey, if_neg (by rw [hrefuse]; simp)]
    · rw [if_neg hkey]
      exact ih fun child hmem => hstuck child (List.mem_cons_of_mem _ hmem)

variable {ds : List Definition} {d : Definition} {p : Plan} {c : Chain}

/-- **What is reported down to a position that admits the word** are the choices on the way, and then what is
reported from there. -/
theorem descend_eq_of_admits (h : Accepted ds) (hd : d ∈ ds) (hp : ofDefinition d = .ok p) :
    ∀ c ∈ Chain.ofDefinition d, c.Admits w → ∃ s q, s.Records c.above ∧
      resolve d.label.name s c.target = .ok q ∧
        p.descend d.label.name w =
          (q.descend d.label.name w).afterAll (c.path.map Event.ofChoice) := by
  refine Chain.induct (fun _ => ⟨_, p, Settled.Records.empty, hp, rfl⟩) ?_
  intro c hc shape field cases key child ht hmem ih hw
  have hmemds : c ∈ Chain.ofDefinitions ds := Chain.mem_ofDefinitions hd hc
  have hsel := Tree.selection_of_select ht
  obtain ⟨g, hg, -, hfits⟩ := (h.resolved c hmemds).selector field cases hsel
  obtain ⟨hcw, hraw, haccept⟩ := (Chain.admits_extend_of_accepted h hmemds hg).1 hw
  obtain ⟨s, q, hs, hq, hdescend⟩ := ih hcw
  obtain ⟨hrec, f, hf, rfl, hu, ps, hps, rfl⟩ := Chain.exists_of_resolve_select hs ht hq
  obtain rfl : g = f := Option.some.inj (hg.symm.trans hf)
  obtain ⟨q', hq', hgo⟩ :=
    exists_descendCases_eq (w := w) hps (h.keys_nodup hmemds hsel) hmem haccept
  refine ⟨_, q', Chain.records_extend child hrec hf hu (hfits _ hmem), hq', ?_⟩
  have hraw' : g.slice.raw w = key := hraw
  rw [hdescend, descend, hraw', hgo, Chain.path_extend, List.map_append]
  simp [Trace.afterAll, Trace.after, Event.ofChoice]

/-- What is reported from the end of a way. -/
theorem descend_eq_ending (hs : s.Records c.above) (hformat : c.names.head? = some format)
    (hw : c.EndsAt w) (hp : resolve format s c.target = .ok p) : p.descend format w = c.ending w := by
  have hlayout : c.layout.format = format := by simp [Chain.layout, hformat]
  cases ht : c.target with
  | leaf shape =>
    rw [ht] at hp
    obtain ⟨htakes, rfl⟩ := resolve_leaf_eq_ok_iff.1 hp
    have hrec : (s.after shape).Records c.trail := by
      rw [Chain.trail_eq_enter, Tree.label_of_leaf ht]
      exact hs.enter htakes
    have hsel : c.target.selection = none := by rw [ht]; rfl
    rw [descend, Chain.layout_eq_of_records hrec hformat, Chain.ending, hsel]
  | select shape field cases =>
    have hsel := Tree.selection_of_select ht
    obtain ⟨-, f, hf, rfl, -, ps, hps, rfl⟩ := Chain.exists_of_resolve_select hs ht hp
    rw [descend, descendCases_eq_failure hps (hw.stuck _ _ hsel f hf), Chain.ending, hsel]
    simp only [hf, Option.map_some, Option.getD_some, hlayout]

end Plan

/-! ### Traces of a registry -/

namespace Registry

variable {ds : List Definition} {d : Definition} {r : Registry} {c : Chain} {w : Word}

theorem walk_eq_of_build (h : build ds = .ok r) :
    (∀ d, ds.find? (·.label.accepts w) = some d → ∃ p, Plan.ofDefinition d = .ok p ∧
      r.walk w = (p.descend d.label.name w).after (.format d.label.name)) ∧
    (ds.find? (·.label.accepts w) = none → r.walk w = .failure (.unknownFormat w)) := by
  obtain ⟨hv, plans, hplans, rfl⟩ := build_eq_ok_iff.1 h
  exact walkFrom_eq (r := ofPlans ds plans) (Plan.ofDefinitions_eq_ok_iff.1 hplans)
    (Plan.laidAt_pushRoots #[] plans).2 (keysNodup_of_ofDefinitions hv hplans)

/-- **Of a word that no format accepts nothing is reported but the start.** -/
theorem trace_eq_of_refused (h : build ds = .ok r) (hw : ∀ d ∈ ds, d.label.accepts w = false) :
    r.trace w = ⟨[.start w], .error (.unknownFormat w)⟩ := by
  have hnone : ds.find? (·.label.accepts w) = none :=
    List.find?_eq_none.2 fun d hd => by simp [hw d hd]
  rw [trace, (walk_eq_of_build h).2 hnone]
  rfl

/-- **Of a word whose way ends at a position the report of that position is made.** -/
theorem trace_eq_report (h : build ds = .ok r) (hc : c ∈ Chain.ofDefinitions ds) (hw : c.EndsAt w) :
    r.trace w = c.report w := by
  have hacc := (accepted_of_build h).1
  obtain ⟨d, hd, hcd⟩ := Chain.exists_of_mem_ofDefinitions hc
  have haccept : d.label.accepts w = true :=
    hw.admits.1 d.label (List.mem_of_mem_head? (Chain.head?_shapes hcd))
  obtain ⟨p, hp, hwalk⟩ := (walk_eq_of_build h).1 d (hacc.find?_eq_some hd haccept)
  obtain ⟨s, q, hs, hq, hdescend⟩ := Plan.descend_eq_of_admits hacc hd hp c hcd hw.admits
  have hformat := Chain.head?_names hcd
  have hending := Plan.descend_eq_ending hs hformat hw hq
  have hname : c.layout.format = d.label.name := Chain.format_layout hcd
  rw [trace, hwalk, hdescend, hending, Chain.report, hname]

/-- **What is left of a trace.** A word that decodes leaves its instruction in place of any other, and a word
that does not leaves itself alone. -/
theorem redecode_cases (h : build ds = .ok r) (slot : Instruction) (w : Word) :
    (∃ c ∈ Chain.ofDefinitions ds, c.isTerminal = true ∧ c.EndsAt w ∧
      r.decode w = .ok (c.instruction w) ∧ r.redecode slot w = (c.instruction w, .ok ())) ∨
    ∃ e, r.decode w = .error e ∧ r.redecode slot w = (⟨w, none, []⟩, .error e) := by
  have hacc := (accepted_of_build h).1
  -- both read the same trace, one into a blank instruction and one into what is there
  have hdecode : r.decode w = (r.trace w).read .blank := rfl
  have hredecode : r.redecode slot w =
    ((r.trace w).observe Instruction.observe slot, (r.trace w).result) := rfl
  by_cases hd : ∃ d ∈ ds, d.label.accepts w = true
  · obtain ⟨d, hd, haccept⟩ := hd
    obtain ⟨c, hcd, hend⟩ := Chain.exists_endsAt hacc hd haccept
    have hc := Chain.mem_ofDefinitions hd hcd
    rw [hdecode, hredecode, trace_eq_report h hc hend, Trace.read]
    cases hsel : c.target.selection with
    | none =>
      have ht : c.isTerminal = true := by simp [Chain.isTerminal, hsel]
      refine Or.inl ⟨c, hc, ht, hend, ?_, ?_⟩
      · rw [Chain.observe_report_of_isTerminal ht, Chain.report_of_isTerminal ht]
        rfl
      · rw [Chain.observe_report_of_isTerminal ht, Chain.report_of_isTerminal ht]
    | some selection =>
      obtain ⟨field, cases⟩ := selection
      obtain ⟨f, hf, -, -⟩ := (hacc.resolved c hc).selector field cases hsel
      refine Or.inr ⟨.unknownDiscriminant c.layout.format field (f.slice.raw w) w, ?_, ?_⟩
      · rw [Chain.report_of_selection hsel hf]
        rfl
      · rw [Chain.observe_report_of_selection hsel, Chain.report_of_selection hsel hf]
  · have hrefused : ∀ d ∈ ds, d.label.accepts w = false := by simpa using hd
    rw [hdecode, hredecode, trace_eq_of_refused h hrefused]
    exact Or.inr ⟨.unknownFormat w, rfl, rfl⟩

end Registry

/-! ### Choices and fields -/

namespace Chain

variable {ds : List Definition} {c : Chain} {w : Word} {p : Choice}

theorem discriminant?_instruction (hv : Admission.Vetted ds) (hc : c ∈ ofDefinitions ds)
    (hp : p ∈ c.path) : (c.instruction w).discriminant? p.field = some p.key := by
  have hpath : (c.instruction w).path = c.path := rfl
  rw [Instruction.discriminant?, hpath]
  cases hfind : c.path.find? (·.field = p.field) with
  | none =>
    have hnot := List.find?_eq_none.1 hfind p hp
    simp at hnot
  | some q =>
    have hfield : q.field = p.field := by simpa using List.find?_some hfind
    rw [List.inj_on_of_nodup_map (nodup_path_fields hv hc) (List.mem_of_find?_eq_some hfind) hp hfield]
    rfl

theorem field?_instruction (c : Chain) (w : Word) (name : String) :
    (c.instruction w).field? name = (c.field? name).map fun f => f.slice.extract w := by
  have hfields : (c.instruction w).fields =
      (c.fields.map Field.name).zip (c.fields.map fun f => f.slice.extract w) := rfl
  rw [Instruction.field?, hfields, field?]
  induction c.fields with
  | nil => rfl
  | cons f fs ih =>
    rw [List.map_cons, List.map_cons, List.zip_cons_cons, List.lookup_cons, List.find?_cons]
    by_cases hname : f.name = name
    · simp [hname]
    · have hbeq : (name == f.name) = false := by simpa using fun h => hname h.symm
      rw [hbeq, ih]
      simp [hname]

/-- A field that selected on the way has the key for its value. -/
theorem field?_of_choice (h : Accepted ds) (hc : c ∈ ofDefinitions ds) (hw : c.Admits w)
    (hp : p ∈ c.path) : (c.instruction w).field? p.field = some (.unsigned p.key) := by
  obtain ⟨f, hf, hraw⟩ := hw.2 p hp
  obtain ⟨g, hg, hu, -⟩ := (h.resolved c hc).sound.known p hp
  obtain rfl : f = g := Option.some.inj (hf.symm.trans hg)
  have hextract : f.slice.extract w = .unsigned p.key := by
    rw [Slice.extract, if_neg (by rw [hu]; simp), hraw]
  rw [field?_instruction, hf, Option.map_some, hextract]

end Chain

/-- **What is reported of a word.** Nothing but the start where no format accepts it; else the start, the
format and the choices on the way to the position where the word's way ends, and then each field with its
value and the layout, or nothing where that position has cases. A decoded instruction is what its report
says, and under the field of each choice it has the choice's key. -/
theorem Registry.trace_exact {ds : List Definition} {r : Registry} (h : build ds = .ok r) (w : Word) :
    ((∀ d ∈ ds, d.label.accepts w = false) →
      r.trace w = ⟨[.start w], .error (.unknownFormat w)⟩) ∧
    (∀ d ∈ ds, d.label.accepts w = true → ∃ c ∈ Chain.ofDefinition d, c.EndsAt w ∧
      (c.isTerminal = true → r.trace w =
        ⟨[.start w, .format d.label.name] ++ c.path.map Event.ofChoice ++
          c.fields.map (fun f => .field f (f.slice.extract w)) ++ [.finish c.layout], .ok ()⟩) ∧
      ∀ field cases, c.target.selection = some (field, cases) → ∃ f, c.field? field = some f ∧
        r.trace w = ⟨[.start w, .format d.label.name] ++ c.path.map Event.ofChoice,
          .error (.unknownDiscriminant d.label.name field (f.slice.raw w) w)⟩) ∧
    ∀ inst, r.decode w = .ok inst → ∃ layout,
      inst = ⟨w, some layout, layout.fields.map fun f => f.slice.extract w⟩ ∧
      r.trace w = ⟨[.start w, .format layout.format] ++ layout.path.map Event.ofChoice ++
        layout.fields.map (fun f => .field f (f.slice.extract w)) ++ [.finish layout], .ok ()⟩ ∧
      ∀ p ∈ inst.path, inst.discriminant? p.field = some p.key ∧
        inst.field? p.field = some (.unsigned p.key) := by
  have hacc := (accepted_of_build h).1
  refine ⟨trace_eq_of_refused h, ?_, ?_⟩
  · intro d hd haccept
    obtain ⟨c, hcd, hend⟩ := Chain.exists_endsAt hacc hd haccept
    have hc := Chain.mem_ofDefinitions hd hcd
    refine ⟨c, hcd, hend, fun ht => ?_, fun field cases hsel => ?_⟩
    · rw [trace_eq_report h hc hend, Chain.report_of_isTerminal ht, Chain.format_layout hcd]
    · obtain ⟨f, hf, -, -⟩ := (hacc.resolved c hc).selector field cases hsel
      refine ⟨f, hf, ?_⟩
      rw [trace_eq_report h hc hend, Chain.report_of_selection hsel hf, Chain.format_layout hcd]
  · intro inst hinst
    rcases redecode_cases h .blank w with ⟨c, hc, ht, hend, hdecode, -⟩ | ⟨e, he, -⟩
    · obtain rfl : c.instruction w = inst := Except.ok.inj (hdecode.symm.trans hinst)
      refine ⟨c.layout, rfl, ?_, fun p hp => ⟨?_, ?_⟩⟩
      · rw [trace_eq_report h hc hend, Chain.report_of_isTerminal ht]
        rfl
      · exact Chain.discriminant?_instruction hacc.vetted hc hp
      · exact Chain.field?_of_choice hacc hc hend.admits hp
    · rw [hinst] at he
      cases he

/-- The word 9 decodes to `a.b.a` by way of two choices. -/
theorem Registry.trace_exact_reusedNames : ∃ r layout, build reusedNames = .ok r ∧
    r.decode 9 = .ok ⟨9, some layout, [.unsigned 1, .unsigned 0]⟩ ∧
    r.trace 9 = ⟨[.start 9, .format "a", .discriminant "k" 1, .discriminant "j" 0,
      .field ⟨"k", ⟨0, 1, false⟩⟩ (.unsigned 1), .field ⟨"j", ⟨1, 1, false⟩⟩ (.unsigned 0),
      .finish layout], .ok ()⟩ := by
  obtain ⟨r, hr⟩ : ∃ r, build reusedNames = .ok r := ⟨_, rfl⟩
  let layout : Layout := ⟨"a.b.a", "a", [⟨"k", 1⟩, ⟨"j", 0⟩],
    [⟨"k", ⟨0, 1, false⟩⟩, ⟨"j", ⟨1, 1, false⟩⟩]⟩
  have hinst : r.decode 9 = .ok ⟨9, some layout, [.unsigned 1, .unsigned 0]⟩ := by
    obtain ⟨hv, plans, hplans, rfl⟩ := build_eq_ok_iff.1 hr
    rw [decode_ofPlans hv hplans]
    rfl
  obtain ⟨layout', heq, htrace, -⟩ := (trace_exact hr 9).2.2 _ hinst
  obtain rfl : layout = layout' := Option.some.inj (Instruction.mk.inj heq).2.1
  exact ⟨r, layout, hr, hinst, htrace⟩

end ShaderWord
