import ShaderWord.Instruction
import ShaderWord.Proofs.NodeVector
import ShaderWord.Proofs.Resolution
import ShaderWord.Walk

/-!
# Compiled decoding refines the definitions

From the vector to the plans is `Registry.descend_eq`; from the plans to the definitions is
`Plan.read_descend`: what resolution settles on the way down is what a walk along the definitions has
passed. Together they say that a registry decodes as the definitions are read, `Registry.decode_eq_decode`.
-/

namespace ShaderWord

/-! ### What is left of a trace -/

namespace Trace

/-- The instruction that a trace leaves in place of another. -/
def read (t : Trace) (inst : Instruction) : Except DecodeError Instruction :=
  t.result.map fun _ => t.observe Instruction.observe inst

variable {t : Trace} {e : Event} {layout : Layout} {w : Word} {inst : Instruction}

@[simp] theorem read_after : (t.after e).read inst = t.read (inst.observe e) := rfl

lemma observe_fields (fs : List Field) (inst : Instruction) :
    (fs.map fun f => Event.field f (f.slice.extract w)).foldl Instruction.observe inst =
      { inst with values := inst.values ++ fs.map fun f => f.slice.extract w } := by
  induction fs generalizing inst with
  | nil => simp
  | cons f fs ih => simp [ih, Instruction.observe]

theorem read_finish : (finish layout w).read ⟨w, none, []⟩ =
    .ok ⟨w, some layout, layout.fields.map fun f => f.slice.extract w⟩ := by
  simp [read, finish, observe, Except.map, observe_fields, Instruction.observe]

end Trace

/-! ### From plans to definitions -/

/-- What a walk has passed when so much is settled. -/
def Settled.passed (s : Settled) : Definition.Passed := ⟨s.names, s.fields, s.path⟩

namespace Plan

variable {format : String} {w : Word} {s : Settled} {d : Definition} {p : Plan} {f : Field}
  {cases : List (Word × Definition)} {ps : List (Word × Plan)}

theorem shape_of_resolve (h : resolve format s d = .ok p) : p.shape = d.label := by
  cases d with
  | leaf shape =>
    obtain ⟨-, rfl⟩ := resolve_leaf_eq_ok_iff.1 h
    rfl
  | select shape field cases =>
    obtain ⟨-, f, -, -, ps, -, rfl⟩ := resolve_select_eq_ok_iff.1 h
    rfl

theorem read_descendCases (hps : List.Forall₂ (ResolvesCase format s f) cases ps) (value : Word)
    (ih : ∀ c ∈ cases, ∀ s p, resolve format s c.2 = .ok p →
      (p.descend format w).read ⟨w, none, []⟩ = Definition.walk format w s.passed c.2) :
    (descendCases format w f value ps).read ⟨w, none, []⟩ =
      Definition.walkCases format w s.passed f.name value cases := by
  induction hps with
  | nil => rfl
  | @cons c p rest ps hcase _ hrest =>
    obtain ⟨key, child⟩ := c
    obtain ⟨_, plan⟩ := p
    obtain ⟨rfl, -, hplan⟩ := hcase
    obtain ⟨hchild, ih⟩ := List.forall_mem_cons.1 ih
    rw [descendCases, Definition.walkCases, shape_of_resolve hplan]
    split_ifs with hkey haccept
    · exact hchild _ _ hplan
    · rfl
    · exact hrest ih

/-- **A walk along a plan leaves what a walk along its definition finds.** -/
theorem read_descend (h : resolve format s d = .ok p) :
    (p.descend format w).read ⟨w, none, []⟩ = Definition.walk format w s.passed d := by
  induction d using Tree.induct generalizing s p with
  | leaf shape =>
    obtain ⟨-, rfl⟩ := resolve_leaf_eq_ok_iff.1 h
    rw [descend, Definition.walk, Trace.read_finish]
    rfl
  | select shape field cases ih =>
    obtain ⟨-, f, hfind, -, ps, hps, rfl⟩ := resolve_select_eq_ok_iff.1 h
    have hname : f.name = field := by simpa using List.find?_some hfind
    have hpassed : (s.passed.enter shape).fields.find? (·.name = field) = some f := hfind
    rw [descend, Definition.walk]
    simp only [hpassed]
    rw [← hname]
    exact read_descendCases hps _ fun c hc s p => ih c hc

theorem keysNodup_of_resolve (h : resolve format s d = .ok p)
    (hd : ∀ c ∈ Chain.ofDefinition d, ∀ field cases, c.target.selection = some (field, cases) →
      (cases.map Prod.fst).Nodup) : p.KeysNodup := by
  induction d using Tree.induct generalizing s p with
  | leaf shape =>
    obtain ⟨-, rfl⟩ := resolve_leaf_eq_ok_iff.1 h
    trivial
  | select shape field cases ih =>
    obtain ⟨-, f, -, -, ps, hps, rfl⟩ := resolve_select_eq_ok_iff.1 h
    have hkeys : cases.map Prod.fst = ps.map Prod.fst :=
      List.forall₂_eq_eq_eq ▸ List.forall₂_map_left_iff.2
        (List.forall₂_map_right_iff.2 (hps.imp fun _ _ hcase => hcase.1))
    refine ⟨hkeys ▸ hd _ (Chain.root_mem _) field cases rfl, keysNodupCases_iff.2 fun q hq => ?_⟩
    obtain ⟨c, hc, -, -, hcq⟩ := exists_of_forall₂_right hps hq
    exact ih c hc hcq fun c' hc' => hd (c'.below ⟨shape, ⟨field, c.1⟩⟩) (Chain.below_mem hc hc')

end Plan

/-! ### From the roots to the formats -/

namespace Registry

variable {r : Registry} {ds : List Definition} {plans : List Plan} {roots : List Nat} {w : Word}

/-- The walk from the first of the roots that accepts the word. -/
def walkFrom (r : Registry) (w : Word) (roots : List Nat) : Trace :=
  match roots.findSome? fun i => (r.accepting? w i).map (i, ·) with
  | none => .failure (.unknownFormat w)
  | some (i, root) => (r.descend root.shape.name w i root).after (.format root.shape.name)

/-- The first root that accepts the word is that of the first format that does. -/
theorem walkFrom_eq (hplans : List.Forall₂ (fun d p => Plan.ofDefinition d = .ok p) ds plans)
    (hroots : List.Forall₂ (fun p i => p.LaidAt r.nodes i) plans roots)
    (hkeys : ∀ p ∈ plans, p.KeysNodup) :
    (∀ d, ds.find? (·.label.accepts w) = some d → ∃ p, Plan.ofDefinition d = .ok p ∧
      r.walkFrom w roots = (p.descend d.label.name w).after (.format d.label.name)) ∧
    (ds.find? (·.label.accepts w) = none → r.walkFrom w roots = .failure (.unknownFormat w)) := by
  unfold walkFrom
  induction hplans generalizing roots with
  | nil =>
    obtain rfl := List.forall₂_nil_left_iff.1 hroots
    exact ⟨fun d hd => (nomatch hd), fun _ => rfl⟩
  | @cons d p ds plans hd _ ih =>
    obtain ⟨i, rest, hlaid, hrest, rfl⟩ := List.forall₂_cons_left_iff.1 hroots
    obtain ⟨hp, hkeys⟩ := List.forall_mem_cons.1 hkeys
    obtain ⟨n, hn, hshape⟩ := hlaid.exists_root
    have hlabel : p.shape = d.label := Plan.shape_of_resolve hd
    rw [List.findSome?_cons, List.find?_cons, accepting?_of_root hn hshape, hlabel]
    cases haccept : d.label.accepts w with
    | false => exact ih hrest hkeys
    | true =>
      refine ⟨?_, fun hnone => (nomatch hnone)⟩
      intro d' hd'
      obtain rfl : d = d' := Option.some.inj hd'
      refine ⟨p, hd, ?_⟩
      simp only [if_true, Option.map_some, hshape, hlabel]
      rw [descend_eq hp hlaid hn]

theorem read_walkFrom (hplans : List.Forall₂ (fun d p => Plan.ofDefinition d = .ok p) ds plans)
    (hroots : List.Forall₂ (fun p i => p.LaidAt r.nodes i) plans roots)
    (hkeys : ∀ p ∈ plans, p.KeysNodup) :
    (r.walkFrom w roots).read ⟨w, none, []⟩ = Definition.decode ds w := by
  obtain ⟨hsome, hnone⟩ := walkFrom_eq (w := w) hplans hroots hkeys
  unfold Definition.decode
  cases hfind : ds.find? (·.label.accepts w) with
  | none =>
    rw [hnone hfind]
    rfl
  | some d =>
    obtain ⟨p, hp, hwalk⟩ := hsome d hfind
    rw [hwalk, Trace.read_after]
    exact Plan.read_descend hp

theorem build_eq_ok_iff :
    build ds = .ok r ↔ Admission.Vetted ds ∧ ∃ plans, Plan.ofDefinitions ds = .ok plans ∧
      ofPlans ds plans = r := by
  unfold build
  rw [bind_unit_eq_ok_iff, Admission.vet_eq_ok_iff, bind_eq_ok_iff]
  refine and_congr_right fun _ => exists_congr fun plans => and_congr_right fun _ => ?_
  exact ⟨fun h => Except.ok.inj h, fun h => by rw [h]; rfl⟩

theorem keysNodup_of_ofDefinitions (hv : Admission.Vetted ds)
    (hplans : Plan.ofDefinitions ds = .ok plans) : ∀ p ∈ plans, p.KeysNodup := by
  intro p hp
  obtain ⟨d, hd, hdp⟩ := exists_of_forall₂_right (Plan.ofDefinitions_eq_ok_iff.1 hplans) hp
  refine Plan.keysNodup_of_resolve hdp fun c hc field cases hsel => ?_
  exact (hv.selections c (Chain.mem_ofDefinitions hd hc) field cases hsel).apart.keys_nodup

theorem decode_ofPlans (hv : Admission.Vetted ds) (hplans : Plan.ofDefinitions ds = .ok plans)
    (w : Word) : (ofPlans ds plans).decode w = Definition.decode ds w :=
  read_walkFrom (r := ofPlans ds plans) (Plan.ofDefinitions_eq_ok_iff.1 hplans)
    (Plan.laidAt_pushRoots #[] plans).2 (keysNodup_of_ofDefinitions hv hplans)

/-- **A registry decodes every word as the definitions are read**, failures included. -/
theorem decode_eq_decode (h : build ds = .ok r) (w : Word) : r.decode w = Definition.decode ds w := by
  obtain ⟨hv, plans, hplans, rfl⟩ := build_eq_ok_iff.1 h
  exact decode_ofPlans hv hplans w

end Registry

/-- Two cases, the greater key first. -/
def twoCases : Definition :=
  .select ⟨"t", 0x30, 0x10, [⟨"kind", ⟨0, 2, false⟩⟩]⟩ "kind"
    [(2, .leaf ⟨"b", 0xC0, 0x40, [⟨"x", ⟨8, 8, true⟩⟩]⟩), (1, .leaf ⟨"a", 0, 0, []⟩)]

/-- A word whose `x` is negative, one that no case accepts, and one that the format refuses. -/
theorem Registry.decode_eq_decode_twoCases : ∃ r, build [twoCases] = .ok r ∧
    r.decode 0x8052 = .ok ⟨0x8052, some ⟨"t.b", "t", [⟨"kind", 2⟩],
      [⟨"kind", ⟨0, 2, false⟩⟩, ⟨"x", ⟨8, 8, true⟩⟩]⟩, [.unsigned 2, .signed (-128)]⟩ ∧
    r.decode 0x12 = .error (.unknownDiscriminant "t" "kind" 2 0x12) ∧
    r.decode 0 = .error (.unknownFormat 0) := by
  obtain ⟨r, hr⟩ : ∃ r, build [twoCases] = .ok r := ⟨_, rfl⟩
  refine ⟨r, hr, ?_, ?_, ?_⟩
  · exact (decode_eq_decode hr 0x8052).trans rfl
  · exact (decode_eq_decode hr 0x12).trans rfl
  · exact (decode_eq_decode hr 0).trans rfl

end ShaderWord
