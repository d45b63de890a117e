import ShaderWord.Proofs.Accepted
import ShaderWord.Proofs.Keys

/-!
# Keys tell positions apart

In definitions that have been admitted the names on the way to a position tell it from all others
(`Chain.nodup_names`), and so does its key (`Chain.nodup_keys`). The keys that enclose the key of a position
are those of the positions on the way to it (`Chain.mem_enclosing_key_iff`).
-/

namespace ShaderWord

namespace Chain

/-! ### Positions on the way to a position -/

/-- The position `a` is on the way to `c`, or is `c`. -/
structure Passes (ds : List Definition) (c a : Chain) : Prop where
  mem : a ∈ ofDefinitions ds
  goesOn : ∃ t ∈ ofDefinition a.target, a.append t = c

section Passes

variable {ds : List Definition} {d : Definition} {c a t : Chain} {shape : Shape} {field : String}
  {cases : List (Word × Definition)} {key : Word} {child : Definition}

theorem append_extend (a t : Chain) (p : Choice) (child : Definition) :
    a.append (t.extend p child) = (a.append t).extend p child := by
  simp [append, extend]

theorem append_mem (ha : a ∈ ofDefinition d) :
    ∀ t ∈ ofDefinition a.target, a.append t ∈ ofDefinition d := by
  refine induct ?_ ?_
  · rwa [append_root]
  · intro t ht s field cases key child htarget hmem ih
    rw [append_extend]
    exact extend_mem ih htarget hmem

theorem Passes.refl (hc : c ∈ ofDefinitions ds) : Passes ds c c :=
  ⟨hc, ⟨[], c.target⟩, root_mem c.target, append_root c⟩

theorem Passes.extend (h : Passes ds c a) (ht : c.target = .select shape field cases)
    (hmem : (key, child) ∈ cases) : Passes ds (c.extend ⟨field, key⟩ child) a := by
  obtain ⟨t, hta, rfl⟩ := h.goesOn
  exact ⟨h.mem, t.extend ⟨field, key⟩ child, extend_mem hta ht hmem, append_extend a t _ child⟩

theorem Passes.eq_of_isTerminal (h : Passes ds c a) (ha : a.isTerminal = true) : a = c := by
  obtain ⟨t, hta, rfl⟩ := h.goesOn
  rcases mem_ofDefinition.1 hta with rfl | ⟨s, field, cases, key, child, htarget, -, -⟩
  · exact (append_root a).symm
  · simp [isTerminal, htarget, Tree.selection] at ha

end Passes

/-! ### Names -/

section Names

variable {ds : List Definition} {d : Definition} {c : Chain}

theorem names_ne_nil (c : Chain) : c.names ≠ [] := by
  simp [names, shapes]

lemma nodup_flatMap_of_head {β : Type} {l : List β} {name : β → String} {f : β → List (List String)}
    (hn : (l.map name).Nodup) (hf : ∀ b ∈ l, (f b).Nodup)
    (hhead : ∀ b ∈ l, ∀ ns ∈ f b, ns.head? = some (name b)) : (l.flatMap f).Nodup := by
  refine List.nodup_flatMap.2 ⟨hf, ?_⟩
  have hne : l.Pairwise fun b b' => name b ≠ name b' := List.pairwise_map.1 hn
  refine hne.imp_of_mem fun {b b'} hb hb' hbb' ns hns hns' => hbb' ?_
  exact Option.some.inj ((hhead b hb ns hns).symm.trans (hhead b' hb' ns hns'))

theorem map_names_ofCases (s : Shape) (field : String) (cases : List (Word × Definition)) :
    (ofCases s field cases).map names =
      (cases.flatMap fun p => (ofDefinition p.2).map names).map (s.name :: ·) := by
  induction cases with
  | nil => rfl
  | cons head rest ih =>
    obtain ⟨key, child⟩ := head
    rw [ofCases, List.map_append, ih, List.flatMap_cons, List.map_append, List.map_map, List.map_map]
    rfl

/-- Where the cases under each discriminant have different names, so have the positions. -/
theorem nodup_names_ofDefinition
    (hd : ∀ c ∈ ofDefinition d, ∀ field cases, c.target.selection = some (field, cases) →
      (cases.map (·.2.label.name)).Nodup) : ((ofDefinition d).map names).Nodup := by
  induction d using Tree.induct with
  | leaf shape => simp [ofDefinition]
  | select shape field cases ih =>
    have hcases : (cases.flatMap fun p => (ofDefinition p.2).map names).Nodup := by
      refine nodup_flatMap_of_head (hd _ (root_mem _) field cases rfl) (fun p hp => ?_) ?_
      · exact ih p hp fun c hc => hd (c.below ⟨shape, ⟨field, p.1⟩⟩) (below_mem hp hc)
      · intro p _ ns hns
        obtain ⟨c, hc, rfl⟩ := List.mem_map.1 hns
        exact head?_names hc
    rw [ofDefinition, List.map_cons, List.nodup_cons, map_names_ofCases]
    refine ⟨?_, hcases.map fun _ _ h => (List.cons.inj h).2⟩
    -- the definition itself has one name, and what is below it has more
    intro hroot
    obtain ⟨ns, hns, heq⟩ := List.mem_map.1 hroot
    obtain ⟨p, -, hp⟩ := List.mem_flatMap.1 hns
    obtain ⟨c, -, rfl⟩ := List.mem_map.1 hp
    exact names_ne_nil c (List.cons.inj heq).2

/-- **The names on the way to a position tell it from all others.** -/
theorem nodup_names (hv : Admission.Vetted ds) : ((ofDefinitions ds).map names).Nodup := by
  rw [ofDefinitions, List.map_flatMap]
  refine nodup_flatMap_of_head hv.names_nodup (fun d hd => ?_) ?_
  · refine nodup_names_ofDefinition fun c hc field cases hsel => ?_
    exact (hv.selections c (mem_ofDefinitions hd hc) field cases hsel).apart.names_nodup
  · intro d _ ns hns
    obtain ⟨c, hc, rfl⟩ := List.mem_map.1 hns
    exact head?_names hc

theorem isName_of_mem_names (hv : Admission.Vetted ds) (hc : c ∈ ofDefinitions ds) :
    ∀ n ∈ c.names, Key.IsName n := by
  obtain ⟨d, hd, hcd⟩ := exists_of_mem_ofDefinitions hc
  refine induct (P := fun c => ∀ n ∈ c.names, Key.IsName n) ?_ ?_ c hcd
  · intro n hn
    obtain rfl : n = d.label.name := by simpa [names, shapes] using hn
    exact hv.names d hd
  · intro c hc shape field cases key child ht hmem ih n hn
    rw [names_extend, List.mem_append, List.mem_singleton] at hn
    rcases hn with hn | rfl
    · exact ih n hn
    · have hsel := Tree.selection_of_select ht
      exact (hv.selections c (mem_ofDefinitions hd hc) field cases hsel).apart.names _ hmem

end Names

/-! ### Keys -/

section Keys

variable {ds : List Definition} {d : Definition} {c a : Chain} {shape : Shape} {field k : String}
  {cases : List (Word × Definition)} {key : Word} {child : Definition}

theorem key_root (d : Definition) : (⟨[], d⟩ : Chain).key = d.label.name := Key.ofNames_singleton _

theorem key_extend (c : Chain) (p : Choice) (child : Definition) :
    (c.extend p child).key = c.key ++ "." ++ child.label.name := by
  unfold Chain.key
  rw [names_extend, Key.ofNames_concat c.names_ne_nil]

theorem key_ne_empty (hv : Admission.Vetted ds) (hc : c ∈ ofDefinitions ds) : c.key ≠ "" :=
  Key.ofNames_ne_empty c.names_ne_nil (isName_of_mem_names hv hc)

/-- **The key of a position tells it from all others.** -/
theorem nodup_keys (hv : Admission.Vetted ds) : ((ofDefinitions ds).map Chain.key).Nodup := by
  have hmap : (ofDefinitions ds).map Chain.key = ((ofDefinitions ds).map names).map Key.ofNames := by
    rw [List.map_map]
    rfl
  rw [hmap]
  refine (nodup_names hv).map_on ?_
  simp only [List.mem_map]
  rintro _ ⟨c, hc, rfl⟩ _ ⟨c', hc', rfl⟩ heq
  exact Key.ofNames_inj c.names_ne_nil c'.names_ne_nil
    (fun n hn => (isName_of_mem_names hv hc n hn).2)
    (fun n hn => (isName_of_mem_names hv hc' n hn).2) heq

theorem eq_of_key_eq (hv : Admission.Vetted ds) (hc : c ∈ ofDefinitions ds)
    (ha : a ∈ ofDefinitions ds) (h : c.key = a.key) : c = a :=
  List.inj_on_of_nodup_map (nodup_keys hv) hc ha h

theorem enclosing_key_root (hv : Admission.Vetted ds) (hd : d ∈ ds) :
    Key.enclosing (⟨[], d⟩ : Chain).key = [(⟨[], d⟩ : Chain).key] := by
  rw [key_root]
  exact Key.enclosing_of_not_mem (hv.names d hd).2

/-- The key of a case is enclosed by itself and by what encloses the key above it. -/
theorem enclosing_key_extend (hv : Admission.Vetted ds) (hc : c ∈ ofDefinitions ds)
    (ht : c.target = .select shape field cases) (hmem : (key, child) ∈ cases) :
    Key.enclosing (c.extend ⟨field, key⟩ child).key =
      (c.extend ⟨field, key⟩ child).key :: Key.enclosing c.key := by
  have hsel := Tree.selection_of_select ht
  have hname := (hv.selections c hc field cases hsel).apart.names _ hmem
  rw [key_extend, Key.enclosing_append c.key hname.2]

theorem Passes.key_mem_enclosing (hv : Admission.Vetted ds) (h : Passes ds c a) :
    a.key ∈ Key.enclosing c.key := by
  obtain ⟨t, hta, rfl⟩ := h.goesOn
  obtain ⟨d, hd, ha⟩ := exists_of_mem_ofDefinitions h.mem
  refine induct (P := fun t => a.key ∈ Key.enclosing (a.append t).key) ?_ ?_ t hta
  · rw [append_root]
    exact List.mem_cons_self
  · intro t ht s field cases key child htarget hmem ih
    rw [append_extend]
    rw [enclosing_key_extend hv (mem_ofDefinitions hd (append_mem ha t ht)) htarget hmem]
    exact List.mem_cons_of_mem _ ih

theorem exists_passes_of_mem_enclosing (hv : Admission.Vetted ds) (hd : d ∈ ds) :
    ∀ c ∈ ofDefinition d, k ∈ Key.enclosing c.key → ∃ a, Passes ds c a ∧ a.key = k := by
  refine induct ?_ ?_
  · intro hk
    rw [enclosing_key_root hv hd, List.mem_singleton] at hk
    exact ⟨_, Passes.refl (root_mem_ofDefinitions hd), hk.symm⟩
  · intro c hc shape field cases key child ht hmem ih hk
    have hcds := mem_ofDefinitions hd hc
    rw [enclosing_key_extend hv hcds ht hmem] at hk
    rcases List.mem_cons.1 hk with rfl | hk
    · exact ⟨_, Passes.refl (mem_ofDefinitions hd (extend_mem hc ht hmem)), rfl⟩
    · obtain ⟨a, ha, rfl⟩ := ih hk
      exact ⟨a, ha.extend ht hmem, rfl⟩

/-- **What encloses the key of a position** are the keys of the positions on the way to it. -/
theorem mem_enclosing_key_iff (hv : Admission.Vetted ds) (hc : c ∈ ofDefinitions ds) :
    k ∈ Key.enclosing c.key ↔ ∃ a, Passes ds c a ∧ a.key = k := by
  constructor
  · obtain ⟨d, hd, hcd⟩ := exists_of_mem_ofDefinitions hc
    exact exists_passes_of_mem_enclosing hv hd c hcd
  · rintro ⟨a, ha, rfl⟩
    exact ha.key_mem_enclosing hv

/-- A terminal position's key encloses no other terminal position's. -/
theorem eq_of_encloses (hv : Admission.Vetted ds) (ha : a ∈ ofDefinitions ds)
    (hc : c ∈ ofDefinitions ds) (ht : a.isTerminal = true) (h : Key.Encloses a.key c.key) : a = c := by
  obtain ⟨b, hb, hkey⟩ := (mem_enclosing_key_iff hv hc).1 (Key.mem_enclosing_iff.2 h)
  obtain rfl : b = a := eq_of_key_eq hv hb.mem ha hkey
  exact hb.eq_of_isTerminal ht

end Keys

end Chain

/-- The positions without cases, in declaration order. -/
def Chain.terminals (ds : List Definition) : List Chain :=
  (Chain.ofDefinitions ds).filter Chain.isTerminal

theorem Chain.mem_terminals {ds : List Definition} {c : Chain} :
    c ∈ Chain.terminals ds ↔ c ∈ Chain.ofDefinitions ds ∧ c.isTerminal = true :=
  List.mem_filter

theorem Chain.nodup_terminals {ds : List Definition} (hv : Admission.Vetted ds) :
    (Chain.terminals ds).Nodup :=
  (List.Nodup.of_map _ (Chain.nodup_keys hv)).filter _

/-! ### The layouts of a registry -/

namespace Registry

variable {ds : List Definition} {r : Registry}

theorem layouts_eq_of_build (h : build ds = .ok r) :
    r.layouts = (Chain.terminals ds).map Chain.layout := by
  obtain ⟨-, plans, hplans, rfl⟩ := build_eq_ok_iff.1 h
  exact layouts_ofPlans hplans

theorem layout_keys_of_build (h : build ds = .ok r) :
    r.layouts.map Layout.key = (Chain.terminals ds).map Chain.key := by
  rw [layouts_eq_of_build h, List.map_map]
  rfl

theorem nodup_layout_keys (h : build ds = .ok r) : (r.layouts.map Layout.key).Nodup := by
  obtain ⟨hacc, -⟩ := accepted_of_build h
  rw [layout_keys_of_build h]
  exact (Chain.nodup_keys hacc.vetted).sublist (List.filter_sublist.map Chain.key)

/-- **Keys identify definitions.** No two positions have one key, and what encloses the key of a position are
the keys on the way to it. So the layouts, whose keys are those of the terminal positions, have different
keys, and none of them encloses another. -/
theorem keys_identify (h : build ds = .ok r) :
    ((Chain.ofDefinitions ds).map Chain.key).Nodup ∧
      (∀ c ∈ Chain.ofDefinitions ds, ∀ p,
        Key.Encloses p c.key ↔ ∃ a, Chain.Passes ds c a ∧ a.key = p) ∧
      r.layouts.map Layout.key = (Chain.terminals ds).map Chain.key ∧
      (r.layouts.map Layout.key).Nodup ∧
      r.layouts.Pairwise fun a b => ¬ Key.Encloses a.key b.key ∧ ¬ Key.Encloses b.key a.key := by
  have hv := (accepted_of_build h).1.vetted
  refine ⟨Chain.nodup_keys hv, fun c hc p => ?_, layout_keys_of_build h, nodup_layout_keys h, ?_⟩
  · rw [← Key.mem_enclosing_iff]
    exact Chain.mem_enclosing_key_iff hv hc
  · rw [layouts_eq_of_build h, List.pairwise_map]
    refine (Chain.nodup_terminals hv).imp_of_mem fun {a b} ha hb hne => ?_
    obtain ⟨ha, hta⟩ := Chain.mem_terminals.1 ha
    obtain ⟨hb, htb⟩ := Chain.mem_terminals.1 hb
    constructor
    · exact fun hencloses => hne (Chain.eq_of_encloses hv ha hb hta hencloses)
    · exact fun hencloses => hne (Chain.eq_of_encloses hv hb ha htb hencloses).symm

end Registry

/-- A definition with one case. -/
def nestedCase : Definition :=
  .select ⟨"b", 0, 0, [⟨"j", ⟨1, 1, false⟩⟩]⟩ "j" [(0, .leaf ⟨"a", 0, 0, []⟩)]

/-- Names that occur again, below another definition or at another depth. -/
def reusedNames : List Definition :=
  [.select ⟨"a", 8, 8, [⟨"k", ⟨0, 1, false⟩⟩]⟩ "k" [(0, .leaf ⟨"a", 0, 0, []⟩), (1, nestedCase)],
    .leaf ⟨"b", 8, 0, []⟩]

/-- What encloses `a.b.a` are the keys of three positions, and `a.a` and `b` are not among them. -/
theorem Registry.keys_identify_reusedNames : ∃ r, build reusedNames = .ok r ∧
    (Chain.ofDefinitions reusedNames).map Chain.key = ["a", "a.a", "a.b", "a.b.a", "b"] ∧
    r.layouts.map Layout.key = ["a.a", "a.b.a", "b"] ∧
    (∃ c ∈ Chain.ofDefinitions reusedNames, c.key = "a.b.a" ∧
      ∃ a, Chain.Passes reusedNames c a ∧ a.key = "a.b") ∧
    ¬ Key.Encloses "a.a" "a.b.a" ∧ ¬ Key.Encloses "b" "a.b.a" := by
  obtain ⟨r, hr⟩ : ∃ r, build reusedNames = .ok r := ⟨_, rfl⟩
  obtain ⟨-, hencloses, hkeys, -, hapart⟩ := keys_identify hr
  have hlayouts : r.layouts.map Layout.key = ["a.a", "a.b.a", "b"] := by
    rw [hkeys]
    decide +kernel
  have hpairs : (r.layouts.map Layout.key).Pairwise fun p q => ¬ Key.Encloses p q ∧ ¬ Key.Encloses q p :=
    List.pairwise_map.2 hapart
  rw [hlayouts] at hpairs
  obtain ⟨hfirst, hrest⟩ := List.pairwise_cons.1 hpairs
  obtain ⟨hsecond, -⟩ := List.pairwise_cons.1 hrest
  obtain ⟨c, hc, hkey⟩ : ∃ c ∈ Chain.ofDefinitions reusedNames, c.key = "a.b.a" := by decide +kernel
  refine ⟨r, hr, by decide +kernel, hlayouts, ⟨c, hc, hkey, ?_⟩, (hfirst _ (by simp)).1,
    (hsecond _ (by simp)).2⟩
  refine (hencloses c hc "a.b").1 ?_
  rw [hkey]
  exact .inr ⟨"a", rfl⟩

end ShaderWord
