import ShaderWord.Proofs.Naming

/-!
# The nodes are a forest

* `Node.HasCase nodes i key j` — the node at `i` is a branch, and its case of the key is the node at `j`;
* `Node.IsForest nodes roots` — cases stand before their branch, in increasing order of key, and each node is a root
  or once a case;
* `Registry.traceWithin r visits w` — decoding that may go through so many nodes, and to any of them from any.

A plan that is pushed adds a tree (`Node.adds_push`). From a root the vector goes down as the definitions do
(`Node.Stands`), so a way down has as many branches as discriminants may follow one another, and the loop of the
decoder ends (`Registry.descendWithin_eq`).
-/

namespace ShaderWord

/-! ### Cases of nodes -/

theorem CaseEntry.pairwise_sort {l : List CaseEntry} (hn : (l.map key).Nodup) :
    (sort l).toList.Pairwise fun c d => c.key < d.key := by
  obtain ⟨hperm, hsorted⟩ := toList_sort l
  have hne : ((sort l).toList.map key).Nodup := (hperm.map key).nodup_iff.2 hn
  exact (hsorted.and (List.pairwise_map.1 hne)).imp fun h => BitVec.lt_of_le_ne h.1 h.2

namespace Node

/-- The cases of a branch, in order. -/
def entries : Node → List CaseEntry
  | terminal .. => []
  | branch _ _ cases => cases.toList

def isBranch : Node → Bool
  | terminal .. => false
  | branch .. => true

/-- The node at `i` is a branch, and its case of the key is the node at `j`. -/
def HasCase (nodes : Array Node) (i : Nat) (key : Word) (j : Nat) : Prop :=
  ∃ n, nodes[i]? = some n ∧ ⟨key, j⟩ ∈ n.entries

theorem hasCase_iff {nodes : Array Node} {i j : Nat} {key : Word} :
    HasCase nodes i key j ↔ ∃ es, (nodes.toList.map entries)[i]? = some es ∧ ⟨key, j⟩ ∈ es := by
  simp [HasCase]

/-- The cases of a node at the index stand before it, in strictly increasing order of key. -/
structure IsOrdered (i : Nat) (n : Node) : Prop where
  before : ∀ c ∈ n.entries, c.node < i
  increasing : n.entries.Pairwise fun c d => c.key < d.key

/-- All nodes have their cases in order. -/
def AllOrdered (nodes : Array Node) : Prop :=
  ∀ (i : Nat) (n : Node), nodes[i]? = some n → n.IsOrdered i

/-- The nodes are trees below the roots. -/
structure IsForest (nodes : Array Node) (roots : List Nat) : Prop where
  ordered : AllOrdered nodes
  /-- A node is a root, or the case of one branch under one key. -/
  once : ∀ j < nodes.size, (j ∈ roots ∧ ∀ i key, ¬ HasCase nodes i key j) ∨
    (j ∉ roots ∧ ∃! p : Nat × Word, HasCase nodes p.1 p.2 j)

/-! ### Cases stand in order -/

section Ordered

variable {nodes : Array Node} {n : Node} {shape : Shape} {selector : Field} {layout : Layout}
  {cases : List (Word × Plan)} {entries : List CaseEntry} {plans : List Plan} {p : Plan}

theorem isOrdered_terminal {i : Nat} : (terminal shape layout).IsOrdered i where
  before := fun _ h => nomatch h
  increasing := List.Pairwise.nil

theorem isOrdered_branch {i : Nat} (h : Plan.CasesLaidAt nodes i cases entries)
    (hkeys : (cases.map Prod.fst).Nodup) :
    (branch shape selector (CaseEntry.sort entries)).IsOrdered i where
  before := by
    intro c hc
    obtain ⟨_, -, -, hlt, -⟩ := h.exists_of_mem ((CaseEntry.toList_sort entries).1.mem_iff.1 hc)
    exact hlt
  increasing := CaseEntry.pairwise_sort (by rwa [h.keys])

theorem AllOrdered.push (h : AllOrdered nodes) (hn : n.IsOrdered nodes.size) :
    AllOrdered (nodes.push n) := by
  intro i m hi
  rw [Array.getElem?_push] at hi
  split_ifs at hi with heq
  · obtain rfl := Option.some.inj hi
    rwa [heq]
  · exact h i m hi

mutual
theorem AllOrdered.pushPlan {nodes : Array Node} (h : AllOrdered nodes) (p : Plan) (hp : p.KeysNodup) :
    AllOrdered (Node.push nodes p) := by
  cases p with
  | terminal shape layout =>
    rw [Node.push]
    exact h.push isOrdered_terminal
  | branch shape selector cases =>
    obtain ⟨hkeys, hbelow⟩ := hp
    rw [Node.push]
    exact (h.pushCases cases hbelow).push (isOrdered_branch (Plan.casesLaidAt_pushCases nodes cases).2 hkeys)
theorem AllOrdered.pushCases {nodes : Array Node} (h : AllOrdered nodes) (cases : List (Word × Plan))
    (hcases : Plan.KeysNodupCases cases) : AllOrdered (Node.pushCases nodes cases).1 := by
  cases cases with
  | nil => exact h
  | cons c rest =>
    obtain ⟨hc, hrest⟩ := hcases
    rw [Node.pushCases]
    exact (h.pushPlan c.2 hc).pushCases rest hrest
end

theorem AllOrdered.pushRoots (h : AllOrdered nodes) (hplans : ∀ p ∈ plans, p.KeysNodup) :
    AllOrdered (Node.pushRoots nodes plans).1 := by
  induction plans generalizing nodes with
  | nil => exact h
  | cons p rest ih =>
    obtain ⟨hp, hrest⟩ := List.forall_mem_cons.1 hplans
    rw [Node.pushRoots]
    exact ih (h.pushPlan p hp) hrest

end Ordered

/-! ### Each node is once a case, or a root -/

/-- The nodes that are cases, as often as they are. -/
def targets (nodes : Array Node) : List Nat :=
  nodes.toList.flatMap fun n => n.entries.map CaseEntry.node

/-- The second vector has nodes behind those of the first, and each of them is once a case or else among `free`. -/
def Adds (nodes nodes' : Array Node) (free : List Nat) : Prop :=
  ∃ k, nodes'.size = nodes.size + k ∧
    (targets nodes' ++ free).Perm (targets nodes ++ List.range' nodes.size k)

section Adds

variable {a b c nodes : Array Node} {n : Node} {free free' roots : List Nat}

theorem Adds.refl (nodes : Array Node) : Adds nodes nodes [] := ⟨0, rfl, by simp⟩

theorem Adds.trans (h : Adds a b free) (h' : Adds b c free') : Adds a c (free ++ free') := by
  obtain ⟨k, hk, hperm⟩ := h
  obtain ⟨k', hk', hperm'⟩ := h'
  refine ⟨k + k', by omega, List.perm_iff_count.2 fun j => ?_⟩
  have hj := hperm.count_eq j
  have hj' := hperm'.count_eq j
  rw [← List.range'_append_1, ← hk]
  simp only [List.count_append] at hj hj' ⊢
  omega

/-- A node whose cases are those that were free is free in their place. -/
theorem Adds.push (h : Adds a b free) (hn : (n.entries.map CaseEntry.node).Perm free) :
    Adds a (b.push n) [b.size] := by
  obtain ⟨k, hk, hperm⟩ := h
  refine ⟨k + 1, by rw [Array.size_push]; omega, List.perm_iff_count.2 fun j => ?_⟩
  have hj := hperm.count_eq j
  have hnj := hn.count_eq j
  have htargets : targets (b.push n) = targets b ++ n.entries.map CaseEntry.node := by simp [targets]
  rw [htargets, List.range'_1_concat, ← hk]
  simp only [List.count_append] at hj ⊢
  omega

mutual
/-- **A plan that is pushed adds a tree**: of its nodes only the root is no case. -/
theorem adds_push (nodes : Array Node) (p : Plan) :
    Adds nodes (Node.push nodes p) [(Node.push nodes p).size - 1] := by
  cases p with
  | terminal shape layout =>
    rw [Node.push, Array.size_push]
    exact (Adds.refl nodes).push (List.Perm.refl _)
  | branch shape selector cases =>
    rw [Node.push, Array.size_push]
    exact (adds_pushCases nodes cases).push ((CaseEntry.toList_sort _).1.map _)
theorem adds_pushCases (nodes : Array Node) (cases : List (Word × Plan)) :
    Adds nodes (Node.pushCases nodes cases).1 ((Node.pushCases nodes cases).2.map CaseEntry.node) := by
  cases cases with
  | nil => exact Adds.refl nodes
  | cons c rest =>
    rw [Node.pushCases]
    exact (adds_push nodes c.2).trans (adds_pushCases _ rest)
end

theorem adds_pushRoots (nodes : Array Node) (plans : List Plan) :
    Adds nodes (Node.pushRoots nodes plans).1 (Node.pushRoots nodes plans).2 := by
  induction plans generalizing nodes with
  | nil => exact Adds.refl nodes
  | cons p rest ih =>
    rw [Node.pushRoots]
    exact (adds_push nodes p).trans (ih _)

theorem mem_targets_iff {j : Nat} : j ∈ targets nodes ↔ ∃ i key, HasCase nodes i key j := by
  unfold targets HasCase
  simp only [List.mem_flatMap, List.mem_map, Array.mem_toList_iff]
  constructor
  · rintro ⟨n, hn, c, hc, rfl⟩
    obtain ⟨i, hi⟩ := Array.mem_iff_getElem?.1 hn
    exact ⟨i, c.key, n, hi, hc⟩
  · rintro ⟨i, key, n, hi, hc⟩
    exact ⟨n, Array.mem_of_getElem? hi, _, hc, rfl⟩

/-- Where no node is twice a case, two branches do not share one, and one branch does not have it under two keys. -/
theorem HasCase.unique (hn : (targets nodes).Nodup) {i i' j : Nat} {key key' : Word}
    (h : HasCase nodes i key j) (h' : HasCase nodes i' key' j) : i = i' ∧ key = key' := by
  obtain ⟨hnodup, hdisjoint⟩ := List.nodup_flatMap.1 hn
  obtain ⟨m, hi, hm⟩ := h
  obtain ⟨m', hi', hm'⟩ := h'
  have hj : j ∈ m.entries.map CaseEntry.node := List.mem_map_of_mem hm
  have hj' : j ∈ m'.entries.map CaseEntry.node := List.mem_map_of_mem hm'
  rw [List.pairwise_iff_getElem] at hdisjoint
  obtain ⟨hlt, rfl⟩ := Array.getElem?_eq_some_iff.1 hi
  obtain ⟨hlt', rfl⟩ := Array.getElem?_eq_some_iff.1 hi'
  obtain rfl : i = i' := by
    rcases Nat.lt_trichotomy i i' with hless | heq | hless
    · exact (hdisjoint i i' hlt hlt' hless hj hj').elim
    · exact heq
    · exact (hdisjoint i' i hlt' hlt hless hj' hj).elim
  have hsame := List.inj_on_of_nodup_map (hnodup _ (by simp)) hm hm' rfl
  exact ⟨rfl, congrArg CaseEntry.key hsame⟩

/-- **Each node is a root or once a case**, if the cases and the roots together are all nodes. -/
theorem once_of_adds (h : Adds #[] nodes roots) : ∀ j < nodes.size,
    (j ∈ roots ∧ ∀ i key, ¬ HasCase nodes i key j) ∨
      (j ∉ roots ∧ ∃! p : Nat × Word, HasCase nodes p.1 p.2 j) := by
  obtain ⟨k, hsize, hperm⟩ := h
  obtain rfl : nodes.size = k := by simpa using hsize
  replace hperm : (targets nodes ++ roots).Perm (List.range nodes.size) := by
    simpa [targets, List.range_eq_range'] using hperm
  obtain ⟨hnodup, -, hdisjoint⟩ := List.nodup_append'.1 (hperm.nodup_iff.2 List.nodup_range)
  intro j hj
  have hmem : j ∈ targets nodes ++ roots := hperm.mem_iff.2 (List.mem_range.2 hj)
  rcases List.mem_append.1 hmem with htarget | hroot
  · obtain ⟨i, key, hcase⟩ := mem_targets_iff.1 htarget
    refine .inr ⟨fun hroot => hdisjoint htarget hroot, (i, key), hcase, ?_⟩
    rintro ⟨i', key'⟩ hcase'
    obtain ⟨rfl, rfl⟩ := HasCase.unique hnodup hcase' hcase
    rfl
  · exact .inl ⟨hroot, fun i key hcase => hdisjoint (mem_targets_iff.2 ⟨i, key, hcase⟩) hroot⟩

end Adds

/-! ### Ways down the vector -/

/-- Each node after the first is a case of the one before it. -/
def IsWay (nodes : Array Node) (way : List Nat) : Prop :=
  way.IsChain fun i j => ∃ key, HasCase nodes i key j

/-- How many of the nodes are branches. -/
def branchCount (nodes : Array Node) (way : List Nat) : Nat :=
  way.countP fun i => nodes[i]?.any isBranch

/-- The node at the index is the root of a plan of the position's target. -/
def Stands (nodes : Array Node) (i : Nat) (c : Chain) : Prop :=
  ∃ format s p, Plan.resolve format s c.target = .ok p ∧ p.LaidAt nodes i

section Stands

variable {nodes : Array Node} {ds : List Definition} {d : Definition} {c : Chain} {i j : Nat} {key : Word}
  {n : Node}

theorem Stands.exists_node (h : Stands nodes i c) : ∃ n, nodes[i]? = some n ∧ n.shape = c.target.label := by
  obtain ⟨format, s, p, hp, hlaid⟩ := h
  obtain ⟨n, hn, hshape⟩ := hlaid.exists_root
  exact ⟨n, hn, hshape.trans (Plan.shape_of_resolve hp)⟩

/-- The cases of a node stand for the cases of its position. -/
theorem Stands.exists_extend (h : Stands nodes i c) (hc : c ∈ Chain.ofDefinition d)
    (hcase : HasCase nodes i key j) : ∃ field child,
      c.extend ⟨field, key⟩ child ∈ Chain.ofDefinition d ∧
        Stands nodes j (c.extend ⟨field, key⟩ child) := by
  obtain ⟨format, s, p, hp, hlaid⟩ := h
  obtain ⟨n, hn, hentry⟩ := hcase
  cases htarget : c.target with
  | leaf shape =>
    rw [htarget] at hp
    obtain ⟨-, rfl⟩ := Plan.resolve_leaf_eq_ok_iff.1 hp
    obtain rfl := Option.some.inj (hn.symm.trans hlaid)
    cases hentry
  | select shape field cases =>
    rw [htarget] at hp
    obtain ⟨-, f, -, -, ps, hps, rfl⟩ := Plan.resolve_select_eq_ok_iff.1 hp
    obtain ⟨entries, hi, hcases⟩ := hlaid
    obtain rfl := Option.some.inj (hn.symm.trans hi)
    obtain ⟨q, hq, rfl, -, hlaid⟩ :=
      hcases.exists_of_mem ((CaseEntry.toList_sort entries).1.mem_iff.1 hentry)
    obtain ⟨⟨key, child⟩, hchild, rfl, -, hresolve⟩ := exists_of_forall₂_right hps hq
    exact ⟨field, child, Chain.extend_mem hc htarget hchild, format, _, q.2, hresolve, hlaid⟩

theorem Stands.length_links_lt (h : Stands nodes i c) (hv : Admission.Vetted ds)
    (hc : c ∈ Chain.ofDefinitions ds) (hn : nodes[i]? = some n) (hbranch : n.isBranch = true) :
    c.links.length < chainLimit := by
  obtain ⟨format, s, p, hp, hlaid⟩ := h
  cases htarget : c.target with
  | leaf shape =>
    rw [htarget] at hp
    obtain ⟨-, rfl⟩ := Plan.resolve_leaf_eq_ok_iff.1 hp
    obtain rfl := Option.some.inj (hn.symm.trans hlaid)
    cases hbranch
  | select shape field cases =>
    have hshort := (hv.selections c hc field cases (Tree.selection_of_select htarget)).short
    simpa [Chain.path] using hshort

/-- **A way down has no more branches than discriminants may follow one another**, those above it counted. -/
theorem Stands.branchCount_le (hv : Admission.Vetted ds) (hd : d ∈ ds) {way : List Nat}
    (h : Stands nodes i c) (hc : c ∈ Chain.ofDefinition d) (hway : IsWay nodes (i :: way)) :
    c.links.length + branchCount nodes (i :: way) ≤ chainLimit := by
  induction way generalizing i c with
  | nil =>
    unfold branchCount
    rw [List.countP_singleton]
    split_ifs with hbranch
    · obtain ⟨n, hn, hn'⟩ := (Option.any_eq_true _ _).1 hbranch
      exact h.length_links_lt hv (Chain.mem_ofDefinitions hd hc) hn hn'
    · exact Chain.length_links_le hv hd c hc
  | cons j way ih =>
    obtain ⟨⟨key, hcase⟩, hrest⟩ := List.isChain_cons_cons.1 hway
    obtain ⟨field, child, hmem, hstands⟩ := h.exists_extend hc hcase
    have hbelow := ih hstands hmem hrest
    rw [Chain.links_extend, List.length_append, List.length_singleton] at hbelow
    have hcons : branchCount nodes (i :: j :: way) ≤ branchCount nodes (j :: way) + 1 := by
      unfold branchCount
      rw [List.countP_cons]
      split_ifs <;> omega
    omega

end Stands

end Node

/-! ### The loop of the decoder -/

namespace Registry

variable {ds : List Definition} {d : Definition} {r : Registry} {format : String} {w : Word} {c : Chain}

/-- The walk from a node, if it ends within so many nodes, the first counted. It goes from node to node wherever
these stand. -/
def descendWithin (r : Registry) (format : String) (w : Word) : Nat → Node → Option Trace
  | 0, _ => none
  | _ + 1, .terminal _ layout => some (.finish layout w)
  | visits + 1, .branch _ selector cases =>
    let value := selector.slice.raw w
    match (CaseEntry.search cases value 0 cases.size).bind (r.accepting? w) with
    | none => some (.failure (.unknownDiscriminant format selector.name value w))
    | some child =>
      (r.descendWithin format w visits child).map (·.after (.discriminant selector.name value))

/-- What happens when the word is decoded, if that ends within so many nodes. -/
def traceWithin (r : Registry) (visits : Nat) (w : Word) : Option Trace :=
  match r.roots.findSome? (r.accepting? w) with
  | none => some ((Trace.failure (.unknownFormat w)).after (.start w))
  | some root => (r.descendWithin root.shape.name w visits root).map fun t =>
    (t.after (.format root.shape.name)).after (.start w)

/-- **The walk ends** within one node more than there are discriminants that may still follow. -/
theorem descendWithin_eq (hv : Admission.Vetted ds) (hd : d ∈ ds) (hordered : Node.AllOrdered r.nodes)
    {i visits : Nat} {n : Node} (hn : r.nodes[i]? = some n) (h : Node.Stands r.nodes i c)
    (hc : c ∈ Chain.ofDefinition d) (hvisits : chainLimit < c.links.length + visits) :
    r.descendWithin format w visits n = some (r.descend format w i n) := by
  induction visits generalizing i n c with
  | zero =>
    have hle := Chain.length_links_le hv hd c hc
    omega
  | succ visits ih =>
    cases n with
    | terminal shape layout => rw [descendWithin, descend]
    | branch shape selector cases =>
      rw [descendWithin, descend_branch]
      cases hsearch : CaseEntry.search cases (selector.slice.raw w) 0 cases.size with
      | none => rfl
      | some j =>
        obtain ⟨entry, hentry, hkey, rfl⟩ := CaseEntry.mem_of_search hsearch
        have hmem : entry ∈ (Node.branch shape selector cases).entries := Array.mem_toList_iff.2 hentry
        -- cases stand before their branch, so the guard of the walk never cuts it short
        have hlt : entry.node < i := (hordered i _ hn).before entry hmem
        obtain ⟨field, child, hextend, hstands⟩ := h.exists_extend hc ⟨_, hn, hmem⟩
        rw [follow, if_pos hlt, Option.bind_some]
        cases haccept : r.accepting? w entry.node with
        | none => rfl
        | some m =>
          have hm : r.nodes[entry.node]? = some m := (Option.filter_eq_some_iff.1 haccept).1
          have hdeeper : chainLimit < (c.extend ⟨field, entry.key⟩ child).links.length + visits := by
            rw [Chain.links_extend, List.length_append, List.length_singleton]
            omega
          simp only [ih hm hstands hextend hdeeper, Option.map_some]

theorem stands_roots {plans : List Plan} (hplans : Plan.ofDefinitions ds = .ok plans) :
    List.Forall₂ (fun d i => Node.Stands (ofPlans ds plans).nodes i ⟨[], d⟩) ds (ofPlans ds plans).roots := by
  refine (forall₂_comp (Plan.ofDefinitions_eq_ok_iff.1 hplans) (Plan.laidAt_pushRoots #[] plans).2).imp ?_
  rintro d i ⟨p, hp, hlaid⟩
  exact ⟨_, _, p, hp, hlaid⟩

theorem traceWithin_eq (hv : Admission.Vetted ds) (hordered : Node.AllOrdered r.nodes)
    (hroots : List.Forall₂ (fun d i => Node.Stands r.nodes i ⟨[], d⟩) ds r.roots) :
    r.traceWithin (chainLimit + 1) w = some (r.trace w) := by
  have hfind : r.roots.findSome? (r.accepting? w) =
      (r.roots.findSome? fun i => (r.accepting? w i).map (i, ·)).map Prod.snd := by
    simp [List.map_findSome?, Function.comp_def]
  rw [traceWithin, trace, walk, hfind]
  cases hfound : r.roots.findSome? fun i => (r.accepting? w i).map (i, ·) with
  | none => rfl
  | some found =>
    obtain ⟨i, hi, haccepting⟩ := List.exists_of_findSome?_eq_some hfound
    obtain ⟨root, hroot, rfl⟩ := Option.map_eq_some_iff.1 haccepting
    obtain ⟨d, hd, hstands⟩ := exists_of_forall₂_right hroots hi
    have hn : r.nodes[i]? = some root := (Option.filter_eq_some_iff.1 hroot).1
    have hends : r.descendWithin root.shape.name w (chainLimit + 1) root =
        some (r.descend root.shape.name w i root) :=
      descendWithin_eq hv hd hordered hn hstands (Chain.root_mem d) (by simp)
    simp only [Option.map_some, hends]

/-- **The compiled nodes are a forest, and the loop of the decoder ends.** Each case stands before its branch, with a
strictly greater key than the cases before it, and each node is a root or once a case. The roots are the formats, in
order. No way down from a root has more than eight branches, so decoding a word goes through nine nodes at most. -/
theorem forest_of_build (h : build ds = .ok r) :
    Node.IsForest r.nodes r.roots ∧
    List.Forall₂ (fun d i => ∃ n, r.nodes[i]? = some n ∧ n.shape = d.label) ds r.roots ∧
    (∀ root ∈ r.roots, ∀ way, Node.IsWay r.nodes (root :: way) →
      Node.branchCount r.nodes (root :: way) ≤ 8) ∧
    ∀ w, r.traceWithin 9 w = some (r.trace w) := by
  obtain ⟨hv, plans, hplans, rfl⟩ := build_eq_ok_iff.1 h
  have hempty : Node.AllOrdered #[] := fun _ _ hi => by simp at hi
  have hordered : Node.AllOrdered (ofPlans ds plans).nodes :=
    hempty.pushRoots (keysNodup_of_ofDefinitions hv hplans)
  have hroots := stands_roots hplans
  refine ⟨⟨hordered, Node.once_of_adds (Node.adds_pushRoots #[] plans)⟩, ?_, ?_, fun w => ?_⟩
  · exact hroots.imp fun d i hstands => hstands.exists_node
  · intro root hroot way hway
    obtain ⟨d, hd, hstands⟩ := exists_of_forall₂_right hroots hroot
    have hcount := hstands.branchCount_le hv hd (Chain.root_mem d) hway
    exact Nat.le_trans (Nat.le_add_left _ _) hcount
  · exact traceWithin_eq hv hordered hroots

/-- The nodes 0, 1 and 2 are cases, and there is a way down through two branches. -/
theorem forest_of_build_reusedNames : ∃ r, build reusedNames = .ok r ∧ r.roots = [3, 4] ∧
    r.nodes.toList.map Node.entries = [[], [], [⟨0, 1⟩], [⟨0, 0⟩, ⟨1, 2⟩], []] ∧
    Node.IsForest r.nodes r.roots ∧ Node.IsWay r.nodes [3, 2, 1] ∧
    Node.branchCount r.nodes [3, 2, 1] ≤ 8 ∧ r.traceWithin 9 9 = some (r.trace 9) := by
  obtain ⟨r, hr, hroots, hentries⟩ : ∃ r, build reusedNames = .ok r ∧ r.roots = [3, 4] ∧
      r.nodes.toList.map Node.entries = [[], [], [⟨0, 1⟩], [⟨0, 0⟩, ⟨1, 2⟩], []] :=
    ⟨_, rfl, by decide +kernel, by decide +kernel⟩
  obtain ⟨hforest, -, hshort, hends⟩ := forest_of_build hr
  have hone : Node.HasCase r.nodes 3 1 2 := Node.hasCase_iff.2 ⟨_, congrArg (·[3]?) hentries, by decide⟩
  have hfurther : Node.HasCase r.nodes 2 0 1 := Node.hasCase_iff.2 ⟨_, congrArg (·[2]?) hentries, by decide⟩
  have hway : Node.IsWay r.nodes [3, 2, 1] := .cons_cons ⟨1, hone⟩ (.cons_cons ⟨0, hfurther⟩ (.singleton 1))
  exact ⟨r, hr, hroots, hentries, hforest, hway, hshort 3 (by simp [hroots]) [2, 1] hway, hends 9⟩

end Registry

end ShaderWord
