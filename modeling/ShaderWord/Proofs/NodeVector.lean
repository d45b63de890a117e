import Mathlib.Data.List.Forall2
import Mathlib.Data.List.Nodup
import Mathlib.Tactic.Common
import ShaderWord.Decode

/-!
# The node vector holds the plans

* `Plan.LaidAt nodes p i` — the plan `p` stands in the vector with its root at `i` and its cases before `i`;
* `Plan.laidAt_push`: that is how `Node.push` leaves it, and vectors that grow keep it;
* `CaseEntry.search_sort`: halving the sorted cases finds what is found by going through them in order;
* `Registry.descend_eq`: so the walk through the vector is the walk through the plan.
-/

namespace ShaderWord

/-! ### Sorted cases -/

namespace CaseEntry

/-- The entries are in order of key. -/
def Sorted (l : List CaseEntry) : Prop := l.Pairwise fun c d => c.key ≤ d.key

theorem insert_perm (c : CaseEntry) (l : List CaseEntry) : (c.insert l).Perm (c :: l) := by
  induction l with
  | nil => exact List.Perm.refl _
  | cons d rest ih =>
    rw [insert]
    split_ifs
    · exact List.Perm.refl _
    · exact (ih.cons d).trans (List.Perm.swap c d rest)

theorem sorted_insert {c : CaseEntry} {l : List CaseEntry} (h : Sorted l) : Sorted (c.insert l) := by
  induction l with
  | nil => simp [insert, Sorted]
  | cons d rest ih =>
    obtain ⟨hd, hrest⟩ := List.pairwise_cons.1 h
    rw [insert]
    split_ifs with hlt
    · refine List.pairwise_cons.2 ⟨?_, h⟩
      intro e he
      rcases List.mem_cons.1 he with rfl | he
      · exact BitVec.le_of_lt hlt
      · exact BitVec.le_trans (BitVec.le_of_lt hlt) (hd e he)
    · refine List.pairwise_cons.2 ⟨?_, ih hrest⟩
      intro e he
      rcases List.mem_cons.1 ((insert_perm c rest).mem_iff.1 he) with rfl | he
      · exact BitVec.not_lt.1 hlt
      · exact hd e he

theorem toList_sort (l : List CaseEntry) :
    (sort l).toList.Perm l ∧ Sorted (sort l).toList := by
  suffices h : ∀ acc, Sorted acc →
      (l.foldl (fun sorted c => c.insert sorted) acc).Perm (l ++ acc) ∧
        Sorted (l.foldl (fun sorted c => c.insert sorted) acc) by
    simpa [sort] using h [] List.Pairwise.nil
  induction l with
  | nil => exact fun acc h => ⟨List.Perm.refl _, h⟩
  | cons c rest ih =>
    intro acc h
    obtain ⟨hperm, hsorted⟩ := ih _ (sorted_insert (c := c) h)
    exact ⟨hperm.trans (((insert_perm c acc).append_left rest).trans List.perm_middle), hsorted⟩

/-! ### Halving -/

section Search

variable {cs : Array CaseEntry} {key : Word} {low high n : Nat}

theorem mem_of_search (h : search cs key low high = some n) :
    ∃ c ∈ cs, c.key = key ∧ c.node = n := by
  fun_induction search cs key low high with
  | case1 => cases h
  | case2 _ _ _ _ c hc heq => exact ⟨c, Array.mem_of_getElem? hc, heq, Option.some.inj h⟩
  | case3 _ _ _ _ _ _ _ _ ih => exact ih h
  | case4 _ _ _ _ _ _ _ _ ih => exact ih h
  | case5 => cases h

/-- The halves that are left out do not have the key. -/
theorem ne_of_search (hs : Sorted cs.toList) (hsize : high ≤ cs.size)
    (h : search cs key low high = none) {i : Nat} {c : CaseEntry} (hl : low ≤ i) (hh : i < high)
    (hc : cs[i]? = some c) : c.key ≠ key := by
  -- the keys on either side of an index of the sorted cases
  have hle : ∀ {j k : Nat} {a b : CaseEntry}, j < k → cs[j]? = some a → cs[k]? = some b →
      a.key ≤ b.key := by
    intro j k a b hjk ha hb
    obtain ⟨hj, rfl⟩ := Array.getElem?_eq_some_iff.1 ha
    obtain ⟨hk, rfl⟩ := Array.getElem?_eq_some_iff.1 hb
    exact List.pairwise_iff_getElem.1 hs j k hj hk hjk
  fun_induction search cs key low high with
  | case1 low high hlt middle hnone =>
    have := Array.getElem?_eq_none_iff.1 hnone
    omega
  | case2 => cases h
  | case3 low high hlt middle d hd hne hless ih =>
    by_cases hi : middle + 1 ≤ i
    · exact ih hsize h hi hh
    · intro heq
      have hcd : c.key ≤ d.key := by
        rcases Nat.lt_or_eq_of_le (by omega : i ≤ middle) with hlt' | rfl
        · exact hle hlt' hc hd
        · obtain rfl : c = d := Option.some.inj (hc.symm.trans hd)
          exact BitVec.le_refl _
      rw [heq] at hcd
      exact BitVec.not_lt.2 hcd hless
  | case4 low high hlt middle d hd hne hnless ih =>
    by_cases hi : i < middle
    · exact ih (by omega) h hl hi
    · intro heq
      have hdc : d.key ≤ c.key := by
        rcases Nat.lt_or_eq_of_le (by omega : middle ≤ i) with hlt' | rfl
        · exact hle hlt' hd hc
        · obtain rfl : d = c := Option.some.inj (hd.symm.trans hc)
          exact BitVec.le_refl _
      rw [heq] at hdc
      exact hne (BitVec.le_antisymm hdc (BitVec.not_lt.1 hnless))
  | case5 low high hge => omega

end Search

/-- **Halving finds the case of a key**, where no two cases have the same. -/
theorem search_sort {l : List CaseEntry} (hn : (l.map key).Nodup) (k : Word) :
    search (sort l) k 0 (sort l).size = (l.find? (·.key = k)).map node := by
  obtain ⟨hperm, hsorted⟩ := toList_sort l
  cases hfound : search (sort l) k 0 (sort l).size with
  | some n =>
    obtain ⟨c, hc, rfl, rfl⟩ := mem_of_search hfound
    have hmem : c ∈ l := hperm.mem_iff.1 (Array.mem_def.1 hc)
    cases hfind : l.find? (·.key = c.key) with
    | none => simpa using List.find?_eq_none.1 hfind c hmem
    | some d =>
      have hd : d.key = c.key := by simpa using List.find?_some hfind
      have hdc : d = c := List.inj_on_of_nodup_map hn (List.mem_of_find?_eq_some hfind) hmem hd
      rw [hdc]
      rfl
  | none =>
    have hnone : l.find? (·.key = k) = none := by
      refine List.find?_eq_none.2 fun c hc => ?_
      obtain ⟨i, hi, rfl⟩ := List.mem_iff_getElem.1 (hperm.mem_iff.2 hc)
      have hget : (sort l)[i]? = some (sort l).toList[i] := by simp
      simpa using ne_of_search hsorted (Nat.le_refl _) hfound (Nat.zero_le i) hi hget
    rw [hnone]
    rfl

end CaseEntry

/-! ### Vectors that grow -/

namespace Node

/-- The nodes of the first vector are nodes of the second, at the same indices. -/
def Extends (nodes nodes' : Array Node) : Prop :=
  ∀ (i : Nat) (n : Node), nodes[i]? = some n → nodes'[i]? = some n

theorem Extends.refl (nodes : Array Node) : Extends nodes nodes := fun _ _ h => h

theorem Extends.trans {a b c : Array Node} (h : Extends a b) (h' : Extends b c) : Extends a c :=
  fun i n hi => h' i n (h i n hi)

theorem extends_push (nodes : Array Node) (n : Node) : Extends nodes (nodes.push n) := by
  intro i m hi
  obtain ⟨hlt, rfl⟩ := Array.getElem?_eq_some_iff.1 hi
  exact Array.getElem?_eq_some_iff.2 ⟨by simp; omega, Array.getElem_push_lt hlt⟩

end Node

/-! ### Plans in the vector -/

theorem Plan.induct {P : Plan → Prop} (terminal : ∀ s l, P (.terminal s l))
    (branch : ∀ s f cs, (∀ c ∈ cs, P c.2) → P (.branch s f cs)) (p : Plan) : P p :=
  Plan.rec (motive_1 := P) (motive_2 := fun cs => ∀ c ∈ cs, P c.2) (motive_3 := fun c => P c.2)
    terminal branch (fun _ h => nomatch h)
    (fun _ _ hc hcs => List.forall_mem_cons.2 ⟨hc, hcs⟩) (fun _ _ h => h) p

namespace Plan

mutual
/-- The plan's root is the node at the index, and its cases are before it. -/
def LaidAt (nodes : Array Node) : Plan → Nat → Prop
  | .terminal shape layout, i => nodes[i]? = some (.terminal shape layout)
  | .branch shape selector cases, i => ∃ entries,
    nodes[i]? = some (.branch shape selector (CaseEntry.sort entries)) ∧
      CasesLaidAt nodes i cases entries
/-- The entries are those of the cases, whose roots are before the bound. -/
def CasesLaidAt (nodes : Array Node) (bound : Nat) : List (Word × Plan) → List CaseEntry → Prop
  | [], entries => entries = []
  | (key, plan) :: rest, entries => ∃ i others, entries = ⟨key, i⟩ :: others ∧ i < bound ∧
    plan.LaidAt nodes i ∧ CasesLaidAt nodes bound rest others
end

variable {nodes nodes' : Array Node} {p : Plan} {i bound bound' : Nat}
  {cases : List (Word × Plan)} {entries : List CaseEntry}

theorem LaidAt.exists_root (h : p.LaidAt nodes i) : ∃ n, nodes[i]? = some n ∧ n.shape = p.shape := by
  cases p with
  | terminal shape layout => exact ⟨_, h, rfl⟩
  | branch shape selector cases =>
    obtain ⟨entries, hi, -⟩ := h
    exact ⟨_, hi, rfl⟩

theorem LaidAt.lt_size (h : p.LaidAt nodes i) : i < nodes.size := by
  obtain ⟨n, hn, -⟩ := h.exists_root
  exact (Array.getElem?_eq_some_iff.1 hn).1

theorem CasesLaidAt.keys (h : CasesLaidAt nodes bound cases entries) :
    entries.map CaseEntry.key = cases.map Prod.fst := by
  induction cases generalizing entries with
  | nil => rw [show entries = [] from h]; rfl
  | cons c rest ih =>
    obtain ⟨i, others, rfl, -, -, hrest⟩ := h
    rw [List.map_cons, List.map_cons, ih hrest]

theorem CasesLaidAt.exists_of_mem (h : CasesLaidAt nodes bound cases entries) {c : CaseEntry}
    (hc : c ∈ entries) : ∃ q ∈ cases, q.1 = c.key ∧ c.node < bound ∧ q.2.LaidAt nodes c.node := by
  induction cases generalizing entries with
  | nil =>
    rw [show entries = [] from h] at hc
    cases hc
  | cons q rest ih =>
    obtain ⟨i, others, rfl, hi, hlaid, hothers⟩ := h
    rcases List.mem_cons.1 hc with rfl | hc
    · exact ⟨q, List.mem_cons_self, rfl, hi, hlaid⟩
    · obtain ⟨q', hq', hcase⟩ := ih hothers hc
      exact ⟨q', List.mem_cons_of_mem _ hq', hcase⟩

theorem CasesLaidAt.mono (hb : bound ≤ bound')
    (hmono : ∀ c ∈ cases, ∀ i, c.2.LaidAt nodes i → c.2.LaidAt nodes' i)
    (h : CasesLaidAt nodes bound cases entries) : CasesLaidAt nodes' bound' cases entries := by
  induction cases generalizing entries with
  | nil => exact h
  | cons c rest ih =>
    obtain ⟨i, others, heq, hi, hplan, hrest⟩ := h
    obtain ⟨hc, hmono⟩ := List.forall_mem_cons.1 hmono
    exact ⟨i, others, heq, Nat.lt_of_lt_of_le hi hb, hc i hplan, ih hmono hrest⟩

theorem LaidAt.mono (hext : Node.Extends nodes nodes') (h : p.LaidAt nodes i) :
    p.LaidAt nodes' i := by
  induction p using Plan.induct generalizing i with
  | terminal shape layout => exact hext i _ h
  | branch shape selector cases ih =>
    obtain ⟨entries, hi, hcases⟩ := h
    exact ⟨entries, hext i _ hi, hcases.mono (Nat.le_refl i) fun c hc _ => ih c hc⟩

mutual
/-- **A plan that is pushed has its root at the end**, and what was there before stays. -/
theorem laidAt_push (nodes : Array Node) (p : Plan) :
    Node.Extends nodes (Node.push nodes p) ∧
      p.LaidAt (Node.push nodes p) ((Node.push nodes p).size - 1) := by
  cases p with
  | terminal shape layout =>
    rw [Node.push]
    refine ⟨Node.extends_push _ _, ?_⟩
    simp [LaidAt]
  | branch shape selector cases =>
    obtain ⟨hext, hcases⟩ := casesLaidAt_pushCases nodes cases
    rw [Node.push]
    refine ⟨hext.trans (Node.extends_push _ _), (Node.pushCases nodes cases).2, by simp, ?_⟩
    exact hcases.mono (by simp) fun _ _ _ => LaidAt.mono (Node.extends_push _ _)
theorem casesLaidAt_pushCases (nodes : Array Node) (cases : List (Word × Plan)) :
    Node.Extends nodes (Node.pushCases nodes cases).1 ∧
      CasesLaidAt (Node.pushCases nodes cases).1 (Node.pushCases nodes cases).1.size cases
        (Node.pushCases nodes cases).2 := by
  cases cases with
  | nil => exact ⟨Node.Extends.refl _, rfl⟩
  | cons c rest =>
    obtain ⟨key, plan⟩ := c
    obtain ⟨hext, hplan⟩ := laidAt_push nodes plan
    obtain ⟨hext', hrest⟩ := casesLaidAt_pushCases (Node.push nodes plan) rest
    have hlaid := hplan.mono hext'
    rw [Node.pushCases]
    exact ⟨hext.trans hext', _, _, rfl, hlaid.lt_size, hlaid, hrest⟩
end

theorem laidAt_pushRoots (nodes : Array Node) (plans : List Plan) :
    Node.Extends nodes (Node.pushRoots nodes plans).1 ∧
      List.Forall₂ (fun p i => p.LaidAt (Node.pushRoots nodes plans).1 i) plans
        (Node.pushRoots nodes plans).2 := by
  induction plans generalizing nodes with
  | nil => exact ⟨Node.Extends.refl _, List.Forall₂.nil⟩
  | cons p rest ih =>
    obtain ⟨hext, hp⟩ := laidAt_push nodes p
    obtain ⟨hext', hrest⟩ := ih (Node.push nodes p)
    rw [Node.pushRoots]
    exact ⟨hext.trans hext', List.Forall₂.cons (hp.mono hext') hrest⟩

end Plan

/-! ### Walks -/

namespace Plan

mutual
/-- No two cases of a branch have the same key. -/
def KeysNodup : Plan → Prop
  | .terminal .. => True
  | .branch _ _ cases => (cases.map Prod.fst).Nodup ∧ KeysNodupCases cases
/-- In no case do two cases of a branch have the same key. -/
def KeysNodupCases : List (Word × Plan) → Prop
  | [] => True
  | (_, plan) :: rest => plan.KeysNodup ∧ KeysNodupCases rest
end

theorem keysNodupCases_iff {cases : List (Word × Plan)} :
    KeysNodupCases cases ↔ ∀ c ∈ cases, c.2.KeysNodup := by
  induction cases with
  | nil => simp [KeysNodupCases]
  | cons c rest ih => rw [KeysNodupCases, ih, List.forall_mem_cons]

mutual
/-- The walk along a plan that accepts the word. -/
def descend (format : String) (w : Word) : Plan → Trace
  | .terminal _ layout => .finish layout w
  | .branch _ selector cases => descendCases format w selector (selector.slice.raw w) cases
/-- The walk along the first case whose key is `value`. -/
def descendCases (format : String) (w : Word) (selector : Field) (value : Word) :
    List (Word × Plan) → Trace
  | [] => .failure (.unknownDiscriminant format selector.name value w)
  | (key, plan) :: rest =>
    if key = value then
      if plan.shape.accepts w then (plan.descend format w).after (.discriminant selector.name value)
      else .failure (.unknownDiscriminant format selector.name value w)
    else descendCases format w selector value rest
end

end Plan

namespace Registry

variable {r : Registry} {format : String} {w : Word} {bound : Nat}

/-- The walk on from a branch, once the case is found. -/
def follow (r : Registry) (format : String) (w : Word) (bound : Nat) (selector : Field) :
    Option Nat → Trace
  | none => .failure (.unknownDiscriminant format selector.name (selector.slice.raw w) w)
  | some i =>
    if i < bound then
      match r.accepting? w i with
      | none => .failure (.unknownDiscriminant format selector.name (selector.slice.raw w) w)
      | some child =>
        (r.descend format w i child).after (.discriminant selector.name (selector.slice.raw w))
    else .failure (.unknownDiscriminant format selector.name (selector.slice.raw w) w)

theorem descend_branch {shape : Shape} {selector : Field} {cases : Array CaseEntry} :
    r.descend format w bound (.branch shape selector cases) =
      r.follow format w bound selector
        (CaseEntry.search cases (selector.slice.raw w) 0 cases.size) := by
  rw [descend]
  rfl

theorem accepting?_of_root {p : Plan} {i : Nat} {n : Node} (hn : r.nodes[i]? = some n)
    (hshape : n.shape = p.shape) :
    r.accepting? w i = if p.shape.accepts w then some n else none := by
  rw [accepting?, hn, Option.filter_some, hshape]

/-- Following the entry of a key is going through the cases for the key, if that holds below. -/
theorem follow_find {selector : Field} {cases : List (Word × Plan)} {entries : List CaseEntry}
    (h : Plan.CasesLaidAt r.nodes bound cases entries)
    (ih : ∀ c ∈ cases, ∀ i n, c.2.LaidAt r.nodes i → r.nodes[i]? = some n →
      r.descend format w i n = c.2.descend format w) :
    r.follow format w bound selector
        ((entries.find? (·.key = selector.slice.raw w)).map CaseEntry.node) =
      Plan.descendCases format w selector (selector.slice.raw w) cases := by
  induction cases generalizing entries with
  | nil =>
    obtain rfl : entries = [] := h
    rfl
  | cons c rest hrest =>
    obtain ⟨key, plan⟩ := c
    obtain ⟨i, others, rfl, hi, hplan, hothers⟩ := h
    obtain ⟨hc, ih⟩ := List.forall_mem_cons.1 ih
    rw [Plan.descendCases, List.find?_cons]
    by_cases hkey : key = selector.slice.raw w
    · obtain ⟨n, hn, hshape⟩ := hplan.exists_root
      simp only [hkey, decide_true, if_true, Option.map_some, follow, hi,
        accepting?_of_root hn hshape]
      split_ifs
      · rw [← hc i n hplan hn]
      · rfl
    · simp only [hkey, decide_false, if_false]
      exact hrest hothers ih

/-- **The walk through the vector is the walk along the plan** that stands there. -/
theorem descend_eq {p : Plan} {i : Nat} {n : Node} (hkeys : p.KeysNodup) (h : p.LaidAt r.nodes i)
    (hn : r.nodes[i]? = some n) : r.descend format w i n = p.descend format w := by
  induction p using Plan.induct generalizing i n with
  | terminal shape layout =>
    obtain rfl := Option.some.inj (hn.symm.trans h)
    rw [descend, Plan.descend]
  | branch shape selector cases ih =>
    obtain ⟨entries, hi, hcases⟩ := h
    obtain rfl := Option.some.inj (hn.symm.trans hi)
    obtain ⟨hnodup, hbelow⟩ := hkeys
    rw [Plan.keysNodupCases_iff] at hbelow
    have hentries : (entries.map CaseEntry.key).Nodup := by rwa [hcases.keys]
    rw [descend_branch, CaseEntry.search_sort hentries, Plan.descend]
    exact follow_find hcases fun c hc i n => ih c hc (hbelow c hc)

end Registry

end ShaderWord
