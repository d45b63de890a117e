import ShaderWord.Proofs.CheckedBuilds

/-!
# Decoding with checks

* `Checked.trace r w` — what happens when `w` is decoded, by operations that check themselves: an index that is
  out of range is a fault, and so is a step to a node that does not stand before the one it comes from;
* `Checked.position cases key low high` — where halving finds the case of a key.

The nodes of a plan stand where the vector says that they do (`Plan.LaidAt`), so a walk has no fault
(`Checked.descend_eq`), nor has any run of the program (`Checked.no_faults`).
-/

namespace ShaderWord.Checked

/-! ### Walks -/

/-- The index of the case with the key, among the cases from `low` to before `high`. -/
def position (cases : Array CaseEntry) (key : Word) (low high : Nat) : Checked (Option Nat) :=
  if _ : low < high then do
    let middle := (low + high) / 2
    let c ← get cases middle
    if c.key = key then return some middle
    else if c.key < key then position cases key (middle + 1) high
    else position cases key low middle
  else return none
termination_by high - low

/-- The fields of a layout, each with its value. -/
def readFields (w : Word) : List Field → Checked (List Event)
  | [] => return []
  | f :: rest => do
    let value ← extract f.slice w
    return .field f value :: (← readFields w rest)

/-- The walk from a node at the index `bound`. -/
def descend (r : Registry) (format : String) (w : Word) (bound : Nat) : Node → Checked Trace
  | .terminal _ layout => do
    let fields ← readFields w layout.fields
    return ⟨fields ++ [.finish layout], .ok ()⟩
  | .branch _ selector cases => do
    let value ← raw selector.slice w
    let unknown := Trace.failure (.unknownDiscriminant format selector.name value w)
    match ← position cases value 0 cases.size with
    | none => return unknown
    | some p =>
      let entry ← get cases p
      let child ← get r.nodes entry.node
      if child.shape.accepts w then
        if _ : entry.node < bound then
          let t ← descend r format w entry.node child
          return t.after (.discriminant selector.name value)
        else throw .ascent
      else return unknown
termination_by bound

/-- The first root that accepts the word, and its index. -/
def findRoot (r : Registry) (w : Word) : List Nat → Checked (Option (Nat × Node))
  | [] => return none
  | i :: rest => do
    let root ← get r.nodes i
    if root.shape.accepts w then return some (i, root) else findRoot r w rest

/-- Everything that happens when the word is decoded. -/
def trace (r : Registry) (w : Word) : Checked Trace := do
  match ← findRoot r w r.roots with
  | none => return (Trace.failure (.unknownFormat w)).after (.start w)
  | some (i, root) =>
    let t ← descend r root.shape.name w i root
    return (t.after (.format root.shape.name)).after (.start w)

/-! ### Walks without a fault -/

section NoFault

variable {r : Registry} {format : String} {w key : Word} {cases : Array CaseEntry} {low high : Nat}

theorem position_eq {c : CaseEntry} (hlt : low < high) (hc : cases[(low + high) / 2]? = some c) :
    position cases key low high =
      if c.key = key then .ok (some ((low + high) / 2))
      else if c.key < key then position cases key ((low + high) / 2 + 1) high
      else position cases key low ((low + high) / 2) := by
  rw [position, dif_pos hlt]
  dsimp only
  rw [get_eq_ok hc]
  rfl

/-- **Halving looks at cases that are there**, and finds what `CaseEntry.search` does. -/
theorem exists_position (h : high ≤ cases.size) : ∃ found, position cases key low high = .ok found ∧
    (∀ p, found = some p → ∃ c, cases[p]? = some c ∧
      CaseEntry.search cases key low high = some c.node) ∧
    (found = none → CaseEntry.search cases key low high = none) := by
  fun_induction CaseEntry.search cases key low high with
  | case1 low high hlt middle hnone =>
    have := Array.getElem?_eq_none_iff.1 hnone
    omega
  | case2 low high hlt middle c hc hkey =>
    refine ⟨some middle, ?_, ?_, ?_⟩
    · rw [position_eq hlt hc, if_pos hkey]
    · rintro p ⟨⟩
      exact ⟨c, hc, rfl⟩
    · rintro ⟨⟩
  | case3 low high hlt middle c hc hkey hless ih =>
    rw [position_eq hlt hc, if_neg hkey, if_pos hless]
    exact ih h
  | case4 low high hlt middle c hc hkey hless ih =>
    rw [position_eq hlt hc, if_neg hkey, if_neg hless]
    exact ih (by omega)
  | case5 low high hge =>
    refine ⟨none, ?_, ?_, fun _ => rfl⟩
    · rw [position, dif_neg hge]
      rfl
    · rintro p ⟨⟩

theorem readFields_eq (w : Word) (fs : List Field) :
    readFields w fs = .ok (fs.map fun f => .field f (f.slice.extract w)) := by
  induction fs with
  | nil => rfl
  | cons f fs ih =>
    rw [readFields, extract_eq, ok_bind, ih]
    rfl

/-- **A walk from the root of a plan has no fault.** -/
theorem descend_eq {p : Plan} {i : Nat} {n : Node} (h : p.LaidAt r.nodes i) (hn : r.nodes[i]? = some n) :
    descend r format w i n = .ok (r.descend format w i n) := by
  induction p using Plan.induct generalizing i n with
  | terminal shape layout =>
    obtain rfl := Option.some.inj (hn.symm.trans h)
    rw [descend, readFields_eq, ok_bind, Registry.descend]
    rfl
  | branch shape selector cases ih =>
    obtain ⟨entries, hi, hcases⟩ := h
    obtain rfl := Option.some.inj (hn.symm.trans hi)
    rw [descend, raw_eq, ok_bind, Registry.descend_branch]
    obtain ⟨found, hfound, hsome, hnone⟩ : ∃ found,
        position (CaseEntry.sort entries) (selector.slice.raw w) 0 (CaseEntry.sort entries).size =
          .ok found ∧ _ := exists_position (Nat.le_refl _)
    rw [hfound, ok_bind]
    cases found with
    | none =>
      rw [hnone rfl]
      rfl
    | some p =>
      obtain ⟨c, hc, hsearch⟩ := hsome p rfl
      -- what halving finds is an entry of the branch, whose node is there and stands before it
      have hentry : c ∈ entries :=
        (CaseEntry.toList_sort entries).1.mem_iff.1 (Array.mem_def.1 (Array.mem_of_getElem? hc))
      obtain ⟨q, hq, -, hlt, hlaid⟩ := hcases.exists_of_mem hentry
      obtain ⟨child, hchild, -⟩ := hlaid.exists_root
      rw [hsearch]
      dsimp only
      rw [get_eq_ok hc, ok_bind, get_eq_ok hchild, ok_bind, dif_pos hlt, ih q hq hlaid hchild,
        Registry.follow, if_pos hlt, Registry.accepting?, hchild, Option.filter_some]
      cases child.shape.accepts w <;> rfl

theorem findRoot_eq {roots : List Nat} (h : ∀ i ∈ roots, ∃ n, r.nodes[i]? = some n) :
    findRoot r w roots = .ok (roots.findSome? fun i => (r.accepting? w i).map (i, ·)) := by
  induction roots with
  | nil => rfl
  | cons i rest ih =>
    obtain ⟨⟨n, hn⟩, h⟩ := List.forall_mem_cons.1 h
    rw [findRoot, get_eq_ok hn, ok_bind, ih h, List.findSome?_cons, Registry.accepting?, hn,
      Option.filter_some]
    cases n.shape.accepts w <;> rfl

/-- **A registry decodes every word without a fault.** -/
theorem trace_eq {ds : List Definition} (h : Registry.build ds = .ok r) (w : Word) :
    trace r w = .ok (r.trace w) := by
  obtain ⟨-, plans, -, rfl⟩ := Registry.build_eq_ok_iff.1 h
  have hroots := (Plan.laidAt_pushRoots #[] plans).2
  have hlaid : ∀ i ∈ (Registry.ofPlans ds plans).roots,
      ∃ p : Plan, p.LaidAt (Registry.ofPlans ds plans).nodes i := fun i hi => by
    obtain ⟨p, -, hp⟩ := exists_of_forall₂_right hroots hi
    exact ⟨p, hp⟩
  have hnodes : ∀ i ∈ (Registry.ofPlans ds plans).roots,
      ∃ n, (Registry.ofPlans ds plans).nodes[i]? = some n := fun i hi => by
    obtain ⟨p, hp⟩ := hlaid i hi
    obtain ⟨n, hn, -⟩ := hp.exists_root
    exact ⟨n, hn⟩
  rw [trace, findRoot_eq hnodes, ok_bind, Registry.trace, Registry.walk]
  cases hfound : (Registry.ofPlans ds plans).roots.findSome? fun i =>
      ((Registry.ofPlans ds plans).accepting? w i).map (i, ·) with
  | none => rfl
  | some found =>
    obtain ⟨i, hi, haccepting⟩ := List.exists_of_findSome?_eq_some hfound
    obtain ⟨root, hroot, rfl⟩ := Option.map_eq_some_iff.1 haccepting
    obtain ⟨p, hp⟩ := hlaid i hi
    dsimp only
    rw [descend_eq hp (Option.filter_eq_some_iff.1 hroot).1]
    rfl

end NoFault

/-- **No run of the program has a fault.** Layouts that are drawn up in any steps, registries of any definitions,
valid or not, and the decoding of any word by any registry come out the same when every sum and difference, the
amount of every shift, what a shift of a key moves out, every narrowing and every index is checked. -/
theorem no_faults :
    (∀ name steps, ofSteps name steps = .ok (Draft.ofSteps name steps)) ∧
    (∀ ds, (build ds).run = .ok (Registry.build ds)) ∧
    ∀ ds r, Registry.build ds = .ok r → ∀ w, trace r w = .ok (r.trace w) :=
  ⟨ofSteps_eq, fun ds => by rw [build_eq]; rfl, fun _ _ h w => trace_eq h w⟩

/-- A member that reaches beyond any word, a field of no bits at a bit that no word has, and a word that goes
through a case. -/
theorem no_faults_twoCases : ∃ r, Registry.build [twoCases] = .ok r ∧
    ofSteps "t" [.member (.atBit 4294967295 (.field "x" 64))] =
      .ok (Draft.ofSteps "t" [.member (.atBit 4294967295 (.field "x" 64))]) ∧
    (build [.leaf ⟨"t", 0, 0, [⟨"x", ⟨255, 0, true⟩⟩]⟩]).run =
      .ok (.error (.invalidField "t" "x" 255 0)) ∧
    trace r 0x8052 = .ok (r.trace 0x8052) := by
  obtain ⟨hdraft, hbuild, hdecode⟩ := no_faults
  obtain ⟨r, hr⟩ : ∃ r, Registry.build [twoCases] = .ok r := ⟨_, rfl⟩
  exact ⟨r, hr, hdraft _ _, hbuild _, hdecode _ r hr _⟩

end ShaderWord.Checked
