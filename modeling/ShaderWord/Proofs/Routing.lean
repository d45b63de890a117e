import Mathlib.Data.List.Induction
import ShaderWord.Dispatch
import ShaderWord.Proofs.Partition

/-!
# Dispatch follows the definitions

A handler table holds the last registration under each key (`HandlerTable.lookup_ofRegistrations`). Of an
instruction it runs the handler of the deepest position on the way to the instruction's layout that has a
registration (`HandlerTable.lookup?_of_deepest`), although it only cuts the key at its dots: what encloses
the key of a position are the keys on the way to it (`Chain.mem_enclosing_key_iff`).

That one handler runs, and once, is said by equations in the monad that handlers run in.
-/

namespace ShaderWord

/-! ### Registrations -/

/-- What is registered in a handler table. -/
inductive Registration (m : Type → Type) (α : Type) where
  /-- A handler of instructions, under any key. -/
  | on (key : String) (f : Instruction → m α)
  /-- A handler of what a view reads, under the view's format. -/
  | onView {β : Type} (v : View β) (f : β → m α)

namespace Registration

variable {m : Type → Type} {α : Type}

def key : Registration m α → String
  | on key _ => key
  | onView v _ => v.format

/-- The last registration under a key. -/
def last? (rs : List (Registration m α)) (key : String) : Option (Registration m α) :=
  rs.reverse.find? (·.key = key)

/-- What is run on an instruction: the handler, or nothing where the view cannot be read. -/
def handler [Monad m] : Registration m α → Handler m α
  | on _ f => fun inst => Except.ok <$> f inst
  | onView v f => fun inst =>
    match v.read? inst with
    | some x => Except.ok <$> f x
    | none => return .error (.viewMismatch inst.key v.name)

/-- Registers in a table. -/
def addTo [Monad m] (t : HandlerTable m α) : Registration m α → HandlerTable m α
  | on key f => t.add key f
  | onView v f => t.addView v f

variable {rs : List (Registration m α)} {reg : Registration m α} {k k' : String}

theorem addTo_eq [Monad m] (t : HandlerTable m α) (reg : Registration m α) :
    reg.addTo t = t.register reg.key reg.handler := by
  cases reg <;> rfl

theorem last?_concat :
    last? (rs ++ [reg]) k = if reg.key = k then some reg else last? rs k := by
  unfold last?
  rw [List.reverse_concat, List.find?_cons]
  by_cases h : reg.key = k
  · simp [h]
  · simp [h]

theorem last?_eq_none_iff : last? rs k = none ↔ ∀ reg ∈ rs, reg.key ≠ k := by
  unfold last?
  rw [List.find?_eq_none]
  simp

theorem last?_filter (h : k ≠ k') : last? (rs.filter (·.key ≠ k')) k = last? rs k := by
  unfold last?
  rw [← List.filter_reverse, List.find?_filter]
  congr 1
  funext reg
  by_cases hk : reg.key = k
  · simp [hk, h]
  · simp [hk]

end Registration

namespace HandlerTable

variable {m : Type → Type} {α : Type}

/-- The table of registrations, made in order. -/
def ofRegistrations [Monad m] (rs : List (Registration m α)) : HandlerTable m α :=
  rs.foldl Registration.addTo empty

/-! ### What a table holds -/

section Lookup

variable {t t' : HandlerTable m α} {key k : String} {h : Handler m α}

lemma lookup_filter {β : Type} {l : List (String × β)} {p : String → Bool} (hk : p k = true) :
    (l.filter fun e => p e.1).lookup k = l.lookup k := by
  induction l with
  | nil => rfl
  | cons e l ih =>
    obtain ⟨key, b⟩ := e
    cases hkey : p key with
    | true => rw [List.filter_cons_of_pos (by simpa using hkey), List.lookup_cons, List.lookup_cons, ih]
    | false =>
      have hne : (k == key) = false := by
        rw [beq_eq_false_iff_ne]
        rintro rfl
        rw [hk] at hkey
        cases hkey
      rw [List.filter_cons_of_neg (by simpa using hkey), ih, List.lookup_cons, hne]

/-- A registration is found under its key, and hides an earlier one. -/
theorem lookup_register : (t.register key h).handlers.lookup k =
    if key = k then some h else t.handlers.lookup k := by
  unfold register
  rw [List.lookup_cons]
  by_cases hk : k = key
  · simp [hk]
  · have hbeq : (k == key) = false := by simpa using hk
    rw [hbeq, if_neg fun heq => hk heq.symm]
    exact lookup_filter (p := fun k => decide (k ≠ key)) (by simpa using hk)

/-- **A table holds the last registration under each key.** -/
theorem lookup_ofRegistrations [Monad m] (rs : List (Registration m α)) (k : String) :
    (ofRegistrations rs).handlers.lookup k =
      (Registration.last? rs k).map Registration.handler := by
  induction rs using List.reverseRecOn with
  | nil => rfl
  | append_singleton rs reg ih =>
    have hfold : ofRegistrations (rs ++ [reg]) =
        (ofRegistrations rs).register reg.key reg.handler := by
      rw [← Registration.addTo_eq]
      simp [ofRegistrations, List.foldl_append]
    rw [hfold, lookup_register, Registration.last?_concat]
    split_ifs
    · rfl
    · exact ih

theorem lookup?_congr (hsame : ∀ k ∈ Key.enclosing key, t.handlers.lookup k = t'.handlers.lookup k) :
    t.lookup? key = t'.lookup? key := by
  unfold lookup?
  generalize Key.enclosing key = ks at hsame
  induction ks with
  | nil => rfl
  | cons k ks ih =>
    obtain ⟨hk, hsame⟩ := List.forall_mem_cons.1 hsame
    rw [List.findSome?_cons, List.findSome?_cons, hk, ih hsame]

theorem lookup?_eq_none_iff :
    t.lookup? key = none ↔ ∀ p, Key.Encloses p key → t.handlers.lookup p = none := by
  rw [lookup?, List.findSome?_eq_none_iff]
  simp only [Key.mem_enclosing_iff]

end Lookup

/-! ### What a table finds for a position -/

section Position

variable {t : HandlerTable m α} {ds : List Definition} {a c : Chain} {h : Handler m α}

/-- **The handler of the deepest position that has one** is found. -/
theorem lookup?_of_deepest (hv : Admission.Vetted ds) (ha : Chain.Passes ds c a)
    (hfound : t.handlers.lookup a.key = some h)
    (hdeeper : ∀ b, Chain.Passes ds c b → a.path.length < b.path.length →
      t.handlers.lookup b.key = none) : t.lookup? c.key = some h := by
  obtain ⟨way, hway, rfl⟩ := ha.goesOn
  obtain ⟨d, hd, had⟩ := Chain.exists_of_mem_ofDefinitions ha.mem
  -- down from the position, each definition passed has no handler of its own
  refine Chain.induct (P := fun way => (∀ b, Chain.Passes ds (a.append way) b →
    a.path.length < b.path.length → t.handlers.lookup b.key = none) →
      t.lookup? (a.append way).key = some h) ?_ ?_ way hway hdeeper
  · intro _
    rw [Chain.append_root, lookup?, Key.enclosing, List.findSome?_cons, hfound]
  · intro way hway shape field cases key child htarget hmem ih hdeeper
    have hmem' : a.append way ∈ Chain.ofDefinitions ds :=
      Chain.mem_ofDefinitions hd (Chain.append_mem had way hway)
    rw [Chain.append_extend] at hdeeper ⊢
    have hnone : t.handlers.lookup ((a.append way).extend ⟨field, key⟩ child).key = none := by
      refine hdeeper _ (Chain.Passes.refl ?_) ?_
      · exact Chain.mem_ofDefinitions hd (Chain.extend_mem (Chain.append_mem had way hway) htarget hmem)
      · have hpath : (a.append way).path = a.path ++ way.path := by
          simp [Chain.path, Chain.append]
        rw [Chain.path_extend, hpath]
        simp
    have hfirst := Chain.enclosing_key_extend hv hmem' htarget hmem
    rw [lookup?, hfirst, List.findSome?_cons, hnone]
    exact ih fun b hb => hdeeper b (hb.extend htarget hmem)

theorem lookup?_eq_none (hv : Admission.Vetted ds) (hc : c ∈ Chain.ofDefinitions ds)
    (hnone : ∀ a, Chain.Passes ds c a → t.handlers.lookup a.key = none) :
    t.lookup? c.key = none := by
  rw [lookup?_eq_none_iff]
  intro k hk
  obtain ⟨a, ha, rfl⟩ := (Chain.mem_enclosing_key_iff hv hc).1 (Key.mem_enclosing_iff.2 hk)
  exact hnone a ha

end Position

theorem dispatch_of_layout [Monad m] {t : HandlerTable m α} {inst : Instruction} {c : Chain}
    (h : inst.layout = some c.layout) : t.dispatch inst =
      match t.lookup? c.key with
      | some h => h inst
      | none => pure (.error (.unhandledFormat c.key)) := by
  have hkey : inst.key = c.key := Instruction.key_of_layout h
  have hdecoded : inst.isDecoded = true := by rw [Instruction.isDecoded, h, Option.isSome_some]
  cases hfound : t.lookup? c.key with
  | none => rw [dispatch, if_pos hdecoded, hkey, hfound]
  | some f => rw [dispatch, if_pos hdecoded, hkey, hfound]

end HandlerTable

namespace Registry

variable {m : Type → Type} [Monad m] {α : Type} {ds : List Definition} {r : Registry}

/-- **Dispatch follows the definitions.** An instruction that a word decodes to goes to the last registration
under the key of the deepest position on the way to its layout that has one, and to nothing else; without
one it is unhandled. What is registered under any other string might as well not be there. Decoding and
dispatch at once do the same, and answer the error of a word that does not decode. -/
theorem dispatch_follows_definitions (h : build ds = .ok r) (rs : List (Registration m α)) (w : Word) :
    (∀ inst, r.decode w = .ok inst → ∃ c ∈ Chain.terminals ds, c.Admits w ∧
      inst.layout = some c.layout ∧
      (∀ a reg, Chain.Passes ds c a → Registration.last? rs a.key = some reg →
        (∀ b, Chain.Passes ds c b → a.path.length < b.path.length →
          Registration.last? rs b.key = none) →
        (HandlerTable.ofRegistrations rs).dispatch inst = reg.handler inst) ∧
      ((∀ a, Chain.Passes ds c a → Registration.last? rs a.key = none) →
        (HandlerTable.ofRegistrations rs).dispatch inst = pure (.error (.unhandledFormat c.key))) ∧
      (∀ k, k = "" ∨ (∀ a, Chain.Passes ds c a → a.key ≠ k) →
        (HandlerTable.ofRegistrations (rs.filter (·.key ≠ k))).dispatch inst =
          (HandlerTable.ofRegistrations rs).dispatch inst) ∧
      r.handle w (HandlerTable.ofRegistrations rs) =
        Except.mapError .dispatch <$> (HandlerTable.ofRegistrations rs).dispatch inst) ∧
    ∀ e, r.decode w = .error e →
      r.handle w (HandlerTable.ofRegistrations rs) = pure (.error (.decode e)) := by
  have hv := (accepted_of_build h).1.vetted
  refine ⟨fun inst hinst => ?_, fun e he => by rw [handle, he]⟩
  obtain ⟨c, hc, hadmits, hlayout⟩ := exists_admits_of_decode h hinst
  have hcds := (Chain.mem_terminals.1 hc).1
  refine ⟨c, hc, hadmits, hlayout, ?_, ?_, ?_, by rw [handle, hinst]⟩
  · intro a reg ha hreg hdeeper
    have hfound : (HandlerTable.ofRegistrations rs).lookup? c.key = some reg.handler := by
      refine HandlerTable.lookup?_of_deepest hv ha ?_ fun b hb hlt => ?_
      · rw [HandlerTable.lookup_ofRegistrations, hreg, Option.map_some]
      · rw [HandlerTable.lookup_ofRegistrations, hdeeper b hb hlt, Option.map_none]
    rw [HandlerTable.dispatch_of_layout hlayout, hfound]
  · intro hnone
    have hnotfound : (HandlerTable.ofRegistrations rs).lookup? c.key = none := by
      refine HandlerTable.lookup?_eq_none hv hcds fun a ha => ?_
      rw [HandlerTable.lookup_ofRegistrations, hnone a ha, Option.map_none]
    rw [HandlerTable.dispatch_of_layout hlayout, hnotfound]
  · intro k hk
    have hsame : (HandlerTable.ofRegistrations (rs.filter (·.key ≠ k))).lookup? c.key =
        (HandlerTable.ofRegistrations rs).lookup? c.key := by
      refine HandlerTable.lookup?_congr fun key hkey => ?_
      -- only keys of positions on the way are looked up, and none of these is `k`
      obtain ⟨a, ha, rfl⟩ := (Chain.mem_enclosing_key_iff hv hcds).1 hkey
      have hne : a.key ≠ k := by
        rcases hk with rfl | hk
        · exact Chain.key_ne_empty hv ha.mem
        · exact hk a ha
      rw [HandlerTable.lookup_ofRegistrations, HandlerTable.lookup_ofRegistrations,
        Registration.last?_filter hne]
    rw [HandlerTable.dispatch_of_layout hlayout, HandlerTable.dispatch_of_layout hlayout, hsame]

end Registry

/-- Handlers for definitions of `reusedNames`, and for strings that are no key there. -/
def someHandlers : List (Registration Id Nat) :=
  [.on "" fun _ => 0, .on "a" fun _ => 1, .on "a.b" fun _ => 2, .on "a.b" fun _ => 3,
    .on "b.a" fun _ => 4]

/-- The position of `nestedCase` in `reusedNames`. -/
def nestedPosition : Chain := ⟨[⟨⟨"a", 8, 8, [⟨"k", ⟨0, 1, false⟩⟩]⟩, ⟨"k", 1⟩⟩], nestedCase⟩

/-- The word 9 decodes to `a.b.a`, and the later of the handlers of `a.b` is run. -/
theorem Registry.dispatch_follows_definitions_reusedNames :
    ∃ r inst, build reusedNames = .ok r ∧ r.decode 9 = .ok inst ∧ inst.key = "a.b.a" ∧
      (HandlerTable.ofRegistrations someHandlers).dispatch inst =
        (Registration.on (m := Id) "a.b" fun _ => 3).handler inst := by
  obtain ⟨r, hr⟩ : ∃ r, build reusedNames = .ok r := ⟨_, rfl⟩
  obtain ⟨inst, hinst, hkey, hlast⟩ : ∃ inst, r.decode 9 = .ok inst ∧ inst.key = "a.b.a" ∧
      inst.layout = some (nestedPosition.extend ⟨"j", 0⟩ (.leaf ⟨"a", 0, 0, []⟩)).layout := by
    obtain ⟨hv, plans, hplans, rfl⟩ := build_eq_ok_iff.1 hr
    rw [decode_ofPlans hv hplans]
    exact ⟨_, rfl, rfl, rfl⟩
  have hnested : nestedPosition ∈ Chain.ofDefinition reusedNames[0] :=
    Chain.extend_mem (Chain.root_mem _) rfl (List.mem_cons_of_mem _ List.mem_cons_self)
  have hmem : nestedPosition.extend ⟨"j", 0⟩ (.leaf ⟨"a", 0, 0, []⟩) ∈
      Chain.ofDefinitions reusedNames :=
    Chain.mem_ofDefinitions List.mem_cons_self (Chain.extend_mem hnested rfl List.mem_cons_self)
  obtain ⟨c, hc, -, hlayout, hdeepest, -⟩ :=
    (dispatch_follows_definitions hr someHandlers 9).1 inst hinst
  obtain rfl := Chain.eq_of_layout_eq (accepted_of_build hr).1.vetted (Chain.mem_terminals.1 hc).1
    hmem (Option.some.inj (hlayout.symm.trans hlast))
  refine ⟨r, inst, hr, hinst, hkey, hdeepest nestedPosition _ ?_ rfl ?_⟩
  · exact (Chain.Passes.refl (Chain.mem_ofDefinitions List.mem_cons_self hnested)).extend rfl
      List.mem_cons_self
  · intro b hb hlt
    have hb := hb.mem
    simp only [Chain.ofDefinitions, reusedNames, nestedCase, List.flatMap_cons, List.flatMap_nil,
      Chain.ofDefinition, Chain.ofCases, List.map_cons, List.map_nil, Chain.below, List.append_nil,
      List.cons_append, List.nil_append, List.mem_cons, List.not_mem_nil, or_false] at hb
    rcases hb with rfl | rfl | rfl | rfl | rfl
    · exact absurd hlt (by decide)
    · exact absurd hlt (by decide)
    · exact absurd hlt (by decide)
    · rfl
    · exact absurd hlt (by decide)

end ShaderWord
