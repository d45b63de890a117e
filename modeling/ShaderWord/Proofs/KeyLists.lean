import ShaderWord.Proofs.Routing
import ShaderWord.Proofs.Terminals

/-!
# The keys that are of use

`Registry.keys` is made from the keys of the layouts, by cutting them at their dots. It is the list of the keys
of those definitions that have a leaf (`Registry.mem_keys_iff`), each once: what encloses the key of a terminal
position are the keys of the positions on the way to it, and a position is on the way to a terminal one if
and only if its target has a leaf (`Chain.leaves_ne_nil_iff`).

A handler under any other key is of no use: without it a table finds the same for every word that decodes
(`HandlerTable.lookup?_restrict`).
-/

namespace ShaderWord

/-! ### Lists without repetition -/

theorem nodup_eraseDups {α : Type} [DecidableEq α] (l : List α) : l.eraseDups.Nodup := by
  induction hn : l.length using Nat.strongRecOn generalizing l with
  | ind n ih =>
    cases l with
    | nil => simp
    | cons a l =>
      have hlt : (l.filter fun b => !b == a).length < n := by
        rw [← hn, List.length_cons]
        exact Nat.lt_succ_of_le (List.length_filter_le _ l)
      rw [List.eraseDups_cons, List.nodup_cons, List.mem_eraseDups, List.mem_filter]
      exact ⟨by simp, ih _ hlt _ rfl⟩

/-! ### Definitions with leaves -/

namespace Chain

variable {ds : List Definition} {d : Definition} {a c t : Chain}

theorem leaves_ne_nil_iff : d.leaves ≠ [] ↔ ∃ t ∈ ofDefinition d, t.isTerminal = true := by
  rw [← map_label_terminal d, Ne, List.map_eq_nil_iff, List.filter_eq_nil_iff]
  simp

theorem isTerminal_append : (a.append t).isTerminal = t.isTerminal := rfl

/-- A position is on the way to a terminal one if and only if its target has a leaf. -/
theorem exists_passes_iff : (∃ c ∈ terminals ds, Passes ds c a) ↔
    a ∈ ofDefinitions ds ∧ a.target.leaves ≠ [] := by
  rw [leaves_ne_nil_iff]
  constructor
  · rintro ⟨c, hc, ha, t, ht, rfl⟩
    refine ⟨ha, t, ht, ?_⟩
    rw [← isTerminal_append (a := a)]
    exact (mem_terminals.1 hc).2
  · rintro ⟨ha, t, ht, hterminal⟩
    obtain ⟨d, hd, had⟩ := exists_of_mem_ofDefinitions ha
    have hmem := mem_ofDefinitions hd (append_mem had t ht)
    exact ⟨a.append t, mem_terminals.2 ⟨hmem, hterminal⟩, ha, t, ht, rfl⟩

end Chain

namespace Registry

variable {ds : List Definition} {r : Registry} {c : Chain} {k : String}

theorem mem_keys_iff_encloses (h : build ds = .ok r) :
    k ∈ r.keys ↔ ∃ c ∈ Chain.terminals ds, k ∈ Key.enclosing c.key := by
  rw [keys, List.mem_eraseDups, List.mem_flatMap, layouts_eq_of_build h]
  simp only [List.mem_map, exists_exists_and_eq_and]
  rfl

/-- **The keys are those of the definitions with a leaf.** -/
theorem mem_keys_iff (h : build ds = .ok r) :
    k ∈ r.keys ↔ ∃ a ∈ Chain.ofDefinitions ds, a.key = k ∧ a.target.leaves ≠ [] := by
  have hv := (accepted_of_build h).1.vetted
  have hway : ∀ c ∈ Chain.terminals ds,
      k ∈ Key.enclosing c.key ↔ ∃ a, Chain.Passes ds c a ∧ a.key = k :=
    fun c hc => Chain.mem_enclosing_key_iff hv (Chain.mem_terminals.1 hc).1
  rw [mem_keys_iff_encloses h]
  constructor
  · rintro ⟨c, hc, hk⟩
    obtain ⟨a, ha, hkey⟩ := (hway c hc).1 hk
    obtain ⟨hmem, hleaves⟩ := Chain.exists_passes_iff.1 ⟨c, hc, ha⟩
    exact ⟨a, hmem, hkey, hleaves⟩
  · rintro ⟨a, hmem, hkey, hleaves⟩
    obtain ⟨c, hc, ha⟩ := Chain.exists_passes_iff.2 ⟨hmem, hleaves⟩
    exact ⟨c, hc, (hway c hc).2 ⟨a, ha, hkey⟩⟩

end Registry

/-! ### Handlers under keys that are of use -/

namespace HandlerTable

variable {m : Type → Type} {α : Type} {t : HandlerTable m α} {ks : List String} {key : String}

/-- The table without what it has under other keys. -/
def restrict (t : HandlerTable m α) (ks : List String) : HandlerTable m α :=
  ⟨t.handlers.filter fun e => decide (e.1 ∈ ks)⟩

theorem lookup?_restrict (h : ∀ k ∈ Key.enclosing key, k ∈ ks) :
    (t.restrict ks).lookup? key = t.lookup? key :=
  lookup?_congr fun k hk => lookup_filter (p := fun k => decide (k ∈ ks)) (by simpa using h k hk)

theorem exists_of_lookup? {f : Handler m α} (h : t.lookup? key = some f) :
    ∃ k ∈ Key.enclosing key, t.handlers.lookup k = some f :=
  List.exists_of_findSome?_eq_some h

end HandlerTable

namespace Registry

variable {ds : List Definition} {r : Registry} {c : Chain}

theorem mem_keys_of_encloses (h : build ds = .ok r) (hc : c ∈ Chain.terminals ds) :
    ∀ k ∈ Key.enclosing c.key, k ∈ r.keys :=
  fun _ hk => (mem_keys_iff_encloses h).2 ⟨c, hc, hk⟩

/-- **The keys of a registry are those of use.** They are the keys of the definitions that have a leaf, each once.
What dispatch runs on a word that decodes is held under one of them, and what a table holds under any other
string might as well not be there. -/
theorem keys_exact (h : build ds = .ok r) :
    r.keys.Nodup ∧
    (∀ k, k ∈ r.keys ↔ ∃ a ∈ Chain.ofDefinitions ds, a.key = k ∧ a.target.leaves ≠ []) ∧
    ∀ {m : Type → Type} [Monad m] {α : Type} (t : HandlerTable m α) (w : Word) (inst : Instruction),
      r.decode w = .ok inst →
        (t.dispatch inst = pure (.error (.unhandledFormat inst.key)) ∨
          ∃ k ∈ r.keys, ∃ f, t.handlers.lookup k = some f ∧ t.dispatch inst = f inst) ∧
        (t.restrict r.keys).dispatch inst = t.dispatch inst := by
  refine ⟨nodup_eraseDups _, fun k => mem_keys_iff h, ?_⟩
  intro m _ α t w inst hinst
  obtain ⟨c, hc, -, hlayout⟩ := exists_admits_of_decode h hinst
  have hkey : inst.key = c.key := Instruction.key_of_layout hlayout
  have hlisted := mem_keys_of_encloses h hc
  rw [HandlerTable.dispatch_of_layout hlayout, HandlerTable.dispatch_of_layout hlayout,
    HandlerTable.lookup?_restrict hlisted, hkey]
  refine ⟨?_, rfl⟩
  cases hfound : t.lookup? c.key with
  | none => exact .inl rfl
  | some f =>
    obtain ⟨k, hk, hheld⟩ := HandlerTable.exists_of_lookup? hfound
    exact .inr ⟨k, hlisted k hk, f, hheld, rfl⟩

end Registry

/-- A discriminant without cases, below a definition of the same name as another format. -/
def emptyBranch : List Definition :=
  [.select ⟨"a", 8, 8, [⟨"k", ⟨0, 1, false⟩⟩]⟩ "k"
      [(0, .leaf ⟨"a", 0, 0, []⟩), (1, .select ⟨"b", 0, 0, [⟨"j", ⟨1, 1, false⟩⟩]⟩ "j" [])],
    .leaf ⟨"b", 8, 0, []⟩]

/-- The key `a.b` is not listed, as nothing decodes there, and `b` is. -/
theorem Registry.keys_exact_emptyBranch : ∃ r, build emptyBranch = .ok r ∧
    r.keys = ["a.a", "a", "b"] ∧ r.keys.Nodup ∧
    (¬ ∃ a ∈ Chain.ofDefinitions emptyBranch, a.key = "a.b" ∧ a.target.leaves ≠ []) ∧
    ∃ inst, r.decode 8 = .ok inst ∧ inst.key = "a.a" ∧ ∀ t : HandlerTable Id Nat,
      ((t.add "a.b" fun _ => 0).restrict r.keys).dispatch inst =
        (t.add "a.b" fun _ => 0).dispatch inst := by
  obtain ⟨r, hr⟩ : ∃ r, build emptyBranch = .ok r := ⟨_, rfl⟩
  obtain ⟨hnodup, hmem, hdispatch⟩ := keys_exact hr
  have hkeys : r.keys = ["a.a", "a", "b"] := by
    rw [keys, layouts_eq_of_build hr]
    decide +kernel
  obtain ⟨inst, hinst, hkey⟩ : ∃ inst, r.decode 8 = .ok inst ∧ inst.key = "a.a" := by
    rw [(accepted_of_build hr).2.1]
    exact ⟨_, rfl, rfl⟩
  refine ⟨r, hr, hkeys, hnodup, ?_, inst, hinst, hkey, fun t => ?_⟩
  · rw [← hmem, hkeys]
    decide
  · exact (hdispatch (t.add "a.b" fun _ => 0) 8 inst hinst).2

end ShaderWord
