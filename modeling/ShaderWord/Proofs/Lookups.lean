import Mathlib.Data.List.TakeWhile
import ShaderWord.Proofs.Routing

/-!
# What a table finds under any key

* `Key.beforeLastDot? key` — what stands before the last dot of the key;
* `HandlerTable.lookupWithin t looks key` — the search that cuts at the last dot and looks again, if it ends within so
  many looks.

A key is a name, or a shorter key that goes on by a name (`Key.induct`). So what encloses it is listed from the longest
to the shortest (`Key.pairwise_enclosing`), the search looks under each of these once (`HandlerTable.lookupWithin_eq`),
and what it finds is held under the longest (`HandlerTable.lookup?_eq_some_iff`). No key is taken to be one of a
definition here: dots may lead, trail and follow one another.
-/

namespace ShaderWord

/-! ### Keys from the end -/

namespace Key

variable {p q k n key : String}

/-- What stands before the last dot. -/
def beforeLastDot? (key : String) : Option String :=
  match key.toList.reverse.dropWhile (· ≠ '.') with
  | [] => none
  | _ :: before => some (.ofList before.reverse)

theorem length_lt_append (k n : String) : k.length < (k ++ "." ++ n).length := by
  rw [String.length_append, String.length_append]
  exact Nat.lt_of_lt_of_le (Nat.lt_succ_self _) (Nat.le_add_right _ _)

/-- **A key is a name, or goes on by one.** -/
theorem induct {P : String → Prop} (name : ∀ n, '.' ∉ n.toList → P n)
    (append : ∀ k n, '.' ∉ n.toList → P k → P (k ++ "." ++ n)) (key : String) : P key := by
  induction hlength : key.length using Nat.strongRecOn generalizing key with
  | ind length ih =>
    by_cases hdot : '.' ∈ key.toList
    · obtain ⟨after, before, hsplit, hafter⟩ :=
        List.eq_append_cons_of_mem (List.mem_reverse.2 hdot)
      have hkey : key = .ofList before.reverse ++ "." ++ .ofList after.reverse := by
        rw [← String.toList_inj, ← List.reverse_inj, hsplit]
        simp
      rw [hkey]
      refine append _ _ (by simpa using hafter) (ih _ ?_ _ rfl)
      rw [← hlength, hkey]
      exact length_lt_append _ _
    · exact name key hdot

lemma dropWhile_reverse_name (h : '.' ∉ n.toList) : n.toList.reverse.dropWhile (· ≠ '.') = [] := by
  rw [List.dropWhile_eq_nil_iff]
  intro c hc
  rw [decide_eq_true_iff]
  rintro rfl
  exact h (List.mem_reverse.1 hc)

theorem beforeLastDot?_of_not_mem (h : '.' ∉ n.toList) : beforeLastDot? n = none := by
  rw [beforeLastDot?, dropWhile_reverse_name h]

theorem beforeLastDot?_append (k : String) (h : '.' ∉ n.toList) : beforeLastDot? (k ++ "." ++ n) = some k := by
  have hrev : (k ++ "." ++ n).toList.reverse = n.toList.reverse ++ '.' :: k.toList.reverse := by simp
  rw [beforeLastDot?, hrev, List.dropWhile_append, dropWhile_reverse_name h]
  simp

theorem Encloses.isPrefix_toList (h : Encloses p k) : p.toList <+: k.toList := by
  rcases h with rfl | ⟨rest, rfl⟩
  · exact List.prefix_rfl
  · exact ⟨('.' :: rest.toList), by simp⟩

theorem Encloses.length_le (h : Encloses p k) : p.length ≤ k.length := by
  simpa only [String.length_toList] using h.isPrefix_toList.length_le

/-- Of one length there is one key at most that encloses a key. -/
theorem Encloses.eq_of_length_eq (hp : Encloses p k) (hq : Encloses q k) (h : p.length = q.length) : p = q := by
  have hlength : p.toList.length = q.toList.length := by rw [String.length_toList, String.length_toList, h]
  have hstarts := List.prefix_of_prefix_length_le hp.isPrefix_toList hq.isPrefix_toList (Nat.le_of_eq hlength)
  exact String.toList_inj.1 (hstarts.eq_of_length hlength)

/-- **What encloses a key is listed from the longest to the shortest.** -/
theorem pairwise_enclosing (key : String) : (enclosing key).Pairwise fun p q => q.length < p.length := by
  induction key using induct with
  | name n h =>
    rw [enclosing_of_not_mem h]
    exact List.pairwise_singleton _ _
  | append k n h ih =>
    rw [enclosing_append k h]
    refine List.pairwise_cons.2 ⟨fun q hq => ?_, ih⟩
    exact Nat.lt_of_le_of_lt (mem_enclosing_iff.1 hq).length_le (length_lt_append k n)

end Key

/-! ### The search -/

namespace HandlerTable

variable {m : Type → Type} {α : Type} {t : HandlerTable m α} {key : String} {f : Handler m α}

/-- The search that looks under the key and then, as long as nothing is held there, under what stands before the last
dot, if it ends within so many looks. -/
def lookupWithin (t : HandlerTable m α) : Nat → String → Option (Option (Handler m α))
  | 0, _ => none
  | looks + 1, key =>
    match t.handlers.lookup key with
    | some f => some (some f)
    | none =>
      match Key.beforeLastDot? key with
      | some shorter => t.lookupWithin looks shorter
      | none => some none

/-- **The search ends** within one look more than the key has dots, and finds what is held under the first of the keys
around it. -/
theorem lookupWithin_eq {looks : Nat} (h : key.toList.count '.' < looks) :
    t.lookupWithin looks key = some (t.lookup? key) := by
  obtain ⟨looks, rfl⟩ := Nat.exists_eq_succ_of_ne_zero (Nat.ne_zero_of_lt h)
  induction key using Key.induct generalizing looks with
  | name n hn =>
    rw [lookupWithin, lookup?, Key.enclosing_of_not_mem hn, Key.beforeLastDot?_of_not_mem hn]
    cases hlook : t.handlers.lookup n <;> simp [hlook]
  | append k n hn ih =>
    have hcount : (k ++ "." ++ n).toList.count '.' = k.toList.count '.' + 1 := by
      simp [List.count_eq_zero.2 hn]
    rw [hcount] at h
    obtain ⟨looks, rfl⟩ := Nat.exists_eq_succ_of_ne_zero (by omega : looks ≠ 0)
    rw [lookupWithin, lookup?, Key.enclosing_append k hn, List.findSome?_cons, Key.beforeLastDot?_append k hn]
    cases t.handlers.lookup (k ++ "." ++ n) with
    | some f => rfl
    | none => exact ih looks (by omega)

theorem exists_longest_of_lookup? (h : t.lookup? key = some f) : ∃ p, Key.Encloses p key ∧
    t.handlers.lookup p = some f ∧
      ∀ q, Key.Encloses q key → t.handlers.lookup q ≠ none → q.length ≤ p.length := by
  obtain ⟨longer, p, shorter, hsplit, hp, hlonger⟩ := List.findSome?_eq_some_iff.1 h
  have hmem : ∀ {q}, Key.Encloses q key ↔ q ∈ longer ++ p :: shorter := fun {q} => by
    rw [← hsplit, Key.mem_enclosing_iff]
  have hpairwise := Key.pairwise_enclosing key
  rw [hsplit] at hpairwise
  refine ⟨p, hmem.2 (by simp), hp, fun q hq hheld => ?_⟩
  rcases List.mem_append.1 (hmem.1 hq) with hq | hq
  · exact (hheld (hlonger q hq)).elim
  rcases List.mem_cons.1 hq with rfl | hq
  · exact Nat.le_refl _
  · have hless := (List.pairwise_cons.1 (List.pairwise_append.1 hpairwise).2.1).1 q hq
    exact Nat.le_of_lt hless

/-- **What a table finds is held under the longest** of the keys around a key. -/
theorem lookup?_eq_some_iff : t.lookup? key = some f ↔ ∃ p, Key.Encloses p key ∧
    t.handlers.lookup p = some f ∧
      ∀ q, Key.Encloses q key → t.handlers.lookup q ≠ none → q.length ≤ p.length := by
  refine ⟨exists_longest_of_lookup?, ?_⟩
  rintro ⟨p, hp, hheld, hlongest⟩
  cases hfound : t.lookup? key with
  | none =>
    rw [lookup?_eq_none_iff.1 hfound p hp] at hheld
    cases hheld
  | some g =>
    obtain ⟨q, hq, hheld', hlongest'⟩ := exists_longest_of_lookup? hfound
    have hle := hlongest' p hp (by simp [hheld])
    have hge := hlongest q hq (by simp [hheld'])
    obtain rfl := hp.eq_of_length_eq hq (Nat.le_antisymm hle hge)
    exact hheld'.symm.trans hheld

theorem lookup_ofRegistrations_eq_none_iff [Monad m] {rs : List (Registration m α)} {k : String} :
    (ofRegistrations rs).handlers.lookup k = none ↔ ∀ reg ∈ rs, reg.key ≠ k := by
  rw [lookup_ofRegistrations, Option.map_eq_none_iff, Registration.last?_eq_none_iff]

/-- **A table finds the last registration under the longest string around the key**, for any registrations and any
string. The search ends within one look more than the key has dots, and nothing is found only where no
registration is under the key itself or under what stands before one of its dots. -/
theorem lookup_exact [Monad m] (rs : List (Registration m α)) (key : String) :
    (ofRegistrations rs).lookupWithin (key.toList.count '.' + 1) key = some ((ofRegistrations rs).lookup? key) ∧
    (∀ f, (ofRegistrations rs).lookup? key = some f ↔ ∃ p reg, Key.Encloses p key ∧
      Registration.last? rs p = some reg ∧ reg.handler = f ∧
        ∀ other ∈ rs, Key.Encloses other.key key → other.key.length ≤ p.length) ∧
    ((ofRegistrations rs).handles key = false ↔ ∀ reg ∈ rs, ¬ Key.Encloses reg.key key) := by
  -- lengths are compared over registrations instead of strings that have one
  have hlongest : ∀ p : String, (∀ q, Key.Encloses q key → (ofRegistrations rs).handlers.lookup q ≠ none →
      q.length ≤ p.length) ↔ ∀ other ∈ rs, Key.Encloses other.key key → other.key.length ≤ p.length := by
    intro p
    simp only [ne_eq, lookup_ofRegistrations_eq_none_iff, not_forall, not_not]
    constructor
    · exact fun h other hother hencloses => h _ hencloses ⟨other, hother, rfl⟩
    · rintro h q hq ⟨other, hother, rfl⟩
      exact h other hother hq
  refine ⟨lookupWithin_eq (Nat.lt_succ_self _), fun f => ?_, ?_⟩
  · rw [lookup?_eq_some_iff]
    refine exists_congr fun p => ?_
    rw [hlongest, lookup_ofRegistrations, Option.map_eq_some_iff]
    constructor
    · rintro ⟨hp, ⟨reg, hreg, rfl⟩, hle⟩
      exact ⟨reg, hp, hreg, rfl, hle⟩
    · rintro ⟨reg, hp, hreg, rfl, hle⟩
      exact ⟨hp, ⟨reg, hreg, rfl⟩, hle⟩
  · rw [handles, Option.isSome_eq_false_iff, Option.isNone_iff_eq_none, lookup?_eq_none_iff]
    simp only [lookup_ofRegistrations_eq_none_iff]
    exact ⟨fun h reg hreg hencloses => h _ hencloses reg hreg rfl,
      fun h p hp reg hreg heq => h reg hreg (heq ▸ hp)⟩

end HandlerTable

/-- Registrations under strings that end in a dot or are empty, and two under one string. -/
def dottedHandlers : List (Registration Id Nat) :=
  [.on "" fun _ => 0, .on "é" fun _ => 1, .on "é." fun _ => 2, .on "é" fun _ => 3]

/-- Before the dots of `é..x` stand `é.` and `é`, and nothing does in `éx`, which only starts with `é`. -/
theorem HandlerTable.lookup_exact_dottedHandlers :
    (ofRegistrations dottedHandlers).lookup? "é..x" = some (Registration.on (m := Id) "é." fun _ => 2).handler ∧
    (ofRegistrations dottedHandlers).lookup? "é.x" = some (Registration.on (m := Id) "é" fun _ => 3).handler ∧
    (ofRegistrations dottedHandlers).handles "éx" = false := by
  have hlongest : ∀ other ∈ dottedHandlers, Key.Encloses other.key "é.x" → other.key.length ≤ 1 := by
    simp only [← Key.mem_enclosing_iff]
    decide +kernel
  have hnone : ∀ other ∈ dottedHandlers, ¬ Key.Encloses other.key "éx" := by
    simp only [← Key.mem_enclosing_iff]
    decide +kernel
  refine ⟨((lookup_exact dottedHandlers "é..x").2.1 _).2 ⟨"é.", _, .inr ⟨"x", rfl⟩, rfl, rfl, ?_⟩,
    ((lookup_exact dottedHandlers "é.x").2.1 _).2 ⟨"é", _, .inr ⟨"x", rfl⟩, rfl, rfl, hlongest⟩,
    (lookup_exact dottedHandlers "éx").2.2.2 hnone⟩
  exact fun other hother _ => (by decide +kernel : ∀ other ∈ dottedHandlers, other.key.length ≤ 2) other hother

end ShaderWord
