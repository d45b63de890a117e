import Mathlib.Tactic.Common
import ShaderWord.Definition

/-!
# Keys and what encloses them

* `Key.Encloses p k` — `p` is `k`, or what stands before one of the dots of `k`;
* `Key.mem_enclosing_iff`: these are the keys that `Key.enclosing` lists;
* `Key.enclosing_append`: a key that goes on by a name is enclosed by itself and by what encloses the rest;
* `Key.ofNames_inj`: names without dots can be read off the key that joins them.
-/

namespace ShaderWord.Key

/-- The first key is the second, or what stands before one of its dots. -/
def Encloses (p k : String) : Prop := k = p ∨ ∃ rest, k = p ++ "." ++ rest

/-! ### Cutting at dots -/

section Cut

variable {l r : List Char}

lemma mem_afterDots : r ∈ afterDots l ↔ ∃ before, l = before ++ '.' :: r := by
  induction l with
  | nil => simp [afterDots]
  | cons c l ih =>
    -- a dot at the front, or one further on
    have hcons : (∃ before, c :: l = before ++ '.' :: r) ↔
        (c = '.' ∧ l = r) ∨ ∃ before, l = before ++ '.' :: r := by
      constructor
      · rintro ⟨before, h⟩
        cases before with
        | nil => exact Or.inl (by simpa using h)
        | cons d before => exact Or.inr ⟨before, (List.cons.inj h).2⟩
      · rintro (⟨rfl, rfl⟩ | ⟨before, rfl⟩)
        · exact ⟨[], rfl⟩
        · exact ⟨c :: before, rfl⟩
    rw [hcons, afterDots]
    split_ifs with hc
    · rw [List.mem_cons, ih]
      simp [hc, eq_comm]
    · rw [ih]
      simp [hc]

lemma afterDots_append (h : '.' ∉ l) : afterDots (l ++ r) = afterDots r := by
  induction l with
  | nil => rfl
  | cons c l ih =>
    have hc : c ≠ '.' := fun hc => h (by simp [hc])
    have hl : '.' ∉ l := fun hl => h (List.mem_cons_of_mem c hl)
    rw [List.cons_append, afterDots, if_neg hc, ih hl]

end Cut

section Enclosing

variable {p k n : String}

theorem mem_enclosing_iff : p ∈ enclosing k ↔ Encloses p k := by
  unfold enclosing Encloses
  rw [List.mem_cons, List.mem_map, eq_comm]
  refine or_congr_right ?_
  constructor
  · rintro ⟨r, hr, rfl⟩
    obtain ⟨before, h⟩ := mem_afterDots.1 hr
    refine ⟨.ofList before.reverse, String.toList_inj.1 ?_⟩
    have hk := congrArg List.reverse h
    simpa using hk
  · rintro ⟨rest, rfl⟩
    exact ⟨p.toList.reverse, mem_afterDots.2 ⟨rest.toList.reverse, by simp⟩, by simp⟩

theorem enclosing_of_not_mem (h : '.' ∉ n.toList) : enclosing n = [n] := by
  have hnone : afterDots n.toList.reverse = [] := by
    have happ := afterDots_append (l := n.toList.reverse) (r := []) (by simpa using h)
    simpa [afterDots] using happ
  rw [enclosing, hnone]
  rfl

/-- **A key that goes on by a name** is enclosed by itself and by what encloses the rest. -/
theorem enclosing_append (k : String) (h : '.' ∉ n.toList) :
    enclosing (k ++ "." ++ n) = (k ++ "." ++ n) :: enclosing k := by
  have hrev : (k ++ "." ++ n).toList.reverse = n.toList.reverse ++ '.' :: k.toList.reverse := by simp
  have hdots : afterDots (k ++ "." ++ n).toList.reverse =
      k.toList.reverse :: afterDots k.toList.reverse := by
    rw [hrev, afterDots_append (by simpa using h), afterDots, if_pos rfl]
  rw [enclosing, hdots, enclosing]
  simp

end Enclosing

/-! ### Joining names -/

section Join

variable {names names' : List String} {n : String}

@[simp] theorem ofNames_singleton (n : String) : ofNames [n] = n := String.intercalate_singleton

theorem ofNames_concat (h : names ≠ []) (n : String) :
    ofNames (names ++ [n]) = ofNames names ++ "." ++ n := by
  unfold ofNames
  rw [String.intercalate_append_of_ne_nil h (List.cons_ne_nil n []), String.intercalate_singleton]

lemma splitOn_ofNames (hne : names ≠ []) (h : ∀ n ∈ names, '.' ∉ n.toList) :
    (ofNames names).toList.splitOn '.' = names.map String.toList := by
  unfold ofNames
  rw [String.toList_intercalate]
  refine List.splitOn_intercalate '.' ?_ (by simpa using hne)
  intro l hl
  obtain ⟨n, hn, rfl⟩ := List.mem_map.1 hl
  exact h n hn

/-- **Names without dots can be read off the key that joins them.** -/
theorem ofNames_inj (hne : names ≠ []) (hne' : names' ≠ []) (h : ∀ n ∈ names, '.' ∉ n.toList)
    (h' : ∀ n ∈ names', '.' ∉ n.toList) (heq : ofNames names = ofNames names') : names = names' := by
  have hsplit : names.map String.toList = names'.map String.toList := by
    rw [← splitOn_ofNames hne h, heq, splitOn_ofNames hne' h']
  exact (List.map_inj_right fun _ _ => String.toList_inj.1).1 hsplit

theorem ofNames_ne_empty (hne : names ≠ []) (h : ∀ n ∈ names, IsName n) : ofNames names ≠ "" := by
  intro hempty
  have hone : names = [""] := by
    refine ofNames_inj hne (List.cons_ne_nil _ _) (fun n hn => (h n hn).2) (by simp) ?_
    rw [hempty, ofNames_singleton]
  exact (h "" (by simp [hone])).1 rfl

end Join

end ShaderWord.Key
