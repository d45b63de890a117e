import ShaderWord.Proofs.Presence
import ShaderWord.Proofs.Sequences

/-!
# What admission grants

`Admission.vet` accepts exactly the lists that are `Vetted` (`vet_eq_ok_iff`): formats with usable and
different names, fixed values within their masks and no common word, and at each position with a
discriminant a short way down that has not selected on the field before, and cases with different keys
and names. What it answers otherwise is present (`isPresent_of_vet`).
-/

namespace ShaderWord

/-! ### One definition -/

namespace Shape

variable {s t : Shape} {e : Defect}

theorem requireName_eq_ok_iff : s.requireName = .ok () ↔ Key.IsName s.name := by
  unfold requireName
  split <;> simp_all

theorem requireName_eq_error_iff :
    s.requireName = .error e ↔ ¬ Key.IsName s.name ∧ e = .invalidName s.name := by
  unfold requireName
  split <;> simp_all [eq_comm]

theorem requirePredicate_eq_ok_iff : s.requirePredicate = .ok () ↔ s.pin.IsWithin := by
  unfold requirePredicate Pin.IsWithin pin
  split <;> simp_all

theorem requirePredicate_eq_error_iff :
    s.requirePredicate = .error e ↔
      ¬ s.pin.IsWithin ∧ e = .invalidPredicate s.name s.mask s.value := by
  unfold requirePredicate Pin.IsWithin pin
  split <;> simp_all [eq_comm]

theorem ambiguity?_eq_some_iff :
    s.ambiguity? t = some e ↔
      s.pin.Agrees t.pin ∧ e = .ambiguousFormats s.name t.name (s.value ||| t.value) := by
  unfold ambiguity? Pin.Agrees pin
  split <;> simp_all [eq_comm]

theorem ambiguity?_eq_none_iff : s.ambiguity? t = none ↔ ¬ s.pin.Agrees t.pin := by
  unfold ambiguity? Pin.Agrees pin
  split <;> simp_all

theorem agrees_of_accepts {w : Word} (hs : s.accepts w = true) (ht : t.accepts w = true) :
    s.pin.Agrees t.pin :=
  Pin.agrees_of_holds (accepts_iff.1 hs) (accepts_iff.1 ht)

theorem accepts_or (hs : s.pin.IsWithin) (ht : t.pin.IsWithin) (h : s.pin.Agrees t.pin) :
    s.accepts (s.value ||| t.value) = true ∧ t.accepts (s.value ||| t.value) = true := by
  have hw : ∀ p ∈ [s.pin, t.pin], p.IsWithin := by simp [hs, ht]
  have ha : ∀ p ∈ [s.pin, t.pin], ∀ q ∈ [s.pin, t.pin], p.Agrees q := by
    simp [h, h.symm, Pin.agrees_refl]
  have hv : (Pin.join [s.pin, t.pin]).value = s.value ||| t.value := by simp [Pin.join, pin]
  rw [accepts_iff, accepts_iff, ← hv]
  exact ⟨Pin.holds_join_value hw ha (by simp), Pin.holds_join_value hw ha (by simp)⟩

end Shape

theorem not_isName_iff {name : String} :
    ¬ Key.IsName name ↔ name = "" ∨ '.' ∈ name.toList := by
  unfold Key.IsName
  rw [not_and_or, not_not, not_not]

/-! ### Where defects are -/

namespace Defect

variable {ds : List Definition} {c : Chain}

theorem isPresent_invalidName (hc : c ∈ Chain.ofDefinitions ds)
    (h : ¬ Key.IsName c.target.label.name) : (invalidName c.target.label.name).IsPresent ds :=
  ⟨c, hc, rfl, not_isName_iff.1 h⟩

theorem isPresent_invalidPredicate (hc : c ∈ Chain.ofDefinitions ds)
    (h : ¬ c.target.label.pin.IsWithin) :
    (invalidPredicate c.target.label.name c.target.label.mask c.target.label.value).IsPresent ds := by
  refine ⟨c, hc, rfl, rfl, rfl, ?_⟩
  rw [Pin.isWithin_iff] at h
  push Not at h
  obtain ⟨i, hv, hm⟩ := h
  exact ⟨i, hv, Bool.eq_false_iff.2 hm⟩

end Defect

theorem Chain.root_mem_ofDefinitions {ds : List Definition} {d : Definition} (hd : d ∈ ds) :
    ⟨[], d⟩ ∈ Chain.ofDefinitions ds :=
  Chain.mem_ofDefinitions hd (Chain.root_mem d)

/-! ### Collisions of formats -/

/-- The format at a position of the list accepts the word. -/
def AcceptsAt (ds : List Definition) (i : Nat) (w : Word) : Prop :=
  ∃ d, ds[i]? = some d ∧ d.label.accepts w = true

/-- Two positions, the first before the second, whose formats accept a common word. -/
structure Collision (ds : List Definition) (i j : Nat) : Prop where
  lt : i < j
  common : ∃ w, AcceptsAt ds i w ∧ AcceptsAt ds j w

/-- No collision comes before it, by first position and then by second. -/
def Collision.IsFirst (ds : List Definition) (i j : Nat) : Prop :=
  Collision ds i j ∧ ∀ i' j', Collision ds i' j' → i < i' ∨ i = i' ∧ j ≤ j'

namespace Admission

/-! ### Formats -/

theorem vetFormats_eq_ok_iff {earlier : List String} {ss : List Shape} :
    vetFormats earlier ss = .ok () ↔
      (∀ s ∈ ss, Key.IsName s.name ∧ s.pin.IsWithin) ∧ (ss.map Shape.name).Nodup ∧
        ∀ s ∈ ss, s.name ∉ earlier := by
  induction ss generalizing earlier with
  | nil => simp [vetFormats]
  | cons s rest ih =>
    simp only [vetFormats, bind_unit_eq_ok_iff, Shape.requireName_eq_ok_iff,
      Shape.requirePredicate_eq_ok_iff]
    by_cases hmem : s.name ∈ earlier
    · simp [hmem]
    · simp only [hmem, if_false, ih, List.map_cons, List.nodup_cons,
        List.mem_cons, List.mem_map, not_or, not_exists, not_and]
      grind

theorem isPresent_of_vetFormats (before : List Definition) {rest : List Definition} {e : Defect}
    (h : vetFormats (before.map (·.label.name)).reverse (rest.map Tree.label) = .error e) :
    e.IsPresent (before ++ rest) := by
  induction rest generalizing before with
  | nil => simp [vetFormats] at h
  | cons d rest ih =>
    have hroot : (⟨[], d⟩ : Chain) ∈ Chain.ofDefinitions (before ++ d :: rest) :=
      Chain.root_mem_ofDefinitions (by simp)
    simp only [List.map_cons, vetFormats, bind_eq_error_iff, Shape.requireName_eq_error_iff,
      Shape.requirePredicate_eq_error_iff] at h
    rcases h with ⟨hname, rfl⟩ | ⟨_, -, ⟨hpred, rfl⟩ | ⟨_, -, h⟩⟩
    · exact Defect.isPresent_invalidName hroot hname
    · exact Defect.isPresent_invalidPredicate hroot hpred
    · split at h
      · next hmem =>
        obtain rfl := Except.error.inj h
        obtain ⟨d', hd', hname⟩ := List.mem_map.1 (List.mem_reverse.1 hmem)
        have hsub : [d', d].Sublist (before ++ d :: rest) :=
          (List.singleton_sublist.2 hd').append (List.singleton_sublist.2 List.mem_cons_self)
        exact ⟨d', d, hsub, hname, rfl⟩
      · have hrest := ih (before ++ [d]) (by simpa using h)
        simpa using hrest

theorem ambiguity?_eq_none_iff {ss : List Shape} :
    ambiguity? ss = none ↔ ss.Pairwise fun a b => ¬ a.pin.Agrees b.pin := by
  induction ss with
  | nil => simp [ambiguity?]
  | cons s rest ih =>
    rw [ambiguity?, List.pairwise_cons, ← ih]
    simp [Shape.ambiguity?_eq_none_iff]

theorem exists_first_of_ambiguity? {ss : List Shape} {e : Defect} (h : ambiguity? ss = some e) :
    ∃ (i j : Nat) (s t : Shape), i < j ∧ ss[i]? = some s ∧ ss[j]? = some t ∧
      s.ambiguity? t = some e ∧
        ∀ (i' j' : Nat) (s' t' : Shape), i' < j' → ss[i']? = some s' → ss[j']? = some t' →
          s'.pin.Agrees t'.pin → i < i' ∨ i = i' ∧ j ≤ j' := by
  induction ss with
  | nil => cases h
  | cons s rest ih =>
    rw [ambiguity?] at h
    cases hs : rest.findSome? s.ambiguity? with
    | some e' =>
      obtain rfl : e' = e := by simpa [hs] using h
      obtain ⟨before, t, after, rfl, ht, hbefore⟩ := List.findSome?_eq_some_iff.1 hs
      refine ⟨0, before.length + 1, s, t, by omega, rfl, by simp, ht, ?_⟩
      intro i' j' s' t' hlt hs' ht' hagrees
      cases i' with
      | succ i' => exact Or.inl (by omega)
      | zero =>
        obtain ⟨k, rfl⟩ := Nat.exists_eq_succ_of_ne_zero (by omega : j' ≠ 0)
        refine Or.inr ⟨rfl, ?_⟩
        by_contra hk
        -- the entries between the two do not agree with the first
        have hmem : t' ∈ before := by
          have hlt' : k < before.length := by omega
          rw [List.getElem?_cons_succ, List.getElem?_append_left hlt'] at ht'
          exact List.mem_of_getElem? ht'
        obtain rfl : s = s' := by simpa using hs'
        exact Shape.ambiguity?_eq_none_iff.1 (hbefore t' hmem) hagrees
    | none =>
      obtain ⟨i, j, a, b, hlt, ha, hb, hab, hfirst⟩ := ih (by simpa [hs] using h)
      refine ⟨i + 1, j + 1, a, b, by omega, by simpa using ha, by simpa using hb, hab, ?_⟩
      intro i' j' s' t' hlt' hs' ht' hagrees
      obtain ⟨k, rfl⟩ := Nat.exists_eq_succ_of_ne_zero (by omega : j' ≠ 0)
      rw [List.getElem?_cons_succ] at ht'
      cases i' with
      | zero =>
        obtain rfl : s = s' := by simpa using hs'
        have hnone := List.findSome?_eq_none_iff.1 hs t' (List.mem_of_getElem? ht')
        exact (Shape.ambiguity?_eq_none_iff.1 hnone hagrees).elim
      | succ i' =>
        have := hfirst i' k s' t' (by omega) (by simpa using hs') ht' hagrees
        omega

/-- Formats with fixed values within their masks have a common word if and only if they agree. -/
theorem collision_iff {ds : List Definition} (hw : ∀ d ∈ ds, d.label.pin.IsWithin) {i j : Nat} :
    Collision ds i j ↔ i < j ∧ ∃ s t, (ds.map Tree.label)[i]? = some s ∧
      (ds.map Tree.label)[j]? = some t ∧ s.pin.Agrees t.pin := by
  simp only [List.getElem?_map, Option.map_eq_some_iff]
  constructor
  · rintro ⟨hlt, w, ⟨a, ha, haw⟩, b, hb, hbw⟩
    refine ⟨hlt, a.label, b.label, ⟨a, ha, rfl⟩, ⟨b, hb, rfl⟩, ?_⟩
    exact Shape.agrees_of_accepts haw hbw
  · rintro ⟨hlt, _, _, ⟨a, ha, rfl⟩, ⟨b, hb, rfl⟩, hagrees⟩
    obtain ⟨haw, hbw⟩ := Shape.accepts_or (hw a (List.mem_of_getElem? ha))
      (hw b (List.mem_of_getElem? hb)) hagrees
    exact ⟨hlt, _, ⟨a, ha, haw⟩, b, hb, hbw⟩

/-- **What the search answers**: the names of the first collision, and a word that both accept. -/
theorem isFirst_of_ambiguity? {ds : List Definition} {e : Defect}
    (hw : ∀ d ∈ ds, d.label.pin.IsWithin) (h : ambiguity? (ds.map Tree.label) = some e) :
    ∃ i j a b w, Collision.IsFirst ds i j ∧ ds[i]? = some a ∧ ds[j]? = some b ∧
      e = .ambiguousFormats a.label.name b.label.name w ∧
        a.label.accepts w = true ∧ b.label.accepts w = true := by
  obtain ⟨i, j, s, t, hlt, hs, ht, hst, hfirst⟩ := exists_first_of_ambiguity? h
  obtain ⟨hagrees, rfl⟩ := Shape.ambiguity?_eq_some_iff.1 hst
  have hcollision : Collision ds i j := (collision_iff hw).2 ⟨hlt, s, t, hs, ht, hagrees⟩
  simp only [List.getElem?_map, Option.map_eq_some_iff] at hs ht
  obtain ⟨a, ha, rfl⟩ := hs
  obtain ⟨b, hb, rfl⟩ := ht
  obtain ⟨haw, hbw⟩ := Shape.accepts_or (hw a (List.mem_of_getElem? ha))
    (hw b (List.mem_of_getElem? hb)) hagrees
  refine ⟨i, j, a, b, _, ⟨hcollision, fun i' j' h' => ?_⟩, ha, hb, rfl, haw, hbw⟩
  obtain ⟨hlt', s', t', hs', ht', hagrees'⟩ := (collision_iff hw).1 h'
  exact hfirst i' j' s' t' hlt' hs' ht' hagrees'

theorem not_collision_of_ambiguity? {ds : List Definition}
    (h : ambiguity? (ds.map Tree.label) = none) {i j : Nat} : ¬ Collision ds i j := by
  rintro ⟨hlt, w, ⟨a, ha, haw⟩, b, hb, hbw⟩
  obtain ⟨hi, rfl⟩ := List.getElem?_eq_some_iff.1 ha
  obtain ⟨hj, rfl⟩ := List.getElem?_eq_some_iff.1 hb
  have hpairs := List.pairwise_map.1 (ambiguity?_eq_none_iff.1 h)
  refine List.pairwise_iff_getElem.1 hpairs i j hi hj hlt ?_
  exact Shape.agrees_of_accepts haw hbw

theorem pair_sublist {α : Type} {l : List α} {i j : Nat} {a b : α} (hlt : i < j) (ha : l[i]? = some a)
    (hb : l[j]? = some b) : [a, b].Sublist l := by
  induction l generalizing i j with
  | nil => simp at ha
  | cons c l ih =>
    obtain ⟨k, rfl⟩ := Nat.exists_eq_succ_of_ne_zero (by omega : j ≠ 0)
    rw [List.getElem?_cons_succ] at hb
    cases i with
    | zero =>
      obtain rfl : c = a := by simpa using ha
      exact (List.singleton_sublist.2 (List.mem_of_getElem? hb)).cons_cons c
    | succ i => exact (ih (Nat.lt_of_succ_lt_succ hlt) (by simpa using ha) hb).cons c

theorem isPresent_of_ambiguity? {ds : List Definition} {e : Defect}
    (hw : ∀ d ∈ ds, d.label.pin.IsWithin) (h : ambiguity? (ds.map Tree.label) = some e) :
    e.IsPresent ds := by
  obtain ⟨i, j, a, b, w, ⟨hcollision, -⟩, ha, hb, rfl, haw, hbw⟩ := isFirst_of_ambiguity? hw h
  exact ⟨a, b, pair_sublist hcollision.lt ha hb, rfl, rfl, haw, hbw⟩

/-! ### Cases -/

/-- The cases of one discriminant have usable names, and neither a key nor a name occurs twice. -/
structure CasesApart (cases : List (Word × Definition)) : Prop where
  names : ∀ c ∈ cases, Key.IsName c.2.label.name
  keys_nodup : (cases.map (·.1)).Nodup
  names_nodup : (cases.map (·.2.label.name)).Nodup

theorem casesApart_cons {key : Word} {child : Definition} {rest : List (Word × Definition)} :
    CasesApart ((key, child) :: rest) ↔ Key.IsName child.label.name ∧
      CasesApart rest ∧ ∀ c ∈ rest, key ≠ c.1 ∧ child.label.name ≠ c.2.label.name := by
  constructor
  · rintro ⟨hn, hk, hm⟩
    simp only [List.map_cons, List.nodup_cons, List.mem_map, not_exists, not_and] at hk hm
    exact ⟨hn _ List.mem_cons_self, ⟨fun c hc => hn c (List.mem_cons_of_mem _ hc), hk.2, hm.2⟩,
      fun c hc => ⟨fun h => hk.1 c hc h.symm, fun h => hm.1 c hc h.symm⟩⟩
  · rintro ⟨hn, ⟨hrest, hk, hm⟩, hne⟩
    refine ⟨List.forall_mem_cons.2 ⟨hn, hrest⟩, List.nodup_cons.2 ⟨?_, hk⟩,
      List.nodup_cons.2 ⟨?_, hm⟩⟩
    · intro hmem
      obtain ⟨c, hc, heq⟩ := List.mem_map.1 hmem
      exact (hne c hc).1 heq.symm
    · intro hmem
      obtain ⟨c, hc, heq⟩ := List.mem_map.1 hmem
      exact (hne c hc).2 heq.symm

theorem vetCases_eq_ok_iff {owner field : String} {earlier cases : List (Word × Definition)} :
    vetCases owner field earlier cases = .ok () ↔
      CasesApart cases ∧
        ∀ c ∈ cases, ∀ b ∈ earlier, b.1 ≠ c.1 ∧ b.2.label.name ≠ c.2.label.name := by
  induction cases generalizing earlier with
  | nil => simpa [vetCases] using ⟨by simp, by simp, by simp⟩
  | cons head rest ih =>
    obtain ⟨key, child⟩ := head
    rw [casesApart_cons, vetCases, bind_unit_eq_ok_iff]
    simp only [Shape.requireName_eq_ok_iff, List.any_eq_true, decide_eq_true_eq]
    split_ifs with hkey hname
    · obtain ⟨b, hb, heq⟩ := hkey
      simp only [and_false, false_iff]
      rintro ⟨-, hne⟩
      exact (hne _ List.mem_cons_self b hb).1 heq
    · obtain ⟨b, hb, heq⟩ := hname
      simp only [and_false, false_iff]
      rintro ⟨-, hne⟩
      exact (hne _ List.mem_cons_self b hb).2 heq
    · push Not at hkey hname
      rw [ih]
      simp only [List.forall_mem_cons]
      constructor
      · rintro ⟨hn, hrest, hne⟩
        exact ⟨⟨hn, hrest, fun c hc => (hne c hc).1⟩, fun b hb => ⟨hkey b hb, hname b hb⟩,
          fun c hc => (hne c hc).2⟩
      · rintro ⟨⟨hn, hrest, hne⟩, -, hrest'⟩
        exact ⟨hn, hrest, fun c hc => ⟨hne c hc, hrest' c hc⟩⟩

theorem vetCases_eq_error {owner field : String} (before : List (Word × Definition))
    {rest : List (Word × Definition)} {e : Defect} (h : vetCases owner field before.reverse rest = .error e) :
    (∃ c ∈ rest, ¬ Key.IsName c.2.label.name ∧ e = .invalidName c.2.label.name) ∨
      ∃ a b, [a, b].Sublist (before ++ rest) ∧
        (a.1 = b.1 ∧ e = .duplicateDiscriminantKey owner field b.1 ∨
          a.2.label.name = b.2.label.name ∧ e = .duplicateVariant owner field b.2.label.name) := by
  induction rest generalizing before with
  | nil => simp [vetCases] at h
  | cons head rest ih =>
    obtain ⟨key, child⟩ := head
    have hsub : ∀ a ∈ before, [a, (key, child)].Sublist (before ++ (key, child) :: rest) := fun a ha =>
      (List.singleton_sublist.2 ha).append (List.singleton_sublist.2 List.mem_cons_self)
    simp only [vetCases, bind_eq_error_iff, Shape.requireName_eq_error_iff] at h
    rcases h with ⟨hname, rfl⟩ | ⟨_, -, h⟩
    · exact Or.inl ⟨_, List.mem_cons_self, hname, rfl⟩
    · simp only [List.any_eq_true, decide_eq_true_eq, List.mem_reverse] at h
      split_ifs at h with hkey hname
      · obtain ⟨a, ha, heq⟩ := hkey
        exact Or.inr ⟨a, _, hsub a ha, Or.inl ⟨heq, (Except.error.inj h).symm⟩⟩
      · obtain ⟨a, ha, heq⟩ := hname
        exact Or.inr ⟨a, _, hsub a ha, Or.inr ⟨heq, (Except.error.inj h).symm⟩⟩
      · rcases ih (before ++ [(key, child)]) (by simpa using h) with ⟨c, hc, rest⟩ | h
        · exact Or.inl ⟨c, List.mem_cons_of_mem _ hc, rest⟩
        · exact Or.inr (by simpa using h)

/-! ### Chains of discriminants -/

/-- What is asked of a position with a discriminant, `used` being the fields that have selected
above the chain. -/
structure SelectionVetted (used : List String) (c : Chain) (field : String)
    (cases : List (Word × Definition)) : Prop where
  short : used.length + c.path.length < chainLimit
  fresh : field ∉ used ∧ field ∉ c.path.map Choice.field
  apart : CasesApart cases

theorem vetChains_eq_forM (format : String) (used : List String) (cases : List (Word × Definition)) :
    vetChains format used cases = cases.forM fun c => vetChain format used c.2 := by
  induction cases with
  | nil => rfl
  | cons c rest ih =>
    rw [vetChains, ih, List.forM_eq_forM, List.forM_cons]

theorem vetChain_select_eq_ok_iff {format field : String} {used : List String} {s : Shape}
    {cases : List (Word × Definition)} :
    vetChain format used (.select s field cases) = .ok () ↔
      SelectionVetted used ⟨[], .select s field cases⟩ field cases ∧
        ∀ c ∈ cases, vetChain format (field :: used) c.2 = .ok () := by
  rw [vetChain]
  split_ifs with hdeep hused
  · simp only [false_iff]
    rintro ⟨⟨hshort, -, -⟩, -⟩
    simp [Chain.path] at hshort
    omega
  · simp only [false_iff]
    rintro ⟨⟨-, hfresh, -⟩, -⟩
    exact hfresh.1 hused
  · rw [bind_unit_eq_ok_iff, vetCases_eq_ok_iff, vetChains_eq_forM, forM_eq_ok_iff]
    constructor
    · rintro ⟨⟨hapart, -⟩, hbelow⟩
      exact ⟨⟨by simp [Chain.path]; omega, ⟨hused, by simp [Chain.path]⟩, hapart⟩, hbelow⟩
    · rintro ⟨hv, hbelow⟩
      exact ⟨⟨hv.apart, by simp⟩, hbelow⟩

/-- Below a discriminant there is one more field used and one choice fewer to make. -/
theorem selectionVetted_below {used : List String} {c : Chain} {s : Shape} {f field : String}
    {key : Word} {cases : List (Word × Definition)} :
    SelectionVetted used (c.below ⟨s, ⟨f, key⟩⟩) field cases ↔
      SelectionVetted (f :: used) c field cases := by
  have hpath : (c.below ⟨s, ⟨f, key⟩⟩).path = ⟨f, key⟩ :: c.path := rfl
  constructor
  · rintro ⟨hshort, hfresh, hapart⟩
    rw [hpath] at hshort hfresh
    simp only [List.length_cons, List.map_cons, List.mem_cons, not_or] at hshort hfresh
    refine ⟨?_, ⟨?_, hfresh.2.2⟩, hapart⟩
    · simp only [List.length_cons]
      omega
    · simp [hfresh]
  · rintro ⟨hshort, hfresh, hapart⟩
    simp only [List.length_cons, List.mem_cons, not_or] at hshort hfresh
    refine ⟨?_, ⟨hfresh.1.2, ?_⟩, hapart⟩
    · rw [hpath, List.length_cons]
      omega
    · simp [hpath, hfresh]

/-- **The checks of chains look at every position.** -/
theorem vetChain_eq_ok_iff {format : String} {used : List String} {d : Definition} :
    vetChain format used d = .ok () ↔
      ∀ c ∈ Chain.ofDefinition d, ∀ field cases, c.target.selection = some (field, cases) →
        SelectionVetted used c field cases := by
  induction d using Tree.induct generalizing used with
  | leaf s => simp [vetChain, Chain.ofDefinition, Tree.selection]
  | select s f cs ih =>
    rw [vetChain_select_eq_ok_iff]
    constructor
    · rintro ⟨hroot, hbelow⟩ c hc field cases hsel
      rcases Chain.mem_ofDefinition.1 hc with rfl | ⟨s', f', cs', key, child, heq, hmem, c', hc', rfl⟩
      · obtain ⟨rfl, rfl⟩ : f = field ∧ cs = cases := by simpa [Tree.selection] using hsel
        exact hroot
      · obtain ⟨rfl, rfl, rfl⟩ := Tree.select.inj heq
        exact selectionVetted_below.2 ((ih _ hmem).1 (hbelow _ hmem) c' hc' field cases hsel)
    · intro hall
      refine ⟨hall _ (Chain.root_mem _) f cs rfl,
        fun c hc => (ih c hc).2 fun c' hc' field cases hsel => ?_⟩
      have hmem : c'.below ⟨s, ⟨f, c.1⟩⟩ ∈ Chain.ofDefinition (.select s f cs) :=
        Chain.below_mem hc hc'
      exact selectionVetted_below.1 (hall _ hmem field cases hsel)

theorem isPresent_of_vetCases {ds : List Definition} {d : Definition} (hd : d ∈ ds) {c : Chain}
    (hc : c ∈ Chain.ofDefinition d) {s : Shape} {field : String} {cases : List (Word × Definition)}
    (ht : c.target = .select s field cases) {e : Defect}
    (h : vetCases s.name field [] cases = .error e) : e.IsPresent ds := by
  have hmem := Chain.mem_ofDefinitions hd hc
  have hname : c.target.label.name = s.name := by rw [Tree.label_of_select ht]
  have hsel := Tree.selection_of_select ht
  rcases vetCases_eq_error [] h with
    ⟨⟨key, child⟩, hchild, hbad, rfl⟩ | ⟨a, b, hsub, ⟨heq, rfl⟩ | ⟨heq, rfl⟩⟩
  · have hext := Chain.mem_ofDefinitions hd (Chain.extend_mem hc ht hchild)
    exact Defect.isPresent_invalidName hext hbad
  · exact ⟨c, hmem, hname, cases, hsel, a, b, hsub, heq, rfl⟩
  · exact ⟨c, hmem, hname, cases, hsel, a, b, hsub, heq, rfl⟩

theorem isPresent_of_vetChain {ds : List Definition} {d : Definition} (hd : d ∈ ds) {c : Chain}
    (hc : c ∈ Chain.ofDefinition d) {e : Defect}
    (h : vetChain d.label.name (c.path.map Choice.field).reverse c.target = .error e) :
    e.IsPresent ds := by
  -- down the target, along with the position
  generalize ht : c.target = t at h
  induction t using Tree.induct generalizing c with
  | leaf s => simp [vetChain] at h
  | select s field cases ih =>
    have hmem := Chain.mem_ofDefinitions hd hc
    have hname : c.target.label.name = s.name := by rw [Tree.label_of_select ht]
    have hsel := Tree.selection_of_select ht
    rw [vetChain] at h
    split_ifs at h with hdeep hused
    · obtain rfl := Except.error.inj h
      refine ⟨rfl, c, hmem, Chain.head?_names hc, by simp [hsel], ?_⟩
      simp only [List.length_reverse, List.length_map, chainLimit] at hdeep
      omega
    · obtain rfl := Except.error.inj h
      exact ⟨c, hmem, hname, cases, hsel, List.mem_reverse.1 hused⟩
    · rcases bind_eq_error_iff.1 h with hcases | ⟨_, -, hbelow⟩
      · exact isPresent_of_vetCases hd hc ht hcases
      · rw [vetChains_eq_forM] at hbelow
        obtain ⟨⟨key, child⟩, hchild, hbelow⟩ := exists_of_forM_eq_error hbelow
        refine ih _ hchild (Chain.extend_mem hc ht hchild) rfl ?_
        simpa using hbelow

/-! ### All checks -/

/-- **What admission asks of a list of definitions.** -/
structure Vetted (ds : List Definition) : Prop where
  names : ∀ d ∈ ds, Key.IsName d.label.name
  within : ∀ d ∈ ds, d.label.pin.IsWithin
  names_nodup : (ds.map (·.label.name)).Nodup
  disagree : ds.Pairwise fun a b => ¬ a.label.pin.Agrees b.label.pin
  selections : ∀ c ∈ Chain.ofDefinitions ds, ∀ field cases,
    c.target.selection = some (field, cases) → SelectionVetted [] c field cases

theorem vet_eq_ok_iff {ds : List Definition} : vet ds = .ok () ↔ Vetted ds := by
  have hchains : (ds.forM fun d => vetChain d.label.name [] d) = .ok () ↔
      ∀ c ∈ Chain.ofDefinitions ds, ∀ field cases, c.target.selection = some (field, cases) →
        SelectionVetted [] c field cases := by
    simp only [forM_eq_ok_iff, vetChain_eq_ok_iff, Chain.ofDefinitions, List.mem_flatMap]
    constructor
    · rintro h c ⟨d, hd, hc⟩
      exact h d hd c hc
    · intro h d hd c hc
      exact h c ⟨d, hd, hc⟩
  have hpairs : (ds.map Tree.label).Pairwise (fun a b => ¬ a.pin.Agrees b.pin) ↔
      ds.Pairwise fun a b => ¬ a.label.pin.Agrees b.label.pin := List.pairwise_map
  unfold vet
  rw [bind_unit_eq_ok_iff, vetFormats_eq_ok_iff]
  cases hamb : ambiguity? (ds.map Tree.label) with
  | some e =>
    simp only [reduceCtorEq, and_false, false_iff]
    intro hv
    rw [ambiguity?_eq_none_iff.2 (hpairs.2 hv.disagree)] at hamb
    cases hamb
  | none =>
    simp only [hchains, List.forall_mem_map, List.map_map]
    rw [ambiguity?_eq_none_iff, hpairs] at hamb
    constructor
    · rintro ⟨⟨hformats, hnodup, -⟩, hsel⟩
      exact ⟨fun d hd => (hformats d hd).1, fun d hd => (hformats d hd).2, hnodup, hamb, hsel⟩
    · rintro ⟨hnames, hwithin, hnodup, -, hsel⟩
      exact ⟨⟨fun d hd => ⟨hnames d hd, hwithin d hd⟩, hnodup, by simp⟩, hsel⟩

/-- **What admission answers is present.** -/
theorem isPresent_of_vet {ds : List Definition} {e : Defect} (h : vet ds = .error e) :
    e.IsPresent ds := by
  unfold vet at h
  rcases bind_eq_error_iff.1 h with hformats | ⟨_, hformats, h⟩
  · simpa using isPresent_of_vetFormats [] hformats
  · cases hamb : ambiguity? (ds.map Tree.label) with
    | some e' =>
      obtain rfl : e' = e := by simpa [hamb] using h
      refine isPresent_of_ambiguity? (fun d hd => ?_) hamb
      exact ((vetFormats_eq_ok_iff.1 hformats).1 d.label (List.mem_map_of_mem hd)).2
    | none =>
      rw [hamb] at h
      obtain ⟨d, hd, hchain⟩ := exists_of_forM_eq_error h
      exact isPresent_of_vetChain hd (Chain.root_mem d) hchain

end Admission

end ShaderWord
