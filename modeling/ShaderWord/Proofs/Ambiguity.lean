import ShaderWord.Proofs.Accepted
import ShaderWord.Proofs.Rejection

/-!
# Ambiguity is detected exactly

Formats are ambiguous if one word is accepted at two positions of the list. Where the formats by themselves
are in order (`Admission.FormatsVetted`) this alone decides whether a build answers `ambiguousFormats`,
whatever is wrong below the formats, and the answer is the first pair of positions (`Collision.IsFirst`).
What is built accepts a word at one position at most, and a word is of an unknown format if there is none.
-/

namespace ShaderWord

namespace Admission

variable {ds : List Definition}

/-- What is asked of the formats before they are compared with one another. -/
structure FormatsVetted (ds : List Definition) : Prop where
  names : ∀ d ∈ ds, Key.IsName d.label.name
  names_nodup : (ds.map (·.label.name)).Nodup
  within : ∀ d ∈ ds, d.label.pin.IsWithin

theorem FormatsVetted.vetFormats (h : FormatsVetted ds) :
    vetFormats [] (ds.map Tree.label) = .ok () := by
  refine vetFormats_eq_ok_iff.2 ⟨?_, ?_, by simp⟩
  · intro s hs
    obtain ⟨d, hd, rfl⟩ := List.mem_map.1 hs
    exact ⟨h.names d hd, h.within d hd⟩
  · rw [List.map_map]
    exact h.names_nodup

end Admission

/-! ### Words that no format accepts -/

namespace Definition

variable {format : String} {w v : Word} {p : Passed}

/-- A walk that has a format never loses it. -/
theorem walk_ne_unknownFormat (d : Definition) :
    walk format w p d ≠ .error (.unknownFormat v) := by
  induction d using Tree.induct generalizing p with
  | leaf s =>
    simp [walk]
  | select s field cases ih =>
    have hcases : ∀ (q : Passed) (value : Word) (cs : List (Word × Definition)), cs ⊆ cases →
        walkCases format w q field value cs ≠ .error (.unknownFormat v) := by
      intro q value cs hcs
      induction cs with
      | nil => simp [walkCases]
      | cons head rest ihrest =>
        obtain ⟨key, child⟩ := head
        rw [walkCases]
        split_ifs
        · exact ih (key, child) (hcs List.mem_cons_self)
        · simp
        · exact ihrest fun c hc => hcs (List.mem_cons_of_mem _ hc)
    rw [walk]
    cases hfind : (p.enter s).fields.find? (·.name = field) with
    | none => simp
    | some f => exact hcases _ _ cases (List.Subset.refl _)

theorem decode_eq_unknownFormat_iff {ds : List Definition} :
    decode ds w = .error (.unknownFormat v) ↔ v = w ∧ ∀ d ∈ ds, d.label.accepts w = false := by
  unfold decode
  cases hfind : ds.find? (·.label.accepts w) with
  | none =>
    have hnone : ∀ d ∈ ds, d.label.accepts w = false := by
      simpa using List.find?_eq_none.1 hfind
    simp only [Except.error.injEq, DecodeError.unknownFormat.injEq]
    constructor
    · rintro rfl
      exact ⟨rfl, hnone⟩
    · rintro ⟨rfl, -⟩
      rfl
  | some d =>
    constructor
    · exact fun h => absurd h (walk_ne_unknownFormat d)
    · rintro ⟨-, hall⟩
      have haccept : d.label.accepts w = true := by simpa using List.find?_some hfind
      rw [hall d (List.mem_of_find?_eq_some hfind)] at haccept
      cases haccept

end Definition

/-! ### What a build answers -/

namespace Registry

variable {ds : List Definition} {r : Registry} {e : Defect} {w : Word}

theorem build_eq_error_of_ambiguity? (hf : Admission.FormatsVetted ds)
    (h : Admission.ambiguity? (ds.map Tree.label) = some e) : build ds = .error e := by
  have hvet : Admission.vet ds = .error e := by
    unfold Admission.vet
    refine bind_eq_error_iff.2 (Or.inr ⟨(), hf.vetFormats, ?_⟩)
    simp only [h]
  unfold build
  rw [hvet]
  rfl

/-- No other step of a build answers that formats are ambiguous. -/
theorem ambiguity?_of_build (hf : Admission.FormatsVetted ds) {first second : String}
    (h : build ds = .error (.ambiguousFormats first second w)) :
    Admission.ambiguity? (ds.map Tree.label) = some (.ambiguousFormats first second w) := by
  cases hamb : Admission.ambiguity? (ds.map Tree.label) with
  | some e =>
    have he := build_eq_error_of_ambiguity? hf hamb
    rw [h] at he
    rw [Except.error.inj he]
  | none =>
    -- the defect is present, so a pair in the list agrees
    have hpresent : (Defect.ambiguousFormats first second w).IsPresent ds := by
      rcases build_eq_error_iff.1 h with hvet | ⟨-, hplans⟩
      · exact Admission.isPresent_of_vet hvet
      · exact isPresent_of_ofDefinitions hplans
    obtain ⟨a, b, hsub, -, -, haw, hbw⟩ := hpresent
    have hpairs := List.pairwise_map.1 (Admission.ambiguity?_eq_none_iff.1 hamb)
    have hne := (List.pairwise_pair.1 (hpairs.sublist hsub))
    exact absurd (Shape.agrees_of_accepts haw hbw) hne

theorem acceptingCount_le_one (h : build ds = .ok r) (w : Word) : r.acceptingCount w ≤ 1 := by
  obtain ⟨hv, plans, -, rfl⟩ := build_eq_ok_iff.1 h
  change ds.countP (·.label.accepts w) ≤ 1
  have hpairs := hv.disagree
  clear h hv
  induction ds with
  | nil => simp
  | cons d rest ih =>
    obtain ⟨hd, hrest⟩ := List.pairwise_cons.1 hpairs
    rw [List.countP_cons]
    split_ifs with haccept
    · have hnone : rest.countP (·.label.accepts w) = 0 := by
        refine List.countP_eq_zero.2 fun b hb hbw => hd b hb ?_
        exact Shape.agrees_of_accepts haccept hbw
      omega
    · exact ih hrest

theorem acceptingCount_eq_zero_iff (h : build ds = .ok r) :
    r.acceptingCount w = 0 ↔ ∀ d ∈ ds, d.label.accepts w = false := by
  obtain ⟨-, plans, -, rfl⟩ := build_eq_ok_iff.1 h
  change ds.countP (·.label.accepts w) = 0 ↔ _
  rw [List.countP_eq_zero]
  exact forall₂_congr fun d _ => Bool.eq_false_iff.symm

/-- **Ambiguity is detected exactly.** Of formats that are in order by themselves a build answers that two
are ambiguous if and only if a word is accepted at two positions, and it answers the names at the first
two and a word of theirs. So what is built has one format at most for a word, and the word is of an
unknown format where it has none. -/
theorem ambiguousFormats_exact (ds : List Definition) :
    (Admission.FormatsVetted ds →
      ((∃ first second v, build ds = .error (.ambiguousFormats first second v)) ↔
        ∃ i j w, i ≠ j ∧ AcceptsAt ds i w ∧ AcceptsAt ds j w) ∧
      ∀ first second v, build ds = .error (.ambiguousFormats first second v) →
        ∃ i j a b, Collision.IsFirst ds i j ∧ ds[i]? = some a ∧ ds[j]? = some b ∧
          a.label.name = first ∧ b.label.name = second ∧
            a.label.accepts v = true ∧ b.label.accepts v = true) ∧
    ∀ r, build ds = .ok r → ∀ w,
      (r.acceptingCount w = 0 ∨ r.acceptingCount w = 1) ∧
        ∀ v, r.decode w = .error (.unknownFormat v) ↔ v = w ∧ r.acceptingCount w = 0 := by
  refine ⟨fun hf => ?_, fun r hr w => ?_⟩
  · have hanswer : ∀ first second v, build ds = .error (.ambiguousFormats first second v) →
        ∃ i j a b, Collision.IsFirst ds i j ∧ ds[i]? = some a ∧ ds[j]? = some b ∧
          a.label.name = first ∧ b.label.name = second ∧
            a.label.accepts v = true ∧ b.label.accepts v = true := by
      intro first second v h
      obtain ⟨i, j, a, b, w, hfirst, ha, hb, he, haw, hbw⟩ :=
        Admission.isFirst_of_ambiguity? hf.within (ambiguity?_of_build hf h)
      obtain ⟨rfl, rfl, rfl⟩ := Defect.ambiguousFormats.inj he
      exact ⟨i, j, a, b, hfirst, ha, hb, rfl, rfl, haw, hbw⟩
    refine ⟨⟨?_, ?_⟩, hanswer⟩
    · rintro ⟨first, second, v, h⟩
      obtain ⟨i, j, a, b, ⟨⟨hlt, w, hi, hj⟩, -⟩, -⟩ := hanswer first second v h
      exact ⟨i, j, w, by omega, hi, hj⟩
    · rintro ⟨i, j, w, hne, hi, hj⟩
      -- a collision is of an earlier entry with a later one
      obtain ⟨i', j', hcollision⟩ : ∃ i' j', Collision ds i' j' := by
        rcases Nat.lt_or_gt_of_ne hne with hlt | hlt
        · exact ⟨i, j, hlt, w, hi, hj⟩
        · exact ⟨j, i, hlt, w, hj, hi⟩
      cases hamb : Admission.ambiguity? (ds.map Tree.label) with
      | none => exact (Admission.not_collision_of_ambiguity? hamb hcollision).elim
      | some e =>
        obtain ⟨-, -, a, b, v, -, -, -, rfl, -, -⟩ := Admission.isFirst_of_ambiguity? hf.within hamb
        exact ⟨_, _, v, build_eq_error_of_ambiguity? hf hamb⟩
  · refine ⟨Nat.le_one_iff_eq_zero_or_eq_one.1 (acceptingCount_le_one hr w), fun v => ?_⟩
    rw [acceptingCount_eq_zero_iff hr]
    obtain ⟨hv, plans, hplans, rfl⟩ := build_eq_ok_iff.1 hr
    rw [decode_ofPlans hv hplans, Definition.decode_eq_unknownFormat_iff]

end Registry

/-- The second format and the third accept a common word, and so do the first and the last, which selects
on a field that it does not have. -/
def crossing : List Definition :=
  [.leaf ⟨"a", 3, 0, []⟩, .leaf ⟨"b", 3, 1, []⟩, .leaf ⟨"c", 1, 1, []⟩,
    .select ⟨"d", 2, 0, []⟩ "kind" []]

/-- The first format comes before the second, so it is the one that is answered. -/
theorem Registry.ambiguousFormats_exact_crossing :
    Admission.FormatsVetted crossing ∧
      Registry.build crossing = .error (.ambiguousFormats "a" "d" 0) ∧
      (∃ i j w, i ≠ j ∧ AcceptsAt crossing i w ∧ AcceptsAt crossing j w) ∧
      (∃ i j a b, Collision.IsFirst crossing i j ∧ crossing[i]? = some a ∧ crossing[j]? = some b ∧
        a.label.name = "a" ∧ b.label.name = "d" ∧
          a.label.accepts 0 = true ∧ b.label.accepts 0 = true) ∧
      ∃ r, Registry.build [twoCases] = .ok r ∧ r.acceptingCount 0 = 0 ∧
        r.decode 0 = .error (.unknownFormat 0) := by
  have hf : Admission.FormatsVetted crossing :=
    ⟨by decide +kernel, by decide +kernel, by unfold Pin.IsWithin; decide +kernel⟩
  have hbuild : Registry.build crossing = .error (.ambiguousFormats "a" "d" 0) := by rfl
  obtain ⟨hiff, hanswer⟩ := (Registry.ambiguousFormats_exact crossing).1 hf
  obtain ⟨r, hr, hnone⟩ : ∃ r, Registry.build [twoCases] = .ok r ∧ r.acceptingCount 0 = 0 :=
    ⟨_, rfl, rfl⟩
  have hunknown := ((Registry.ambiguousFormats_exact [twoCases]).2 r hr 0).2 0
  exact ⟨hf, hbuild, hiff.1 ⟨_, _, _, hbuild⟩, hanswer _ _ _ hbuild, r, hr, hnone,
    hunknown.2 ⟨rfl, hnone⟩⟩

end ShaderWord
