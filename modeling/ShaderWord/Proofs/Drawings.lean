import Mathlib.Data.List.Pairwise
import ShaderWord.Draft
import ShaderWord.Proofs.Admission

/-!
# Layouts that are drawn up

* `Draft.IsDrawnWith M d` — the layout `d` has been drawn up in steps, as have the layouts of its cases, and all
  members of these steps are as `M` says;
* `Shape.IsLaid s` — the fields of `s` lie below one another, each is fixed as a whole or not at all, and
  there are no fixed bits but theirs.

What members keep, and selections, is found down to the last case of what is drawn up
(`Draft.IsDrawnWith.each`). So what is drawn up is laid (`Draft.IsDrawnWith.each_isLaid`): a member leaves what is
laid out so (`Draft.Progress.IsLaid.add`), and a selection changes nothing of it.
-/

namespace ShaderWord

/-! ### Laid shapes -/

/-- The slice has its bits below those of `t`. -/
def Slice.LiesBelow (s t : Slice) : Prop := s.offset.toNat + s.width.toNat ≤ t.offset.toNat

theorem Slice.mask_inter_of_liesBelow {s t : Slice} (h : s.LiesBelow t) : s.mask &&& t.mask = 0 := by
  refine inter_eq_zero_iff.2 fun i hs => ?_
  unfold LiesBelow at h
  rw [getLsbD_mask] at hs ⊢
  simp only [Bool.and_eq_true, decide_eq_true_eq] at hs
  simp only [Bool.and_eq_false_iff, decide_eq_false_iff_not]
  omega

/-- Of valid slices without a common bit one lies below the other. -/
theorem Slice.liesBelow_or_liesBelow {s t : Slice} (hs : s.IsValid) (ht : t.IsValid)
    (h : s.mask &&& t.mask = 0) : s.LiesBelow t ∨ t.LiesBelow s := by
  by_contra hmeet
  unfold LiesBelow IsValid at *
  -- otherwise both have the lowest bit of the one that starts higher up
  have hfree := inter_eq_zero_iff.1 h (max s.offset.toNat t.offset.toNat)
  rw [getLsbD_mask, getLsbD_mask] at hfree
  simp only [Bool.and_eq_true, decide_eq_true_eq, Bool.and_eq_false_iff, decide_eq_false_iff_not] at hfree
  omega

/-- Fields below one another, which are fixed by `mask` as a whole or not at all. Nothing is said of the
value: a pattern with more bits than its member has may put some of them above it. -/
structure IsLaid (mask : Word) (fields : List Field) : Prop where
  valid : ∀ f ∈ fields, f.slice.IsValid
  descend : fields.Pairwise fun f g => g.slice.LiesBelow f.slice
  whole : ∀ f ∈ fields, f.slice.mask &&& mask = f.slice.mask ∨ f.slice.mask &&& mask = 0
  covered : ∀ i, mask.getLsbD i = true → ∃ f ∈ fields, f.slice.mask.getLsbD i = true

/-- The shape is one that a layout can have. -/
def Shape.IsLaid (s : Shape) : Prop := ShaderWord.IsLaid s.mask s.fields

/-- The property holds of every label. -/
inductive Tree.Each {α : Type} (P : α → Prop) : Tree α → Prop
  | leaf {a : α} (h : P a) : Each P (.leaf a)
  | select {a : α} {field : String} {cases : List (Word × Tree α)} (h : P a)
      (hcases : ∀ c ∈ cases, Each P c.2) : Each P (.select a field cases)

theorem Tree.each_of_targets {P : Shape → Prop} {d : Definition}
    (h : ∀ c ∈ Chain.ofDefinition d, P c.target.label) : d.Each P := by
  induction d using Tree.induct with
  | leaf s => exact .leaf (h _ (Chain.root_mem _))
  | select s field cases ih =>
    refine .select (h _ (Chain.root_mem _)) fun c hc => ih c hc fun b hb => ?_
    exact h (b.below ⟨s, ⟨field, c.1⟩⟩) (Chain.below_mem hc hb)

theorem Tree.Each.and {α : Type} {P Q : α → Prop} {t : Tree α} (hp : t.Each P) (hq : t.Each Q) :
    t.Each fun a => P a ∧ Q a := by
  induction hp with
  | leaf hs =>
    cases hq with
    | leaf hs' => exact .leaf ⟨hs, hs'⟩
  | select hs _ ih =>
    cases hq with
    | select hs' hcases' => exact .select ⟨hs, hs'⟩ fun c hc => ih c hc (hcases' c hc)

/-! ### Members -/

namespace Member

variable {format : String} {cursor lowest : UInt32} {m : Member}

/-- The member has no bits, or more than a word. -/
def IsMissized (m : Member) : Prop := m.width.toNat = 0 ∨ 64 < m.width.toNat

theorem isMissized_iff : m.width = 0 ∨ 64 < m.width ↔ m.IsMissized := by
  rw [IsMissized, UInt32.lt_iff_toNat_lt, ← UInt32.toNat_inj]
  rfl

theorem not_isMissized_iff : ¬ m.IsMissized ↔ 1 ≤ m.width.toNat ∧ m.width.toNat ≤ 64 := by
  unfold IsMissized
  omega

theorem fits_of_lowestBit (h : m.lowestBit format cursor = .ok lowest) :
    1 ≤ m.width.toNat ∧ lowest.toNat + m.width.toNat ≤ cursor.toNat := by
  unfold lowestBit at h
  by_cases hwidth : m.width = 0 ∨ 64 < m.width
  · rw [if_pos hwidth] at h
    cases h
  rw [if_neg hwidth] at h
  obtain ⟨hpos, hle⟩ := not_isMissized_iff.1 (mt isMissized_iff.2 hwidth)
  refine ⟨hpos, ?_⟩
  cases hoffset : m.offset with
  | none =>
    rw [hoffset] at h
    dsimp only at h
    by_cases hroom : cursor < m.width
    · rw [if_pos hroom] at h
      cases h
    · rw [if_neg hroom] at h
      obtain rfl := Except.ok.inj h
      rw [UInt32.lt_iff_toNat_lt, Nat.not_lt] at hroom
      rw [UInt32.toNat_sub_of_le _ _ (UInt32.le_iff_toNat_le.2 hroom)]
      omega
  | some offset =>
    rw [hoffset] at h
    dsimp only at h
    by_cases hword : 64 < offset.toNat + m.width.toNat
    · rw [if_pos hword] at h
      cases h
    rw [if_neg hword] at h
    by_cases hroom : cursor < offset + m.width
    · rw [if_pos hroom] at h
      cases h
    · rw [if_neg hroom] at h
      obtain rfl := Except.ok.inj h
      -- the member ends within the word, so its end does not wrap
      rw [UInt32.lt_iff_toNat_lt, Nat.not_lt, UInt32.toNat_add, Nat.mod_eq_of_lt (by omega)] at hroom
      exact hroom

theorem lowestBit_eq_ok (hoffset : m.offset = some lowest) (hpos : 1 ≤ m.width.toNat)
    (hroom : lowest.toNat + m.width.toNat ≤ cursor.toNat) (hc : cursor.toNat ≤ 64) :
    m.lowestBit format cursor = .ok lowest := by
  have hwidth : ¬ (m.width = 0 ∨ 64 < m.width) :=
    mt isMissized_iff.1 (not_isMissized_iff.2 ⟨hpos, by omega⟩)
  have hbelow : ¬ cursor < lowest + m.width := by
    rw [UInt32.lt_iff_toNat_lt, UInt32.toNat_add, Nat.mod_eq_of_lt (by omega)]
    omega
  rw [lowestBit, if_neg hwidth, hoffset]
  dsimp only
  rw [if_neg (by omega), if_neg hbelow]

end Member

/-! ### Progress -/

namespace Draft.Progress

variable {format : String} {p q : Progress} {m : Member} {lowest : UInt32}

/-- The bits that are fixed so far. -/
def pin (p : Progress) : Pin := ⟨p.mask, p.value⟩

/-- The member as a field, with `lowest` as its lowest bit. -/
def fieldAt (m : Member) (lowest : UInt32) : Field :=
  ⟨m.name, ⟨lowest.toUInt8, m.width.toUInt8, m.isSigned⟩⟩

/-- The progress with a member whose bits are open. -/
def place (p : Progress) (m : Member) (lowest : UInt32) : Progress :=
  { p with cursor := lowest, fields := p.fields ++ [fieldAt m lowest] }

/-- The progress with a member whose bits are fixed. -/
def placeFixed (p : Progress) (m : Member) (lowest : UInt32) (bits : Word) : Progress :=
  { p.place m lowest with
    mask := p.mask ||| (fieldAt m lowest).slice.mask
    value := p.value ||| bits <<< lowest.toNat }

/-- **What a member adds**: a field in the room that there is, and its pattern if it has one. -/
theorem add_eq_ok_iff : p.add format m = .ok q ↔ ∃ lowest, m.lowestBit format p.cursor = .ok lowest ∧
    ((m.pattern = none ∧ q = p.place m lowest) ∨
      ∃ pattern bits, m.pattern = some pattern ∧ Member.patternBits? m.width pattern = some bits ∧
        q = p.placeFixed m lowest bits) := by
  unfold add
  rw [bind_eq_ok_iff]
  refine exists_congr fun lowest => and_congr_right fun _ => ?_
  constructor
  · intro h
    split at h
    · rename_i hpattern
      exact .inl ⟨hpattern, (Except.ok.inj h).symm⟩
    · rename_i pattern hpattern
      split at h
      · cases h
      · rename_i bits hbits
        exact .inr ⟨pattern, bits, hpattern, hbits, (Except.ok.inj h).symm⟩
  · rintro (⟨hpattern, rfl⟩ | ⟨pattern, bits, hpattern, hbits, rfl⟩)
    · simp only [hpattern]
      rfl
    · simp only [hpattern, hbits]
      rfl

theorem selection_of_add (h : p.add format m = .ok q) : q.selection = p.selection := by
  obtain ⟨lowest, -, ⟨-, rfl⟩ | ⟨_, _, -, -, rfl⟩⟩ := add_eq_ok_iff.1 h <;> rfl

/-- What is laid out so far: the fields lie below one another, and above the cursor. -/
structure IsLaid (p : Progress) : Prop where
  cursor_le : p.cursor.toNat ≤ 64
  above : ∀ f ∈ p.fields, p.cursor.toNat ≤ f.slice.offset.toNat
  laid : ShaderWord.IsLaid p.mask p.fields

theorem IsLaid.start : start.IsLaid where
  cursor_le := Nat.le_refl 64
  above := by simp [Progress.start]
  laid := ⟨by simp [Progress.start], by simp [Progress.start], by simp [Progress.start],
    by simp [Progress.start]⟩

theorem slice_fieldAt (h : m.lowestBit format p.cursor = .ok lowest) (hc : p.cursor.toNat ≤ 64) :
    (fieldAt m lowest).slice.offset.toNat = lowest.toNat ∧
      (fieldAt m lowest).slice.width.toNat = m.width.toNat := by
  obtain ⟨-, hroom⟩ := Member.fits_of_lowestBit h
  simp only [fieldAt, UInt32.toNat_toUInt8]
  omega

section Placing

variable (hp : p.IsLaid) (h : m.lowestBit format p.cursor = .ok lowest)
include hp h

theorem IsLaid.liesBelow : ∀ f ∈ p.fields, (fieldAt m lowest).slice.LiesBelow f.slice := by
  intro f hf
  obtain ⟨hoffset, hwidth⟩ := slice_fieldAt h hp.cursor_le
  obtain ⟨-, hroom⟩ := Member.fits_of_lowestBit h
  have habove := hp.above f hf
  unfold Slice.LiesBelow
  omega

theorem IsLaid.isValid : (fieldAt m lowest).slice.IsValid := by
  obtain ⟨hoffset, hwidth⟩ := slice_fieldAt h hp.cursor_le
  obtain ⟨hpos, hroom⟩ := Member.fits_of_lowestBit h
  have hcursor := hp.cursor_le
  exact ⟨by omega, by omega⟩

theorem IsLaid.mask_disjoint : (fieldAt m lowest).slice.mask &&& p.mask = 0 := by
  refine inter_eq_zero_iff.2 fun i hi => Bool.eq_false_iff.2 fun hmask => ?_
  obtain ⟨f, hf, hfi⟩ := hp.laid.covered i hmask
  have hfree := inter_eq_zero_iff.1 (Slice.mask_inter_of_liesBelow (hp.liesBelow h f hf)) i hi
  rw [hfree] at hfi
  cases hfi

/-- What is laid out stays so with a field more, whose bits `fixed` are all or none. -/
theorem IsLaid.grow {fixed : Word} (hfixed : fixed = 0 ∨ fixed = (fieldAt m lowest).slice.mask) :
    ShaderWord.IsLaid (p.mask ||| fixed) (p.fields ++ [fieldAt m lowest]) where
  valid := by
    rw [List.forall_mem_append]
    exact ⟨hp.laid.valid, by simpa using hp.isValid h⟩
  descend := by
    rw [List.pairwise_append]
    exact ⟨hp.laid.descend, by simp, by simpa using hp.liesBelow h⟩
  whole := by
    rw [List.forall_mem_append]
    constructor
    · intro f hf
      -- of an old field no bit is fixed that was not
      have hfree : f.slice.mask &&& fixed = 0 := by
        rcases hfixed with rfl | rfl
        · exact BitVec.and_zero
        · rw [BitVec.and_comm]
          exact Slice.mask_inter_of_liesBelow (hp.liesBelow h f hf)
      simpa [BitVec.and_or_distrib_left, hfree] using hp.laid.whole f hf
    · intro f hf
      obtain rfl : f = fieldAt m lowest := by simpa using hf
      rw [BitVec.and_or_distrib_left, hp.mask_disjoint h]
      rcases hfixed with rfl | rfl
      · right
        simp
      · left
        simp
  covered := by
    intro i hi
    rw [BitVec.getLsbD_or, Bool.or_eq_true] at hi
    rcases hi with hi | hi
    · obtain ⟨f, hf, hfi⟩ := hp.laid.covered i hi
      exact ⟨f, List.mem_append_left _ hf, hfi⟩
    · refine ⟨fieldAt m lowest, by simp, ?_⟩
      rcases hfixed with rfl | rfl
      · simp at hi
      · exact hi

end Placing

/-- A member leaves what is laid out so. -/
theorem IsLaid.add (hp : p.IsLaid) (h : p.add format m = .ok q) : q.IsLaid := by
  obtain ⟨lowest, hlowest, hq⟩ := add_eq_ok_iff.1 h
  have hcursor : lowest.toNat ≤ 64 := by
    have hroom := (Member.fits_of_lowestBit hlowest).2
    have := hp.cursor_le
    omega
  have habove : ∀ f ∈ p.fields ++ [fieldAt m lowest], lowest.toNat ≤ f.slice.offset.toNat := by
    rw [List.forall_mem_append]
    constructor
    · intro f hf
      have hroom := (Member.fits_of_lowestBit hlowest).2
      have := hp.above f hf
      omega
    · intro f hf
      obtain rfl : f = fieldAt m lowest := by simpa using hf
      exact Nat.le_of_eq (slice_fieldAt hlowest hp.cursor_le).1.symm
  rcases hq with ⟨-, rfl⟩ | ⟨pattern, bits, -, -, rfl⟩
  · have hgrow : ShaderWord.IsLaid p.mask (p.fields ++ [fieldAt m lowest]) := by
      simpa using hp.grow hlowest (.inl rfl)
    exact ⟨hcursor, habove, hgrow⟩
  · exact ⟨hcursor, habove, hp.grow hlowest (.inr rfl)⟩

end Draft.Progress

/-! ### Drafts -/

namespace Draft

/-- A layout that has been drawn up in steps with members of one kind, as have the layouts of its cases. -/
inductive IsDrawnWith (M : Member → Prop) : Draft → Prop
  | new (name : String) : IsDrawnWith M (.new name)
  | member {d : Draft} (hd : IsDrawnWith M d) {m : Member} (hm : M m) : IsDrawnWith M (d.member m)
  | select {d : Draft} (hd : IsDrawnWith M d) (field : String) {cases : List (Word × Draft)}
      (hcases : ∀ c ∈ cases, IsDrawnWith M c.2) : IsDrawnWith M (d.select field cases)

/-- What an empty layout has, and what members of one kind keep, and selections. -/
structure Progress.IsInvariant (M : Member → Prop) (I : Progress → Prop) : Prop where
  start : I start
  add : ∀ {format : String} {p q : Progress} {m : Member}, M m → I p → p.add format m = .ok q → I q
  select : ∀ {p : Progress} (selection : Option (String × List (Word × Definition))), I p →
    I { p with selection := selection }

variable {d : Draft} {p : Progress} {definition : Definition}

/-- One case as a definition, or its first mistake. -/
def buildCase (c : Word × Draft) : Except Defect (Word × Definition) := do
  let child ← c.2.build
  return (c.1, child)

theorem buildCases_eq_mapM (cases : List (Word × Draft)) : buildCases cases = cases.mapM buildCase := by
  induction cases with
  | nil => rfl
  | cons c rest ih =>
    rw [buildCases, ih, List.mapM_cons, buildCase]
    simp only [bind_assoc, pure_bind]

theorem exists_of_mem_buildCases {cases : List (Word × Draft)} {children : List (Word × Definition)}
    (h : buildCases cases = .ok children) {c : Word × Definition} (hc : c ∈ children) :
    ∃ b ∈ cases, b.2.build = .ok c.2 := by
  rw [buildCases_eq_mapM, mapM_eq_ok_iff] at h
  obtain ⟨b, hb, hbc⟩ := exists_of_forall₂_right h hc
  obtain ⟨child, hchild, hc⟩ := bind_eq_ok_iff.1 hbc
  obtain rfl := Except.ok.inj hc
  exact ⟨b, hb, hchild⟩

/-- The progress is as `I` says, and the labels of its cases are as `P` says. -/
def Progress.Holds (I : Progress → Prop) (P : Shape → Prop) (p : Progress) : Prop :=
  I p ∧ ∀ field cases, p.selection = some (field, cases) → ∀ c ∈ cases, c.2.Each P

section Invariants

variable {M : Member → Prop} {I : Progress → Prop} {P : Shape → Prop}

theorem Progress.Holds.each_toDefinition (hP : ∀ p name, I p → P ⟨name, p.mask, p.value, p.fields⟩)
    (h : p.Holds I P) (name : String) : (p.toDefinition name).Each P := by
  obtain ⟨hI, hcases⟩ := h
  unfold toDefinition
  cases hsel : p.selection with
  | none => exact .leaf (hP p name hI)
  | some selection => exact .select (hP p name hI) (hcases _ _ hsel)

theorem exists_of_build (h : d.build = .ok definition) :
    ∃ p, d.state = .ok p ∧ p.toDefinition d.name = definition := by
  unfold build at h
  cases hstate : d.state with
  | error e =>
    rw [hstate] at h
    cases h
  | ok p =>
    rw [hstate] at h
    exact ⟨p, rfl, Except.ok.inj h⟩

/-- What members of a kind keep, and selections, a layout that is drawn up with such members has. -/
theorem IsDrawnWith.holds (hI : Progress.IsInvariant M I)
    (hP : ∀ p name, I p → P ⟨name, p.mask, p.value, p.fields⟩) (h : d.IsDrawnWith M) :
    ∀ p, d.state = .ok p → p.Holds I P := by
  induction h with
  | new name =>
    rintro p ⟨⟩
    exact ⟨hI.start, fun _ _ hsel => nomatch hsel⟩
  | @member d _ m hm ih =>
    intro q hq
    obtain ⟨p, hp, hadd⟩ := bind_eq_ok_iff.1 hq
    obtain ⟨hhere, hcases⟩ := ih p hp
    exact ⟨hI.add hm hhere hadd, by rwa [Progress.selection_of_add hadd]⟩
  | @select d _ field cases _ ih ihcases =>
    intro q hq
    obtain ⟨p, hp, hq⟩ := bind_eq_ok_iff.1 hq
    obtain ⟨hhere, -⟩ := ih p hp
    cases hchildren : buildCases cases with
    | error e =>
      rw [hchildren] at hq
      cases hq
    | ok children =>
      rw [hchildren] at hq
      obtain rfl := Except.ok.inj hq
      -- an earlier selection is gone, and the new cases are all drawn
      refine ⟨hI.select _ hhere, ?_⟩
      rintro _ _ ⟨⟩ c hc
      obtain ⟨b, hb, hbuild⟩ := exists_of_mem_buildCases hchildren hc
      obtain ⟨p', hp', hdefinition⟩ := exists_of_build hbuild
      rw [← hdefinition]
      exact (ihcases b hb p' hp').each_toDefinition hP _

theorem IsDrawnWith.each (hI : Progress.IsInvariant M I)
    (hP : ∀ p name, I p → P ⟨name, p.mask, p.value, p.fields⟩) (h : d.IsDrawnWith M)
    (hbuild : d.build = .ok definition) : definition.Each P := by
  obtain ⟨p, hp, rfl⟩ := exists_of_build hbuild
  exact (h.holds hI hP p hp).each_toDefinition hP _

theorem Progress.isInvariant_isLaid : IsInvariant M IsLaid where
  start := .start
  add := fun _ hp h => hp.add h
  select := fun _ hp => ⟨hp.cursor_le, hp.above, hp.laid⟩

/-- **What is drawn up is laid**, down to the last case. -/
theorem IsDrawnWith.each_isLaid (h : d.IsDrawnWith M) (hbuild : d.build = .ok definition) :
    definition.Each Shape.IsLaid :=
  h.each Progress.isInvariant_isLaid (fun _ _ hp => hp.laid) hbuild

end Invariants

end Draft

end ShaderWord
