import ShaderWord.Proofs.Drawings
import ShaderWord.Proofs.Patterns

/-!
# Members in their places

* `Member.lowerEnd upper m` — the lowest bit of `m` if the bits below `upper` are left; `Member.Fits upper m`,
  there is room for it there;
* `Packed upper ms fs` — the fields `fs` are the members `ms`, each below the one before it;
* `Shape.IsPacked s ms` — the fields of `s` are the members `ms`, and `s` accepts the words in which these
  have their patterns.

A member that has a place below the others, and no pattern but a binary one, keeps what is laid out packed
(`Draft.Progress.Packs.add`). Any other is reported (`Draft.Progress.Packs.add_of_misfits`,
`Draft.Progress.Packs.add_of_not_isBinary`).
-/

namespace ShaderWord

/-! ### Members -/

namespace Member

variable {format : String} {upper : Nat} {cursor lowest : UInt32} {m : Member} {e : Defect}

/-- The lowest bit of the member: its own, or as far below `upper` as it is wide. -/
def lowerEnd (upper : Nat) (m : Member) : Nat :=
  match m.offset with
  | some offset => offset.toNat
  | none => upper - m.width.toNat

/-- There is room for the member below `upper`. -/
def Fits (upper : Nat) (m : Member) : Prop := m.lowerEnd upper + m.width.toNat ≤ upper

/-- The defect of a member that has no place below `upper`. -/
inductive Misfits (format : String) (upper : Nat) (m : Member) : Defect → Prop
  | size (h : m.IsMissized) :
      Misfits format upper m (.invalidField format m.name (m.offset.getD 0) m.width)
  | beyond {offset : UInt32} (hsize : ¬ m.IsMissized) (hoffset : m.offset = some offset)
      (h : 64 < offset.toNat + m.width.toNat) :
      Misfits format upper m (.invalidField format m.name offset m.width)
  | overlap {offset : UInt32} (hsize : ¬ m.IsMissized) (hoffset : m.offset = some offset)
      (hword : offset.toNat + m.width.toNat ≤ 64) (h : upper < offset.toNat + m.width.toNat) :
      Misfits format upper m (.memberOverlap format m.name)
  | below (hsize : ¬ m.IsMissized) (hoffset : m.offset = none) (h : upper < m.width.toNat) :
      Misfits format upper m (.invalidField format m.name 0 m.width)

theorem lowerEnd_of_offset (h : m.offset = some lowest) : m.lowerEnd upper = lowest.toNat := by
  rw [lowerEnd, h]

theorem lowerEnd_of_none (h : m.offset = none) : m.lowerEnd upper = upper - m.width.toNat := by
  rw [lowerEnd, h]

theorem exists_lowestBit (format : String) (hc : cursor.toNat ≤ 64) (hsize : ¬ m.IsMissized)
    (hroom : m.Fits cursor.toNat) : ∃ lowest, m.lowestBit format cursor = .ok lowest ∧
      lowest.toNat = m.lowerEnd cursor.toNat := by
  obtain ⟨hpos, hle⟩ := not_isMissized_iff.1 hsize
  unfold Fits at hroom
  cases hoffset : m.offset with
  | some lowest =>
    rw [lowerEnd_of_offset hoffset] at hroom ⊢
    exact ⟨lowest, lowestBit_eq_ok hoffset hpos hroom hc, rfl⟩
  | none =>
    rw [lowerEnd_of_none hoffset] at hroom ⊢
    have hbelow : m.width ≤ cursor := UInt32.le_iff_toNat_le.2 (by omega)
    refine ⟨cursor - m.width, ?_, UInt32.toNat_sub_of_le _ _ hbelow⟩
    rw [lowestBit, if_neg (mt isMissized_iff.1 hsize), hoffset]
    exact if_neg (UInt32.not_lt.2 hbelow)

theorem lowestBit_of_misfits (h : m.Misfits format cursor.toNat e) :
    m.lowestBit format cursor = .error e := by
  cases h with
  | size h => exact if_pos (isMissized_iff.2 h)
  | beyond hsize hoffset h =>
    rw [lowestBit, if_neg (mt isMissized_iff.1 hsize), hoffset]
    exact if_pos h
  | @overlap offset hsize hoffset hword h =>
    have habove : cursor < offset + m.width := by
      rwa [UInt32.lt_iff_toNat_lt, UInt32.toNat_add, Nat.mod_eq_of_lt (by omega)]
    rw [lowestBit, if_neg (mt isMissized_iff.1 hsize), hoffset]
    dsimp only
    rw [if_neg (by omega), if_pos habove]
  | below hsize hoffset h =>
    rw [lowestBit, if_neg (mt isMissized_iff.1 hsize), hoffset]
    exact if_pos (UInt32.lt_iff_toNat_lt.2 h)

theorem exists_misfits (format : String) (h : m.IsMissized ∨ ¬ m.Fits upper) :
    ∃ e, m.Misfits format upper e := by
  by_cases hsize : m.IsMissized
  · exact ⟨_, .size hsize⟩
  have hroom := h.resolve_left hsize
  unfold Fits at hroom
  cases hoffset : m.offset with
  | some offset =>
    rw [lowerEnd_of_offset hoffset] at hroom
    rcases Nat.lt_or_ge 64 (offset.toNat + m.width.toNat) with hbeyond | hword
    · exact ⟨_, .beyond hsize hoffset hbeyond⟩
    · exact ⟨_, .overlap hsize hoffset hword (by omega)⟩
  | none =>
    rw [lowerEnd_of_none hoffset] at hroom
    exact ⟨_, .below hsize hoffset (by omega)⟩

/-- The field is what the member declares, if the bits below `upper` are left. -/
structure PlacedBelow (upper : Nat) (m : Member) (f : Field) : Prop where
  name : f.name = m.name
  width : f.slice.width.toNat = m.width.toNat
  signed : f.slice.signed = m.isSigned
  room : f.slice.offset.toNat + f.slice.width.toNat ≤ upper
  next : m.offset = none → f.slice.offset.toNat + f.slice.width.toNat = upper
  given : ∀ offset, m.offset = some offset → f.slice.offset.toNat = offset.toNat

theorem PlacedBelow.lowerEnd_eq {f : Field} (h : m.PlacedBelow upper f) :
    m.lowerEnd upper = f.slice.offset.toNat := by
  cases hoffset : m.offset with
  | some offset => rw [lowerEnd_of_offset hoffset, h.given offset hoffset]
  | none =>
    have hnext := h.next hoffset
    rw [h.width] at hnext
    rw [lowerEnd_of_none hoffset]
    omega

/-- The digits of the field in the word are those of the member's pattern, if it has one. -/
def Matches (m : Member) (f : Field) (w : Word) : Prop :=
  ∀ pattern, m.pattern = some pattern → Table.patternOf f.slice.width.toNat (f.slice.raw w) = pattern

/-- The pattern, if there is one, has fewer bytes than a number of 32 bits can count. -/
def IsShort (m : Member) : Prop := ∀ pattern ∈ m.pattern, pattern.utf8ByteSize < 2 ^ 32

instance (m : Member) : Decidable m.IsShort :=
  inferInstanceAs (Decidable (∀ pattern ∈ m.pattern, pattern.utf8ByteSize < 2 ^ 32))

theorem matches_of_pattern {f : Field} {w : Word} {pattern : String} (h : m.pattern = some pattern) :
    m.Matches f w ↔ Table.patternOf f.slice.width.toNat (f.slice.raw w) = pattern := by
  simp [Matches, h]

theorem matches_of_none {f : Field} {w : Word} (h : m.pattern = none) : m.Matches f w := by
  intro pattern hpattern
  rw [h] at hpattern
  cases hpattern

end Member

/-! ### Packed fields -/

/-- Each member has its field, below that of the member before it; the first has its field below `upper`. -/
inductive Packed : Nat → List Member → List Field → Prop
  | nil {upper : Nat} : Packed upper [] []
  | cons {upper : Nat} {m : Member} {f : Field} {ms : List Member} {fs : List Field}
      (hm : m.PlacedBelow upper f) (hrest : Packed f.slice.offset.toNat ms fs) :
      Packed upper (m :: ms) (f :: fs)

namespace Packed

variable {upper : Nat} {m : Member} {f : Field} {ms : List Member} {fs : List Field}

theorem length_eq (h : Packed upper ms fs) : ms.length = fs.length := by
  induction h with
  | nil => rfl
  | cons _ _ ih => rw [List.length_cons, List.length_cons, ih]

theorem concat (h : Packed upper ms fs) (hm : m.PlacedBelow (ms.foldl Member.lowerEnd upper) f) :
    Packed upper (ms ++ [m]) (fs ++ [f]) := by
  induction h with
  | nil => exact .cons hm .nil
  | cons hplaced _ ih =>
    rw [List.foldl_cons, hplaced.lowerEnd_eq] at hm
    exact .cons hplaced (ih hm)

end Packed

/-- The bits of the members that have a pattern. -/
def fixedMask (placed : List (Member × Field)) : Word :=
  ((placed.filter (·.1.pattern.isSome)).map (·.2.slice.mask)).foldl (· ||| ·) 0

theorem fixedMask_append_singleton (placed : List (Member × Field)) (m : Member) (f : Field) :
    fixedMask (placed ++ [(m, f)]) =
      fixedMask placed ||| if m.pattern.isSome then f.slice.mask else 0 := by
  cases hpattern : m.pattern with
  | none => simp [fixedMask, List.filter_append, hpattern]
  | some pattern => simp [fixedMask, List.filter_append, List.foldl_append, hpattern]

/-- The shape has the members in their places, and fixes what their patterns say. -/
structure Shape.IsPacked (s : Shape) (ms : List Member) : Prop where
  packed : Packed 64 ms s.fields
  valid : ∀ f ∈ s.fields, f.slice.IsValid
  disjoint : s.fields.Pairwise fun f g => g.slice.LiesBelow f.slice
  mask : s.mask = fixedMask (ms.zip s.fields)
  accepts : ∀ w, s.accepts w = true ↔ ∀ mf ∈ ms.zip s.fields, mf.1.Matches mf.2 w

namespace Draft

/-! ### Progress -/

/-- The lowest bit that the members take, or the end of the word. -/
def lowerEnd (ms : List Member) : Nat := ms.foldl Member.lowerEnd 64

theorem lowerEnd_append_singleton (ms : List Member) (m : Member) :
    lowerEnd (ms ++ [m]) = m.lowerEnd (lowerEnd ms) := by
  simp [lowerEnd]

namespace Progress

variable {format : String} {p q : Progress} {ms : List Member} {m : Member} {lowest : UInt32} {bits : Word}
  {pattern : String} {e : Defect}

/-- What is laid out so far is packed, and accepts the words that have the patterns so far. -/
structure Packs (p : Progress) (ms : List Member) : Prop where
  laid : p.IsLaid
  cursor : p.cursor.toNat = lowerEnd ms
  packed : Packed 64 ms p.fields
  within : p.pin.IsWithin
  mask : p.mask = fixedMask (ms.zip p.fields)
  holds : ∀ w, p.pin.Holds w ↔ ∀ mf ∈ ms.zip p.fields, mf.1.Matches mf.2 w

theorem Packs.start : start.Packs [] where
  laid := .start
  cursor := rfl
  packed := .nil
  within := rfl
  mask := rfl
  holds := by simp [Progress.start, pin, Pin.Holds]

theorem fields_placeFixed : (p.placeFixed m lowest bits).fields = (p.place m lowest).fields := rfl

theorem Packs.zip_place (hp : p.Packs ms) : (ms ++ [m]).zip (p.place m lowest).fields =
    ms.zip p.fields ++ [(m, fieldAt m lowest)] :=
  List.zip_append hp.packed.length_eq

section Placing

variable (hp : p.Packs ms) (h : m.lowestBit format p.cursor = .ok lowest)
  (hlowest : lowest.toNat = m.lowerEnd (lowerEnd ms))
include hp h hlowest

theorem Packs.placedBelow : m.PlacedBelow (lowerEnd ms) (fieldAt m lowest) := by
  obtain ⟨hoffset, hwidth⟩ := slice_fieldAt h hp.laid.cursor_le
  obtain ⟨-, hroom⟩ := Member.fits_of_lowestBit h
  rw [← hp.cursor] at hlowest ⊢
  refine ⟨rfl, hwidth, rfl, by omega, fun hnone => ?_, fun offset hsome => ?_⟩
  · rw [Member.lowerEnd_of_none hnone] at hlowest
    omega
  · rw [hoffset, hlowest, Member.lowerEnd_of_offset hsome]

/-- A member whose bits are open keeps what is laid out packed. -/
theorem Packs.place (hpattern : m.pattern = none) : (p.place m lowest).Packs (ms ++ [m]) where
  laid := hp.laid.add (add_eq_ok_iff.2 ⟨lowest, h, .inl ⟨hpattern, rfl⟩⟩)
  cursor := hlowest.trans (lowerEnd_append_singleton ms m).symm
  packed := hp.packed.concat (hp.placedBelow h hlowest)
  within := hp.within
  mask := by
    have hmask : (p.place m lowest).mask = p.mask := rfl
    rw [hp.zip_place, fixedMask_append_singleton, hpattern, hmask, hp.mask]
    simp
  holds := by
    intro w
    have hpin : (p.place m lowest).pin = p.pin := rfl
    rw [hp.zip_place, List.forall_mem_append, hpin, hp.holds]
    simp [Member.matches_of_none hpattern]

/-- So does a member whose bits are fixed to what its pattern writes. -/
theorem Packs.placeFixed (hpattern : m.pattern = some pattern)
    (hbits : Member.patternBits? m.width pattern = some bits) (hfits : bits >>> m.width.toNat = 0)
    (hwrites : Table.patternOf m.width.toNat bits = pattern) :
    (p.placeFixed m lowest bits).Packs (ms ++ [m]) := by
  obtain ⟨hoffset, hwidth⟩ := slice_fieldAt h hp.laid.cursor_le
  have hpin : (p.placeFixed m lowest bits).pin = Pin.join [p.pin, (fieldAt m lowest).pin bits] := by
    simp [pin, Progress.placeFixed, Progress.place, Pin.join, Field.pin, hoffset]
  rw [← hwidth] at hfits hwrites
  have hwithin : ∀ q ∈ [p.pin, (fieldAt m lowest).pin bits], q.IsWithin := by
    simp [hp.within, Field.isWithin_pin hfits]
  have hagrees : p.pin.Agrees ((fieldAt m lowest).pin bits) :=
    (Pin.agrees_of_disjoint (hp.laid.mask_disjoint h)).symm
  refine ⟨?_, hlowest.trans (lowerEnd_append_singleton ms m).symm,
    hp.packed.concat (hp.placedBelow h hlowest), ?_, ?_, fun w => ?_⟩
  · exact hp.laid.add (add_eq_ok_iff.2 ⟨lowest, h, .inr ⟨pattern, bits, hpattern, hbits, rfl⟩⟩)
  · rw [hpin]
    exact Pin.isWithin_join hwithin
  · have hmask : (p.placeFixed m lowest bits).mask = p.mask ||| (fieldAt m lowest).slice.mask := rfl
    rw [fields_placeFixed, hp.zip_place, fixedMask_append_singleton, hpattern, hmask, hp.mask]
    simp
  · -- the pin of the field holds where the field shows the pattern
    have hfield : ((fieldAt m lowest).pin bits).Holds w ↔ m.Matches (fieldAt m lowest) w := by
      rw [Field.holds_pin_iff (hp.laid.isValid h) hfits, Member.matches_of_pattern hpattern, ← hwrites,
        patternOf_eq_iff (Slice.fits_raw _ w) hfits]
    rw [fields_placeFixed, hp.zip_place, List.forall_mem_append, ← hp.holds, hpin,
      Pin.holds_join_iff hwithin (by simp [Pin.agrees_refl, hagrees, hagrees.symm])]
    simp [hfield]

end Placing

/-- **A member that has a place and no pattern but a binary one is added**, and keeps what is laid out
packed. -/
theorem Packs.add (hp : p.Packs ms) (format : String) (hsize : ¬ m.IsMissized)
    (hroom : m.Fits (lowerEnd ms)) (hbinary : ∀ pattern ∈ m.pattern, IsBinary m.width.toNat pattern) :
    ∃ q, p.add format m = .ok q ∧ q.Packs (ms ++ [m]) := by
  rw [← hp.cursor] at hroom
  obtain ⟨lowest, h, hlowest⟩ := Member.exists_lowestBit format hp.laid.cursor_le hsize hroom
  rw [hp.cursor] at hlowest
  cases hpattern : m.pattern with
  | none => exact ⟨_, add_eq_ok_iff.2 ⟨lowest, h, .inl ⟨hpattern, rfl⟩⟩, hp.place h hlowest hpattern⟩
  | some pattern =>
    obtain ⟨bits, hbits, hfits, hwrites⟩ :=
      exists_patternBits? (hbinary pattern hpattern) (Member.not_isMissized_iff.1 hsize).2
    exact ⟨_, add_eq_ok_iff.2 ⟨lowest, h, .inr ⟨pattern, bits, hpattern, hbits, rfl⟩⟩,
      hp.placeFixed h hlowest hpattern hbits hfits hwrites⟩

theorem Packs.add_of_misfits (hp : p.Packs ms) (h : m.Misfits format (lowerEnd ms) e) :
    p.add format m = .error e := by
  rw [← hp.cursor] at h
  rw [Progress.add, Member.lowestBit_of_misfits h]
  rfl

theorem Packs.add_of_not_isBinary (hp : p.Packs ms) (hshort : m.IsShort) (hsize : ¬ m.IsMissized)
    (hroom : m.Fits (lowerEnd ms)) (hpattern : m.pattern = some pattern)
    (h : ¬ IsBinary m.width.toNat pattern) :
    p.add format m = .error (.badPattern format m.name pattern) := by
  rw [← hp.cursor] at hroom
  obtain ⟨lowest, hlowest, -⟩ := Member.exists_lowestBit format hp.laid.cursor_le hsize hroom
  have hbits : Member.patternBits? m.width pattern = none := by
    refine Option.eq_none_iff_forall_ne_some.2 fun bits hbits => h ?_
    exact isBinary_of_patternBits? (hshort pattern hpattern) hbits
  rw [Progress.add, hlowest, hpattern]
  simp only [bind, Except.bind, hbits]

theorem Packs.add_of_eq_ok (hp : p.Packs ms) (hshort : m.IsShort) (h : p.add format m = .ok q) :
    q.Packs (ms ++ [m]) := by
  have hplace : ¬ (m.IsMissized ∨ ¬ m.Fits (lowerEnd ms)) := by
    intro hno
    obtain ⟨e, he⟩ := Member.exists_misfits format hno
    rw [hp.add_of_misfits he] at h
    cases h
  obtain ⟨hsize, hroom⟩ := not_or.1 hplace
  have hbinary : ∀ pattern ∈ m.pattern, IsBinary m.width.toNat pattern := by
    intro pattern hpattern
    by_contra hno
    rw [hp.add_of_not_isBinary hshort hsize (not_not.1 hroom) hpattern hno] at h
    cases h
  obtain ⟨q', hq', hpacks⟩ := hp.add format hsize (not_not.1 hroom) hbinary
  obtain rfl : q' = q := Except.ok.inj (hq'.symm.trans h)
  exact hpacks

theorem Packs.select (hp : p.Packs ms) (selection : Option (String × List (Word × Definition))) :
    { p with selection := selection }.Packs ms :=
  ⟨⟨hp.laid.cursor_le, hp.laid.above, hp.laid.laid⟩, hp.cursor, hp.packed, hp.within, hp.mask, hp.holds⟩

theorem label_toDefinition (name : String) (p : Progress) :
    (p.toDefinition name).label = ⟨name, p.mask, p.value, p.fields⟩ := by
  unfold toDefinition
  cases p.selection with
  | none => rfl
  | some selection => rfl

theorem Packs.isPacked_toDefinition (hp : p.Packs ms) (name : String) :
    (p.toDefinition name).label.IsPacked ms := by
  rw [label_toDefinition]
  exact ⟨hp.packed, hp.laid.laid.valid, hp.laid.laid.descend, hp.mask,
    fun w => Shape.accepts_iff.trans (hp.holds w)⟩

end Progress

end Draft

end ShaderWord
