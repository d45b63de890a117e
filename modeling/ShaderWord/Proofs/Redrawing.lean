import ShaderWord.Proofs.Drawings
import ShaderWord.Proofs.Patterns

/-!
# Drawing a layout again

A shape that is laid, and whose value is within its mask, is drawn up again from its fields, each at the place
that it has and with the pattern that it is fixed to (`Draft.exists_ofMembers_memberOf`).

What the members fix one after the other is put together as pins are, and the fields of a laid shape are fixed
to all that the shape fixes (`Shape.IsLaid.join_fixedPins`).
-/

namespace ShaderWord

/-! ### Drawing a shape again -/

namespace Shape

variable {s : Shape} {f : Field} {fs : List Field}

/-- The shape fixes all bits of the field. -/
def Fixes (s : Shape) (f : Field) : Prop := f.slice.mask &&& s.mask = f.slice.mask

instance (s : Shape) (f : Field) : Decidable (s.Fixes f) := inferInstanceAs (Decidable (_ = _))

/-- The bits that a field is fixed to. -/
def pattern? (s : Shape) (f : Field) : Option String :=
  if s.Fixes f then some (Table.patternOf f.slice.width.toNat (f.slice.raw s.value)) else none

/-- The field as a member in its place. -/
def memberOf (s : Shape) (f : Field) : Member :=
  ⟨f.name, some f.slice.offset.toUInt32, f.slice.width.toUInt32, f.slice.signed, s.pattern? f⟩

/-- What the shape fixes the fields to. -/
def fixedPins (s : Shape) (fs : List Field) : List Pin :=
  (fs.filter fun f => s.Fixes f).map fun f => f.pin (f.slice.raw s.value)

theorem fixedPins_append (s : Shape) (fs gs : List Field) :
    s.fixedPins (fs ++ gs) = s.fixedPins fs ++ s.fixedPins gs := by
  simp [fixedPins]

theorem mem_fixedPins {p : Pin} :
    p ∈ s.fixedPins fs ↔ ∃ f ∈ fs, s.Fixes f ∧ f.pin (f.slice.raw s.value) = p := by
  simp [fixedPins, and_assoc]

theorem value_pin_raw (hv : f.slice.IsValid) (w : Word) :
    (f.pin (f.slice.raw w)).value = w &&& f.slice.mask :=
  ((Field.holds_pin_iff hv (f.slice.fits_raw w)).2 rfl).symm

theorem IsLaid.getLsbD_mask_iff (h : s.IsLaid) {i : Nat} : s.mask.getLsbD i = true ↔
    ∃ f ∈ s.fields, s.Fixes f ∧ f.slice.mask.getLsbD i = true := by
  constructor
  · intro hi
    obtain ⟨f, hf, hfi⟩ := h.covered i hi
    rcases h.whole f hf with hfixed | hfree
    · exact ⟨f, hf, hfixed, hfi⟩
    · rw [inter_eq_zero_iff.1 hfree i hfi] at hi
      cases hi
  · rintro ⟨f, -, hfixed, hfi⟩
    exact inter_eq_left_iff.1 hfixed i hfi

theorem IsLaid.mask_join_fixedPins (h : s.IsLaid) : (Pin.join (s.fixedPins s.fields)).mask = s.mask := by
  refine BitVec.eq_of_getLsbD_eq fun i _ => Bool.eq_iff_iff.2 ?_
  rw [Pin.getLsbD_mask_join, h.getLsbD_mask_iff]
  constructor
  · rintro ⟨p, hp, hpi⟩
    obtain ⟨f, hf, hfixed, rfl⟩ := mem_fixedPins.1 hp
    exact ⟨f, hf, hfixed, hpi⟩
  · rintro ⟨f, hf, hfixed, hfi⟩
    exact ⟨_, mem_fixedPins.2 ⟨f, hf, hfixed, rfl⟩, hfi⟩

theorem IsLaid.value_join_fixedPins (h : s.IsLaid) (hw : s.pin.IsWithin) :
    (Pin.join (s.fixedPins s.fields)).value = s.value := by
  refine BitVec.eq_of_getLsbD_eq fun i _ => Bool.eq_iff_iff.2 ?_
  rw [Pin.getLsbD_value_join]
  constructor
  · rintro ⟨p, hp, hpi⟩
    obtain ⟨f, hf, -, rfl⟩ := mem_fixedPins.1 hp
    rw [value_pin_raw (h.valid f hf), BitVec.getLsbD_and, Bool.and_eq_true] at hpi
    exact hpi.1
  · intro hi
    -- a bit of the value is one of the mask, so some field that is fixed has it
    obtain ⟨f, hf, hfixed, hfi⟩ := h.getLsbD_mask_iff.1 (Pin.isWithin_iff.1 hw i hi)
    refine ⟨_, mem_fixedPins.2 ⟨f, hf, hfixed, rfl⟩, ?_⟩
    rw [value_pin_raw (h.valid f hf), BitVec.getLsbD_and, hi, hfi]
    rfl

/-- **The fields of a laid shape are fixed to all that it fixes.** -/
theorem IsLaid.join_fixedPins (h : s.IsLaid) (hw : s.pin.IsWithin) :
    Pin.join (s.fixedPins s.fields) = s.pin :=
  calc Pin.join (s.fixedPins s.fields)
      = ⟨(Pin.join (s.fixedPins s.fields)).mask, (Pin.join (s.fixedPins s.fields)).value⟩ := rfl
    _ = ⟨s.mask, s.value⟩ := by rw [h.mask_join_fixedPins, h.value_join_fixedPins hw]

end Shape

namespace Draft.Progress

variable {format : String} {p : Progress} {s : Shape} {f : Field} {fs : List Field} {ps : List Pin}

theorem fieldAt_memberOf (s : Shape) (f : Field) :
    fieldAt (s.memberOf f) f.slice.offset.toUInt32 = f := by
  simp [fieldAt, Shape.memberOf]

/-- The member of a field puts it where it is. -/
theorem exists_add_memberOf (format : String) (hp : p.pin = Pin.join ps) (hc : p.cursor.toNat ≤ 64)
    (hv : f.slice.IsValid) (hroom : f.slice.offset.toNat + f.slice.width.toNat ≤ p.cursor.toNat) :
    ∃ q, p.add format (s.memberOf f) = .ok q ∧ q.pin = Pin.join (ps ++ s.fixedPins [f]) ∧
      q.cursor.toNat = f.slice.offset.toNat ∧ q.fields = p.fields ++ [f] ∧ q.selection = p.selection := by
  have hoffset := UInt8.toNat_toUInt32 f.slice.offset
  have hwidth : (s.memberOf f).width.toNat = f.slice.width.toNat := UInt8.toNat_toUInt32 f.slice.width
  have hlowest : (s.memberOf f).lowestBit format p.cursor = .ok f.slice.offset.toUInt32 :=
    Member.lowestBit_eq_ok rfl (hwidth ▸ hv.1) (by rw [hwidth, hoffset]; exact hroom) hc
  have hfields : p.fields ++ [fieldAt (s.memberOf f) f.slice.offset.toUInt32] = p.fields ++ [f] := by
    rw [fieldAt_memberOf]
  by_cases hfixed : s.Fixes f
  · have hpattern : (s.memberOf f).pattern =
        some (Table.patternOf (s.memberOf f).width.toNat (f.slice.raw s.value)) := by
      rw [hwidth]
      exact if_pos hfixed
    have hbits := patternBits?_patternOf (s.memberOf f).width (f.slice.raw s.value)
    refine ⟨_, add_eq_ok_iff.2 ⟨_, hlowest, .inr ⟨_, _, hpattern, hbits, rfl⟩⟩, ?_, hoffset, hfields, rfl⟩
    have hraw : f.slice.raw s.value &&& lowBits f.slice.width.toNat = f.slice.raw s.value := by
      rw [Slice.raw, BitVec.and_assoc, BitVec.and_self]
    have hpins : s.fixedPins [f] = [f.pin (f.slice.raw s.value)] := by
      simp [Shape.fixedPins, hfixed]
    rw [hpins, Pin.join_concat, ← hp, pin, placeFixed, place, fieldAt_memberOf, hwidth, hraw, hoffset]
    rfl
  · have hpattern : (s.memberOf f).pattern = none := if_neg hfixed
    refine ⟨_, add_eq_ok_iff.2 ⟨_, hlowest, .inl ⟨hpattern, rfl⟩⟩, ?_, hoffset, hfields, rfl⟩
    have hpins : s.fixedPins [f] = [] := by simp [Shape.fixedPins, hfixed]
    rw [hpins, List.append_nil]
    exact hp

theorem exists_foldl_memberOf (name : String) (hv : ∀ f ∈ fs, f.slice.IsValid)
    (hd : fs.Pairwise fun f g => g.slice.LiesBelow f.slice) (hp : p.pin = Pin.join ps)
    (hc : p.cursor.toNat ≤ 64)
    (hroom : ∀ f ∈ fs, f.slice.offset.toNat + f.slice.width.toNat ≤ p.cursor.toNat) :
    ∃ q, (fs.map s.memberOf).foldl Draft.member ⟨name, .ok p⟩ = ⟨name, .ok q⟩ ∧
      q.pin = Pin.join (ps ++ s.fixedPins fs) ∧ q.fields = p.fields ++ fs ∧ q.selection = p.selection := by
  induction fs generalizing p ps with
  | nil => exact ⟨p, rfl, by simpa [Shape.fixedPins] using hp, by simp, rfl⟩
  | cons f fs ih =>
    obtain ⟨hf, hv⟩ := List.forall_mem_cons.1 hv
    obtain ⟨hbelow, hd⟩ := List.pairwise_cons.1 hd
    obtain ⟨hfroom, -⟩ := List.forall_mem_cons.1 hroom
    obtain ⟨q, hq, hpin, hcursor, hfields, hsel⟩ := exists_add_memberOf (s := s) name hp hc hf hfroom
    -- the fields that are left lie below this one, whose lowest bit is the cursor now
    have hbelow' : ∀ g ∈ fs, g.slice.offset.toNat + g.slice.width.toNat ≤ q.cursor.toNat := by
      intro g hg
      rw [hcursor]
      exact hbelow g hg
    obtain ⟨q', hq', hpin', hfields', hsel'⟩ := ih hv hd hpin (by omega) hbelow'
    refine ⟨q', ?_, ?_, ?_, hsel'.trans hsel⟩
    · have hmember : Draft.member ⟨name, .ok p⟩ (s.memberOf f) = ⟨name, .ok q⟩ :=
        congrArg (Draft.mk name) hq
      rw [List.map_cons, List.foldl_cons, hmember, hq']
    · rw [hpin', List.append_assoc, ← Shape.fixedPins_append, List.singleton_append]
    · rw [hfields', hfields, List.append_assoc, List.singleton_append]

end Draft.Progress

/-- **A laid shape is drawn up again from its fields**, each at its place and with its pattern. -/
theorem Draft.exists_ofMembers_memberOf {s : Shape} (h : s.IsLaid) (hw : s.pin.IsWithin) :
    ∃ p, Draft.ofMembers s.name (s.fields.map s.memberOf) = ⟨s.name, .ok p⟩ ∧ p.selection = none ∧
      (⟨s.name, p.mask, p.value, p.fields⟩ : Shape) = s := by
  have hstart : Progress.start.pin = Pin.join [] := rfl
  obtain ⟨p, hp, hpin, hfields, hsel⟩ := Progress.exists_foldl_memberOf (s := s) s.name h.valid h.descend
    hstart (Nat.le_refl 64) fun f hf => (h.valid f hf).2
  rw [List.nil_append, h.join_fixedPins hw] at hpin
  refine ⟨p, hp, hsel, ?_⟩
  obtain ⟨hmask, hvalue⟩ := Pin.mk.inj hpin
  rw [hmask, hvalue, hfields]
  rfl

end ShaderWord
