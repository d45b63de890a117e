import ShaderWord.Proofs.CheckedWords
import ShaderWord.Proofs.Drawings

/-!
# Drawing layouts up with checks

* `CheckedBuild α` — a run with checks that answers a value or a defect;
* `CheckedBuild.answer x` — the run without a fault that answers what `x` says;
* `Checked.ofSteps name steps` — a layout, drawn up in steps by operations that check themselves.

A member is put below the others without a fault as long as no more than a word is open (`Checked.addMember_eq`),
and each step leaves it so: whatever the steps are, the run has no fault and draws up what `Draft.ofSteps` does
(`Checked.ofSteps_eq`).
-/

namespace ShaderWord

/-- A value or a defect, unless an operation faults. -/
abbrev CheckedBuild := ExceptT Defect Checked

namespace CheckedBuild

variable {α β : Type}

/-- The run without a fault that answers `x`. -/
def answer (x : Except Defect α) : CheckedBuild α := ExceptT.mk (.ok x)

theorem pure_eq (a : α) : (pure a : CheckedBuild α) = answer (.ok a) := rfl

theorem throw_eq (e : Defect) : (throw e : CheckedBuild α) = answer (.error e) := rfl

@[simp] theorem lift_bind (a : α) (f : α → CheckedBuild β) :
    (liftM (Except.ok a : Checked α) : CheckedBuild α) >>= f = f a := rfl

theorem answer_bind {x : Except Defect α} {f : α → Except Defect β} {g : α → CheckedBuild β}
    (h : ∀ a, x = .ok a → g a = answer (f a)) : answer x >>= g = answer (x >>= f) := by
  cases x with
  | error e => rfl
  | ok a => exact h a rfl

end CheckedBuild

open CheckedBuild

namespace Checked

/-! ### Members -/

/-- The lowest bit of a member that has the bits below `cursor` to itself. -/
def lowestBit (format : String) (cursor : UInt32) (m : Member) : CheckedBuild UInt32 :=
  if m.width = 0 ∨ 64 < m.width then
    throw (.invalidField format m.name (m.offset.getD 0) m.width)
  else
    match m.offset with
    | some offset =>
      if 64 < offset.toNat + m.width.toNat then
        throw (.invalidField format m.name offset m.width)
      else do
        let upper ← add offset m.width
        if cursor < upper then throw (.memberOverlap format m.name) else return offset
    | none =>
      if cursor < m.width then throw (.invalidField format m.name 0 m.width)
      else liftM (sub cursor m.width)

/-- A binary number with one more digit at its low end. -/
def appendDigit (bits : Word) (digit : Char) : OptionT Checked Word := do
  let shifted ← shiftLeft bits 1
  if digit = '0' then return shifted
  else if digit = '1' then return shifted ||| 1
  else failure

/-- The number that a pattern of 0 and 1 writes in `width` digits. -/
def patternBits? (width : UInt32) (pattern : String) : OptionT Checked Word :=
  if Member.patternWidth pattern = width then pattern.toList.foldlM appendDigit 0 else failure

/-- The progress with a member below the others. -/
def addMember (format : String) (p : Draft.Progress) (m : Member) : CheckedBuild Draft.Progress := do
  let lowest ← lowestBit format p.cursor m
  let slice : Slice := ⟨← narrow lowest, ← narrow m.width, m.isSigned⟩
  let placed := { p with cursor := lowest, fields := p.fields ++ [⟨m.name, slice⟩] }
  match m.pattern with
  | none => return placed
  | some pattern =>
    match ← (patternBits? m.width pattern).run with
    | none => throw (.badPattern format m.name pattern)
    | some bits =>
      let fixed ← mask slice
      let value ← shiftLeft bits lowest.toNat
      return { placed with mask := p.mask ||| fixed, value := p.value ||| value }

/-! ### Steps -/

/-- Takes a step, unless there has been a mistake. -/
def step (d : Draft) : Draft.Step → Checked Draft
  | .member m =>
    match d.state with
    | .error _ => return d
    | .ok p => do
      let state ← (addMember d.name p m).run
      return { d with state := state }
  | .select field cases => return d.select field cases

/-- The layout that the steps draw up in order. -/
def ofSteps (name : String) (steps : List Draft.Step) : Checked Draft :=
  steps.foldlM step (Draft.new name)

/-! ### Members without a fault -/

section NoFault

variable {format : String} {m : Member} {p : Draft.Progress} {d : Draft}

theorem lowestBit_eq (format : String) (cursor : UInt32) (m : Member) :
    lowestBit format cursor m = answer (m.lowestBit format cursor) := by
  unfold lowestBit Member.lowestBit
  by_cases hwidth : m.width = 0 ∨ 64 < m.width
  · rw [if_pos hwidth, if_pos hwidth, throw_eq]
  rw [if_neg hwidth, if_neg hwidth]
  cases m.offset with
  | some offset =>
    dsimp only
    by_cases hword : 64 < offset.toNat + m.width.toNat
    · rw [if_pos hword, if_pos hword, throw_eq]
    rw [if_neg hword, if_neg hword, add_eq_ok (by omega), lift_bind]
    by_cases hroom : cursor < offset + m.width
    · rw [if_pos hroom, if_pos hroom, throw_eq]
    · rw [if_neg hroom, if_neg hroom, pure_eq]
  | none =>
    dsimp only
    by_cases hroom : cursor < m.width
    · rw [if_pos hroom, if_pos hroom, throw_eq]
    · rw [if_neg hroom, if_neg hroom, sub_eq_ok (UInt32.not_lt.1 hroom)]
      rfl

theorem appendDigit_eq (bits : Word) (digit : Char) :
    appendDigit bits digit = OptionT.mk (.ok (Member.appendDigit bits digit)) := by
  unfold appendDigit Member.appendDigit
  rw [shiftLeft_eq_ok (by decide)]
  split_ifs <;> rfl

theorem foldlM_appendDigit_eq (digits : List Char) (bits : Word) :
    digits.foldlM appendDigit bits = OptionT.mk (.ok (digits.foldlM Member.appendDigit bits)) := by
  induction digits generalizing bits with
  | nil => rfl
  | cons digit digits ih =>
    rw [List.foldlM_cons, List.foldlM_cons, appendDigit_eq]
    cases Member.appendDigit bits digit with
    | none => rfl
    | some bits => exact ih bits

theorem patternBits?_eq (width : UInt32) (pattern : String) :
    patternBits? width pattern = OptionT.mk (.ok (Member.patternBits? width pattern)) := by
  unfold patternBits? Member.patternBits?
  split_ifs
  · exact foldlM_appendDigit_eq _ _
  · rfl

/-- **A member is added without a fault** where no more than a word is open. -/
theorem addMember_eq (h : p.cursor.toNat ≤ 64) : addMember format p m = answer (p.add format m) := by
  unfold addMember Draft.Progress.add
  rw [lowestBit_eq]
  refine answer_bind fun lowest hlowest => ?_
  obtain ⟨hpos, hroom⟩ := Member.fits_of_lowestBit hlowest
  rw [narrow_eq_ok (by omega), lift_bind, narrow_eq_ok (by omega), lift_bind]
  cases m.pattern with
  | none => rfl
  | some pattern =>
    dsimp only
    rw [patternBits?_eq, OptionT.run_mk, lift_bind]
    cases Member.patternBits? m.width pattern with
    | none => rfl
    | some bits =>
      dsimp only
      rw [mask_eq, lift_bind, shiftLeft_eq_ok (by omega), lift_bind, pure_eq]
      rfl

/-! ### Steps without a fault -/

/-- No more than a word is open in a layout. -/
def HasRoom (d : Draft) : Prop := ∀ p, d.state = .ok p → p.cursor.toNat ≤ 64

theorem hasRoom_step (h : HasRoom d) (s : Draft.Step) : HasRoom (d.step s) := by
  intro q hq
  cases s with
  | member m =>
    obtain ⟨p, hp, hadd⟩ := bind_eq_ok_iff.1 hq
    obtain ⟨lowest, hlowest, hq⟩ := Draft.Progress.add_eq_ok_iff.1 hadd
    have hroom := (Member.fits_of_lowestBit hlowest).2
    have hcursor : q.cursor = lowest := by
      rcases hq with ⟨-, rfl⟩ | ⟨_, _, -, -, rfl⟩ <;> rfl
    have := h p hp
    rw [hcursor]
    omega
  | select field cases =>
    obtain ⟨p, hp, hq⟩ := bind_eq_ok_iff.1 hq
    cases hchildren : Draft.buildCases cases with
    | error e =>
      rw [hchildren] at hq
      cases hq
    | ok children =>
      rw [hchildren] at hq
      obtain rfl := Except.ok.inj hq
      exact h p hp

theorem step_eq (h : HasRoom d) (s : Draft.Step) : step d s = .ok (d.step s) := by
  cases s with
  | member m =>
    obtain ⟨name, state⟩ := d
    cases state with
    | error e => rfl
    | ok p =>
      unfold step
      dsimp only
      rw [addMember_eq (h p rfl)]
      rfl
  | select field cases => rfl

/-- **A layout is drawn up without a fault**, whatever the steps are. -/
theorem ofSteps_eq (name : String) (steps : List Draft.Step) :
    ofSteps name steps = .ok (Draft.ofSteps name steps) := by
  have hrun : ∀ d, HasRoom d → steps.foldlM step d = .ok (steps.foldl Draft.step d) := by
    induction steps with
    | nil => exact fun d _ => rfl
    | cons s steps ih =>
      intro d hd
      rw [List.foldlM_cons, step_eq hd, ok_bind]
      exact ih _ (hasRoom_step hd s)
  refine hrun _ ?_
  rintro p ⟨⟩
  exact Nat.le_refl 64

end NoFault

end Checked

end ShaderWord
