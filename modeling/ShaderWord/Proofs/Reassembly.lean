import ShaderWord.Proofs.Care

/-!
# Words put together from their fields

* `Slice.place s v` — the low bits of `v`, as many as `s` has, moved up to where `s` is;
* `Layout.assemble l values` — the values at the places of their fields, and `Layout.covered l` the bits of all
  fields.

What is extracted is put back as it was, for a signed field too: sign extension changes no bit but those above
the field (`Slice.place_extract`). So the values of a word make up its covered bits
(`Layout.assemble_extract`), and a word is known from its layout and its values on all bits that matter.
-/

namespace ShaderWord

/-! ### One slice -/

theorem signExtend_inter_lowBits (w : Word) (n : Nat) :
    (signExtend w n).toBitVec &&& lowBits n = w &&& lowBits n := by
  apply BitVec.eq_of_getLsbD_eq
  intro i hi
  show (((w.setWidth (min n 64)).signExtend 64) &&& lowBits n).getLsbD i = _
  simp only [BitVec.getLsbD_and, BitVec.getLsbD_signExtend, BitVec.getLsbD_setWidth, getLsbD_lowBits]
  by_cases hn : i < n
  · have hlow : i < min n 64 := by omega
    simp [hi, hlow]
  · simp [hn]

namespace Slice

variable {s : Slice} {w : Word}

/-- The low bits of the value, at the place of the slice. -/
def place (s : Slice) (v : Value) : Word := (v.bits &&& lowBits s.width.toNat) <<< s.offset.toNat

/-- In the low bits a value is what the slice covers, signed or not. -/
theorem bits_extract (s : Slice) (w : Word) :
    (s.extract w).bits &&& lowBits s.width.toNat = s.raw w := by
  have hraw : s.raw w &&& lowBits s.width.toNat = s.raw w := by
    rw [raw, BitVec.and_assoc, BitVec.and_self]
  unfold extract
  split
  · rw [Value.bits_signed, signExtend_inter_lowBits, hraw]
  · rw [Value.bits_unsigned, hraw]

/-- **What is extracted is put back as it was.** -/
theorem place_extract (s : Slice) (w : Word) : s.place (s.extract w) = w &&& s.mask := by
  rw [place, bits_extract]
  apply BitVec.eq_of_getLsbD_eq
  intro i hi
  simp only [BitVec.getLsbD_shiftLeft, BitVec.getLsbD_and, getLsbD_raw, getLsbD_mask]
  by_cases hlow : i < s.offset.toNat
  · have hout : ¬ s.offset.toNat ≤ i := by omega
    simp [hlow, hout]
  · have hin : s.offset.toNat + (i - s.offset.toNat) = i := by omega
    have hwidth : i - s.offset.toNat < s.width.toNat ↔ i < s.offset.toNat + s.width.toNat := by omega
    simp [hlow, hi, hin, hwidth, Nat.not_lt.1 hlow, Bool.and_comm]

end Slice

/-! ### All fields of a layout -/

namespace Layout

variable {l : Layout} {w : Word}

/-- The bits of all fields. -/
def covered (l : Layout) : Word := (l.fields.map fun f => f.slice.mask).foldl (· ||| ·) 0

/-- The values of the fields, each at its place. -/
def assemble (l : Layout) (values : List Value) : Word :=
  (List.zipWith (fun f v => f.slice.place v) l.fields values).foldl (· ||| ·) 0

theorem getLsbD_covered {i : Nat} :
    l.covered.getLsbD i = true ↔ ∃ f ∈ l.fields, f.slice.mask.getLsbD i = true := by
  rw [covered, Pin.getLsbD_foldl_or]
  simp

/-- **The extracted values make up the covered bits.** -/
theorem assemble_extract (l : Layout) (w : Word) :
    l.assemble (l.fields.map fun f => f.slice.extract w) = w &&& l.covered := by
  have hplaces : List.zipWith (fun f v => f.slice.place v) l.fields
      (l.fields.map fun f => f.slice.extract w) = l.fields.map fun f => w &&& f.slice.mask := by
    rw [List.zipWith_map_right, List.zipWith_self]
    exact List.map_congr_left fun f _ => f.slice.place_extract w
  apply BitVec.eq_of_getLsbD_eq
  intro i _
  rw [Bool.eq_iff_iff, assemble, hplaces, Pin.getLsbD_foldl_or, BitVec.getLsbD_and, Bool.and_eq_true,
    getLsbD_covered]
  constructor
  · rintro ⟨_, hmem, hi⟩
    obtain ⟨f, hf, rfl⟩ := List.mem_map.1 hmem
    rw [BitVec.getLsbD_and, Bool.and_eq_true] at hi
    exact ⟨hi.1, f, hf, hi.2⟩
  · rintro ⟨hw, f, hf, hi⟩
    refine ⟨w &&& f.slice.mask, List.mem_map_of_mem hf, ?_⟩
    rw [BitVec.getLsbD_and, hw, hi]
    rfl

end Layout

/-! ### Words of one layout -/

namespace Chain

variable {c : Chain} {w w' : Word}

/-- Words that a position admits and that agree on the bits of its fields agree on all bits that matter: those
that are fixed on the way are the same in both. -/
theorem inter_care_eq (hw : c.Admits w) (hw' : c.Admits w')
    (hcovered : w' &&& c.layout.covered = w &&& c.layout.covered) : w' &&& c.care = w &&& c.care := by
  rw [inter_eq_inter_iff] at hcovered ⊢
  intro i hi
  rcases getLsbD_care.1 hi with ⟨s, hs, hsi⟩ | ⟨f, hf, hfi⟩
  · have hfixed := (Shape.accepts_iff.1 (hw.1 s hs)).trans (Shape.accepts_iff.1 (hw'.1 s hs)).symm
    exact inter_eq_inter_iff.1 hfixed.symm i hsi
  · exact hcovered i (Layout.getLsbD_covered.2 ⟨f, hf, hfi⟩)

end Chain

namespace Registry

variable {ds : List Definition} {r : Registry} {w : Word} {inst : Instruction}

/-- **Decoded fields reassemble the word.** The values of a word, each at the place of its field, make up the
bits that the layout covers. So a word that decodes to the same layout with the same values has the same bits
in all fields, and in all places that the definitions on the way to the layout fix. -/
theorem assemble_of_decode (h : build ds = .ok r) (hinst : r.decode w = .ok inst) :
    ∃ c ∈ Chain.terminals ds, inst.layout = some c.layout ∧
      c.layout.assemble inst.values = w &&& c.layout.covered ∧
      ∀ w' inst', r.decode w' = .ok inst' → inst'.layout = inst.layout → inst'.values = inst.values →
        w' &&& c.care = w &&& c.care := by
  obtain ⟨c, hc, hw, hlayout⟩ := exists_admits_of_decode h hinst
  obtain rfl : inst = c.instruction w :=
    Except.ok.inj (hinst.symm.trans (decode_eq_of_admits h hc hw))
  refine ⟨c, hc, rfl, c.layout.assemble_extract w, ?_⟩
  intro w' inst' hinst' hsame hvalues
  obtain ⟨c', hc', hw', hlayout'⟩ := exists_admits_of_decode h hinst'
  -- the layout tells its position
  obtain rfl : c = c' :=
    Chain.eq_of_layout_eq (accepted_of_build h).1.vetted (Chain.mem_terminals.1 hc).1
      (Chain.mem_terminals.1 hc').1 (Option.some.inj (hsame.symm.trans hlayout'))
  obtain rfl : inst' = c.instruction w' :=
    Except.ok.inj (hinst'.symm.trans (decode_eq_of_admits h hc hw'))
  refine Chain.inter_care_eq hw hw' ?_
  calc w' &&& c.layout.covered
      = c.layout.assemble (c.instruction w').values := (c.layout.assemble_extract w').symm
    _ = c.layout.assemble (c.instruction w).values := by rw [hvalues]
    _ = w &&& c.layout.covered := c.layout.assemble_extract w

/-- The negative value comes back as the eight bits it was read from. -/
theorem assemble_of_decode_twoCases : ∃ r inst, build [twoCases] = .ok r ∧ r.decode 0x8052 = .ok inst ∧
    inst.values = [.unsigned 2, .signed (-128)] ∧
    ∃ c ∈ Chain.terminals [twoCases], inst.layout = some c.layout ∧
      c.layout.covered = 0xFF03 ∧ c.layout.assemble inst.values = 0x8002 ∧
      ∀ w' inst', r.decode w' = .ok inst' → inst'.layout = inst.layout → inst'.values = inst.values →
        w' &&& c.care = 0x8052 &&& c.care := by
  obtain ⟨r, hr⟩ : ∃ r, build [twoCases] = .ok r := ⟨_, rfl⟩
  let b : Chain := ⟨[⟨twoCases.label, ⟨"kind", 2⟩⟩], .leaf ⟨"b", 0xC0, 0x40, [⟨"x", ⟨8, 8, true⟩⟩]⟩⟩
  have hinst : r.decode 0x8052 = .ok ⟨0x8052, some b.layout, [.unsigned 2, .signed (-128)]⟩ := by
    rw [(accepted_of_build hr).2.1]
    rfl
  obtain ⟨c, hc, hlayout, hassemble, hagree⟩ := assemble_of_decode hr hinst
  have hb : c.layout = b.layout := (Option.some.inj hlayout).symm
  have hcovered : c.layout.covered = 0xFF03 := by
    rw [hb]
    decide
  refine ⟨r, _, hr, hinst, rfl, c, hc, hlayout, hcovered, ?_, hagree⟩
  rw [hassemble, hcovered]
  decide

end Registry

end ShaderWord
