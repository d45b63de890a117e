import ShaderWord.Proofs.Partition
import ShaderWord.Proofs.Traces

/-!
# The bits that matter

* `Chain.care c` — the bits that the definitions on the way to `c` fix, and the bits of the fields there;
* `Chain.Admits.congr`: whether a terminal position admits a word is read off these bits, since a field that
  selects is one of the fields.

On its way a word is also tried against other formats, whose masks may well have bits outside `Chain.care`.
What these say does not count: a word that a terminal position admits is decoded there
(`Registry.decode_eq_of_admits`).
-/

namespace ShaderWord

/-! ### Words that agree on some bits -/

section Agree

variable {w w' m : Word}

theorem inter_eq_inter_iff :
    w' &&& m = w &&& m ↔ ∀ i, m.getLsbD i = true → w'.getLsbD i = w.getLsbD i := by
  rw [BitVec.eq_of_getLsbD_eq_iff]
  constructor
  · intro h i hi
    simpa [hi] using h i (BitVec.lt_of_getLsbD hi)
  · intro h i _
    cases hi : m.getLsbD i with
    | false => simp [hi]
    | true => simp [hi, h i hi]

theorem Shape.accepts_congr {s : Shape} (h : w' &&& s.mask = w &&& s.mask) :
    s.accepts w' = s.accepts w := by
  rw [accepts, h, accepts]

theorem Slice.raw_congr {s : Slice} (h : w' &&& s.mask = w &&& s.mask) : s.raw w' = s.raw w := by
  rw [inter_eq_inter_iff] at h
  refine BitVec.eq_of_getLsbD_eq fun i _ => ?_
  rw [getLsbD_raw, getLsbD_raw]
  by_cases hwidth : i < s.width.toNat
  · by_cases hword : s.offset.toNat + i < 64
    · have hmask : s.mask.getLsbD (s.offset.toNat + i) = true := by
        rw [getLsbD_mask]
        simp
        omega
      rw [h _ hmask]
    · rw [BitVec.getLsbD_of_ge w' _ (by omega), BitVec.getLsbD_of_ge w _ (by omega)]
  · simp [hwidth]

theorem Slice.extract_congr {s : Slice} (h : w' &&& s.mask = w &&& s.mask) :
    s.extract w' = s.extract w := by
  rw [extract, raw_congr h, extract]

end Agree

namespace Chain

variable {c : Chain} {w w' : Word}

/-- The bits that the definitions of the chain fix, and those of its fields. -/
def care (c : Chain) : Word :=
  (c.shapes.map Shape.mask ++ c.fields.map fun f => f.slice.mask).foldl (· ||| ·) 0

theorem getLsbD_care {i : Nat} : c.care.getLsbD i = true ↔
    (∃ s ∈ c.shapes, s.mask.getLsbD i = true) ∨ ∃ f ∈ c.fields, f.slice.mask.getLsbD i = true := by
  rw [care, Pin.getLsbD_foldl_or]
  simp [or_and_right, exists_or]

section Congr

variable (h : w' &&& c.care = w &&& c.care)
include h

theorem inter_mask_of_shape : ∀ s ∈ c.shapes, w' &&& s.mask = w &&& s.mask := by
  rw [inter_eq_inter_iff] at h
  exact fun s hs => inter_eq_inter_iff.2 fun i hi => h i (getLsbD_care.2 (.inl ⟨s, hs, hi⟩))

theorem inter_mask_of_field : ∀ f ∈ c.fields, w' &&& f.slice.mask = w &&& f.slice.mask := by
  rw [inter_eq_inter_iff] at h
  exact fun f hf => inter_eq_inter_iff.2 fun i hi => h i (getLsbD_care.2 (.inr ⟨f, hf, hi⟩))

/-- **Whether a position admits a word is read off the bits that matter.** -/
theorem Admits.congr (hw : c.Admits w) : c.Admits w' := by
  refine ⟨fun s hs => ?_, fun p hp => ?_⟩
  · rw [Shape.accepts_congr (inter_mask_of_shape h s hs)]
    exact hw.1 s hs
  · obtain ⟨f, hf, hraw⟩ := hw.2 p hp
    have hmem : f ∈ c.fields := List.mem_of_find?_eq_some hf
    exact ⟨f, hf, by rw [Slice.raw_congr (inter_mask_of_field h f hmem), hraw]⟩

theorem instruction_congr : c.instruction w' = { c.instruction w with word := w' } := by
  have hvalues : (c.fields.map fun f => f.slice.extract w') = c.fields.map fun f => f.slice.extract w :=
    List.map_congr_left fun f hf => Slice.extract_congr (inter_mask_of_field h f hf)
  rw [instruction, hvalues, instruction]

end Congr

end Chain

namespace Registry

variable {ds : List Definition} {r : Registry} {c : Chain} {w : Word}

/-- A word that a terminal position admits is decoded there. -/
theorem decode_eq_of_admits (h : build ds = .ok r) (hc : c ∈ Chain.terminals ds) (hw : c.Admits w) :
    r.decode w = .ok (c.instruction w) := by
  obtain ⟨hc, ht⟩ := Chain.mem_terminals.1 hc
  have hsel : c.target.selection = none := by simpa [Chain.isTerminal] using ht
  have hend : c.EndsAt w := ⟨hw, fun field cases h => by simp [hsel] at h⟩
  have hdecode : r.decode w = (r.trace w).read .blank := rfl
  rw [hdecode, trace_eq_report h hc hend, Trace.read, Chain.observe_report_of_isTerminal ht,
    Chain.report_of_isTerminal ht]
  rfl

/-- **The other bits never matter.** A word that decodes has the layout of a terminal position, and every word
that agrees with it on the bits that matter there decodes to the same layout and the same values. -/
theorem decode_eq_of_care (h : build ds = .ok r) {inst : Instruction} (hinst : r.decode w = .ok inst) :
    (∃ c ∈ Chain.terminals ds, inst.layout = some c.layout) ∧
      ∀ c ∈ Chain.terminals ds, inst.layout = some c.layout → ∀ w', w' &&& c.care = w &&& c.care →
        r.decode w' = .ok { inst with word := w' } := by
  obtain ⟨c, hc, hw, hlayout⟩ := exists_admits_of_decode h hinst
  have hterminal := Chain.mem_terminals.1 hc
  obtain rfl : inst = c.instruction w :=
    Except.ok.inj (hinst.symm.trans (decode_eq_of_admits h hc hw))
  refine ⟨⟨c, hc, hlayout⟩, fun c' hc' hlayout' w' hw' => ?_⟩
  -- the layout tells its position
  obtain rfl : c = c' :=
    Chain.eq_of_layout_eq (accepted_of_build h).1.vetted hterminal.1 (Chain.mem_terminals.1 hc').1
      (Option.some.inj (hlayout.symm.trans hlayout'))
  rw [decode_eq_of_admits h hc (hw.congr hw'), Chain.instruction_congr hw']

end Registry

/-- Two formats that differ in bit 0; the second also looks at bit 2, of which the first does not speak. -/
def sharedBits : List Definition :=
  [.select ⟨"p", 1, 1, [⟨"k", ⟨1, 1, false⟩⟩]⟩ "k"
      [(1, .leaf ⟨"b", 0, 0, []⟩), (0, .leaf ⟨"a", 0x10, 0, [⟨"x", ⟨8, 8, true⟩⟩]⟩)],
    .leaf ⟨"q", 5, 4, []⟩]

/-- The words differ in bits 2, 3 and from 16 up. -/
theorem Registry.decode_eq_of_care_sharedBits : ∃ r inst, build sharedBits = .ok r ∧
    r.decode 0x8001 = .ok inst ∧ inst.values = [.unsigned 0, .signed (-128)] ∧
    r.decode 0xFFFFFFFFFFFF800D = .ok { inst with word := 0xFFFFFFFFFFFF800D } := by
  obtain ⟨r, hr⟩ : ∃ r, build sharedBits = .ok r := ⟨_, rfl⟩
  let c : Chain := ⟨[⟨⟨"p", 1, 1, [⟨"k", ⟨1, 1, false⟩⟩]⟩, ⟨"k", 0⟩⟩],
    .leaf ⟨"a", 0x10, 0, [⟨"x", ⟨8, 8, true⟩⟩]⟩⟩
  have hc : c ∈ Chain.terminals sharedBits := List.mem_cons_of_mem _ List.mem_cons_self
  have hinst : r.decode 0x8001 = .ok ⟨0x8001, some c.layout, [.unsigned 0, .signed (-128)]⟩ := by
    rw [(accepted_of_build hr).2.1]
    rfl
  exact ⟨r, _, hr, hinst, rfl, (decode_eq_of_care hr hinst).2 c hc rfl _ (by decide)⟩

end ShaderWord
