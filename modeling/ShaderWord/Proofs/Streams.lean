import Mathlib.Logic.Function.Iterate
import ShaderWord.Proofs.Reuse

/-!
# Streams, word by word

* `Reader.Delivers` — what is relied on of a reader: it fills a buffer with the bytes that come next, or is
  short of bytes, says so and keeps them;
* `Word.ofStream bs` — the words of the bytes, eight to a word;
* `Registry.outcome`, `Registry.advance` — what a call of the decoder gives, and the decoder after it;
* `Registry.Drains` — the loop that calls until the input has ended, with what its calls gave.

A call at eight bytes or more takes eight of them, whether they decode or not (`Registry.outcome_of_le`), and
a call at fewer changes nothing (`Registry.outcome_of_lt`). So the loop comes to an end, and it has then
decoded the words of the stream (`Registry.exists_drains`).
-/

namespace ShaderWord

/-! ### Words of bytes -/

namespace Word

variable {bs : List UInt8}

@[simp] theorem ofBytes_cons (b : UInt8) (bs : List UInt8) :
    ofBytes (b :: bs) = ofBytes bs <<< 8 ||| b.toBitVec.setWidth 64 := rfl

/-- Byte `k` has the eight bits from `8 * k` up. -/
theorem getLsbD_ofBytes {k j : Nat} (hj : j < 8) (hk : 8 * k + j < 64) :
    (ofBytes bs).getLsbD (8 * k + j) = (bs[k]?.map fun b => b.toBitVec.getLsbD j).getD false := by
  induction bs generalizing k with
  | nil => simp [ofBytes]
  | cons b bs ih =>
    rw [ofBytes_cons, BitVec.getLsbD_or, BitVec.getLsbD_shiftLeft, BitVec.getLsbD_setWidth]
    cases k with
    | zero => simp [hj, show j < 64 by omega]
    | succ k =>
      have hpred : 8 * (k + 1) + j - 8 = 8 * k + j := by omega
      have hhigh : b.toBitVec.getLsbD (8 * (k + 1) + j) = false :=
        BitVec.getLsbD_of_ge _ _ (by omega)
      rw [hpred, ih (by omega), hhigh, List.getElem?_cons_succ]
      simp [hk]
      omega

theorem toBytes_ofBytes (h : bs.length = 8) : (ofBytes bs).toBytes = bs := by
  refine List.ext_getElem (by simp [toBytes, h]) fun k hk hk' => ?_
  have hlt : k < 8 := by omega
  simp only [toBytes, List.getElem_map, List.getElem_range]
  rw [← UInt8.toBitVec_inj]
  refine BitVec.eq_of_getLsbD_eq fun j hj => ?_
  rw [BitVec.getLsbD_setWidth, BitVec.getLsbD_ushiftRight, getLsbD_ofBytes hj (by omega),
    List.getElem?_eq_getElem hk']
  simp [hj]

/-- The words of the bytes, eight to a word; fewer at the end make none. -/
def ofStream (bs : List UInt8) : List Word :=
  (List.range (bs.length / 8)).map fun i => ofBytes ((bs.drop (8 * i)).take 8)

theorem length_ofStream (bs : List UInt8) : (ofStream bs).length = bs.length / 8 := by
  simp [ofStream]

theorem getElem?_ofStream {i : Nat} (h : i < bs.length / 8) :
    (ofStream bs)[i]? = some (ofBytes ((bs.drop (8 * i)).take 8)) := by
  simp [ofStream, List.getElem?_range h]

theorem ofStream_of_lt (h : bs.length < 8) : ofStream bs = [] := by
  simp [ofStream, Nat.div_eq_of_lt h]

theorem ofStream_of_le (h : 8 ≤ bs.length) :
    ofStream bs = ofBytes (bs.take 8) :: ofStream (bs.drop 8) := by
  have hlength : bs.length / 8 = (bs.drop 8).length / 8 + 1 := by
    rw [List.length_drop]
    omega
  rw [ofStream, hlength, List.range_succ_eq_map, List.map_cons, List.map_map, ofStream]
  congr 1
  refine List.map_congr_left fun i _ => ?_
  rw [Function.comp_apply, List.drop_drop, Nat.mul_succ, Nat.add_comm]

end Word

/-! ### What is relied on of a reader -/

/-- In a state that `holds` some bytes the reader fills a buffer with the first of them and then holds the
others, or there are too few, and it says so and holds them still. -/
structure Reader.Delivers {ρ : Type} (reader : Reader ρ) (holds : ρ → List UInt8 → Prop) : Prop where
  full : ∀ {s bytes n}, holds s bytes → n ≤ bytes.length →
    ∃ s', reader.fill n s = (.ok (bytes.take n), s') ∧ holds s' (bytes.drop n)
  short : ∀ {s bytes n}, holds s bytes → bytes.length < n →
    ∃ s', reader.fill n s = (.error .exhaustedInput, s') ∧ holds s' bytes

/-- The bytes are what the source has not yet read. -/
def Source.Holds (s : Source) (bytes : List UInt8) : Prop :=
  ∃ content p, s = .bytes content p ∧ content.drop p = bytes

theorem Source.delivers : reader.Delivers Holds where
  full := by
    rintro _ _ n ⟨content, p, rfl, rfl⟩ hn
    have hlength : ((content.drop p).take n).length = n := by
      rw [List.length_take]
      omega
    refine ⟨.bytes content (p + n), ?_, content, p + n, rfl, by rw [List.drop_drop]⟩
    simp only [reader, hlength, if_true]
  short := by
    rintro _ _ n ⟨content, p, rfl, rfl⟩ hn
    have hlength : ((content.drop p).take n).length ≠ n := by
      rw [List.length_take]
      omega
    refine ⟨.bytes content p, ?_, content, p, rfl, rfl⟩
    simp only [reader, hlength, if_false]

/-! ### One call -/

namespace Registry

variable {r : Registry} {format : String} {w : Word} {e : DecodeError}

theorem isExhausted_of_descend {bound : Nat} {node : Node}
    (h : (r.descend format w bound node).result = .error e) : e.isExhausted = false := by
  fun_induction descend r format w bound node with
  | case1 bound name layout => cases h
  | case2 | case3 | case5 =>
    obtain rfl := Except.error.inj h
    rfl
  | case4 bound shape selector cases value i hsearch hi child hchild ih => exact ih h

/-- No word is taken for the end of the input. -/
theorem isExhausted_of_decode (h : r.decode w = .error e) : e.isExhausted = false := by
  have hread : ((r.walk w).read ⟨w, none, []⟩) = .error e := h
  have hwalk : (r.walk w).result = .error e := by
    cases hresult : (r.walk w).result with
    | ok _ => simp [Trace.read, hresult, Except.map] at hread
    | error e' => simpa [Trace.read, hresult, Except.map] using hread
  unfold walk at hwalk
  split at hwalk
  · obtain rfl := Except.error.inj hwalk
    rfl
  · exact isExhausted_of_descend hwalk

section Call

variable {ρ : Type} (r : Registry) (reader : Reader ρ)

/-- What a call gives: the instruction that it leaves, or an error. -/
def outcome (x : Reading ρ) : Except DecodeError Instruction :=
  (r.decodeInto reader x).2.map fun _ => (r.decodeInto reader x).1.slot

/-- The decoder after a call. -/
def advance (x : Reading ρ) : Reading ρ := (r.decodeInto reader x).1

/-- Calls until one says that the input has ended; the list is what the calls before it gave. -/
inductive Drains : Reading ρ → List (Except DecodeError Instruction) → Reading ρ → Prop
  | stop {x : Reading ρ} {e : DecodeError} (h : r.outcome reader x = .error e)
      (he : e.isExhausted = true) : Drains x [] (r.advance reader x)
  | turn {x y : Reading ρ} {log : List (Except DecodeError Instruction)}
      (h : ∀ e, r.outcome reader x = .error e → e.isExhausted = false)
      (hrest : Drains (r.advance reader x) log y) : Drains x (r.outcome reader x :: log) y

end Call

section Calls

variable {ρ : Type} {reader : Reader ρ} {holds : ρ → List UInt8 → Prop} {ds : List Definition}
  {r : Registry} {x : Reading ρ} {bytes : List UInt8}

/-- **A call at eight bytes takes them and gives what their word is**, a failure included. -/
theorem outcome_of_le (hreader : reader.Delivers holds) (h : build ds = .ok r)
    (hx : holds x.state bytes) (hle : 8 ≤ bytes.length) :
    r.outcome reader x = r.decode (Word.ofBytes (bytes.take 8)) ∧
      holds (r.advance reader x).state (bytes.drop 8) := by
  obtain ⟨s, hfill, hs⟩ := hreader.full hx hle
  rcases decodeInto_of_ok h hfill with ⟨c, hdecode, hcall⟩ | ⟨e, hdecode, hcall⟩
  · rw [outcome, advance, hdecode, hcall]
    exact ⟨rfl, hs⟩
  · rw [outcome, advance, hdecode, hcall]
    exact ⟨rfl, hs⟩

/-- **A call at fewer bytes says so and changes nothing.** -/
theorem outcome_of_lt (hreader : reader.Delivers holds) (hx : holds x.state bytes)
    (hlt : bytes.length < 8) :
    r.outcome reader x = .error .exhaustedInput ∧ (r.advance reader x).slot = x.slot ∧
      holds (r.advance reader x).state bytes := by
  obtain ⟨s, hfill, hs⟩ := hreader.short hx hlt
  rw [outcome, advance, decodeInto_of_error hfill]
  exact ⟨rfl, rfl, hs⟩

/-! ### Many calls -/

theorem holds_iterate (hreader : reader.Delivers holds) (h : build ds = .ok r)
    (hx : holds x.state bytes) {i : Nat} (hi : i ≤ bytes.length / 8) :
    holds ((r.advance reader)^[i] x).state (bytes.drop (8 * i)) := by
  induction i with
  | zero => simpa using hx
  | succ i ih =>
    have hle : 8 ≤ (bytes.drop (8 * i)).length := by
      rw [List.length_drop]
      omega
    rw [Function.iterate_succ_apply', Nat.mul_succ, ← List.drop_drop]
    exact (outcome_of_le hreader h (ih (by omega)) hle).2

theorem idle_iterate (hreader : reader.Delivers holds) (hx : holds x.state bytes)
    (hlt : bytes.length < 8) (i : Nat) :
    ((r.advance reader)^[i] x).slot = x.slot ∧ holds ((r.advance reader)^[i] x).state bytes := by
  induction i with
  | zero => exact ⟨rfl, hx⟩
  | succ i ih =>
    obtain ⟨-, hslot, hstate⟩ := outcome_of_lt (r := r) hreader ih.2 hlt
    rw [Function.iterate_succ_apply']
    exact ⟨hslot.trans ih.1, hstate⟩

/-- **The loop ends, and has decoded the words of the stream.** -/
theorem exists_drains (hreader : reader.Delivers holds) (h : build ds = .ok r)
    (hx : holds x.state bytes) :
    ∃ y, r.Drains reader x ((Word.ofStream bytes).map r.decode) y := by
  induction hn : bytes.length / 8 generalizing x bytes with
  | zero =>
    have hlt : bytes.length < 8 := by omega
    rw [Word.ofStream_of_lt hlt]
    exact ⟨_, .stop (outcome_of_lt hreader hx hlt).1 rfl⟩
  | succ n ih =>
    have hle : 8 ≤ bytes.length := by omega
    obtain ⟨houtcome, hrest⟩ := outcome_of_le hreader h hx hle
    have hfewer : (bytes.drop 8).length / 8 = n := by
      rw [List.length_drop]
      omega
    obtain ⟨y, hy⟩ := ih hrest hfewer
    rw [Word.ofStream_of_le hle, List.map_cons, ← houtcome]
    exact ⟨y, .turn (fun e he => isExhausted_of_decode (houtcome.symm.trans he)) hy⟩

/-- **A stream decodes word by word.** Of `n` bytes the first `n / 8` calls each take the next eight, lowest
byte first, and give what their word is, which is never the end of the input. Each call after that says
that the input has ended, takes nothing and leaves the instruction alone. So a loop that calls until then
ends, and has decoded the words. -/
theorem stream_exact (hreader : reader.Delivers holds) (h : build ds = .ok r)
    (hx : holds x.state bytes) :
    (∀ i < bytes.length / 8, ∃ w, (Word.ofStream bytes)[i]? = some w ∧
      w.toBytes = (bytes.drop (8 * i)).take 8 ∧
      r.outcome reader ((r.advance reader)^[i] x) = r.decode w ∧
      (∀ e, r.decode w = .error e → e.isExhausted = false) ∧
      holds ((r.advance reader)^[i + 1] x).state (bytes.drop (8 * (i + 1)))) ∧
    (∀ i ≥ bytes.length / 8,
      r.outcome reader ((r.advance reader)^[i] x) = .error .exhaustedInput ∧
      ((r.advance reader)^[i + 1] x).slot = ((r.advance reader)^[bytes.length / 8] x).slot ∧
      holds ((r.advance reader)^[i + 1] x).state (bytes.drop (8 * (bytes.length / 8)))) ∧
    (Word.ofStream bytes).length = bytes.length / 8 ∧
    ∃ y, r.Drains reader x ((Word.ofStream bytes).map r.decode) y := by
  refine ⟨fun i hi => ?_, fun i hi => ?_, Word.length_ofStream bytes, exists_drains hreader h hx⟩
  · have hle : 8 ≤ (bytes.drop (8 * i)).length := by
      rw [List.length_drop]
      omega
    have hhere := holds_iterate hreader h hx (Nat.le_of_lt hi)
    refine ⟨_, Word.getElem?_ofStream hi, Word.toBytes_ofBytes ?_, (outcome_of_le hreader h hhere hle).1,
      fun _ => isExhausted_of_decode, holds_iterate hreader h hx hi⟩
    rw [List.length_take]
    omega
  · -- the calls before have left too few bytes for another one
    have hlt : (bytes.drop (8 * (bytes.length / 8))).length < 8 := by
      rw [List.length_drop]
      omega
    have hend := holds_iterate hreader h hx (Nat.le_refl _)
    obtain ⟨k, rfl⟩ := Nat.exists_eq_add_of_le hi
    have hidle := idle_iterate (r := r) hreader hend hlt
    have hsplit : ∀ k, (r.advance reader)^[bytes.length / 8 + k] x =
        (r.advance reader)^[k] ((r.advance reader)^[bytes.length / 8] x) := fun k => by
      rw [Nat.add_comm, Function.iterate_add_apply]
    rw [Nat.add_assoc, hsplit k, hsplit (k + 1)]
    exact ⟨(outcome_of_lt hreader (hidle k).2 hlt).1, (hidle (k + 1)).1, (hidle (k + 1)).2⟩

end Calls

/-- The word 9 decodes, the next one does not, and three bytes are left. -/
theorem stream_exact_reusedNames : ∃ r, build reusedNames = .ok r ∧
    let bytes : List UInt8 := [9, 0, 0, 0, 0, 0, 0, 0] ++ List.replicate 8 255 ++ [1, 2, 3]
    let x : Reading Source := ⟨.blank, .ofBytes bytes⟩
    ∃ inst e y, r.decode 9 = .ok inst ∧ r.outcome Source.reader x = .ok inst ∧
      r.outcome Source.reader (r.advance Source.reader x) = .error e ∧ e.isExhausted = false ∧
      (∀ i ≥ 2, r.outcome Source.reader ((r.advance Source.reader)^[i] x) = .error .exhaustedInput ∧
        Source.Holds ((r.advance Source.reader)^[i + 1] x).state [1, 2, 3]) ∧
      r.Drains Source.reader x [.ok inst, .error e] y := by
  obtain ⟨r, hr⟩ : ∃ r, build reusedNames = .ok r := ⟨_, rfl⟩
  refine ⟨r, hr, ?_⟩
  intro bytes x
  obtain ⟨inst, hinst⟩ : ∃ inst, r.decode 9 = .ok inst := by
    rw [(accepted_of_build hr).2.1]
    exact ⟨_, rfl⟩
  obtain ⟨e, he⟩ : ∃ e, r.decode (BitVec.allOnes 64) = .error e := by
    rw [(accepted_of_build hr).2.1]
    exact ⟨_, rfl⟩
  have hwords : Word.ofStream bytes = [9, BitVec.allOnes 64] := by decide
  have hcount : bytes.length / 8 = 2 := by decide
  have hx : Source.Holds x.state bytes := ⟨bytes, 0, rfl, rfl⟩
  obtain ⟨hcalls, hidle, -, y, hy⟩ := stream_exact Source.delivers hr hx
  obtain ⟨w, hw, -, hfirst, -, -⟩ := hcalls 0 (by decide)
  obtain ⟨w', hw', -, hsecond, hunread, -⟩ := hcalls 1 (by decide)
  rw [hwords] at hw hw' hy
  rw [hcount] at hidle
  obtain rfl : 9 = w := Option.some.inj hw
  obtain rfl : BitVec.allOnes 64 = w' := Option.some.inj hw'
  refine ⟨inst, e, y, hinst, hfirst.trans hinst, hsecond.trans he, hunread e he, fun i hi => ?_, ?_⟩
  · exact ⟨(hidle i hi).1, (hidle i hi).2.2⟩
  · rwa [List.map_cons, List.map_cons, List.map_nil, hinst, he] at hy

end Registry

end ShaderWord
