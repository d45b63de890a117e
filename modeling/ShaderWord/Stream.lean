import ShaderWord.Instruction

/-!
# Words in a byte stream

A word is eight bytes, the lowest first. A read that does not get eight bytes takes none, and a decoder
that gets no word leaves its instruction alone.

A decoder does not care where its bytes come from: a `Reader` fills a buffer of some length, or fails.
`Registry.decodeInto` is one call of the decoder on a reader, and a `Source` is a reader
(`Registry.decodeNext_eq_decodeInto`).
-/

namespace ShaderWord

/-! ### Sources -/

/-- The word of the bytes, the first byte lowest. -/
def Word.ofBytes (bytes : List UInt8) : Word :=
  bytes.foldr (fun b w => w <<< 8 ||| b.toBitVec.setWidth 64) 0

/-- The eight bytes of a word, the lowest first. -/
def Word.toBytes (w : Word) : List UInt8 :=
  (List.range 8).map fun i => .ofBitVec ((w >>> (8 * i)).setWidth 8)

/-- Where a decoder reads from. -/
inductive Source where
  /-- Bytes, of which `position` have been read. -/
  | bytes (content : List UInt8) (position : Nat)
  /-- A source that always fails. -/
  | faulty (failure : String)

namespace Source

/-- Unread bytes. -/
def ofBytes (content : List UInt8) : Source := bytes content 0

/-- How many bytes have been read. -/
def position : Source → Nat
  | bytes _ p => p
  | faulty _ => 0

/-- Passes over some bytes, up to the end. -/
def skip (count : Nat) : Source → Source
  | bytes content p => bytes content (min (p + count) content.length)
  | faulty failure => faulty failure

/-- The next word, and the source behind it. -/
def readWord : Source → Except DecodeError (Word × Source)
  | bytes content p =>
    let word := (content.drop p).take 8
    if word.length = 8 then .ok (Word.ofBytes word, bytes content (p + 8))
    else .error .exhaustedInput
  | faulty failure => .error (.io failure)

end Source

namespace Registry

/-- Decodes the next word of a source into an instruction. -/
def decodeNext (r : Registry) (slot : Instruction) (s : Source) :
    Instruction × Source × Except DecodeError Unit :=
  match s.readWord with
  | .error e => (slot, s, .error e)
  | .ok (w, s) =>
    let (slot, result) := r.redecode slot w
    (slot, s, result)

end Registry

/-! ### Readers -/

/-- Why a buffer was not filled. -/
inductive ReadError where
  /-- Fewer bytes are left than the buffer takes. -/
  | exhaustedInput
  | io (failure : String)
  deriving DecidableEq

/-- The failure of a decoder that was to have the bytes. -/
def ReadError.toDecodeError : ReadError → DecodeError
  | exhaustedInput => .exhaustedInput
  | io failure => .io failure

/-- Something with states `ρ` that fills a buffer of so many bytes, or fails, and goes to another state. -/
structure Reader (ρ : Type) where
  fill : Nat → ρ → Except ReadError (List UInt8) × ρ

/-- A decoder in use: the instruction that it decodes into, and the state of its reader. -/
structure Reading (ρ : Type) where
  slot : Instruction
  state : ρ

namespace Registry

variable {ρ : Type}

/-- Decodes the next word of a reader: what is left, and the result. -/
def decodeInto (r : Registry) (reader : Reader ρ) (x : Reading ρ) :
    Reading ρ × Except DecodeError Unit :=
  match reader.fill 8 x.state with
  | (.error e, s) => (⟨x.slot, s⟩, .error e.toDecodeError)
  | (.ok bytes, s) =>
    let (slot, result) := r.redecode x.slot (Word.ofBytes bytes)
    (⟨slot, s⟩, result)

end Registry

/-- Sources as readers: without enough bytes for the buffer none is taken. -/
def Source.reader : Reader Source where
  fill n
    | .bytes content p =>
      let chunk := (content.drop p).take n
      if chunk.length = n then (.ok chunk, .bytes content (p + n))
      else (.error .exhaustedInput, .bytes content p)
    | .faulty failure => (.error (.io failure), .faulty failure)

theorem Registry.decodeNext_eq_decodeInto (r : Registry) (slot : Instruction) (s : Source) :
    r.decodeNext slot s =
      let (x, result) := r.decodeInto Source.reader ⟨slot, s⟩
      (x.slot, x.state, result) := by
  cases s with
  | faulty failure => rfl
  | bytes content p =>
    unfold decodeNext decodeInto Source.readWord Source.reader
    by_cases h : ((content.drop p).take 8).length = 8
    · simp only [h, if_true]
    · simp only [h, if_false]
      rfl

end ShaderWord
