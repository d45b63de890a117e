import ShaderWord.Registry

/-!
# Decoding

A registry walks a word from the root of the format that accepts it, one case per discriminant, down to
a layout. What happens on the way is a `Trace`: the events in order, and whether a layout was reached.
Anything that observes a decoder folds over the events.
-/

namespace ShaderWord

/-- Why a word was not decoded. -/
inductive DecodeError where
  | unknownFormat (word : Word)
  /-- The discriminant of a format's definition has no case for the value, or the case does not accept
  the word. -/
  | unknownDiscriminant (format field : String) (value word : Word)
  /-- Fewer bytes are left than a word takes. -/
  | exhaustedInput
  /-- The source of the bytes failed. -/
  | io (failure : String)
  deriving DecidableEq

namespace DecodeError

def message : DecodeError → String
  | unknownFormat word =>
    let shown := Text.hexPadded 16 word.toNat
    s!"no format matches word {shown}"
  | unknownDiscriminant format field value word =>
    let shown := Text.hexPadded 16 word.toNat
    let number := value.toNat
    s!"format `{format}` has no variant for {field} = {number} (word {shown})"
  | exhaustedInput => "exhausted input"
  | io failure => s!"read error: {failure}"

/-- The kind of error in words. -/
def description : DecodeError → String
  | unknownFormat _ => "unknown instruction format"
  | unknownDiscriminant .. => "unknown discriminant value"
  | exhaustedInput => "exhausted input"
  | io _ => "io error"

/-- The input has ended. -/
def isExhausted : DecodeError → Bool
  | exhaustedInput => true
  | _ => false

/-- The word is no instruction. -/
def isBadOpcode : DecodeError → Bool
  | unknownFormat _ => true
  | _ => false

/-- The word is an instruction with a part that means nothing. -/
def isBadOperand : DecodeError → Bool
  | unknownDiscriminant .. => true
  | _ => false

end DecodeError

/-- What a decoder reports while it works on a word. -/
inductive Event where
  | start (word : Word)
  | format (name : String)
  | discriminant (field : String) (value : Word)
  | field (field : Field) (value : Value)
  | finish (layout : Layout)

/-- The events of one word, and whether it was decoded. -/
structure Trace where
  events : List Event
  result : Except DecodeError Unit

namespace Trace

/-- The trace after one more event at its front. -/
def after (e : Event) (t : Trace) : Trace := ⟨e :: t.events, t.result⟩

/-- Nothing happens but a failure. -/
def failure (e : DecodeError) : Trace := ⟨[], .error e⟩

/-- Every field of the layout is read, and the word is decoded. -/
def finish (layout : Layout) (w : Word) : Trace :=
  ⟨layout.fields.map (fun f => .field f (f.slice.extract w)) ++ [.finish layout], .ok ()⟩

/-- An observer's state after the events. -/
def observe {σ : Type} (t : Trace) (step : σ → Event → σ) (s : σ) : σ := t.events.foldl step s

end Trace

namespace Registry

/-- The node at an index, if it accepts the word. -/
def accepting? (r : Registry) (w : Word) (i : Nat) : Option Node :=
  r.nodes[i]?.filter (·.shape.accepts w)

/-- The walk from a node at an index below `bound`. -/
def descend (r : Registry) (format : String) (w : Word) (bound : Nat) : Node → Trace
  | .terminal _ layout => .finish layout w
  | .branch _ selector cases =>
    let value := selector.slice.raw w
    let unknown := Trace.failure (.unknownDiscriminant format selector.name value w)
    match CaseEntry.search cases value 0 cases.size with
    | none => unknown
    | some i =>
      if _ : i < bound then
        match r.accepting? w i with
        | none => unknown
        | some child => (r.descend format w i child).after (.discriminant selector.name value)
      else unknown
termination_by bound

/-- The walk from the first root that accepts the word. -/
def walk (r : Registry) (w : Word) : Trace :=
  match r.roots.findSome? fun i => (r.accepting? w i).map (i, ·) with
  | none => .failure (.unknownFormat w)
  | some (i, root) => (r.descend root.shape.name w i root).after (.format root.shape.name)

/-- Everything that happens when the word is decoded. -/
def trace (r : Registry) (w : Word) : Trace := (r.walk w).after (.start w)

end Registry

end ShaderWord
