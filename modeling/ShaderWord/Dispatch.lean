import ShaderWord.Instruction

/-!
# Dispatch

A handler table takes instructions to handlers by key. An instruction goes to the handler of its own
key or else of the longest key that encloses it, so a handler of a format sees every variant that has
no handler of its own. Handlers run in a monad; dispatch runs at most one of them.
-/

namespace ShaderWord

/-- Why an instruction was not handled. -/
inductive DispatchError where
  | unhandledFormat (key : String)
  | undecoded (word : Word)
  /-- The instruction does not have what the view wants. -/
  | viewMismatch (key view : String)
  deriving DecidableEq

namespace DispatchError

def message : DispatchError → String
  | unhandledFormat key => s!"no handler registered for `{key}`"
  | undecoded word =>
    let shown := Text.hexPadded 16 word.toNat
    s!"word {shown} was never decoded"
  | viewMismatch key view => s!"`{key}` cannot be viewed as `{view}`"

end DispatchError

/-- A typed reading of the instructions of one format. -/
structure View (α : Type) where
  /-- The name in errors. -/
  name : String
  format : String
  read? : Instruction → Option α

/-- Runs on an instruction that has been decoded. -/
abbrev Handler (m : Type → Type) (α : Type) := Instruction → m (Except DispatchError α)

/-- Handlers by key; `HandlerTable.register` keeps the keys distinct. -/
structure HandlerTable (m : Type → Type) (α : Type) where
  handlers : List (String × Handler m α)

namespace HandlerTable

variable {m : Type → Type} {α β : Type}

def empty : HandlerTable m α := ⟨[]⟩

/-- Gives a key its handler, in place of an earlier one. -/
def register (t : HandlerTable m α) (key : String) (h : Handler m α) : HandlerTable m α :=
  ⟨(key, h) :: t.handlers.filter (·.1 ≠ key)⟩

/-- The handler under the key or the longest key around it. -/
def lookup? (t : HandlerTable m α) (key : String) : Option (Handler m α) :=
  (Key.enclosing key).findSome? fun k => t.handlers.lookup k

/-- An instruction with the key has a handler. -/
def handles (t : HandlerTable m α) (key : String) : Bool := (t.lookup? key).isSome

/-- The keys in order. -/
def keys (t : HandlerTable m α) : List String :=
  (t.handlers.map (·.1)).mergeSort (· ≤ ·)

def size (t : HandlerTable m α) : Nat := t.handlers.length

def isEmpty (t : HandlerTable m α) : Bool := t.handlers.isEmpty

/-- The table as text, its handlers apart. -/
def render (t : HandlerTable m α) : String :=
  "HandlerTable \x7b keys: [" ++ ", ".intercalate (t.keys.map Text.quoted) ++ "] \x7d"

variable [Monad m]

/-- Handles the instructions of a key and the keys it encloses. -/
def add (t : HandlerTable m α) (key : String) (f : Instruction → m α) : HandlerTable m α :=
  t.register key fun inst => Except.ok <$> f inst

/-- Handles the instructions of a view's format through the view. -/
def addView (t : HandlerTable m α) (v : View β) (f : β → m α) : HandlerTable m α :=
  t.register v.format fun inst =>
    match v.read? inst with
    | some x => Except.ok <$> f x
    | none => return .error (.viewMismatch inst.key v.name)

/-- Runs the handler of an instruction. -/
def dispatch (t : HandlerTable m α) (inst : Instruction) : m (Except DispatchError α) :=
  if inst.isDecoded then
    match t.lookup? inst.key with
    | some h => h inst
    | none => return .error (.unhandledFormat inst.key)
  else return .error (.undecoded inst.word)

end HandlerTable

/-- Why a word was not decoded and handled. -/
inductive RunError where
  | decode (e : DecodeError)
  | dispatch (e : DispatchError)
  deriving DecidableEq

namespace Registry

/-- Decodes a word and runs the handler of what it is. -/
def handle {m : Type → Type} {α : Type} [Monad m] (r : Registry) (w : Word)
    (t : HandlerTable m α) : m (Except RunError α) :=
  match r.decode w with
  | .error e => return .error (.decode e)
  | .ok inst => Except.mapError .dispatch <$> t.dispatch inst

end Registry

end ShaderWord
