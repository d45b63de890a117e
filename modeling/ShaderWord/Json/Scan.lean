/-!
# Scanning JSON text

A scan takes characters off the front of a text or stops at a fault. A fault says in what way the text
is wrong: it ends too early, it is not JSON, or it is JSON of another shape than the reader wants. The
first fault in reading order is the one that counts, so a reader asks for a shape while it scans.
-/

namespace ShaderWord.Json

/-- What is wrong with a text. -/
inductive Fault where
  /-- The text ends within a value. -/
  | truncated
  /-- The text is not JSON. -/
  | malformed
  /-- A value has the wrong type, is out of range, is missing or comes twice. -/
  | mismatched
  deriving DecidableEq

/-- A reader of the rest of a text. -/
abbrev Scan := StateT (List Char) (Except Fault)

namespace Scan

/-- The next character, which stays where it is. -/
def peek : Scan (Option Char) := return (← get).head?

/-- Drops the next character. -/
def advance : Scan Unit := modify List.tail

/-- The next character, which must be there. -/
def next : Scan Char := do
  match ← get with
  | [] => throw .truncated
  | c :: rest =>
    set rest
    return c

/-- Drops the next character, which must be `c`. -/
def expect (c : Char) : Scan Unit := do
  if (← next) ≠ c then throw .malformed

/-- Drops the next characters, which must be those of a literal. -/
def expectAll (literal : String) : Scan Unit := literal.toList.forM expect

/-- The characters that may stand between any two tokens. -/
def isBlank (c : Char) : Bool := c = ' ' || c = '\t' || c = '\n' || c = '\r'

def skipBlanks : Scan Unit := modify (List.dropWhile isBlank)

/-- The first character of the token ahead, which stays where it is. -/
def ahead : Scan Char := do
  skipBlanks
  match ← peek with
  | none => throw .truncated
  | some c => return c

/-- The colon between a key and its value. -/
def colon : Scan Unit := do
  skipBlanks
  expect ':'

/-- Nothing but blanks is left. -/
def finish : Scan Unit := do
  skipBlanks
  if (← peek).isSome then throw .malformed

/-- Whether an array that is open has one more element, `first` if none has been read. -/
def moreElements (first : Bool) : Scan Bool := do
  let c ← ahead
  if c = ']' then return false
  if first then return true
  if c ≠ ',' then throw .malformed
  advance
  if (← ahead) = ']' then throw .malformed
  return true

/-- Ends an array that must have no more elements. -/
def closeArray : Scan Unit := do
  if (← ahead) ≠ ']' then throw .malformed
  advance

/-- The elements of an open array, with fuel for one more than there are. -/
def elementsFrom {α : Type} (item : Scan α) : Nat → Bool → Scan (List α)
  | 0, _ => throw .truncated
  | fuel + 1, first => do
    if ← moreElements first then
      let x ← item
      return x :: (← elementsFrom item fuel false)
    else
      advance
      return []

/-- The rest of an array behind its bracket. -/
def elements {α : Type} (item : Scan α) : Scan (List α) := do
  elementsFrom item ((← get).length + 1) true

/-- The next key of an object that is open, `first` if none has been read; after the last key the
object is closed. -/
def nextKey (text : Scan String) (first : Bool) : Scan (Option String) := do
  let c ← ahead
  if c = '\x7d' then
    advance
    return none
  let c ← if first then pure c else do
    if c ≠ ',' then throw .malformed
    advance
    ahead
  if c ≠ '"' then throw .malformed
  advance
  return some (← text)

/-- Reads the entries of an open object into `s`, with fuel for one more than there are. `entry` reads
from behind a key. -/
def entriesFrom {σ : Type} (text : Scan String) (entry : String → σ → Scan σ) :
    Nat → Bool → σ → Scan σ
  | 0, _, _ => throw .truncated
  | fuel + 1, first, s => do
    match ← nextKey text first with
    | none => return s
    | some key => entriesFrom text entry fuel false (← entry key s)

/-- The rest of an object behind its brace, read into `s`. -/
def entries {σ : Type} (text : Scan String) (entry : String → σ → Scan σ) (s : σ) : Scan σ := do
  entriesFrom text entry ((← get).length + 1) true s

end Scan

end ShaderWord.Json
