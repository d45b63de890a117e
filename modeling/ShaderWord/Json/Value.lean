import ShaderWord.Json.Number
import ShaderWord.Json.Text

/-!
# JSON values

`Json.read` reads a value of any type whole, with a limit on how deep arrays and objects nest in it.
`Json.skip` passes over a value and holds it to less: no depth is too deep, no number too large and no
code unit too lonely.

`Json.write` writes a value without blanks, on one line. Of the characters of a string only quotes,
backslashes and control characters are escaped.
-/

namespace ShaderWord

/-- A JSON value. A number keeps its spelling, and an object its entries in order, repeated keys
included. -/
inductive Json where
  | null
  | bool (b : Bool)
  | number (n : Json.Numeral)
  | string (s : String)
  | array (items : List Json)
  | object (entries : List (String × Json))

namespace Json

open Scan

/-- A number, which has to be finite. -/
def readNumeral : Scan Numeral := do
  let n ← numeral .truncated
  if ¬ n.isFinite then throw .malformed
  return n

/-- A value that is neither array nor object and begins with `c`, which is still ahead. -/
def readScalar (c : Char) : Scan Json := do
  if c = 'n' then
    expectAll "null"
    return .null
  if c = 't' then
    expectAll "true"
    return .bool true
  if c = 'f' then
    expectAll "false"
    return .bool false
  if c = '"' then
    advance
    return .string (← text)
  if c = '-' ∨ isDigit c then return .number (← readNumeral) else throw .malformed

/-- A value of any type, with arrays and objects at most `levels` deep. -/
def read (levels : Nat) : Scan Json := do
  let c ← ahead
  if c = '[' then
    match levels with
    | 0 => throw .malformed
    | below + 1 =>
      advance
      return .array (← elements (read below))
  else if c = '\x7b' then
    match levels with
    | 0 => throw .malformed
    | below + 1 =>
      advance
      let entry key entries := do
        colon
        return (key, ← read below) :: entries
      return .object (← entries text entry []).reverse
  else readScalar c

/-- Passes over a value, with fuel for one more than its depth. -/
def skipFrom : Nat → Scan Unit
  | 0 => throw .truncated
  | fuel + 1 => do
    let c ← ahead
    if c = '[' then
      advance
      let _ ← elements (skipFrom fuel)
    else if c = '\x7b' then
      advance
      entries skipText (fun _ _ => do colon; skipFrom fuel) ()
    else if c = '"' then
      advance
      let _ ← skipText
    else if c = '-' ∨ isDigit c then
      let _ ← numeral .malformed
    else
      let _ ← readScalar c

/-- Passes over a value of any type. -/
def skip : Scan Unit := do skipFrom ((← get).length + 1)

/-- What a reader of one type does with a value of another: a value without parts still has to be
read. -/
def mismatch {α : Type} : Scan α := do
  let c ← ahead
  if c ≠ '[' ∧ c ≠ '\x7b' then
    let _ ← readScalar c
  throw .mismatched

/-- A string. -/
def readText : Scan String := do
  if (← ahead) = '"' then
    advance
    text
  else mismatch

/-- A natural number of 64 bits. -/
def readNatural : Scan Nat := do
  let c ← ahead
  if c = '-' ∨ isDigit c then
    match (← readNumeral).toNat? with
    | some n => return n
    | none => throw .mismatched
  else mismatch

/-- An array of values of one type. -/
def readArray {α : Type} (item : Scan α) : Scan (List α) := do
  if (← ahead) = '[' then
    advance
    elements item
  else mismatch

/-- A value that may be `null` instead. -/
def readOption {α : Type} (value : Scan α) : Scan (Option α) := do
  if (← ahead) = 'n' then
    expectAll "null"
    return none
  else return some (← value)

/-! ### Writing -/

/-- The spelling of a number as text. -/
def Numeral.write (n : Numeral) : List Char :=
  let fraction := match n.fraction with
    | none => []
    | some ds => '.' :: ds
  let exponent := match n.exponent with
    | none => []
    | some (negative, ds) => 'e' :: (if negative then '-' :: ds else ds)
  (if n.negative then ['-'] else []) ++ n.whole ++ fraction ++ exponent

/-- A character as it stands in a string. -/
def writeChar (c : Char) : List Char :=
  if c = '"' then ['\\', '"']
  else if c = '\\' then ['\\', '\\']
  else if c < ' ' then ['\\', 'u'] ++ (Nat.toDigits 16 c.toNat).leftpad 4 '0'
  else [c]

/-- A string with its quotes. -/
def writeText (s : String) : List Char := '"' :: s.toList.flatMap writeChar ++ ['"']

mutual
/-- The text of a value. -/
def write : Json → List Char
  | null => "null".toList
  | bool true => "true".toList
  | bool false => "false".toList
  | number n => n.write
  | string s => writeText s
  | array items => '[' :: writeItems items
  | object entries => '\x7b' :: writeEntries entries
/-- The rest of an array behind its bracket. -/
def writeItems : List Json → List Char
  | [] => [']']
  | [j] => write j ++ [']']
  | j :: rest => write j ++ ',' :: writeItems rest
/-- The rest of an object behind its brace. -/
def writeEntries : List (String × Json) → List Char
  | [] => ['\x7d']
  | [(key, j)] => writeText key ++ ':' :: write j ++ ['\x7d']
  | (key, j) :: rest => writeText key ++ ':' :: write j ++ ',' :: writeEntries rest
end

end Json

end ShaderWord
