import ShaderWord.Json.Scan

/-!
# JSON strings

A string ends at a quote; control characters may not stand in it. An escape by code unit takes four
hexadecimal digits, and two of them make a character beyond the basic plane. A string that is only
passed over may hold code units that make no character.
-/

namespace ShaderWord.Json.Scan

def hexValue? (c : Char) : Option Nat :=
  if '0' ≤ c ∧ c ≤ '9' then some (c.toNat - '0'.toNat)
  else if 'a' ≤ c ∧ c ≤ 'f' then some (c.toNat - 'a'.toNat + 10)
  else if 'A' ≤ c ∧ c ≤ 'F' then some (c.toNat - 'A'.toNat + 10)
  else none

/-- Four hexadecimal digits. A text with fewer than four bytes left ends too early, whatever they
are. -/
def codeUnit : Scan Nat := do
  let digits := (← get).take 4
  if (String.ofList digits).utf8ByteSize < 4 then throw .truncated
  modify (List.drop 4)
  match digits.mapM hexValue? with
  | some [a, b, c, d] => return ((a * 16 + b) * 16 + c) * 16 + d
  | _ => throw .malformed

def isLeading (unit : Nat) : Bool := 0xD800 ≤ unit && unit ≤ 0xDBFF

def isTrailing (unit : Nat) : Bool := 0xDC00 ≤ unit && unit ≤ 0xDFFF

/-- The character of one code unit or of a pair of them. -/
def codeUnits : Scan Char := do
  let unit ← codeUnit
  if isTrailing unit then throw .malformed
  if ¬ isLeading unit then return .ofNat unit
  expect '\\'
  expect 'u'
  let trailing ← codeUnit
  if ¬ isTrailing trailing then throw .malformed
  return .ofNat (0x10000 + (unit - 0xD800) * 0x400 + (trailing - 0xDC00))

/-- The character of an escape, behind the backslash; `unicode` reads what follows `u`. -/
def escape (unicode : Scan Char) : Scan Char := do
  match ← next with
  | '"' => return '"'
  | '\\' => return '\\'
  | '/' => return '/'
  | 'b' => return '\x08'
  | 'f' => return '\x0c'
  | 'n' => return '\n'
  | 'r' => return '\r'
  | 't' => return '\t'
  | 'u' => unicode
  | _ => throw .malformed

/-- The next character of a string, none at its end. -/
def textChar (unicode : Scan Char) : Scan (Option Char) := do
  let c ← next
  if c = '"' then return none
  if c = '\\' then return some (← escape unicode)
  if c < ' ' then throw .malformed
  return some c

/-- The rest of a string, with fuel for one more than its characters. -/
def textFrom (unicode : Scan Char) : Nat → Scan (List Char)
  | 0 => throw .truncated
  | fuel + 1 => do
    match ← textChar unicode with
    | none => return []
    | some c => return c :: (← textFrom unicode fuel)

/-- The rest of a string behind its first quote. -/
def text : Scan String := do
  return .ofList (← textFrom codeUnits ((← get).length + 1))

/-- Passes over the rest of a string behind its first quote. -/
def skipText : Scan String := do
  return .ofList (← textFrom (do return .ofNat (← codeUnit)) ((← get).length + 1))

end ShaderWord.Json.Scan
