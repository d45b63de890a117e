import ShaderWord.Json.Scan
import ShaderWord.Rounding

/-!
# JSON numbers

A number that is read has to be finite in double precision; one that is passed over only has to be
spelled right. The first digits of a number, as many as make a number of 64 bits, are its significand;
the others only count as powers of ten.
-/

namespace ShaderWord.Json

/-- A number as it is spelled; the digits are lists of characters. -/
structure Numeral where
  negative : Bool
  whole : List Char
  /-- The digits behind the point, if there is one. -/
  fraction : Option (List Char)
  /-- Whether the exponent is negative, and its digits, if there is one. -/
  exponent : Option (Bool × List Char)
  deriving DecidableEq

namespace Scan

def isDigit (c : Char) : Bool := '0' ≤ c && c ≤ '9'

/-- The digits ahead. -/
def digits : Scan (List Char) := do
  let s ← get
  set (s.dropWhile isDigit)
  return s.takeWhile isDigit

/-- The digits ahead, at least one; `ended` is the fault of a text that ends before it. -/
def someDigits (ended : Fault) : Scan (List Char) := do
  let ds ← digits
  if ds.isEmpty then throw (if (← peek).isNone then ended else .malformed)
  return ds

/-- The spelling of a number; `ended` is the fault of a text that ends within it. -/
def numeral (ended : Fault) : Scan Numeral := do
  let negative := (← peek) == some '-'
  if negative then advance
  let whole ← someDigits ended
  if whole.head? = some '0' ∧ whole.length ≠ 1 then throw .malformed
  let fraction ← if (← peek) = some '.' then do
      advance
      pure (some (← someDigits ended))
    else pure none
  let mark ← peek
  let exponent ← if mark = some 'e' ∨ mark = some 'E' then do
      advance
      let sign ← peek
      if sign = some '+' ∨ sign = some '-' then advance
      pure (some (sign == some '-', ← someDigits ended))
    else pure none
  return ⟨negative, whole, fraction, exponent⟩

end Scan

namespace Numeral

/-- The greatest number of 64 bits. -/
def maxSignificand : Nat := UInt64.size - 1

/-- Appends decimal digits to a number while it stays within 64 bits; the second part is the digits
that are left. -/
def absorb (significand : Nat) : List Char → Nat × List Char
  | [] => (significand, [])
  | c :: rest =>
    let longer := significand * 10 + (c.toNat - '0'.toNat)
    if longer ≤ maxSignificand then absorb longer rest else (significand, c :: rest)

/-- The number that decimal digits write. -/
def ofDigits (ds : List Char) : Nat := ds.foldl (fun n c => n * 10 + (c.toNat - '0'.toNat)) 0

/-- The spelling of a natural number. -/
def ofNat (n : Nat) : Numeral := ⟨false, Nat.toDigits 10 n, none, none⟩

/-- A natural number of 64 bits, if it is spelled as one. -/
def toNat? (n : Numeral) : Option Nat :=
  if n.negative ∨ n.fraction.isSome ∨ n.exponent.isSome then none
  else if ofDigits n.whole ≤ maxSignificand then some (ofDigits n.whole)
  else none

/-- The significand, and the power of ten that it is multiplied by. -/
def parts (n : Numeral) : Nat × Int :=
  let (significand, surplus) := absorb 0 n.whole
  let fraction := n.fraction.getD []
  let (significand, left) := absorb significand fraction
  let exponent : Int := match n.exponent with
    | none => 0
    | some (negative, ds) => if negative then -(ofDigits ds : Int) else ofDigits ds
  (significand, surplus.length - (fraction.length - left.length) + exponent)

/-- The product of two numbers of double precision is beyond that precision's range. -/
def productOverflows (m n : Nat) : Bool := 1 <<< 1024 - 1 <<< 970 ≤ m * n

/-- The number is finite in double precision. The significand and the power of ten are rounded before
they are multiplied. -/
def isFinite (n : Numeral) : Bool :=
  let (significand, exponent) := n.parts
  if significand = 0 ∨ exponent ≤ 0 then true
  else if 308 < exponent then false
  else !productOverflows (roundToBits 53 significand) (roundToBits 53 (Nat.pow 10 exponent.toNat))

end Numeral

end ShaderWord.Json
