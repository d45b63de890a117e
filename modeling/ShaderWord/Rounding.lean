/-!
# Rounding to a number of significant bits

`roundToBits p n` is the natural number nearest `n` among those with at most `p` significant bits, a
tie going to the even neighbour. `BinaryFormat.encode` writes such a number in an interchange format
of binary floating point.
-/

namespace ShaderWord

/-- The quotient `n / d` rounded to the nearest integer, a tie to the even one. -/
def divNearestEven (n d : Nat) : Nat :=
  let q := n / d
  let r := n % d
  if d < 2 * r ∨ (2 * r = d ∧ q % 2 = 1) then q + 1 else q

/-- `n` rounded to `p` significant bits. -/
def roundToBits (p n : Nat) : Nat :=
  let unit := 1 <<< (n.log2 + 1 - p)
  divNearestEven n unit * unit

/-- A binary floating-point format: the significand's bits, the leading one included, and the bits
of the exponent. -/
structure BinaryFormat where
  precision : Nat
  exponentBits : Nat

namespace BinaryFormat

def single : BinaryFormat := ⟨24, 8⟩

def double : BinaryFormat := ⟨53, 11⟩

/-- The distance from an exponent to the number stored for it. -/
def bias (f : BinaryFormat) : Nat := 1 <<< (f.exponentBits - 1) - 1

/-- The bits of an integer in the format, given as sign and magnitude and rounded to its precision.
The magnitude is below the format's largest number. -/
def encode (f : BinaryFormat) (negative : Bool) (magnitude : Nat) : Nat :=
  let stored := f.precision - 1
  let sign := if negative then 1 <<< (f.exponentBits + stored) else 0
  let m := roundToBits f.precision magnitude
  if m = 0 then sign
  else
    let exponent := m.log2
    let fraction := m <<< stored >>> exponent - 1 <<< stored
    sign + (exponent + f.bias) <<< stored + fraction

end BinaryFormat

theorem divNearestEven_one (n : Nat) : divNearestEven n 1 = n := by
  simp [divNearestEven, Nat.mod_one]

/-- A number of at most `p` bits is its own rounding. -/
theorem roundToBits_of_log2_lt {p n : Nat} (h : n.log2 < p) : roundToBits p n = n := by
  have hexact : n.log2 + 1 - p = 0 := by omega
  simp [roundToBits, hexact, divNearestEven_one]

end ShaderWord
