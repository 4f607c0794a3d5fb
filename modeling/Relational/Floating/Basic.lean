/-!
# Binary floating-point numbers

A number of a binary format is kept as what it stands for, a significand times a power of two,
and not as a word of bits, so that comparing, rounding and printing are exact arithmetic on whole
numbers.  `Floating.eqv` is the comparison of the standard for such numbers: a NaN differs from
everything, itself included, and the two zeros are equal.
-/

namespace Relational

/-- A binary floating-point number.  A finite one is `significand * 2 ^ exponent`; the functions
of this library build it in the reduced form of its format (`Floating.round`), so that two
different finite numbers are different in significand or exponent. -/
inductive Floating where
  /-- Not a number. -/
  | nan
  /-- One of the two infinities. -/
  | infinite (negative : Bool)
  /-- A finite number, with the sign kept apart because zero has one too. -/
  | finite (negative : Bool) (significand : Nat) (exponent : Int)
  deriving DecidableEq, Inhabited

namespace Floating

/-- The width of a binary format: how many bits a significand has, and between which exponents
its last bit may stand. -/
structure Format where
  /-- Bits of a full significand. -/
  precision : Nat
  /-- The exponent of the last bit of the smallest numbers. -/
  minExponent : Int
  /-- The exponent of the last bit of the largest numbers. -/
  maxExponent : Int
  deriving DecidableEq, Inhabited

/-- The 32-bit interchange format. -/
def Format.single : Format := ⟨24, -149, 104⟩

/-- The 64-bit interchange format. -/
def Format.double : Format := ⟨53, -1074, 971⟩

/-- Equality of numbers as the standard has it. -/
def eqv : Floating → Floating → Bool
  | .infinite a, .infinite b => a == b
  | .finite a m e, .finite b n f => (m == 0 && n == 0) || (a == b && m == n && e == f)
  | _, _ => false

/-- The quotient `num / den` rounded to the nearest whole number, a tie going to the even one. -/
def roundDiv (num den : Nat) : Nat :=
  let q := num / den
  let r := num % den
  if 2 * r < den then q else if den < 2 * r then q + 1 else q + q % 2

/-- The largest `k` with `2 ^ k ≤ num / den`, for positive `num` and `den`. -/
def log2Ratio (num den : Nat) : Int :=
  let k : Int := (num.log2 : Int) - (den.log2 : Int)
  if den * Nat.pow 2 k.toNat ≤ num * Nat.pow 2 (-k).toNat then k else k - 1

/-- The number of the format nearest to `num / den`, a tie going to the even significand, with the
given sign.  Beyond the largest number of the format lies infinity. -/
def round (f : Format) (negative : Bool) (num den : Nat) : Floating :=
  if num = 0 then .finite negative 0 f.minExponent
  else
    let exponent := max f.minExponent (log2Ratio num den - (f.precision - 1 : Nat))
    let significand := roundDiv (num * Nat.pow 2 (-exponent).toNat) (den * Nat.pow 2 exponent.toNat)
    -- rounding up may carry into one bit more than the format has
    let (significand, exponent) :=
      if significand = Nat.pow 2 f.precision then (Nat.pow 2 (f.precision - 1), exponent + 1)
      else (significand, exponent)
    if f.maxExponent < exponent then .infinite negative
    else if significand = 0 then .finite negative 0 f.minExponent
    else .finite negative significand exponent

end Floating

end Relational
