import Relational.Floating.Basic

/-!
# Reading decimal numerals

A numeral is an optional sign, digits with at most one point among them, and an optional power of
ten (`1`, `-0.5`, `.5e3`, `1E-7`); the words `inf`, `infinity` and `nan`, in any case, are read
too.  `Floating.ofText?` gives the number of the format nearest to it.
-/

namespace Relational

namespace Floating

/-- A decimal numeral: `digits * 10 ^ scale`, with a sign. -/
structure Numeral where
  /-- The numeral begins with a minus sign. -/
  negative : Bool
  /-- Its digits, read as a whole number. -/
  digits : Nat
  /-- The power of ten by which the digits are scaled. -/
  scale : Int
  deriving DecidableEq

/-- The whole number that a row of decimal digits stands for. -/
def natOfDigits (ds : List Char) : Nat :=
  ds.foldl (fun n c => 10 * n + (c.toNat - '0'.toNat)) 0

/-- The number of decimal digits of `n`; zero has none. -/
def digitCount (n : Nat) : Nat := if n = 0 then 0 else (Nat.toDigits 10 n).length

/-- A sign in front, `true` for minus, and what follows it. -/
def splitSign : List Char → Bool × List Char
  | '-' :: cs => (true, cs)
  | '+' :: cs => (false, cs)
  | cs => (false, cs)

/-- A power of ten as it follows the digits: nothing, or `e` and a whole number. -/
def powerOfTen? : List Char → Option Int
  | [] => some 0
  | c :: cs =>
    if c == 'e' || c == 'E' then
      let (negative, ds) := splitSign cs
      if ds.isEmpty || !ds.all Char.isDigit then none
      else some (if negative then -(natOfDigits ds : Int) else natOfDigits ds)
    else none

/-- Read a numeral without its sign. -/
def numeral? (negative : Bool) (cs : List Char) : Option Numeral :=
  let (whole, rest) := cs.span Char.isDigit
  let (fraction, rest) := match rest with
    | '.' :: rest => rest.span Char.isDigit
    | rest => ([], rest)
  if whole.isEmpty && fraction.isEmpty then none
  else (powerOfTen? rest).map fun power =>
    ⟨negative, natOfDigits (whole ++ fraction), power - fraction.length⟩

/-- The number of the format nearest to a numeral.  With `k` the position of the leading digit, a
numeral is at least `10 ^ (k - 1)` and less than `10 ^ k`; as `10` lies above `8 = 2 ^ 3`, one far
outside the format is recognised by `k` alone and no huge power has to be formed. -/
def ofNumeral (f : Format) (n : Numeral) : Floating :=
  let k : Int := (digitCount n.digits : Int) + n.scale
  if n.digits = 0 then round f n.negative 0 1
  else if f.maxExponent + f.precision < 3 * (k - 1) then .infinite n.negative
  else if 3 * k < f.minExponent - 1 then round f n.negative 0 1
  else round f n.negative (n.digits * Nat.pow 10 n.scale.toNat) (Nat.pow 10 (-n.scale).toNat)

/-- Read a number of the format. -/
def ofText? (f : Format) (text : String) : Option Floating :=
  let (negative, cs) := splitSign text.toList
  let word := String.ofList (cs.map Char.toLower)
  if word == "inf" || word == "infinity" then some (.infinite negative)
  else if word == "nan" then some .nan
  else (numeral? negative cs).map (ofNumeral f)

end Floating

end Relational
