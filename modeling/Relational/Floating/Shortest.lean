import Relational.Floating.Numeral

/-!
# Shortest decimal text

`Floating.shortest` finds the fewest digits that read back to a finite number, and of those the
nearest to it.  The decimals that read back to `m * 2 ^ q` fill the interval between the midpoints
to its two neighbours, ends included exactly when `m` is even.  On the grid of decimals with a
given number of digits, if any point lies in the interval then so does one of the two points around
the number itself; so it is enough to test these two, for one digit, two digits, and so on.

`Floating.text` lays the digits out.
-/

namespace Relational

namespace Floating

/-- The position of the leading decimal digit of `m * 2 ^ q`, for positive `m`: the `k` with
`10 ^ (k - 1) ≤ m * 2 ^ q < 10 ^ k`. -/
def leadingPosition (m : Nat) (q : Int) : Int :=
  let num := m * Nat.pow 2 q.toNat
  let den := Nat.pow 2 (-q).toNat
  if den ≤ num then digitCount (num / den)
  else
    -- the least `j` with `10 ^ j * num ≥ den` is the digit count of `⌈den / num⌉ - 1`
    1 - (digitCount ((den + num - 1) / num - 1) : Int)

/-- The decimal `d * 10 ^ g` with `n` digits that is nearest to `m * 2 ^ q` among those that read
back to it, if there is one.  Of two equally near ones the larger is taken. -/
def nearestWith? (f : Format) (m : Nat) (q : Int) (n : Nat) : Option (Nat × Int) :=
  let g := leadingPosition m q - n
  -- quarters of the last bit: the number is `4 * m` of them, the midpoints lie two away, but only
  -- one away below a power of two, where the numbers stand closer
  let low := if m = Nat.pow 2 (f.precision - 1) ∧ f.minExponent < q then 4 * m - 1 else 4 * m - 2
  let high := 4 * m + 2
  -- `x` quarters against `d` steps of the grid: compare `x * quarter` with `d * step`
  let quarter := Nat.pow 2 (q - 2).toNat * Nat.pow 10 (-g).toNat
  let step := Nat.pow 10 g.toNat * Nat.pow 2 (2 - q).toNat
  let inside (d : Nat) : Bool :=
    if m % 2 = 0 then low * quarter ≤ d * step && d * step ≤ high * quarter
    else low * quarter < d * step && d * step < high * quarter
  let below := 4 * m * quarter / step
  let above := below + 1
  match inside below, inside above with
  | true, true =>
    if 4 * m * quarter - below * step < above * step - 4 * m * quarter then some (below, g)
    else some (above, g)
  | true, false => some (below, g)
  | false, true => some (above, g)
  | false, false => none

/-- Drop the zeros at the end of the digits. -/
def dropZeros (digits : List Char) : List Char :=
  (digits.reverse.dropWhile (· == '0')).reverse

/-- The fewest decimal digits that read back to the positive number `m * 2 ^ q` of the format,
and the position of the leading one.  A number of the format has at most as many decimal digits
as it has bits. -/
def shortest (f : Format) (m : Nat) (q : Int) : List Char × Int :=
  let (d, g) := ((List.range f.precision).findSome? fun n => nearestWith? f m q (n + 1)).getD (m, q)
  let digits := Nat.toDigits 10 d
  (dropZeros digits, digits.length + g)

/-- Where a text changes from positional to scientific notation. -/
structure Layout where
  /-- The lowest power of ten of a leading digit written positionally. -/
  lowest : Int
  /-- The first power of ten of a leading digit that is written as a power again. -/
  beyond : Int

/-- A positional numeral with its leading digit at position `k`; there is always a digit on either
side of the point. -/
def positional (digits : List Char) (k : Int) : String :=
  let whole := digits.take k.toNat ++ List.replicate (k.toNat - digits.length) '0'
  let fraction := List.replicate (-k).toNat '0' ++ digits.drop k.toNat
  let orZero (ds : List Char) := String.ofList (if ds.isEmpty then ['0'] else ds)
  orZero whole ++ "." ++ orZero fraction

/-- A numeral with one digit in front of the point, which is dropped if nothing follows it, and a
power of ten. -/
def scientific (digits : List Char) (k : Int) : String :=
  let fraction := digits.drop 1
  String.ofList (digits.take 1)
    ++ (if fraction.isEmpty then "" else "." ++ String.ofList fraction)
    ++ "e" ++ toString (k - 1)

/-- The text of a number of the format. -/
def text (layout : Layout) (f : Format) : Floating → String
  | .nan => "NaN"
  | .infinite negative => if negative then "-inf" else "inf"
  | .finite negative m q =>
    let magnitude :=
      if m = 0 then positional [] 0
      else
        let (digits, k) := shortest f m q
        if layout.lowest ≤ k - 1 && k - 1 < layout.beyond then positional digits k
        else scientific digits k
    if negative then "-" ++ magnitude else magnitude

end Floating

end Relational
