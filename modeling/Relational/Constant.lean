import Relational.Floating.Shortest
import Relational.Text.Quoted

/-!
# Constants

A constant is an opaque value that takes part in unification only by being equal to another one or
not.  Its value is a scalar of some type, stored plainly or behind any number of holders, and
values of different types are never equal (`Value.eqv`).

Equality of values is not reflexive, because a NaN differs from itself.  A constant is always
equal to itself all the same, so a constant carries, besides its value, the identity of the
occurrence that made it (`Constant.eqv`).
-/

namespace Relational

/-- The width of a whole number. -/
inductive Width where
  /-- A fixed number of bits. -/
  | bits (n : Nat)
  /-- The width of a machine word. -/
  | word
  deriving DecidableEq, Inhabited

/-- What a scalar can be. -/
inductive Scalar where
  /-- The empty value, which also is the empty list. -/
  | unit
  | bool (b : Bool)
  /-- A whole number of one of the numeric types. -/
  | int (signed : Bool) (width : Width) (n : Int)
  | char (c : Char)
  /-- A floating-point number of a format. -/
  | float (format : Floating.Format) (x : Floating)
  /-- Text that the program was written with. -/
  | literal (s : String)
  /-- Text that the program made. -/
  | text (s : String)
  deriving DecidableEq, Inhabited

namespace Scalar

/-- Equality of scalars: the same type, and equal as its values are compared. -/
def eqv : Scalar → Scalar → Bool
  | .unit, .unit => true
  | .bool a, .bool b => a == b
  | .int s v a, .int t w b => s == t && v == w && a == b
  | .char a, .char b => a == b
  | .float f a, .float g b => f == g && a.eqv b
  | .literal a, .literal b => a == b
  | .text a, .text b => a == b
  | _, _ => false

/-- Floating-point numbers from `0.0001` up to, but without, `10 ^ 16` are written positionally. -/
def floatLayout : Floating.Layout := ⟨-4, 16⟩

/-- How a scalar is written in a term. -/
def shown : Scalar → String
  | .unit => "()"
  | .bool b => toString b
  | .int _ _ n => toString n
  | .char c => Text.quotedChar c
  | .float f x => x.text floatLayout f
  | .literal s | .text s => Text.quoted s

/-- A scalar written without quotation marks. -/
def bare : Scalar → String
  | .unit => ""
  | .char c => c.toString
  | .literal s | .text s => s
  | s => s.shown

end Scalar

/-- What a value can be stored behind. -/
inductive Holder where
  /-- A box of its own. -/
  | boxed
  /-- A counted reference. -/
  | shared
  deriving DecidableEq, Inhabited

/-- The value of a constant.  The holders, the outermost first, are part of its type. -/
structure Value where
  holders : List Holder
  scalar : Scalar
  deriving DecidableEq, Inhabited

namespace Value

/-- A scalar that is stored plainly. -/
def plain (s : Scalar) : Value := ⟨[], s⟩

/-- Equality of values. -/
def eqv (a b : Value) : Bool := a.holders == b.holders && a.scalar.eqv b.scalar

end Value

/-- Two constants made at different places have different identities. -/
abbrev Identity := List Nat

/-- A value together with the identity of the occurrence that made it. -/
structure Constant where
  value : Value
  identity : Identity
  deriving DecidableEq, Inhabited

namespace Constant

/-- Equality of constants: equal values, or the very same constant. -/
def eqv (a b : Constant) : Bool := a.value.eqv b.value || a == b

/-- A constant whose identity does not matter, because its value equals itself. -/
def ofScalar (s : Scalar) : Constant := ⟨.plain s, []⟩

/-- The empty list. -/
def nil : Constant := ofScalar .unit

/-- How a constant is written in a term; the holders do not show. -/
def shown (c : Constant) : String := c.value.scalar.shown

end Constant

end Relational
