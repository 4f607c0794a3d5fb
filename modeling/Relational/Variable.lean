/-!
# Logic variables

A variable has a name that its user chose or a number that a search handed out.  The two are kept
apart, so a number that a search hands out never meets a chosen name, whatever that name is.
-/

namespace Relational

/-- A logic variable. -/
inductive Var where
  /-- A variable with a chosen name. -/
  | named (name : String)
  /-- The variable a search hands out when its counter stands at `id`. -/
  | fresh (id : Nat)
  deriving DecidableEq, Inhabited

namespace Var

/-- The order in which variables are kept for look-up: the chosen names first. -/
def order : Var → Var → Ordering
  | .named a, .named b => compare a b
  | .named _, .fresh _ => .lt
  | .fresh _, .named _ => .gt
  | .fresh a, .fresh b => compare a b

/-- The chosen name. -/
def name? : Var → Option String
  | .named name => some name
  | .fresh _ => none

/-- The number of a variable that a search handed out. -/
def freshId? : Var → Option Nat
  | .named _ => none
  | .fresh id => some id

/-- How a variable is written. -/
def text : Var → String
  | .named name => name
  | .fresh id => "_." ++ toString id

instance : ToString Var := ⟨text⟩

end Var

end Relational
