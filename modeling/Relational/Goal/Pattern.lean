import Relational.Term.Basic

/-!
# Patterns

The terms in a goal are written with parameters, the local names that `fresh` and the heads of
relations bind.  A `Pattern` is such a term, and `Pattern.instantiate` makes a term of it once the
parameters have values.

A constant in the body of a relation is made anew each time the body is opened.  This shows only
where its value differs from itself: then two openings give two constants that are not equal.  They
are told apart by their identity, which names the place where the constant is written, how deep in
relations the body was opened, and how many bindings there were then.  Two openings with the same
depth and the same number of bindings cannot hand each other a constant: it would have to travel by
a binding, or by the arguments of a relation that is opened deeper.
-/

namespace Relational

/-- A term with parameters. -/
inductive Pattern where
  /-- A term without parameters. -/
  | term (t : Term)
  /-- A constant that is made when the pattern is instantiated; `occurrence` is the place where it
  is written. -/
  | literal (value : Value) (occurrence : Identity)
  /-- A parameter. -/
  | param (name : String)
  | compound (shape : Shape) (children : List Pattern)
  deriving Inhabited

/-- The values of the parameters in the body of a relation. -/
structure Locals where
  /-- The values by name; the first one with a name counts. -/
  values : List (String × Term)
  /-- In how many relations, one in the body of the other, the body was opened. -/
  depth : Nat
  /-- The number of bindings when the body was opened. -/
  bindings : Nat
  deriving Inhabited

namespace Locals

/-- The locals of a goal that stands in no relation. -/
def none : Locals := ⟨[], 0, 0⟩

/-- Give a parameter a value; an older one with this name does not count any more. -/
def bind (l : Locals) (name : String) (t : Term) : Locals :=
  { l with values := (name, t) :: l.values }

/-- The value of a parameter; a name without a value stands for the mark of a free variable. -/
def value (l : Locals) (name : String) : Term := (l.values.lookup name).getD .unassigned

end Locals

namespace Pattern

mutual

/-- The term that a pattern stands for. -/
def instantiate (l : Locals) : Pattern → Term
  | .term t => t
  | .literal value occurrence => .constant ⟨value, occurrence ++ [l.depth, l.bindings]⟩
  | .param name => l.value name
  | .compound shape children => .compound shape (instantiateAll l children)

/-- The terms that a row of patterns stands for. -/
def instantiateAll (l : Locals) : List Pattern → List Term
  | [] => []
  | p :: ps => p.instantiate l :: instantiateAll l ps

end

/-- The list cell with head `car` and tail `cdr`. -/
def cons (car cdr : Pattern) : Pattern := .compound .cons [car, cdr]

/-- The empty list. -/
def nil : Pattern := .term .nil

end Pattern

end Relational
