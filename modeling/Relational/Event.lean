import Relational.Error
import Relational.Substitution.Reify

/-!
# Events

What a search reports about itself.  An event holds what it is about; it is put into words
(`Event.message`, `Event.fields`) only when somebody reads it.
-/

namespace Relational

/-- How much an event matters. -/
inductive Level where
  | trace
  | debug
  | warn
  deriving DecidableEq

namespace Level

/-- Higher ranks matter more. -/
def rank : Level → Nat
  | .trace => 0
  | .debug => 1
  | .warn => 2

/-- How a level is written. -/
def text : Level → String
  | .trace => "TRACE"
  | .debug => "DEBUG"
  | .warn => "WARN"

end Level

/-- What a search reports. -/
inductive Event where
  /-- A new variable was handed out. -/
  | introduced (x : Var)
  /-- A substitution was not extended. -/
  | refused (refusal : Refusal)
  /-- A relation was applied to the arguments, with the values they have under a substitution. -/
  | applied (relation : String) (arguments : List (String × Term)) (under : Substitution)
  /-- The `count`-th solution was found. -/
  | pulled (count : Nat)
  /-- The search was given up after `solutions` solutions. -/
  | abandoned (error : Error) (solutions : Nat)

namespace Event

/-- How much an event matters. -/
def level : Event → Level
  | .introduced _ => .trace
  | .refused .unfinished => .warn
  | .refused _ => .trace
  | .applied .. => .debug
  | .pulled _ => .debug
  | .abandoned .. => .warn

/-- What happened. -/
def message : Event → String
  | .introduced _ => "introduced fresh variable"
  | .refused (.clash ..) => "unification failed"
  | .refused (.circular ..) => "occurs check rejected binding"
  | .refused (.alreadyBound _) => "variable is already bound"
  | .refused .unfinished => "unification given up"
  | .applied .. => "apply"
  | .pulled _ => "pulled solution"
  | .abandoned .. => "abandoning search"

/-- To what it happened: names and texts.  Putting the arguments of a relation into words may take
`effort` steps for each. -/
def fields (effort : Nat) : Event → List (String × String)
  | .introduced x => [("var", x.text)]
  | .refused (.clash u v) => [("u", u.text), ("v", v.text)]
  | .refused (.circular x t) => [("var", x.text), ("term", t.text)]
  | .refused (.alreadyBound x) => [("var", x.text)]
  | .refused .unfinished => []
  | .applied relation arguments under =>
    ("relation", relation) :: arguments.map fun (name, t) =>
      (name, ((under.reifyTerm effort t).getD t).text)
  | .pulled count => [("solution", toString count)]
  | .abandoned error solutions =>
    [("err", error.message), ("solutions", toString solutions)]

end Event

end Relational
