/-!
# Configurations

How a search is carried out: whether unification refuses bindings that make a variable a part of
its own value, and how long a search may look for the next solution.
-/

namespace Relational

/-- How a search is carried out. -/
structure SearchConfig where
  /-- Refuse bindings that make a variable a part of its own value. -/
  occursCheck : Bool := false
  /-- How many suspensions may be forced before the next solution. -/
  stepLimit : Option Nat := none
  deriving DecidableEq, Inhabited

namespace SearchConfig

/-- How a configuration is written. -/
def text (c : SearchConfig) : String :=
  let limit := match c.stepLimit with
    | none => "None"
    | some n => "Some(" ++ toString n ++ ")"
  "SearchConfig \x7b occurs_check: " ++ toString c.occursCheck ++ ", step_limit: " ++ limit
    ++ " \x7d"

end SearchConfig

end Relational
