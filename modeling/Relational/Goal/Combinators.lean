import Relational.Goal.Basic

/-!
# Combining goals

Any number of goals at once.  All of these nest `both` and `either` to the right, and the last goal
stands there as it is.
-/

namespace Relational

namespace Goal

/-- Every goal of a list. -/
def all : List Goal → Goal
  | [] => .succeed
  | [g] => g
  | g :: gs => .both g (all gs)

/-- One of the goals of a list. -/
def any : List Goal → Goal
  | [] => .fail
  | [g] => g
  | g :: gs => .either g (any gs)

/-- One of several lines, and every goal of that line. -/
def conde (lines : List (List Goal)) : Goal := any (lines.map all)

/-- The goal that `f` makes of every item. -/
def everyg {α : Type} (f : α → Goal) (items : List α) : Goal := all (items.map f)

/-- The goal that `f` makes of one of the items. -/
def anyg {α : Type} (f : α → Goal) (items : List α) : Goal := any (items.map f)

/-- Every goal of a list, about variables that nothing else mentions. -/
def freshAll (names : List String) (goals : List Goal) : Goal := names.foldr .fresh (all goals)

/-- A goal behind `times` suspensions. -/
def delayedBy (times : Nat) (g : Goal) : Goal := times.repeat .delayed g

end Goal

end Relational
