import Relational.Term.Basic

/-!
# Errors

What a caller can be told: a compound rebuilt with the wrong number of children, or a search that
spent its steps without an answer.  That two terms do not unify is no error.
-/

namespace Relational

/-- The causes of an error. -/
inductive Error where
  /-- A compound of arity `expected` was to be rebuilt with `found` children. -/
  | arityMismatch (shape : Shape) (expected found : Nat)
  /-- A search forced `limit` suspensions and did not reach a solution. -/
  | stepLimitExceeded (limit : Nat)
  deriving DecidableEq

namespace Error

/-- The cause in a sentence. -/
def message : Error → String
  | .arityMismatch shape expected found =>
    "cannot rebuild " ++ shape.name ++ " with " ++ toString found ++ " children, expected "
      ++ toString expected
  | .stepLimitExceeded limit =>
    "step limit of " ++ toString limit ++ " suspensions exceeded before the next solution"

/-- The cause with its data. -/
def debug : Error → String
  | .arityMismatch shape expected found =>
    "ArityMismatch \x7b shape: " ++ shape.debug ++ ", expected: " ++ toString expected
      ++ ", found: " ++ toString found ++ " \x7d"
  | .stepLimitExceeded limit => "StepLimitExceeded \x7b limit: " ++ toString limit ++ " \x7d"

end Error

/-- The compound of the given shape and arity, with other children in the same number. -/
def Term.rebuild (shape : Shape) (arity : Nat) (children : List Term) : Except Error Term :=
  if children.length = arity then .ok (.compound shape children)
  else .error (.arityMismatch shape arity children.length)

end Relational
