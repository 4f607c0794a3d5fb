import Relational.Substitution.Basic

/-!
# Reification

To show an answer, every variable that is still free in it is bound to the mark
`Term.unassigned`, in reading order.
-/

namespace Relational

namespace Substitution

/-- Bind a variable to the mark of a free variable, unless it is bound. -/
def release (s : Substitution) (x : Var) : Substitution :=
  if s.contains x then s else s.insert x .unassigned

/-- Bind the free variables below `t` to the mark, in reading order. -/
def reify (s : Substitution) (effort : Nat) (t : Term) : Option Substitution :=
  (s.walk effort t).map fun t => t.vars.foldl release s

/-- Reify the value of every bound variable in turn, so that every variable below any binding is
bound. -/
def reifyAll (s : Substitution) (effort : Nat) : Option Substitution :=
  s.keys.foldlM (fun r x => r.reify effort (.var x)) s

/-- What `t` stands for, with the mark in place of its free variables. -/
def reifyTerm (s : Substitution) (effort : Nat) (t : Term) : Option Term :=
  (s.reify effort t).bind fun r => r.walk effort t

end Substitution

end Relational
