import Relational.Substitution.Basic

/-!
# Unification

`Substitution.unify` extends a substitution so that two terms stand for the same; with
`check` it also refuses bindings that would make a variable a part of its own value.  Pairs of terms
that are still to be made equal wait in a list, and the children of two compounds go in front of it
from left to right, so that later children see the bindings made for earlier ones.  A variable is
bound to what the other side stands for at that moment.
-/

namespace Relational

namespace Substitution

/-- Bind the unbound variable `x` to what `t` stands for. -/
def bind (s : Substitution) (check : Bool) (effort : Nat) (x : Var) (t : Term) :
    Except Refusal Substitution :=
  match s.walk effort t with
  | none => .error .unfinished
  | some t => if check then s.extendChecked effort x t else s.extend x t

/-- What a pair of resolved terms asks for. -/
inductive Demand where
  /-- Nothing: they are equal as they stand. -/
  | nothing
  /-- That a variable is bound. -/
  | binding (x : Var) (t : Term)
  /-- That the children are made equal. -/
  | children (pairs : List (Term × Term))
  /-- What cannot be. -/
  | impossible

/-- What has to happen to make two resolved terms equal.  Of two variables the left one is bound. -/
def demand (u v : Term) : Demand :=
  match u, v with
  | .var x, .var y => if x = y then .nothing else .binding x v
  | .var x, _ => .binding x v
  | _, .var y => .binding y u
  | .compound s ts, .compound s' us =>
    if Term.sameKind s ts s' us then .children (ts.zip us) else .impossible
  | _, _ => if u == v then .nothing else .impossible

/-- Whether both sides of a pair are the same variable.  Such a pair stands for one and the same
term, and there is no need to look at it. -/
def sameVariable (u v : Term) : Bool :=
  match u, v with
  | .var x, .var y => x == y
  | _, _ => false

/-- Make the two sides of every pair equal. -/
def unifyAll (check : Bool) : Nat → Substitution → List (Term × Term) → Except Refusal Substitution
  | _, s, [] => .ok s
  | 0, _, _ => .error .unfinished
  | effort + 1, s, (u, v) :: pending =>
    match s.resolve effort u, s.resolve effort v with
    | some u', some v' =>
      if sameVariable u v then unifyAll check effort s pending
      else
        match demand u' v' with
        | .nothing => unifyAll check effort s pending
        | .binding x t =>
          match s.bind check effort x t with
          | .ok s => unifyAll check effort s pending
          | .error refusal => .error refusal
        | .children pairs => unifyAll check effort s (pairs ++ pending)
        | .impossible => .error (.clash u' v')
    | _, _ => .error .unfinished

/-- Extend a substitution so that `u` and `v` stand for the same. -/
def unify (s : Substitution) (check : Bool) (effort : Nat) (u v : Term) :
    Except Refusal Substitution :=
  unifyAll check effort s [(u, v)]

end Substitution

end Relational
