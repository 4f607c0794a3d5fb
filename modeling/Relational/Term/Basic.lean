import Relational.Constant
import Relational.Variable

/-!
# Terms

A term is a variable, a constant, a compound of a shape with a row of children, or the mark that
stands in an answer for a variable without a value.  Lists are compounds: a cell has the shape
`cons` and two children, and the empty list is the constant `()`.

Terms nest as deeply as lists are long, so what walks over a term keeps the subterms still to be
visited in a list of its own; `Term.weight` bounds how long that takes.
-/

namespace Relational

/-- The kind of a compound. -/
structure Shape where
  name : String
  deriving DecidableEq, Inhabited

namespace Shape

/-- The shape of a list cell. -/
def cons : Shape := ⟨"cons"⟩

/-- How a shape is written when its type is to be seen. -/
def debug (s : Shape) : String := "Shape(" ++ Text.quoted s.name ++ ")"

end Shape

/-- The values that are unified. -/
inductive Term where
  | var (x : Var)
  | constant (c : Constant)
  | compound (shape : Shape) (children : List Term)
  /-- Stands for a variable that is still free in an answer. -/
  | unassigned
  deriving Inhabited

namespace Term

/-- The empty list. -/
def nil : Term := .constant .nil

/-- The list cell with head `car` and tail `cdr`. -/
def cons (car cdr : Term) : Term := .compound .cons [car, cdr]

/-- The list of `items` that ends in `tail`. -/
def listWithTail (items : List Term) (tail : Term) : Term := items.foldr cons tail

/-- The list of `items`. -/
def list (items : List Term) : Term := listWithTail items nil

/-- The constant of a scalar. -/
def ofScalar (s : Scalar) : Term := .constant (.ofScalar s)

/-- The value of a constant. -/
def value? : Term → Option Value
  | .constant c => some c.value
  | _ => none

/-- Whether a term is the empty list. -/
def isNil (t : Term) : Bool := t.value? == some (.plain .unit)

/-- The variable that a term is. -/
def var? : Term → Option Var
  | .var x => some x
  | _ => none

/-- Head and tail of a list cell. -/
def cons? : Term → Option (Term × Term)
  | .compound shape [car, cdr] => if shape = .cons then some (car, cdr) else none
  | _ => none

mutual

/-- The number of nodes of a term. -/
def weight : Term → Nat
  | .compound _ children => 1 + weights children
  | _ => 1

/-- The number of nodes of a row of terms. -/
def weights : List Term → Nat
  | [] => 0
  | t :: ts => weight t + weights ts

end

@[simp] theorem weights_nil : weights [] = 0 := by rw [weights]

@[simp] theorem weights_cons (t : Term) (ts : List Term) :
    weights (t :: ts) = t.weight + weights ts := by rw [weights]

@[simp] theorem weight_compound (shape : Shape) (children : List Term) :
    (compound shape children).weight = 1 + weights children := by rw [weight]

@[simp] theorem weights_append (ts us : List Term) :
    weights (ts ++ us) = weights ts + weights us := by
  induction ts with
  | nil => simp
  | cons t ts ih => simp [ih, Nat.add_assoc]

theorem weight_pos (t : Term) : 0 < t.weight := by
  cases t <;> simp only [weight] <;> omega

/-- Visit the nodes of the terms `pending` from left to right, a compound before its children. -/
def foldNodes {β : Type} (f : β → Term → β) (acc : β) : List Term → β
  | [] => acc
  | .compound shape children :: pending =>
    foldNodes f (f acc (.compound shape children)) (children ++ pending)
  | t :: pending => foldNodes f (f acc t) pending
  termination_by pending => weights pending
  decreasing_by
    · simp
    · simp [weight_pos]

/-- The variables of a term in reading order, with repetitions. -/
def vars (t : Term) : List Var :=
  (foldNodes (fun xs t => match t with | .var x => x :: xs | _ => xs) [] [t]).reverse

end Term

end Relational
