import Relational.Term.Basic

/-!
# Equality of terms

Two terms are equal when they have the same shape of tree, the same variables and equal constants
(`Constant.eqv`).  The comparison keeps the pairs that are still to be compared in a list.
-/

namespace Relational

namespace Term

/-- Whether two compounds can be compared child by child. -/
def sameKind (s : Shape) (ts : List Term) (s' : Shape) (us : List Term) : Bool :=
  s == s' && ts.length == us.length

theorem weights_map_fst_zip_le (ts us : List Term) :
    weights ((ts.zip us).map Prod.fst) ≤ weights ts := by
  induction ts generalizing us with
  | nil => simp
  | cons t ts ih =>
    cases us with
    | nil => simp
    | cons u us => simpa using ih us

/-- Whether the two sides of every pair are equal. -/
def allEqv : List (Term × Term) → Bool
  | [] => true
  | (.var x, .var y) :: pending => x == y && allEqv pending
  | (.constant c, .constant d) :: pending => c.eqv d && allEqv pending
  | (.unassigned, .unassigned) :: pending => allEqv pending
  | (.compound s ts, .compound s' us) :: pending =>
    sameKind s ts s' us && allEqv (ts.zip us ++ pending)
  | _ => false
  termination_by pending => weights (pending.map Prod.fst)
  decreasing_by
    all_goals simp [weight_pos]
    have := weights_map_fst_zip_le ts us
    omega

/-- Equality of terms. -/
def eqv (t u : Term) : Bool := allEqv [(t, u)]

instance : BEq Term := ⟨eqv⟩

end Term

end Relational
