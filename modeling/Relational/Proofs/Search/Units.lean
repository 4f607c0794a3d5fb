import Relational.Goal.Combinators
import Relational.Proofs.Solutions.StepLimit
import Relational.Proofs.Stream.Units

/-!
# Lists of goals as folds

A conjunction of a list of goals is, step for step, the right fold of `both` that ends in `succeed`,
and a disjunction the right fold of `either` that ends in `fail` (`Goal.folds_with_units`).  This
holds of goals of every kind, so that nothing has to be known of the goals here but how `both` and
`either` put them together (`Goal.combinators`).

Whoever pulls solutions does not notice either (`Solutions.StepEqual.asks`): a search gives the same
answers as one that is step equal to it, in the same order and with every step limit at the same
calls.
-/

namespace Relational

open Relational.Stream

namespace Solutions

/-- Two searches of which the states are equal step for step. -/
structure StepEqual (e : Engine) (s s' : Solutions) : Prop where
  states : s.states.StepEqual (Goal.rules e) s'.states
  stepLimit : s.stepLimit = s'.stepLimit
  pulled : s.pulled = s'.pulled

namespace StepEqual

variable {e : Engine} {s s' : Solutions}

theorem limit (h : s.StepEqual e s') : s.limit e = s'.limit e := by
  rw [Solutions.limit, h.stepLimit, Solutions.limit]

/-- A call gives the same answer, and leaves searches that are step equal again. -/
theorem tryNext (h : s.StepEqual e s') : (s.tryNext e).value.1 = (s'.tryNext e).value.1 ∧
    (s.tryNext e).value.2.StepEqual e (s'.tryNext e).value.2 := by
  obtain ⟨a, b, hab, ha, hb⟩ := h.states.exists_pull (s.limit e)
  have hfront := hab.sameFront
  rw [Solutions.tryNext, Solutions.tryNext, Logged.value_bind, Logged.value_bind, ha, ← h.limit, hb]
  cases a with
  | empty =>
    cases b with
    | empty => exact ⟨rfl, .refl _, h.stepLimit, h.pulled⟩
    | _ => exact hfront.elim
  | cons st a =>
    cases b with
    | cons st' b =>
      obtain ⟨rfl, htail⟩ := hfront
      exact ⟨rfl, htail, h.stepLimit, congrArg (· + 1) h.pulled⟩
    | _ => exact hfront.elim
  | suspend p =>
    cases b with
    | suspend q => exact ⟨rfl, hab, h.stepLimit, h.pulled⟩
    | _ => exact hfront.elim

/-- Giving up a search does not tell them apart either. -/
theorem ask (h : s.StepEqual e s') (a : Ask) :
    (s.ask e a).1 = (s'.ask e a).1 ∧ (s.ask e a).2.StepEqual e (s'.ask e a).2 := by
  have htry := h.tryNext
  cases a with
  | tryNext => exact htry
  | next =>
    rw [Solutions.ask, Solutions.ask, next, next, Logged.value_bind, Logged.value_bind]
    obtain ⟨heq, hrest⟩ := htry
    generalize (s.tryNext e).value = answer at heq hrest ⊢
    generalize (s'.tryNext e).value = answer' at heq hrest ⊢
    obtain ⟨r, s⟩ := answer
    obtain ⟨r', s'⟩ := answer'
    obtain rfl : r = r' := heq
    cases r with
    | error => exact ⟨rfl, .refl _, hrest.stepLimit, hrest.pulled⟩
    | ok => exact ⟨rfl, hrest⟩

/-- **Searches that are step equal give the same answers**, however they are asked. -/
theorem asks (h : s.StepEqual e s') (as : List Ask) : (asks e as s).1 = (asks e as s').1 := by
  induction as generalizing s s' with
  | nil => rfl
  | cons a as ih =>
    obtain ⟨heq, hrest⟩ := h.ask a
    rw [Solutions.asks, Solutions.asks, heq, ih hrest]

end StepEqual

end Solutions

namespace Goal

/-- The goals under the same locals. -/
def combinators (e : Engine) (l : Locals) : Combinators (rules e) Goal where
  continuation := fun g => ⟨l, g⟩
  succeed := .succeed
  fail := .fail
  either := .either
  both := .both
  expand_succeed := fun _ => rfl
  expand_fail := fun _ => rfl
  expand_either := fun _ _ _ => rfl
  expand_both := fun _ _ _ => rfl

variable {e : Engine} {l : Locals}

theorem all_combinators (e : Engine) (l : Locals) :
    ∀ gs : List Goal, (combinators e l).all gs = all gs
  | [] => rfl
  | [_] => rfl
  | g :: h :: gs => congrArg (Goal.both g) (all_combinators e l (h :: gs))

theorem any_combinators (e : Engine) (l : Locals) :
    ∀ gs : List Goal, (combinators e l).any gs = any gs
  | [] => rfl
  | [_] => rfl
  | g :: h :: gs => congrArg (Goal.either g) (any_combinators e l (h :: gs))

/-- From a state, the searches for two goals are equal step for step, and give the same answers to
whoever asks them, with every step limit. -/
structure SameSearch (e : Engine) (l : Locals) (st : State) (g h : Goal) : Prop where
  steps : (g.apply e l st).value.StepEqual (rules e) (h.apply e l st).value
  answers : ∀ (stepLimit : Option ℕ) (as : List Solutions.Ask),
    (Solutions.asks e as (.ofStates (g.apply e l st).value stepLimit)).1 =
      (Solutions.asks e as (.ofStates (h.apply e l st).value stepLimit)).1

theorem sameSearch {g h : Goal} (hgh : (combinators e l).StepEqual g h) (st : State) :
    SameSearch e l st g h where
  steps := hgh st
  answers := fun stepLimit as => by
    have hsearch : Solutions.StepEqual e (.ofStates (g.apply e l st).value stepLimit)
        (.ofStates (h.apply e l st).value stepLimit) := ⟨hgh st, rfl, rfl⟩
    exact hsearch.asks as

/-- **Conjunction and disjunction of a list are folds with units**, step for step: of `both` with
`succeed` at the end, and of `either` with `fail`.  On either side of `both` and `either`, the unit
makes no difference.  The same is true of goals of every kind that can be put together. -/
theorem folds_with_units (e : Engine) (l : Locals) (st : State) :
    (∀ gs : List Goal, SameSearch e l st (all gs) (gs.foldr .both .succeed)) ∧
    (∀ gs : List Goal, SameSearch e l st (any gs) (gs.foldr .either .fail)) ∧
    (∀ g : Goal, SameSearch e l st (.both .succeed g) g ∧ SameSearch e l st (.both g .succeed) g ∧
      SameSearch e l st (.either .fail g) g ∧ SameSearch e l st (.either g .fail) g) ∧
    ∀ (ι κ ε α G : Type) (rules : Rules ι κ ε α) (C : Combinators rules G) (x : α),
      (∀ gs : List G, C.SameSearch (C.all gs) (gs.foldr C.both C.succeed) x) ∧
      (∀ gs : List G, C.SameSearch (C.any gs) (gs.foldr C.either C.fail) x) ∧
      ∀ g : G, C.SameSearch (C.both C.succeed g) g x ∧ C.SameSearch (C.both g C.succeed) g x ∧
        C.SameSearch (C.either C.fail g) g x ∧ C.SameSearch (C.either g C.fail) g x := by
  refine ⟨fun gs => ?_, fun gs => ?_, fun g => ?_, fun ι κ ε α G rules C x => ?_⟩
  · have hfold := (combinators e l).all_stepEqual_foldr gs
    rw [all_combinators] at hfold
    exact sameSearch hfold st
  · have hfold := (combinators e l).any_stepEqual_foldr gs
    rw [any_combinators] at hfold
    exact sameSearch hfold st
  · exact ⟨sameSearch ((combinators e l).succeed_both g) st,
      sameSearch ((combinators e l).both_succeed g) st,
      sameSearch ((combinators e l).fail_either g) st,
      sameSearch ((combinators e l).either_fail g) st⟩
  · exact ⟨fun gs => (C.all_stepEqual_foldr gs).sameSearch x,
      fun gs => (C.any_stepEqual_foldr gs).sameSearch x,
      fun g => ⟨(C.succeed_both g).sameSearch x, (C.both_succeed g).sameSearch x,
        (C.fail_either g).sameSearch x, (C.either_fail g).sameSearch x⟩⟩

end Goal

end Relational
