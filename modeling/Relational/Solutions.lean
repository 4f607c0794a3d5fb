import Relational.Goal.Combinators

/-!
# Solutions

The solutions of a goal are the substitutions of the states in which it holds, pulled one at a
time.  A search with a step limit stops in front of a solution that is more suspensions away than
the limit; it can be taken up again (`Solutions.tryNext`), or be given up for good
(`Solutions.next`).
-/

namespace Relational

/-- A search, as far as it has got. -/
structure Solutions where
  /-- The states that are still to come. -/
  states : Goal.States
  /-- How many suspensions may be forced before the next solution. -/
  stepLimit : Option Nat
  /-- The number of solutions pulled so far. -/
  pulled : Nat
  deriving Inhabited

namespace Solutions

/-- The search for the given states. -/
def ofStates (states : Goal.States) (stepLimit : Option Nat) : Solutions := ⟨states, stepLimit, 0⟩

/-- The step limit of a search; without one of its own, the effort of the engine. -/
def limit (e : Engine) (s : Solutions) : Nat := s.stepLimit.getD e.effort

/-- Pull the next solution; `none` if there are no more.  When the step limit is met, the search
stands where it stopped and can be taken up again. -/
def tryNext (e : Engine) (s : Solutions) :
    Logged Event (Except Error (Option Substitution) × Solutions) := do
  match ← s.states.pull (Goal.rules e) (s.limit e) with
  | .item st states =>
    Logged.report (.pulled (s.pulled + 1))
    return (.ok (some st.substitution), ⟨states, s.stepLimit, s.pulled + 1⟩)
  | .ended => return (.ok none, ⟨.empty, s.stepLimit, s.pulled⟩)
  | .suspended states =>
    return (.error (.stepLimitExceeded (s.limit e)), ⟨states, s.stepLimit, s.pulled⟩)

/-- Pull the next solution.  When the step limit is met, the search has ended. -/
def next (e : Engine) (s : Solutions) : Logged Event (Option Substitution × Solutions) := do
  match ← s.tryNext e with
  | (.ok found, s) => return (found, s)
  | (.error error, s) =>
    Logged.report (.abandoned error s.pulled)
    return (none, ⟨.empty, s.stepLimit, s.pulled⟩)

/-- Pull at most `n` solutions; `found` holds the solutions pulled so far, the last one first, and
`reported` what was reported. -/
def takeFrom (e : Engine) : Nat → List Substitution → Array Event → Solutions →
    Logged Event (List Substitution × Solutions)
  | 0, found, reported, s => ⟨(found.reverse, s), reported⟩
  | n + 1, found, reported, s =>
    let step := s.next e
    match step.value with
    | (some solution, s) => takeFrom e n (solution :: found) (reported ++ step.events) s
    | (none, s) => ⟨(found.reverse, s), reported ++ step.events⟩

/-- Pull at most `n` solutions. -/
def take (e : Engine) (n : Nat) (s : Solutions) : Logged Event (List Substitution × Solutions) :=
  takeFrom e n [] #[] s

end Solutions

namespace Goal

/-- The solutions of a goal from an empty state with the given configuration. -/
def solveWith (e : Engine) (g : Goal) (config : SearchConfig) : Logged Event Solutions := do
  let states ← g.apply e .none (.start config)
  return .ofStates states config.stepLimit

/-- The solutions of a goal. -/
def solve (e : Engine) (g : Goal) : Logged Event Solutions := g.solveWith e {}

/-- At most `n` solutions of a goal. -/
def run (e : Engine) (g : Goal) (n : Nat) : Logged Event (List Substitution) := do
  let s ← g.solve e
  let (found, _) ← s.take e n
  return found

/-- The answers to `query` in at most `n` solutions of a goal, with the mark in place of variables
that are free in them. -/
def answers (e : Engine) (g : Goal) (n : Nat) (query : Term) : Logged Event (List Term) := do
  let found ← g.run e n
  return found.filterMap fun s => s.reifyTerm e.effort query

end Goal

end Relational
