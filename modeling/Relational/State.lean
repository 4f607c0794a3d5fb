import Relational.Config
import Relational.Event
import Relational.Logged
import Relational.Substitution.Unify

/-!
# Search states

A state is what one branch of a search knows: a substitution and the counter from which new
variables are numbered, together with the configuration the search was started with.  Handing out a
variable and a failed unification are reported.
-/

namespace Relational

/-- What one branch of a search knows. -/
structure State where
  substitution : Substitution
  /-- The number of the next new variable. -/
  nextId : Nat
  config : SearchConfig
  deriving Inhabited

namespace State

/-- The state at the start of a search. -/
def start (config : SearchConfig) : State := ⟨.empty, 0, config⟩

/-- Equality of states; substitutions are compared without regard to the order of binding. -/
def eqv (a b : State) : Bool :=
  a.substitution == b.substitution && a.nextId == b.nextId && a.config == b.config

instance : BEq State := ⟨eqv⟩

/-- Hand out a variable that this branch has not seen. -/
def freshVar (st : State) : Logged Event (Var × State) := do
  Logged.report (.introduced (.fresh st.nextId))
  return (.fresh st.nextId, ⟨st.substitution, st.nextId + 1, st.config⟩)

/-- The state with another substitution. -/
def withSubstitution (st : State) (s : Substitution) : State := ⟨s, st.nextId, st.config⟩

/-- Make two terms stand for the same. -/
def unify (st : State) (effort : Nat) (u v : Term) : Logged Event (Option State) :=
  match st.substitution.unify st.config.occursCheck effort u v with
  | .ok s => pure (some (st.withSubstitution s))
  | .error refusal => do
    Logged.report (.refused refusal)
    return none

/-- How a state is written. -/
def text (st : State) : String :=
  "State \x7b substitution: " ++ st.substitution.text ++ ", next_id: " ++ toString st.nextId
    ++ ", config: " ++ st.config.text ++ " \x7d"

instance : ToString State := ⟨text⟩

end State

end Relational
