import Relational.Goal.Pattern
import Relational.State
import Relational.Stream.Pull

/-!
# Goals

A goal says what is wanted of a state.  `Goal.apply` gives the stream of the states in which it
holds: `either` merges the streams of its two sides, `both` replaces every state of its first side
by the states that its second side makes of it, `fresh` hands out a variable, and a relation is
opened behind a suspension, so that it may call itself.

Everything happens when a goal is applied, except what is behind a suspension, which happens when
that is forced.  A goal that is costly to write out may be `deferred`; it is then made when it is
applied, and not at all where the search does not get there.  What is suspended is a goal together
with its locals and its state.
-/

namespace Relational

/-- What is wanted of a state. -/
inductive Goal where
  /-- That two terms stand for the same. -/
  | eq (u v : Pattern)
  /-- Nothing. -/
  | succeed
  /-- What cannot be. -/
  | fail
  /-- One goal or the other, each by itself. -/
  | either (g h : Goal)
  /-- One goal and then the other. -/
  | both (g h : Goal)
  /-- A goal about a variable that nothing else mentions. -/
  | fresh (name : String) (g : Goal)
  /-- A goal about a given term. -/
  | given (name : String) (t : Pattern) (g : Goal)
  /-- A goal that is made when it is applied. -/
  | deferred (make : Unit → Goal)
  /-- A goal behind a suspension. -/
  | delayed (g : Goal)
  /-- What is never found out. -/
  | nevero
  /-- What is found out again and again. -/
  | alwayso
  /-- A relation between terms. -/
  | call (relation : String) (arguments : List Pattern)
  deriving Inhabited

/-- A relation: a body with parameters. -/
structure Relation where
  name : String
  params : List String
  /-- Report every application. -/
  traced : Bool := false
  body : Goal
  deriving Inhabited

/-- The relations that goals may call, by name. -/
abbrev Program := String → Option Relation

/-- What a search works with. -/
structure Engine where
  /-- The relations. -/
  program : Program
  /-- The number of steps that one unification may take, and of suspensions that may be forced for
  one solution if no limit is set. -/
  effort : Nat

namespace Goal

/-- A goal whose parameters have values. -/
structure Closure where
  locals : Locals
  goal : Goal
  deriving Inhabited

/-- A goal that waits to be applied to a state. -/
structure Pending where
  locals : Locals
  goal : Goal
  state : State
  deriving Inhabited

/-- The states that a search finds. -/
abbrev States := Stream Pending Closure State

/-- The stream that begins when a goal is applied, behind a suspension. -/
def later (l : Locals) (g : Goal) (st : State) : States := .suspend (.unfold ⟨l, g, st⟩)

/-- The locals in the body of a relation that is called from where the locals are `l`.  They are
its parameters and nothing else. -/
def openLocals (l : Locals) (r : Relation) (arguments : List Term) (st : State) : Locals :=
  ⟨(r.params.zip arguments).reverse, l.depth + 1, st.substitution.size⟩

/-- The states in which a goal holds that extend `st`. -/
def apply (e : Engine) : Goal → Locals → State → Logged Event States
  | .eq u v, l, st => do
    let found ← st.unify e.effort (u.instantiate l) (v.instantiate l)
    return .ofList found.toList
  | .succeed, _, st => pure (.single st)
  | .fail, _, _ => pure .empty
  | .either g h, l, st => do
    let a ← g.apply e l st
    let b ← h.apply e l st
    return a.merge b
  | .both g h, l, st => do
    let a ← g.apply e l st
    a.bindWith ⟨l, h⟩ (h.apply e l)
  | .fresh name g, l, st => do
    let (x, st) ← st.freshVar
    g.apply e (l.bind name (.var x)) st
  | .given name t g, l, st => g.apply e (l.bind name (t.instantiate l)) st
  | .deferred make, l, st => (make ()).apply e l st
  | .delayed g, l, st => pure (later l g st)
  | .nevero, l, st => pure (later l .nevero st)
  | .alwayso, l, st => pure (later l (.either .succeed .alwayso) st)
  | .call relation arguments, l, st =>
    match e.program relation with
    | none => pure .empty
    | some r => do
      let arguments := Pattern.instantiateAll l arguments
      if r.traced then
        Logged.report (.applied r.name (r.params.zip arguments) st.substitution)
      return later (openLocals l r arguments st) r.body st

/-- How the states of a search unfold. -/
def rules (e : Engine) : Stream.Rules Pending Closure Event State :=
  ⟨fun p => p.goal.apply e p.locals p.state, fun c st => c.goal.apply e c.locals st⟩

end Goal

end Relational
