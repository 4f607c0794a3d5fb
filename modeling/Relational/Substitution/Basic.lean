import Std.Data.TreeMap.Basic
import Relational.Term.Equality
import Relational.Term.Text

/-!
# Substitutions

A substitution binds variables to terms and remembers in which order they were bound.  Following
its bindings need not end: a variable may be bound to a term that leads back to it.  So everything
that follows bindings is given an *effort*, the number of steps it may take, and says nothing
(`none`) when that is spent.  What comes back does not depend on the effort, and a computation that
ends at all ends with every effort that is large enough.

* `Substitution.resolve` follows variables bound to variables.
* `Substitution.walk` also resolves what stands below, so that only unbound variables are left.
* `Substitution.occurs` looks for a variable below a term.
* `Substitution.extend` binds a variable, and `Substitution.extendChecked` does so unless the
  variable would become a part of its own value.
-/

namespace Relational

/-- Bindings of variables to terms. -/
structure Substitution where
  /-- The term that each bound variable is bound to. -/
  bindings : Std.TreeMap Var Term Var.order
  /-- The bound variables, the last bound one first. -/
  latest : List Var

/-- Why a substitution was not extended. -/
inductive Refusal where
  /-- Two terms that cannot be made equal. -/
  | clash (u v : Term)
  /-- The variable occurs in the term it was to be bound to. -/
  | circular (x : Var) (t : Term)
  /-- The variable has a value already. -/
  | alreadyBound (x : Var)
  /-- The effort was spent before the outcome was known. -/
  | unfinished
  deriving Inhabited

namespace Substitution

/-- The substitution without bindings. -/
def empty : Substitution := ⟨.empty, []⟩

instance : Inhabited Substitution := ⟨empty⟩

/-- The number of bound variables. -/
def size (s : Substitution) : Nat := s.bindings.size

/-- Whether a variable is bound. -/
def contains (s : Substitution) (x : Var) : Bool := s.bindings.contains x

/-- The term that a variable is bound to, as it stands. -/
def get? (s : Substitution) (x : Var) : Option Term := s.bindings.get? x

/-- The bound variables in the order in which they were bound. -/
def keys (s : Substitution) : List Var := s.latest.reverse

/-- The bindings as they stand, in the order in which they were made. -/
def entries (s : Substitution) : List (Var × Term) :=
  s.keys.filterMap fun x => (s.get? x).map fun t => (x, t)

/-- Bind a variable that is not bound yet. -/
def insert (s : Substitution) (x : Var) (t : Term) : Substitution :=
  ⟨s.bindings.insert x t, x :: s.latest⟩

/-- Two substitutions are equal when they bind the same variables to equal terms, in whatever
order. -/
def eqv (s r : Substitution) : Bool :=
  s.size == r.size && s.bindings.toList.all fun (x, t) =>
    match r.get? x with
    | some u => t == u
    | none => false

instance : BEq Substitution := ⟨eqv⟩

/-- Follow a variable to the variable or term it stands for.  The children of a compound are left
alone. -/
def resolve (s : Substitution) : Nat → Term → Option Term
  | effort, .var x =>
    match s.get? x with
    | none => some (.var x)
    | some t =>
      match effort with
      | 0 => none
      | effort + 1 => s.resolve effort t
  | _, t => some t

/-- What is still to be done to walk a term. -/
inductive Task where
  /-- Walk a term. -/
  | visit (t : Term)
  /-- Put a compound together from the last `arity` results. -/
  | build (shape : Shape) (arity : Nat)

/-- Do the tasks one by one; `done` holds the results, the last one first. -/
def runTasks (s : Substitution) : Nat → List Task → List Term → Option Term
  | _, [], done => done.head?
  | 0, _, _ => none
  | effort + 1, .visit t :: tasks, done =>
    match s.resolve effort t with
    | none => none
    | some (.compound shape children) =>
      s.runTasks effort (children.map .visit ++ .build shape children.length :: tasks) done
    | some t => s.runTasks effort tasks (t :: done)
  | effort + 1, .build shape arity :: tasks, done =>
    let children := (done.take arity).reverse
    s.runTasks effort tasks (.compound shape children :: done.drop arity)

/-- Replace every variable below a term by what it stands for, until only unbound ones are left. -/
def walk (s : Substitution) (effort : Nat) (t : Term) : Option Term :=
  s.runTasks effort [.visit t] []

/-- Whether `x` occurs below one of the terms, the first one being looked through first. -/
def occursIn (s : Substitution) (x : Var) : Nat → List Term → Option Bool
  | _, [] => some false
  | 0, _ => none
  | effort + 1, t :: pending =>
    match s.resolve effort t with
    | none => none
    | some (.var y) => if y = x then some true else s.occursIn x effort pending
    | some (.compound _ children) => s.occursIn x effort (children.reverse ++ pending)
    | some _ => s.occursIn x effort pending

/-- Whether `x` occurs in what `t` stands for.  The last child of a compound is looked through
first. -/
def occurs (s : Substitution) (effort : Nat) (x : Var) (t : Term) : Option Bool :=
  s.occursIn x effort [t]

/-- Bind a variable, which must not be bound yet. -/
def extend (s : Substitution) (x : Var) (t : Term) : Except Refusal Substitution :=
  if s.contains x then .error (.alreadyBound x) else .ok (s.insert x t)

/-- Bind a variable to a term in which it does not occur. -/
def extendChecked (s : Substitution) (effort : Nat) (x : Var) (t : Term) :
    Except Refusal Substitution :=
  match s.occurs effort x t with
  | none => .error .unfinished
  | some true => .error (.circular x t)
  | some false => s.extend x t

/-- The substitution with the given bindings, made in this order. -/
def ofList (pairs : List (Var × Term)) : Except Refusal Substitution :=
  pairs.foldlM (fun s (x, t) => s.extend x t) empty

/-- The bindings in the order in which they were made, with what each term stands for. -/
def walkedEntries (s : Substitution) (effort : Nat) : Option (List (Var × Term)) :=
  s.entries.mapM fun (x, t) => (s.walk effort t).map fun t => (x, t)

/-- How a substitution is written: its bindings as they stand. -/
def text (s : Substitution) : String :=
  let bindings := s.entries.map fun (x, t) => x.text ++ ": " ++ t.text
  "\x7b" ++ ", ".intercalate bindings ++ "\x7d"

instance : ToString Substitution := ⟨text⟩

end Substitution

end Relational
