import Relational.Proofs.Substitution.Unifier

/-!
# The stacks of a walk

A walk keeps two stacks, the tasks that are still to be done and the results of those that are done.
To build a compound of arity `k` it takes the last `k` results, whatever they are.  That these are
there, and that they are the walks of the children, is a matter of how the tasks follow one another.

`Fits tasks k` says that with `k` results the tasks can be done: none of them takes more results
than there are, and one is left in the end.  Every step of a walk keeps this (`Walking.Step.fits`),
so it holds all along, whatever is bound (`Reaches.fits`, `stacks_sound`).

What a walk comes to without cycles is told by recursion on the term and its variables.  There is
one function that `FollowsBindings`, and this is what walking computes.  It leaves only unbound
variables, so that it changes nothing when it is done again, and it may be done under fewer bindings
first (`Acyclic.walk_follows`).
-/

namespace Relational

namespace Substitution

open Filter Relation

/-- A walk under way. -/
structure Walking where
  /-- What is still to be done. -/
  tasks : List Task
  /-- The results so far, the last one first. -/
  results : List Term

/-- What a walk does next; nothing if there is no task left, or if a term cannot be resolved with
the effort. -/
def Walking.next (s : Substitution) (effort : ℕ) : Walking → Option Walking
  | ⟨[], _⟩ => none
  | ⟨.visit t :: tasks, results⟩ =>
    (s.resolve effort t).map fun
      | .compound shape children =>
        ⟨children.map .visit ++ .build shape children.length :: tasks, results⟩
      | t => ⟨tasks, t :: results⟩
  | ⟨.build shape arity :: tasks, results⟩ =>
    some ⟨tasks, .compound shape (results.take arity).reverse :: results.drop arity⟩

/-- One step of a walk. -/
def Walking.Step (s : Substitution) (a b : Walking) : Prop := ∃ n, a.next s n = some b

/-- A walk of `t` comes to `a`. -/
def Reaches (s : Substitution) (t : Term) (a : Walking) : Prop :=
  ReflTransGen (Walking.Step s) ⟨[.visit t], []⟩ a

/-- With `k` results the tasks can be done, and one result is left in the end. -/
def Fits : List Task → ℕ → Prop
  | [], k => k = 1
  | .visit _ :: tasks, k => Fits tasks (k + 1)
  | .build _ arity :: tasks, k => arity ≤ k ∧ Fits tasks (k - arity + 1)

variable {s : Substitution} {n k : ℕ} {t w : Term} {tasks : List Task} {results : List Term}
  {a b : Walking} {f : Term → Term}

/-! ### Steps -/

theorem runTasks_nil : s.runTasks n [] results = results.head? := by cases n <;> rw [runTasks]

/-- The loop takes one step after the other. -/
theorem runTasks_succ (ha : a.tasks ≠ []) : s.runTasks (n + 1) a.tasks a.results =
    (a.next s n).bind fun b => s.runTasks n b.tasks b.results := by
  obtain ⟨tasks, results⟩ := a
  cases tasks with
  | nil => exact absurd rfl ha
  | cons task tasks =>
    cases task with
    | visit t =>
      rw [runTasks, Walking.next]
      cases hu : s.resolve n t with
      | none => rfl
      | some u => cases u <;> rfl
    | build shape arity =>
      rw [runTasks, Walking.next]
      rfl

/-- A loop that ends takes its result from the top of the stack that it ends with. -/
theorem exists_reaches_of_runTasks (h : s.runTasks n a.tasks a.results = some w) :
    ∃ results, ReflTransGen (Walking.Step s) a ⟨[], results⟩ ∧ results.head? = some w := by
  induction n generalizing a with
  | zero =>
    obtain ⟨_ | ⟨task, tasks⟩, results⟩ := a
    · exact ⟨results, .refl, by rwa [runTasks_nil] at h⟩
    · simp [runTasks] at h
  | succ n ih =>
    by_cases ha : a.tasks = []
    · obtain ⟨tasks, results⟩ := a
      obtain rfl : tasks = [] := ha
      exact ⟨results, .refl, by rwa [runTasks_nil] at h⟩
    · rw [runTasks_succ ha] at h
      obtain ⟨b, hb, h⟩ := Option.bind_eq_some_iff.1 h
      obtain ⟨results, hrest, hhead⟩ := ih h
      exact ⟨results, .head ⟨n, hb⟩ hrest, hhead⟩

/-! ### The results are enough -/

theorem fits_visits (ts : List Term) :
    Fits (ts.map .visit ++ tasks) k ↔ Fits tasks (k + ts.length) := by
  induction ts generalizing k with
  | nil => rfl
  | cons t ts ih =>
    rw [List.map_cons, List.cons_append, Fits, ih, List.length_cons, Nat.add_assoc,
      Nat.add_comm 1]

/-- **A step leaves enough results for the tasks behind it.** -/
theorem Walking.Step.fits (h : Walking.Step s a b) (ha : Fits a.tasks a.results.length) :
    Fits b.tasks b.results.length := by
  obtain ⟨n, h⟩ := h
  obtain ⟨tasks, results⟩ := a
  cases tasks with
  | nil => cases h
  | cons task tasks =>
    cases task with
    | visit t =>
      obtain ⟨u, -, rfl⟩ := Option.map_eq_some_iff.1 h
      cases u with
      | compound shape children =>
        -- the children bring as many results as are taken to build the compound
        refine (fits_visits children).2 ⟨Nat.le_add_left _ _, ?_⟩
        rwa [Nat.add_sub_cancel]
      | _ => exact ha
    | build shape arity =>
      cases h
      simpa [List.length_drop] using ha.2

theorem Reaches.fits (h : s.Reaches t a) : Fits a.tasks a.results.length := by
  induction h with
  | refl => rfl
  | tail _ hstep ih => exact hstep.fits ih

/-- The results of a walk are at no point fewer than what is taken of them, and the one that is left
in the end is what the walk returns. -/
structure SoundStacks (s : Substitution) (t : Term) : Prop where
  enough : ∀ a shape arity tasks, s.Reaches t a → a.tasks = .build shape arity :: tasks →
    arity ≤ a.results.length
  one_left : ∀ a, s.Reaches t a → a.tasks = [] → ∃ w, a.results = [w]
  returned : ∀ n w, s.walk n t = some w → s.Reaches t ⟨[], [w]⟩

/-- **The results never run out, and one is left in the end**, whatever is bound. -/
theorem stacks_sound (s : Substitution) (t : Term) : SoundStacks s t := by
  have hone : ∀ a, s.Reaches t a → a.tasks = [] → ∃ w, a.results = [w] := by
    intro a ha htasks
    have hfits := ha.fits
    rw [htasks] at hfits
    exact List.length_eq_one_iff.1 hfits
  refine ⟨fun a shape arity tasks ha htasks => ?_, hone, fun n w hw => ?_⟩
  · have hfits := ha.fits
    rw [htasks] at hfits
    exact hfits.1
  · obtain ⟨results, hreach, hhead⟩ := exists_reaches_of_runTasks (a := ⟨[.visit t], []⟩) hw
    obtain ⟨w', rfl⟩ : ∃ w', results = [w'] := hone _ hreach rfl
    cases hhead
    exact hreach

/-! ### Walking by recursion -/

/-- The function follows the bindings: a bound variable becomes what its value becomes, a compound
keeps its shape and has its children replaced in their order, and all else stays. -/
structure FollowsBindings (s : Substitution) (f : Term → Term) : Prop where
  bound : ∀ x t, s.get? x = some t → f (.var x) = f t
  free : ∀ x, s.get? x = none → f (.var x) = .var x
  constant : ∀ c, f (.constant c) = .constant c
  compound : ∀ shape ts, f (.compound shape ts) = .compound shape (ts.map f)
  unassigned : f .unassigned = .unassigned

theorem Acyclic.followsBindings (hs : s.Acyclic) : s.FollowsBindings (Term.subst s.value) where
  bound x t hx := by rw [Term.subst_var, hs.value_bound hx]
  free x hx := by rw [Term.subst_var, value_of_free hx]
  constant := Term.subst_constant
  compound := Term.subst_compound
  unassigned := Term.subst_unassigned

/-- Without cycles there is one such function. -/
theorem FollowsBindings.eq_subst_value (hf : s.FollowsBindings f) (hs : s.Acyclic) :
    f = Term.subst s.value := by
  funext t
  induction t using hs.ind with
  | bound x t hx ih => rw [hf.bound x t hx, ih, hs.followsBindings.bound x t hx]
  | free x hx => rw [hf.free x hx, hs.followsBindings.free x hx]
  | constant c => rw [hf.constant, Term.subst_constant]
  | compound shape ts ih => rw [hf.compound, Term.subst_compound, List.map_congr_left ih]
  | unassigned => rw [hf.unassigned, Term.subst_unassigned]

/-- **Walking is full substitution.**  Without cycles it computes the one function that follows the
bindings, it leaves no bound variable, walking twice is walking once, and walking under more
bindings may begin with a walk under fewer.  The results that it puts together are always there. -/
theorem Acyclic.walk_follows (hs : s.Acyclic) :
    ∃ f : Term → Term, (∀ t, ∀ᶠ n in atTop, s.walk n t = some (f t)) ∧
      s.FollowsBindings f ∧ (∀ g, s.FollowsBindings g → g = f) ∧
      (∀ t x, (f t).Occurs x → s.get? x = none) ∧
      (∀ t, f (f t) = f t) ∧
      (∀ s', s'.Acyclic → s.Extends s' → ∀ t, ∃ w,
        ∀ᶠ n in atTop, s'.walk n (f t) = some w ∧ s'.walk n t = some w) ∧
      ∀ t, SoundStacks s t := by
  refine ⟨Term.subst s.value, fun t => (hs.walks t).eventually_walk, hs.followsBindings,
    fun g hg => hg.eq_subst_value hs, fun t x => hs.free_of_occurs, fun t => ?_,
    fun s' hs' hext t => ⟨t.subst s'.value, ?_⟩, stacks_sound s⟩
  · exact (hs.walks t).subst_value
  · have hagain := (hs'.walks (t.subst s.value)).eventually_walk
    rw [hext.subst_value hs hs'] at hagain
    exact hagain.and (hs'.walks t).eventually_walk

/-- A variable stands by way of another one for a cell with an unbound variable and a compound
without children in it.  When the unbound one is bound as well, it makes no difference whether the
cell is looked up before or after. -/
theorem walk_follows_cell :
    let cell := Term.cons (.var (.fresh 2)) (.compound ⟨"leaf"⟩ [])
    let s := (empty.insert (.fresh 1) cell).insert (.fresh 0) (.var (.fresh 1))
    let s' := s.insert (.fresh 2) .nil
    s.Acyclic ∧ s'.Acyclic ∧ s.Extends s' ∧
      ∃ w, ∀ᶠ n in atTop, s'.walk n cell = some w ∧ s'.walk n (.var (.fresh 0)) = some w := by
  intro cell s s'
  have hcell : (empty.insert (.fresh 1) cell).Acyclic :=
    acyclic_empty.insert get?_empty (by simp [cell, Term.cons])
  have hs : s.Acyclic := by
    refine hcell.insert (by simp [get?_insert]) ?_
    rw [Term.subst_var, hcell.value_bound get?_insert_self]
    simp [cell, Term.cons, get?_insert]
  have hfree : s.get? (.fresh 2) = none := by simp [s, get?_insert]
  have hs' : s'.Acyclic := hs.insert hfree (by simp [Term.nil])
  obtain ⟨f, hf, -, -, -, -, hmore, -⟩ := hs.walk_follows
  have hcellf : f (.var (.fresh 0)) = cell := by
    have hrun : s.walk 9 (.var (.fresh 0)) = some cell := by cbv
    exact Option.some.inj (eventually_unique (hf _) (eventually_walk hrun))
  have hext : s.Extends s' := extends_insert hfree
  exact ⟨hs, hs', hext, hcellf ▸ hmore s' hs' hext (.var (.fresh 0))⟩

end Substitution

end Relational
