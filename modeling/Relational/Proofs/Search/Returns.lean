import Relational.Proofs.Search.Branch
import Relational.Proofs.Stream.Pull
import Relational.Proofs.Substitution.Closing

/-!
# Searches that do not get stuck

`Finishes f` says that a computation comes to an end with enough effort: its value and its reports
do not depend on the effort any more, and no report says that a unification was given up.

With the occurs check a search stays where no variable is a part of its own value
(`stable_checked`).  There every unification ends, so every goal is applied in the end
(`Goal.finishes_apply`), and every suspension is forced in the end (`finishes_force`): a relation is
opened behind a suspension, so what is done at once is bounded by the goal as it is written, and by
the heads of the streams that its parts have made.  Such a search can be followed behind any number
of suspensions (`returns_of_checked`).
-/

namespace Relational

open Filter
open Relational.Stream

/-- A report that can be put into words, and does not say that a unification was given up or that a
variable was to be bound twice. -/
def Event.Told : Event → Prop
  | .refused .unfinished => False
  | .refused (.alreadyBound _) => False
  | .applied _ arguments under =>
    ∀ argument ∈ arguments, ∃ w, ∀ᶠ n in atTop, under.reifyTerm n argument.2 = some w
  | _ => True

/-- With enough effort the computation comes to an end. -/
def Finishes {α : Type} (f : ℕ → Logged Event α) : Prop :=
  ∃ r, (∀ᶠ n in atTop, f n = r) ∧ ∀ event ∈ r.events, event.Told

namespace Finishes

variable {α β ι κ : Type} {f : ℕ → Logged Event α} {g : ℕ → α → Logged Event β}

theorem pure (a : α) : Finishes fun _ => (Pure.pure a : Logged Event α) :=
  ⟨_, .of_forall fun _ => rfl, by simp⟩

theorem report {event : Event} (h : event.Told) : Finishes fun _ => Logged.report event :=
  ⟨_, .of_forall fun _ => rfl, by simpa [Logged.report] using h⟩

/-- What is done one after the other comes to an end if each part does.  The second part may count
on its argument being what the first part comes to. -/
theorem bind (hf : Finishes f)
    (hg : ∀ a, (∀ᶠ n in atTop, (f n).value = a) → Finishes fun n => g n a) :
    Finishes fun n => f n >>= g n := by
  obtain ⟨r, hr, htold⟩ := hf
  obtain ⟨r', hr', htold'⟩ := hg r.value (hr.mono fun n hn => by rw [hn])
  refine ⟨⟨r'.value, r.events ++ r'.events⟩, ?_, ?_⟩
  · filter_upwards [hr, hr'] with n hn hn'
    rw [hn]
    exact Logged.ext (by rw [Logged.value_bind, hn']) (by rw [Logged.events_bind, hn'])
  · intro event hevent
    exact (Array.mem_append.1 hevent).elim (htold event) (htold' event)

theorem bindWith {f : ℕ → α → Logged Event (Stream ι κ α)} {s : Stream ι κ α} (continuation : κ)
    (h : ∀ x ∈ s.heads, Finishes fun n => f n x) :
    Finishes fun n => s.bindWith continuation (f n) := by
  simp only [bindWith_eq_foldr]
  generalize s.heads = heads at h
  induction heads with
  | nil => exact .pure _
  | cons x heads ih =>
    obtain ⟨hx, hheads⟩ := List.forall_mem_cons.1 h
    exact (ih hheads).bind fun others _ => hx.bind fun items _ => .pure _

end Finishes

namespace Suspension

variable {ι κ α : Type}

/-- The suspension `q` stands in `p`: it is `p`, or it will be forced for `p`, or it stands in a
stream that `p` has at hand. -/
inductive Inside : Suspension ι κ α → Suspension ι κ α → Prop
  | self (p : Suspension ι κ α) : Inside p p
  | yield {q p : Suspension ι κ α} {s : Stream ι κ α} : s.rest = some p → Inside q p →
      Inside q (.yield s)
  | other {q p turn : Suspension ι κ α} {s : Stream ι κ α} : s.rest = some p → Inside q p →
      Inside q (.swap s turn)
  | turn {q turn : Suspension ι κ α} (s : Stream ι κ α) : Inside q turn → Inside q (.swap s turn)
  | source {q source : Suspension ι κ α} (continuation : κ) : Inside q source →
      Inside q (.bind source continuation)

end Suspension

/-- The occurs check is on, and no variable is a part of its own value. -/
structure State.Checked (st : State) : Prop where
  config : st.config.occursCheck = true
  acyclic : st.substitution.Acyclic

namespace State

variable {st st' : State} {u v : Term}

theorem Checked.unify (h : st.Checked) (u v : Term) : Finishes fun n => st.unify n u v := by
  obtain ⟨outcome, hu⟩ := h.acyclic.exists_unifies [(u, v)]
  rw [← h.config] at hu
  cases outcome with
  | ok s =>
    refine ⟨Pure.pure (some (st.withSubstitution s)), ?_, by simp⟩
    filter_upwards [hu.eventually_unifyAll] with n hn
    rw [State.unify, Substitution.unify, hn]
  | error refusal =>
    have htold : (Event.refused refusal).Told := by
      obtain ⟨a, b, rfl⟩ | ⟨-, x, w, rfl⟩ := hu.refusal_cases
      · trivial
      · trivial
    refine ⟨⟨none, #[.refused refusal]⟩, ?_, by simpa using htold⟩
    filter_upwards [hu.eventually_unifyAll] with n hn
    rw [State.unify, Substitution.unify, hn]
    rfl

theorem finishes_freshVar (st : State) : Finishes fun _ => st.freshVar := by
  have htold : (Event.introduced (.fresh st.nextId)).Told := trivial
  exact (Finishes.report htold).bind fun _ _ => .pure _

theorem Checked.freshVar (h : st.Checked) : st.freshVar.value.2.Checked := ⟨h.config, h.acyclic⟩

/-- On a state with the occurs check and no cycle everything that follows bindings ends. -/
theorem Checked.reports (h : st.Checked) (relation : String) (arguments : List (String × Term)) :
    (Event.applied relation arguments st.substitution).Told :=
  fun argument _ => ⟨_, h.acyclic.eventually_reifyTerm argument.2⟩

end State

namespace Goal

variable {program : Program} {e : Engine} {g : Goal} {l : Locals} {st : State}
  {a : States} {p q : Suspension Pending Closure State} {k : ℕ}

/-- The branch has a checked state, whatever is still to be done. -/
def KeepsChecked (_ : List Closure) (st : State) : Prop := st.Checked

/-- A step keeps the check, and makes no cycle. -/
theorem stable_checked (program : Program) : Stable program KeepsChecked := by
  intro c todo st parts st' hst ho
  refine ⟨ho.kept.config ▸ hst.config, ?_⟩
  cases ho with
  | eq hu =>
    rw [hst.config] at hu
    exact hu.acyclic hst.acyclic
  | _ => exact hst.acyclic

/-- Every state that the stream carries is checked. -/
def States.Checked (a : States) : Prop := ∀ todo st, Carries a todo st → st.Checked

theorem States.Checked.heads (h : States.Checked a) : ∀ st ∈ a.heads, st.Checked :=
  fun st hst => h [] st (.head hst)

theorem States.Checked.tail (h : States.Checked (.cons st a)) : States.Checked a := by
  intro todo st' hc
  cases hc with
  | head hst => exact h.heads st' (List.mem_cons_of_mem st hst)
  | rest hp hk => exact h todo st' (.rest hp hk)

theorem checked_apply (h : st.Checked) (e : Engine) (g : Goal) (l : Locals) :
    States.Checked (g.apply e l st).value := by
  intro todo st' hc
  have hR : Stable e.program KeepsChecked := stable_checked e.program
  have hstart : KeepsChecked [⟨l, g⟩] st := h
  exact hR.carries_apply hstart hc

theorem checked_force (h : ∀ todo st, Keeps p todo st → st.Checked) (e : Engine) :
    States.Checked (p.force (rules e)).value := by
  intro todo st hc
  have hR : Stable e.program KeepsChecked := stable_checked e.program
  have hp : ∀ {todo st}, Keeps p todo st → KeepsChecked (todo ++ []) st := fun hk => h _ _ hk
  exact hR.carries_force hp hc

theorem States.Checked.after (h : States.Checked a) (e : Engine) (k : ℕ) :
    States.Checked (a.after (rules e) k) := by
  intro todo st hc
  have hR : Stable e.program KeepsChecked := stable_checked e.program
  have ha : ∀ {todo st}, Carries a todo st → KeepsChecked todo st := fun ha => h _ _ ha
  exact hR.carries_after k ha hc

/-! ### Following a search -/

/-- What is left of a search behind `k` suspensions, when the goal has been applied and these have
been forced. -/
def searched (e : Engine) (g : Goal) (l : Locals) (st : State) (k : ℕ) : Logged Event States := do
  let s ← g.apply e l st
  s.advance (rules e) k

/-- Applying the goal ends, and so does forcing the first `k` suspensions of the search. -/
def Returns (program : Program) (l : Locals) (st : State) (k : ℕ) (g : Goal) : Prop :=
  Finishes fun n => g.searched ⟨program, n⟩ l st k

/-- The search can be followed behind `k` suspensions, and `st'` is there. -/
def Shows (program : Program) (g : Goal) (l : Locals) (st : State) (k : ℕ) (st' : State) : Prop :=
  ∃ r, (∀ᶠ n in atTop, g.searched ⟨program, n⟩ l st k = r) ∧ (∀ event ∈ r.events, event.Told) ∧
    st' ∈ r.value.heads

/-! ### Applying goals and forcing suspensions -/

/-- **Every goal is applied in the end**: by the goal as it is written, and not by what a search
makes of it. -/
theorem finishes_apply (program : Program) (g : Goal) (l : Locals) (hst : st.Checked) :
    Finishes fun n => g.apply ⟨program, n⟩ l st := by
  induction g generalizing l st with
  | eq u v => exact (hst.unify _ _).bind fun found _ => .pure _
  | succeed => exact .pure _
  | fail => exact .pure _
  | either g h ihg ihh => exact (ihg l hst).bind fun a _ => (ihh l hst).bind fun b _ => .pure _
  | both g h ihg ihh =>
    refine (ihg l hst).bind fun a ha => .bindWith _ fun mid hmid => ihh l ?_
    -- a head of the first side is a checked state, with whatever effort it was found
    obtain ⟨n, rfl⟩ := ha.exists
    exact (checked_apply hst ⟨program, n⟩ g l).heads mid hmid
  | fresh name g ih =>
    refine st.finishes_freshVar.bind fun found hfound => ?_
    obtain ⟨_, rfl⟩ := hfound.exists
    exact ih _ hst.freshVar
  | given name t g ih => exact ih _ hst
  | deferred make ih => exact ih () l hst
  | delayed g _ => exact .pure _
  | nevero => exact .pure _
  | alwayso => exact .pure _
  | call relation arguments =>
    simp only [Goal.apply]
    cases program relation with
    | none => exact .pure _
    | some r =>
      dsimp only
      split_ifs
      · exact (Finishes.report (hst.reports _ _)).bind fun _ _ => .pure _
      · exact .pure _

/-- **Every suspension is forced in the end.** -/
theorem finishes_force (program : Program) (h : ∀ todo st, Keeps p todo st → st.Checked) :
    Finishes fun n => p.force (rules ⟨program, n⟩) := by
  induction p using Suspension.force.induct with
  | case1 seed => exact finishes_apply program seed.goal seed.locals (h _ _ (.unfold seed))
  | case2 s => exact .pure s
  | case3 other turn ih =>
    simp only [Suspension.force]
    exact (ih fun _ _ hk => h _ _ (.turn hk)).bind fun s _ => .pure _
  | case4 source c ih =>
    simp only [Suspension.force]
    have hsource : ∀ todo st, Keeps source todo st → st.Checked := fun _ _ hk => h _ _ (.bind hk)
    refine (ih hsource).bind fun s hs => .bindWith c fun mid hmid => ?_
    obtain ⟨n, rfl⟩ := hs.exists
    exact finishes_apply program c.goal c.locals
      ((checked_force hsource ⟨program, n⟩).heads mid hmid)

theorem States.Checked.finishes_advance (h : States.Checked a) (program : Program) (k : ℕ) :
    Finishes fun n => a.advance (rules ⟨program, n⟩) k := by
  induction k generalizing a with
  | zero => exact .pure a
  | succ k ih =>
    cases ha : a.rest with
    | none =>
      simp only [advance_of_ended ha]
      exact .pure _
    | some p =>
      have hp : ∀ todo st, Keeps p todo st → st.Checked := fun _ _ hk => h _ _ (.rest ha hk)
      simp only [advance_of_suspended ha]
      refine (finishes_force program hp).bind fun s hs => ih ?_
      obtain ⟨n, rfl⟩ := hs.exists
      exact checked_force hp ⟨program, n⟩

/-- **A search with the occurs check can be followed** behind any number of suspensions. -/
theorem returns_of_checked (program : Program) (g : Goal) (l : Locals) (hst : st.Checked) (k : ℕ) :
    g.Returns program l st k := by
  refine (finishes_apply program g l hst).bind fun a ha => ?_
  obtain ⟨n, rfl⟩ := ha.exists
  exact (checked_apply hst ⟨program, n⟩ g l).finishes_advance program k

/-- Every layer of a checked stream is there with enough effort. -/
theorem States.Checked.exists_after (h : States.Checked a) (program : Program) (k : ℕ) :
    ∃ s, (∀ᶠ n in atTop, a.after (rules ⟨program, n⟩) k = s) ∧ States.Checked s := by
  refine ⟨_, (settles_rules program).eventually_after k a, ?_⟩
  obtain ⟨n, hn⟩ := ((settles_rules program).eventually_after k a).exists
  rw [← hn]
  exact h.after ⟨program, n⟩ k

/-! ### The suspensions in a stream -/

/-- What is kept by a suspension inside of another one is kept by that one. -/
theorem exists_keeps_of_inside (hq : q.Inside p) (h : Keeps q todo st) :
    ∃ todo, Keeps p todo st := by
  induction hq with
  | self => exact ⟨todo, h⟩
  | yield hs _ ih =>
    obtain ⟨todo, hk⟩ := ih
    exact ⟨todo, .yield (.rest hs hk)⟩
  | other hs _ ih =>
    obtain ⟨todo, hk⟩ := ih
    exact ⟨todo, .other (.rest hs hk)⟩
  | turn s _ ih =>
    obtain ⟨todo, hk⟩ := ih
    exact ⟨todo, .turn hk⟩
  | source c _ ih =>
    obtain ⟨todo, hk⟩ := ih
    exact ⟨todo ++ [c], .bind hk⟩

theorem States.Checked.finishes_force (h : States.Checked a) (program : Program)
    (hp : a.rest = some p) (hq : q.Inside p) : Finishes fun n => q.force (rules ⟨program, n⟩) := by
  refine Goal.finishes_force program fun todo st hk => ?_
  obtain ⟨todo, hk⟩ := exists_keeps_of_inside hq hk
  exact h todo st (.rest hp hk)

end Goal

end Relational
