import Relational.Proofs.Search.Returns
import Relational.Proofs.Solutions.StepLimit

/-!
# Pulling with a step limit returns

A pull with a step limit forces at most so many suspensions, and with the occurs check each of them
is forced in the end.  So a call of `tryNext` ends, and what it leaves behind is a search of the
same kind (`Bounded.finishes_tryNext`, `Bounded.tryNext`); however the search has been asked before,
the next call ends as well (`Goal.bounded_search_returns`).
-/

namespace Relational

open Filter
open Relational.Stream

/-- Everything that follows the bindings of the substitution ends. -/
structure Substitution.Readable (s : Substitution) : Prop where
  acyclic : s.Acyclic
  walk : ∀ t, ∃ w, ∀ᶠ n in atTop, s.walk n t = some w
  reifyTerm : ∀ t, ∃ w, ∀ᶠ n in atTop, s.reifyTerm n t = some w
  reifyAll : ∃ r, ∀ᶠ n in atTop, s.reifyAll n = some r

theorem Substitution.Acyclic.readable {s : Substitution} (hs : s.Acyclic) : s.Readable :=
  ⟨hs, fun t => ⟨_, (hs.walks t).eventually_walk⟩, fun t => ⟨_, hs.eventually_reifyTerm t⟩,
    _, hs.eventually_reifyAll⟩

namespace Goal

variable {a : States} {limit : ℕ}

/-- The reports of the suspensions are gathered behind those that were there before. -/
theorem finishes_realizeFrom (program : Program) (limit : ℕ) (reported : Array Event)
    (htold : ∀ event ∈ reported, event.Told) (ha : States.Checked a) :
    Finishes fun n => a.realizeFrom (rules ⟨program, n⟩) limit reported := by
  induction limit generalizing a reported with
  | zero => exact ⟨⟨a, reported⟩, .of_forall fun n => by simp [realizeFrom], htold⟩
  | succ limit ih =>
    cases a with
    | suspend p =>
      have hp : ∀ todo st, Keeps p todo st → st.Checked :=
        fun todo st hk => ha todo st (.rest rfl hk)
      obtain ⟨next, hnext, htold'⟩ := finishes_force program hp
      obtain ⟨n, hn⟩ := hnext.exists
      have hchecked : States.Checked next.value := hn ▸ checked_force hp ⟨program, n⟩
      have hall : ∀ event ∈ reported ++ next.events, event.Told := fun event hevent =>
        (Array.mem_append.1 hevent).elim (htold event) (htold' event)
      obtain ⟨r, hr, htold''⟩ := ih _ hall hchecked
      refine ⟨r, ?_, htold''⟩
      filter_upwards [hnext, hr] with n hn hr
      rw [realizeFrom, hn, hr]
    | empty => exact ⟨⟨.empty, reported⟩, .of_forall fun n => by simp [realizeFrom], htold⟩
    | cons st d => exact ⟨⟨.cons st d, reported⟩, .of_forall fun n => by simp [realizeFrom], htold⟩

theorem finishes_pull (program : Program) (limit : ℕ) (ha : States.Checked a) :
    Finishes fun n => a.pull (rules ⟨program, n⟩) limit := by
  obtain ⟨r, hr, htold⟩ := finishes_realizeFrom program limit #[] (by simp) ha
  refine ⟨⟨r.value.front, r.events⟩, ?_, htold⟩
  filter_upwards [hr] with n hn
  simp only [pull, realize, hn]

end Goal

namespace Solutions

/-- A search with the occurs check and the step limit `L`. -/
structure Bounded (L : ℕ) (s : Solutions) : Prop where
  states : Goal.States.Checked s.states
  stepLimit : s.stepLimit = some L

/-- A solution, or that there are no more, or that the step limit `L` was met. -/
def Answers (L : ℕ) (r : Except Error (Option Substitution)) : Prop :=
  (∃ found, r = .ok (some found) ∧ found.Readable) ∨ r = .ok none ∨
    r = .error (.stepLimitExceeded L)

variable {L : ℕ} {s : Solutions}

theorem Bounded.limit_eq (h : s.Bounded L) (e : Engine) : s.limit e = L := by
  rw [limit, h.stepLimit, Option.getD_some]

theorem bounded_of_empty (h : s.states = .empty) (hL : s.stepLimit = some L) : s.Bounded L := by
  refine ⟨fun todo st hc => ?_, hL⟩
  rw [h] at hc
  exact (Goal.not_carries_empty hc).elim

/-- A call answers what it should, and leaves a search of the same kind. -/
theorem Bounded.tryNext (h : s.Bounded L) (e : Engine) :
    Answers L (s.tryNext e).value.1 ∧ (s.tryNext e).value.2.Bounded L := by
  rcases tryNext_cases e s with ⟨k, -, hk, hland⟩ | ⟨-, hmiss⟩
  · have hafter := h.states.after e k
    rw [hland]
    rcases land_cases s _ hk.2 with ⟨st, left, hcons, hitem⟩ | ⟨-, hend⟩
    · rw [hcons] at hafter
      have hst : st.Checked := hafter.heads st List.mem_cons_self
      rw [hitem]
      exact ⟨.inl ⟨_, rfl, hst.acyclic.readable⟩, hafter.tail, h.stepLimit⟩
    · rw [hend]
      exact ⟨.inr (.inl rfl), bounded_of_empty rfl h.stepLimit⟩
  · rw [hmiss, h.limit_eq]
    exact ⟨.inr (.inr rfl), h.states.after e _, h.stepLimit⟩

/-- **A call with a step limit ends.** -/
theorem Bounded.finishes_tryNext (h : s.Bounded L) (program : Program) :
    Finishes fun n => s.tryNext ⟨program, n⟩ := by
  simp only [Solutions.tryNext, h.limit_eq]
  refine (Goal.finishes_pull program L h.states).bind fun pulled _ => ?_
  cases pulled with
  | item st states =>
    have htold : (Event.pulled (s.pulled + 1)).Told := trivial
    exact (Finishes.report htold).bind fun _ _ => .pure _
  | ended => exact .pure _
  | suspended states => exact .pure _

/-- Giving up a search ends as well. -/
theorem Bounded.finishes_next (h : s.Bounded L) (program : Program) :
    Finishes fun n => s.next ⟨program, n⟩ := by
  refine (h.finishes_tryNext program).bind fun answer _ => ?_
  obtain ⟨error | found, s'⟩ := answer
  · have htold : (Event.abandoned error s'.pulled).Told := trivial
    exact (Finishes.report htold).bind fun _ _ => .pure _
  · exact .pure _

theorem Bounded.ask (h : s.Bounded L) (e : Engine) (a : Ask) : (s.ask e a).2.Bounded L := by
  have htry := (h.tryNext e).2
  cases a with
  | tryNext => exact htry
  | next =>
    rw [Solutions.ask, next, Logged.value_bind]
    generalize (s.tryNext e).value = answer at htry ⊢
    obtain ⟨error | found, s'⟩ := answer
    · exact bounded_of_empty rfl htry.stepLimit
    · exact htry

theorem Bounded.exists_ask (h : s.Bounded L) (program : Program) (a : Ask) :
    ∃ r, ∀ᶠ n in atTop, s.ask ⟨program, n⟩ a = r := by
  cases a with
  | tryNext =>
    obtain ⟨r, hr, -⟩ := h.finishes_tryNext program
    exact ⟨r.value, hr.mono fun n hn => congrArg Logged.value hn⟩
  | next =>
    obtain ⟨r, hr, -⟩ := h.finishes_next program
    refine ⟨(.ok r.value.1, r.value.2), ?_⟩
    filter_upwards [hr] with n hn
    rw [Solutions.ask, hn]

/-- However a search is asked, it comes to a search of the same kind. -/
theorem Bounded.exists_asks (h : s.Bounded L) (program : Program) (as : List Ask) :
    ∃ r, (∀ᶠ n in atTop, asks ⟨program, n⟩ as s = r) ∧ r.2.Bounded L := by
  induction as generalizing s with
  | nil => exact ⟨([], s), .of_forall fun n => rfl, h⟩
  | cons a as ih =>
    obtain ⟨step, hstep⟩ := h.exists_ask program a
    obtain ⟨n, hn⟩ := hstep.exists
    obtain ⟨rest, hrest, hbounded⟩ := ih (hn ▸ h.ask ⟨program, n⟩ a)
    refine ⟨(step.1 :: rest.1, rest.2), ?_, hbounded⟩
    filter_upwards [hstep, hrest] with n hn hn'
    rw [asks, hn, hn']

end Solutions

namespace Goal

open Solutions

/-- Whatever is done in a search for `g` with the occurs check and the step limit `L` ends. -/
structure AlwaysReturns (program : Program) (g : Goal) (L : ℕ) : Prop where
  /-- Applying the goal ends. -/
  applied : Finishes fun n => g.apply ⟨program, n⟩ .none (.start ⟨true, some L⟩)
  /-- Forcing any suspension ends that stands in the stream, behind however many others. -/
  forced : ∀ k, ∃ s : States,
    (∀ᶠ n in atTop, (g.apply ⟨program, n⟩ .none (.start ⟨true, some L⟩)).value.after
      (rules ⟨program, n⟩) k = s) ∧
    ∀ p q : Suspension Pending Closure State, s.rest = some p → q.Inside p →
      Finishes fun n => q.force (rules ⟨program, n⟩)
  /-- However the search has been asked before, the next call of `tryNext` ends with a solution,
  the end, or the report that the limit was met. -/
  pulled : ∀ before : List Ask, ∃ r,
    (∀ᶠ n in atTop, asks ⟨program, n⟩ before (g.solveWith ⟨program, n⟩ ⟨true, some L⟩).value = r) ∧
    (Finishes fun n => r.2.tryNext ⟨program, n⟩) ∧
    ∀ n, Answers L (r.2.tryNext ⟨program, n⟩).value.1
  /-- On every state that is yielded everything that follows its bindings ends. -/
  yielded : ∀ n k st, (g.apply ⟨program, n⟩ .none (.start ⟨true, some L⟩)).value.Yields
    (rules ⟨program, n⟩) k st → st.substitution.Readable

/-- **A bounded pull always returns.** -/
theorem bounded_search_returns (program : Program) (g : Goal) (L : ℕ) :
    AlwaysReturns program g L := by
  have hstart : (State.start ⟨true, some L⟩).Checked := ⟨rfl, Substitution.acyclic_empty⟩
  have hchecked : ∀ n, States.Checked (g.apply ⟨program, n⟩ .none (.start ⟨true, some L⟩)).value :=
    fun n => checked_apply hstart ⟨program, n⟩ g .none
  have happly := finishes_apply program g .none hstart
  obtain ⟨r, hr, -⟩ := id happly
  have hrchecked : States.Checked r.value := by
    obtain ⟨n, hn⟩ := hr.exists
    exact hn ▸ hchecked n
  refine ⟨happly, fun k => ?_, fun before => ?_, fun n k st hst => ?_⟩
  · obtain ⟨s, hs, hschecked⟩ := hrchecked.exists_after program k
    refine ⟨s, ?_, fun p q hp hq => hschecked.finishes_force program hp hq⟩
    filter_upwards [hr, hs] with n hn hn'
    rw [hn, hn']
  · have hbounded : (ofStates r.value (some L)).Bounded L := ⟨hrchecked, rfl⟩
    obtain ⟨r', hr', hbounded'⟩ := hbounded.exists_asks program before
    refine ⟨r', ?_, hbounded'.finishes_tryNext program, fun n => (hbounded'.tryNext _).1⟩
    filter_upwards [hr, hr'] with n hn hn'
    rw [solveWith, Logged.value_bind, hn]
    exact hn'
  · exact (((hchecked n).after ⟨program, n⟩ k).heads st hst).acyclic.readable

end Goal

end Relational
