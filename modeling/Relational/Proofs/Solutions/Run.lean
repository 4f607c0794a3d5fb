import Relational.Proofs.Search.Effort
import Relational.Proofs.Solutions.StepLimit
import Relational.Proofs.Stream.Take

/-!
# Running a goal for some solutions

`g.run e n` solves the goal and takes `n` solutions, pulling one at a time.  A run for fewer
solutions does what a longer run does first, and stops there: with the same effort its solutions are
the first ones, and its report is how the longer report begins (`Goal.run_of_le`).  Both are the
same with more effort unless something was given up (`Goal.persists_run`), so a run that ends has
all shorter runs end as well (`Goal.BeginsRun`).

`prefix_exact_lazy` joins this to what is known about taking from a stream of any kind
(`Stream.TakesFirst`).
-/

namespace Relational

open Relational.Stream

namespace Solutions

variable {program : Program} {e : Engine} {s : Solutions} {n m : ℕ}

/-! ### Taking solutions -/

/-- What was found and reported before stands in front. -/
theorem takeFrom_eq (e : Engine) (n : ℕ) (found : List Substitution) (reported : Array Event)
    (s : Solutions) : takeFrom e n found reported s =
      ⟨(found.reverse ++ (s.take e n).value.1, (s.take e n).value.2),
        reported ++ (s.take e n).events⟩ := by
  unfold take
  induction n generalizing found reported s with
  | zero => simp [takeFrom]
  | succ n ih =>
    rw [takeFrom, takeFrom]
    obtain ⟨⟨_ | solution, s⟩, events⟩ := s.next e
    · simp
    · dsimp only
      rw [ih, ih [solution]]
      simp

theorem take_zero (e : Engine) (s : Solutions) : s.take e 0 = pure ([], s) := rfl

theorem take_succ (e : Engine) (n : ℕ) (s : Solutions) : s.take e (n + 1) = (do
    match ← s.next e with
    | (some solution, s) =>
      let (found, s) ← s.take e n
      return (solution :: found, s)
    | (none, s) => return ([], s)) := by
  rw [take, takeFrom]
  obtain ⟨⟨_ | solution, s⟩, events⟩ := s.next e
  · exact Logged.ext rfl (by simp)
  · dsimp only
    rw [takeFrom_eq, Array.empty_append]
    refine Logged.ext rfl ?_
    show events ++ (s.take e n).events = events ++ ((s.take e n).events ++ #[])
    rw [Array.append_empty]

/-- Fewer solutions are the first ones of more, and nothing else is done to find them. -/
theorem take_of_le (e : Engine) (hnm : n ≤ m) (s : Solutions) :
    (s.take e n).value.1 = (s.take e m).value.1.take n ∧
      ∃ later, (s.take e m).events = (s.take e n).events ++ later := by
  induction n generalizing m s with
  | zero =>
    rw [take_zero, List.take_zero]
    exact ⟨rfl, _, (Array.empty_append ..).symm⟩
  | succ n ih =>
    obtain ⟨m, rfl⟩ : ∃ l, m = l + 1 := ⟨m - 1, by omega⟩
    rw [take_succ, take_succ]
    obtain ⟨⟨_ | solution, s⟩, events⟩ := s.next e
    · exact ⟨rfl, #[], (Array.append_empty ..).symm⟩
    · obtain ⟨hfound, later, hlater⟩ := ih (Nat.le_of_succ_le_succ hnm) s
      refine ⟨?_, later, ?_⟩
      · show solution :: (s.take e n).value.1 = (solution :: (s.take e m).value.1).take (n + 1)
        rw [List.take_succ_cons, hfound]
      · show events ++ ((s.take e m).events ++ #[]) =
          events ++ ((s.take e n).events ++ #[]) ++ later
        rw [Array.append_empty, Array.append_empty, hlater, Array.append_assoc]

/-! ### The effort -/

/-- Pulling a solution does not depend on the effort, if nothing is given up. -/
theorem persists_next (program : Program) (s : Solutions) :
    Persists (fun event => ¬ event.GivenUp) fun n => s.next ⟨program, n⟩ := by
  intro n m hnm h
  have hlimit : s.limit ⟨program, n⟩ ≤ s.limit ⟨program, m⟩ := by
    unfold limit
    cases s.stepLimit with
    | none => exact hnm
    | some L => exact le_rfl
  rcases exists_ahead_or (Goal.rules ⟨program, n⟩) (s.limit ⟨program, n⟩) s.states with
    ⟨k, hkl, hk⟩ | hfar
  · have hpull := pull_of_ahead hk hkl
    have hreports : (s.states.pull (Goal.rules ⟨program, n⟩) (s.limit ⟨program, n⟩)).CarriedOut :=
      (Logged.reports_bind.1 (Logged.reports_bind.1 h).1).1
    rw [hpull] at hreports
    -- the same suspensions stand in front of the solution with more effort
    have hsame : ∀ i ≤ k, s.states.advance (Goal.rules ⟨program, m⟩) i =
        s.states.advance (Goal.rules ⟨program, n⟩) i := fun i hi =>
      Goal.persists_advance (fun h => h trivial) program i s.states n m hnm fun event hevent =>
        hreports event (reports_subset hi hevent)
    have hafter : ∀ i ≤ k, s.states.after (Goal.rules ⟨program, m⟩) i =
        s.states.after (Goal.rules ⟨program, n⟩) i :=
      fun i hi => congrArg Logged.value (hsame i hi)
    have hk' : s.states.Ahead (Goal.rules ⟨program, m⟩) k :=
      ⟨fun i hi => (hafter i hi.le).symm ▸ hk.1 i hi, (hafter k le_rfl).symm ▸ hk.2⟩
    have hpull' := pull_of_ahead hk' (hkl.trans hlimit)
    have hevents : s.states.reports (Goal.rules ⟨program, m⟩) k =
        s.states.reports (Goal.rules ⟨program, n⟩) k :=
      congrArg Logged.events (hsame k le_rfl)
    rw [hafter k le_rfl, hevents] at hpull'
    simp only [next, tryNext, hpull, hpull']
    rcases cons_or_empty hk.2 with ⟨st, left, hcons⟩ | hend
    · rw [hcons]
      rfl
    · rw [hend]
      rfl
  · -- the limit was met, and giving up the search is reported
    have hgiven := (Logged.reports_bind.1 h).2
    rw [tryNext_of_suspended hfar] at hgiven
    exact (Logged.reports_report.1 (Logged.reports_bind.1 hgiven).1 trivial).elim

theorem persists_take (program : Program) (k : ℕ) (s : Solutions) :
    Persists (fun event => ¬ event.GivenUp) fun n => s.take ⟨program, n⟩ k := by
  induction k generalizing s with
  | zero => exact fun _ _ _ _ => rfl
  | succ k ih =>
    simp only [take_succ]
    refine (persists_next program s).bind fun found => ?_
    obtain ⟨_ | solution, s⟩ := found
    · exact .const _
    · exact (ih s).bind fun rest => .const _

end Solutions

namespace Goal

variable {program : Program} {g : Goal} {n m : ℕ}

theorem run_of_le (e : Engine) (g : Goal) (hnm : n ≤ m) :
    (g.run e n).value = (g.run e m).value.take n ∧
      ∃ later, (g.run e m).events = (g.run e n).events ++ later := by
  obtain ⟨hfound, later, hlater⟩ := Solutions.take_of_le e hnm (g.solve e).value
  refine ⟨hfound, later, ?_⟩
  show (g.solve e).events ++ (((g.solve e).value.take e m).events ++ #[]) =
    (g.solve e).events ++ (((g.solve e).value.take e n).events ++ #[]) ++ later
  rw [Array.append_empty, Array.append_empty, hlater, Array.append_assoc]

/-- Running a goal does not depend on the effort, if nothing is given up. -/
theorem persists_run (program : Program) (g : Goal) (k : ℕ) :
    Persists (fun event => ¬ event.GivenUp) fun n => g.run ⟨program, n⟩ k := by
  have happly : Persists (fun event => ¬ event.GivenUp) fun n => g.solve ⟨program, n⟩ :=
    (persists_apply (fun h => h trivial) program g .none (.start {})).bind fun states => .const _
  exact happly.bind fun s => (Solutions.persists_take program k s).bind fun rest => .const _

/-- A run for `n` solutions is how a run for `m` solutions begins. -/
structure BeginsRun (program : Program) (g : Goal) (n m : ℕ) : Prop where
  /-- The solutions are the first ones, whatever the effort. -/
  first : ∀ effort, (g.run ⟨program, effort⟩ n).value = (g.run ⟨program, effort⟩ m).value.take n
  /-- If the run for `m` solutions comes to an end, then the other one does. -/
  ends : ∀ r, ComesTo (fun effort => g.run ⟨program, effort⟩ m) r →
    ∃ r', ComesTo (fun effort => g.run ⟨program, effort⟩ n) r' ∧ r'.value = r.value.take n ∧
      ∃ later, r.events = r'.events ++ later

theorem beginsRun (program : Program) (g : Goal) (hnm : n ≤ m) : BeginsRun program g n m where
  first := fun effort => (run_of_le ⟨program, effort⟩ g hnm).1
  ends := by
    rintro r ⟨hr, hcarried⟩
    obtain ⟨effort, rfl⟩ := hr.exists
    obtain ⟨hfound, later, hlater⟩ := run_of_le ⟨program, effort⟩ g hnm
    refine ⟨g.run ⟨program, effort⟩ n, (persists_run program g n).comesTo ?_, hfound, later, hlater⟩
    intro event hevent
    exact hcarried event (hlater ▸ Array.mem_append.2 (.inl hevent))

end Goal

/-- **Taking a prefix is exact and lazy**, for every stream; and a run of a goal for fewer solutions
is how a longer run begins. -/
theorem prefix_exact_lazy :
    (∀ (ι κ ε α : Type) (rules : Stream.Rules ι κ ε α) (s : Stream ι κ α) (n : ℕ),
      s.TakesFirst rules n) ∧
    ∀ (program : Program) (g : Goal) (n m : ℕ), n ≤ m → g.BeginsRun program n m :=
  ⟨fun _ _ _ _ rules s n => takesFirst rules s n, fun program g _ _ h => g.beginsRun program h⟩

/-- Two numbers are taken from all of them, although behind the second one there is a suspension
that yields itself, and one of these two; and the first of the solutions of a goal that is found out
again and again. -/
theorem prefix_exact_lazy_naturals :
    let next (n : ℕ) : Logged Unit (Stream ℕ Unit ℕ) := .silent (cons n (suspend (.unfold (n + 1))))
    let stuck (n : ℕ) : Logged Unit (Stream ℕ Unit ℕ) := .silent (suspend (.unfold n))
    let numbers : Stream ℕ Unit ℕ := suspend (.unfold 0)
    let program : Program := fun _ => none
    (∀ limit ≥ 2, (numbers.take ⟨fun n => if n < 2 then next n else stuck n, fun _ => next⟩
      limit 2).value = some (ofList [0, 1])) ∧
    (ofList [0, 1] : Stream ℕ Unit ℕ).take ⟨next, fun _ => next⟩ 0 1 = pure (some (ofList [0])) ∧
    1 ≤ 2 ∧ ∃ r, ComesTo (fun effort => Goal.alwayso.run ⟨program, effort⟩ 1) r ∧
      r.value = [.empty] := by
  intro next stuck numbers program
  refine ⟨fun limit hlimit => ?_, ?_, by decide, ?_⟩
  · have hiterates : numbers.Iterates ⟨next, fun _ => next⟩ [some 0, some 1] :=
      .force (.item (.force (.item (.nil _))))
    obtain ⟨k, hk, htake⟩ := (prefix_exact_lazy.1 ℕ Unit Unit ℕ ⟨next, fun _ => next⟩ numbers
      2).reached [0, 1] (.inl ⟨rfl, hiterates⟩)
    have hle : k ≤ 2 := by
      by_contra hlt
      exact absurd (hk.needed 2 (by omega)).2 (by decide)
    have hsame := htake limit (hle.trans hlimit)
      ⟨fun n => if n < 2 then next n else stuck n, fun _ => next⟩ fun i hi => by
        obtain rfl | rfl | rfl : i = 0 ∨ i = 1 ∨ i = 2 := by omega
        · rfl
        · rfl
        · rfl
    exact congrArg Logged.value hsame
  · have htwo : (numbers.take ⟨next, fun _ => next⟩ 2 2).value = some (ofList [0, 1]) := rfl
    exact (prefix_exact_lazy.1 ℕ Unit Unit ℕ ⟨next, fun _ => next⟩ numbers 1).again 2 2 _ htwo 0
  · have hrun : Goal.alwayso.run ⟨program, 3⟩ 2 = ⟨[.empty, .empty], #[.pulled 1, .pulled 2]⟩ := by
      cbv
    have hcarried : (Goal.alwayso.run ⟨program, 3⟩ 2).CarriedOut := by
      rw [hrun]
      simp [Logged.CarriedOut, Logged.Reports, Event.GivenUp]
    have hends := (Goal.persists_run program .alwayso 2).comesTo hcarried
    obtain ⟨r, hr, hvalue, -⟩ :=
      (prefix_exact_lazy.2 program .alwayso 1 2 (by decide)).ends _ hends
    exact ⟨r, hr, by rw [hvalue, hrun]; rfl⟩

end Relational
