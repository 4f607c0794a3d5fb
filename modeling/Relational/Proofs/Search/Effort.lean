import Relational.Proofs.Stream.Exhaustion
import Relational.Proofs.Stream.Pull
import Relational.Proofs.Substitution.Effort
import Relational.Goal.Basic

/-!
# Effort does not change what a search does

Unifications and pulls without a limit of their own are given an effort.  What lacks effort is given
up, and that is reported (`Event.GivenUp`).  A computation in which nothing is given up is the same
with every larger effort (`Persists`): applying a goal is of this kind, and so is forcing a
suspension, and with them every number of suspensions (`Goal.persists_apply`,
`Goal.persists_force`, `Goal.persists_advance`).

So `ComesTo f r` says that the computation `f` ends with `r`, without regard to an effort; finding
one effort with which nothing is given up is enough (`Persists.comesTo`).
-/

namespace Relational

open Filter
open Relational.Stream

/-- The report says that something was given up for lack of effort. -/
def Event.GivenUp : Event → Prop
  | .refused .unfinished => True
  | .abandoned .. => True
  | _ => False

/-- Nothing was given up in the computation. -/
def Logged.CarriedOut {α : Type} (a : Logged Event α) : Prop :=
  a.Reports fun event => ¬ event.GivenUp

/-- With enough effort the computation comes to `r`, and nothing in it is given up. -/
def ComesTo {α : Type} (f : ℕ → Logged Event α) (r : Logged Event α) : Prop :=
  (∀ᶠ n in atTop, f n = r) ∧ r.CarriedOut

/-- If all reports are good, the computation is the same with more effort. -/
def Persists {α : Type} (good : Event → Prop) (f : ℕ → Logged Event α) : Prop :=
  ∀ n m, n ≤ m → (f n).Reports good → f m = f n

namespace Persists

variable {ι κ α β : Type} {good : Event → Prop} {f : ℕ → Logged Event α}
  {g : ℕ → α → Logged Event β} {n : ℕ}

theorem const (a : Logged Event α) : Persists good fun _ => a := fun _ _ _ _ => rfl

theorem bind (hf : Persists good f) (hg : ∀ a, Persists good fun n => g n a) :
    Persists good fun n => f n >>= g n := by
  intro n m hnm h
  obtain ⟨hfn, hgn⟩ := Logged.reports_bind.1 h
  have hgm : g m (f n).value = g n (f n).value := hg _ n m hnm hgn
  show f m >>= g m = f n >>= g n
  rw [hf n m hnm hfn]
  exact congrArg (fun b : Logged Event β => (⟨b.value, (f n).events ++ b.events⟩ : Logged Event β))
    hgm

theorem bindWith {f : ℕ → α → Logged Event (Stream ι κ α)}
    (h : ∀ x, Persists good fun n => f n x) (c : κ) (s : Stream ι κ α) :
    Persists good fun n => s.bindWith c (f n) := by
  simp only [bindWith_eq_foldr]
  induction s.heads with
  | nil => exact .const _
  | cons x heads ih => exact ih.bind fun others => (h x).bind fun items => .const _

theorem comesTo (hf : Persists (fun event => ¬ event.GivenUp) f) (h : (f n).CarriedOut) :
    ComesTo f (f n) :=
  ⟨eventually_atTop.2 ⟨n, fun m hnm => hf n m hnm h⟩, h⟩

end Persists

section Good

variable {good : Event → Prop} (hgood : ¬ good (.refused .unfinished))

include hgood

theorem State.persists_unify (st : State) (u v : Term) :
    Persists good fun n => st.unify n u v := by
  intro n m hnm h
  -- any answer but this one is the answer with more effort as well
  have hne : st.substitution.unify st.config.occursCheck n u v ≠ .error .unfinished := by
    intro hu
    simp only [State.unify, hu] at h
    exact hgood (Logged.reports_report.1 (Logged.reports_bind.1 h).1)
  simp only [State.unify, Substitution.unify_mono hne hnm]

namespace Goal

/-- **Applying a goal does not depend on the effort**, if nothing is given up. -/
theorem persists_apply (program : Program) (g : Goal) (l : Locals) (st : State) :
    Persists good fun n => g.apply ⟨program, n⟩ l st := by
  induction g generalizing l st with
  | eq u v => exact (st.persists_unify hgood _ _).bind fun found => .const _
  | either g h ihg ihh => exact (ihg l st).bind fun a => (ihh l st).bind fun b => .const _
  | both g h ihg ihh => exact (ihg l st).bind fun a => .bindWith (ihh l) ⟨l, h⟩ a
  | fresh name g ih => exact (Persists.const st.freshVar).bind fun found => ih _ _
  | given name t g ih => exact ih _ st
  | deferred make ih => exact ih () l st
  | _ => exact fun _ _ _ _ => rfl

/-- Nor does forcing a suspension. -/
theorem persists_force (program : Program) (p : Suspension Pending Closure State) :
    Persists good fun n => p.force (rules ⟨program, n⟩) := by
  induction p using Suspension.force.induct with
  | case1 seed => exact persists_apply hgood program seed.goal seed.locals seed.state
  | case2 s => exact .const _
  | case3 other turn ih =>
    simp only [Suspension.force]
    exact ih.bind fun s => .const _
  | case4 source c ih =>
    simp only [Suspension.force]
    exact ih.bind fun s => .bindWith (persists_apply hgood program c.goal c.locals) c s

/-- Nor does forcing several suspensions. -/
theorem persists_advance (program : Program) (k : ℕ) (a : States) :
    Persists good fun n => a.advance (rules ⟨program, n⟩) k := by
  induction k generalizing a with
  | zero => exact .const (pure a)
  | succ k ih =>
    cases ha : a.rest with
    | none =>
      simp only [advance_of_ended ha]
      exact .const _
    | some p =>
      simp only [advance_of_suspended ha]
      exact (persists_force hgood program p).bind ih

end Goal

end Good

end Relational
