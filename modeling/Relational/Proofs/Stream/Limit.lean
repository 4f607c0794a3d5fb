import Mathlib.Order.Filter.AtTopBot.Basic
import Mathlib.Order.Filter.Finite
import Relational.Proofs.Stream.Layers

/-!
# Streams in the limit of effort

What a suspension yields may depend on an effort.  `Settles rules ideal` says that every seed and
every continuation yields the same from some effort on, though not all of them from the same effort
on.  Every layer of a stream needs only finitely many of them, so it is the same from some effort on
as well (`Settles.eventually_after`).
-/

namespace Relational

namespace Stream

open Filter

variable {ι κ ε α : Type}

/-- With enough effort the rules do what the ideal rules do. -/
structure Settles (rules : ℕ → Rules ι κ ε α) (ideal : Rules ι κ ε α) : Prop where
  unfold : ∀ seed, ∀ᶠ n in atTop, ((rules n).unfold seed).value = (ideal.unfold seed).value
  expand : ∀ c x, ∀ᶠ n in atTop, ((rules n).expand c x).value = (ideal.expand c x).value

variable {rules : ℕ → Rules ι κ ε α} {ideal : Rules ι κ ε α}

theorem eventually_value_bindWith {f : ℕ → α → Logged ε (Stream ι κ α)}
    {g : α → Logged ε (Stream ι κ α)} (h : ∀ x, ∀ᶠ n in atTop, (f n x).value = (g x).value)
    (c : κ) (s : Stream ι κ α) :
    ∀ᶠ n in atTop, (s.bindWith c (f n)).value = (s.bindWith c g).value := by
  have hheads : ∀ᶠ n in atTop, ∀ x ∈ {x | x ∈ s.heads}, (f n x).value = (g x).value :=
    (eventually_all_finite s.heads.finite_toSet).2 fun x _ => h x
  filter_upwards [hheads] with n hn
  rw [value_bindWith, value_bindWith]
  exact List.foldr_ext _ _ _ fun x hx others => by rw [hn x hx]

/-- A suspension is a finite thing, so with enough effort it is forced as it should be. -/
theorem Settles.eventually_force (h : Settles rules ideal) (p : Suspension ι κ α) :
    ∀ᶠ n in atTop, (p.force (rules n)).value = (p.force ideal).value := by
  induction p using Suspension.force.induct with
  | case1 seed => exact h.unfold seed
  | case2 s => exact .of_forall fun _ => rfl
  | case3 other turn ih =>
    filter_upwards [ih] with n hn
    rw [Suspension.force, Suspension.force, Logged.value_bind, Logged.value_bind, hn]
  | case4 source c ih =>
    filter_upwards [ih, eventually_value_bindWith (h.expand c) c (source.force ideal).value]
      with n hn hbind
    rw [Suspension.force, Suspension.force, Logged.value_bind, Logged.value_bind, hn]
    exact hbind

theorem Settles.eventually_behind (h : Settles rules ideal) (s : Stream ι κ α) :
    ∀ᶠ n in atTop, s.behind (rules n) = s.behind ideal := by
  unfold behind
  cases s.rest with
  | none => exact .of_forall fun _ => rfl
  | some p => exact h.eventually_force p

/-- **Every layer is there with enough effort.** -/
theorem Settles.eventually_after (h : Settles rules ideal) (k : ℕ) (s : Stream ι κ α) :
    ∀ᶠ n in atTop, s.after (rules n) k = s.after ideal k := by
  induction k generalizing s with
  | zero => exact .of_forall fun _ => rfl
  | succ k ih =>
    filter_upwards [h.eventually_behind s, ih (s.behind ideal)] with n hn hk
    rw [after, after, hn, hk]

end Stream

end Relational
