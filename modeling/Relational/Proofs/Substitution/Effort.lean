import Mathlib.Order.Filter.AtTopBot.Basic
import Relational.Substitution.Reify
import Relational.Substitution.Unify

/-!
# Effort does not change an outcome

Everything that follows bindings is given an effort.  What comes back does not depend on it: an
outcome that is known with some effort is the outcome with every larger one (`resolve_mono`,
`walk_mono`, `occursIn_mono`, `unifyAll_mono`).

So "the computation ends with `r`" is said as `∀ᶠ n in atTop, f n = r`: with every effort that is
large enough, the outcome is `r`.  Finding one such effort is enough (`eventually_walk`).
-/

namespace Relational

namespace Substitution

open Filter

variable {s s' : Substitution} {n m : ℕ} {t r : Term}

theorem eventually_of_succ {p : ℕ → Prop} (h : ∀ᶠ n in atTop, p (n + 1)) :
    ∀ᶠ n in atTop, p n := by
  obtain ⟨k, hk⟩ := eventually_atTop.1 h
  refine eventually_atTop.2 ⟨k + 1, fun n hn => ?_⟩
  obtain ⟨m, rfl⟩ : ∃ m, n = m + 1 := ⟨n - 1, by omega⟩
  exact hk m (by omega)

/-- What an outcome is with every effort that is large enough, is one thing only. -/
theorem eventually_unique {α : Type} {f : ℕ → α} {a b : α} (ha : ∀ᶠ n in atTop, f n = a)
    (hb : ∀ᶠ n in atTop, f n = b) : a = b := by
  obtain ⟨n, ha, hb⟩ := (ha.and hb).exists
  exact ha.symm.trans hb

/-! ### Resolving -/

theorem resolve_free {x : Var} (h : s.get? x = none) : s.resolve n (.var x) = some (.var x) := by
  rw [resolve, h]

theorem resolve_bound {x : Var} (h : s.get? x = some t) :
    s.resolve (n + 1) (.var x) = s.resolve n t := by
  rw [resolve, h]

@[simp] theorem resolve_constant (c : Constant) :
    s.resolve n (.constant c) = some (.constant c) := by simp [resolve]

@[simp] theorem resolve_compound (shape : Shape) (ts : List Term) :
    s.resolve n (.compound shape ts) = some (.compound shape ts) := by simp [resolve]

@[simp] theorem resolve_unassigned : s.resolve n .unassigned = some .unassigned := by
  simp [resolve]

theorem resolve_mono (h : s.resolve n t = some r) (hnm : n ≤ m) : s.resolve m t = some r := by
  induction n generalizing m t with
  | zero =>
    cases t with
    | var x =>
      cases hx : s.get? x with
      | none => rwa [resolve_free hx] at h ⊢
      | some t => simp [resolve, hx] at h
    | _ => simpa using h
  | succ n ih =>
    cases t with
    | var x =>
      cases hx : s.get? x with
      | none => rwa [resolve_free hx] at h ⊢
      | some t =>
        obtain ⟨m, rfl⟩ : ∃ k, m = k + 1 := ⟨m - 1, by omega⟩
        rw [resolve_bound hx] at h ⊢
        exact ih h (by omega)
    | _ => simpa using h

/-! ### Walking -/

theorem runTasks_mono {tasks : List Task} {done : List Term}
    (h : s.runTasks n tasks done = some r) (hnm : n ≤ m) : s.runTasks m tasks done = some r := by
  induction n generalizing m tasks done with
  | zero =>
    cases tasks with
    | nil => simpa [runTasks] using h
    | cons task tasks => simp [runTasks] at h
  | succ n ih =>
    cases tasks with
    | nil => simpa [runTasks] using h
    | cons task tasks =>
      obtain ⟨m, rfl⟩ : ∃ k, m = k + 1 := ⟨m - 1, by omega⟩
      cases task with
      | visit t =>
        rw [runTasks] at h ⊢
        cases ht : s.resolve n t with
        | none => simp [ht] at h
        | some u =>
          rw [resolve_mono ht (by omega : n ≤ m)]
          rw [ht] at h
          cases u <;> exact ih h (by omega)
      | build shape arity =>
        rw [runTasks] at h ⊢
        exact ih h (by omega)

theorem walk_mono (h : s.walk n t = some r) (hnm : n ≤ m) : s.walk m t = some r :=
  runTasks_mono h hnm

theorem eventually_walk (h : s.walk n t = some r) : ∀ᶠ n in atTop, s.walk n t = some r :=
  eventually_atTop.2 ⟨n, fun _ => walk_mono h⟩

/-! ### Looking for a variable -/

theorem occursIn_mono {x : Var} {pending : List Term} {b : Bool}
    (h : s.occursIn x n pending = some b) (hnm : n ≤ m) : s.occursIn x m pending = some b := by
  induction n generalizing m pending with
  | zero =>
    cases pending with
    | nil => simpa [occursIn] using h
    | cons t pending => simp [occursIn] at h
  | succ n ih =>
    cases pending with
    | nil => simpa [occursIn] using h
    | cons t pending =>
      obtain ⟨m, rfl⟩ : ∃ k, m = k + 1 := ⟨m - 1, by omega⟩
      rw [occursIn] at h ⊢
      cases ht : s.resolve n t with
      | none => simp [ht] at h
      | some u =>
        rw [resolve_mono ht (by omega : n ≤ m)]
        rw [ht] at h
        cases u with
        | var y =>
          by_cases hy : y = x
          · simpa [hy] using h
          · simp only [hy, if_false] at h ⊢
            exact ih h (by omega)
        | _ => exact ih h (by omega)

/-! ### Unification -/

theorem extendChecked_mono {x : Var} (h : s.extendChecked n x t ≠ .error .unfinished)
    (hnm : n ≤ m) : s.extendChecked m x t = s.extendChecked n x t := by
  unfold extendChecked occurs at h ⊢
  cases hx : s.occursIn x n [t] with
  | none => simp [hx] at h
  | some b => rw [occursIn_mono hx hnm]

theorem bind_mono {check : Bool} {x : Var} (h : s.bind check n x t ≠ .error .unfinished)
    (hnm : n ≤ m) : s.bind check m x t = s.bind check n x t := by
  unfold bind at h ⊢
  cases ht : s.walk n t with
  | none => simp [ht] at h
  | some w =>
    rw [walk_mono ht hnm]
    rw [ht] at h
    cases check with
    | false => rfl
    | true => exact extendChecked_mono h hnm

theorem unifyAll_mono {check : Bool} {pending : List (Term × Term)}
    (h : unifyAll check n s pending ≠ .error .unfinished) (hnm : n ≤ m) :
    unifyAll check m s pending = unifyAll check n s pending := by
  induction n generalizing m s pending with
  | zero =>
    cases pending with
    | nil => rw [unifyAll, unifyAll]
    | cons p pending => simp [unifyAll] at h
  | succ n ih =>
    cases pending with
    | nil => rw [unifyAll, unifyAll]
    | cons p pending =>
      obtain ⟨u, v⟩ := p
      obtain ⟨m, rfl⟩ : ∃ k, m = k + 1 := ⟨m - 1, by omega⟩
      have hnm : n ≤ m := by omega
      rw [unifyAll] at h ⊢
      rw [unifyAll]
      cases hu : s.resolve n u with
      | none => simp [hu] at h
      | some u' =>
        cases hv : s.resolve n v with
        | none => simp [hu, hv] at h
        | some v' =>
          rw [hu, hv] at h
          rw [resolve_mono hu hnm, resolve_mono hv hnm]
          dsimp only at h ⊢
          split_ifs at h ⊢ with hsame
          · exact ih h hnm
          · cases hd : demand u' v' with
            | nothing => rw [hd] at h; exact ih h hnm
            | children pairs => rw [hd] at h; exact ih h hnm
            | impossible => rfl
            | binding x t =>
              rw [hd] at h
              dsimp only at h ⊢
              have hb : s.bind check n x t ≠ .error .unfinished := by
                intro hb
                simp [hb] at h
              rw [bind_mono hb hnm]
              cases hs : s.bind check n x t with
              | error refusal => rfl
              | ok s' => rw [hs] at h; exact ih h hnm

theorem unify_mono {check : Bool} {u v : Term} (h : s.unify check n u v ≠ .error .unfinished)
    (hnm : n ≤ m) : s.unify check m u v = s.unify check n u v :=
  unifyAll_mono h hnm

/-! ### Reification -/

theorem reify_mono (h : s.reify n t = some s') (hnm : n ≤ m) : s.reify m t = some s' := by
  obtain ⟨w, hw, rfl⟩ := Option.map_eq_some_iff.1 h
  rw [reify, walk_mono hw hnm, Option.map_some]

theorem reifyAll_mono (h : s.reifyAll n = some s') (hnm : n ≤ m) : s.reifyAll m = some s' := by
  have hfold : ∀ (keys : List Var) (r : Substitution),
      keys.foldlM (fun r x => r.reify n (.var x)) r = some s' →
        keys.foldlM (fun r x => r.reify m (.var x)) r = some s' := by
    intro keys
    induction keys with
    | nil => exact fun r hr => hr
    | cons x keys ih =>
      intro r hr
      rw [List.foldlM_cons] at hr
      obtain ⟨r', hr', hkeys⟩ := Option.bind_eq_some_iff.1 hr
      rw [List.foldlM_cons, reify_mono hr' hnm]
      exact ih r' hkeys
  exact hfold s.keys s h

end Substitution

end Relational
