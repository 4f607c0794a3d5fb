import Mathlib.Data.List.Forall2
import Relational.Proofs.Substitution.Effort
import Relational.Proofs.Term.Instance

/-!
# Walking, without a list of tasks

`Substitution.Walks s t w` says by recursion what a walk does: a bound variable becomes the walk of
its value, a compound keeps its shape and has its children walked, and all else stays.  A walk that
is carried out with tasks ends exactly when there is such a `w`, and this is what comes back
(`exists_walk_iff`); so a walk has at most one result, and it has only unbound variables.

Looking for a variable below some terms that can be walked ends, and finds the variable exactly if
it occurs in one of the walked terms (`exists_occursIn`).
-/

namespace Relational

namespace Substitution

open Filter

/-- The term `w` is what `t` stands for, with only unbound variables left. -/
inductive Walks (s : Substitution) : Term → Term → Prop
  | bound {x : Var} {t w : Term} : s.get? x = some t → Walks s t w → Walks s (.var x) w
  | free {x : Var} : s.get? x = none → Walks s (.var x) (.var x)
  | constant (c : Constant) : Walks s (.constant c) (.constant c)
  | compound {shape : Shape} {ts ws : List Term} : ts.length = ws.length →
      (∀ t w, (t, w) ∈ ts.zip ws → Walks s t w) → Walks s (.compound shape ts) (.compound shape ws)
  | unassigned : Walks s .unassigned .unassigned

variable {s : Substitution} {n : ℕ} {t u w : Term}

theorem walks_compound_iff {shape : Shape} {ts : List Term} :
    s.Walks (.compound shape ts) w ↔ ∃ ws, w = .compound shape ws ∧ List.Forall₂ s.Walks ts ws := by
  constructor
  · intro h
    cases h with
    | compound hl h => exact ⟨_, rfl, List.forall₂_iff_zip.2 ⟨hl, fun hm => h _ _ hm⟩⟩
  · rintro ⟨ws, rfl, h⟩
    exact .compound h.length_eq fun _ _ hm => List.forall₂_zip h hm

theorem Walks.unique (h : s.Walks t u) (h' : s.Walks t w) : u = w := by
  induction h generalizing w with
  | bound hx _ ih =>
    cases h' with
    | bound hx' h' =>
      rw [hx, Option.some.injEq] at hx'
      subst hx'
      exact ih h'
    | free hx' => simp [hx] at hx'
  | free hx =>
    cases h' with
    | bound hx' _ => simp [hx] at hx'
    | free _ => rfl
  | constant c => cases h'; rfl
  | @compound shape ts us hl h ih =>
    obtain ⟨ws, rfl, hw⟩ := walks_compound_iff.1 h'
    have hu : List.Forall₂ (fun t u => ∀ w, s.Walks t w → u = w) ts us :=
      List.forall₂_iff_zip.2 ⟨hl, fun hm w => ih _ _ hm⟩
    clear * - hu hw
    congr 1
    induction hu generalizing ws with
    | nil => cases hw; rfl
    | cons h _ ih => cases hw with | cons h₁ h₂ => rw [h _ h₁, ih _ h₂]
  | unassigned => cases h'; rfl

/-- No bound variable is left. -/
theorem Walks.free_of_occurs (h : s.Walks t w) {y : Var} (hy : w.Occurs y) : s.get? y = none := by
  induction h with
  | bound _ _ ih => exact ih hy
  | free hx => cases hy; exact hx
  | constant c => cases hy
  | @compound shape ts ws hl _ ih =>
    obtain ⟨w, hw, hy⟩ := Term.occurs_compound.1 hy
    obtain ⟨i, hi, rfl⟩ := List.mem_iff_getElem.1 hw
    have hi' : i < ts.length := by omega
    exact ih ts[i] ws[i] (List.mem_iff_getElem.2 ⟨i, by simp [hi, hi'], by simp⟩) hy
  | unassigned => cases hy

/-- A term without bound variables is its own walk. -/
theorem walks_self (h : ∀ x, w.Occurs x → s.get? x = none) : s.Walks w w := by
  induction w with
  | var x => exact .free (h x .var)
  | constant c => exact .constant c
  | compound shape ts ih =>
    refine walks_compound_iff.2 ⟨ts, rfl, List.forall₂_same.2 fun t ht => ?_⟩
    exact ih t ht fun x hx => h x (.child ht hx)
  | unassigned => exact .unassigned

/-! ### Resolving first -/

/-- A term that is resolved: an unbound variable, or no variable at all. -/
def Resolved (s : Substitution) (t : Term) : Prop := ∀ x, t = .var x → s.get? x = none

/-- Induction over the chain of variables that is followed. -/
theorem resolve_ind {motive : Term → Term → Prop} (resolved : ∀ t, s.Resolved t → motive t t)
    (bound : ∀ x t u, s.get? x = some t → motive t u → motive (.var x) u)
    (h : s.resolve n t = some u) : motive t u := by
  induction n generalizing t with
  | zero =>
    cases t with
    | var x =>
      cases hx : s.get? x with
      | none =>
        rw [resolve_free hx, Option.some.injEq] at h
        exact h ▸ resolved _ fun y hy => by cases hy; exact hx
      | some t => simp [resolve, hx] at h
    | _ =>
      simp only [resolve_constant, resolve_compound, resolve_unassigned, Option.some.injEq] at h
      exact h ▸ resolved _ (by simp [Resolved])
  | succ n ih =>
    cases t with
    | var x =>
      cases hx : s.get? x with
      | none =>
        rw [resolve_free hx, Option.some.injEq] at h
        exact h ▸ resolved _ fun y hy => by cases hy; exact hx
      | some t => exact bound x t u hx (ih (resolve_bound hx ▸ h))
    | _ =>
      simp only [resolve_constant, resolve_compound, resolve_unassigned, Option.some.injEq] at h
      exact h ▸ resolved _ (by simp [Resolved])

theorem resolved_of_resolve (h : s.resolve n t = some u) : s.Resolved u :=
  resolve_ind (motive := fun _ u => s.Resolved u) (fun _ h => h) (fun _ _ _ _ h => h) h

theorem Resolved.resolve_eq (h : s.Resolved t) : s.resolve n t = some t := by
  cases t with
  | var x => exact resolve_free (h x rfl)
  | _ => simp

theorem walks_var_iff {x : Var} (h : s.get? x = some t) : s.Walks (.var x) w ↔ s.Walks t w := by
  refine ⟨fun hw => ?_, .bound h⟩
  cases hw with
  | bound hx hw =>
    rw [h, Option.some.injEq] at hx
    rwa [hx]
  | free hx => simp [h] at hx

/-- Walking a term is walking what it resolves to. -/
theorem walks_iff_of_resolve (h : s.resolve n t = some u) : s.Walks t w ↔ s.Walks u w :=
  resolve_ind (motive := fun t u => s.Walks t w ↔ s.Walks u w) (fun _ _ => Iff.rfl)
    (fun _ _ _ hx h => (walks_var_iff hx).trans h) h

/-- A term that can be walked can be resolved. -/
theorem Walks.exists_resolve (h : s.Walks t w) : ∃ n u, s.resolve n t = some u := by
  induction h with
  | bound hx _ ih =>
    obtain ⟨n, u, hu⟩ := ih
    exact ⟨n + 1, u, by rw [resolve_bound hx, hu]⟩
  | free hx => exact ⟨0, _, resolve_free hx⟩
  | constant c => exact ⟨0, _, resolve_constant c⟩
  | compound _ _ _ => exact ⟨0, _, resolve_compound _ _⟩
  | unassigned => exact ⟨0, _, resolve_unassigned⟩

/-! ### Walking with tasks -/

/-- A row of terms in front of the tasks is walked before them, if the tasks end at all. -/
theorem exists_walks_of_runTasks (ts : List Term) (tasks : List Task) (done : List Term)
    {out : Term} (h : s.runTasks n (ts.map .visit ++ tasks) done = some out) :
    ∃ ws, List.Forall₂ s.Walks ts ws ∧
      ∃ m ≤ n, s.runTasks m tasks (ws.reverse ++ done) = some out := by
  -- by the effort left; the children of a compound are a row in front of the rest of the row
  induction n using Nat.strong_induction_on generalizing ts tasks done with
  | _ n ih =>
    cases ts with
    | nil => exact ⟨[], .nil, n, le_rfl, h⟩
    | cons t ts =>
      cases n with
      | zero => simp [runTasks] at h
      | succ n =>
        rw [List.map_cons, List.cons_append, runTasks] at h
        cases hu : s.resolve n t with
        | none => simp [hu] at h
        | some u =>
          have hrest : ∀ m ≤ n, ∀ w, s.Walks u w →
              s.runTasks m (ts.map .visit ++ tasks) (w :: done) = some out →
              ∃ ws, List.Forall₂ s.Walks (t :: ts) ws ∧
                ∃ m ≤ n + 1, s.runTasks m tasks (ws.reverse ++ done) = some out := by
            intro m hm w hw h
            obtain ⟨ws, hws, k, hk, h⟩ := ih m (by omega) ts _ _ h
            refine ⟨w :: ws, .cons ((walks_iff_of_resolve hu).2 hw) hws, k, by omega, ?_⟩
            simpa using h
          rw [hu] at h
          cases u with
          | var x => exact hrest n le_rfl _ (.free (resolved_of_resolve hu x rfl)) h
          | constant c => exact hrest n le_rfl _ (.constant c) h
          | unassigned => exact hrest n le_rfl _ .unassigned h
          | compound shape children =>
            obtain ⟨ws, hws, m, hm, h⟩ := ih n (by omega) children _ _ h
            cases m with
            | zero => simp [runTasks] at h
            | succ m =>
              have hlen : children.length = ws.reverse.length := by simpa using hws.length_eq
              rw [runTasks, hlen, List.take_left, List.drop_left, List.reverse_reverse] at h
              exact hrest m (by omega) _ (walks_compound_iff.2 ⟨ws, rfl, hws⟩) h

/-- Tasks that end behind the walk of a term end with the term in front of them. -/
theorem Walks.exists_runTasks (h : s.Walks t w) {tasks : List Task} {done : List Term} {out : Term}
    (hout : ∃ n, s.runTasks n tasks (w :: done) = some out) :
    ∃ n, s.runTasks n (.visit t :: tasks) done = some out := by
  induction h generalizing tasks done with
  | bound hx _ ih =>
    obtain ⟨n, h⟩ := ih hout
    cases n with
    | zero => simp [runTasks] at h
    | succ n =>
      refine ⟨n + 2, ?_⟩
      rw [runTasks] at h ⊢
      rw [resolve_bound hx]
      cases hu : s.resolve n _ with
      | none => simp [hu] at h
      | some u =>
        rw [hu] at h
        cases u <;> exact runTasks_mono h (Nat.le_succ n)
  | free hx =>
    obtain ⟨n, h⟩ := hout
    exact ⟨n + 1, by rw [runTasks, resolve_free hx]; exact h⟩
  | constant c =>
    obtain ⟨n, h⟩ := hout
    exact ⟨n + 1, by rw [runTasks, resolve_constant]; exact h⟩
  | unassigned =>
    obtain ⟨n, h⟩ := hout
    exact ⟨n + 1, by rw [runTasks, resolve_unassigned]; exact h⟩
  | @compound shape ts ws hl _ ih =>
    have hrow : ∀ (done : List Term) (tasks : List Task),
        (∃ n, s.runTasks n tasks (ws.reverse ++ done) = some out) →
        ∃ n, s.runTasks n (ts.map .visit ++ tasks) done = some out := by
      have hf := List.forall₂_iff_zip.2 ⟨hl, fun {t w} hm => @ih t w hm⟩
      clear * - hf
      induction hf with
      | nil => exact fun done tasks h => h
      | cons ht _ ih =>
        intro done tasks h
        exact ht (ih _ _ (by simpa using h))
    obtain ⟨n, h⟩ := hrow done (.build shape ts.length :: tasks) (by
      obtain ⟨n, h⟩ := hout
      have hlen : ts.length = ws.reverse.length := by simpa using hl
      refine ⟨n + 1, ?_⟩
      rwa [runTasks, hlen, List.take_left, List.drop_left, List.reverse_reverse])
    exact ⟨n + 1, by rw [runTasks, resolve_compound]; exact h⟩

/-- **A walk ends exactly with what the recursion says.** -/
theorem exists_walk_iff : (∃ n, s.walk n t = some w) ↔ s.Walks t w := by
  constructor
  · rintro ⟨n, h⟩
    obtain ⟨ws, hws, m, -, h⟩ := exists_walks_of_runTasks [t] [] [] h
    cases hws with
    | cons ht hnil =>
      cases hnil
      simp only [List.reverse_singleton, List.append_nil, runTasks, List.head?_cons,
        Option.some.injEq] at h
      exact h ▸ ht
  · intro h
    exact h.exists_runTasks ⟨0, by simp [runTasks]⟩

theorem walks_of_walk (h : s.walk n t = some w) : s.Walks t w := exists_walk_iff.1 ⟨n, h⟩

theorem Walks.eventually_walk (h : s.Walks t w) : ∀ᶠ n in atTop, s.walk n t = some w := by
  obtain ⟨n, h⟩ := exists_walk_iff.2 h
  exact Substitution.eventually_walk h

/-! ### Looking for a variable -/

/-- Looking for a variable below terms that can be walked ends, and says whether it occurs in one
of the walked terms. -/
theorem exists_occursIn {x : Var} {ts ws : List Term} (h : List.Forall₂ s.Walks ts ws) :
    ∃ n, s.occursIn x n ts = some (ws.any fun w => decide (x ∈ w.vars)) := by
  -- by the size of the walked terms, which a compound loses when its children take its place
  induction hk : Term.weights ws using Nat.strong_induction_on generalizing ts ws with
  | _ k ih =>
    subst hk
    cases h with
    | nil => exact ⟨0, by simp [occursIn]⟩
    | @cons t w ts ws ht hts =>
      obtain ⟨n₁, u, hu⟩ := ht.exists_resolve
      have hw : s.Walks u w := (walks_iff_of_resolve hu).1 ht
      have hskip : (∃ n, s.occursIn x n ts = some (ws.any fun w => decide (x ∈ w.vars))) :=
        ih _ (by simp [Term.weight_pos]) hts rfl
      obtain ⟨n₂, hskip⟩ := hskip
      have hmax := resolve_mono hu (le_max_left n₁ n₂)
      have hskip := occursIn_mono hskip (le_max_right n₁ n₂)
      cases hw with
      | bound hx _ => exact absurd hx (by simp [resolved_of_resolve hu _ rfl])
      | @free y hx =>
        refine ⟨max n₁ n₂ + 1, ?_⟩
        rw [occursIn, hmax]
        by_cases hy : y = x
        · simp [hy]
        · simpa [hy] using hskip
      | constant c => exact ⟨max n₁ n₂ + 1, by rw [occursIn, hmax]; simpa using hskip⟩
      | unassigned => exact ⟨max n₁ n₂ + 1, by rw [occursIn, hmax]; simpa using hskip⟩
      | @compound shape us vs hl hus =>
        have hf : List.Forall₂ s.Walks (us.reverse ++ ts) (vs.reverse ++ ws) :=
          List.rel_append (List.forall₂_reverse_iff.2
            (List.forall₂_iff_zip.2 ⟨hl, fun hm => hus _ _ hm⟩)) hts
        obtain ⟨n₃, h₃⟩ := ih _ (by simp) hf rfl
        refine ⟨max n₁ n₃ + 1, ?_⟩
        rw [occursIn, resolve_mono hu (le_max_left n₁ n₃)]
        simp only
        rw [occursIn_mono h₃ (le_max_right n₁ n₃), Option.some.injEq, Bool.eq_iff_iff]
        simp [List.any_eq_true]

end Substitution

end Relational
