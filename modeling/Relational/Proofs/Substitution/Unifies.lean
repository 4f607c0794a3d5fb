import Relational.Proofs.Substitution.Acyclic

/-!
# Unification, without effort

`Substitution.Unifies check s pairs r` says what the loop of unification makes of the waiting pairs,
one step a constructor: a pair of one variable is skipped, resolved sides that are equal ask for
nothing, an unbound variable is bound to the walk of the other side, the children of two compounds
of one kind go in front, and all else is refused.

The loop ends with the outcome `r` exactly when `Unifies check s pairs r` holds
(`unifies_of_unifyAll`, `Unifies.eventually_unifyAll`), so an induction over this relation is an
induction over the runs of the loop.  For the runs that succeed there is a rule for invariants
(`Unifies.invariant`).  What can be said of a loop that need not end is said of its `Turn`s.
-/

namespace Relational

namespace Substitution

open Filter

/-- The pair `(u, v)` is looked at, and its sides resolve to `u'` and `v'`. -/
structure Resolves (s : Substitution) (u v u' v' : Term) : Prop where
  left : ∃ n, s.resolve n u = some u'
  right : ∃ n, s.resolve n v = some v'
  /-- Otherwise the pair would be skipped. -/
  differ : sameVariable u v = false

/-- What becomes of the waiting pairs. -/
inductive Unifies (check : Bool) :
    Substitution → List (Term × Term) → Except Refusal Substitution → Prop
  | done (s : Substitution) : Unifies check s [] (.ok s)
  | same {s : Substitution} {x : Var} {u : Term} {pending : List (Term × Term)}
      {r : Except Refusal Substitution} : (∃ n, s.resolve n (.var x) = some u) →
      Unifies check s pending r → Unifies check s ((.var x, .var x) :: pending) r
  | nothing {s : Substitution} {u v u' v' : Term} {pending : List (Term × Term)}
      {r : Except Refusal Substitution} : s.Resolves u v u' v' → demand u' v' = .nothing →
      Unifies check s pending r → Unifies check s ((u, v) :: pending) r
  | binding {s : Substitution} {u v u' v' t w : Term} {x : Var} {pending : List (Term × Term)}
      {r : Except Refusal Substitution} : s.Resolves u v u' v' → demand u' v' = .binding x t →
      s.Walks t w → (check = true → ¬ w.Occurs x) → Unifies check (s.insert x w) pending r →
      Unifies check s ((u, v) :: pending) r
  | circular {s : Substitution} {u v u' v' t w : Term} {x : Var} {pending : List (Term × Term)} :
      s.Resolves u v u' v' → demand u' v' = .binding x t → s.Walks t w → check = true →
      w.Occurs x → Unifies check s ((u, v) :: pending) (.error (.circular x w))
  | children {s : Substitution} {u v u' v' : Term} {pairs pending : List (Term × Term)}
      {r : Except Refusal Substitution} : s.Resolves u v u' v' → demand u' v' = .children pairs →
      Unifies check s (pairs ++ pending) r → Unifies check s ((u, v) :: pending) r
  | clash {s : Substitution} {u v u' v' : Term} {pending : List (Term × Term)} :
      s.Resolves u v u' v' → demand u' v' = .impossible →
      Unifies check s ((u, v) :: pending) (.error (.clash u' v'))

/-- A substitution, and the pairs that wait to be made equal under it. -/
abbrev Waiting := Substitution × List (Term × Term)

/-- One turn of the loop behind which it goes on. -/
inductive Turn (check : Bool) : Waiting → Waiting → Prop
  | same {s : Substitution} {x : Var} {u : Term} {pending : List (Term × Term)} :
      (∃ n, s.resolve n (.var x) = some u) →
      Turn check (s, (.var x, .var x) :: pending) (s, pending)
  | nothing {s : Substitution} {u v u' v' : Term} {pending : List (Term × Term)} :
      s.Resolves u v u' v' → demand u' v' = .nothing →
      Turn check (s, (u, v) :: pending) (s, pending)
  | binding {s : Substitution} {u v u' v' t w : Term} {x : Var} {pending : List (Term × Term)} :
      s.Resolves u v u' v' → demand u' v' = .binding x t → s.Walks t w →
      (check = true → ¬ w.Occurs x) → Turn check (s, (u, v) :: pending) (s.insert x w, pending)
  | children {s : Substitution} {u v u' v' : Term} {pairs pending : List (Term × Term)} :
      s.Resolves u v u' v' → demand u' v' = .children pairs →
      Turn check (s, (u, v) :: pending) (s, pairs ++ pending)

variable {check : Bool} {s : Substitution} {n : ℕ} {t u v u' v' w : Term} {x : Var}
  {pending : List (Term × Term)} {r : Except Refusal Substitution} {a b : Waiting}

/-! ### What a pair of resolved terms asks for -/

/-- A variable is bound to the other side, which is something else. -/
theorem eq_of_demand_binding (h : demand u v = .binding x t) :
    (u = .var x ∧ v = t ∨ u = t ∧ v = .var x) ∧ t ≠ .var x := by
  unfold demand at h
  split at h
  · split_ifs at h with hxy
    cases h
    exact ⟨.inl ⟨rfl, rfl⟩, fun h => hxy (Term.var.inj h).symm⟩
  · rename_i hv
    cases h
    exact ⟨.inl ⟨rfl, rfl⟩, fun h => hv x h⟩
  · rename_i hu
    cases h
    exact ⟨.inr ⟨rfl, rfl⟩, fun h => hu x h⟩
  · split_ifs at h
  · split_ifs at h

theorem eq_of_demand_children {pairs : List (Term × Term)} (h : demand u v = .children pairs) :
    ∃ shape ts us, u = .compound shape ts ∧ v = .compound shape us ∧ ts.length = us.length ∧
      pairs = ts.zip us := by
  unfold demand at h
  split at h
  · split_ifs at h
  · cases h
  · cases h
  · rename_i shape ts shape' us
    split_ifs at h with hk
    cases h
    simp only [Term.sameKind, Bool.and_eq_true, beq_iff_eq] at hk
    obtain ⟨rfl, hl⟩ := hk
    exact ⟨shape, ts, us, rfl, rfl, hl, rfl⟩
  · split_ifs at h

theorem alike_of_demand_nothing (h : demand u v = .nothing) : Term.Alike u v := by
  unfold demand at h
  split at h
  · split_ifs at h with hxy
    rw [hxy]
  · cases h
  · cases h
  · split_ifs at h
  · split_ifs at h with huv
    exact Term.eqv_iff_alike.1 huv

/-- Terms that ask for what cannot be have no common instance. -/
theorem not_alike_of_demand_impossible (h : demand u v = .impossible) (θ : Var → Term) :
    ¬ Term.Alike (u.subst θ) (v.subst θ) := by
  intro huv
  unfold demand at h
  split at h
  · split_ifs at h
  · cases h
  · cases h
  · split_ifs at h with hk
    simp only [Term.subst_compound, Term.alike_compound] at huv
    apply hk
    simpa [Term.sameKind, huv.1] using huv.2.length_eq
  · split_ifs at h with hne
    rename_i hu hv _ hcc
    apply hne
    rw [show (u == v) = u.eqv v from rfl, Term.eqv_iff_alike]
    cases u with
    | var y => exact (hu y rfl).elim
    | constant c =>
      cases v with
      | var y => exact (hv y rfl).elim
      | constant d => simpa using huv
      | _ => simp [Term.Alike] at huv
    | compound shape ts =>
      cases v with
      | var y => exact (hv y rfl).elim
      | compound shape' us => exact (hcc shape ts shape' us rfl rfl).elim
      | _ => simp [Term.Alike] at huv
    | unassigned =>
      cases v with
      | var y => exact (hv y rfl).elim
      | unassigned => rfl
      | _ => simp [Term.Alike] at huv

theorem Resolves.resolved (h : s.Resolves u v u' v') : s.Resolved u' ∧ s.Resolved v' := by
  obtain ⟨_, hu⟩ := h.left
  obtain ⟨_, hv⟩ := h.right
  exact ⟨resolved_of_resolve hu, resolved_of_resolve hv⟩

/-- The variable that is bound is unbound before. -/
theorem Resolves.free (h : s.Resolves u v u' v') (hd : demand u' v' = .binding x t) :
    s.get? x = none := by
  obtain ⟨hu, hv⟩ := h.resolved
  obtain ⟨⟨rfl, -⟩ | ⟨-, rfl⟩, -⟩ := eq_of_demand_binding hd
  · exact hu x rfl
  · exact hv x rfl

/-- A pair whose sides can be resolved is skipped, or looked at. -/
theorem skipped_or_resolves (hu : ∃ n, s.resolve n u = some u')
    (hv : ∃ n, s.resolve n v = some v') :
    (∃ x, u = .var x ∧ v = .var x) ∨ s.Resolves u v u' v' := by
  by_cases hsame : sameVariable u v = true
  · cases u <;> cases v <;> simp [sameVariable] at hsame
    exact .inl ⟨_, rfl, by rw [hsame]⟩
  · exact .inr ⟨hu, hv, by simpa using hsame⟩

/-! ### Binding a variable to a walk -/

theorem contains_eq_false (h : s.get? x = none) : s.contains x = false := by
  rw [contains_eq_isSome, h, Option.isSome_none]

theorem get?_of_not_contains (h : ¬ s.contains x = true) : s.get? x = none := by
  rwa [contains_eq_isSome, Option.not_isSome_iff_eq_none] at h

/-- Binding an unbound variable to the walk of a term ends: the check alone may refuse it. -/
theorem exists_bind (check : Bool) (hx : s.get? x = none) (hw : s.Walks t w) :
    ∃ n, s.bind check n x t =
      if check && decide (x ∈ w.vars) then .error (.circular x w) else .ok (s.insert x w) := by
  have hww : s.Walks w w := walks_self fun _ hy => hw.free_of_occurs hy
  obtain ⟨n₁, h₁⟩ := exists_walk_iff.2 hw
  obtain ⟨n₂, h₂⟩ := exists_occursIn (x := x) (.cons hww .nil)
  refine ⟨max n₁ n₂, ?_⟩
  have h₂ := occursIn_mono h₂ (le_max_right n₁ n₂)
  rw [bind, walk_mono h₁ (le_max_left n₁ n₂)]
  cases check with
  | false => simp [extend_eq_insert (contains_eq_false hx)]
  | true =>
    simp only [extendChecked, occurs, h₂, List.any_cons, List.any_nil, Bool.or_false, if_true]
    by_cases hxw : x ∈ w.vars
    · simp [hxw]
    · simp [hxw, extend_eq_insert (contains_eq_false hx)]

theorem bind_eq (hx : s.get? x = none) (hw : s.Walks t w)
    (h : s.bind check n x t ≠ .error .unfinished) : s.bind check n x t =
      if check && decide (x ∈ w.vars) then .error (.circular x w) else .ok (s.insert x w) := by
  obtain ⟨m, hm⟩ := exists_bind check hx hw
  have hm' : s.bind check m x t ≠ .error .unfinished := by
    rw [hm]
    split_ifs <;> simp
  rw [← bind_mono h (le_max_left n m), bind_mono hm' (le_max_right n m), hm]

theorem walks_of_bind (h : s.bind check n x t ≠ .error .unfinished) : ∃ w, s.Walks t w := by
  cases hw : s.walk n t with
  | none => simp [bind, hw] at h
  | some w => exact ⟨w, walks_of_walk hw⟩

/-! ### The loop -/

/-- A loop that ends takes steps of the relation. -/
theorem unifies_of_unifyAll (h : unifyAll check n s pending = r) (hr : r ≠ .error .unfinished) :
    Unifies check s pending r := by
  induction n generalizing s pending with
  | zero =>
    cases pending with
    | nil => exact h ▸ .done s
    | cons p pending => exact absurd h.symm hr
  | succ n ih =>
    cases pending with
    | nil => exact h ▸ .done s
    | cons p pending =>
      obtain ⟨u, v⟩ := p
      rw [unifyAll] at h
      cases hu : s.resolve n u with
      | none => exact absurd (by simpa [hu] using h.symm) hr
      | some u' =>
        cases hv : s.resolve n v with
        | none => exact absurd (by simpa [hu, hv] using h.symm) hr
        | some v' =>
          rw [hu, hv] at h
          dsimp only at h
          split_ifs at h with hsame
          · cases u <;> cases v <;> simp [sameVariable] at hsame
            subst hsame
            exact .same ⟨n, hu⟩ (ih h)
          · have hres : s.Resolves u v u' v' := ⟨⟨n, hu⟩, ⟨n, hv⟩, by simpa using hsame⟩
            cases hd : demand u' v' with
            | nothing => rw [hd] at h; exact .nothing hres hd (ih h)
            | children pairs => rw [hd] at h; exact .children hres hd (ih h)
            | impossible => rw [hd] at h; exact h ▸ .clash hres hd
            | binding x t =>
              rw [hd] at h
              dsimp only at h
              have hb : s.bind check n x t ≠ .error .unfinished := by
                intro hb
                rw [hb] at h
                exact hr h.symm
              obtain ⟨w, hw⟩ := walks_of_bind hb
              rw [bind_eq (hres.free hd) hw hb] at h
              split_ifs at h with hc
              · simp only [Bool.and_eq_true, decide_eq_true_eq, Term.mem_vars] at hc
                exact h ▸ .circular hres hd hw hc.1 hc.2
              · simp only [Bool.and_eq_true, decide_eq_true_eq, Term.mem_vars, not_and] at hc
                exact .binding hres hd hw hc (ih h)

/-- What every step of the loop keeps is kept by a loop that succeeds. -/
theorem Unifies.invariant {s' : Substitution} {P : Substitution → List (Term × Term) → Prop}
    (h : Unifies check s pending (.ok s')) (start : P s pending)
    (skip : ∀ s p pending, P s (p :: pending) → P s pending)
    (binding : ∀ {s u v u' v' t w x pending}, s.Resolves u v u' v' →
      demand u' v' = .binding x t → s.Walks t w → (check = true → ¬ w.Occurs x) →
      P s ((u, v) :: pending) → P (s.insert x w) pending)
    (children : ∀ {s u v u' v' pairs pending}, s.Resolves u v u' v' →
      demand u' v' = .children pairs → P s ((u, v) :: pending) → P s (pairs ++ pending)) :
    P s' [] := by
  generalize hr : Except.ok s' = r at h
  induction h with
  | done s => cases hr; exact start
  | circular => cases hr
  | clash => cases hr
  | same _ _ ih => exact ih (skip _ _ _ start) hr
  | nothing _ _ _ ih => exact ih (skip _ _ _ start) hr
  | binding hres hd hw hc _ ih => exact ih (binding hres hd hw hc start) hr
  | children hres hd _ ih => exact ih (children hres hd start) hr

theorem unifyAll_succ (hu : s.resolve n u = some u') (hv : s.resolve n v = some v')
    (hne : sameVariable u v = false) : unifyAll check (n + 1) s ((u, v) :: pending) =
      match demand u' v' with
      | .nothing => unifyAll check n s pending
      | .binding x t =>
        match s.bind check n x t with
        | .ok s => unifyAll check n s pending
        | .error refusal => .error refusal
      | .children pairs => unifyAll check n s (pairs ++ pending)
      | .impossible => .error (.clash u' v') := by
  have hcond : ¬ sameVariable u v = true := by simp [hne]
  rw [unifyAll, hu, hv]
  exact if_neg hcond

theorem Resolves.eventually_resolve (h : s.Resolves u v u' v') :
    ∀ᶠ n in atTop, s.resolve n u = some u' ∧ s.resolve n v = some v' := by
  obtain ⟨n₁, hu⟩ := h.left
  obtain ⟨n₂, hv⟩ := h.right
  exact eventually_atTop.2 ⟨max n₁ n₂, fun m hm =>
    ⟨resolve_mono hu (by omega), resolve_mono hv (by omega)⟩⟩

theorem Resolves.unique {u₁ v₁ : Term} (h : s.Resolves u v u' v') (h₁ : s.Resolves u v u₁ v₁) :
    u' = u₁ ∧ v' = v₁ := by
  obtain ⟨n, ⟨hu, hv⟩, hu₁, hv₁⟩ := (h.eventually_resolve.and h₁.eventually_resolve).exists
  exact ⟨Option.some.inj (hu.symm.trans hu₁), Option.some.inj (hv.symm.trans hv₁)⟩

/-- What a pair asks for does not depend on how its sides are resolved. -/
theorem Resolves.demand_eq {u₁ v₁ : Term} (h : s.Resolves u v u' v') (h₁ : s.Resolves u v u₁ v₁) :
    demand u' v' = demand u₁ v₁ := by
  obtain ⟨rfl, rfl⟩ := h.unique h₁
  rfl

/-- Binding an unbound variable to the walk of a term ends: the check alone may refuse it. -/
theorem eventually_bind (check : Bool) (hx : s.get? x = none) (hw : s.Walks t w) :
    ∀ᶠ n in atTop, s.bind check n x t =
      if check && decide (x ∈ w.vars) then .error (.circular x w) else .ok (s.insert x w) := by
  obtain ⟨n, hn⟩ := exists_bind check hx hw
  refine eventually_atTop.2 ⟨n, fun m hm => ?_⟩
  rw [bind_mono (by rw [hn]; split_ifs <;> simp) hm, hn]

/-- A turn takes one step of effort. -/
theorem Turn.eventually_unifyAll (h : Turn check a b) :
    ∀ᶠ n in atTop, unifyAll check (n + 1) a.1 a.2 = unifyAll check n b.1 b.2 := by
  cases h with
  | same hu =>
    obtain ⟨n₁, hu⟩ := hu
    filter_upwards [eventually_ge_atTop n₁] with n hn
    rw [unifyAll, resolve_mono hu hn]
    simp [sameVariable]
  | nothing hres hd =>
    filter_upwards [hres.eventually_resolve] with n hn
    rw [unifyAll_succ hn.1 hn.2 hres.differ, hd]
  | @binding s u v u' v' t w x pending hres hd hw hc =>
    filter_upwards [hres.eventually_resolve, eventually_bind check (hres.free hd) hw] with n hn hb
    have hc : ¬(check && decide (x ∈ w.vars)) = true := by simpa using hc
    rw [unifyAll_succ hn.1 hn.2 hres.differ, hd]
    simp only [hb, if_neg hc]
  | children hres hd =>
    filter_upwards [hres.eventually_resolve] with n hn
    rw [unifyAll_succ hn.1 hn.2 hres.differ, hd]

/-- A loop that ends behind a turn ends before it, with one more step of effort. -/
theorem Turn.eventually_of_eventually (h : Turn check a b)
    (hb : ∀ᶠ n in atTop, unifyAll check n b.1 b.2 = r) :
    ∀ᶠ n in atTop, unifyAll check n a.1 a.2 = r := by
  refine eventually_of_succ ?_
  filter_upwards [h.eventually_unifyAll, hb] with n hn hb
  rw [hn, hb]

/-- Steps of the relation are what the loop does, given enough effort. -/
theorem Unifies.eventually_unifyAll (h : Unifies check s pending r) :
    ∀ᶠ n in atTop, unifyAll check n s pending = r := by
  induction h with
  | done s => exact .of_forall fun n => by rw [unifyAll]
  | same hu _ ih => exact (Turn.same hu).eventually_of_eventually ih
  | nothing hres hd _ ih => exact (Turn.nothing hres hd).eventually_of_eventually ih
  | binding hres hd hw hc _ ih => exact (Turn.binding hres hd hw hc).eventually_of_eventually ih
  | @circular s u v u' v' t w x pending hres hd hw hc hx =>
    refine eventually_of_succ ?_
    filter_upwards [hres.eventually_resolve, eventually_bind check (hres.free hd) hw] with n hn hb
    have hx : (check && decide (x ∈ w.vars)) = true := by simpa [hc] using hx
    rw [unifyAll_succ hn.1 hn.2 hres.differ, hd]
    simp only [hb, if_pos hx]
  | children hres hd _ ih => exact (Turn.children hres hd).eventually_of_eventually ih
  | clash hres hd =>
    refine eventually_of_succ ?_
    filter_upwards [hres.eventually_resolve] with n hn
    rw [unifyAll_succ hn.1 hn.2 hres.differ, hd]

/-- A list of pairs has one outcome. -/
theorem Unifies.unique {r' : Except Refusal Substitution} (h : Unifies check s pending r)
    (h' : Unifies check s pending r') : r = r' :=
  eventually_unique h.eventually_unifyAll h'.eventually_unifyAll

/-- A turn comes before an end. -/
theorem Turn.unifies (h : Turn check a b) (hb : Unifies check b.1 b.2 r) :
    Unifies check a.1 a.2 r := by
  cases h with
  | same hu => exact .same hu hb
  | nothing hres hd => exact .nothing hres hd hb
  | binding hres hd hw hc => exact .binding hres hd hw hc hb
  | children hres hd => exact .children hres hd hb

/-- **A loop that ends, ends behind each of its turns**, with the same outcome. -/
theorem Unifies.turn (h : Unifies check a.1 a.2 r) (hab : Turn check a b)
    (hr : r ≠ .error .unfinished) : Unifies check b.1 b.2 r := by
  have hb : ∀ᶠ n in atTop, unifyAll check n b.1 b.2 = r := by
    filter_upwards [hab.eventually_unifyAll,
      (tendsto_add_atTop_nat 1).eventually h.eventually_unifyAll] with n hn ha
    rw [← hn, ha]
  obtain ⟨n, hn⟩ := hb.exists
  exact unifies_of_unifyAll hn hr

/-- A loop that succeeds takes its turns until no pair waits. -/
theorem Unifies.turns {s' : Substitution} (h : Unifies check s pending (.ok s')) :
    Relation.ReflTransGen (Turn check) (s, pending) (s', []) := by
  generalize hr : Except.ok s' = r at h
  induction h with
  | done s =>
    cases hr
    exact .refl
  | same hu _ ih => exact .head (.same hu) (ih hr)
  | nothing hres hd _ ih => exact .head (.nothing hres hd) (ih hr)
  | binding hres hd hw hc _ ih => exact .head (.binding hres hd hw hc) (ih hr)
  | children hres hd _ ih => exact .head (.children hres hd) (ih hr)
  | circular => cases hr
  | clash => cases hr

/-- Behind a pair that cannot be made equal there is no turn. -/
theorem Resolves.not_turn (h : s.Resolves u v u' v') (hd : demand u' v' = .impossible) :
    ¬ Turn check (s, (u, v) :: pending) b := by
  intro hb
  cases hb with
  | same => simpa [sameVariable] using h.differ
  | nothing h' hd' => simpa [hd, hd'] using h.demand_eq h'
  | binding h' hd' => simpa [hd, hd'] using h.demand_eq h'
  | children h' hd' => simpa [hd, hd'] using h.demand_eq h'

/-! ### Waiting pairs one after the other -/

variable {s' : Substitution} {pairs : List (Term × Term)}

/-- Pairs that are made equal leave their bindings to the pairs behind them. -/
theorem Unifies.append (h : Unifies check s pairs (.ok s')) (hr : Unifies check s' pending r) :
    Unifies check s (pairs ++ pending) r := by
  generalize hs : Except.ok s' = out at h
  induction h with
  | done s =>
    cases hs
    exact hr
  | same hu _ ih => exact .same hu (ih hs)
  | nothing hres hd _ ih => exact .nothing hres hd (ih hs)
  | binding hres hd hw hc _ ih => exact .binding hres hd hw hc (ih hs)
  | children hres hd _ ih => exact .children hres hd (by simpa using ih hs)
  | circular => cases hs
  | clash => cases hs

/-- Pairs that are refused leave nothing to the pairs behind them. -/
theorem Unifies.append_error {refusal : Refusal} (h : Unifies check s pairs (.error refusal)) :
    Unifies check s (pairs ++ pending) (.error refusal) := by
  generalize hr : Except.error refusal = out at h
  induction h with
  | done s => cases hr
  | same hu _ ih => exact .same hu (ih hr)
  | nothing hres hd _ ih => exact .nothing hres hd (ih hr)
  | binding hres hd hw hc _ ih => exact .binding hres hd hw hc (ih hr)
  | children hres hd _ ih => exact .children hres hd (by simpa using ih hr)
  | circular hres hd hw hc hx =>
    cases hr
    exact .circular hres hd hw hc hx
  | clash hres hd =>
    cases hr
    exact .clash hres hd

end Substitution

end Relational
