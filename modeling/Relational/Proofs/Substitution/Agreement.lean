import Relational.Proofs.Substitution.OccursCheck
import Relational.Proofs.Substitution.Order

/-!
# When unification has nothing to add

Unification only ever adds bindings, so it leaves the number of bindings as it was exactly if it
adds none at all (`Grows.eq_of_size_eq`).  Without cycles this happens exactly if the two terms
stand for equal terms already (`Acyclic.unifies_self_iff`): what a substitution is satisfied by
includes what its own variables stand for, so a run that comes back with the same bindings has found
all pairs equal under them; and a pair that is equal under them never asks for a binding, because
an unbound variable stands for itself and for nothing else.

Terms without variables have nothing that could be bound.  They clash or they are equal, whatever
is bound and whether or not there is an occurs check (`Unifies.of_ground`).
-/

namespace Relational

namespace Substitution

open Filter

variable {loops : Prop} {check : Bool} {s r : Substitution} {t u v u' v' : Term} {x : Var}
  {pending pairs : List (Term × Term)} {out : Except Refusal Substitution}

/-! ### Counting bindings -/

theorem Grows.eq_or_size_lt (h : Grows loops s r) : r = s ∨ s.size < r.size := by
  induction h with
  | refl => exact .inl rfl
  | @insert r x w _ hx _ _ _ ih =>
    rw [size_insert (contains_eq_false hx)]
    rcases ih with rfl | ih
    · exact .inr (Nat.lt_succ_self _)
    · exact .inr (ih.trans (Nat.lt_succ_self _))

/-- What has no more bindings than before is what it was before. -/
theorem Grows.eq_of_size_eq (h : Grows loops s r) (hsize : r.size = s.size) : r = s :=
  h.eq_or_size_lt.resolve_right hsize.not_gt

/-! ### Pairs that are equal already -/

/-- A pair that asks for a binding is not equal yet. -/
theorem Resolves.not_alike_of_binding (h : s.Resolves u v u' v') (hs : s.Acyclic)
    (hd : demand u' v' = .binding x t) :
    ¬ Term.Alike (u'.subst s.value) (v'.subst s.value) := by
  rw [alike_iff_of_binding hd, value_of_free (h.free hd), Term.alike_var_left]
  exact h.ne_var hd (hs.walks t)

/-- Pairs that are equal under the bindings add none. -/
theorem Acyclic.unifies_self (hs : s.Acyclic) (h : Solves s.value s pending) :
    Unifies check s pending (.ok s) := by
  -- by what remains of the walked pairs; there is no step that binds
  induction hm : s.remaining pending using Nat.strong_induction_on generalizing pending with
  | _ m ih =>
    subst hm
    cases pending with
    | nil => exact .done s
    | cons p pending =>
      obtain ⟨u, v⟩ := p
      have hrest : Unifies check s pending (.ok s) :=
        ih _ remaining_lt_cons (solves_cons.1 h).2 rfl
      obtain ⟨x, w, hx, rfl, rfl⟩ | ⟨u', v', hres⟩ := hs.same_or_resolves u v
      · exact .same hx hrest
      obtain ⟨halike, hsolves⟩ := hres.solves_iff.1 h
      cases hd : demand u' v' with
      | nothing => exact .nothing hres hd hrest
      | impossible => exact absurd halike (not_alike_of_demand_impossible hd _)
      | binding x t => exact absurd halike (hres.not_alike_of_binding hs hd)
      | children pairs =>
        have hchildren : Solves s.value s (pairs ++ pending) :=
          solves_append.2 ⟨(alike_iff_of_children hd).1 halike, hsolves⟩
        exact .children hres hd (ih _ (hres.remaining_children hs hd) hchildren rfl)

/-- **No binding is added exactly if the pairs are equal under the bindings that are there.** -/
theorem Acyclic.unifies_self_iff (hs : s.Acyclic) :
    Unifies check s pending (.ok s) ↔ Solves s.value s pending :=
  ⟨fun h => h.solves_iff.2 ⟨s, rfl, hs.satisfies_value⟩, hs.unifies_self⟩

theorem Acyclic.returns_self_iff (hs : s.Acyclic) :
    s.Returns check u v (.ok s) ↔ (u.subst s.value == v.subst s.value) = true := by
  rw [returns_iff, hs.unifies_self_iff, solves_singleton]
  exact and_iff_right hs.satisfies_value

/-! ### Terms without variables -/

theorem Resolves.eq_of_ground (h : s.Resolves u v u' v') (hu : u.Ground) (hv : v.Ground) :
    u' = u ∧ v' = v := by
  have hself : ∀ {t t' : Term}, t.Ground → (∃ n, s.resolve n t = some t') → t' = t := by
    rintro t t' ht ⟨n, hn⟩
    have hres : s.Resolved t := fun x hx => absurd (hx ▸ .var) (ht x)
    rw [hres.resolve_eq, Option.some.injEq] at hn
    exact hn.symm
  exact ⟨hself hu h.left, hself hv h.right⟩

theorem ground_of_demand_children (hd : demand u v = .children pairs) (hu : u.Ground)
    (hv : v.Ground) : ∀ p ∈ pairs, p.1.Ground ∧ p.2.Ground := by
  obtain ⟨shape, ts, us, rfl, rfl, -, rfl⟩ := eq_of_demand_children hd
  intro p hp
  obtain ⟨h₁, h₂⟩ := List.of_mem_zip hp
  exact ⟨fun x hx => hu x (.child h₁ hx), fun x hx => hv x (.child h₂ hx)⟩

/-- **Terms without variables are found equal or they clash**, and the occurs check has no part in
it. -/
theorem Unifies.of_ground (h : Unifies check s pending out)
    (hground : ∀ p ∈ pending, p.1.Ground ∧ p.2.Ground) :
    (∀ check', Unifies check' s pending out) ∧
      (out = .ok s ∨ ∃ a b, out = .error (.clash a b)) := by
  have hnone : ∀ {s : Substitution} {u v u' v' t : Term} {x : Var}, s.Resolves u v u' v' →
      u.Ground ∧ v.Ground → demand u' v' ≠ .binding x t := by
    rintro s u v u' v' t x hres ⟨hu, hv⟩ hd
    obtain ⟨rfl, rfl⟩ := hres.eq_of_ground hu hv
    obtain ⟨⟨rfl, -⟩ | ⟨-, rfl⟩, -⟩ := eq_of_demand_binding hd
    · exact hu x .var
    · exact hv x .var
  induction h with
  | done s => exact ⟨fun _ => .done s, .inl rfl⟩
  | @same s x u pending out _ _ _ =>
    exact absurd .var ((List.forall_mem_cons.1 hground).1.1 x)
  | nothing hres hd _ ih =>
    obtain ⟨hall, hout⟩ := ih (List.forall_mem_cons.1 hground).2
    exact ⟨fun check' => .nothing hres hd (hall check'), hout⟩
  | binding hres hd _ _ _ _ => exact absurd hd (hnone hres (List.forall_mem_cons.1 hground).1)
  | circular hres hd _ _ _ => exact absurd hd (hnone hres (List.forall_mem_cons.1 hground).1)
  | children hres hd _ ih =>
    obtain ⟨⟨hu, hv⟩, hrest⟩ := List.forall_mem_cons.1 hground
    obtain ⟨rfl, rfl⟩ := hres.eq_of_ground hu hv
    obtain ⟨hall, hout⟩ :=
      ih (List.forall_mem_append.2 ⟨ground_of_demand_children hd hu hv, hrest⟩)
    exact ⟨fun check' => .children hres hd (hall check'), hout⟩
  | clash hres hd => exact ⟨fun _ => .clash hres hd, .inr ⟨_, _, rfl⟩⟩

/-- Without cycles, equal terms without variables are found equal and others clash. -/
theorem Acyclic.returns_of_ground (hs : s.Acyclic) (check : Bool) (hu : u.Ground)
    (hv : v.Ground) :
    (∀ r, s.Returns check u v (.ok r) ↔ r = s ∧ (u == v) = true) ∧
      ((u == v) = false → ∃ a b, s.Returns check u v (.error (.clash a b))) := by
  obtain ⟨out, hout⟩ := hs.exists_unifies [(u, v)]
  obtain ⟨hall, hcases⟩ := hout.of_ground (by simpa using ⟨hu, hv⟩)
  have hret : s.Returns check u v out := returns_iff.2 (hall check)
  have hequal : s.Returns check u v (.ok s) ↔ (u == v) = true := by
    rw [hs.returns_self_iff, hu.subst_eq, hv.subst_eq]
  rcases hcases with rfl | ⟨a, b, rfl⟩
  · have huv : (u == v) = true := hequal.1 hret
    refine ⟨fun r => ⟨fun hr => ?_, fun hr => hr.1 ▸ hret⟩, fun hne => by simp [huv] at hne⟩
    cases hr.unique hret
    exact ⟨rfl, huv⟩
  · refine ⟨fun r => ⟨fun hr => (by cases hr.unique hret), ?_⟩, fun _ => ⟨a, b, hret⟩⟩
    rintro ⟨rfl, huv⟩
    exact hequal.2 huv

/-- **Unification adds no binding exactly if the walked terms are equal**, with the occurs check and
without it, and then it returns the substitution as it is.  So terms without variables unify
exactly if they are equal, and nothing is ever bound for them. -/
theorem Acyclic.unify_unchanged_iff (hs : s.Acyclic) (u v : Term) :
    ∃ a b, (∀ᶠ n in atTop, s.walk n u = some a ∧ s.walk n v = some b) ∧ ∀ check,
      ((a == b) = true ↔ ∃ r, s.Returns check u v (.ok r) ∧ r.size = s.size) ∧
      (∀ r, s.Returns check u v (.ok r) → r.size = s.size → r = s) ∧
      (u.Ground → v.Ground →
        (∀ r, s.Returns check u v (.ok r) ↔ r = s ∧ (u == v) = true) ∧
        ((u == v) = false → ∃ c d, s.Returns check u v (.error (.clash c d)))) := by
  refine ⟨_, _, (hs.walks u).eventually_walk.and (hs.walks v).eventually_walk, fun check => ?_⟩
  have hunchanged : ∀ r, s.Returns check u v (.ok r) → r.size = s.size → r = s :=
    fun r hr => (returns_iff.1 hr).grows.eq_of_size_eq
  refine ⟨⟨fun h => ⟨s, hs.returns_self_iff.2 h, rfl⟩, ?_⟩, hunchanged,
    hs.returns_of_ground check⟩
  rintro ⟨r, hr, hsize⟩
  exact hs.returns_self_iff.1 (hunchanged r hr hsize ▸ hr)

/-- Two terms that differ stand for one that has a constant in it which is equal to nothing but
itself, and nothing is bound for them.  The constant clashes with another one of that kind. -/
theorem unify_unchanged_nan :
    let nan := fun i => Term.constant ⟨.plain (.float .double .nan), [i]⟩
    let s := empty.insert (.fresh 0) (.cons (nan 0) (.var (.fresh 1)))
    let u := Term.cons (.var (.fresh 0)) (.var (.fresh 1))
    let v := Term.cons (.cons (nan 0) (.var (.fresh 1))) (.var (.fresh 1))
    s.Acyclic ∧ (∀ check, s.Returns check u v (.ok s)) ∧ (nan 0).Ground ∧ (nan 1).Ground ∧
      ∃ c d, s.Returns false (nan 0) (nan 1) (.error (.clash c d)) := by
  intro nan s u v
  have hs : s.Acyclic := acyclic_empty.insert get?_empty (by simp [Term.cons, nan])
  obtain ⟨a, b, hwalks, h⟩ := hs.unify_unchanged_iff u v
  have hab : (a == b) = true := by
    have hu : s.walk 9 u = some v := by cbv
    have hv : s.walk 9 v = some v := by cbv
    cases eventually_unique (hwalks.mono fun _ h => h.1) (eventually_walk hu)
    cases eventually_unique (hwalks.mono fun _ h => h.2) (eventually_walk hv)
    exact beq_iff_alike.2 (Term.alike_refl _)
  have hground : ∀ i, (nan i).Ground := fun i x => Term.not_occurs_constant
  obtain ⟨_, _, -, hclash⟩ := hs.unify_unchanged_iff (nan 0) (nan 1)
  refine ⟨hs, fun check => ?_, hground 0, hground 1, ?_⟩
  · obtain ⟨hequal, hsame, -⟩ := h check
    obtain ⟨r, hr, hsize⟩ := hequal.1 hab
    exact hsame r hr hsize ▸ hr
  · exact ((hclash false).2.2 (hground 0) (hground 1)).2 (by cbv)

end Substitution

end Relational
