import Mathlib.Data.Finset.Card
import Mathlib.Data.Finset.Basic
import Relational.Proofs.Substitution.Unifies

/-!
# Most general unifiers

A valuation, a map from variables to terms, *satisfies* a substitution if it gives every bound
variable what it gives to the value of the variable.  Unification loses no such valuation and lets
none in:

* `Solves θ s pending` says that `θ` satisfies `s` and makes the two sides of every waiting pair
  equal.  Every step of the loop keeps the valuations that do so, and a refusal comes only where
  there is none (`Unifies.solves_iff`); the occurs check is right to refuse, because no term is a
  proper part of itself.
* The occurs check keeps the bindings without cycles (`Unifies.acyclic`), and without cycles the
  loop ends: a binding leaves one unbound variable fewer in the waiting pairs, and every other step
  makes them smaller (`Acyclic.exists_unifies`).

The main result is `Acyclic.unify_most_general`.
-/

namespace Relational

namespace Substitution

open Filter

/-- The valuation gives a bound variable what it gives to the value of the variable. -/
def Satisfies (θ : Var → Term) (s : Substitution) : Prop :=
  ∀ x t, s.get? x = some t → (θ x == t.subst θ) = true

/-- The valuation satisfies the substitution and makes the sides of every pair equal. -/
def Solves (θ : Var → Term) (s : Substitution) (pending : List (Term × Term)) : Prop :=
  Satisfies θ s ∧ ∀ p ∈ pending, Term.Alike (p.1.subst θ) (p.2.subst θ)

variable {check : Bool} {s s' : Substitution} {n : ℕ} {t u v u' v' w : Term} {x y : Var}
  {pending pairs : List (Term × Term)} {r : Except Refusal Substitution} {θ : Var → Term}

theorem beq_iff_alike : (t == u) = true ↔ Term.Alike t u := Term.eqv_iff_alike

theorem Satisfies.alike (h : Satisfies θ s) (hx : s.get? x = some t) :
    Term.Alike (θ x) (t.subst θ) :=
  beq_iff_alike.1 (h x t hx)

theorem satisfies_empty : Satisfies θ empty := by
  intro x t hx
  simp at hx

theorem Satisfies.of_extends (h : Satisfies θ s') (hs : s.Extends s') : Satisfies θ s :=
  fun x t hx => h x t (hs x t hx)

theorem satisfies_insert (hx : s.get? x = none) :
    Satisfies θ (s.insert x t) ↔ Satisfies θ s ∧ Term.Alike (θ x) (t.subst θ) := by
  constructor
  · intro h
    exact ⟨h.of_extends (extends_insert hx), h.alike get?_insert_self⟩
  · rintro ⟨h, hxt⟩ y u hy
    rw [get?_insert] at hy
    split_ifs at hy with hxy
    · cases hy
      exact beq_iff_alike.2 (hxy ▸ hxt)
    · exact h y u hy

/-- What the variables stand for satisfies the substitution. -/
theorem Acyclic.satisfies_value (hs : s.Acyclic) : Satisfies s.value s := by
  intro x t hx
  rw [hs.value_bound hx]
  exact beq_iff_alike.2 (Term.alike_refl _)

theorem Satisfies.alike_of_walks (h : Satisfies θ s) (hw : s.Walks t w) :
    Term.Alike (t.subst θ) (w.subst θ) := by
  induction hw with
  | bound hx _ ih =>
    rw [Term.subst_var]
    exact (h.alike hx).trans ih
  | free _ => rfl
  | constant c => rfl
  | @compound shape ts ws hl _ ih =>
    rw [Term.subst_compound, Term.subst_compound, Term.alike_compound]
    refine ⟨rfl, ?_⟩
    rw [List.forall₂_map_left_iff, List.forall₂_map_right_iff]
    exact List.forall₂_iff_zip.2 ⟨hl, fun hm => ih _ _ hm⟩
  | unassigned => rfl

theorem Satisfies.alike_of_resolve (h : Satisfies θ s) (hu : s.resolve n t = some u) :
    Term.Alike (t.subst θ) (u.subst θ) := by
  refine resolve_ind (motive := fun t u => Term.Alike (t.subst θ) (u.subst θ)) ?_ ?_ hu
  · intro t _
    rfl
  · intro x t u hx ih
    rw [Term.subst_var]
    exact (h.alike hx).trans ih

/-! ### Steps keep the solutions -/

theorem solves_cons : Solves θ s ((u, v) :: pending) ↔
    Term.Alike (u.subst θ) (v.subst θ) ∧ Solves θ s pending := by
  simp only [Solves, List.forall_mem_cons]
  tauto

theorem solves_append : Solves θ s (pairs ++ pending) ↔
    (∀ p ∈ pairs, Term.Alike (p.1.subst θ) (p.2.subst θ)) ∧ Solves θ s pending := by
  simp only [Solves, List.forall_mem_append]
  tauto

theorem Resolves.alike_iff (h : s.Resolves u v u' v') (hθ : Satisfies θ s) :
    Term.Alike (u.subst θ) (v.subst θ) ↔ Term.Alike (u'.subst θ) (v'.subst θ) := by
  obtain ⟨_, hu⟩ := h.left
  obtain ⟨_, hv⟩ := h.right
  rw [(hθ.alike_of_resolve hu).congr_left, (hθ.alike_of_resolve hv).congr_right]

/-- Instead of the pair one can look at what its sides resolve to. -/
theorem Resolves.solves_iff (h : s.Resolves u v u' v') : Solves θ s ((u, v) :: pending) ↔
    Term.Alike (u'.subst θ) (v'.subst θ) ∧ Solves θ s pending := by
  rw [solves_cons]
  exact and_congr_left fun hθ => h.alike_iff hθ.1

theorem alike_iff_of_binding (h : demand u v = .binding x t) :
    Term.Alike (u.subst θ) (v.subst θ) ↔ Term.Alike (θ x) (t.subst θ) := by
  obtain ⟨⟨rfl, rfl⟩ | ⟨rfl, rfl⟩, -⟩ := eq_of_demand_binding h
  · rw [Term.subst_var]
  · rw [Term.subst_var, Term.alike_comm]

theorem alike_iff_of_children (h : demand u v = .children pairs) :
    Term.Alike (u.subst θ) (v.subst θ) ↔ ∀ p ∈ pairs, Term.Alike (p.1.subst θ) (p.2.subst θ) := by
  obtain ⟨shape, ts, us, rfl, rfl, hl, rfl⟩ := eq_of_demand_children h
  rw [Term.subst_compound, Term.subst_compound, Term.alike_compound, List.forall₂_map_left_iff,
    List.forall₂_map_right_iff, List.forall₂_iff_zip]
  simp [hl]

/-- A binding has the solutions of the pair that asked for it. -/
theorem Resolves.solves_binding (h : s.Resolves u v u' v') (hd : demand u' v' = .binding x t)
    (hw : s.Walks t w) :
    Solves θ s ((u, v) :: pending) ↔ Solves θ (s.insert x w) pending := by
  rw [h.solves_iff, alike_iff_of_binding hd, Solves, Solves, satisfies_insert (h.free hd)]
  constructor
  · rintro ⟨hxt, hθ, hp⟩
    exact ⟨⟨hθ, hxt.trans (hθ.alike_of_walks hw)⟩, hp⟩
  · rintro ⟨⟨hθ, hxw⟩, hp⟩
    exact ⟨hxw.trans (hθ.alike_of_walks hw).symm, hθ, hp⟩

/-- The value of a binding is not the variable itself. -/
theorem Resolves.ne_var (h : s.Resolves u v u' v') (hd : demand u' v' = .binding x t)
    (hw : s.Walks t w) : w ≠ .var x := by
  obtain ⟨hu, hv⟩ := h.resolved
  obtain ⟨huv, hne⟩ := eq_of_demand_binding hd
  have ht : s.Resolved t := by
    rcases huv with ⟨-, rfl⟩ | ⟨rfl, -⟩
    · exact hv
    · exact hu
  rintro rfl
  cases hw with
  | bound hy _ => simp [ht _ rfl] at hy
  | free _ => exact hne rfl

/-- No valuation makes a variable equal to a compound that it is a part of. -/
theorem not_alike_of_occurs (hne : w ≠ .var x) (hx : w.Occurs x) :
    ¬ Term.Alike (θ x) (w.subst θ) := by
  intro h
  cases w with
  | var y => exact hne (by rw [Term.occurs_var.1 hx])
  | constant c => cases hx
  | compound shape ts =>
    have : (θ x).weight < ((Term.compound shape ts).subst θ).weight := Term.weight_lt_of_occurs hx
    have := h.weight_eq
    omega
  | unassigned => cases hx

/-- **The loop keeps the solutions of the waiting pairs**, and refuses if there are none. -/
theorem Unifies.solves_iff (h : Unifies check s pending r) :
    Solves θ s pending ↔ ∃ s', r = .ok s' ∧ Satisfies θ s' := by
  induction h with
  | done s => simp [Solves]
  | same _ _ ih => simpa [solves_cons] using ih
  | nothing hres hd _ ih =>
    rw [hres.solves_iff, ← ih, and_iff_right]
    exact (alike_of_demand_nothing hd).subst fun _ => Term.alike_refl _
  | binding hres hd hw _ _ ih => rw [hres.solves_binding hd hw, ih]
  | circular hres hd hw _ hx =>
    have hno := not_alike_of_occurs (θ := θ) (hres.ne_var hd hw) hx
    rw [hres.solves_binding hd hw, Solves, satisfies_insert (hres.free hd)]
    simp [hno]
  | children hres hd _ ih =>
    rw [hres.solves_iff, alike_iff_of_children hd, ← solves_append, ih]
  | clash hres hd => simp [hres.solves_iff, not_alike_of_demand_impossible hd]

/-- A refusal is a clash, or comes from the occurs check. -/
theorem Unifies.refusal_cases {refusal : Refusal} (h : Unifies check s pending (.error refusal)) :
    (∃ a b, refusal = .clash a b) ∨ check = true ∧ ∃ x w, refusal = .circular x w := by
  generalize hr : Except.error refusal = r at h
  induction h with
  | done => cases hr
  | circular _ _ _ hc _ => cases hr; exact .inr ⟨hc, _, _, rfl⟩
  | clash => cases hr; exact .inl ⟨_, _, rfl⟩
  | same _ _ ih => exact ih hr
  | nothing _ _ _ ih => exact ih hr
  | binding _ _ _ _ _ ih => exact ih hr
  | children _ _ _ ih => exact ih hr

theorem Unifies.extends (h : Unifies check s pending (.ok s')) : s.Extends s' :=
  h.invariant (P := fun r _ => s.Extends r) (.refl s) (fun _ _ _ hr => hr)
    (fun hres hd _ _ hr => hr.trans (extends_insert (hres.free hd))) (fun _ _ hr => hr)

theorem Walks.acyclic_insert (hs : s.Acyclic) (hx : s.get? x = none) (hw : s.Walks t w)
    (hxw : ¬ w.Occurs x) : (s.insert x w).Acyclic :=
  hs.insert hx (by rwa [hw.subst_value])

/-- The occurs check lets no cycle in. -/
theorem Unifies.acyclic (h : Unifies true s pending (.ok s')) (hs : s.Acyclic) : s'.Acyclic :=
  h.invariant (P := fun r _ => r.Acyclic) hs (fun _ _ _ hr => hr)
    (fun hres hd hw hc hr => hw.acyclic_insert hr (hres.free hd) (hc rfl)) (fun _ _ hr => hr)

/-! ### The loop ends -/

/-- Without cycles a waiting pair can be looked at. -/
theorem Acyclic.same_or_resolves (hs : s.Acyclic) (u v : Term) :
    (∃ x w, (∃ n, s.resolve n (.var x) = some w) ∧ u = .var x ∧ v = .var x) ∨
      ∃ u' v', s.Resolves u v u' v' := by
  obtain ⟨n₁, u', hu⟩ := (hs.walks u).exists_resolve
  obtain ⟨n₂, v', hv⟩ := (hs.walks v).exists_resolve
  obtain ⟨x, rfl, rfl⟩ | hres := skipped_or_resolves ⟨n₁, hu⟩ ⟨n₂, hv⟩
  · exact .inl ⟨x, u', ⟨n₁, hu⟩, rfl, rfl⟩
  · exact .inr ⟨u', v', hres⟩

theorem Acyclic.subst_value_of_resolve (hs : s.Acyclic) (hu : s.resolve n t = some u) :
    u.subst s.value = t.subst s.value :=
  (hs.walks u).unique ((walks_iff_of_resolve hu).1 (hs.walks t))

/-- What a term stands for stands for the same when there are more bindings. -/
theorem Extends.subst_value (h : s.Extends s') (hs : s.Acyclic) (hs' : s'.Acyclic) (t : Term) :
    (t.subst s.value).subst s'.value = t.subst s'.value := by
  refine hs.ind (motive := fun t => (t.subst s.value).subst s'.value = t.subst s'.value)
    ?_ ?_ ?_ ?_ ?_ t
  · intro x t hx ih
    rw [Term.subst_var, Term.subst_var, hs.value_bound hx, hs'.value_bound (h x t hx), ih]
  · intro x hx
    rw [Term.subst_var, value_of_free hx, Term.subst_var]
  · simp
  · intro shape ts ih
    simp only [Term.subst_compound, List.map_map]
    exact congrArg _ (List.map_congr_left ih)
  · simp

/-- The unbound variables below the waiting pairs. -/
noncomputable def unbound (s : Substitution) (pending : List (Term × Term)) : Finset Var :=
  (pending.flatMap fun p => (p.1.subst s.value).vars ++ (p.2.subst s.value).vars).toFinset

/-- How much of the waiting pairs is still to be looked at. -/
noncomputable def remaining (s : Substitution) (pending : List (Term × Term)) : ℕ :=
  Term.weights (pending.map fun p => p.1.subst s.value)

theorem mem_unbound : y ∈ s.unbound pending ↔
    ∃ p ∈ pending, (p.1.subst s.value).Occurs y ∨ (p.2.subst s.value).Occurs y := by
  simp [unbound]

theorem unbound_subset_cons {p : Term × Term} : s.unbound pending ⊆ s.unbound (p :: pending) := by
  intro y hy
  obtain ⟨q, hq, hy⟩ := mem_unbound.1 hy
  exact mem_unbound.2 ⟨q, List.mem_cons_of_mem p hq, hy⟩

theorem remaining_lt_cons {p : Term × Term} : s.remaining pending < s.remaining (p :: pending) := by
  rw [remaining, remaining, List.map_cons, Term.weights_cons]
  have := (p.1.subst s.value).weight_pos
  omega

theorem remaining_append : s.remaining (pairs ++ pending) =
    s.remaining pairs + s.remaining pending := by
  rw [remaining, List.map_append, Term.weights_append, remaining, remaining]

theorem Resolves.subst_value (h : s.Resolves u v u' v') (hs : s.Acyclic) :
    u'.subst s.value = u.subst s.value ∧ v'.subst s.value = v.subst s.value := by
  obtain ⟨_, hu⟩ := h.left
  obtain ⟨_, hv⟩ := h.right
  exact ⟨hs.subst_value_of_resolve hu, hs.subst_value_of_resolve hv⟩

/-- The children of a pair have no other variables than the pair. -/
theorem Resolves.unbound_children (h : s.Resolves u v u' v') (hs : s.Acyclic)
    (hd : demand u' v' = .children pairs) :
    s.unbound (pairs ++ pending) ⊆ s.unbound ((u, v) :: pending) := by
  obtain ⟨hu, hv⟩ := h.subst_value hs
  obtain ⟨shape, ts, us, rfl, rfl, -, rfl⟩ := eq_of_demand_children hd
  intro y hy
  obtain ⟨p, hp, hy⟩ := mem_unbound.1 hy
  rcases List.mem_append.1 hp with hp | hp
  · obtain ⟨ht, hu'⟩ := List.of_mem_zip hp
    refine mem_unbound.2 ⟨(u, v), List.mem_cons_self, ?_⟩
    rw [← hu, ← hv, Term.subst_compound, Term.subst_compound]
    exact hy.imp (.child (List.mem_map_of_mem ht)) (.child (List.mem_map_of_mem hu'))
  · exact mem_unbound.2 ⟨p, List.mem_cons_of_mem _ hp, hy⟩

theorem Resolves.remaining_children (h : s.Resolves u v u' v') (hs : s.Acyclic)
    (hd : demand u' v' = .children pairs) :
    s.remaining (pairs ++ pending) < s.remaining ((u, v) :: pending) := by
  obtain ⟨hu, -⟩ := h.subst_value hs
  obtain ⟨shape, ts, us, rfl, rfl, hl, rfl⟩ := eq_of_demand_children hd
  have hzip : s.remaining (ts.zip us) = Term.weights (ts.map (Term.subst s.value)) := by
    have hts : ((ts.zip us).map Prod.fst).map (Term.subst s.value) =
        ts.map (Term.subst s.value) := by
      rw [List.map_fst_zip hl.le]
    rw [remaining, ← hts, List.map_map]
    rfl
  rw [remaining_append, hzip, remaining, remaining, List.map_cons, Term.weights_cons]
  simp only
  rw [← hu, Term.subst_compound, Term.weight_compound]
  omega

/-- With one more binding a term has the unbound variables it had and those of the new value, but
not the variable that is bound. -/
theorem occurs_subst_value_insert (hs : s.Acyclic) (hx : s.get? x = none) (hw : s.Walks t w)
    (hxw : ¬ w.Occurs x) (h : (u.subst (s.insert x w).value).Occurs y) :
    y ≠ x ∧ ((u.subst s.value).Occurs y ∨ w.Occurs y) := by
  have hs' : (s.insert x w).Acyclic := hw.acyclic_insert hs hx hxw
  have hfree : ∀ z, s.get? z = none → z ≠ x → (s.insert x w).get? z = none := by
    intro z hz hzx
    rw [get?_insert, if_neg hzx.symm, hz]
  refine ⟨?_, ?_⟩
  · rintro rfl
    simpa using hs'.free_of_occurs h
  · rw [← (extends_insert hx).subst_value hs hs'] at h
    obtain ⟨z, hz, hy⟩ := Term.occurs_subst.1 h
    by_cases hzx : z = x
    · subst hzx
      have hself : w.subst (s.insert z w).value = w := Term.subst_eq_self fun a ha =>
        value_of_free (hfree a (hw.free_of_occurs ha) fun haz => hxw (haz ▸ ha))
      rw [hs'.value_bound get?_insert_self, hself] at hy
      exact .inr hy
    · rw [value_of_free (hfree z (hs.free_of_occurs hz) hzx), Term.occurs_var] at hy
      exact .inl (hy ▸ hz)

/-- A binding leaves its variable behind, and brings no other variable into the pairs. -/
theorem Resolves.unbound_binding (h : s.Resolves u v u' v') (hs : s.Acyclic)
    (hd : demand u' v' = .binding x t) (hw : s.Walks t w) (hxw : ¬ w.Occurs x) :
    (s.insert x w).unbound pending ⊂ s.unbound ((u, v) :: pending) := by
  obtain ⟨hu, hv⟩ := h.subst_value hs
  have hx : s.get? x = none := h.free hd
  have hwt : w = t.subst s.value := hw.unique (hs.walks t)
  have hhead : ∀ y, (u.subst s.value).Occurs y ∨ (v.subst s.value).Occurs y →
      y ∈ s.unbound ((u, v) :: pending) := fun y hy =>
    mem_unbound.2 ⟨(u, v), List.mem_cons_self, hy⟩
  have hboth : ∀ y, y = x ∨ w.Occurs y → y ∈ s.unbound ((u, v) :: pending) := by
    intro y hy
    apply hhead
    rw [← hu, ← hv]
    obtain ⟨⟨rfl, rfl⟩ | ⟨rfl, rfl⟩, -⟩ := eq_of_demand_binding hd
    · rw [← hwt, Term.subst_var, value_of_free hx, Term.occurs_var]
      exact hy.imp_left Eq.symm
    · rw [← hwt, Term.subst_var, value_of_free hx, Term.occurs_var]
      exact hy.symm.imp_right Eq.symm
  have hout : ∀ y ∈ (s.insert x w).unbound pending,
      y ≠ x ∧ y ∈ s.unbound ((u, v) :: pending) := by
    intro y hy
    obtain ⟨p, hp, hy⟩ := mem_unbound.1 hy
    rcases hy with hy | hy
    · obtain ⟨hne, hy | hy⟩ := occurs_subst_value_insert hs hx hw hxw hy
      · exact ⟨hne, mem_unbound.2 ⟨p, List.mem_cons_of_mem _ hp, .inl hy⟩⟩
      · exact ⟨hne, hboth y (.inr hy)⟩
    · obtain ⟨hne, hy | hy⟩ := occurs_subst_value_insert hs hx hw hxw hy
      · exact ⟨hne, mem_unbound.2 ⟨p, List.mem_cons_of_mem _ hp, .inr hy⟩⟩
      · exact ⟨hne, hboth y (.inr hy)⟩
  refine (Finset.ssubset_iff_of_subset fun y hy => (hout y hy).2).2 ⟨x, hboth x (.inl rfl), ?_⟩
  exact fun hxs => (hout x hxs).1 rfl

/-- **Without cycles the loop ends.** -/
theorem Acyclic.exists_unifies (hs : s.Acyclic) (pending : List (Term × Term)) :
    ∃ r, Unifies true s pending r := by
  -- first by the unbound variables, of which a binding takes one, and then by what remains
  induction hc : (s.unbound pending).card using Nat.strong_induction_on generalizing s pending with
  | _ c ihc =>
    induction hm : s.remaining pending using Nat.strong_induction_on generalizing pending with
    | _ m ihm =>
      subst hc hm
      have hnext : ∀ pending', s.unbound pending' ⊆ s.unbound pending →
          s.remaining pending' < s.remaining pending → ∃ r, Unifies true s pending' r := by
        intro pending' hsub hlt
        rcases (Finset.card_le_card hsub).lt_or_eq with hc | hc
        · exact ihc _ hc hs _ rfl
        · exact ihm _ hlt _ hc rfl
      cases pending with
      | nil => exact ⟨_, .done s⟩
      | cons p pending =>
        obtain ⟨u, v⟩ := p
        obtain ⟨r, hr⟩ := hnext pending unbound_subset_cons remaining_lt_cons
        obtain ⟨x, w, hx, rfl, rfl⟩ | ⟨u', v', hres⟩ := hs.same_or_resolves u v
        · exact ⟨r, .same hx hr⟩
        cases hd : demand u' v' with
        | nothing => exact ⟨r, .nothing hres hd hr⟩
        | impossible => exact ⟨_, .clash hres hd⟩
        | children pairs =>
          obtain ⟨r, hr⟩ := hnext (pairs ++ pending) (hres.unbound_children hs hd)
            (hres.remaining_children hs hd)
          exact ⟨r, .children hres hd hr⟩
        | binding x t =>
          have hw := hs.walks t
          by_cases hxw : (t.subst s.value).Occurs x
          · exact ⟨_, .circular hres hd hw rfl hxw⟩
          · obtain ⟨r, hr⟩ := ihc _ (Finset.card_lt_card (hres.unbound_binding hs hd hw hxw))
              (hw.acyclic_insert hs (hres.free hd) hxw) pending rfl
            exact ⟨r, .binding hres hd hw (fun _ => hxw) hr⟩

/-! ### Most general unifiers -/

/-- The substitution `s'` makes two terms equal, and commits to nothing beyond that. -/
structure MostGeneral (s : Substitution) (u v : Term) (s' : Substitution) : Prop where
  acyclic : s'.Acyclic
  /-- No binding is lost or changed. -/
  extends_old : s.Extends s'
  walks_equal : ∃ a b, (∀ᶠ n in atTop, s'.walk n u = some a ∧ s'.walk n v = some b) ∧
    (a == b) = true
  satisfies_iff : ∀ θ, Satisfies θ s' ↔ Satisfies θ s ∧ (u.subst θ == v.subst θ) = true

/-- The loop gives up for a reason, and there is no valuation that it misses. -/
structure Impossible (s : Substitution) (u v : Term) (refusal : Refusal) : Prop where
  reason : (∃ a b, refusal = .clash a b) ∨ ∃ x w, refusal = .circular x w
  not_equal : ∀ θ, Satisfies θ s → (u.subst θ == v.subst θ) = false

theorem solves_singleton :
    Solves θ s [(u, v)] ↔ Satisfies θ s ∧ (u.subst θ == v.subst θ) = true := by
  simp [Solves, beq_iff_alike]

theorem Unifies.mostGeneral (hs : s.Acyclic) (h : Unifies true s [(u, v)] (.ok s')) :
    MostGeneral s u v s' := by
  have hs' : s'.Acyclic := h.acyclic hs
  have hiff : ∀ θ, Satisfies θ s' ↔ Satisfies θ s ∧ (u.subst θ == v.subst θ) = true := by
    intro θ
    rw [← solves_singleton, h.solves_iff]
    simp
  refine ⟨hs', h.extends, ⟨_, _, ?_, ((hiff s'.value).1 hs'.satisfies_value).2⟩, hiff⟩
  exact (hs'.walks u).eventually_walk.and (hs'.walks v).eventually_walk

theorem Unifies.impossible {refusal : Refusal} (h : Unifies true s [(u, v)] (.error refusal)) :
    Impossible s u v refusal := by
  refine ⟨h.refusal_cases.imp_right And.right, fun θ hθ => ?_⟩
  have hno : ¬ Solves θ s [(u, v)] := by
    rw [h.solves_iff]
    simp
  rw [solves_singleton] at hno
  simpa [hθ] using hno

/-- **Unification with the occurs check computes a most general unifier.**  Starting without
cycles it ends with one outcome, whatever the effort beyond some point: either with a most general
unifier, or, if no valuation that satisfies the bindings makes the terms equal, with a refusal. -/
theorem Acyclic.unify_most_general (hs : s.Acyclic) (u v : Term) :
    ∃ r, (∀ᶠ n in atTop, s.unify true n u v = r) ∧
      (∀ n, s.unify true n u v = r ∨ s.unify true n u v = .error .unfinished) ∧
      match r with
      | .ok s' => MostGeneral s u v s'
      | .error refusal => Impossible s u v refusal := by
  obtain ⟨r, hr⟩ := hs.exists_unifies [(u, v)]
  refine ⟨r, hr.eventually_unifyAll, fun n => ?_, ?_⟩
  · by_cases hn : s.unify true n u v = .error .unfinished
    · exact .inr hn
    · exact .inl ((unifies_of_unifyAll rfl hn).unique hr)
  · cases r with
    | ok s' => exact hr.mostGeneral hs
    | error refusal => exact hr.impossible

/-- A variable that is bound and one that is not, made equal to each other. -/
theorem unify_most_general_swapped :
    let u := Term.cons (.var (.fresh 0)) (.var (.fresh 1))
    let v := Term.cons (.var (.fresh 1)) (.var (.fresh 0))
    let s := empty.insert (.fresh 0) .nil
    s.Acyclic ∧ MostGeneral s u v (s.insert (.fresh 1) .nil) := by
  intro u v s
  have hs : s.Acyclic := acyclic_empty.insert get?_empty (by simp [Term.nil])
  have hok : s.unify true 6 u v = .ok (s.insert (.fresh 1) .nil) := by cbv
  obtain ⟨r, -, hr, h⟩ := hs.unify_most_general u v
  rcases hr 6 with hr | hr
  · rw [hok] at hr
    subst hr
    exact ⟨hs, h⟩
  · rw [hok] at hr
    cases hr

end Substitution

end Relational
