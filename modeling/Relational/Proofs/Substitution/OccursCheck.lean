import Relational.Proofs.Substitution.Unifier

/-!
# What the occurs check refuses

The occurs check looks for a variable in the walk of the term that it is to be bound to.  A cycle
that the binding would make goes through the new binding and from there through old ones back to the
variable, so the one walk is enough to find it: a binding is refused exactly if it makes a cycle
(`Acyclic.occurs_exact`).

With the occurs check and without it, unification takes the same steps until a binding is refused
(`Unifies.unchecked`).  A variable is bound to a walked term, so a binding that is refused has its
variable in its own value.  Without the check that binding is made, and whatever is bound later, it
stays where it is: the result has a cycle, if there is a result at all.  So the check refuses
exactly the results with a cycle (`Acyclic.unify_checked_iff`).
-/

namespace Relational

namespace Substitution

open Filter Relation

/-- Unification ends with `r`, whatever the effort beyond some point. -/
def Returns (s : Substitution) (check : Bool) (u v : Term) (r : Except Refusal Substitution) :
    Prop :=
  r ≠ .error .unfinished ∧ ∀ᶠ n in atTop, s.unify check n u v = r

variable {check : Bool} {s s' : Substitution} {n : ℕ} {t u v w : Term} {x : Var}
  {pending : List (Term × Term)} {r r' : Except Refusal Substitution}

/-! ### What unification returns -/

theorem Unifies.ne_unfinished (h : Unifies check s pending r) : r ≠ .error .unfinished := by
  rintro rfl
  obtain ⟨_, _, h⟩ | ⟨-, _, _, h⟩ := h.refusal_cases
  · cases h
  · cases h

theorem returns_iff : s.Returns check u v r ↔ Unifies check s [(u, v)] r := by
  constructor
  · rintro ⟨hr, h⟩
    obtain ⟨n, hn⟩ := h.exists
    exact unifies_of_unifyAll hn hr
  · intro h
    exact ⟨h.ne_unfinished, h.eventually_unifyAll⟩

/-- One effort that is large enough tells what is returned. -/
theorem returns_of_unify (h : s.unify check n u v = r) (hr : r ≠ .error .unfinished) :
    s.Returns check u v r :=
  returns_iff.2 (unifies_of_unifyAll h hr)

theorem Returns.unique (h : s.Returns check u v r) (h' : s.Returns check u v r') : r = r' :=
  (returns_iff.1 h).unique (returns_iff.1 h')

/-! ### Cycles stay -/

theorem Extends.mentions (h : s.Extends s') {y : Var} (hxy : s.Mentions x y) : s'.Mentions x y := by
  obtain ⟨t, ht, hy⟩ := hxy
  exact ⟨t, h x t ht, hy⟩

/-- A cycle is not undone by more bindings. -/
theorem Acyclic.of_extends (hs' : s'.Acyclic) (h : s.Extends s') : s.Acyclic :=
  fun x hx => hs' x (TransGen.mono (fun _ _ => h.mentions) _ _ hx)

theorem not_acyclic_insert (hx : w.Occurs x) : ¬ (s.insert x w).Acyclic :=
  fun h => h x (.single ⟨w, get?_insert_self, hx⟩)

/-- A binding makes a cycle exactly if its variable stands below its value already. -/
theorem Acyclic.insert_iff (hs : s.Acyclic) (hx : s.get? x = none) :
    (s.insert x t).Acyclic ↔ ¬ (t.subst s.value).Occurs x := by
  refine ⟨fun h hocc => ?_, hs.insert hx⟩
  obtain ⟨y, hy, hyx⟩ := Term.occurs_subst.1 hocc
  have hold : ReflTransGen s.Mentions y x := (hs.occurs_value_iff.1 hyx).2
  have hback : ReflTransGen (s.insert x t).Mentions y x :=
    ReflTransGen.mono (fun _ _ => (extends_insert hx).mentions) _ _ hold
  exact h x (.head' ⟨t, get?_insert_self, hy⟩ hback)

/-! ### Looking for a variable before it is bound -/

/-- Looking for a variable ends. -/
theorem Walks.eventually_occurs (h : s.Walks t w) (x : Var) :
    ∀ᶠ n in atTop, s.occurs n x t = some (decide (x ∈ w.vars)) := by
  obtain ⟨n, hn⟩ := exists_occursIn (x := x) (.cons h .nil)
  refine eventually_atTop.2 ⟨n, fun m hm => ?_⟩
  rw [occurs, occursIn_mono hn hm]
  simp

/-- Binding with the check ends: the check alone may refuse it. -/
theorem Walks.eventually_extendChecked (h : s.Walks t w) (hx : s.get? x = none) :
    ∀ᶠ n in atTop, s.extendChecked n x t =
      if x ∈ w.vars then .error (.circular x t) else .ok (s.insert x t) := by
  filter_upwards [h.eventually_occurs x] with n hn
  rw [extendChecked, hn]
  by_cases hxw : x ∈ w.vars
  · simp [hxw]
  · simp [hxw, extend_eq_insert (contains_eq_false hx)]

/-- **The occurs check is exact.**  It finds a variable exactly if the variable occurs in the walk
of the term, and it refuses to bind an unbound variable exactly if binding it would make a cycle.  A
binding that it lets through is the one that is made without it. -/
theorem Acyclic.occurs_exact (hs : s.Acyclic) (x : Var) (t : Term) :
    (∃ w b, (∀ᶠ n in atTop, s.walk n t = some w ∧ s.occurs n x t = some b) ∧
      (b = true ↔ w.Occurs x)) ∧
    (s.get? x = none → ∃ r c, s.extend x t = .ok r ∧
      (∀ᶠ n in atTop, s.extendChecked n x t = c) ∧
      (c = .error (.circular x t) ↔ ¬ r.Acyclic) ∧ (c = .ok r ↔ r.Acyclic)) := by
  have hw := hs.walks t
  refine ⟨⟨_, _, hw.eventually_walk.and (hw.eventually_occurs x), by simp⟩, fun hx => ?_⟩
  refine ⟨s.insert x t, _, extend_eq_insert (contains_eq_false hx),
    hw.eventually_extendChecked hx, ?_⟩
  rw [hs.insert_iff hx]
  by_cases hocc : (t.subst s.value).Occurs x
  · simp [hocc]
  · simp [hocc]

/-- The way back to the variable goes through two bindings and the cells in them. -/
theorem occurs_exact_cells :
    let s := (empty.insert (.fresh 0) (.cons (.var (.fresh 1)) .nil)).insert (.fresh 1)
      (.cons .nil (.var (.fresh 2)))
    s.Acyclic ∧ s.get? (.fresh 2) = none ∧ ∀ᶠ n in atTop,
      s.extendChecked n (.fresh 2) (.var (.fresh 0)) =
        .error (.circular (.fresh 2) (.var (.fresh 0))) := by
  intro s
  have hs : s.Acyclic := by
    refine (acyclic_empty.insert get?_empty ?_).insert (by simp [get?_insert]) ?_
    · simp [Term.cons, Term.nil]
    · simp [Term.cons, Term.nil, get?_insert]
  have hx : s.get? (.fresh 2) = none := by simp [s, get?_insert]
  obtain ⟨-, hbind⟩ := hs.occurs_exact (.fresh 2) (.var (.fresh 0))
  obtain ⟨r, c, hr, hc, hcyclic, -⟩ := hbind hx
  rw [extend_eq_insert (contains_eq_false hx)] at hr
  cases hr
  obtain rfl := hcyclic.2 fun hacyclic => hacyclic (.fresh 2) <|
    .head ⟨.var (.fresh 0), by cbv, .var⟩ <|
    .head (b := .fresh 1) ⟨.cons (.var (.fresh 1)) .nil, by cbv, .child (by simp) .var⟩ <|
    .single ⟨.cons .nil (.var (.fresh 2)), by cbv, .child (by simp) .var⟩
  exact ⟨hs, hx, hc⟩

/-! ### The two loops in step -/

/-- What the check lets through happens without it as well. -/
theorem Unifies.unchecked (h : Unifies true s pending (.ok s')) :
    Unifies false s pending (.ok s') := by
  generalize hr : Except.ok s' = r at h
  induction h with
  | done s => exact .done s
  | same hu _ ih => exact .same hu (ih hr)
  | nothing hres hd _ ih => exact .nothing hres hd (ih hr)
  | binding hres hd hw _ _ ih => exact .binding hres hd hw (by simp) (ih hr)
  | children hres hd _ ih => exact .children hres hd (ih hr)
  | circular => cases hr
  | clash => cases hr

/-- If no cycle comes out, the check has nothing to refuse on the way. -/
theorem Unifies.checked (h : Unifies false s pending (.ok s')) (hs' : s'.Acyclic) :
    Unifies true s pending (.ok s') := by
  generalize hr : Except.ok s' = r at h
  induction h with
  | done s => exact .done s
  | same hu _ ih => exact .same hu (ih hr)
  | nothing hres hd _ ih => exact .nothing hres hd (ih hr)
  | @binding s u v u' v' t w x pending r hres hd hw _ h ih =>
    -- a refused binding would be a cycle that is still there in the end
    have hxw : ¬ w.Occurs x := by
      subst hr
      exact fun hx => not_acyclic_insert hx (hs'.of_extends h.extends)
    exact .binding hres hd hw (fun _ => hxw) (ih hr)
  | children hres hd _ ih => exact .children hres hd (ih hr)
  | circular => cases hr
  | clash => cases hr

/-- **The occurs check refuses exactly the results with a cycle.**  Starting without cycles,
unification with the check returns `s'` if and only if it returns `s'` without the check and `s'`
has no cycle.  So it is refused wherever without the check it is refused as well, or returns
bindings with a cycle, or does not return. -/
theorem Acyclic.unify_checked_iff (hs : s.Acyclic) (u v : Term) :
    (∀ s', s.Returns true u v (.ok s') ↔ s.Returns false u v (.ok s') ∧ s'.Acyclic) ∧
    ((∃ refusal, s.Returns false u v (.error refusal)) ∨
        (∃ s', s.Returns false u v (.ok s') ∧ ¬ s'.Acyclic) ∨
        (∀ n, s.unify false n u v = .error .unfinished) →
      ∃ refusal, s.Returns true u v (.error refusal)) := by
  have hiff : ∀ s', s.Returns true u v (.ok s') ↔ s.Returns false u v (.ok s') ∧ s'.Acyclic := by
    intro s'
    rw [returns_iff, returns_iff]
    exact ⟨fun h => ⟨h.unchecked, h.acyclic hs⟩, fun ⟨h, hs'⟩ => h.checked hs'⟩
  refine ⟨hiff, fun hfails => ?_⟩
  obtain ⟨r, hr⟩ := hs.exists_unifies [(u, v)]
  have hr : s.Returns true u v r := returns_iff.2 hr
  cases r with
  | error refusal => exact ⟨refusal, hr⟩
  | ok s' =>
    obtain ⟨hret, hs'⟩ := (hiff s').1 hr
    obtain ⟨refusal, hrefused⟩ | ⟨s'', hcyclic, hs''⟩ | hnever := hfails
    · cases hret.unique hrefused
    · cases hret.unique hcyclic
      exact absurd hs' hs''
    · obtain ⟨n, hn⟩ := hret.2.exists
      rw [hnever n] at hn
      cases hn

/-- The cycle goes through a binding that was there before: one variable stands for another one,
which is made equal to a list cell with the first one in it. -/
theorem unify_checked_iff_chain :
    let s := empty.insert (.fresh 0) (.var (.fresh 1))
    let u := Term.var (.fresh 1)
    let v := Term.cons (.var (.fresh 0)) .nil
    s.Acyclic ∧ ∃ refusal, s.Returns true u v (.error refusal) := by
  intro s u v
  have hs : s.Acyclic := acyclic_empty.insert get?_empty (by simp)
  have hok : s.unify false 9 u v =
      .ok (s.insert (.fresh 1) (.cons (.var (.fresh 1)) .nil)) := by cbv
  have hcyclic : ¬ (s.insert (.fresh 1) (.cons (.var (.fresh 1)) .nil)).Acyclic :=
    not_acyclic_insert (.child List.mem_cons_self .var)
  exact ⟨hs, (hs.unify_checked_iff u v).2
    (.inr (.inl ⟨_, returns_of_unify hok (by simp), hcyclic⟩))⟩

end Substitution

end Relational
