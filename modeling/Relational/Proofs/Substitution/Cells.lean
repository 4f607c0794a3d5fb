import Relational.Proofs.Substitution.Frame

/-!
# Unification with list cells

What unification does with a cell on the left side: against a cell, heads and tails are made equal
one after the other; against an unbound variable, the variable is bound; all else is refused.  An
unbound variable on the left is bound to what the other side stands for.  A cell of two new
variables takes a list cell to pieces (`unifies_take`).
-/

namespace Relational

/-- The empty list is a constant. -/
theorem Term.exists_constant_of_isNil {t : Term} (h : t.isNil) :
    ∃ c, t = .constant c ∧ c.value = .plain .unit := by
  cases t <;> simp_all [isNil, value?]

@[simp] theorem Term.occurs_cons {a d : Term} {x : Var} :
    (cons a d).Occurs x ↔ a.Occurs x ∨ d.Occurs x := by
  simp [cons]

@[simp] theorem Term.over_cons {Q : Var → Prop} {a d : Term} :
    (cons a d).Over Q ↔ a.Over Q ∧ d.Over Q := by
  simp [cons, over_compound]

@[simp] theorem Term.subst_cons {θ : Var → Term} {a d : Term} :
    (cons a d).subst θ = cons (a.subst θ) (d.subst θ) := by
  simp [cons]

/-- A list has the variables of its items and of its tail. -/
theorem Term.over_listWithTail {Q : Var → Prop} {es : List Term} {tail : Term} :
    (listWithTail es tail).Over Q ↔ (∀ e ∈ es, e.Over Q) ∧ tail.Over Q := by
  induction es with
  | nil => simp [listWithTail]
  | cons e es ih =>
    have hcons : (listWithTail (e :: es) tail).Over Q ↔ e.Over Q ∧ (listWithTail es tail).Over Q :=
      over_cons
    rw [hcons, ih, List.forall_mem_cons, and_assoc]

theorem Term.over_list {Q : Var → Prop} {es : List Term} :
    (list es).Over Q ↔ ∀ e ∈ es, e.Over Q :=
  over_listWithTail.trans (and_iff_left fun _ hx => absurd hx not_occurs_constant)

theorem Term.subst_listWithTail {θ : Var → Term} (es : List Term) (tail : Term) :
    (listWithTail es tail).subst θ = listWithTail (es.map (subst θ)) (tail.subst θ) := by
  induction es with
  | nil => rfl
  | cons e es ih =>
    have hcons : (listWithTail (e :: es) tail).subst θ =
        cons (e.subst θ) ((listWithTail es tail).subst θ) := subst_cons
    rw [hcons, ih]
    rfl

namespace Substitution

variable {check : Bool} {Q : Var → Prop} {s s' : Substitution} {n : ℕ} {a d c e p r t u w : Term}
  {x y : Var} {pending : List (Term × Term)} {out : Except Refusal Substitution}

/-! ### Lists that are walked to -/

theorem walks_cons_iff : s.Walks (.cons a d) w ↔
    ∃ e r, w = .cons e r ∧ s.Walks a e ∧ s.Walks d r := by
  rw [Term.cons, walks_compound_iff]
  constructor
  · rintro ⟨ws, rfl, h⟩
    obtain ⟨e, _, ha, htail, rfl⟩ := List.forall₂_cons_left_iff.1 h
    obtain ⟨r, _, hd, hnil, rfl⟩ := List.forall₂_cons_left_iff.1 htail
    cases hnil
    exact ⟨e, r, rfl, ha, hd⟩
  · rintro ⟨e, r, rfl, ha, hd⟩
    exact ⟨_, rfl, .cons ha (.cons hd .nil)⟩

/-- A list walks to the list of what its items walk to. -/
theorem walks_list {α : Type} {as : List α} {f g : α → Term}
    (h : ∀ a ∈ as, s.Walks (f a) (g a)) : s.Walks (.list (as.map f)) (.list (as.map g)) := by
  induction as with
  | nil => exact .constant _
  | cons a as ih =>
    obtain ⟨ha, has⟩ := List.forall_mem_cons.1 h
    exact walks_cons_iff.2 ⟨_, _, rfl, ha, ih has⟩

/-- What walks to a list cell resolves to one. -/
theorem Walks.exists_resolve_cons (h : s.Walks t (.cons e r)) :
    ∃ c d, (∃ n, s.resolve n t = some (.cons c d)) ∧ s.Walks c e ∧ s.Walks d r := by
  obtain ⟨n, u, hu⟩ := h.exists_resolve
  have hw : s.Walks u (.cons e r) := (walks_iff_of_resolve hu).1 h
  cases hw with
  | bound hx _ => exact absurd hx (by simp [resolved_of_resolve hu _ rfl])
  | @compound shape ts ws hl hws =>
    have hcell : s.Walks (.compound .cons ts) (.cons e r) := .compound hl hws
    obtain ⟨_, hws', hall⟩ := walks_compound_iff.1 hcell
    cases hws'
    obtain ⟨c, _, hc, htail, rfl⟩ := List.forall₂_cons_right_iff.1 hall
    obtain ⟨d, _, hd, hnil, rfl⟩ := List.forall₂_cons_right_iff.1 htail
    cases hnil
    exact ⟨c, d, ⟨n, hu⟩, hc, hd⟩

/-- Head and tail of a cell that a term over `Q` resolves to. -/
theorem Over.of_resolve_cons (hs : s.Over Q) (ht : t.Over Q)
    (hres : ∃ n, s.resolve n t = some (.cons c d)) : c.Over Q ∧ d.Over Q := by
  obtain ⟨n, hn⟩ := hres
  exact Term.over_cons.1 (hs.of_resolve hn ht)

/-- What walks to a constant resolves to it. -/
theorem Walks.exists_resolve_constant {k : Constant} (h : s.Walks t (.constant k)) :
    ∃ n, s.resolve n t = some (.constant k) := by
  obtain ⟨n, u, hu⟩ := h.exists_resolve
  have hw : s.Walks u (.constant k) := (walks_iff_of_resolve hu).1 h
  cases hw with
  | bound hx _ => exact absurd hx (by simp [resolved_of_resolve hu _ rfl])
  | constant => exact ⟨n, hu⟩

/-- What walks to a variable resolves to it. -/
theorem Walks.exists_resolve_var (h : s.Walks t (.var x)) : ∃ n, s.resolve n t = some (.var x) := by
  obtain ⟨n, u, hu⟩ := h.exists_resolve
  have hw : s.Walks u (.var x) := (walks_iff_of_resolve hu).1 h
  cases hw with
  | bound hx _ => exact absurd hx (by simp [resolved_of_resolve hu _ rfl])
  | free => exact ⟨n, hu⟩

/-- A term over `Q` walks to what it walked to, when another variable is bound. -/
theorem Walks.insert (hw : s.Walks t w) (hs : s.Over Q) (ht : t.Over Q) (hx : ¬ Q x) (u : Term) :
    (s.insert x u).Walks t w :=
  ((SameOn.refl s).insert_right hx).walks hs ht hw

/-! ### Steps of unification -/

/-- An unbound variable is bound to what the other side stands for. -/
theorem Unifies.free (hx : s.get? x = none) (hw : s.Walks t w) (hxw : ¬ w.Occurs x)
    (h : Unifies check (s.insert x w) pending out) :
    Unifies check s ((.var x, t) :: pending) out := by
  obtain ⟨n, u, hu⟩ := hw.exists_resolve
  have huw : s.Walks u w := (walks_iff_of_resolve hu).1 hw
  have hne : ∀ {y}, s.Walks (.var y) w → x ≠ y := by
    rintro y hy rfl
    exact hxw (hy.unique (.free hx) ▸ .var)
  have hdiffer : sameVariable (.var x) t = false := by
    cases t with
    | var y => simpa [sameVariable] using hne hw
    | _ => rfl
  have hdemand : demand (.var x) u = .binding x u := by
    cases u with
    | var y => exact if_neg (hne huw)
    | _ => rfl
  exact .binding ⟨⟨0, resolve_free hx⟩, ⟨n, hu⟩, hdiffer⟩ hdemand huw (fun _ => hxw) h

/-- So it is when it stands on the right side, and no variable on the left one. -/
theorem Unifies.free_right (ht : ∀ y, t ≠ .var y) (hp : ∃ n, s.resolve n p = some (.var x))
    (hw : s.Walks t w) (hxw : ¬ w.Occurs x) (h : Unifies check (s.insert x w) pending out) :
    Unifies check s ((t, p) :: pending) out := by
  have hres : s.Resolved t := fun y hy => absurd hy (ht y)
  have hdiffer : sameVariable t p = false := by
    cases t with
    | var y => exact absurd rfl (ht y)
    | _ => rfl
  have hdemand : demand t (.var x) = .binding x t := by
    cases t with
    | var y => exact absurd rfl (ht y)
    | _ => rfl
  exact .binding ⟨⟨0, hres.resolve_eq⟩, hp, hdiffer⟩ hdemand hw (fun _ => hxw) h

/-- Heads and tails are made equal one after the other. -/
theorem unifies_cells (hp : ∃ n, s.resolve n p = some (.cons c r))
    (h : Unifies check s [(a, c), (d, r)] out) : Unifies check s [(.cons a d, p)] out :=
  .children ⟨⟨0, resolve_compound _ _⟩, hp, rfl⟩ rfl h

theorem not_cell_beq_constant {k : Constant} : ¬ (Term.cons a d == Term.constant k) = true := by
  rw [beq_iff_alike]
  simp [Term.cons, Term.Alike]

/-- No cell is a constant. -/
theorem unifies_cell_constant {k : Constant} (hp : ∃ n, s.resolve n p = some (.constant k)) :
    Unifies check s [(.cons a d, p)] (.error (.clash (.cons a d) (.constant k))) :=
  .clash ⟨⟨0, resolve_compound _ _⟩, hp, rfl⟩ (if_neg not_cell_beq_constant)

/-- A constant is what it is. -/
theorem unifies_constant {k : Constant} (hp : ∃ n, s.resolve n p = some (.constant k)) :
    Unifies check s [(p, .constant k)] (.ok s) := by
  have hself : (Term.constant k == Term.constant k) = true := beq_iff_alike.2 (Term.alike_refl _)
  refine .nothing ⟨hp, ⟨0, resolve_constant k⟩, ?_⟩ (if_pos hself) (.done s)
  cases p <;> rfl

/-- No constant is a cell. -/
theorem unifies_constant_cell {k : Constant} (hp : ∃ n, s.resolve n p = some (.cons c r)) :
    Unifies check s [(p, .constant k)] (.error (.clash (.cons c r) (.constant k))) := by
  refine .clash ⟨hp, ⟨0, resolve_constant k⟩, ?_⟩ (if_neg not_cell_beq_constant)
  cases p <;> rfl

/-- **Two new variables take a cell to pieces**: they are bound to what its head and its tail stand
for. -/
theorem unifies_take (hx : s.get? x = none) (hy : s.get? y = none) (hxy : x ≠ y)
    (hp : ∃ n, s.resolve n p = some (.cons c r)) (hc : s.Walks c e)
    (hr : (s.insert x e).Walks r w) (hxe : ¬ e.Occurs x) (hyw : ¬ w.Occurs y) :
    Unifies check s [(.cons (.var x) (.var y), p)] (.ok ((s.insert x e).insert y w)) := by
  have hy' : (s.insert x e).get? y = none := by rw [get?_insert, if_neg hxy, hy]
  exact unifies_cells hp (.free hx hc hxe (.free hy' hr hyw (.done _)))

/-- A pair with a bound variable on its right side is looked at like one with its value, if that is
no variable. -/
theorem Unifies.bound_right (h : Unifies check s ((t, u) :: pending) out)
    (hx : s.get? x = some u) (hu : ∀ y, u ≠ .var y) (ht : t ≠ .var x) :
    Unifies check s ((t, .var x) :: pending) out := by
  have hres : ∀ {u₁ v₁}, s.Resolves t u u₁ v₁ → s.Resolves t (.var x) u₁ v₁ := by
    rintro u₁ v₁ ⟨hleft, ⟨n, hn⟩, -⟩
    refine ⟨hleft, ⟨n + 1, (resolve_bound hx).trans hn⟩, ?_⟩
    cases t with
    | var y => simpa [sameVariable] using fun hyx : y = x => ht (by rw [hyx])
    | _ => rfl
  cases h with
  | same => exact absurd rfl (hu _)
  | nothing h hd hrest => exact .nothing (hres h) hd hrest
  | binding h hd hw hc hrest => exact .binding (hres h) hd hw hc hrest
  | circular h hd hw hc hocc => exact .circular (hres h) hd hw hc hocc
  | children h hd hrest => exact .children (hres h) hd hrest
  | clash h hd => exact .clash (hres h) hd

/-! ### Outcomes -/

/-- What unification of `x` with a term comes to that stands for `e`. -/
def Decides (check : Bool) (Q : Var → Prop) (s : Substitution) (x e : Term) :
    Option Substitution → Prop
  | some r => r.Acyclic ∧ ∀ u, u.Over Q → s.Walks u e → Unifies check s [(x, u)] (.ok r)
  | none => ∀ u, u.Over Q → s.Walks u e → ∃ refusal, Unifies check s [(x, u)] (.error refusal)

end Substitution

end Relational
