import Relational.Proofs.Search.ListCalls
import Relational.Proofs.Search.Pruning
import Relational.Proofs.Substitution.Agreement
import Relational.Proofs.Substitution.Cells
import Relational.Proofs.Substitution.Reified

/-!
# Two lists one behind the other

A call of `appendo` goes on in one of two ways.  The first list is empty, and the second one is the
result; or the first list is a cell, the result is a cell with the same head, and the relation is
called again with what follows.

If the first list is given, only one of the two ways is open in each call, and the result grows with
the list (`exists_callExhausts_appendo_list`).  If the result is given, both of them are open until
it ends; there the second way is refused before it calls the relation again, because the result is
looked at first.  So there is an answer for each place at which what follows in the result unifies
with the second list (`exists_callExhausts_appendo_splits`).  Both proofs are by the list that is
given (`Gives`); what the calls keep is that the other one ends in an unbound variable, which stands
in none of the items (`State.Blank`).
-/

namespace Relational

open Filter Substitution

/-! ### What the calls keep -/

/-- The variables that satisfy `Q` have been handed out and are unbound, and so is `z`, which is
none of them. -/
structure State.Blank (Q : Var → Prop) (z : Var) (st : State) : Prop where
  same : SameOn Q empty st.substitution
  below : ∀ y, Q y → y.Below st.nextId
  new : ∀ m, st.nextId ≤ m → st.substitution.get? (.fresh m) = none
  free : st.substitution.get? z = none
  below_self : z.Below st.nextId
  not_self : ¬ Q z

/-- The term is the list `es`, or a variable outside of `Q` that is bound to it. -/
def Substitution.Gives (Q : Var → Prop) (s : Substitution) (p : Term) (es : List Term) : Prop :=
  p = .list es ∨ ∃ x, p = .var x ∧ ¬ Q x ∧ s.get? x = some (.list es)

theorem Term.list_ne_var (es : List Term) (x : Var) : Term.list es ≠ .var x := by
  cases es <;> rintro ⟨⟩

namespace Substitution.Gives

variable {check : Bool} {Q : Var → Prop} {s : Substitution} {e p t : Term} {x y : Var}
  {es : List Term}

theorem insert (h : s.Gives Q p es) (hx : s.get? x = none) (u : Term) :
    (s.insert x u).Gives Q p es :=
  h.imp id fun ⟨y, hp, hy, hget⟩ => ⟨y, hp, hy, extends_insert hx y _ hget⟩

theorem exists_resolve (h : s.Gives Q p es) : ∃ n, s.resolve n p = some (.list es) := by
  have hlist : s.Resolved (.list es) := fun x hx => absurd hx (Term.list_ne_var es x)
  obtain rfl | ⟨y, rfl, -, hget⟩ := h
  · exact ⟨0, hlist.resolve_eq⟩
  · exact ⟨1, (resolve_bound hget).trans hlist.resolve_eq⟩

/-- It is the same to unify with it as with the list. -/
theorem unifies {out : Except Refusal Substitution} (h : s.Gives Q p es) (ht : t.Over Q)
    (hout : Unifies check s [(t, .list es)] out) : Unifies check s [(t, p)] out := by
  obtain rfl | ⟨y, rfl, hy, hget⟩ := h
  · exact hout
  · refine hout.bound_right hget (Term.list_ne_var es) ?_
    rintro rfl
    exact hy (Term.over_var.1 ht)

/-- Two new variables take it to pieces. -/
theorem unifies_take (h : s.Gives Q p (e :: es)) (hs : SameOn Q empty s)
    (hes : (Term.list (e :: es)).Over Q) (hx : s.get? x = none) (hy : s.get? y = none)
    (hxy : x ≠ y) (hxQ : ¬ Q x) (hyQ : ¬ Q y) :
    Unifies check s [(.cons (.var x) (.var y), p)] (.ok ((s.insert x e).insert y (.list es))) := by
  obtain ⟨he, hes⟩ := Term.over_cons.1 hes
  exact Substitution.unifies_take hx hy hxy h.exists_resolve (hs.walks_self he)
    ((hs.insert_right hxQ).walks_self hes) (fun hocc => hxQ (he x hocc))
    fun hocc => hyQ (hes y hocc)

end Substitution.Gives

section Blank

variable {Q : Var → Prop} {st : State} {z : Var}

theorem State.Blank.ne_fresh (h : st.Blank Q z) {m : ℕ} (hm : st.nextId ≤ m) : z ≠ .fresh m :=
  h.below_self.ne_fresh hm

theorem State.Blank.not_fresh (h : st.Blank Q z) {m : ℕ} (hm : st.nextId ≤ m) : ¬ Q (.fresh m) :=
  fun hQ => Var.not_below_self ((h.below _ hQ).mono hm)

/-- A variable in which nothing is bound has a list of its own. -/
theorem State.blank_start {name : String} (config : SearchConfig) (hQ : ∀ y, Q y → y.Below 0)
    (hname : ¬ Q (.named name)) : (State.start config).Blank Q (.named name) :=
  ⟨.refl _, hQ, fun _ _ => get?_empty, get?_empty, Var.below_named, hname⟩

end Blank

/-! ### The first list is given -/

/-- The first list is taken to pieces. -/
def State.piecesOf (st : State) (e : Term) (es : List Term) : Substitution :=
  (st.substitution.insert (.fresh st.nextId) e).insert (.fresh (st.nextId + 1)) (.list es)

/-- The result gets a cell with the item `e`. -/
def State.forward (st : State) (z : Var) (e : Term) (es : List Term) : State :=
  ⟨(st.piecesOf e es).insert z (.cons e (.var (.fresh (st.nextId + 2)))), st.nextId + 3, st.config⟩

namespace State.Blank

variable {Q : Var → Prop} {st : State} {z : Var} {e p t : Term} {es : List Term}

theorem get?_piecesOf (h : st.Blank Q z) : (st.piecesOf e es).get? z = none := by
  rw [State.piecesOf, get?_insert, if_neg (h.ne_fresh (by omega)).symm, get?_insert,
    if_neg (h.ne_fresh le_rfl).symm, h.free]

theorem get?_piecesOf_fresh (h : st.Blank Q z) {m : ℕ} (hm : st.nextId + 2 ≤ m) :
    (st.piecesOf e es).get? (.fresh m) = none := by
  have hne : Var.fresh (st.nextId + 1) ≠ .fresh m := by simpa using (by omega : st.nextId + 1 ≠ m)
  have hne' : Var.fresh st.nextId ≠ .fresh m := by simpa using (by omega : st.nextId ≠ m)
  rw [State.piecesOf, get?_insert, if_neg hne, get?_insert, if_neg hne', h.new m (by omega)]

theorem same_piecesOf (h : st.Blank Q z) : SameOn Q empty (st.piecesOf e es) :=
  (h.same.insert_right (h.not_fresh le_rfl)).insert_right (h.not_fresh (by omega))

/-- What remains of the first list is under a variable that has just been handed out. -/
theorem get?_forward_rest (h : st.Blank Q z) :
    (st.forward z e es).substitution.get? (.fresh (st.nextId + 1)) = some (.list es) := by
  rw [State.forward, get?_insert, if_neg (h.ne_fresh (by omega)), State.piecesOf,
    get?_insert_self]

/-- The result goes on in another one. -/
theorem forward (h : st.Blank Q z) (e : Term) (es : List Term) :
    (st.forward z e es).Blank Q (.fresh (st.nextId + 2)) where
  same := h.same_piecesOf.insert_right h.not_self
  below := fun y hy => (h.below y hy).mono (Nat.le_add_right _ 3)
  new := fun m (hm : st.nextId + 3 ≤ m) => by
    rw [State.forward, get?_insert, if_neg (h.ne_fresh (by omega)),
      h.get?_piecesOf_fresh (by omega)]
  free := by
    rw [State.forward, get?_insert, if_neg (h.ne_fresh (by omega)), h.get?_piecesOf_fresh le_rfl]
  below_self := Var.below_fresh.2 (show st.nextId + 2 < st.nextId + 3 by omega)
  not_self := h.not_fresh (by omega)

theorem unifies_piecesOf (h : st.Blank Q z) (check : Bool)
    (hp : st.substitution.Gives Q p (e :: es)) (hes : (Term.list (e :: es)).Over Q) :
    st.substitution.Unifies check
      [(.cons (.var (.fresh st.nextId)) (.var (.fresh (st.nextId + 1))), p)]
      (.ok (st.piecesOf e es)) :=
  hp.unifies_take h.same hes (h.new _ le_rfl) (h.new _ (by omega)) (by simp) (h.not_fresh le_rfl)
    (h.not_fresh (by omega))

theorem unifies_forward (h : st.Blank Q z) (check : Bool) (he : e.Over Q) :
    (st.piecesOf e es).Unifies check
      [(.cons (.var (.fresh st.nextId)) (.var (.fresh (st.nextId + 2))), .var z)]
      (.ok (st.forward z e es).substitution) := by
  have hhead : (st.piecesOf e es).get? (.fresh st.nextId) = some e := by
    rw [State.piecesOf, get?_insert, if_neg (by simp), get?_insert_self]
  have hcell : (st.piecesOf e es).Walks
      (.cons (.var (.fresh st.nextId)) (.var (.fresh (st.nextId + 2))))
      (.cons e (.var (.fresh (st.nextId + 2)))) :=
    walks_cons_iff.2 ⟨_, _, rfl, .bound hhead (h.same_piecesOf.walks_self he),
      .free (h.get?_piecesOf_fresh le_rfl)⟩
  refine .free_right (by rintro y ⟨⟩) ⟨0, resolve_free h.get?_piecesOf⟩ hcell ?_ (.done _)
  rw [Term.occurs_cons, Term.occurs_var]
  rintro (hocc | hz)
  · exact h.not_self (he z hocc)
  · exact h.ne_fresh (Nat.le_add_right _ 2) hz.symm

/-- Behind the last item, the result is what was to follow. -/
theorem exists_unifies_rest (h : st.Blank Q z) (check : Bool) (ht : t.Over Q) :
    ∃ s', st.substitution.Unifies check [(t, .var z)] (.ok s') ∧
      ∃ ρ : Var → Var, (∀ y, Q y → s'.Walks (.var y) (.var (ρ y))) ∧
        s'.Walks (.var z) (t.rename ρ) := by
  have hfree : ∀ {y}, Q y → st.substitution.get? y = none := fun hy =>
    (h.same _ hy).trans get?_empty
  have hne : ∀ {y}, Q y → z ≠ y := fun hy hzy => h.not_self (hzy ▸ hy)
  have hvar : (∃ y, t = .var y) ∨ ∀ y, t ≠ .var y := by
    rw [← not_exists]
    exact em _
  obtain ⟨y, rfl⟩ | hnot := hvar
  · -- an unbound variable is bound to the end of the result, and not the other way round
    have hy := Term.over_var.1 ht
    have hother : ∀ {x}, st.substitution.get? x = none → x ≠ y →
        (st.substitution.insert y (.var z)).get? x = none := by
      intro x hx hxy
      rw [get?_insert, if_neg hxy.symm, hx]
    have hend : (st.substitution.insert y (.var z)).Walks (.var z) (.var z) :=
      .free (hother h.free (hne hy))
    refine ⟨_, .free (hfree hy) (.free h.free) (by simpa using hne hy) (.done _),
      Function.update id y z, fun x hx => ?_, ?_⟩
    · by_cases hxy : x = y
      · subst hxy
        rw [Function.update_self]
        exact .bound get?_insert_self hend
      · rw [Function.update_of_ne hxy]
        exact .free (hother (hfree hx) hxy)
    · rw [Term.rename_var, Function.update_self]
      exact hend
  · have hw : st.substitution.Walks t t := h.same.walks_self ht
    have hocc : ¬ t.Occurs z := fun hocc => h.not_self (ht z hocc)
    have hsame : SameOn Q empty (st.substitution.insert z t) := h.same.insert_right h.not_self
    refine ⟨_, .free_right hnot ⟨0, resolve_free h.free⟩ hw hocc (.done _), id,
      fun x hx => hsame.walks_self (Term.over_var.2 hx), ?_⟩
    rw [Term.rename_eq_self (ρ := id) fun _ _ => rfl]
    exact .bound get?_insert_self (hsame.walks_self ht)

end State.Blank

namespace Goal

variable {Q : Var → Prop} {st : State} {z : Var} {e p t : Term} {es : List Term}

/-- What a call of a relation about lists finds has the bindings that were there before. -/
theorem CallExhausts.extends {relation : String} {arguments : List Term}
    {layers : List (List State)} (h : CallExhausts relation arguments st layers) {st' : State}
    (hst' : st' ∈ layers.flatten) : st.substitution.Extends st'.substitution :=
  ((h.exhausts .none).kept st' hst').bindings

/-- **A list that is given is put in front**, item by item, and there is one result. -/
theorem exists_callExhausts_appendo_list (h : st.Blank Q z)
    (hp : st.substitution.Gives Q p es) (hes : ∀ e ∈ es, e.Over Q) (ht : t.Over Q) :
    ∃ ls st', CallExhausts "appendo" [p, t, .var z] st ([] :: ls) ∧ ls.flatten = [st'] ∧
      ∃ ρ : Var → Var, (∀ y, Q y → st'.substitution.Walks (.var y) (.var (ρ y))) ∧
        st'.substitution.Walks (.var z) ((Term.listWithTail es t).rename ρ) := by
  induction es generalizing st z p with
  | nil =>
    obtain ⟨s', hs', hread⟩ := h.exists_unifies_rest st.config.occursCheck ht
    refine ⟨_, st.withSubstitution s', callExhausts_appendo
      (nothing_found (unifies_constant hp.exists_resolve) hs')
      (cell_refused (unifies_cell_constant hp.exists_resolve)), rfl, hread⟩
  | cons e es ih =>
    have hlist : (Term.list (e :: es)).Over Q := Term.over_list.2 hes
    obtain ⟨he, hes⟩ := List.forall_mem_cons.1 hes
    have hrest : (st.forward z e es).substitution.Gives Q (.var (.fresh (st.nextId + 1))) es :=
      .inr ⟨_, rfl, h.not_fresh (by omega), h.get?_forward_rest⟩
    obtain ⟨ls, st', hls, hflat, ρ, hρ, hread⟩ := ih (h.forward e es) hrest hes
    have hcall := callExhausts_appendo (nothing_refused (unifies_constant_cell hp.exists_resolve))
      (cell_found (h.unifies_piecesOf _ hp hlist) (h.unifies_forward _ he) hls)
    refine ⟨_, st', hcall, hflat, ρ, hρ, ?_⟩
    have hextends : (st.forward z e es).substitution.Extends st'.substitution :=
      hls.extends (show st' ∈ ls.flatten from hflat ▸ List.mem_singleton_self st')
    have hhead : st'.substitution.Walks e (e.rename ρ) := walks_subst fun y hy => hρ y (he y hy)
    have hcell : (Term.listWithTail (e :: es) t).rename ρ =
        .cons (e.rename ρ) ((Term.listWithTail es t).rename ρ) := Term.subst_cons
    rw [hcell]
    exact .bound (hextends _ _ get?_insert_self) (walks_cons_iff.2 ⟨_, _, rfl, hhead, hread⟩)

end Goal

/-! ### The result is given -/

/-- The first list is a cell of two variables that are handed out. -/
def State.cellOf (st : State) (z : Var) : Substitution :=
  st.substitution.insert z (.cons (.var (.fresh st.nextId)) (.var (.fresh (st.nextId + 1))))

/-- The item `e` is its head, and the list `es` is what remains of the result. -/
def State.backward (st : State) (z : Var) (e : Term) (es : List Term) : State :=
  ⟨((st.cellOf z).insert (.fresh st.nextId) e).insert (.fresh (st.nextId + 2)) (.list es),
    st.nextId + 3, st.config⟩

namespace State.Blank

variable {Q : Var → Prop} {st : State} {z : Var} {e q : Term} {es : List Term}

theorem get?_cellOf_fresh (h : st.Blank Q z) {m : ℕ} (hm : st.nextId ≤ m) :
    (st.cellOf z).get? (.fresh m) = none := by
  rw [State.cellOf, get?_insert, if_neg (h.ne_fresh hm), h.new m hm]

theorem get?_backward_fresh (h : st.Blank Q z) {m : ℕ} (hm : st.nextId ≤ m) (hne : m ≠ st.nextId)
    (hne' : m ≠ st.nextId + 2) : (st.backward z e es).substitution.get? (.fresh m) = none := by
  rw [State.backward, get?_insert, if_neg (by simpa using hne'.symm), get?_insert,
    if_neg (by simpa using hne.symm), h.get?_cellOf_fresh hm]

theorem same_cellOf (h : st.Blank Q z) : SameOn Q empty (st.cellOf z) :=
  h.same.insert_right h.not_self

/-- What remains of the first list is a variable that has just been handed out. -/
theorem backward (h : st.Blank Q z) (e : Term) (es : List Term) :
    (st.backward z e es).Blank Q (.fresh (st.nextId + 1)) where
  same := (h.same_cellOf.insert_right (h.not_fresh le_rfl)).insert_right (h.not_fresh (by omega))
  below := fun y hy => (h.below y hy).mono (Nat.le_add_right _ 3)
  new := fun m (hm : st.nextId + 3 ≤ m) => h.get?_backward_fresh (by omega) (by omega) (by omega)
  free := h.get?_backward_fresh (by omega) (by omega) (by omega)
  below_self := Var.below_fresh.2 (show st.nextId + 1 < st.nextId + 3 by omega)
  not_self := h.not_fresh (by omega)

theorem extends_backward (h : st.Blank Q z) :
    st.substitution.Extends (st.backward z e es).substitution := by
  have hnext : ((st.cellOf z).insert (.fresh st.nextId) e).get? (.fresh (st.nextId + 2)) =
      none := by
    rw [get?_insert, if_neg (by simp), h.get?_cellOf_fresh (by omega)]
  exact ((extends_insert h.free).trans (extends_insert (h.get?_cellOf_fresh le_rfl))).trans
    (extends_insert hnext)

theorem get?_backward_self (h : st.Blank Q z) : (st.backward z e es).substitution.get? z =
    some (.cons (.var (.fresh st.nextId)) (.var (.fresh (st.nextId + 1)))) := by
  rw [State.backward, get?_insert, if_neg (h.ne_fresh (by omega)).symm, get?_insert,
    if_neg (h.ne_fresh le_rfl).symm, State.cellOf, get?_insert_self]

theorem get?_backward_head :
    (st.backward z e es).substitution.get? (.fresh st.nextId) = some e := by
  rw [State.backward, get?_insert, if_neg (by simp), get?_insert_self]

/-- The first list is made a cell. -/
theorem unifies_cellOf (h : st.Blank Q z) (check : Bool) : st.substitution.Unifies check
    [(.cons (.var (.fresh st.nextId)) (.var (.fresh (st.nextId + 1))), .var z)]
    (.ok (st.cellOf z)) := by
  have hw : st.substitution.Walks
      (.cons (.var (.fresh st.nextId)) (.var (.fresh (st.nextId + 1))))
      (.cons (.var (.fresh st.nextId)) (.var (.fresh (st.nextId + 1)))) :=
    walks_cons_iff.2 ⟨_, _, rfl, .free (h.new _ le_rfl), .free (h.new _ (by omega))⟩
  refine .free_right (by rintro y ⟨⟩) ⟨0, resolve_free h.free⟩ hw ?_ (.done _)
  simp [(h.ne_fresh le_rfl).symm, (h.ne_fresh (Nat.le_add_right _ 1)).symm]

/-- And the result is taken to pieces, if it is a cell. -/
theorem unifies_backward (h : st.Blank Q z) (check : Bool)
    (hq : st.substitution.Gives Q q (e :: es)) (hes : (Term.list (e :: es)).Over Q) :
    (st.cellOf z).Unifies check
      [(.cons (.var (.fresh st.nextId)) (.var (.fresh (st.nextId + 2))), q)]
      (.ok (st.backward z e es).substitution) :=
  (hq.insert h.free _).unifies_take h.same_cellOf hes (h.get?_cellOf_fresh le_rfl)
    (h.get?_cellOf_fresh (by omega)) (by simp) (h.not_fresh le_rfl) (h.not_fresh (by omega))

end State.Blank

/-- The list `f.1` is bound to `z`, and unification of the rest has come to `f.2`. -/
structure State.Split (Q R : Var → Prop) (st : State) (z : Var) (f : List Term × Substitution)
    (st' : State) : Prop where
  bindings : st.substitution.Extends st'.substitution
  same : SameOn Q f.2 st'.substitution
  free : ∀ y, R y → st'.substitution.get? y = none
  walks : st'.substitution.Walks (.var z) (.list f.1)

/-- One more item stands in front of the first list. -/
theorem State.Split.cons {Q R : Var → Prop} {st st' : State} {z : Var} {e : Term} {es : List Term}
    {f : List Term × Substitution} (hst : st.Blank Q z) (he : e.Over R)
    (h : State.Split Q R (st.backward z e es) (.fresh (st.nextId + 1)) f st') :
    State.Split Q R st z (e :: f.1, f.2) st' where
  bindings := hst.extends_backward.trans h.bindings
  same := h.same
  free := h.free
  walks := by
    have hhead : st'.substitution.Walks (.var (.fresh st.nextId)) e :=
      .bound (h.bindings _ _ State.Blank.get?_backward_head)
        (walks_self fun y hy => h.free y (he y hy))
    exact .bound (h.bindings _ _ hst.get?_backward_self)
      (walks_cons_iff.2 ⟨_, _, rfl, hhead, h.walks⟩)

namespace Goal

/-- The beginnings of a list, each with what unification comes to for the rest, without those for
which it is refused. -/
def splits (outcome : List Term → Option Substitution) (es : List Term) :
    List (List Term × Substitution) :=
  (List.range (es.length + 1)).filterMap fun i => (outcome (es.drop i)).map (es.take i, ·)

variable {Q R : Var → Prop} {st : State} {z : Var} {e q t : Term} {es : List Term}
  {o : Option Substitution} {outcome : List Term → Option Substitution}

theorem splits_nil : splits outcome [] = (outcome []).toList.map ([], ·) := by
  simp only [splits, List.drop_nil, List.take_nil]
  cases outcome [] <;> rfl

theorem splits_cons : splits outcome (e :: es) = (outcome (e :: es)).toList.map ([], ·) ++
    (splits outcome es).map fun f => (e :: f.1, f.2) := by
  rw [splits, List.length_cons, List.range_succ_eq_map, List.filterMap_cons, splits,
    List.map_filterMap, List.filterMap_map]
  simp only [List.drop_zero, List.take_zero, Function.comp_def, List.drop_succ_cons,
    List.take_succ_cons, Option.map_map]
  cases outcome (e :: es) <;> rfl

/-- The first list is empty, if the second one is the result. -/
theorem exists_nothing_exhausts (h : st.Blank Q z) (ht : t.Over Q) (hR : ∀ y, R y → Q y)
    (hes : ∀ e ∈ es, e.Over R) (hq : st.substitution.Gives Q q es)
    (hout : ∃ out, Unifies st.config.occursCheck empty [(t, .list es)] out ∧ out.toOption = o)
    (hfree : ∀ r, o = some r → ∀ y, R y → r.get? y = none) :
    ∃ found, ClauseExhausts appendNothing (.var z) t q st [[], found] ∧
      List.Forall₂ (State.Split Q R st z) (o.toList.map ([], ·)) found := by
  obtain ⟨out, hout, rfl⟩ := hout
  have hlist : (Term.list es).Over Q := Term.over_list.2 fun e he => (hes e he).mono hR
  have hnil : st.substitution.Unifies st.config.occursCheck [(.var z, .nil)]
      (.ok (st.substitution.insert z .nil)) :=
    .free h.free (.constant _) Term.not_occurs_constant (.done _)
  obtain ⟨out', hout', hframed⟩ := hout.frame (h.same.insert_right h.not_self) over_empty
    (by simpa using ⟨ht, hlist⟩)
  refine ⟨_, nothing_found hnil ((hq.insert h.free _).unifies ht hout'), ?_⟩
  cases out with
  | error refusal =>
    cases out' with
    | error refusal' => exact .nil
    | ok r' => exact hframed.elim
  | ok r =>
    cases out' with
    | error refusal' => exact hframed.elim
    | ok r' =>
      obtain ⟨hsame, -⟩ := hframed
      have hextends := hout'.extends
      exact .cons ⟨(extends_insert h.free).trans hextends, hsame,
        fun y hy => (hsame y (hR y hy)).trans (hfree r rfl y hy),
        .bound (hextends _ _ get?_insert_self) (.constant _)⟩ .nil

/-- **A list that is the result is cut in two at every place**, from its beginning to its end. -/
theorem exists_callExhausts_appendo_splits (h : st.Blank Q z) (ht : t.Over Q)
    (hR : ∀ y, R y → Q y) (hes : ∀ e ∈ es, e.Over R) (hq : st.substitution.Gives Q q es)
    (hout : ∀ suffix, suffix <:+ es → ∃ out,
      Unifies st.config.occursCheck empty [(t, .list suffix)] out ∧ out.toOption = outcome suffix)
    (hfree : ∀ suffix r, outcome suffix = some r → ∀ y, R y → r.get? y = none) :
    ∃ ls, CallExhausts "appendo" [.var z, t, q] st ([] :: ls) ∧
      List.Forall₂ (State.Split Q R st z) (splits outcome es) ls.flatten := by
  -- what follows in the result has a new name in each call, and the first list a new end
  induction es generalizing st z q with
  | nil =>
    obtain ⟨found, hfound, hsplit⟩ :=
      exists_nothing_exhausts h ht hR hes hq (hout [] List.suffix_rfl) (hfree [])
    have hcell := cell_refused_result (t := t) (h.unifies_cellOf st.config.occursCheck)
      (unifies_cell_constant (hq.insert h.free _).exists_resolve)
    refine ⟨_, callExhausts_appendo hfound hcell, ?_⟩
    simpa [splits_nil] using hsplit
  | cons e es ih =>
    obtain ⟨found, hfound, hsplit⟩ :=
      exists_nothing_exhausts h ht hR hes hq (hout _ List.suffix_rfl) (hfree _)
    have hlist : (Term.list (e :: es)).Over Q := Term.over_list.2 fun e he => (hes e he).mono hR
    have hback := h.unifies_backward st.config.occursCheck hq hlist
    obtain ⟨he, hes⟩ := List.forall_mem_cons.1 hes
    have hrest : (st.backward z e es).substitution.Gives Q (.var (.fresh (st.nextId + 2))) es :=
      .inr ⟨_, rfl, h.not_fresh (by omega), get?_insert_self⟩
    obtain ⟨ls, hls, hsplits⟩ := ih (h.backward e es) hes hrest
      fun suffix hsuffix => hout suffix (hsuffix.trans (List.suffix_cons e es))
    have hcell := cell_found (h.unifies_cellOf st.config.occursCheck) hback hls
    refine ⟨_, callExhausts_appendo hfound hcell, ?_⟩
    have hflat : ([] :: [] :: found :: [] :: ls).flatten = found ++ ls.flatten := rfl
    rw [hflat, splits_cons]
    exact List.rel_append hsplit
      (List.forall₂_map_left_iff.2 (hsplits.imp fun f st' hf => hf.cons h he))

/-! ### From the empty state -/

/-- In the state, the variable reifies to what the term reifies to when nothing is bound. -/
def ReifiesLike (st : State) (x : Var) (t : Term) : Prop :=
  ∃ w, ∀ᶠ n in atTop, st.substitution.reifyTerm n (.var x) = some w ∧ empty.reifyTerm n t = some w

theorem reifiesLike_of_walks {x : Var} {w : Term} (hw : st.substitution.Walks (.var x) w)
    (ht : w.subst (fun _ => .unassigned) = t.subst fun _ => .unassigned) : ReifiesLike st x t := by
  have hself : empty.Walks t t := walks_self fun _ _ => get?_empty
  refine ⟨_, hw.eventually_reifyTerm.and ?_⟩
  rw [ht]
  exact hself.eventually_reifyTerm

variable {x y : String}

theorem exists_completes_appendo_list (config : SearchConfig) (loc : Locals)
    (hes : ∀ e ∈ es, e.Over fun y => y.Below 0 ∧ y ≠ .named x)
    (ht : t.Over fun y => y.Below 0 ∧ y ≠ .named x) :
    ∃ layers st', (∀ᶠ n in atTop, Completes ⟨Program.lists, n⟩
        (.call "appendo" [.term (.list es), .term t, .term (.var (.named x))]) loc (.start config)
          layers) ∧
      layers.flatten = [st'] ∧ ReifiesLike st' (.named x) (.listWithTail es t) := by
  obtain ⟨ls, st', hcall, hflat, ρ, -, hread⟩ := exists_callExhausts_appendo_list
    (State.blank_start config (fun y hy => hy.1) fun h => h.2 rfl) (.inl rfl) hes ht
  exact ⟨_, st', (hcall.exhausts loc).eventually_completes, hflat,
    reifiesLike_of_walks hread (Term.subst_rename _ _)⟩

theorem exists_completes_appendo_splits (config : SearchConfig) (loc : Locals) (hxy : x ≠ y)
    (hes : ∀ e ∈ es, e.Over fun z => z.Below 0 ∧ z ≠ .named x ∧ z ≠ .named y) :
    ∃ layers, (∀ᶠ n in atTop, Completes ⟨Program.lists, n⟩ (.call "appendo"
        [.term (.var (.named x)), .term (.var (.named y)), .term (.list es)]) loc (.start config)
          layers) ∧
      List.Forall₂ (fun i st' => ReifiesLike st' (.named x) (.list (es.take i)) ∧
        ReifiesLike st' (.named y) (.list (es.drop i))) (List.range (es.length + 1))
          layers.flatten := by
  let Q : Var → Prop := fun z => z.Below 0 ∧ z ≠ .named x
  let R : Var → Prop := fun z => z.Below 0 ∧ z ≠ .named x ∧ z ≠ .named y
  have hlist : ∀ {suffix}, suffix <:+ es → (Term.list suffix).Over R := fun h =>
    Term.over_list.2 fun e he => hes e (h.subset he)
  have hblank : (State.start config).Blank Q (.named x) :=
    State.blank_start config (fun z hz => hz.1) fun h => h.2 rfl
  have hQ : Q (.named y) := ⟨Var.below_named, by simpa using hxy.symm⟩
  have hout : ∀ suffix, suffix <:+ es → ∃ out,
      Unifies config.occursCheck empty [(.var (.named y), .list suffix)] out ∧
        out.toOption = some (empty.insert (.named y) (.list suffix)) := fun suffix h =>
    ⟨_, .free get?_empty (walks_self fun _ _ => get?_empty)
      (fun hocc => (hlist h _ hocc).2.2 rfl) (.done _), rfl⟩
  have hfree : ∀ suffix r, some (empty.insert (.named y) (.list suffix)) = some r →
      ∀ z, R z → r.get? z = none := by
    rintro suffix r ⟨⟩ z hz
    rw [get?_insert, if_neg hz.2.2.symm, get?_empty]
  obtain ⟨ls, hcall, hsplits⟩ := exists_callExhausts_appendo_splits hblank (Term.over_var.2 hQ)
    (fun z hz => ⟨hz.1, hz.2.1⟩) hes (.inl rfl) hout hfree
  refine ⟨_, (hcall.exhausts loc).eventually_completes, ?_⟩
  have hall : splits (fun suffix => some (empty.insert (.named y) (.list suffix))) es =
      (List.range (es.length + 1)).map
        fun i => (es.take i, empty.insert (.named y) (.list (es.drop i))) := by
    rw [splits, ← List.filterMap_eq_map]
    rfl
  rw [hall, List.forall₂_map_left_iff] at hsplits
  refine hsplits.imp fun i st' h => ⟨reifiesLike_of_walks h.walks rfl, ?_⟩
  have hrest : st'.substitution.Walks (.list (es.drop i)) (.list (es.drop i)) :=
    walks_self fun z hz => h.free z (hlist (List.drop_suffix i es) z hz)
  exact reifiesLike_of_walks (.bound ((h.same _ hQ).trans get?_insert_self) hrest) rfl

theorem exists_completes_appendo_suffix (config : SearchConfig) (loc : Locals) (ht : t.Ground)
    (hes : ∀ e ∈ es, e.Ground) :
    ∃ layers, (∀ᶠ n in atTop, Completes ⟨Program.lists, n⟩ (.call "appendo"
        [.term (.var (.named x)), .term t, .term (.list es)]) loc (.start config) layers) ∧
      List.Forall₂ (fun i st' => ∀ᶠ n in atTop,
          st'.substitution.reifyTerm n (.var (.named x)) = some (.list (es.take i)))
        ((List.range (es.length + 1)).filter fun i => t == .list (es.drop i)) layers.flatten := by
  have hground : ∀ es' : List Term, (∀ e ∈ es', e ∈ es) → (Term.list es').Ground := fun _ h =>
    Term.over_list.2 fun e he => hes e (h e he)
  have hblank : (State.start config).Blank (fun _ => False) (.named x) :=
    State.blank_start config (fun _ => False.elim) id
  have hout : ∀ suffix, suffix <:+ es → ∃ out, Unifies config.occursCheck empty
      [(t, .list suffix)] out ∧ out.toOption = if t == .list suffix then some empty else none := by
    intro suffix hsuffix
    obtain ⟨hok, hclash⟩ := acyclic_empty.returns_of_ground config.occursCheck ht
      (hground suffix fun e he => hsuffix.subset he)
    by_cases heq : (t == .list suffix) = true
    · exact ⟨_, returns_iff.1 ((hok empty).2 ⟨rfl, heq⟩), (if_pos heq).symm⟩
    · obtain ⟨a, b, h⟩ := hclash (by simpa using heq)
      exact ⟨_, returns_iff.1 h, (if_neg heq).symm⟩
  obtain ⟨ls, hcall, hsplits⟩ := exists_callExhausts_appendo_splits hblank ht (fun _ => id) hes
    (.inl rfl) hout fun _ _ _ _ => False.elim
  refine ⟨_, (hcall.exhausts loc).eventually_completes, ?_⟩
  have hall : splits (fun suffix => if t == .list suffix then some empty else none) es =
      ((List.range (es.length + 1)).filter fun i => t == .list (es.drop i)).map
        fun i => (es.take i, empty) := by
    rw [splits, ← List.filterMap_eq_filter, List.map_filterMap]
    refine List.filterMap_congr fun i _ => ?_
    rw [Option.guard]
    split_ifs <;> rfl
  rw [hall, List.forall₂_map_left_iff] at hsplits
  refine hsplits.imp fun i st' h => ?_
  have hmarked := h.walks.eventually_reifyTerm
  rwa [(hground _ fun e he => List.mem_of_mem_take he).subst_eq] at hmarked

/-- **`appendo` puts a list in front of a term, cuts a list in two, and takes an end off it**, and
the search comes to an end in all three directions.  For a list that is given there is one answer.
If the result is given and nothing else, there is one answer for each place at which it can be cut,
from its beginning to its end; and with the second part given as well, those of them remain in which
the list ends in a part that is equal to it. -/
theorem appendo_concatenates (config : SearchConfig) (loc : Locals) (es : List Term) :
    (∀ (t : Term) (q : String), (∀ e ∈ es, e.Over fun z => z.Below 0 ∧ z ≠ .named q) →
      (t.Over fun z => z.Below 0 ∧ z ≠ .named q) →
      ∃ layers st', (∀ᶠ n in atTop, Completes ⟨Program.lists, n⟩
          (.call "appendo" [.term (.list es), .term t, .term (.var (.named q))]) loc (.start config)
            layers) ∧
        layers.flatten = [st'] ∧ ReifiesLike st' (.named q) (.listWithTail es t)) ∧
    (∀ x y : String, x ≠ y →
      (∀ e ∈ es, e.Over fun z => z.Below 0 ∧ z ≠ .named x ∧ z ≠ .named y) →
      ∃ layers, (∀ᶠ n in atTop, Completes ⟨Program.lists, n⟩ (.call "appendo"
          [.term (.var (.named x)), .term (.var (.named y)), .term (.list es)]) loc (.start config)
            layers) ∧
        List.Forall₂ (fun i st' => ReifiesLike st' (.named x) (.list (es.take i)) ∧
          ReifiesLike st' (.named y) (.list (es.drop i))) (List.range (es.length + 1))
            layers.flatten) ∧
    ∀ (suffix : Term) (q : String), suffix.Ground → (∀ e ∈ es, e.Ground) →
      ∃ layers, (∀ᶠ n in atTop, Completes ⟨Program.lists, n⟩ (.call "appendo"
          [.term (.var (.named q)), .term suffix, .term (.list es)]) loc (.start config) layers) ∧
        List.Forall₂ (fun i st' => ∀ᶠ n in atTop,
            st'.substitution.reifyTerm n (.var (.named q)) = some (.list (es.take i)))
          ((List.range (es.length + 1)).filter fun i => suffix == .list (es.drop i))
            layers.flatten :=
  ⟨fun _ _ hes ht => exists_completes_appendo_list config loc hes ht,
    fun _ _ hxy hes => exists_completes_appendo_splits config loc hxy hes,
    fun _ _ ht hes => exists_completes_appendo_suffix config loc ht hes⟩

/-- A variable is put behind a list in which it stands, that list is cut in two, and of two equal
items one is taken off the end. -/
theorem appendo_concatenates_items :
    let w := Term.var (.named "w")
    let es := [w, .nil]
    (∀ e ∈ es, e.Over fun z => z.Below 0 ∧ z ≠ .named "x") ∧
      (w.Over fun z => z.Below 0 ∧ z ≠ .named "x") ∧ "x" ≠ "y" ∧
      (∀ e ∈ es, e.Over fun z => z.Below 0 ∧ z ≠ .named "x" ∧ z ≠ .named "y") ∧
      (Term.list [.nil]).Ground ∧ (∀ e ∈ [Term.nil, .nil], e.Ground) ∧
      (∃ layers st', (∀ᶠ n in atTop, Completes ⟨Program.lists, n⟩ (.call "appendo"
          [.term (.list es), .term w, .term (.var (.named "x"))]) .none (.start {}) layers) ∧
        layers.flatten = [st'] ∧ ReifiesLike st' (.named "x") (.listWithTail es w)) ∧
      (∃ layers, (∀ᶠ n in atTop, Completes ⟨Program.lists, n⟩ (.call "appendo"
          [.term (.var (.named "x")), .term (.var (.named "y")), .term (.list es)]) .none
            (.start {}) layers) ∧ layers.flatten.length = 3) ∧
      ∃ layers st', (∀ᶠ n in atTop, Completes ⟨Program.lists, n⟩ (.call "appendo"
          [.term (.var (.named "x")), .term (.list [.nil]), .term (.list [.nil, .nil])]) .none
            (.start {}) layers) ∧ layers.flatten = [st'] ∧
        ∀ᶠ n in atTop, st'.substitution.reifyTerm n (.var (.named "x")) = some (.list [.nil]) := by
  intro w es
  have hnil : ∀ Q, Term.nil.Over Q := fun Q y hy => absurd hy Term.not_occurs_constant
  have hw : w.Over fun z => z.Below 0 ∧ z ≠ .named "x" ∧ z ≠ .named "y" :=
    Term.over_var.2 ⟨Var.below_named, by decide, by decide⟩
  have hw' : w.Over fun z => z.Below 0 ∧ z ≠ .named "x" := hw.mono fun _ h => ⟨h.1, h.2.1⟩
  have hes : ∀ e ∈ es, e.Over fun z => z.Below 0 ∧ z ≠ .named "x" ∧ z ≠ .named "y" := by
    simpa [es] using ⟨hw, hnil _⟩
  have hes' : ∀ e ∈ es, e.Over fun z => z.Below 0 ∧ z ≠ .named "x" := by
    simpa [es] using ⟨hw', hnil _⟩
  have hground : Term.nil.Ground := fun y => Term.not_occurs_constant
  have hitems : ∀ e ∈ [Term.nil, .nil], e.Ground := by simpa using hground
  have hsuffix : (Term.list [.nil]).Ground :=
    Term.over_list.2 fun e he => List.mem_singleton.1 he ▸ hground
  obtain ⟨hlist, hsplits, -⟩ := appendo_concatenates {} .none es
  obtain ⟨-, -, hend⟩ := appendo_concatenates {} .none [.nil, .nil]
  obtain ⟨layers, hrun, hcut⟩ := hsplits "x" "y" (by decide) hes
  obtain ⟨layers', hrun', htaken⟩ := hend (.list [.nil]) "x" hsuffix hitems
  have hplaces : ((List.range 3).filter fun i =>
      Term.list [.nil] == .list ([Term.nil, .nil].drop i)) = [1] := by cbv
  rw [List.length_cons, List.length_cons, List.length_nil, hplaces,
    List.forall₂_cons_left_iff] at htaken
  obtain ⟨st', _, hread, hnothing, hflat⟩ := htaken
  rw [List.forall₂_nil_left_iff.1 hnothing] at hflat
  exact ⟨hes', hw', by decide, hes, hsuffix, hitems, hlist w "x" hes' hw',
    ⟨layers, hrun, hcut.length_eq.symm⟩, layers', st', hrun', hflat, hread⟩

end Goal

end Relational
