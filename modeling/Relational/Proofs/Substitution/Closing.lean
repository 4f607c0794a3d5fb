import Relational.Proofs.Substitution.Built
import Relational.Proofs.Substitution.Reified

/-!
# Reifying every bound variable

`Substitution.reifyAll` goes through the bound variables, and what it reifies for one of them is
there when it comes to the next.  Without cycles this comes to the same as binding to the mark, one
after the other, the unbound variables below all bound variables of the substitution at the start
(`Acyclic.eventually_reifyAll`): what was bound to the mark on the way is bound, and is passed over.

So behind the old bindings there is one binding for each of these variables, no variable is left
below a binding, and doing it again changes nothing (`Acyclic.reifyAll_closes`).
-/

namespace Relational

theorem nodup_eraseDups (xs : List Var) : xs.eraseDups.Nodup := by
  induction hn : xs.length using Nat.strong_induction_on generalizing xs with
  | _ n ih =>
    cases xs with
    | nil => simp
    | cons x xs =>
      have hlt : (xs.filter fun y => !y == x).length < n := by
        rw [← hn]
        exact Nat.lt_succ_of_le (List.length_filter_le _ _)
      rw [List.eraseDups_cons, List.nodup_cons]
      exact ⟨by simp, ih _ hlt _ rfl⟩

namespace Substitution

open Filter

variable {s r : Substitution} {x y : Var} {n m : ℕ} {t : Term}

/-! ### Binding variables to the mark -/

/-- Variables that are bound already are passed over. -/
theorem foldl_release_filter {p : Var → Bool} (xs : List Var)
    (hp : ∀ x, p x = false → s.get? x ≠ none) :
    (xs.filter p).foldl release s = xs.foldl release s := by
  induction xs generalizing s with
  | nil => rfl
  | cons x xs ih =>
    have hnext : ∀ y, p y = false → (s.release x).get? y ≠ none := by
      intro y hy
      rw [get?_release, if_neg fun h => hp y hy h.2]
      exact hp y hy
    rw [List.foldl_cons, ← ih hnext]
    by_cases hx : p x = true
    · rw [List.filter_cons_of_pos hx, List.foldl_cons]
    · rw [List.filter_cons_of_neg hx, release_of_bound (hp x (by simpa using hx))]

/-- Behind the old bindings stand the variables that were unbound, each of them once. -/
theorem Built.entries_foldl_release (hs : s.Built) (xs : List Var) :
    (xs.foldl Substitution.release s).entries =
      s.entries ++ (xs.filter fun x => (s.get? x).isNone).eraseDups.map (·, .unassigned) :=
  (hs.of_foldlM_extend (foldlM_extend_eq_release xs s)).2

/-! ### Reifying one variable after the other -/

/-- Below a term stands what stood there before, but for the variables bound in between. -/
theorem Acyclic.vars_foldl_release (hs : s.Acyclic) (xs : List Var) (t : Term) :
    (t.subst (xs.foldl Substitution.release s).value).vars =
      (t.subst s.value).vars.filter fun y => ((xs.foldl Substitution.release s).get? y).isNone := by
  have hr : (xs.foldl Substitution.release s).Acyclic := hs.foldl_release xs
  rw [← (extends_foldl_release xs s).subst_value hs hr, Term.vars_subst]
  have hvars : ∀ y ∈ (t.subst s.value).vars, s.get? y = none := fun y hy =>
    hs.free_of_occurs (Term.mem_vars.1 hy)
  generalize (t.subst s.value).vars = ys at hvars ⊢
  induction ys with
  | nil => rfl
  | cons y ys ih =>
    obtain ⟨hfree, hys⟩ := List.forall_mem_cons.1 hvars
    rw [List.flatMap_cons, ih hys]
    by_cases hyx : y ∈ xs
    · have hmark : (xs.foldl Substitution.release s).get? y = some .unassigned := by
        rw [get?_foldl_release, if_pos ⟨hyx, hfree⟩]
      rw [hr.value_bound hmark, Term.subst_unassigned, Term.vars_unassigned, List.nil_append,
        List.filter_cons_of_neg (by simp [hmark])]
    · have hstill : (xs.foldl Substitution.release s).get? y = none := by
        rw [get?_foldl_release, if_neg fun h => hyx h.1, hfree]
      rw [value_of_free hstill, Term.vars_var, List.singleton_append,
        List.filter_cons_of_pos (by simp [hstill])]

/-- A term has no variables left when those below it have been bound to the mark. -/
theorem Acyclic.ground_foldl_release (hs : s.Acyclic) (xs : List Var)
    (ht : ∀ y, (t.subst s.value).Occurs y → y ∈ xs) :
    (t.subst (xs.foldl Substitution.release s).value).Ground := by
  intro y hy
  rw [← Term.mem_vars, hs.vars_foldl_release xs, List.mem_filter, Term.mem_vars] at hy
  obtain ⟨hy, hfree⟩ := hy
  rw [get?_foldl_release, if_pos ⟨ht y hy, hs.free_of_occurs hy⟩] at hfree
  cases hfree

/-- The unbound variables below the bound ones, as often as they occur. -/
noncomputable def below (s : Substitution) : List Var := s.keys.flatMap fun x => (s.value x).vars

theorem mem_below : y ∈ s.below ↔ ∃ x ∈ s.keys, (s.value x).Occurs y := by
  simp [below]

/-- **Reifying all bound variables ends**: the unbound variables below them are bound to the
mark. -/
theorem Acyclic.eventually_reifyAll (hs : s.Acyclic) :
    ∀ᶠ n in atTop, s.reifyAll n = some (s.below.foldl Substitution.release s) := by
  have hfold : ∀ keys done : List Var, ∀ᶠ n in atTop,
      keys.foldlM (fun r x => r.reify n (.var x)) (done.foldl Substitution.release s) =
        some ((keys.flatMap fun x => (s.value x).vars).foldl Substitution.release
          (done.foldl Substitution.release s)) := by
    intro keys
    induction keys with
    | nil => exact fun done => .of_forall fun n => rfl
    | cons x keys ih =>
      intro done
      filter_upwards [(hs.foldl_release done).eventually_reify (.var x),
        ih (done ++ (s.value x).vars)] with n hx hkeys
      -- what was bound to the mark for the variables before `x` is not looked at again
      rw [hs.vars_foldl_release done, Term.subst_var,
        foldl_release_filter _ fun y hy hfree => by simp [hfree] at hy] at hx
      rw [List.foldl_append] at hkeys
      rw [List.foldlM_cons, hx, List.flatMap_cons, List.foldl_append]
      exact hkeys
  exact hfold s.keys []

/-! ### Closed substitutions -/

/-- What every bound variable stands for has no variables. -/
def Closed (s : Substitution) : Prop := ∀ x ∈ s.keys, (s.value x).Ground

theorem Closed.below_eq (h : s.Closed) : s.below = [] := by
  refine List.eq_nil_iff_forall_not_mem.2 fun y hy => ?_
  obtain ⟨x, hx, hy⟩ := mem_below.1 hy
  exact h x hx y hy

/-- In a closed substitution no binding mentions an unbound variable. -/
theorem Closed.mem_keys_of_occurs (h : s.Closed) (hs : s.Acyclic) (hb : s.Built)
    (hx : s.get? x = some t) (hy : t.Occurs y) : y ∈ s.keys := by
  by_contra hfree
  rw [hb.not_mem_keys] at hfree
  refine h x (hb.mem_keys.2 (by simp [hx])) y ?_
  rw [hs.value_bound hx, Term.occurs_subst]
  exact ⟨y, hy, by simp [value_of_free hfree]⟩

theorem Acyclic.closed_below (hs : s.Acyclic) (hb : s.Built) :
    (s.below.foldl Substitution.release s).Closed := by
  intro x hx
  have hground := hs.ground_foldl_release (t := .var x) s.below
  rw [Term.subst_var, Term.subst_var] at hground
  refine hground fun y hy => ?_
  cases hxs : s.get? x with
  | some t => exact mem_below.2 ⟨x, hb.mem_keys.2 (by simp [hxs]), hy⟩
  | none =>
    -- an unbound variable is a key because it was found below one
    rw [value_of_free hxs, Term.occurs_var] at hy
    rw [((grows_foldl_release s.below s).built hb).mem_keys, get?_foldl_release, hxs] at hx
    by_contra hyb
    simp [hy, hyb] at hx

/-- The substitution `r` is `s` with all variables bound that are left below its bindings. -/
structure Closes (s r : Substitution) : Prop where
  built : r.Built
  /-- The old bindings come first, as they stood.  Behind them the variables that are unbound in `s`
  and occur in what one of its bound variables stands for are bound to the mark, each one once. -/
  entries : ∃ marked : List Var, r.entries = s.entries ++ marked.map (·, .unassigned) ∧
    marked.Nodup ∧ ∀ y, y ∈ marked ↔ s.get? y = none ∧
      ∃ x ∈ s.keys, ∃ w, (∀ᶠ n in atTop, s.walk n (.var x) = some w) ∧ w.Occurs y
  /-- No binding mentions a variable that is not bound. -/
  covered : ∀ x t, r.get? x = some t → ∀ y, t.Occurs y → y ∈ r.keys
  /-- What a bound variable stands for has no variables left. -/
  ground : ∀ x ∈ r.keys, ∃ w, (∀ᶠ n in atTop, r.walk n (.var x) = some w) ∧ w.Ground
  /-- There is nothing left to close. -/
  again : ∀ᶠ n in atTop, r.reifyAll n = some r

theorem Acyclic.eventually_walk_var (hs : s.Acyclic) (x : Var) :
    ∀ᶠ n in atTop, s.walk n (.var x) = some (s.value x) := by
  simpa using (hs.walks (.var x)).eventually_walk

/-- A variable is below the bound ones if it occurs in the walk of one of them. -/
theorem Acyclic.mem_below_iff (hs : s.Acyclic) : y ∈ s.below ↔
    ∃ x ∈ s.keys, ∃ w, (∀ᶠ n in atTop, s.walk n (.var x) = some w) ∧ w.Occurs y := by
  rw [mem_below]
  refine exists_congr fun x => and_congr_right fun _ => ⟨fun hy => ?_, ?_⟩
  · exact ⟨_, hs.eventually_walk_var x, hy⟩
  · rintro ⟨w, hw, hy⟩
    cases eventually_unique hw (hs.eventually_walk_var x)
    exact hy

/-- **Reifying all bound variables closes a substitution**, and a closed one stays as it is. -/
theorem Acyclic.reifyAll_closes (hs : s.Acyclic) (hb : s.Built) :
    ∃ r, (∀ᶠ n in atTop, s.reifyAll n = some r) ∧ Closes s r := by
  let r := s.below.foldl Substitution.release s
  have hr : r.Acyclic := hs.foldl_release _
  have hrb : r.Built := (grows_foldl_release _ s).built hb
  have hclosed : r.Closed := hs.closed_below hb
  refine ⟨r, hs.eventually_reifyAll, hrb, ?_, ?_, ?_, ?_⟩
  · refine ⟨_, hb.entries_foldl_release _, nodup_eraseDups _, fun y => ?_⟩
    rw [List.mem_eraseDups, List.mem_filter, Option.isNone_iff_eq_none, hs.mem_below_iff, and_comm]
  · exact fun x t hx y hy => hclosed.mem_keys_of_occurs hr hrb hx hy
  · exact fun x hx => ⟨_, hr.eventually_walk_var x, hclosed x hx⟩
  · filter_upwards [hr.eventually_reifyAll] with n hn
    rw [hn, hclosed.below_eq, List.foldl_nil]

/-- The variable `a` is left below both bindings, below the first one by way of the second. -/
theorem reifyAll_closes_nested :
    let q := Var.named "q"
    let a := Var.named "a"
    let b := Var.named "b"
    let s := (empty.insert q (.cons (.var a) (.var b))).insert b (.cons (.var (.fresh 0)) (.var a))
    let r := (s.insert a .unassigned).insert (.fresh 0) .unassigned
    s.Acyclic ∧ s.Built ∧ (∀ᶠ n in atTop, s.reifyAll n = some r) ∧ Closes s r := by
  intro q a b s r
  have hs : s.Acyclic := by
    refine (acyclic_empty.insert get?_empty ?_).insert (by simp [get?_insert, q, b]) ?_
    · simp [Term.cons, q, a, b]
    · simp [Term.cons, get?_insert, q, a, b]
  have hb : s.Built := .insert _ (.insert _ .empty get?_empty) (by simp [get?_insert, q, b])
  have hrun : s.reifyAll 16 = some r := by cbv
  have hr : ∀ᶠ n in atTop, s.reifyAll n = some r :=
    eventually_atTop.2 ⟨16, fun _ => reifyAll_mono hrun⟩
  obtain ⟨r', hr', hclose⟩ := hs.reifyAll_closes hb
  obtain ⟨n, hn, hn'⟩ := (hr.and hr').exists
  cases hn.symm.trans hn'
  exact ⟨hs, hb, hr, hclose⟩

end Substitution

end Relational
