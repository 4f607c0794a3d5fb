import Relational.Proofs.Substitution.Unifier
import Relational.Substitution.Reify

/-!
# Reified terms

Reification binds the unbound variables of a term to the mark of a free variable and nothing else
(`get?_foldl_release`).  It comes to them from left to right and passes over those that it has come
to before, so that each is bound where it stands first (`foldlM_extend_eq_release`).

So without cycles it ends, and the reified term is what the term stands for, with the mark in place
of every variable (`Acyclic.eventually_reifyTerm`, `Acyclic.reify_reads`).
-/

namespace Relational

namespace Substitution

open Filter

variable {s r : Substitution} {x y : Var} {t w : Term} {n : ℕ}

theorem get?_release : (s.release x).get? y =
    if x = y ∧ s.get? y = none then some .unassigned else s.get? y := by
  unfold release
  rw [contains_eq_isSome]
  by_cases hxy : x = y
  · subst hxy
    cases hx : s.get? x <;> simp [hx]
  · cases hx : s.get? x <;> simp [get?_insert, hxy]

theorem get?_foldl_release (xs : List Var) (s : Substitution) : (xs.foldl release s).get? y =
    if y ∈ xs ∧ s.get? y = none then some .unassigned else s.get? y := by
  induction xs generalizing s with
  | nil => simp
  | cons x xs ih =>
    rw [List.foldl_cons, ih, get?_release]
    by_cases hxy : x = y
    · subst hxy
      cases s.get? x <;> simp
    · simp [hxy, Ne.symm hxy]

theorem release_of_bound (hx : s.get? x ≠ none) : s.release x = s := by
  rw [release, contains_eq_isSome, if_pos (Option.isSome_iff_ne_none.2 hx)]

theorem release_of_free (hx : s.get? x = none) : s.release x = s.insert x .unassigned := by
  rw [release, contains_eq_false hx, if_neg Bool.false_ne_true]

/-- When a variable is bound, the others stay unbound. -/
theorem filter_free_insert (xs : List Var) :
    (xs.filter fun y => ((s.insert x t).get? y).isNone) =
      (xs.filter fun y => (s.get? y).isNone).filter fun y => !y == x := by
  rw [List.filter_filter]
  refine List.filter_congr fun y _ => ?_
  by_cases hxy : x = y
  · simp [hxy]
  · simp [get?_insert, hxy, Ne.symm hxy]

/-- The variables that are unbound are bound to the mark in the order in which they come up, each of
them once. -/
theorem foldlM_extend_eq_release (xs : List Var) (s : Substitution) :
    ((xs.filter fun x => (s.get? x).isNone).eraseDups.map (·, Term.unassigned)).foldlM
      (fun s p => s.extend p.1 p.2) s = .ok (xs.foldl release s) := by
  induction xs generalizing s with
  | nil => rfl
  | cons x xs ih =>
    rw [List.foldl_cons]
    cases hx : s.get? x with
    | some t =>
      rw [release_of_bound (by simp [hx]), List.filter_cons_of_neg (by simp [hx])]
      exact ih s
    | none =>
      rw [release_of_free hx, List.filter_cons_of_pos (by simp [hx]), List.eraseDups_cons,
        List.map_cons, List.foldlM_cons, extend_eq_insert (contains_eq_false hx),
        ← filter_free_insert]
      exact ih (s.insert x .unassigned)

theorem extends_foldl_release (xs : List Var) (s : Substitution) :
    s.Extends (xs.foldl release s) := by
  intro y t hy
  simp [get?_foldl_release, hy]

theorem Acyclic.release (hs : s.Acyclic) (x : Var) : (s.release x).Acyclic := by
  unfold Substitution.release
  split_ifs with hx
  · exact hs
  · exact hs.insert (get?_of_not_contains hx) (by simp)

theorem Acyclic.foldl_release (hs : s.Acyclic) (xs : List Var) :
    (xs.foldl Substitution.release s).Acyclic := by
  induction xs generalizing s with
  | nil => exact hs
  | cons x xs ih => exact ih (hs.release x)

/-- Once the variables that are left are bound to the mark, the walk has the mark in their place. -/
theorem Walks.marked (h : s.Walks t w) (hr : s.Extends r)
    (hw : ∀ y, w.Occurs y → r.get? y = some .unassigned) :
    r.Walks t (w.subst fun _ => .unassigned) := by
  induction h with
  | bound hx _ ih => exact .bound (hr _ _ hx) (ih hw)
  | @free x hx =>
    rw [Term.subst_var]
    exact .bound (hw x .var) .unassigned
  | constant c =>
    rw [Term.subst_constant]
    exact .constant c
  | @compound shape ts ws hl _ ih =>
    rw [Term.subst_compound, walks_compound_iff]
    refine ⟨_, rfl, List.forall₂_map_right_iff.2 (List.forall₂_iff_zip.2 ⟨hl, fun hm => ?_⟩)⟩
    exact ih _ _ hm fun y hy => hw y (.child (List.of_mem_zip hm).2 hy)
  | unassigned =>
    rw [Term.subst_unassigned]
    exact .unassigned

theorem Walks.marked_foldl_release (h : s.Walks t w) :
    (w.vars.foldl release s).Walks t (w.subst fun _ => .unassigned) := by
  refine h.marked (extends_foldl_release _ s) fun y hy => ?_
  rw [get?_foldl_release, if_pos ⟨Term.mem_vars.2 hy, h.free_of_occurs hy⟩]

theorem Acyclic.eventually_reify (hs : s.Acyclic) (t : Term) :
    ∀ᶠ n in atTop, s.reify n t = some ((t.subst s.value).vars.foldl Substitution.release s) := by
  filter_upwards [(hs.walks t).eventually_walk] with n hn
  rw [reify, hn, Option.map_some]

/-- A reified term has the mark in place of its variables, and nothing else is changed. -/
theorem Walks.eventually_reifyTerm (h : s.Walks t w) :
    ∀ᶠ n in atTop, s.reifyTerm n t = some (w.subst fun _ => .unassigned) := by
  filter_upwards [h.eventually_walk, h.marked_foldl_release.eventually_walk] with n hwalk hmarked
  rw [reifyTerm, reify, hwalk, Option.map_some, Option.bind_some, hmarked]

theorem Acyclic.eventually_reifyTerm (hs : s.Acyclic) (t : Term) :
    ∀ᶠ n in atTop, s.reifyTerm n t = some ((t.subst s.value).subst fun _ => .unassigned) :=
  (hs.walks t).eventually_reifyTerm

/-- A reified term has no variables, whether there are cycles or not. -/
theorem ground_of_reifyTerm (h : s.reifyTerm n t = some w) : w.Ground := by
  obtain ⟨r, hr, hw⟩ := Option.bind_eq_some_iff.1 h
  obtain ⟨w', hw', rfl⟩ := Option.map_eq_some_iff.1 hr
  rw [(walks_of_walk hw).unique (walks_of_walk hw').marked_foldl_release]
  exact Term.ground_subst fun _ => fun x => Term.not_occurs_unassigned

/-- The substitution `r` is `s` with the variables `xs` bound to the mark, one after the other. -/
structure Marks (s : Substitution) (xs : List Var) (r : Substitution) : Prop where
  unbound_before : ∀ x ∈ xs, s.get? x = none
  /-- No binding is made twice. -/
  extended : (xs.map (·, Term.unassigned)).foldlM (fun s p => s.extend p.1 p.2) s = .ok r
  /-- The old bindings come first, in the order that they had. -/
  keys : r.keys = s.keys ++ xs
  get? : ∀ y, r.get? y = if y ∈ xs then some .unassigned else s.get? y

/-- The variables of a walked term are bound in reading order. -/
theorem Walks.marks (h : s.Walks t w) :
    Marks s w.leaves.eraseDups (w.vars.foldl release s) := by
  have hfree : ∀ y ∈ w.leaves, s.get? y = none := by
    intro y hy
    rw [← Term.vars_eq_leaves, Term.mem_vars] at hy
    exact h.free_of_occurs hy
  have hall : (w.leaves.filter fun x => (s.get? x).isNone) = w.leaves :=
    List.filter_eq_self.2 fun y hy => by simp [hfree y hy]
  have hextended := foldlM_extend_eq_release w.leaves s
  rw [hall] at hextended
  rw [Term.vars_eq_leaves]
  refine ⟨fun x hx => hfree x (List.mem_eraseDups.1 hx), hextended, ?_, fun y => ?_⟩
  · rw [keys_of_foldlM_extend hextended, List.map_map]
    exact congrArg (s.keys ++ ·) (List.map_id _)
  · rw [get?_foldl_release]
    refine if_congr ?_ rfl rfl
    rw [List.mem_eraseDups]
    exact and_iff_left_of_imp (hfree y)

/-- **Reification binds the free variables of the answer, in reading order**, each of them once and
to the mark.  The reified term is the answer with the mark in place of its variables, of which none
is left. -/
theorem Acyclic.reify_reads (hs : s.Acyclic) (t : Term) :
    ∃ w r, (∀ᶠ n in atTop, s.walk n t = some w ∧ s.reify n t = some r ∧
        s.reifyTerm n t = some (w.subst fun _ => .unassigned)) ∧
      Marks s w.leaves.eraseDups r ∧ (w.subst fun _ => .unassigned).Ground := by
  refine ⟨_, _, ?_, (hs.walks t).marks, Term.ground_subst fun _ _ => Term.not_occurs_unassigned⟩
  exact (hs.walks t).eventually_walk.and
    ((hs.eventually_reify t).and (hs.eventually_reifyTerm t))

/-- One variable comes up twice, as it stands and then by way of a binding, in which a second one
follows it. -/
theorem reify_reads_cells :
    let s := empty.insert (.fresh 0) (.cons (.var (.fresh 2)) (.var (.fresh 1)))
    let t := Term.cons (.var (.fresh 2)) (.cons (.var (.fresh 0)) (.var (.named "tail")))
    let r := ((s.insert (.fresh 2) .unassigned).insert (.fresh 1) .unassigned).insert
      (.named "tail") .unassigned
    s.Acyclic ∧ Marks s [.fresh 2, .fresh 1, .named "tail"] r ∧
      ∀ᶠ n in atTop, s.reify n t = some r := by
  intro s t r
  have hs : s.Acyclic := acyclic_empty.insert get?_empty (by simp [Term.cons])
  obtain ⟨w, r', h, hmarks, -⟩ := hs.reify_reads t
  have hw : s.walk 12 t = some (.cons (.var (.fresh 2)) (.cons
    (.cons (.var (.fresh 2)) (.var (.fresh 1))) (.var (.named "tail")))) := by cbv
  have hr : s.reify 12 t = some r := by cbv
  have hreify : ∀ᶠ n in atTop, s.reify n t = some r :=
    eventually_atTop.2 ⟨12, fun _ => reify_mono hr⟩
  cases eventually_unique (h.mono fun _ h => h.1) (eventually_walk hw)
  cases eventually_unique (h.mono fun _ h => h.2.1) hreify
  have hleaves : List.eraseDups (Term.leaves (.cons (.var (.fresh 2)) (.cons
      (.cons (.var (.fresh 2)) (.var (.fresh 1))) (.var (.named "tail"))))) =
      [.fresh 2, .fresh 1, .named "tail"] := by cbv
  exact ⟨hs, hleaves ▸ hmarks, hreify⟩

end Substitution

end Relational
