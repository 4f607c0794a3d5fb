import Relational.Proofs.Substitution.Unifier
import Relational.Substitution.Reify

/-!
# The order in which variables are bound

A substitution comes about by calls of `unify` and of `reify`.  All that such a call does to it is
to bind variables, one after the other, and when a variable is bound its value has only unbound
variables (`Grows`).  So the order of binding is a topological order: a value mentions no variable
that was bound before its own (`Ordered`), and not its own either, unless the occurs check was off
(`Run.made_of_mentions`).

Two things follow.  Following a variable goes on to ever later ones and so comes to an end
(`Ordered.eventually_resolve`), even where there are cycles; and a cycle cannot be longer than one
binding (`Ordered.acyclic_iff`).
-/

namespace Relational

namespace Substitution

open Filter Relation

/-- The order of binding is a topological order of the bindings. -/
structure Ordered (s : Substitution) : Prop where
  nodup : s.keys.Nodup
  mem_keys : ∀ x, x ∈ s.keys ↔ (s.get? x).isSome
  /-- A value does not mention what was bound before. -/
  not_mentions : s.keys.Pairwise fun earlier later => ¬ s.Mentions later earlier
  /-- No variable is bound to itself. -/
  ne_var : ∀ x, s.get? x ≠ some (.var x)

/-- Variables are bound one after the other, each to a term of unbound variables; among these is
the variable itself only if `loops` holds. -/
inductive Grows (loops : Prop) (s : Substitution) : Substitution → Prop
  | refl : Grows loops s s
  | insert {r : Substitution} {x : Var} {w : Term} : Grows loops s r → r.get? x = none →
      (∀ y, w.Occurs y → r.get? y = none) → (w.Occurs x → loops) → w ≠ .var x →
      Grows loops s (r.insert x w)

variable {loops : Prop} {check : Bool} {s s' r : Substitution} {n : ℕ} {t w : Term} {x y : Var}
  {pending : List (Term × Term)}

/-! ### What grows stays ordered -/

theorem ordered_empty : empty.Ordered where
  nodup := by simp
  mem_keys := by simp
  not_mentions := by simp
  ne_var := by simp

theorem mentions_insert_of_ne (hxy : x ≠ y) {z : Var} :
    (s.insert x w).Mentions y z ↔ s.Mentions y z := by
  simp only [Mentions, get?_insert, if_neg hxy]

theorem mentions_insert_self : (s.insert x w).Mentions x y ↔ w.Occurs y := by
  simp only [Mentions, get?_insert_self, Option.some.injEq, exists_eq_left']

theorem Ordered.insert (h : s.Ordered) (hx : s.get? x = none)
    (hw : ∀ y, w.Occurs y → s.get? y = none) (hne : w ≠ .var x) : (s.insert x w).Ordered where
  nodup := by
    have hxk : x ∉ s.keys := by simp [h.mem_keys, hx]
    rw [keys_insert]
    exact h.nodup.append (List.nodup_singleton x) (by simpa using hxk)
  mem_keys := by
    intro y
    rw [keys_insert, List.mem_append, List.mem_singleton, h.mem_keys, get?_insert]
    by_cases hxy : x = y
    · simp [hxy]
    · simp [hxy, Ne.symm hxy]
  not_mentions := by
    rw [keys_insert, List.pairwise_append]
    refine ⟨?_, List.pairwise_singleton _ _, ?_⟩
    · refine h.not_mentions.imp_of_mem fun {earlier later} _ hlater hm => ?_
      have hxl : x ≠ later := by
        rintro rfl
        simp [h.mem_keys, hx] at hlater
      rwa [mentions_insert_of_ne hxl]
    · intro y hy z hz
      rw [List.mem_singleton] at hz
      subst hz
      rw [mentions_insert_self]
      intro hwy
      rw [h.mem_keys, hw y hwy] at hy
      cases hy
  ne_var := by
    intro y hy
    rw [get?_insert] at hy
    split_ifs at hy with hxy
    · cases hy
      exact hne (by rw [hxy])
    · exact h.ne_var y hy

theorem Grows.ordered (h : Grows loops s r) (hs : s.Ordered) : r.Ordered := by
  induction h with
  | refl => exact hs
  | insert _ hx hw _ hne ih => exact ih.insert hx hw hne

theorem Grows.trans (h : Grows loops s r) (h' : Grows loops r s') : Grows loops s s' := by
  induction h' with
  | refl => exact h
  | insert _ hx hw hl hne ih => exact .insert ih hx hw hl hne

theorem Grows.imp {p : Prop} (h : Grows loops s r) (hp : loops → p) : Grows p s r := by
  induction h with
  | refl => exact .refl
  | insert _ hx hw hl hne ih => exact .insert ih hx hw (fun hwx => hp (hl hwx)) hne

theorem Grows.extends (h : Grows loops s r) : s.Extends r := by
  induction h with
  | refl => exact .refl s
  | insert _ hx _ _ _ ih => exact ih.trans (extends_insert hx)

theorem Grows.keys_prefix (h : Grows loops s r) : s.keys <+: r.keys := by
  induction h with
  | refl => exact List.prefix_rfl
  | insert _ _ _ _ _ ih =>
    rw [keys_insert]
    exact ih.trans (List.prefix_append _ _)

/-- A new binding has its own variable in its value only if that is allowed. -/
theorem Grows.loops_of_mentions (h : Grows loops s r) (hx : s.get? x = none)
    (hm : r.Mentions x x) : loops := by
  induction h with
  | refl => exact (not_mentions_of_free hx hm).elim
  | @insert r y w _ _ _ hl _ ih =>
    by_cases hyx : y = x
    · subst hyx
      exact hl (mentions_insert_self.1 hm)
    · exact ih ((mentions_insert_of_ne hyx).1 hm)

/-- All that happens is that unbound variables are bound, which never is refused. -/
theorem Grows.exists_extend (h : Grows loops s r) :
    ∃ pairs : List (Var × Term), pairs.foldlM (fun s p => s.extend p.1 p.2) s = .ok r := by
  induction h with
  | refl => exact ⟨[], rfl⟩
  | @insert r x w _ hx _ _ _ ih =>
    obtain ⟨pairs, hp⟩ := ih
    refine ⟨pairs ++ [(x, w)], ?_⟩
    rw [List.foldlM_append, hp]
    simp [extend_eq_insert (contains_eq_false hx), Bind.bind, Except.bind, Pure.pure, Except.pure]

/-! ### What the order is good for -/

/-- Induction from a variable to the variables that are bound later or not at all. -/
theorem Ordered.ind (h : s.Ordered) {motive : Var → Prop}
    (step : ∀ x, (∀ y, y ≠ x → s.Mentions x y → motive y) → motive x) (x : Var) : motive x := by
  have hfree : ∀ y, y ∉ s.keys → motive y := by
    intro y hy
    refine step y fun z _ hyz => absurd hyz (not_mentions_of_free ?_)
    rwa [h.mem_keys, Option.not_isSome_iff_eq_none] at hy
  -- the variables that are bound last come first
  have hlast : ∀ last first : List Var, s.keys = first ++ last → ∀ y ∈ last, motive y := by
    intro last
    induction last with
    | nil => simp
    | cons z last ih =>
      intro first hk
      have hlater := ih (first ++ [z]) (by simpa using hk)
      refine List.forall_mem_cons.2 ⟨step z fun y hyz hzy => ?_, hlater⟩
      by_cases hy : y ∈ s.keys
      · rw [hk, List.mem_append, List.mem_cons] at hy
        rcases hy with hy | rfl | hy
        · have hpair := h.not_mentions
          rw [hk, List.pairwise_append] at hpair
          exact absurd hzy (hpair.2.2 y hy z List.mem_cons_self)
        · exact (hyz rfl).elim
        · exact hlater y hy
      · exact hfree y hy
  by_cases hx : x ∈ s.keys
  · exact hlast s.keys [] rfl x hx
  · exact hfree x hx

/-- **Every term can be resolved**, whatever cycles there are. -/
theorem Ordered.eventually_resolve (h : s.Ordered) (t : Term) :
    ∃ u, ∀ᶠ n in atTop, s.resolve n t = some u := by
  have hvar : ∀ x, ∃ n u, s.resolve n (.var x) = some u := by
    intro x
    induction x using h.ind with
    | _ x ih =>
      cases hx : s.get? x with
      | none => exact ⟨0, _, resolve_free hx⟩
      | some t =>
        cases t with
        | var y =>
          have hyx : y ≠ x := by
            rintro rfl
            exact h.ne_var y hx
          obtain ⟨n, u, hu⟩ := ih y hyx ⟨_, hx, .var⟩
          exact ⟨n + 1, u, by rw [resolve_bound hx, hu]⟩
        | _ => exact ⟨1, _, (resolve_bound hx).trans (Resolved.resolve_eq (by simp [Resolved]))⟩
  obtain ⟨n, u, hu⟩ : ∃ n u, s.resolve n t = some u := by
    cases t with
    | var x => exact hvar x
    | _ => exact ⟨0, _, Resolved.resolve_eq (by simp [Resolved])⟩
  exact ⟨u, eventually_atTop.2 ⟨n, fun _ => resolve_mono hu⟩⟩

/-- **A cycle is a variable in its own value.** -/
theorem Ordered.acyclic_iff (h : s.Ordered) : s.Acyclic ↔ ∀ x, ¬ s.Mentions x x := by
  refine ⟨fun hs x hx => hs x (.single hx), fun hs => ?_⟩
  have hwf : WellFounded fun y x => s.Mentions x y := by
    refine ⟨fun x => h.ind (motive := Acc _) (fun x ih => ?_) x⟩
    refine .intro x fun y hxy => ih y ?_ hxy
    rintro rfl
    exact hs y hxy
  intro x hx
  rw [← transGen_swap] at hx
  exact (hwf.transGen.irrefl).irrefl x hx

/-! ### What the calls do -/

theorem Unifies.grows (h : Unifies check s pending (.ok r)) : Grows (check = false) s r := by
  refine h.invariant (P := fun a _ => Grows (check = false) s a) .refl (fun _ _ _ ha => ha) ?_
    (fun _ _ ha => ha)
  intro a u v u' v' t w x pending hres hd hw hc ha
  have hloop : w.Occurs x → check = false := fun hx => by
    simpa using mt hc (not_not_intro hx)
  exact ha.insert (hres.free hd) (fun _ => hw.free_of_occurs) hloop (hres.ne_var hd hw)

theorem grows_release (s : Substitution) (x : Var) : Grows False s (s.release x) := by
  unfold release
  cases hx : s.get? x with
  | none =>
    rw [contains_eq_false hx, if_neg (by simp)]
    exact .insert .refl hx (by simp) (by simp) (by simp)
  | some t =>
    rw [contains_eq_isSome, hx, Option.isSome_some, if_pos rfl]
    exact .refl

theorem grows_foldl_release (xs : List Var) (s : Substitution) :
    Grows False s (xs.foldl release s) := by
  induction xs generalizing s with
  | nil => exact .refl
  | cons x xs ih => exact (grows_release s x).trans (ih _)

theorem grows_reify (h : s.reify n t = some r) : Grows False s r := by
  obtain ⟨w, -, rfl⟩ := Option.map_eq_some_iff.1 h
  exact grows_foldl_release _ s

theorem grows_reifyAll (h : s.reifyAll n = some r) : Grows False s r := by
  have hfold : ∀ (xs : List Var) (a : Substitution),
      xs.foldlM (fun r x => r.reify n (.var x)) a = some r → Grows False a r := by
    intro xs
    induction xs with
    | nil =>
      intro a ha
      simp only [List.foldlM_nil, Option.pure_def, Option.some.injEq] at ha
      exact ha ▸ .refl
    | cons x xs ih =>
      intro a ha
      rw [List.foldlM_cons] at ha
      obtain ⟨b, hb, ha⟩ := Option.bind_eq_some_iff.1 ha
      exact (grows_reify hb).trans (ih b ha)
  exact hfold _ _ h

/-! ### Runs -/

/-- A call that makes a substitution of a substitution. -/
inductive Call where
  | unify (check : Bool) (u v : Term)
  | reify (t : Term)
  | reifyAll

/-- What comes of a call; walks that do not end leave reification unfinished. -/
def Call.answer (effort : ℕ) (s : Substitution) : Call → Except Refusal Substitution
  | .unify check u v => s.unify check effort u v
  | .reify t => (s.reify effort t).elim (.error .unfinished) .ok
  | .reifyAll => (s.reifyAll effort).elim (.error .unfinished) .ok

/-- A sequence of calls that return, each with a substitution for the next one. -/
inductive Run (s : Substitution) : List Call → Substitution → Prop
  | nil : Run s [] s
  | snoc {calls : List Call} {r r' : Substitution} {c : Call} : Run s calls r →
      (∃ n, c.answer n r = .ok r') → Run s (calls ++ [c]) r'

/-- The call `c` is the one that bound `x`. -/
def Made (calls : List Call) (s : Substitution) (x : Var) (c : Call) : Prop :=
  ∃ before after s₁ s₂, calls = before ++ c :: after ∧ Run empty before s₁ ∧
    (∃ n, c.answer n s₁ = .ok s₂) ∧ Run s₂ after s ∧ s₁.get? x = none ∧ (s₂.get? x).isSome

theorem Call.grows {c : Call} (h : c.answer n s = .ok r) :
    Grows (∃ u v, c = .unify false u v) s r := by
  cases c with
  | unify check u v =>
    refine (unifies_of_unifyAll h (by simp)).grows.imp ?_
    rintro rfl
    exact ⟨u, v, rfl⟩
  | reify t =>
    cases hr : s.reify n t with
    | none => simp [answer, hr] at h
    | some r' =>
      simp only [answer, hr, Option.elim_some, Except.ok.injEq] at h
      exact h ▸ (grows_reify hr).imp False.elim
  | reifyAll =>
    cases hr : s.reifyAll n with
    | none => simp [answer, hr] at h
    | some r' =>
      simp only [answer, hr, Option.elim_some, Except.ok.injEq] at h
      exact h ▸ (grows_reifyAll hr).imp False.elim

theorem Run.ordered {calls : List Call} (h : Run empty calls s) : s.Ordered := by
  induction h with
  | nil => exact ordered_empty
  | snoc _ hc ih =>
    obtain ⟨n, hc⟩ := hc
    exact (Call.grows hc).ordered ih

/-- Only unchecked unification binds a variable to a term with that variable. -/
theorem Run.made_of_mentions {calls : List Call} (h : Run empty calls s) (hx : s.Mentions x x) :
    ∃ u v, Made calls s x (.unify false u v) := by
  induction h with
  | nil => simp [Mentions] at hx
  | @snoc calls r r' c hrun hc ih =>
    obtain ⟨n, hn⟩ := hc
    cases hr : r.get? x with
    | none =>
      obtain ⟨u, v, rfl⟩ := (Call.grows hn).loops_of_mentions hr hx
      exact ⟨u, v, calls, [], r, r', rfl, hrun, ⟨n, hn⟩, .nil, hr, hx.isSome⟩
    | some t =>
      have hxr : r.Mentions x x := by
        obtain ⟨u, hu, hxu⟩ := hx
        rw [(Call.grows hn).extends x t hr, Option.some.injEq] at hu
        exact ⟨t, hr, hu ▸ hxu⟩
      obtain ⟨u, v, before, after, s₁, s₂, rfl, h₁, h₂, h₃, hfree, hbound⟩ := ih hxr
      exact ⟨u, v, before, after ++ [c], s₁, s₂, by simp, h₁, h₂, h₃.snoc ⟨n, hn⟩, hfree, hbound⟩

/-- What holds of every substitution that comes of a sequence of calls. -/
structure Topological (calls : List Call) (s : Substitution) : Prop where
  ordered : s.Ordered
  made_unchecked : ∀ x, s.Mentions x x → ∃ u v, Made calls s x (.unify false u v)
  resolves : ∀ t, ∃ u, ∀ᶠ n in atTop, s.resolve n t = some u
  cyclic_iff : ¬ s.Acyclic ↔ ∃ x, s.Mentions x x
  acyclic : (∀ u v, .unify false u v ∉ calls) → s.Acyclic
  /-- The next call does not bind a variable again: what it does is a chain of extensions that are
  not refused, and if it is refused itself, then for another reason. -/
  extends_only : ∀ (c : Call) n r, c.answer n s = .ok r →
    ∃ pairs : List (Var × Term), pairs.foldlM (fun s p => s.extend p.1 p.2) s = .ok r
  not_already_bound : ∀ (c : Call) n x, c.answer n s ≠ .error (.alreadyBound x)

theorem Call.answer_ne_alreadyBound (c : Call) (n : ℕ) (x : Var) :
    c.answer n s ≠ .error (.alreadyBound x) := by
  intro h
  cases c with
  | unify check u v =>
    have hu : Unifies check s [(u, v)] (.error (.alreadyBound x)) :=
      unifies_of_unifyAll h (by simp)
    obtain ⟨_, _, h⟩ | ⟨-, _, _, h⟩ := hu.refusal_cases
    · cases h
    · cases h
  | reify t => cases hr : s.reify n t <;> simp [answer, hr] at h
  | reifyAll => cases hr : s.reifyAll n <;> simp [answer, hr] at h

theorem Run.topological {calls : List Call} (h : Run empty calls s) : Topological calls s where
  ordered := h.ordered
  made_unchecked := fun _ hx => h.made_of_mentions hx
  resolves := h.ordered.eventually_resolve
  cyclic_iff := by
    rw [h.ordered.acyclic_iff]
    push Not
    rfl
  acyclic := by
    intro hc
    refine h.ordered.acyclic_iff.2 fun x hx => ?_
    obtain ⟨u, v, before, after, _, _, rfl, -⟩ := h.made_of_mentions hx
    exact hc u v (by simp)
  extends_only := fun _ _ _ hc => (Call.grows hc).exists_extend
  not_already_bound := fun c n x => c.answer_ne_alreadyBound n x

end Substitution

end Relational
