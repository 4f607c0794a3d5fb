import Relational.Goal.Basic
import Relational.Proofs.Stream.Binding
import Relational.Proofs.Stream.Limit
import Relational.Proofs.Substitution.Unifies

/-!
# What a search finds

`Goal.Finds program g l st st'` says by recursion over the goal, and over the bodies of the
relations it calls, that `st'` is one of the states that `g` makes of `st`.  It knows neither
streams nor suspensions nor effort.

* Whatever a search yields, at whatever depth and with whatever effort, is found in this sense
  (`finds_of_yields`).
* Whatever is found in this sense is yielded, at one depth, by every search with enough effort
  (`Finds.exists_yields`).  The way there is a search that has no limit on the effort
  (`Goal.search`): merging and binding lose nothing, and every layer of that search is the layer of
  a search with enough effort.
-/

namespace Relational

open Filter
open Relational.Stream

namespace State

variable {st st' : State} {u v : Term} {s : Substitution} {n : ℕ}

theorem value_unify (st : State) (n : ℕ) (u v : Term) : (st.unify n u v).value =
    match st.substitution.unify st.config.occursCheck n u v with
    | .ok s => some (st.withSubstitution s)
    | .error _ => none := by
  unfold unify
  cases st.substitution.unify st.config.occursCheck n u v <;> rfl

theorem unifies_of_unify (h : (st.unify n u v).value = some st') :
    ∃ s, st.substitution.Unifies st.config.occursCheck [(u, v)] (.ok s) ∧
      st' = st.withSubstitution s := by
  rw [value_unify] at h
  split at h
  · rename_i s hs
    cases h
    exact ⟨s, Substitution.unifies_of_unifyAll hs (by simp), rfl⟩
  · cases h

/-- What unification comes to if it is given all the effort it needs. -/
noncomputable def unified (st : State) (u v : Term) : Option State :=
  open Classical in
  if h : ∃ s, st.substitution.Unifies st.config.occursCheck [(u, v)] (.ok s) then
    some (st.withSubstitution h.choose)
  else none

theorem unified_eq (h : st.substitution.Unifies st.config.occursCheck [(u, v)] (.ok s)) :
    st.unified u v = some (st.withSubstitution s) := by
  have hex : ∃ s, st.substitution.Unifies st.config.occursCheck [(u, v)] (.ok s) := ⟨s, h⟩
  rw [unified, dif_pos hex, Except.ok.inj (hex.choose_spec.unique h)]

theorem eventually_value_unify (st : State) (u v : Term) :
    ∀ᶠ n in atTop, (st.unify n u v).value = st.unified u v := by
  by_cases h : ∃ s, st.substitution.Unifies st.config.occursCheck [(u, v)] (.ok s)
  · obtain ⟨s, hs⟩ := h
    filter_upwards [hs.eventually_unifyAll] with n hn
    rw [unified_eq hs, value_unify, Substitution.unify, hn]
  · refine .of_forall fun n => ?_
    rw [unified, dif_neg h, Option.eq_none_iff_forall_ne_some]
    intro st' hst
    obtain ⟨s, hs, -⟩ := unifies_of_unify hst
    exact h ⟨s, hs⟩

end State

namespace Goal

/-- The state `st'` is one of those that a goal makes of `st`. -/
inductive Finds (program : Program) : Goal → Locals → State → State → Prop
  | eq {u v : Pattern} {l : Locals} {st : State} {s : Substitution} :
      st.substitution.Unifies st.config.occursCheck [(u.instantiate l, v.instantiate l)] (.ok s) →
      Finds program (.eq u v) l st (st.withSubstitution s)
  | succeed (l : Locals) (st : State) : Finds program .succeed l st st
  | left {g h : Goal} {l : Locals} {st st' : State} :
      Finds program g l st st' → Finds program (.either g h) l st st'
  | right {g h : Goal} {l : Locals} {st st' : State} :
      Finds program h l st st' → Finds program (.either g h) l st st'
  | both {g h : Goal} {l : Locals} {st mid st' : State} :
      Finds program g l st mid → Finds program h l mid st' → Finds program (.both g h) l st st'
  | fresh {name : String} {g : Goal} {l : Locals} {st st' : State} :
      Finds program g (l.bind name (.var (.fresh st.nextId)))
        ⟨st.substitution, st.nextId + 1, st.config⟩ st' →
      Finds program (.fresh name g) l st st'
  | given {name : String} {t : Pattern} {g : Goal} {l : Locals} {st st' : State} :
      Finds program g (l.bind name (t.instantiate l)) st st' →
      Finds program (.given name t g) l st st'
  | deferred {make : Unit → Goal} {l : Locals} {st st' : State} :
      Finds program (make ()) l st st' → Finds program (.deferred make) l st st'
  | delayed {g : Goal} {l : Locals} {st st' : State} :
      Finds program g l st st' → Finds program (.delayed g) l st st'
  | alwayso (l : Locals) (st : State) : Finds program .alwayso l st st
  | call {relation : String} {arguments : List Pattern} {r : Relation} {l : Locals}
      {st st' : State} : program relation = some r →
      Finds program r.body (openLocals l r (Pattern.instantiateAll l arguments) st) st st' →
      Finds program (.call relation arguments) l st st'

variable {e : Engine} {program : Program} {g h : Goal} {l : Locals} {st st' : State} {k : ℕ}

/-! ### What is yielded is found -/

theorem yields_later (hk : (later l g st : States).Yields (rules e) k st') :
    ∃ j < k, (g.apply e l st).value.Yields (rules e) j st' := by
  obtain ⟨j, rfl, hj⟩ := yields_suspend.1 hk
  exact ⟨j, Nat.lt_succ_self j, hj⟩

theorem value_apply_call {relation : String} {arguments : List Pattern} :
    (Goal.apply e (.call relation arguments) l st).value =
      match e.program relation with
      | none => empty
      | some r => later (openLocals l r (Pattern.instantiateAll l arguments) st) r.body st := by
  rw [Goal.apply]
  cases e.program relation with
  | none => rfl
  | some r =>
    dsimp only
    split_ifs <;> rfl

/-- **Whatever a search yields is found.** -/
theorem finds_of_yields (hk : (g.apply e l st).value.Yields (rules e) k st') :
    Finds e.program g l st st' := by
  -- by the depth, and at one depth by the goal: only a suspension leads to a goal that is no part
  induction k using Nat.strong_induction_on generalizing g l st st' with
  | _ k ihk =>
    have hlater : ∀ {j : ℕ} {g : Goal} {l : Locals} {st st' : State}, j ≤ k →
        (later l g st : States).Yields (rules e) j st' → Finds e.program g l st st' := by
      intro j g l st st' hj hk
      obtain ⟨i, hi, hk⟩ := yields_later hk
      exact ihk i (by omega) hk
    have hall : ∀ j ≤ k, (g.apply e l st).value.Yields (rules e) j st' →
        Finds e.program g l st st' := by
      clear hk
      induction g generalizing l st st' with
      | eq u v =>
        intro j _ hj
        obtain ⟨-, hst⟩ := yields_ofList.1 hj
        rw [Option.mem_toList] at hst
        obtain ⟨s, hs, rfl⟩ := State.unifies_of_unify hst
        exact .eq hs
      | succeed =>
        intro j _ hj
        obtain ⟨-, rfl⟩ := yields_single.1 hj
        exact .succeed l _
      | fail =>
        intro j _ hj
        exact (not_yields_empty hj).elim
      | either g h ihg ihh =>
        intro j hjk hj
        obtain ⟨i, hi, hg | hh⟩ := yields_merge hj
        · exact .left (ihg i (by omega) hg)
        · exact .right (ihh i (by omega) hh)
      | both g h ihg ihh =>
        intro j hjk hj
        obtain ⟨i, hi, i', hi', mid, hg, hh⟩ := yields_bind hj
        exact .both (ihg i (by omega) hg) (ihh i' (by omega) hh)
      | fresh name g ih => exact fun j hjk hj => .fresh (ih j hjk hj)
      | given name t g ih => exact fun j hjk hj => .given (ih j hjk hj)
      | deferred make ih => exact fun j hjk hj => .deferred (ih () j hjk hj)
      | delayed g _ => exact fun j hjk hj => .delayed (hlater hjk hj)
      | nevero =>
        intro j hjk hj
        cases hlater hjk hj
      | alwayso =>
        intro j hjk hj
        have hfound := hlater hjk hj
        cases hfound with
        | left h => cases h; exact .alwayso l st
        | right h => exact h
      | call relation arguments =>
        intro j hjk hj
        rw [value_apply_call] at hj
        cases hr : e.program relation with
        | none =>
          rw [hr] at hj
          exact (not_yields_empty hj).elim
        | some r =>
          rw [hr] at hj
          exact .call hr (hlater hjk hj)
    exact hall k le_rfl hk

/-! ### What is found is yielded -/

/-- The states that a goal makes of `st`, with all the effort that is needed. -/
noncomputable def search (program : Program) : Goal → Locals → State → States
  | .eq u v, l, st => .ofList (st.unified (u.instantiate l) (v.instantiate l)).toList
  | .succeed, _, st => .single st
  | .fail, _, _ => .empty
  | .either g h, l, st => (g.search program l st).merge (h.search program l st)
  | .both g h, l, st =>
    ((g.search program l st).bindWith ⟨l, h⟩
      fun st => (pure (h.search program l st) : Logged Event States)).value
  | .fresh name g, l, st =>
    g.search program (l.bind name (.var (.fresh st.nextId)))
      ⟨st.substitution, st.nextId + 1, st.config⟩
  | .given name t g, l, st => g.search program (l.bind name (t.instantiate l)) st
  | .deferred make, l, st => (make ()).search program l st
  | .delayed g, l, st => later l g st
  | .nevero, l, st => later l .nevero st
  | .alwayso, l, st => later l (.either .succeed .alwayso) st
  | .call relation arguments, l, st =>
    match program relation with
    | none => .empty
    | some r => later (openLocals l r (Pattern.instantiateAll l arguments) st) r.body st

/-- How the states of a search without a limit unfold. -/
noncomputable def searchRules (program : Program) : Rules Pending Closure Event State :=
  ⟨fun p => pure (p.goal.search program p.locals p.state),
    fun c st => pure (c.goal.search program c.locals st)⟩

theorem eventually_value_apply (program : Program) (g : Goal) (l : Locals) (st : State) :
    ∀ᶠ n in atTop, (g.apply ⟨program, n⟩ l st).value = g.search program l st := by
  induction g generalizing l st with
  | eq u v =>
    filter_upwards [st.eventually_value_unify (u.instantiate l) (v.instantiate l)] with n hn
    rw [Goal.search, ← hn]
    rfl
  | either g h ihg ihh =>
    filter_upwards [ihg l st, ihh l st] with n hg hh
    rw [Goal.search, ← hg, ← hh]
    rfl
  | both g h ihg ihh =>
    filter_upwards [ihg l st, eventually_value_bindWith
      (f := fun n => h.apply ⟨program, n⟩ l) (g := fun st => pure (h.search program l st))
      (ihh l) ⟨l, h⟩ (g.search program l st)] with n hg hh
    rw [Goal.search, ← hh, ← hg]
    rfl
  | fresh name g ih => exact ih _ _
  | given name t g ih => exact ih _ _
  | deferred make ih => exact ih () _ _
  | call relation arguments =>
    refine .of_forall fun n => ?_
    rw [value_apply_call, Goal.search]
  | _ => exact .of_forall fun _ => rfl

theorem settles_rules (program : Program) :
    Settles (fun n => rules ⟨program, n⟩) (searchRules program) where
  unfold := fun p => eventually_value_apply program p.goal p.locals p.state
  expand := fun c st => eventually_value_apply program c.goal c.locals st

/-- A stream behind a suspension has the items of the stream, one layer deeper. -/
theorem exists_yields_later
    (h : ∃ k, (g.search program l st).Yields (searchRules program) k st') :
    ∃ k, (later l g st : States).Yields (searchRules program) k st' := by
  obtain ⟨k, hk⟩ := h
  exact ⟨k + 1, hk⟩

theorem Finds.exists_yields_search (h : Finds program g l st st') :
    ∃ k, (g.search program l st).Yields (searchRules program) k st' := by
  induction h with
  | @eq u v l st s hs =>
    refine ⟨0, ?_⟩
    rw [Goal.search, State.unified_eq hs]
    exact List.mem_singleton_self _
  | succeed l st => exact ⟨0, List.mem_singleton_self _⟩
  | left _ ih =>
    obtain ⟨k, hk⟩ := ih
    exact exists_yields_merge_left _ hk
  | right _ ih =>
    obtain ⟨k, hk⟩ := ih
    exact exists_yields_merge_right _ hk
  | @both g h l st mid st' _ _ ihg ihh =>
    obtain ⟨i, hi⟩ := ihg
    obtain ⟨j, hj⟩ := ihh
    show ∃ k, ((g.search program l st).bind (searchRules program) ⟨l, h⟩).value.Yields _ k st'
    exact exists_yields_bind hi hj
  | fresh _ ih => exact ih
  | given _ ih => exact ih
  | deferred _ ih => exact ih
  | delayed _ ih => exact exists_yields_later ih
  | alwayso l st =>
    have hnow : (Goal.succeed.search program l st).Yields (searchRules program) 0 st :=
      List.mem_singleton_self st
    refine exists_yields_later ?_
    rw [Goal.search]
    exact exists_yields_merge_left _ hnow
  | call hr _ ih =>
    rw [Goal.search, hr]
    exact exists_yields_later ih

/-- **Whatever is found is yielded with enough effort**, at a depth that does not depend on it. -/
theorem Finds.exists_yields (h : Finds program g l st st') :
    ∃ k, ∀ᶠ n in atTop, (g.apply ⟨program, n⟩ l st).value.Yields (rules ⟨program, n⟩) k st' := by
  obtain ⟨k, hk⟩ := h.exists_yields_search
  refine ⟨k, ?_⟩
  filter_upwards [eventually_value_apply program g l st,
    (settles_rules program).eventually_after k (g.search program l st)] with n hg hn
  rw [hg, Yields, hn]
  exact hk

end Goal

end Relational
