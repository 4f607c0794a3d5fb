import Relational.Goal.Lists
import Relational.Proofs.Goal.Meaning
import Relational.Proofs.Search.Exhaustion

/-!
# Calls of the relations about lists

The searches for the relations that take a list cell to pieces are one unification behind a
suspension, so they come to an end with one state or none (`callExhausts_caro` and the like).

The relations that go through a list call these and then themselves.  For each way in which a call
of `membero` or `appendo` can go on, there is an equation for the layers of the search: what the
present cell gives is there after three suspensions, and what the rest of the list gives stands
behind it, in the order in which it comes there (`callExhausts_membero_cons`,
`callExhausts_appendo`).
-/

namespace Relational

open Relational.Stream (weave graft weave_cons weave_singleton_cons graft_cons)

/-- The states that come of an outcome of unification: one, or none if it is refused. -/
def State.outcomes (st : State) : Except Refusal Substitution → List State
  | .ok s => [st.withSubstitution s]
  | .error _ => []

/-- What is merged with a stream that has ended. -/
theorem Stream.weave_end {α : Type} {as : List (List α)} (h : as ≠ []) : weave as [[]] = as := by
  obtain ⟨a, as, rfl⟩ := List.exists_cons_of_ne_nil h
  cases as <;> simp [weave]

/-- One of two streams shows `found` behind a suspension, and the other one nothing behind two. -/
theorem Stream.weave_behind {α : Type} (found : List α) (layers : List (List α)) :
    weave [[], found] ([] :: [] :: layers) = [] :: [] :: found :: layers := by
  rw [weave_cons (List.cons_ne_nil _ _), weave_cons (List.cons_ne_nil _ _), weave_singleton_cons,
    List.append_nil]

namespace Goal

open Pattern (param)
open Relational.Stream (weave_behind)

/-- The items of the tail of the list `l`. -/
def itemsOfTail : Goal :=
  .fresh "d" (.both (.call "cdro" [param "l", param "d"]) (.call "membero" [param "x", param "d"]))

/-- The list `l` is empty, and `t` is the result. -/
def appendNothing : Goal := .both (.call "nullo" [param "l"]) (.eq (param "t") (param "out"))

/-- The list `l` is a cell, and the result is a cell with the same head. -/
def appendCell : Goal :=
  .fresh "a" (.fresh "d" (.fresh "res" (.both (.call "conso" [param "a", param "d", param "l"])
    (.both (.call "conso" [param "a", param "res", param "out"])
      (.call "appendo" [param "d", param "t", param "res"])))))

variable {program : Program} {g h : Goal} {l : Locals} {st mid : State}
  {layers ls : List (List State)} {out : Except Refusal Substitution}

theorem Exhausts.ne_nil (h : Exhausts program g l st layers) : layers ≠ [] := by
  obtain ⟨n, hn⟩ := h.eventually_completes.exists
  exact hn.runsOut.ne_nil

theorem Exhausts.eq (st : State) {u v : Pattern} (h : st.substitution.Unifies st.config.occursCheck
    [(u.instantiate l, v.instantiate l)] out) :
    Exhausts program (.eq u v) l st [st.outcomes out] := by
  cases out with
  | ok s => exact .unified h
  | error refusal => exact .refused h

/-- A goal behind one that gives a state after one suspension. -/
theorem Exhausts.both_found (hg : Exhausts program g l st [[], [mid]])
    (hh : Exhausts program h l mid layers) :
    Exhausts program (.both g h) l st ([] :: layers) := by
  have hgraft : graft (fun _ => layers) [[], [mid]] = [] :: layers := by
    rw [graft_cons (List.cons_ne_nil _ _), graft]
    exact congrArg _ (Stream.weave_end hh.ne_nil)
  rw [← hgraft]
  refine .both hg fun mid' hm => ?_
  obtain rfl : mid' = mid := by simpa using hm
  exact hh

/-- A goal behind one that gives nothing is not looked at. -/
theorem Exhausts.both_nothing (hg : Exhausts program g l st [[], []]) :
    Exhausts program (.both g h) l st [[], []] := by
  have hgraft : graft (fun _ => []) [[], []] = ([[], []] : List (List State)) := by
    rw [graft_cons (List.cons_ne_nil _ _), graft]
    rfl
  rw [← hgraft]
  exact .both hg fun mid hm => by simp at hm

/-- The call of a relation about lists is exhausted, however its arguments are written. -/
def CallExhausts (relation : String) (arguments : List Term) (st : State)
    (layers : List (List State)) : Prop :=
  ∀ (l : Locals) (ps : List Pattern), Pattern.instantiateAll l ps = arguments →
    Exhausts Program.lists (.call relation ps) l st layers

/-- The arguments stand in the call as they are. -/
theorem CallExhausts.exhausts {relation : String} {arguments : List Term}
    (h : CallExhausts relation arguments st layers) (l : Locals) :
    Exhausts Program.lists (.call relation (arguments.map .term)) l st layers := by
  refine h l _ ?_
  rw [Pattern.instantiateAll_eq_map, List.map_map]
  exact List.map_id' arguments

theorem callExhausts_of_body {relation : String} {arguments : List Term} {r : Relation}
    (hr : Program.lists relation = some r)
    (h : ∀ l, Exhausts Program.lists r.body (openLocals l r arguments st) st layers) :
    CallExhausts relation arguments st ([] :: layers) := by
  rintro l ps rfl
  exact .call hr (h l)

/-! ### Cells -/

variable {a d p q t x : Term} {s' : Substitution}

theorem callExhausts_conso (st : State)
    (h : st.substitution.Unifies st.config.occursCheck [(.cons a d, p)] out) :
    CallExhausts "conso" [a, d, p] st [[], st.outcomes out] :=
  callExhausts_of_body rfl fun _ => .eq st h

theorem callExhausts_nullo (st : State)
    (h : st.substitution.Unifies st.config.occursCheck [(p, .nil)] out) :
    CallExhausts "nullo" [p] st [[], st.outcomes out] :=
  callExhausts_of_body rfl fun _ => .eq st h

theorem callExhausts_caro (st : State) (h : st.substitution.Unifies st.config.occursCheck
    [(.cons a (.var (.fresh st.nextId)), p)] out) :
    CallExhausts "caro" [p, a] st [[], st.freshVar.value.2.outcomes out] :=
  callExhausts_of_body rfl fun _ => .fresh (.eq _ h)

theorem callExhausts_cdro (st : State) (h : st.substitution.Unifies st.config.occursCheck
    [(.cons (.var (.fresh st.nextId)) d, p)] out) :
    CallExhausts "cdro" [p, d] st [[], st.freshVar.value.2.outcomes out] :=
  callExhausts_of_body rfl fun _ => .fresh (.eq _ h)

/-! ### Items -/

/-- The items of a list: what unification with the head gives is there behind three suspensions, and
what comes of the rest of the list behind it. -/
theorem callExhausts_membero (hhead : st.substitution.Unifies st.config.occursCheck
      [(.cons x (.var (.fresh st.nextId)), p)] out)
    (hrest : ∀ l, Exhausts Program.lists itemsOfTail (openLocals l Lists.membero [x, p] st) st
      ([] :: [] :: ls)) :
    CallExhausts "membero" [x, p] st
      ([] :: [] :: [] :: st.freshVar.value.2.outcomes out :: ls) := by
  refine callExhausts_of_body rfl fun l => ?_
  rw [← weave_behind]
  exact .either (callExhausts_caro st hhead _ _ rfl) (hrest l)

theorem callExhausts_membero_cons
    (hhead : st.substitution.Unifies st.config.occursCheck
      [(.cons x (.var (.fresh st.nextId)), p)] out)
    (htail : st.substitution.Unifies st.config.occursCheck
      [(.cons (.var (.fresh (st.nextId + 1))) (.var (.fresh st.nextId)), p)] (.ok s'))
    (hrest : CallExhausts "membero" [x, .var (.fresh st.nextId)]
      ⟨s', st.nextId + 2, st.config⟩ ([] :: ls)) :
    CallExhausts "membero" [x, p] st
      ([] :: [] :: [] :: st.freshVar.value.2.outcomes out :: ls) :=
  callExhausts_membero hhead fun _ =>
    .fresh (.both_found (callExhausts_cdro st.freshVar.value.2 htail _ _ rfl)
      (hrest _ _ rfl))

/-- Nothing is an item of what is no list cell. -/
theorem callExhausts_membero_end {refusal refusal' : Refusal}
    (hhead : st.substitution.Unifies st.config.occursCheck
      [(.cons x (.var (.fresh st.nextId)), p)] (.error refusal))
    (htail : st.substitution.Unifies st.config.occursCheck
      [(.cons (.var (.fresh (st.nextId + 1))) (.var (.fresh st.nextId)), p)] (.error refusal')) :
    CallExhausts "membero" [x, p] st [[], [], [], []] :=
  callExhausts_membero hhead fun _ =>
    .fresh (.both_nothing (callExhausts_cdro st.freshVar.value.2 htail _ _ rfl))

/-! ### Two lists one behind the other -/

/-- The search for one of the two clauses of `appendo`, when it is called with the terms `p`, `t`
and `q`. -/
def ClauseExhausts (clause : Goal) (p t q : Term) (st : State) (layers : List (List State)) :
    Prop :=
  ∀ l, Exhausts Program.lists clause (openLocals l Lists.appendo [p, t, q] st) st layers

theorem nothing_found (hnil : st.substitution.Unifies st.config.occursCheck [(p, .nil)] (.ok s'))
    (hrest : s'.Unifies st.config.occursCheck [(t, q)] out) :
    ClauseExhausts appendNothing p t q st [[], (st.withSubstitution s').outcomes out] := fun _ =>
  .both_found (callExhausts_nullo st hnil _ _ rfl) (.eq (st.withSubstitution s') hrest)

theorem nothing_refused {refusal : Refusal}
    (hnil : st.substitution.Unifies st.config.occursCheck [(p, .nil)] (.error refusal)) :
    ClauseExhausts appendNothing p t q st [[], []] := fun _ =>
  .both_nothing (callExhausts_nullo st hnil _ _ rfl)

/-- The first list is taken to pieces, a cell is made of the result, and the rest follows. -/
theorem cell_found {s'' : Substitution}
    (hlist : st.substitution.Unifies st.config.occursCheck
      [(.cons (.var (.fresh st.nextId)) (.var (.fresh (st.nextId + 1))), p)] (.ok s'))
    (hout : s'.Unifies st.config.occursCheck
      [(.cons (.var (.fresh st.nextId)) (.var (.fresh (st.nextId + 2))), q)] (.ok s''))
    (hrest : CallExhausts "appendo"
      [.var (.fresh (st.nextId + 1)), t, .var (.fresh (st.nextId + 2))]
      ⟨s'', st.nextId + 3, st.config⟩ ([] :: ls)) :
    ClauseExhausts appendCell p t q st ([] :: [] :: [] :: ls) := fun _ =>
  .fresh (.fresh (.fresh (.both_found
    (callExhausts_conso ⟨st.substitution, st.nextId + 3, st.config⟩ hlist _ _ rfl)
    (.both_found (callExhausts_conso ⟨s', st.nextId + 3, st.config⟩ hout _ _ rfl)
      (hrest _ _ rfl)))))

/-- The first list is no cell. -/
theorem cell_refused {refusal : Refusal}
    (hlist : st.substitution.Unifies st.config.occursCheck
      [(.cons (.var (.fresh st.nextId)) (.var (.fresh (st.nextId + 1))), p)] (.error refusal)) :
    ClauseExhausts appendCell p t q st [[], []] := fun _ =>
  .fresh (.fresh (.fresh (.both_nothing
    (callExhausts_conso ⟨st.substitution, st.nextId + 3, st.config⟩ hlist _ _ rfl))))

/-- The result is no cell. -/
theorem cell_refused_result {refusal : Refusal}
    (hlist : st.substitution.Unifies st.config.occursCheck
      [(.cons (.var (.fresh st.nextId)) (.var (.fresh (st.nextId + 1))), p)] (.ok s'))
    (hout : s'.Unifies st.config.occursCheck
      [(.cons (.var (.fresh st.nextId)) (.var (.fresh (st.nextId + 2))), q)] (.error refusal)) :
    ClauseExhausts appendCell p t q st [[], [], []] := fun _ =>
  .fresh (.fresh (.fresh (.both_found
    (callExhausts_conso ⟨st.substitution, st.nextId + 3, st.config⟩ hlist _ _ rfl)
    (.both_nothing (callExhausts_conso ⟨s', st.nextId + 3, st.config⟩ hout _ _ rfl)))))

/-- What the first clause gives is there behind three suspensions, and what the second one gives
behind it. -/
theorem callExhausts_appendo {found : List State}
    (hnothing : ClauseExhausts appendNothing p t q st [[], found])
    (hcell : ClauseExhausts appendCell p t q st ([] :: [] :: ls)) :
    CallExhausts "appendo" [p, t, q] st ([] :: [] :: [] :: found :: ls) := by
  refine callExhausts_of_body rfl fun l => ?_
  rw [← weave_behind]
  exact .either (hnothing l) (hcell l)

end Goal

end Relational
