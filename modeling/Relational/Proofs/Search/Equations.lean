import Relational.Goal.Lists
import Relational.Proofs.Search.Returns
import Relational.Proofs.Substitution.Reified
import Relational.Proofs.Substitution.Variant

/-!
# Searches for equations

A search for a list of equations is one run of unification that starts with all of them waiting: it
has one state or none (`exists_search_equations`).  What the valuations that satisfy the
outcome have to do depends neither on the order of the equations nor on which side is which.  So the
equations may be rearranged: the search fails as before, or it finds as before one state, with the
same answers up to the names of variables (`equations_rearranged`).
-/

namespace Relational

open Filter Substitution
open Relational.Stream (value_bindWith merge_empty_of_ended)

/-! ### Pairs in another order -/

/-- The pairs of `qs` are those of `ps` in some order, some of them with their sides swapped. -/
def Rearranged {α : Type} (ps qs : List (α × α)) : Prop :=
  ∃ swapped, List.Forall₂ (fun p q => q = p ∨ q = p.swap) ps swapped ∧ swapped.Perm qs

namespace Rearranged

variable {α β : Type} {ps qs : List (α × α)}

theorem map (h : Rearranged ps qs) (f : α → β) :
    Rearranged (ps.map (Prod.map f f)) (qs.map (Prod.map f f)) := by
  obtain ⟨swapped, hswap, hperm⟩ := h
  refine ⟨swapped.map (Prod.map f f), ?_, hperm.map _⟩
  rw [List.forall₂_map_left_iff, List.forall₂_map_right_iff]
  refine hswap.imp ?_
  rintro p q (rfl | rfl)
  · exact .inl rfl
  · exact .inr rfl

/-- What is symmetric holds of all pairs in the one order if it does in the other. -/
theorem forall_mem_iff (h : Rearranged ps qs) {P : α × α → Prop} (hP : ∀ p, P p ↔ P p.swap) :
    (∀ p ∈ ps, P p) ↔ ∀ q ∈ qs, P q := by
  obtain ⟨swapped, hswap, hperm⟩ := h
  have hsides : (∀ p ∈ ps, P p) ↔ ∀ q ∈ swapped, P q := by
    clear hperm
    induction hswap with
    | nil => simp
    | cons hpq _ ih =>
      rw [List.forall_mem_cons, List.forall_mem_cons, ih]
      obtain rfl | rfl := hpq
      · rfl
      · rw [← hP]
  rw [hsides]
  exact forall_congr' fun q => by rw [hperm.mem_iff]

end Rearranged

theorem Substitution.solves_rearranged {s : Substitution} {θ : Var → Term}
    {pairs pairs' : List (Term × Term)} (h : Rearranged pairs pairs') :
    Solves θ s pairs ↔ Solves θ s pairs' :=
  and_congr_right fun _ => h.forall_mem_iff fun _ => Term.alike_comm

/-! ### The search -/

namespace Goal

variable {program : Program} {l : Locals} {st : State} {ps qs : List (Pattern × Pattern)}

/-- All equations of a list. -/
def equations (ps : List (Pattern × Pattern)) : Goal := all (ps.map fun p => .eq p.1 p.2)

/-- The terms that the sides of the equations stand for. -/
def sides (l : Locals) (ps : List (Pattern × Pattern)) : List (Term × Term) :=
  ps.map (Prod.map (Pattern.instantiate l) (Pattern.instantiate l))

/-- The states of an outcome of unification: one, or none if it is refused. -/
def statesOf (st : State) : Except Refusal Substitution → States
  | .ok s => .single (st.withSubstitution s)
  | .error _ => .empty

theorem search_eq {u v : Pattern} {r : Except Refusal Substitution}
    (h : Unifies st.config.occursCheck st.substitution [(u.instantiate l, v.instantiate l)] r) :
    Goal.search program (.eq u v) l st = statesOf st r := by
  rw [Goal.search]
  cases r with
  | ok s =>
    rw [State.unified_eq h]
    rfl
  | error refusal =>
    have hnone : st.unified (u.instantiate l) (v.instantiate l) = none := by
      rw [State.unified, dif_neg]
      rintro ⟨s, hs⟩
      cases h.unique hs
    rw [hnone]
    rfl

/-- A goal behind one that fails is not looked at. -/
theorem search_both_of_empty {g h : Goal} (hg : g.search program l st = .empty) :
    Goal.search program (.both g h) l st = .empty := by
  rw [Goal.search, hg]
  rfl

/-- A goal behind one with a single state is looked at in that state. -/
theorem search_both_of_single {g h : Goal} {mid : State}
    (hg : g.search program l st = .single mid) (hh : (h.search program l mid).rest = none) :
    Goal.search program (.both g h) l st = h.search program l mid := by
  rw [Goal.search, hg, value_bindWith]
  exact merge_empty_of_ended hh

theorem rest_statesOf (st : State) (r : Except Refusal Substitution) :
    (statesOf st r).rest = none := by
  cases r <;> rfl

/-- **A search for equations is one run of unification**, with all equations waiting. -/
theorem exists_search_equations (program : Program) (ps : List (Pattern × Pattern)) (l : Locals)
    (st : State) (hcheck : st.config.occursCheck = true) (hs : st.substitution.Acyclic) :
    ∃ r, Unifies true st.substitution (sides l ps) r ∧
      (equations ps).search program l st = statesOf st r := by
  induction ps generalizing st with
  | nil => exact ⟨_, .done _, rfl⟩
  | cons p ps ih =>
    obtain ⟨r, hr⟩ := hs.exists_unifies [(p.1.instantiate l, p.2.instantiate l)]
    have hp : Goal.search program (.eq p.1 p.2) l st = statesOf st r :=
      search_eq (by rwa [hcheck])
    cases ps with
    | nil => exact ⟨r, hr, hp⟩
    | cons q ps =>
      cases r with
      | error refusal => exact ⟨_, hr.append_error, search_both_of_empty hp⟩
      | ok s =>
        obtain ⟨r, hrest, hsearch⟩ := ih (st.withSubstitution s) hcheck (hr.acyclic hs)
        refine ⟨r, hr.append hrest, (search_both_of_single hp ?_).trans hsearch⟩
        exact hsearch ▸ rest_statesOf _ r

/-- **Equations may be given in any order and either way round.**  Without cycles and with the
occurs check, both searches come to an end with nothing given up; and either both have no state, or
both have exactly one, and the two states differ in the names of variables only. -/
theorem equations_rearranged (program : Program) (l : Locals) (st : State)
    (hcheck : st.config.occursCheck = true) (hs : st.substitution.Acyclic)
    (h : Rearranged ps qs) :
    ((Finishes fun n => (equations ps).apply ⟨program, n⟩ l st) ∧
      Finishes fun n => (equations qs).apply ⟨program, n⟩ l st) ∧
    ((∀ᶠ n in atTop, ((equations ps).apply ⟨program, n⟩ l st).value = .empty ∧
      ((equations qs).apply ⟨program, n⟩ l st).value = .empty) ∨
    ∃ st₁ st₂, (∀ᶠ n in atTop, ((equations ps).apply ⟨program, n⟩ l st).value = .single st₁ ∧
        ((equations qs).apply ⟨program, n⟩ l st).value = .single st₂) ∧
      Variant st₁.substitution st₂.substitution) := by
  have hst : st.Checked := ⟨hcheck, hs⟩
  refine ⟨⟨finishes_apply program _ l hst, finishes_apply program _ l hst⟩, ?_⟩
  obtain ⟨r₁, h₁, hsearch₁⟩ := exists_search_equations program ps l st hcheck hs
  obtain ⟨r₂, h₂, hsearch₂⟩ := exists_search_equations program qs l st hcheck hs
  have happly : ∀ᶠ n in atTop,
      ((equations ps).apply ⟨program, n⟩ l st).value = statesOf st r₁ ∧
      ((equations qs).apply ⟨program, n⟩ l st).value = statesOf st r₂ := by
    rw [← hsearch₁, ← hsearch₂]
    exact (eventually_value_apply program _ l st).and (eventually_value_apply program _ l st)
  -- the outcomes are satisfied by the same valuations, because the pairs are solved by the same
  have hsame : ∀ θ, (∃ s, r₁ = .ok s ∧ Satisfies θ s) ↔ ∃ s, r₂ = .ok s ∧ Satisfies θ s := by
    intro θ
    rw [← h₁.solves_iff, ← h₂.solves_iff]
    exact solves_rearranged (h.map _)
  cases r₁ with
  | error refusal₁ =>
    cases r₂ with
    | error refusal₂ => exact .inl happly
    | ok s₂ =>
      obtain ⟨s₁, hs₁, -⟩ := (hsame _).2 ⟨s₂, rfl, (h₂.acyclic hs).satisfies_value⟩
      cases hs₁
  | ok s₁ =>
    cases r₂ with
    | error refusal₂ =>
      obtain ⟨s₂, hs₂, -⟩ := (hsame _).1 ⟨s₁, rfl, (h₁.acyclic hs).satisfies_value⟩
      cases hs₂
    | ok s₂ =>
      have hequi : Equisatisfied s₁ s₂ := fun θ => by simpa using hsame θ
      exact .inr ⟨st.withSubstitution s₁, st.withSubstitution s₂, happly,
        hequi.variant (h₁.acyclic hs) (h₂.acyclic hs)⟩

/-- Two unbound variables meet, and a list cell has one of them in it: the one list of equations
binds the one variable, and the other list the other one. -/
theorem equations_rearranged_unbound :
    let x := Pattern.term (.var (.named "x"))
    let y := Pattern.term (.var (.named "y"))
    let z := Pattern.term (.var (.named "z"))
    let ps := [(x, y), (.cons x .nil, z)]
    let qs := [(z, .cons x .nil), (y, x)]
    let st := State.start { occursCheck := true }
    st.config.occursCheck = true ∧ st.substitution.Acyclic ∧ Rearranged ps qs ∧
      ∃ st₁ st₂, (∀ᶠ n in atTop,
          ((equations ps).apply ⟨Program.lists, n⟩ .none st).value = .single st₁ ∧
          ((equations qs).apply ⟨Program.lists, n⟩ .none st).value = .single st₂) ∧
        Variant st₁.substitution st₂.substitution := by
  intro x y z ps qs st
  have hrearranged : Rearranged ps qs := by
    refine ⟨[(y, x), (z, .cons x .nil)], ?_, List.Perm.swap _ _ _⟩
    exact .cons (.inr rfl) (.cons (.inr rfl) .nil)
  refine ⟨rfl, acyclic_empty, hrearranged, ?_⟩
  obtain ⟨-, hnone | hone⟩ :=
    equations_rearranged Program.lists .none st rfl acyclic_empty hrearranged
  · let s := (Substitution.empty.insert (.named "x") (.var (.named "y"))).insert (.named "z")
      (.cons (.var (.named "y")) .nil)
    have hheads : ((equations ps).apply ⟨Program.lists, 9⟩ .none st).value.heads =
        [st.withSubstitution s] := rfl
    have hfound : Finds Program.lists (equations ps) .none st (st.withSubstitution s) := by
      refine finds_of_yields (e := ⟨Program.lists, 9⟩) (k := 0) ?_
      rw [Stream.yields_zero, hheads]
      exact List.mem_singleton_self _
    obtain ⟨k, hk⟩ := hfound.exists_yields
    obtain ⟨n, hn, hyields⟩ := (hnone.and hk).exists
    rw [hn.1] at hyields
    exact absurd hyields Stream.not_yields_empty
  · exact hone

end Goal

end Relational
