import Relational.Goal.Combinators
import Relational.Proofs.Search.Effort
import Relational.Proofs.Search.Returns
import Relational.Proofs.Stream.Choice
import Relational.Proofs.Substitution.Divergence

/-!
# Fairness of disjunction

A search for one of several goals yields what the searches for the goals yield, each item once and
in the order it has there.  No goal can keep the others from being heard by what it yields: what
goal number `i` yields behind `k` suspensions is there when `2 ^ i * (2 * k + 1) - 1` suspensions
have been forced, even if the other goals suspend for ever or succeed for ever (`disjunction_fair`).

But `either` applies both of its goals at once, and what they suspend is forced in turn.  So a goal
can keep the others from being heard by work that never ends: without the occurs check its
unifications need not return, and then nothing is yielded at all (`disjunction_never_applied`).  For
one item it is only the work in front of the item that counts, and the work that the other goals do
in that time (`SharedBy.in_time`).
-/

namespace Relational

open Filter

namespace Goal

variable {program : Program} {gs : List Goal} {g : Goal} {l : Locals} {st st' : State} {j k : ℕ}

/-- The search for `g` goes through the searches for the goals `gs`, and fairly so. -/
structure SharedBy (program : Program) (gs : List Goal) (g : Goal) (l : Locals) (st : State) :
    Prop where
  /-- Whatever effort there is for it: every item of the goals has its place, once and in order, no
  others are there, and all that is reported goes with the items. -/
  shared : ∀ n, Stream.SharedBy (rules ⟨program, n⟩)
    (fun i : Fin gs.length => (gs.get i).apply ⟨program, n⟩ l st) (g.apply ⟨program, n⟩ l st)
  /-- As far as all goals can be followed, so can the search. -/
  returns : ∀ k, (∀ h ∈ gs, h.Returns program l st k) → g.Returns program l st k
  /-- What a goal shows is there in time, if the other goals can be followed that far. -/
  in_time : ∀ (i : Fin gs.length) (k : ℕ) (st' : State), (gs.get i).Shows program l st k st' →
    (∀ j ≠ i, (gs.get j).Returns program l st (2 ^ (i : ℕ) * (2 * k + 1) - 1)) →
    ∃ j ≤ 2 ^ (i : ℕ) * (2 * k + 1) - 1, g.Shows program l st j st'
  /-- What is there, one of the goals shows. -/
  only : ∀ (j : ℕ) (st' : State), g.Shows program l st j st' →
    ∃ (i : Fin gs.length) (k : ℕ), (gs.get i).Shows program l st k st'

/-! ### From the reports to work that ends -/

theorem persists_searched (program : Program) (g : Goal) (l : Locals) (st : State) (k : ℕ) :
    Persists Event.Told fun n => g.searched ⟨program, n⟩ l st k :=
  (persists_apply id program g l st).bind fun a => persists_advance id program k a

theorem mem_events_searched {e : Engine} {event : Event} :
    event ∈ (g.searched e l st k).events ↔
      event ∈ (g.apply e l st).events ∨ event ∈ (g.apply e l st).value.reports (rules e) k := by
  rw [searched, Logged.events_bind, Array.mem_append]
  rfl

/-- One effort that is large enough tells what a search shows. -/
theorem exists_occurrence_of_shows (h : g.Shows program l st k st') :
    ∀ᶠ n in atTop, (∀ event ∈ (g.searched ⟨program, n⟩ l st k).events, event.Told) ∧
      ∃ o : Stream.Occurrence (rules ⟨program, n⟩) (g.apply ⟨program, n⟩ l st).value,
        o.depth = k ∧ o.item = st' := by
  obtain ⟨r, hr, htold, hst⟩ := h
  filter_upwards [hr] with n hn
  subst hn
  exact ⟨htold, Stream.yields_iff_exists_occurrence.1 hst⟩

theorem shows_of_occurrence {n : ℕ}
    (o : Stream.Occurrence (rules ⟨program, n⟩) (g.apply ⟨program, n⟩ l st).value)
    (h : ∀ event ∈ (g.searched ⟨program, n⟩ l st o.depth).events, event.Told) :
    g.Shows program l st o.depth o.item := by
  refine ⟨g.searched ⟨program, n⟩ l st o.depth, ?_, h, List.get_mem _ _⟩
  exact eventually_atTop.2 ⟨n, fun m hnm => persists_searched program g l st o.depth n m hnm h⟩

theorem returns_of_told {n : ℕ}
    (h : ∀ event ∈ (g.searched ⟨program, n⟩ l st k).events, event.Told) :
    g.Returns program l st k :=
  ⟨_, eventually_atTop.2 ⟨n, fun m hnm => persists_searched program g l st k n m hnm h⟩, h⟩

theorem Returns.eventually_told (h : g.Returns program l st k) :
    ∀ᶠ n in atTop, ∀ event ∈ (g.searched ⟨program, n⟩ l st k).events, event.Told := by
  obtain ⟨r, hr, htold⟩ := h
  filter_upwards [hr] with n hn
  rwa [hn]

section Shared

variable (h : ∀ n, Stream.SharedBy (rules ⟨program, n⟩)
  (fun i : Fin gs.length => (gs.get i).apply ⟨program, n⟩ l st) (g.apply ⟨program, n⟩ l st))

include h

theorem returns_of_shared (hgs : ∀ h ∈ gs, h.Returns program l st k) :
    g.Returns program l st k := by
  have hall : ∀ᶠ n in atTop, ∀ i : Fin gs.length,
      ∀ event ∈ ((gs.get i).searched ⟨program, n⟩ l st k).events, event.Told :=
    eventually_all.2 fun i => (hgs _ (List.get_mem gs i)).eventually_told
  obtain ⟨n, hn⟩ := hall.exists
  refine returns_of_told (n := n) fun event hevent => ?_
  obtain happly | hreport := mem_events_searched.1 hevent
  · obtain ⟨i, hi⟩ := ((h n).applied event).1 happly
    exact hn i event (mem_events_searched.2 (.inl hi))
  · obtain ⟨i, hi⟩ := (h n).reported k event hreport
    exact hn i event (mem_events_searched.2 (.inr hi))

theorem shows_in_time (i : Fin gs.length) (hi : (gs.get i).Shows program l st k st')
    (hothers : ∀ j ≠ i, (gs.get j).Returns program l st (2 ^ (i : ℕ) * (2 * k + 1) - 1)) :
    ∃ j ≤ 2 ^ (i : ℕ) * (2 * k + 1) - 1, g.Shows program l st j st' := by
  have hall : ∀ᶠ n in atTop, ∀ j : Fin gs.length, j ≠ i →
      ∀ event ∈ ((gs.get j).searched ⟨program, n⟩ l st (2 ^ (i : ℕ) * (2 * k + 1) - 1)).events,
        event.Told :=
    eventually_all.2 fun j => eventually_imp_distrib_left.2 fun hj => (hothers j hj).eventually_told
  obtain ⟨n, ⟨hown, o, rfl, rfl⟩, hothers⟩ := ((exists_occurrence_of_shows hi).and hall).exists
  obtain ⟨⟨w, hfair, hkeeps⟩, happlied, -⟩ := h n
  refine ⟨(w.place i o).depth, hfair i o, w.item_place i o ▸ shows_of_occurrence _ ?_⟩
  intro event hevent
  obtain happly | hreport := mem_events_searched.1 hevent
  · obtain ⟨j, hj⟩ := (happlied event).1 happly
    rcases eq_or_ne j i with rfl | hne
    · exact hown event (mem_events_searched.2 (.inl hj))
    · exact hothers j hne event (mem_events_searched.2 (.inl hj))
  · obtain hreport | ⟨j, hne, hj⟩ := hkeeps.others i o event hreport
    · exact hown event (mem_events_searched.2 (.inr hreport))
    · exact hothers j hne event (mem_events_searched.2 (.inr hj))

theorem exists_shows_of_shared (hst : g.Shows program l st j st') :
    ∃ (i : Fin gs.length) (k : ℕ), (gs.get i).Shows program l st k st' := by
  obtain ⟨n, htold, p, rfl, rfl⟩ := (exists_occurrence_of_shows hst).exists
  obtain ⟨⟨w, -, hkeeps⟩, happlied, -⟩ := h n
  obtain ⟨⟨i, o⟩, rfl⟩ := w.bijective.2 p
  refine ⟨i, o.depth, ?_⟩
  show (gs.get i).Shows program l st o.depth (w.place i o).item
  rw [w.item_place]
  refine shows_of_occurrence o fun event hevent => htold event ?_
  obtain happly | hreport := mem_events_searched.1 hevent
  · exact mem_events_searched.2 (.inl ((happlied event).2 ⟨i, happly⟩))
  · exact mem_events_searched.2 (.inr (hkeeps.own i o event hreport))

theorem sharedBy_of_shared : SharedBy program gs g l st :=
  ⟨h, fun _ hgs => returns_of_shared h hgs, fun i _ _ hi hothers => shows_in_time h i hi hothers,
    fun _ _ hst => exists_shows_of_shared h hst⟩

end Shared

/-! ### Disjunction -/

theorem shared_any (e : Engine) (l : Locals) (st : State) : ∀ gs : List Goal,
    Stream.SharedBy (rules e) (fun i : Fin gs.length => (gs.get i).apply e l st)
      ((any gs).apply e l st)
  | [] => Stream.sharedBy_none _
  | [_] => Stream.sharedBy_one _
  | _ :: h :: gs => (shared_any e l st (h :: gs)).merge

theorem sharedBy_any (program : Program) (l : Locals) (st : State) (gs : List Goal) :
    SharedBy program gs (any gs) l st :=
  sharedBy_of_shared fun n => shared_any ⟨program, n⟩ l st gs

theorem any_append_singleton (gs : List Goal) (last : Goal) :
    any (gs ++ [last]) = gs.foldr .either last := by
  induction gs with
  | nil => rfl
  | cons g gs ih =>
    rw [List.foldr_cons, ← ih]
    cases gs <;> rfl

/-- **Disjunction is fair and loses nothing**, whether the goals stand in a list, are made of items
or are nested to the right by `either`; and so is every choice between functions that make
streams. -/
theorem disjunction_fair (program : Program) (l : Locals) (st : State) :
    (∀ gs : List Goal, SharedBy program gs (any gs) l st) ∧
    (∀ (α : Type) (f : α → Goal) (items : List α),
      SharedBy program (items.map f) (anyg f items) l st) ∧
    (∀ (gs : List Goal) (last : Goal),
      SharedBy program (gs ++ [last]) (gs.foldr .either last) l st) ∧
    ∀ (ι κ ε σ α : Type) (rules : Stream.Rules ι κ ε α)
      (fs : List (σ → Logged ε (Stream ι κ α))) (x : σ),
      Stream.SharedBy rules (fun i : Fin fs.length => fs.get i x) (Stream.choice fs x) := by
  refine ⟨sharedBy_any program l st, fun α f items => sharedBy_any program l st (items.map f), ?_,
    fun ι κ ε σ α rules fs x => Stream.sharedBy_choice rules x fs⟩
  intro gs last
  rw [← any_append_singleton]
  exact sharedBy_any program l st (gs ++ [last])

/-- Behind two goals that are never found out, a goal that succeeds at once has to wait for three
suspensions at most. -/
theorem disjunction_fair_nevero :
    let program : Program := fun _ => none
    let st := State.start {}
    (∀ k, Goal.nevero.Returns program .none st k) ∧ Goal.succeed.Shows program .none st 0 st ∧
      ∃ j ≤ 3, (any [.nevero, .nevero, .succeed]).Shows program .none st j st := by
  intro program st
  have hreports : ∀ k, (later .none .nevero st).reports (rules ⟨program, 0⟩) k = #[] := by
    intro k
    induction k with
    | zero => rfl
    | succ k ih =>
      rw [Stream.reports_of_suspended rfl]
      exact (Array.empty_append ..).trans ih
  have hreturns : ∀ k, Goal.nevero.Returns program .none st k := by
    refine fun k => returns_of_told (n := 0) fun event hevent => ?_
    obtain hevent | hevent := mem_events_searched.1 hevent
    · exact absurd hevent (Array.not_mem_empty event)
    · exact absurd (hreports k ▸ hevent) (Array.not_mem_empty event)
  have hshows : Goal.succeed.Shows program .none st 0 st :=
    ⟨pure (.single st), .of_forall fun n => rfl, by simp, List.mem_singleton_self st⟩
  refine ⟨hreturns, hshows, ((disjunction_fair program .none st).1
    [.nevero, .nevero, .succeed]).in_time ⟨2, by decide⟩ 0 st hshows fun j hj => ?_⟩
  have hfirst : ∀ j : Fin 3, j ≠ 2 → j = 0 ∨ j = 1 := by decide
  obtain rfl | rfl := hfirst j hj
  · exact hreturns _
  · exact hreturns _

/-- A goal whose unification never returns keeps silent the goal behind it, which would succeed at
once. -/
theorem disjunction_never_applied :
    let x := Term.var (.named "x")
    let y := Term.var (.named "y")
    let crossed := Goal.eq (.term (.compound ⟨"h"⟩ [x, y, x]))
      (.term (.compound ⟨"h"⟩ [.compound ⟨"f"⟩ [x], .compound ⟨"f"⟩ [y], y]))
    let program : Program := fun _ => none
    let st := State.start {}
    Goal.succeed.Shows program .none st 0 st ∧
      ∀ j, ¬ (any [crossed, .succeed]).Shows program .none st j st := by
  intro x y crossed program st
  refine ⟨⟨pure (.single st), .of_forall fun n => rfl, by simp, List.mem_singleton_self st⟩, ?_⟩
  rintro j ⟨r, hr, htold, -⟩
  obtain ⟨n, rfl⟩ := hr.exists
  have hstuck : st.substitution.unify st.config.occursCheck n (.compound ⟨"h"⟩ [x, y, x])
      (.compound ⟨"h"⟩ [.compound ⟨"f"⟩ [x], .compound ⟨"f"⟩ [y], y]) = .error .unfinished :=
    Substitution.unify_crossed (by decide) n
  have hunify : st.unify n (.compound ⟨"h"⟩ [x, y, x])
      (.compound ⟨"h"⟩ [.compound ⟨"f"⟩ [x], .compound ⟨"f"⟩ [y], y]) =
        ⟨none, #[.refused .unfinished]⟩ := by
    rw [State.unify, hstuck]
    rfl
  have hreported : Event.refused .unfinished ∈
      ((any [crossed, .succeed]).apply ⟨program, n⟩ .none st).events := by
    simp only [any, crossed, Goal.apply, Pattern.instantiate, hunify, Logged.events_bind]
    simp
  exact htold _ (mem_events_searched.2 (.inl hreported))

end Goal

end Relational
