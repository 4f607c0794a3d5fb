import Relational.Proofs.Search.Finds
import Relational.Proofs.Stream.Exhaustion
import Relational.Proofs.Substitution.OccursCheck

/-!
# Searches that run out

`Goal.Exhausts program g l st layers` says by recursion over the goal, and over the bodies of the
relations it calls, that the search for `g` from `st` comes to an end, and which states it finds
behind how many suspensions.  It knows neither streams nor effort; where states are found together
it knows in which order.

A search runs out with some effort, and no unification is given up on the way, exactly if it is
exhausted in this sense; it then runs out with every effort that is large enough
(`Completes.exhausts`, `Exhausts.eventually_completes`).
-/

namespace Relational

open Filter
open Relational.Stream Relational.Substitution

/-- The report does not say that a unification was given up. -/
def Event.Settled (event : Event) : Prop := event ≠ .refused .unfinished

theorem Event.settled_introduced (x : Var) : (Event.introduced x).Settled := by
  rintro ⟨⟩

theorem Event.settled_applied (relation : String) (arguments : List (String × Term))
    (under : Substitution) : (Event.applied relation arguments under).Settled := by
  rintro ⟨⟩

namespace Goal

/-- The search for a goal comes to an end; the states that are found behind each suspension. -/
inductive Exhausts (program : Program) : Goal → Locals → State → List (List State) → Prop
  | unified {u v : Pattern} {l : Locals} {st : State} {s : Substitution} :
      st.substitution.Unifies st.config.occursCheck [(u.instantiate l, v.instantiate l)] (.ok s) →
      Exhausts program (.eq u v) l st [[st.withSubstitution s]]
  | refused {u v : Pattern} {l : Locals} {st : State} {refusal : Refusal} :
      st.substitution.Unifies st.config.occursCheck [(u.instantiate l, v.instantiate l)]
        (.error refusal) →
      Exhausts program (.eq u v) l st [[]]
  | succeed (l : Locals) (st : State) : Exhausts program .succeed l st [[st]]
  | fail (l : Locals) (st : State) : Exhausts program .fail l st [[]]
  | either {g h : Goal} {l : Locals} {st : State} {as bs : List (List State)} :
      Exhausts program g l st as → Exhausts program h l st bs →
      Exhausts program (.either g h) l st (weave as bs)
  | both {g h : Goal} {l : Locals} {st : State} {layers : List (List State)}
      {f : State → List (List State)} : Exhausts program g l st layers →
      (∀ mid ∈ layers.flatten, Exhausts program h l mid (f mid)) →
      Exhausts program (.both g h) l st (graft f layers)
  | fresh {name : String} {g : Goal} {l : Locals} {st : State} {layers : List (List State)} :
      Exhausts program g (l.bind name (.var st.freshVar.value.1)) st.freshVar.value.2 layers →
      Exhausts program (.fresh name g) l st layers
  | given {name : String} {t : Pattern} {g : Goal} {l : Locals} {st : State}
      {layers : List (List State)} :
      Exhausts program g (l.bind name (t.instantiate l)) st layers →
      Exhausts program (.given name t g) l st layers
  | deferred {make : Unit → Goal} {l : Locals} {st : State} {layers : List (List State)} :
      Exhausts program (make ()) l st layers → Exhausts program (.deferred make) l st layers
  | delayed {g : Goal} {l : Locals} {st : State} {layers : List (List State)} :
      Exhausts program g l st layers → Exhausts program (.delayed g) l st ([] :: layers)
  | unknown {relation : String} {arguments : List Pattern} (l : Locals) (st : State) :
      program relation = none → Exhausts program (.call relation arguments) l st [[]]
  | call {relation : String} {arguments : List Pattern} {r : Relation} {l : Locals} {st : State}
      {layers : List (List State)} : program relation = some r →
      Exhausts program r.body (openLocals l r (Pattern.instantiateAll l arguments) st) st layers →
      Exhausts program (.call relation arguments) l st ([] :: layers)

/-- The search runs out, and no unification is given up. -/
structure Completes (e : Engine) (g : Goal) (l : Locals) (st : State)
    (layers : List (List State)) : Prop where
  reports : (g.apply e l st).Reports Event.Settled
  runsOut : (g.apply e l st).value.RunsOut (rules e) Event.Settled layers

variable {e : Engine} {program : Program} {g h : Goal} {l : Locals} {st : State}
  {layers cs : List (List State)}

/-! ### A search that runs out is exhausted -/

theorem runsOut_later : (later l g st : States).RunsOut (rules e) Event.Settled cs ↔
    ∃ behind, cs = [] :: behind ∧ Completes e g l st behind := by
  rw [later, runsOut_suspend]
  exact exists_congr fun behind => and_congr_right fun _ =>
    ⟨fun h => ⟨h.1, h.2⟩, fun h => ⟨h.reports, h.runsOut⟩⟩

theorem Completes.unify {u v : Pattern} (h : Completes e (.eq u v) l st layers) :
    Exhausts e.program (.eq u v) l st layers := by
  obtain ⟨hreports, hrun⟩ := h
  simp only [Goal.apply, State.unify, Logged.reports_bind] at hreports hrun
  cases hu : st.substitution.unify st.config.occursCheck e.effort (u.instantiate l)
      (v.instantiate l) with
  | ok s =>
    rw [hu] at hrun
    obtain rfl := hrun.unique (runsOut_ofList [st.withSubstitution s])
    exact .unified (unifies_of_unifyAll hu (by simp))
  | error refusal =>
    rw [hu] at hreports hrun
    obtain rfl := hrun.unique runsOut_empty
    refine .refused (unifies_of_unifyAll hu ?_)
    rintro ⟨⟩
    exact Logged.reports_report.1 (Logged.reports_bind.1 hreports.1).1 rfl

/-- **A search that runs out is exhausted.** -/
theorem Completes.exhausts (h : Completes e g l st layers) :
    Exhausts e.program g l st layers := by
  -- by the number of suspensions, and for one number by the goal
  induction hn : layers.length using Nat.strong_induction_on generalizing g l st layers with
  | _ n ihn =>
    have hlater : ∀ {g l st cs}, cs.length ≤ n →
        (later l g st : States).RunsOut (rules e) Event.Settled cs →
        ∃ behind, cs = [] :: behind ∧ Exhausts e.program g l st behind := by
      intro g l st cs hcs hrun
      obtain ⟨behind, rfl, hbehind⟩ := runsOut_later.1 hrun
      rw [List.length_cons] at hcs
      exact ⟨behind, rfl, ihn _ hcs hbehind rfl⟩
    have hall : ∀ cs, cs.length ≤ n → Completes e g l st cs → Exhausts e.program g l st cs := by
      clear h
      induction g generalizing l st with
      | eq u v => exact fun cs _ hc => hc.unify
      | succeed =>
        rintro cs _ ⟨-, hrun⟩
        obtain rfl := hrun.unique (runsOut_ofList [st])
        exact .succeed l st
      | fail =>
        rintro cs _ ⟨-, hrun⟩
        obtain rfl := hrun.unique runsOut_empty
        exact .fail l st
      | either g h ihg ihh =>
        rintro cs hcs ⟨hreports, hrun⟩
        simp only [Goal.apply, Logged.reports_bind] at hreports
        obtain ⟨hg, hh, -⟩ := hreports
        obtain ⟨as, bs, has, hbs, rfl⟩ := exists_runsOut_of_merge hrun
        have hlen := length_weave has.ne_nil hbs.ne_nil
        have hpos := List.length_pos_iff.2 has.ne_nil
        have hpos' := List.length_pos_iff.2 hbs.ne_nil
        exact .either (ihg as (by omega) ⟨hg, has⟩) (ihh bs (by omega) ⟨hh, hbs⟩)
      | both g h ihg ihh =>
        rintro cs hcs ⟨hreports, hrun⟩
        simp only [Goal.apply, Logged.reports_bind] at hreports
        obtain ⟨hg, hbind⟩ := hreports
        obtain ⟨layers, hlayers, hrest, rfl⟩ := exists_runsOut_of_bind hbind hrun
        have hmid : ∀ mid ∈ layers.flatten, Completes e h l mid
            ((h.apply e l mid).value.allLayers (rules e) Event.Settled) := by
          intro mid hm
          obtain ⟨hreports, others, hothers⟩ := hrest mid hm
          rw [← hothers.allLayers_eq] at hothers
          exact ⟨hreports, hothers⟩
        obtain ⟨hle, hlemid⟩ :=
          length_le_length_graft (fun mid hm => (hmid mid hm).runsOut.ne_nil) hlayers.ne_nil
        exact .both (ihg _ (hle.trans hcs) ⟨hg, hlayers⟩)
          fun mid hm => ihh _ ((hlemid mid hm).trans hcs) (hmid mid hm)
      | fresh name g ih =>
        rintro cs hcs ⟨hreports, hrun⟩
        simp only [Goal.apply, Logged.reports_bind] at hreports
        exact .fresh (ih cs hcs ⟨hreports.2, hrun⟩)
      | given name t g ih => exact fun cs hcs hc => .given (ih cs hcs ⟨hc.reports, hc.runsOut⟩)
      | deferred make ih => exact fun cs hcs hc => .deferred (ih () cs hcs ⟨hc.reports, hc.runsOut⟩)
      | delayed g _ =>
        intro cs hcs hc
        obtain ⟨behind, rfl, hbehind⟩ := hlater hcs hc.runsOut
        exact .delayed hbehind
      | nevero =>
        intro cs hcs hc
        obtain ⟨behind, rfl, hbehind⟩ := hlater hcs hc.runsOut
        cases hbehind
      | alwayso =>
        intro cs hcs hc
        obtain ⟨behind, rfl, hbehind⟩ := hlater hcs hc.runsOut
        cases hbehind with
        | either _ h => cases h
      | call relation arguments =>
        intro cs hcs hc
        have hrun := hc.runsOut
        rw [value_apply_call] at hrun
        cases hr : e.program relation with
        | none =>
          rw [hr] at hrun
          obtain rfl := hrun.unique runsOut_empty
          exact .unknown l st hr
        | some r =>
          rw [hr] at hrun
          obtain ⟨behind, rfl, hbehind⟩ := hlater hcs hrun
          exact .call hr hbehind
    exact hall layers hn.le h

/-! ### An exhausted search runs out -/

theorem completes_later {behind : List (List State)} (h : Completes e g l st behind) :
    (later l g st : States).RunsOut (rules e) Event.Settled ([] :: behind) :=
  runsOut_later.2 ⟨behind, rfl, h⟩

/-- **An exhausted search runs out with enough effort.** -/
theorem Exhausts.eventually_completes (h : Exhausts program g l st layers) :
    ∀ᶠ n in atTop, Completes ⟨program, n⟩ g l st layers := by
  induction h with
  | @unified u v l st s hu =>
    filter_upwards [hu.eventually_unifyAll] with n hn
    constructor
    · simp only [Goal.apply, State.unify, Substitution.unify, hn]
      exact Logged.reports_pure _
    · simp only [Goal.apply, State.unify, Substitution.unify, hn]
      exact runsOut_ofList _
  | @refused u v l st refusal hu =>
    filter_upwards [hu.eventually_unifyAll] with n hn
    have hsettled : (Event.refused refusal).Settled := by
      rintro ⟨⟩
      exact hu.ne_unfinished rfl
    constructor
    · simp only [Goal.apply, State.unify, Substitution.unify, hn, Logged.reports_bind,
        Logged.reports_report]
      exact ⟨⟨hsettled, Logged.reports_pure _⟩, Logged.reports_pure _⟩
    · simp only [Goal.apply, State.unify, Substitution.unify, hn]
      exact runsOut_empty
  | succeed l st => exact .of_forall fun n => ⟨Logged.reports_pure _, runsOut_ofList [st]⟩
  | fail l st => exact .of_forall fun n => ⟨Logged.reports_pure _, runsOut_empty⟩
  | either _ _ ihg ihh =>
    filter_upwards [ihg, ihh] with n hg hh
    refine ⟨?_, hg.runsOut.merge hh.runsOut⟩
    simp only [Goal.apply, Logged.reports_bind]
    exact ⟨hg.reports, hh.reports, Logged.reports_pure _⟩
  | @both g h l st layers f _ _ ihg ihh =>
    have hall : ∀ᶠ n in atTop, ∀ mid ∈ {mid | mid ∈ layers.flatten},
        Completes ⟨program, n⟩ h l mid (f mid) :=
      (eventually_all_finite layers.flatten.finite_toSet).2 ihh
    filter_upwards [ihg, hall] with n hg hh
    have hbind := hg.runsOut.bind ⟨l, h⟩
      fun mid hm => ⟨(hh mid hm).reports, (hh mid hm).runsOut⟩
    refine ⟨?_, hbind.2⟩
    simp only [Goal.apply, Logged.reports_bind]
    exact ⟨hg.reports, hbind.1⟩
  | fresh _ ih =>
    filter_upwards [ih] with n hn
    refine ⟨?_, hn.runsOut⟩
    simp only [Goal.apply, State.freshVar, Logged.reports_bind, Logged.reports_report]
    exact ⟨⟨Event.settled_introduced _, Logged.reports_pure _⟩, hn.reports⟩
  | given _ ih =>
    filter_upwards [ih] with n hn
    exact ⟨hn.reports, hn.runsOut⟩
  | deferred _ ih =>
    filter_upwards [ih] with n hn
    exact ⟨hn.reports, hn.runsOut⟩
  | delayed _ ih =>
    filter_upwards [ih] with n hn
    exact ⟨Logged.reports_pure _, completes_later hn⟩
  | @unknown relation arguments l st hr =>
    refine .of_forall fun n => ⟨?_, ?_⟩
    · simp only [Goal.apply, hr]
      exact Logged.reports_pure _
    · simp only [Goal.apply, hr]
      exact runsOut_empty
  | @call relation arguments r l st layers hr _ ih =>
    filter_upwards [ih] with n hn
    constructor
    · simp only [Goal.apply, hr]
      split_ifs
      · rw [Logged.reports_bind, Logged.reports_report]
        exact ⟨Event.settled_applied _ _ _, Logged.reports_pure _⟩
      · exact Logged.reports_pure _
    · simp only [value_apply_call, hr]
      exact completes_later hn

end Goal

end Relational
