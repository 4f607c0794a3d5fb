import Relational.Proofs.Goal.Variables
import Relational.Proofs.Search.Finds
import Relational.Proofs.Substitution.Order

/-!
# The branches of a search

A branch of a search is a state with the goals that are still to be applied to it and the goals that
have been built on the way (`Goal.Branch`).  One step applies the first of the goals: it is replaced
by some of its parts, or by the body of a relation, or it is done with (`Goal.Opens`).

* Every branch that a search carries along, with its heads and inside of its suspensions, comes
  about by such steps, however many suspensions have been forced (`leadsTo_of_carries`).
* A step keeps the bindings, the order in which they were made and the configuration, the counter
  only rises, and all variables stay below it (`Opens.kept`, `Branch.Step.supplied`).  So the
  variable that is handed out next occurs in no binding and in no goal of the branch
  (`search_supplies`).
-/

namespace Relational

open Substitution

/-- What a search keeps of a state: the later state has the same configuration and a counter that is
no lower, and its bindings begin with those of the earlier one. -/
structure State.Kept (st st' : State) : Prop where
  counter : st.nextId ≤ st'.nextId
  config : st'.config = st.config
  keys : st.substitution.keys <+: st'.substitution.keys
  bindings : st.substitution.Extends st'.substitution

theorem State.Kept.refl (st : State) : st.Kept st :=
  ⟨le_rfl, rfl, List.prefix_rfl, .refl _⟩

theorem State.Kept.trans {st mid st' : State} (h : st.Kept mid) (h' : mid.Kept st') :
    st.Kept st' :=
  ⟨h.counter.trans h'.counter, h'.config.trans h.config, h.keys.trans h'.keys,
    h.bindings.trans h'.bindings⟩

namespace Goal

/-- Applying a goal to the state `st` leaves `parts` to be applied to the state `st'`. -/
inductive Opens (program : Program) : Closure → State → List Closure → State → Prop
  | eq {u v : Pattern} {l : Locals} {st : State} {s : Substitution} :
      st.substitution.Unifies st.config.occursCheck [(u.instantiate l, v.instantiate l)] (.ok s) →
      Opens program ⟨l, .eq u v⟩ st [] (st.withSubstitution s)
  | succeed (l : Locals) (st : State) : Opens program ⟨l, .succeed⟩ st [] st
  | left (g h : Goal) (l : Locals) (st : State) : Opens program ⟨l, .either g h⟩ st [⟨l, g⟩] st
  | right (g h : Goal) (l : Locals) (st : State) : Opens program ⟨l, .either g h⟩ st [⟨l, h⟩] st
  | both (g h : Goal) (l : Locals) (st : State) :
      Opens program ⟨l, .both g h⟩ st [⟨l, g⟩, ⟨l, h⟩] st
  | fresh (name : String) (g : Goal) (l : Locals) (st : State) :
      Opens program ⟨l, .fresh name g⟩ st [⟨l.bind name (.var st.freshVar.value.1), g⟩]
        st.freshVar.value.2
  | given (name : String) (t : Pattern) (g : Goal) (l : Locals) (st : State) :
      Opens program ⟨l, .given name t g⟩ st [⟨l.bind name (t.instantiate l), g⟩] st
  | deferred (make : Unit → Goal) (l : Locals) (st : State) :
      Opens program ⟨l, .deferred make⟩ st [⟨l, make ()⟩] st
  | delayed (g : Goal) (l : Locals) (st : State) : Opens program ⟨l, .delayed g⟩ st [⟨l, g⟩] st
  | nevero (l : Locals) (st : State) : Opens program ⟨l, .nevero⟩ st [⟨l, .nevero⟩] st
  | alwayso (l : Locals) (st : State) :
      Opens program ⟨l, .alwayso⟩ st [⟨l, .either .succeed .alwayso⟩] st
  | call {relation : String} {r : Relation} (arguments : List Pattern) (l : Locals) (st : State) :
      program relation = some r → Opens program ⟨l, .call relation arguments⟩ st
        [⟨openLocals l r (Pattern.instantiateAll l arguments) st, r.body⟩] st

/-- A branch of a search. -/
structure Branch where
  /-- The goals that are still to be applied, the next one first. -/
  todo : List Closure
  /-- The goals that have been built so far. -/
  built : List Closure
  state : State

/-- The branch at the start of a search. -/
def Branch.start (g : Goal) (l : Locals) (st : State) : Branch := ⟨[⟨l, g⟩], [⟨l, g⟩], st⟩

/-- One step along a branch. -/
inductive Branch.Step (program : Program) : Branch → Branch → Prop
  | mk {c : Closure} {parts : List Closure} {st st' : State} (todo built : List Closure) :
      Opens program c st parts st' →
      Branch.Step program ⟨c :: todo, built, st⟩ ⟨parts ++ todo, parts ++ built, st'⟩

/-- The second branch goes on from the first one. -/
def Branch.LeadsTo (program : Program) : Branch → Branch → Prop :=
  Relation.ReflTransGen (Branch.Step program)

variable {e : Engine} {program : Program} {g h : Goal} {c : Closure} {l : Locals}
  {st st' : State} {parts todo : List Closure} {b b' : Branch} {Q : Var → Prop}

/-! ### What a step keeps -/

theorem Opens.kept (h : Opens program c st parts st') : st.Kept st' := by
  cases h with
  | eq hu => exact ⟨le_rfl, rfl, hu.grows.keys_prefix, hu.extends⟩
  | fresh => exact ⟨Nat.le_succ _, rfl, List.prefix_rfl, .refl _⟩
  | _ => exact .refl st

/-- A step brings no variables into the bindings but those of the goal. -/
theorem Opens.bindings (h : Opens program c st parts st') (hst : st.substitution.Over Q)
    (hc : c.Over Q) : st'.substitution.Over Q := by
  cases h with
  | eq hu =>
    refine hu.over hst fun p hp => ?_
    rw [List.mem_singleton] at hp
    subst hp
    exact ⟨hc.instantiate fun _ => .inl, hc.instantiate fun _ => .inr⟩
  | _ => exact hst

/-- It brings none into the goals but those of the relations and the one that it hands out. -/
theorem Opens.goals (h : Opens program c st parts st') (hc : c.Over Q) (hprogram : program.Over Q)
    (hnew : st.nextId < st'.nextId → Q (.fresh st.nextId)) : ∀ part ∈ parts, part.Over Q := by
  cases h with
  | eq => simp
  | succeed => simp
  | left => exact List.forall_mem_singleton.2 (hc.part fun _ => .inl)
  | right => exact List.forall_mem_singleton.2 (hc.part fun _ => .inr)
  | both =>
    exact List.forall_mem_cons.2
      ⟨hc.part fun _ => .inl, List.forall_mem_singleton.2 (hc.part fun _ => .inr)⟩
  | fresh => exact List.forall_mem_singleton.2 (hc.fresh (hnew (Nat.lt_succ_self _)))
  | given => exact List.forall_mem_singleton.2 hc.given
  | deferred => exact List.forall_mem_singleton.2 (hc.part fun _ ha => ha)
  | delayed => exact List.forall_mem_singleton.2 (hc.part fun _ ha => ha)
  | nevero => exact List.forall_mem_singleton.2 hc
  | alwayso => exact List.forall_mem_singleton.2 (hc.part fun _ => by simp [Contains])
  | call arguments l st hr => exact List.forall_mem_singleton.2 (hc.call hprogram hr)

/-- What stands in a part stands in the goal or in the body of a relation. -/
theorem Opens.contains (h : Opens program c st parts st') : ∀ part ∈ parts, ∀ a,
    part.goal.Contains a →
      c.goal.Contains a ∨ ∃ name r, program name = some r ∧ r.body.Contains a := by
  cases h with
  | eq => simp
  | succeed => simp
  | left => exact List.forall_mem_singleton.2 fun _ ha => .inl (.inl ha)
  | right => exact List.forall_mem_singleton.2 fun _ ha => .inl (.inr ha)
  | both =>
    exact List.forall_mem_cons.2 ⟨fun _ ha => .inl (.inl ha),
      List.forall_mem_singleton.2 fun _ ha => .inl (.inr ha)⟩
  | given => exact List.forall_mem_singleton.2 fun _ ha => .inl (.inr ha)
  | alwayso => exact List.forall_mem_singleton.2 fun _ ha => by simp [Contains] at ha
  | call _ _ _ hr => exact List.forall_mem_singleton.2 fun _ ha => .inr ⟨_, _, hr, ha⟩
  | _ => exact List.forall_mem_singleton.2 fun _ ha => .inl ha

/-- All variables on a branch were handed out before. -/
structure Branch.Supplied (program : Program) (b : Branch) : Prop where
  bindings : b.state.substitution.Over (Var.Below b.state.nextId)
  goals : ∀ c ∈ b.built, c.Over (Var.Below b.state.nextId)
  todo : ∀ c ∈ b.todo, c ∈ b.built
  program : program.Over (Var.Below b.state.nextId)

theorem Branch.Step.kept (h : Branch.Step program b b') : b.state.Kept b'.state := by
  cases h with
  | mk todo built ho => exact ho.kept

theorem Branch.Step.supplied (h : Branch.Step program b b') (hb : b.Supplied program) :
    b'.Supplied program := by
  cases h with
  | @mk c parts st st' todo built ho =>
    obtain ⟨hfirst, hrest⟩ := List.forall_mem_cons.1 hb.todo
    have hc : c.Over (Var.Below st.nextId) := hb.goals c hfirst
    have hmono : ∀ x : Var, x.Below st.nextId → x.Below st'.nextId :=
      fun x hx => hx.mono ho.kept.counter
    refine ⟨ho.bindings (hb.bindings.mono hmono) (hc.mono hmono), List.forall_mem_append.2 ⟨?_, ?_⟩,
      List.forall_mem_append.2 ⟨?_, ?_⟩, hb.program.mono hmono⟩
    · exact ho.goals (hc.mono hmono) (hb.program.mono hmono) Var.below_fresh.2
    · exact fun d hd => (hb.goals d hd).mono hmono
    · exact fun d hd => List.mem_append_left _ hd
    · exact fun d hd => List.mem_append_right _ (hrest d hd)

theorem Branch.LeadsTo.kept (h : Branch.LeadsTo program b b') : b.state.Kept b'.state := by
  induction h with
  | refl => exact .refl _
  | tail _ hstep ih => exact ih.trans hstep.kept

theorem Branch.LeadsTo.supplied (h : Branch.LeadsTo program b b') (hb : b.Supplied program) :
    b'.Supplied program := by
  induction h with
  | refl => exact hb
  | tail _ hstep ih => exact hstep.supplied ih

/-- The variable that is handed out next occurs nowhere on the branch. -/
theorem Branch.Supplied.unused (hb : b.Supplied program) :
    (∀ y t, b.state.substitution.get? y = some t →
      y ≠ b.state.freshVar.value.1 ∧ ¬ t.Occurs b.state.freshVar.value.1) ∧
    ∀ c ∈ b.built, ¬ c.Mentions b.state.freshVar.value.1 := by
  have hnew : ¬ (b.state.freshVar.value.1).Below b.state.nextId :=
    fun h => lt_irrefl _ (Var.below_fresh.1 h)
  refine ⟨fun y t hy => ?_, fun c hc hx => hnew ((hb.goals c hc).of_mentions hx)⟩
  obtain ⟨hyb, ht⟩ := hb.bindings y t hy
  exact ⟨fun hxy => hnew (hxy ▸ hyb), fun hx => hnew (ht _ hx)⟩

/-! ### The branches of a stream -/

mutual

/-- The stream carries a branch with the goals `todo` still to be applied to `st`. -/
inductive Carries : States → List Closure → State → Prop
  | head {s : States} {st : State} : st ∈ s.heads → Carries s [] st
  | rest {s : States} {p : Suspension Pending Closure State} {todo : List Closure} {st : State} :
      s.rest = some p → Keeps p todo st → Carries s todo st

/-- The suspension carries such a branch. -/
inductive Keeps : Suspension Pending Closure State → List Closure → State → Prop
  | unfold (p : Pending) : Keeps (.unfold p) [⟨p.locals, p.goal⟩] p.state
  | yield {s : States} {todo : List Closure} {st : State} : Carries s todo st →
      Keeps (.yield s) todo st
  | other {other : States} {turn : Suspension Pending Closure State} {todo : List Closure}
      {st : State} : Carries other todo st → Keeps (.swap other turn) todo st
  | turn {other : States} {turn : Suspension Pending Closure State} {todo : List Closure}
      {st : State} : Keeps turn todo st → Keeps (.swap other turn) todo st
  | bind {source : Suspension Pending Closure State} {c : Closure} {todo : List Closure}
      {st : State} : Keeps source todo st → Keeps (.bind source c) (todo ++ [c]) st

end

variable {a : States} {p : Suspension Pending Closure State} {rest : List Closure}

theorem not_carries_empty : ¬ Carries .empty todo st := by
  intro h
  cases h with
  | head h => exact List.not_mem_nil h
  | rest h _ => cases h

theorem carries_ofList {xs : List State} (h : Carries (.ofList xs) todo st) :
    todo = [] ∧ st ∈ xs := by
  cases h with
  | head h => exact ⟨rfl, by rwa [Stream.heads_ofList] at h⟩
  | rest h _ =>
    rw [Stream.rest_ofList] at h
    cases h

theorem carries_single {mid : State} (h : Carries (.single mid) todo st) :
    todo = [] ∧ st = mid := by
  cases h with
  | head h => exact ⟨rfl, List.mem_singleton.1 h⟩
  | rest h _ => cases h

theorem carries_suspend (h : Carries (.suspend p) todo st) : Keeps p todo st := by
  cases h with
  | head h => exact absurd h List.not_mem_nil
  | rest h hp =>
    cases h
    exact hp

theorem carries_merge {b : States} (h : Carries (a.merge b) todo st) :
    Carries a todo st ∨ Carries b todo st := by
  cases ha : a.rest with
  | none =>
    cases h with
    | head h =>
      rw [Stream.heads_merge_of_ended b ha] at h
      exact (List.mem_append.1 h).imp .head .head
    | rest h hp =>
      rw [Stream.rest_merge_of_ended b ha] at h
      exact .inr (.rest h hp)
  | some p =>
    cases h with
    | head h =>
      rw [Stream.heads_merge_of_suspended b ha] at h
      exact .inl (.head h)
    | rest h hp =>
      rw [Stream.rest_merge_of_suspended b ha] at h
      cases h
      cases hp with
      | other hb => exact .inr hb
      | turn hp => exact .inl (.rest ha hp)

/-- A branch of a bound stream goes on from a head, or waits for what is behind them. -/
theorem carries_bindWith {f : State → Logged Event States}
    (h : Carries (a.bindWith c f).value todo st) :
    (∃ mid ∈ a.heads, Carries (f mid).value todo st) ∨
      ∃ first, Carries a first st ∧ todo = first ++ [c] := by
  rw [Stream.value_bindWith] at h
  have hrest : Carries (a.bindRest c) todo st →
      ∃ first, Carries a first st ∧ todo = first ++ [c] := by
    intro h
    unfold Stream.bindRest at h
    cases ha : a.rest with
    | none =>
      rw [ha] at h
      exact (not_carries_empty h).elim
    | some p =>
      rw [ha] at h
      cases carries_suspend h with
      | bind hp => exact ⟨_, .rest ha hp, rfl⟩
  generalize a.heads = heads at h ⊢
  induction heads with
  | nil => exact .inr (hrest h)
  | cons mid heads ih =>
    obtain h | h := carries_merge h
    · exact .inl ⟨mid, List.mem_cons_self, h⟩
    · obtain ⟨mid', hmid', h⟩ | h := ih h
      · exact .inl ⟨mid', List.mem_cons_of_mem mid hmid', h⟩
      · exact .inr h

theorem carries_later (h : Carries (later l g st) todo st') : todo = [⟨l, g⟩] ∧ st' = st := by
  cases carries_suspend h
  exact ⟨rfl, rfl⟩

/-! ### Every branch of a stream comes about by steps -/

/-- What holds of goals that are still to be applied and a state holds after a step. -/
def Stable (program : Program) (R : List Closure → State → Prop) : Prop :=
  ∀ {c : Closure} {todo : List Closure} {st : State} {parts : List Closure} {st' : State},
    R (c :: todo) st → Opens program c st parts st' → R (parts ++ todo) st'

variable {R : List Closure → State → Prop}

/-- Applying a goal in front of the goals `rest` leads to branches that still have to do with
`rest`. -/
theorem Stable.carries_apply (hR : Stable e.program R) (hg : R (⟨l, g⟩ :: rest) st)
    (hc : Carries (g.apply e l st).value todo st') : R (todo ++ rest) st' := by
  induction g generalizing l st st' todo rest with
  | eq u v =>
    obtain ⟨rfl, hfound⟩ := carries_ofList hc
    obtain ⟨s, hs, rfl⟩ := State.unifies_of_unify (Option.mem_toList.1 hfound)
    exact hR hg (.eq hs)
  | succeed =>
    obtain ⟨rfl, rfl⟩ := carries_single hc
    exact hR hg (.succeed l _)
  | fail => exact (not_carries_empty hc).elim
  | either g h ihg ihh =>
    obtain hleft | hright := carries_merge hc
    · exact ihg (hR hg (.left _ _ l st)) hleft
    · exact ihh (hR hg (.right _ _ l st)) hright
  | both g h ihg ihh =>
    have hboth : R (⟨l, g⟩ :: ⟨l, h⟩ :: rest) st := hR hg (.both _ _ l st)
    obtain ⟨mid, hmid, hnext⟩ | ⟨first, hfirst, rfl⟩ := carries_bindWith hc
    · exact ihh (ihg hboth (.head hmid)) hnext
    · simpa using ihg hboth hfirst
  | fresh name g ih => exact ih (hR hg (.fresh name g l st)) hc
  | given name t g ih => exact ih (hR hg (.given name t g l st)) hc
  | deferred make ih => exact ih () (hR hg (.deferred make l st)) hc
  | delayed g _ =>
    obtain ⟨rfl, rfl⟩ := carries_later hc
    exact hR hg (.delayed g l _)
  | nevero =>
    obtain ⟨rfl, rfl⟩ := carries_later hc
    exact hR hg (.nevero l _)
  | alwayso =>
    obtain ⟨rfl, rfl⟩ := carries_later hc
    exact hR hg (.alwayso l _)
  | call relation arguments =>
    rw [value_apply_call] at hc
    cases hr : e.program relation with
    | none =>
      rw [hr] at hc
      exact (not_carries_empty hc).elim
    | some r =>
      rw [hr] at hc
      obtain ⟨rfl, rfl⟩ := carries_later hc
      exact hR hg (.call arguments l _ hr)

/-- So does forcing a suspension. -/
theorem Stable.carries_force (hR : Stable e.program R)
    (hp : ∀ {todo st}, Keeps p todo st → R (todo ++ rest) st)
    (h : Carries (p.force (rules e)).value todo st') : R (todo ++ rest) st' := by
  induction p using Suspension.force.induct generalizing todo st' rest with
  | case1 seed => exact hR.carries_apply (hp (.unfold seed)) h
  | case2 s => exact hp (.yield h)
  | case3 other turn ih =>
    rw [Suspension.force, Logged.value_bind, Logged.value_pure] at h
    obtain h | h := carries_merge h
    · exact hp (.other h)
    · exact ih (fun hturn => hp (.turn hturn)) h
  | case4 source c ih =>
    rw [Suspension.force, Logged.value_bind] at h
    have hsource : ∀ {todo st}, Keeps source todo st → R (todo ++ c :: rest) st := by
      intro todo st hkeeps
      simpa using hp (.bind hkeeps)
    obtain ⟨mid, hmid, hnext⟩ | ⟨first, hfirst, rfl⟩ := carries_bindWith h
    · exact hR.carries_apply (ih hsource (.head hmid)) hnext
    · simpa using ih hsource hfirst

theorem Stable.carries_after (hR : Stable e.program R) (k : ℕ)
    (ha : ∀ {todo st}, Carries a todo st → R todo st)
    (h : Carries (a.after (rules e) k) todo st') : R todo st' := by
  induction k generalizing a with
  | zero => exact ha h
  | succ k ih =>
    refine ih ?_ h
    intro todo st hcarries
    unfold Stream.behind at hcarries
    cases hrest : a.rest with
    | none =>
      rw [hrest] at hcarries
      exact (not_carries_empty hcarries).elim
    | some p =>
      rw [hrest] at hcarries
      have hp : ∀ {todo st}, Keeps p todo st → R (todo ++ []) st := by
        intro todo st hkeeps
        simpa using ha (.rest hrest hkeeps)
      simpa using hR.carries_force hp hcarries

theorem Stable.carries_search (hR : Stable e.program R) (hstart : R [⟨l, g⟩] st) (k : ℕ)
    (h : Carries ((g.apply e l st).value.after (rules e) k) todo st') : R todo st' := by
  refine hR.carries_after k (fun {todo st'} hc => ?_) h
  simpa using hR.carries_apply hstart hc

/-- **Every branch that a search carries along comes about by steps.** -/
theorem leadsTo_of_carries {k : ℕ}
    (h : Carries ((g.apply e l st).value.after (rules e) k) todo st') :
    ∃ built, (Branch.start g l st).LeadsTo e.program ⟨todo, built, st'⟩ := by
  have hR : Stable e.program fun todo st' =>
      ∃ built, (Branch.start g l st).LeadsTo e.program ⟨todo, built, st'⟩ := by
    rintro c todo st parts st' ⟨built, hb⟩ ho
    exact ⟨parts ++ built, hb.tail (.mk todo built ho)⟩
  have hstart : ∃ built, (Branch.start g l st).LeadsTo e.program ⟨[⟨l, g⟩], built, st⟩ :=
    ⟨_, .refl⟩
  exact hR.carries_search hstart k h

/-- **A search keeps what it was given, and what it hands out is new.**  If all variables of the
goal, of the relations and of the bindings were handed out before, then the same is true of every
state that is yielded, at whatever depth, and this state has the bindings of the first one, made in
the same order before all others, its configuration, and a counter that is no lower.  The branches
that the search carries along come about by steps, and wherever steps lead, the variable that is
handed out next occurs in no binding and in no goal that has been built on the way. -/
theorem search_supplies (e : Engine) (g : Goal) (l : Locals) (st : State)
    (hbindings : st.substitution.Over (Var.Below st.nextId))
    (hgoal : (Closure.mk l g).Over (Var.Below st.nextId))
    (hprogram : e.program.Over (Var.Below st.nextId)) :
    (∀ k st', (g.apply e l st).value.Yields (rules e) k st' →
      st'.substitution.Over (Var.Below st'.nextId) ∧ st.Kept st') ∧
    (∀ k todo st', Carries ((g.apply e l st).value.after (rules e) k) todo st' →
      ∃ built, (Branch.start g l st).LeadsTo e.program ⟨todo, built, st'⟩) ∧
    ∀ b, (Branch.start g l st).LeadsTo e.program b →
      b.state.substitution.Over (Var.Below b.state.nextId) ∧ st.Kept b.state ∧
      (∀ c ∈ b.todo, c ∈ b.built) ∧ ∀ x, x = b.state.freshVar.value.1 →
        (∀ y t, b.state.substitution.get? y = some t → y ≠ x ∧ ¬ t.Occurs x) ∧
        ∀ c ∈ b.built, ¬ c.Mentions x := by
  have hstart : (Branch.start g l st).Supplied e.program :=
    ⟨hbindings, List.forall_mem_singleton.2 hgoal, fun _ hc => hc, hprogram⟩
  refine ⟨fun k st' hk => ?_, fun k todo st' h => leadsTo_of_carries h, fun b hb => ?_⟩
  · obtain ⟨built, hb⟩ := leadsTo_of_carries (.head hk)
    exact ⟨(hb.supplied hstart).bindings, hb.kept⟩
  · have hsupplied := hb.supplied hstart
    refine ⟨hsupplied.bindings, hb.kept, hsupplied.todo, ?_⟩
    rintro x rfl
    exact hsupplied.unused

/-- A search for a list cell finds one of two variables that it hands out. -/
theorem search_supplies_pairo :
    let g := Goal.call "pairo" [.term (.var (.named "q"))]
    let st := State.start { occursCheck := true }
    let cell := Term.cons (.var (.fresh 0)) (.var (.fresh 1))
    let found : State := ⟨Substitution.empty.insert (.named "q") cell, 2, st.config⟩
    st.substitution.Over (Var.Below st.nextId) ∧
      (Closure.mk .none g).Over (Var.Below st.nextId) ∧
      Program.lists.Over (Var.Below st.nextId) ∧
      (g.apply ⟨Program.lists, 9⟩ .none st).value.Yields (rules ⟨Program.lists, 9⟩) 2 found ∧
      found.substitution.Over (Var.Below found.nextId) ∧ st.Kept found := by
  intro g st cell found
  have hbindings : st.substitution.Over (Var.Below st.nextId) := over_empty
  have hgoal : (Closure.mk .none g).Over (Var.Below st.nextId) := by
    refine ⟨fun t ht x hx => ?_, fun name x hx => (Term.not_occurs_unassigned hx).elim⟩
    obtain rfl : t = .var (.named "q") := by simpa [g, Contains] using ht
    rw [← Term.occurs_var.1 hx]
    intro m hm
    cases hm
  have hprogram : Program.lists.Over (Var.Below st.nextId) := Program.closed_lists.over
  have hheads : ((g.apply ⟨Program.lists, 9⟩ .none st).value.after (rules ⟨Program.lists, 9⟩)
      2).heads = [found] := rfl
  have hyields : (g.apply ⟨Program.lists, 9⟩ .none st).value.Yields (rules ⟨Program.lists, 9⟩) 2
      found := by
    rw [Stream.Yields, hheads]
    exact List.mem_singleton_self _
  exact ⟨hbindings, hgoal, hprogram, hyields,
    (search_supplies ⟨Program.lists, 9⟩ g .none st hbindings hgoal hprogram).1 2 found hyields⟩

end Goal

end Relational
