import Relational.Proofs.Search.Branch
import Relational.Proofs.Search.Exhaustion

/-!
# What the occurs check removes from a search

A search without the occurs check goes on behind bindings that make a variable a part of its own
value; a search with the check does not get there.  So the two have other branches, which take turns
in another way.  But whatever is found behind such a binding has the cycle as well
(`Exhausts.kept`), and nothing else is lost: if the search without the check runs out, then so does
the one with the check, and it finds the states without a cycle, each as often as the other one
(`Goal.occursCheck_prunes`).
-/

namespace Relational

open Filter Substitution
open Relational.Stream

namespace Substitution

variable {s : Substitution} {pending : List (Term × Term)}

/-- Where nothing without a cycle comes out, unification with the occurs check is refused. -/
theorem Acyclic.exists_refusal (hs : s.Acyclic)
    (h : ∀ s', Unifies false s pending (.ok s') → ¬ s'.Acyclic) :
    ∃ refusal, Unifies true s pending (.error refusal) := by
  obtain ⟨refusal | s', hu⟩ := hs.exists_unifies pending
  · exact ⟨refusal, hu⟩
  · exact absurd (hu.acyclic hs) (h s' hu.unchecked)

end Substitution

namespace State

/-- The state with the occurs check turned on or off. -/
def withCheck (check : Bool) (st : State) : State :=
  ⟨st.substitution, st.nextId, { st.config with occursCheck := check }⟩

theorem withCheck_withCheck (a b : Bool) (st : State) :
    (st.withCheck a).withCheck b = st.withCheck b := rfl

theorem withCheck_eq_self {st : State} {check : Bool} (h : st.config.occursCheck = check) :
    st.withCheck check = st := by
  subst h
  rfl

end State

namespace Goal

variable {program : Program} {g : Goal} {l : Locals} {st st' : State} {layers : List (List State)}

/-- What is found keeps what it was given. -/
theorem Exhausts.kept (h : Exhausts program g l st layers) :
    ∀ st' ∈ layers.flatten, st.Kept st' := by
  induction h with
  | @unified u v l st s hu =>
    have ho : Opens program ⟨l, .eq u v⟩ st [] (st.withSubstitution s) := .eq hu
    simpa using ho.kept
  | refused => simp
  | succeed l st => simpa using State.Kept.refl st
  | fail => simp
  | either _ _ ihg ihh =>
    intro st' hst
    exact (mem_flatten_weave.1 hst).elim (ihg st') (ihh st')
  | both _ _ ihg ihh =>
    intro st' hst
    obtain ⟨mid, hmid, hst⟩ := mem_flatten_graft.1 hst
    exact (ihg mid hmid).trans (ihh mid hmid st' hst)
  | @fresh name g l st _ _ ih =>
    have ho : Opens program ⟨l, .fresh name g⟩ st _ st.freshVar.value.2 := .fresh name g l st
    exact fun st' hst => ho.kept.trans (ih st' hst)
  | given _ ih => exact ih
  | deferred _ ih => exact ih
  | delayed _ ih => exact ih
  | unknown => simp
  | call _ _ ih => exact ih

open Classical in
/-- The states of a multiset that have no cycle, with the occurs check turned on. -/
noncomputable def pruned (found : Multiset State) : Multiset State :=
  (found.filter fun st => st.substitution.Acyclic).map (State.withCheck true)

theorem pruned_add (found found' : Multiset State) :
    pruned (found + found') = pruned found + pruned found' := by
  rw [pruned, Multiset.filter_add, Multiset.map_add]
  rfl

theorem mem_pruned {found : Multiset State} :
    st ∈ pruned found ↔ ∃ st' ∈ found, st'.substitution.Acyclic ∧ st'.withCheck true = st := by
  simp [pruned, and_assoc]

theorem pruned_singleton (h : st.substitution.Acyclic) : pruned {st} = {st.withCheck true} := by
  rw [pruned, Multiset.filter_singleton, if_pos h, Multiset.map_singleton]

theorem pruned_eq_zero {found : Multiset State}
    (h : ∀ st ∈ found, ¬ st.substitution.Acyclic) : pruned found = 0 := by
  classical
  rw [pruned, Multiset.map_eq_zero, Multiset.filter_eq_nil]
  exact h

theorem pruned_bind (found : Multiset State) (f : State → Multiset State) :
    pruned (found.bind f) = found.bind fun st => pruned (f st) := by
  rw [pruned, Multiset.filter_bind, Multiset.map_bind]
  rfl

/-- If nothing without a cycle comes of a state with a cycle, such states need not be looked at. -/
theorem bind_pruned {found : Multiset State} {f f' : State → Multiset State}
    (hf : ∀ st ∈ found, st.substitution.Acyclic → f' (st.withCheck true) = f st)
    (hzero : ∀ st ∈ found, ¬ st.substitution.Acyclic → f st = 0) :
    (pruned found).bind f' = found.bind f := by
  rw [pruned, Multiset.bind_map, Multiset.bind_filter]
  refine Multiset.bind_congr fun st hst => ?_
  split_ifs with hacyclic
  · exact hf st hst hacyclic
  · exact (hzero st hst hacyclic).symm

/-- **The search with the occurs check runs out as well**, and finds what has no cycle. -/
theorem Exhausts.pruned (h : Exhausts program g l st layers)
    (hcheck : st.config.occursCheck = false) (hst : st.substitution.Acyclic) : ∃ layers',
      Exhausts program g l (st.withCheck true) layers' ∧
        (layers'.flatten : Multiset State) = Goal.pruned layers.flatten := by
  induction h with
  | @unified u v l st s hu =>
    rw [hcheck] at hu
    by_cases hs : s.Acyclic
    · have hfound : (st.withSubstitution s).substitution.Acyclic := hs
      have hu' := hu.checked hs
      exact ⟨_, .unified hu', (pruned_singleton hfound).symm⟩
    · obtain ⟨refusal, hrefused⟩ := hst.exists_refusal fun s' hu' => by
        cases hu.unique hu'
        exact hs
      refine ⟨_, .refused hrefused, (pruned_eq_zero fun st' hst' => ?_).symm⟩
      obtain rfl : st' = st.withSubstitution s := by simpa using hst'
      exact hs
  | @refused u v l st refusal hu =>
    rw [hcheck] at hu
    obtain ⟨refusal', hrefused⟩ := hst.exists_refusal fun s' hu' => by cases hu.unique hu'
    exact ⟨_, .refused hrefused, by simp [Goal.pruned]⟩
  | succeed l st => exact ⟨_, .succeed l _, by simpa using (pruned_singleton hst).symm⟩
  | fail l st => exact ⟨_, .fail l _, by simp [Goal.pruned]⟩
  | either _ _ ihg ihh =>
    obtain ⟨as, has, heq⟩ := ihg hcheck hst
    obtain ⟨bs, hbs, heq'⟩ := ihh hcheck hst
    exact ⟨_, .either has hbs, by rw [coe_flatten_weave, coe_flatten_weave, pruned_add, heq, heq']⟩
  | @both g h l st layers f hg hh ihg ihh =>
    obtain ⟨layers', hg', heq⟩ := ihg hcheck hst
    have hmid : ∀ mid ∈ layers.flatten, mid.config.occursCheck = false := fun mid hm => by
      rw [(hg.kept mid hm).config, hcheck]
    choose! f' hf' heq' using fun mid hm => ihh mid hm (hmid mid hm)
    refine ⟨graft (fun mid => f' (mid.withCheck false)) layers', .both hg' fun mid' hm' => ?_, ?_⟩
    · rw [← Multiset.mem_coe, heq, mem_pruned] at hm'
      obtain ⟨mid, hm, hacyclic, rfl⟩ := hm'
      rw [State.withCheck_withCheck, State.withCheck_eq_self (hmid mid hm)]
      exact hf' mid hm hacyclic
    · rw [coe_flatten_graft, coe_flatten_graft, heq, pruned_bind]
      refine bind_pruned (fun mid hm hacyclic => ?_) fun mid hm hcyclic => ?_
      · rw [State.withCheck_withCheck, State.withCheck_eq_self (hmid mid hm)]
        exact heq' mid hm hacyclic
      · -- a cycle stays in all that is found behind it
        exact pruned_eq_zero fun st' hst' hacyclic =>
          hcyclic (hacyclic.of_extends ((hh mid hm).kept st' hst').bindings)
  | fresh _ ih =>
    obtain ⟨layers', h, heq⟩ := ih hcheck hst
    exact ⟨layers', .fresh h, heq⟩
  | given _ ih =>
    obtain ⟨layers', h, heq⟩ := ih hcheck hst
    exact ⟨layers', .given h, heq⟩
  | deferred _ ih =>
    obtain ⟨layers', h, heq⟩ := ih hcheck hst
    exact ⟨layers', .deferred h, heq⟩
  | delayed _ ih =>
    obtain ⟨layers', h, heq⟩ := ih hcheck hst
    exact ⟨_, .delayed h, heq⟩
  | unknown l st hr => exact ⟨_, .unknown l _ hr, by simp [Goal.pruned]⟩
  | call hr _ ih =>
    obtain ⟨layers', h, heq⟩ := ih hcheck hst
    exact ⟨_, .call hr h, heq⟩

/-- **Turning the occurs check on removes exactly the states with a cycle.**  From a state without a
cycle, if the search without the check runs out, with some effort and no unification given up, then
the search with the check runs out with every effort that is large enough; and the states it finds
are, each as often, those without a cycle that the other one finds, but for the configuration. -/
theorem occursCheck_prunes (program : Program) (g : Goal) (l : Locals) (st : State)
    (hst : st.substitution.Acyclic) {n : ℕ} {layers : List (List State)}
    (h : Completes ⟨program, n⟩ g l (st.withCheck false) layers) :
    ∃ layers', (∀ᶠ m in atTop, Completes ⟨program, m⟩ g l (st.withCheck true) layers') ∧
      (layers'.flatten : Multiset State) = pruned layers.flatten := by
  obtain ⟨layers', h', heq⟩ := h.exhausts.pruned rfl hst
  exact ⟨layers', h'.eventually_completes, heq⟩

/-- Of a list that contains itself and the empty list, the empty list is left. -/
theorem occursCheck_prunes_loop :
    let q := Term.var (.named "q")
    let g := Goal.either (.eq (.term q) (.term (.cons q .nil))) (.call "nullo" [.term q])
    let st := State.start {}
    let cyclic : State := ⟨empty.insert (.named "q") (.cons q .nil), 0, st.config⟩
    let found : State := ⟨empty.insert (.named "q") .nil, 0, st.config⟩
    st.substitution.Acyclic ∧
      Completes ⟨Program.lists, 9⟩ g .none (st.withCheck false) [[cyclic], [found]] ∧
      ∃ layers', (∀ᶠ m in atTop, Completes ⟨Program.lists, m⟩ g .none (st.withCheck true) layers') ∧
        (layers'.flatten : Multiset State) = {found.withCheck true} := by
  intro q g st cyclic found
  have hrun : Completes ⟨Program.lists, 9⟩ g .none (st.withCheck false) [[cyclic], [found]] := by
    -- nothing is reported, when the goal is applied and when the call is opened
    exact ⟨fun event hevent => absurd hevent (Array.not_mem_empty (a := event)),
      .force rfl (fun event hevent => absurd hevent (Array.not_mem_empty (a := event)))
        (.ended rfl)⟩
  have hcyclic : ¬ cyclic.substitution.Acyclic :=
    not_acyclic_insert (.child List.mem_cons_self .var)
  have hfound : found.substitution.Acyclic := acyclic_empty.insert get?_empty (by simp [Term.nil])
  have hpruned : pruned ([[cyclic], [found]].flatten : List State) = {found.withCheck true} := by
    have hparts : (([[cyclic], [found]].flatten : List State) : Multiset State) =
        {cyclic} + {found} := rfl
    rw [hparts, pruned_add, pruned_singleton hfound, pruned_eq_zero (by simpa using hcyclic),
      zero_add]
  obtain ⟨layers', hrun', heq⟩ := occursCheck_prunes Program.lists g .none st acyclic_empty hrun
  exact ⟨acyclic_empty, hrun, layers', hrun', heq.trans hpruned⟩

end Goal

end Relational
