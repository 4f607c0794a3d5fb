import Relational.Proofs.Search.Finds
import Relational.Proofs.Substitution.Order

/-!
# The bindings of a search

The only way in which a search changes a substitution is unification, with the occurs check if the
search was started with it (`Finds.run`).  So every state that a search reaches from an empty state
has a substitution that comes of a sequence of such calls, and with it goes all that is known of
these (`bindings_topological`).
-/

namespace Relational

open Substitution

namespace Substitution

theorem Run.append {s r r' : Substitution} {calls calls' : List Call} (h : Run s calls r)
    (h' : Run r calls' r') : Run s (calls ++ calls') r' := by
  induction h' with
  | nil => simpa using h
  | snoc _ hc ih =>
    rw [← List.append_assoc]
    exact ih.snoc hc

/-- The call is a unification, with the occurs check or without. -/
def Call.Unifies (check : Bool) (c : Call) : Prop := ∃ u v, c = .unify check u v

end Substitution

namespace Goal

variable {program : Program} {g : Goal} {l : Locals} {st st' : State}

theorem Finds.config_eq (h : Finds program g l st st') : st'.config = st.config := by
  induction h with
  | both _ _ ihg ihh => rw [ihh, ihg]
  | eq => rfl
  | succeed => rfl
  | alwayso => rfl
  | fresh _ ih => exact ih
  | left _ ih => exact ih
  | right _ ih => exact ih
  | given _ ih => exact ih
  | deferred _ ih => exact ih
  | delayed _ ih => exact ih
  | call _ _ ih => exact ih

/-- A search binds variables by unification and by nothing else. -/
theorem Finds.run (h : Finds program g l st st') :
    ∃ calls, Run st.substitution calls st'.substitution ∧
      ∀ c ∈ calls, c.Unifies st.config.occursCheck := by
  induction h with
  | @eq u v l st s hs =>
    obtain ⟨n, hn⟩ := hs.eventually_unifyAll.exists
    exact ⟨[.unify _ _ _], Run.snoc .nil ⟨n, hn⟩, by simp [Call.Unifies]⟩
  | both hg _ ihg ihh =>
    obtain ⟨calls, hrun, hcalls⟩ := ihg
    obtain ⟨calls', hrun', hcalls'⟩ := ihh
    rw [hg.config_eq] at hcalls'
    exact ⟨calls ++ calls', hrun.append hrun', List.forall_mem_append.2 ⟨hcalls, hcalls'⟩⟩
  | succeed => exact ⟨[], .nil, by simp⟩
  | alwayso => exact ⟨[], .nil, by simp⟩
  | left _ ih => exact ih
  | right _ ih => exact ih
  | fresh _ ih => exact ih
  | given _ ih => exact ih
  | deferred _ ih => exact ih
  | delayed _ ih => exact ih
  | call _ _ ih => exact ih

end Goal

/-- **The order of binding is a topological order**, for every substitution that comes of calls that
return, and so for every state that a search reaches from an empty state, whether the occurs check
is on or not. -/
theorem bindings_topological :
    (∀ calls s, Run .empty calls s → Topological calls s) ∧
    ∀ (e : Engine) (g : Goal) (l : Locals) (config : SearchConfig) (k : ℕ) (st : State),
      (g.apply e l (.start config)).value.Yields (Goal.rules e) k st →
      ∃ calls, Run .empty calls st.substitution ∧ Topological calls st.substitution ∧
        ∀ c ∈ calls, c.Unifies config.occursCheck := by
  refine ⟨fun calls s h => h.topological, fun e g l config k st hst => ?_⟩
  obtain ⟨calls, hrun, hcalls⟩ := (Goal.finds_of_yields hst).run
  exact ⟨calls, hrun, Run.topological hrun, hcalls⟩

/-- Without the occurs check a variable is bound to a list cell with the variable in it, by a call
and by a search. -/
theorem bindings_topological_loop :
    let x := Var.fresh 0
    let t := Term.cons (.var x) .nil
    let s := Substitution.empty.insert x t
    Topological [.unify false (.var x) t] s ∧ ∃ calls, Run .empty calls s ∧ Topological calls s ∧
      ∀ c ∈ calls, c.Unifies false := by
  intro x t s
  have hcall : Call.answer 9 .empty (.unify false (.var x) t) = .ok s := by cbv
  have hfound : ((Goal.eq (.term (.var x)) (.term t)).apply ⟨fun _ => none, 9⟩ .none
      (.start {})).value.heads = [⟨s, 0, {}⟩] := by cbv
  refine ⟨bindings_topological.1 _ _ (.snoc .nil ⟨9, hcall⟩), ?_⟩
  refine bindings_topological.2 ⟨fun _ => none, 9⟩ (.eq (.term (.var x)) (.term t)) .none {} 0
    ⟨s, 0, {}⟩ ?_
  rw [Stream.yields_zero, hfound]
  exact List.mem_singleton_self _

end Relational
