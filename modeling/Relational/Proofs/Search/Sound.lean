import Relational.Proofs.Goal.Meaning
import Relational.Proofs.Search.Finds
import Relational.Proofs.Substitution.Unifier

/-!
# Searches are sound

Every valuation that satisfies the bindings of a state that is found satisfies the bindings that
were there before, and the goal (`Finds.sound`).  This holds of every goal and every program, with
the occurs check or without, because a step of unification keeps the valuations that make the pair
equal and lets no other ones in.
-/

namespace Relational

open Substitution

namespace Goal

variable {program : Program} {θ : Var → Term} {g : Goal} {l : Locals} {st st' : State}

theorem map_subst_instantiateAll_under (hθ : Valuation θ) (l : Locals) (ps : List Pattern) :
    (Pattern.instantiateAll (l.under θ) ps).map (Term.subst θ) =
      (Pattern.instantiateAll l ps).map (Term.subst θ) := by
  rw [Pattern.instantiateAll_eq_map, Pattern.instantiateAll_eq_map, List.map_map, List.map_map]
  exact List.map_congr_left fun p _ => hθ.instantiate_under l p

theorem under_openLocals (r : Relation) (arguments : List Term) :
    (openLocals l r arguments st).under θ =
      ⟨(r.params.zip (arguments.map (Term.subst θ))).reverse, l.depth + 1,
        st.substitution.size⟩ := by
  rw [openLocals, Locals.under, List.zip_map_right, List.map_reverse]

/-- **What is found is true**: a valuation that satisfies the new bindings satisfies the old ones
and the goal. -/
theorem Finds.sound (hθ : Valuation θ) (h : Finds program g l st st')
    (hs : Satisfies θ st'.substitution) :
    Satisfies θ st.substitution ∧ Holds program θ g (l.under θ) := by
  induction h with
  | @eq u v l st s hu =>
    have hsolves := hu.solves_iff.2 ⟨s, rfl, hs⟩
    rw [solves_singleton] at hsolves
    refine ⟨hsolves.1, .eq ?_⟩
    rw [hθ.instantiate_under, hθ.instantiate_under]
    exact hsolves.2
  | succeed => exact ⟨hs, .succeed _⟩
  | left _ ih =>
    obtain ⟨hst, hg⟩ := ih hs
    exact ⟨hst, .left hg⟩
  | right _ ih =>
    obtain ⟨hst, hh⟩ := ih hs
    exact ⟨hst, .right hh⟩
  | both _ _ ihg ihh =>
    obtain ⟨hmid, hh⟩ := ihh hs
    obtain ⟨hst, hg⟩ := ihg hmid
    exact ⟨hst, .both hg hh⟩
  | @fresh name g l st st' _ ih =>
    obtain ⟨hst, hg⟩ := ih hs
    rw [Locals.under_bind, Term.subst_var] at hg
    exact ⟨hst, .fresh _ (hθ _) hg⟩
  | @given name t g l st st' _ ih =>
    obtain ⟨hst, hg⟩ := ih hs
    rw [Locals.under_bind, ← hθ.instantiate_under] at hg
    exact ⟨hst, .given hg⟩
  | deferred _ ih =>
    obtain ⟨hst, hg⟩ := ih hs
    exact ⟨hst, .deferred hg⟩
  | delayed _ ih =>
    obtain ⟨hst, hg⟩ := ih hs
    exact ⟨hst, .delayed hg⟩
  | alwayso => exact ⟨hs, .alwayso _⟩
  | @call relation arguments r l st st' hr _ ih =>
    obtain ⟨hst, hbody⟩ := ih hs
    rw [under_openLocals, ← map_subst_instantiateAll_under hθ] at hbody
    exact ⟨hst, .call _ hr hbody⟩

end Goal

end Relational
