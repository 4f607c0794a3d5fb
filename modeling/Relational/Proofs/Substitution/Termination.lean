import Relational.Proofs.Substitution.OccursCheck
import Relational.Proofs.Substitution.Reified

/-!
# When following bindings ends

Walking a term ends exactly if no cycle of bindings can be reached from it, whatever else there is
in the substitution (`walks_iff`): a walk that ends is a finite tree with all that can be reached in
it, and if there is no cycle to be reached, then only finitely much can be.

So without cycles all else that follows bindings ends as well: looking for a variable, reifying,
unifying with the occurs check, and binding with it (`eventually_walk_iff_and_returns`).
-/

namespace Relational

namespace Substitution

open Filter Relation

/-- A cycle of bindings can be reached from the variables of the term. -/
def LeadsToCycle (s : Substitution) (t : Term) : Prop :=
  ∃ x y, t.Occurs x ∧ ReflTransGen s.Mentions x y ∧ TransGen s.Mentions y y

variable {s : Substitution} {t w : Term} {x y : Var}

/-- No cycle can be reached from a variable that can only be followed so far. -/
theorem no_cycle_of_acc (h : Acc (fun y x => s.Mentions x y) x)
    (hxy : ReflTransGen s.Mentions x y) : ¬ TransGen s.Mentions y y := by
  induction h with
  | intro x _ ih =>
    intro hcycle
    rcases hxy.cases_head with rfl | ⟨z, hxz, hzy⟩
    · -- the cycle leads from the next variable back to this one
      obtain ⟨z, hxz, hzx⟩ := TransGen.head'_iff.1 hcycle
      exact ih z hxz hzx hcycle
    · exact ih z hxz hzy hcycle

/-- The variables of a term that can be walked can only be followed so far. -/
theorem Walks.acc (h : s.Walks t w) (hx : t.Occurs x) : Acc (fun y x => s.Mentions x y) x := by
  induction h generalizing x with
  | @bound y t w hy _ ih =>
    obtain rfl := Term.occurs_var.1 hx
    refine Acc.intro y fun z hyz => ?_
    obtain ⟨u, hu, hz⟩ := hyz
    rw [hy, Option.some.injEq] at hu
    exact ih (hu ▸ hz)
  | @free y hy =>
    obtain rfl := Term.occurs_var.1 hx
    exact Acc.intro y fun z hyz => absurd hyz (not_mentions_of_free hy)
  | constant c => exact absurd hx Term.not_occurs_constant
  | @compound shape ts ws hl _ ih =>
    obtain ⟨t, ht, hx⟩ := Term.occurs_compound.1 hx
    obtain ⟨i, hi, rfl⟩ := List.mem_iff_getElem.1 ht
    have hi' : i < ws.length := by omega
    exact ih ts[i] ws[i] (List.mem_iff_getElem.2 ⟨i, by simp [hi, hi'], by simp⟩) hx
  | unassigned => exact absurd hx Term.not_occurs_unassigned

/-- **A term can be walked exactly if no cycle can be reached from it.** -/
theorem walks_iff : (∃ w, s.Walks t w) ↔ ¬ s.LeadsToCycle t := by
  constructor
  · rintro ⟨w, hw⟩ ⟨x, y, hx, hxy, hcycle⟩
    exact no_cycle_of_acc (hw.acc hx) hxy hcycle
  · intro h
    refine ⟨_, walks_subst_value fun x hx => exists_walks_of_acc (acc_of_no_cycle fun y hxy => ?_)⟩
    exact fun hcycle => h ⟨x, y, hx, hxy, hcycle⟩

/-- **What ends, and when.**  A walk ends exactly if no cycle of bindings can be reached from the
term.  Without cycles, looking for a variable ends, reifying ends, unification with the occurs check
ends with a substitution or for lack of one, and binding an unbound variable with the check ends. -/
theorem eventually_walk_iff_and_returns (s : Substitution) :
    (∀ t, (∃ w, ∀ᶠ n in atTop, s.walk n t = some w) ↔ ¬ s.LeadsToCycle t) ∧
    (s.Acyclic → ∀ (u v : Term) (x : Var),
      (∃ b, ∀ᶠ n in atTop, s.occurs n x u = some b) ∧
      (∃ r, ∀ᶠ n in atTop, s.reify n u = some r) ∧
      (∃ w, ∀ᶠ n in atTop, s.reifyTerm n u = some w) ∧
      (∃ r, s.Returns true u v r ∧ ∀ y, r ≠ .error (.alreadyBound y)) ∧
      (s.get? x = none → ∃ r, (∀ᶠ n in atTop, s.extendChecked n x u = r) ∧
        (r = .ok (s.insert x u) ∨ r = .error (.circular x u)))) := by
  refine ⟨fun t => ?_, fun hs u v x => ⟨?_, ?_, ?_, ?_, fun hx => ?_⟩⟩
  · rw [← walks_iff]
    refine exists_congr fun w => ⟨fun h => ?_, Walks.eventually_walk⟩
    obtain ⟨n, hn⟩ := h.exists
    exact walks_of_walk hn
  · exact ⟨_, (hs.walks u).eventually_occurs x⟩
  · exact ⟨_, hs.eventually_reify u⟩
  · exact ⟨_, hs.eventually_reifyTerm u⟩
  · obtain ⟨r, hr⟩ := hs.exists_unifies [(u, v)]
    refine ⟨r, returns_iff.2 hr, ?_⟩
    rintro y rfl
    obtain ⟨_, _, h⟩ | ⟨-, _, _, h⟩ := hr.refusal_cases
    · cases h
    · cases h
  · refine ⟨_, (hs.walks u).eventually_extendChecked hx, ?_⟩
    split_ifs
    · exact .inr rfl
    · exact .inl rfl

/-- Two variables that are bound to each other: no walk that comes to one of them ends, and all
others do.  With one of the two bindings there is no cycle, and everything ends. -/
theorem walk_iff_two_variables :
    let chain := empty.insert (.fresh 0) (.var (.fresh 1))
    let circle := chain.insert (.fresh 1) (.var (.fresh 0))
    (∃ w, ∀ᶠ n in atTop, circle.walk n (.cons (.var (.fresh 2)) .nil) = some w) ∧
      (¬ ∃ w, ∀ᶠ n in atTop, circle.walk n (.cons .nil (.var (.fresh 0))) = some w) ∧
      ∃ r, chain.Returns true (.var (.fresh 0)) (.cons (.var (.fresh 1)) .nil) r := by
  intro chain circle
  have hchain : chain.Acyclic := acyclic_empty.insert get?_empty (by simp)
  have hfirst : circle.Mentions (.fresh 0) (.fresh 1) := ⟨.var (.fresh 1), by cbv, .var⟩
  have hsecond : circle.Mentions (.fresh 1) (.fresh 0) := ⟨.var (.fresh 0), by cbv, .var⟩
  have hthird : circle.get? (.fresh 2) = none := by cbv
  obtain ⟨hwalk, -⟩ := eventually_walk_iff_and_returns circle
  obtain ⟨-, hreturns⟩ := eventually_walk_iff_and_returns chain
  refine ⟨(hwalk _).2 ?_, fun h => (hwalk _).1 h ?_, ?_⟩
  · rintro ⟨x, y, hx, hxy, hcycle⟩
    obtain rfl : .fresh 2 = x := by simpa [Term.cons, Term.nil] using hx
    obtain rfl | ⟨z, hz, -⟩ := hxy.cases_head
    · simpa [hthird] using transGen_isSome hcycle
    · exact not_mentions_of_free hthird hz
  · exact ⟨.fresh 0, .fresh 0, .child (by simp) .var, .refl, .tail (.single hfirst) hsecond⟩
  · obtain ⟨-, -, -, ⟨r, hr, -⟩, -⟩ := hreturns hchain (.var (.fresh 0))
      (.cons (.var (.fresh 1)) .nil) (.fresh 0)
    exact ⟨r, hr⟩

end Substitution

end Relational
