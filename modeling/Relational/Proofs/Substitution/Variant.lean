import Mathlib.Logic.Equiv.Basic
import Relational.Proofs.Substitution.Reified

/-!
# Substitutions that are satisfied alike

Two substitutions without cycles that the same valuations satisfy differ in the names of their
unbound variables only: there is a bijection on variables that takes what a term stands for under
the one to what it stands for under the other (`Equisatisfied.exists_renaming`), and reified terms,
in which no variables are left, are equal under both (`Equisatisfied.variant`).

A variable that is unbound under the one stands for a variable under the other, its *partner*,
which is unbound there and stands for the first one in turn (`Equisatisfied.exists_partner`).  So
the partners change places.
-/

namespace Relational

namespace Term

variable {t : Term} {x : Var} {θ : Var → Term}

/-- Only a variable has a variable as its instance. -/
theorem subst_eq_var (h : t.subst θ = var x) : ∃ y, t = var y ∧ θ y = var x := by
  cases t with
  | var y => exact ⟨y, rfl, by simpa using h⟩
  | _ => simp at h

end Term

namespace Substitution

open Filter

/-- The same valuations satisfy both substitutions. -/
def Equisatisfied (s s' : Substitution) : Prop := ∀ θ, Satisfies θ s ↔ Satisfies θ s'

variable {s s' : Substitution} {θ : Var → Term} {x : Var}

theorem Equisatisfied.symm (h : Equisatisfied s s') : Equisatisfied s' s := fun θ => (h θ).symm

/-- A valuation that satisfies the bindings makes no difference between a term and what it stands
for. -/
theorem Satisfies.alike_subst_value (h : Satisfies θ s) (hs : s.Acyclic) (t : Term) :
    Term.Alike (t.subst θ) ((t.subst s.value).subst θ) :=
  h.alike_of_walks (hs.walks t)

/-- What is unbound under the one stands for an unbound variable under the other, and that one
stands for the first in turn. -/
theorem Equisatisfied.exists_partner (h : Equisatisfied s s') (hs : s.Acyclic) (hs' : s'.Acyclic)
    (hx : s.get? x = none) :
    ∃ y, s'.value x = .var y ∧ s'.get? y = none ∧ s.value y = .var x := by
  have halike := ((h _).1 hs.satisfies_value).alike_subst_value hs' (.var x)
  rw [Term.subst_var, Term.subst_var, value_of_free hx, Term.alike_var_left] at halike
  obtain ⟨y, hy, hyx⟩ := Term.subst_eq_var halike
  refine ⟨y, hy, ?_, hyx⟩
  exact hs'.free_of_occurs (t := .var x) (by simp [hy])

/-- The variable with which `x` changes places. -/
noncomputable def partner (s s' : Substitution) (x : Var) : Var :=
  if (s.get? x).isNone then ((s'.value x).var?).getD x
  else if (s'.get? x).isNone then ((s.value x).var?).getD x
  else x

theorem partner_of_free {y : Var} (hx : s.get? x = none) (hy : s'.value x = .var y) :
    partner s s' x = y := by
  simp [partner, hx, hy, Term.var?]

theorem partner_of_bound {y : Var} (hx : s.get? x ≠ none) (hx' : s'.get? x = none)
    (hy : s.value x = .var y) : partner s s' x = y := by
  simp [partner, hx, hx', hy, Term.var?]

theorem Equisatisfied.partner_partner (h : Equisatisfied s s') (hs : s.Acyclic) (hs' : s'.Acyclic)
    (x : Var) : partner s s' (partner s s' x) = x := by
  by_cases hx : s.get? x = none
  · obtain ⟨y, hxy, hy', hyx⟩ := h.exists_partner hs hs' hx
    rw [partner_of_free hx hxy]
    by_cases hy : s.get? y = none
    · obtain rfl : y = x := by simpa [value_of_free hy] using hyx
      exact partner_of_free hx hxy
    · exact partner_of_bound hy hy' hyx
  · by_cases hx' : s'.get? x = none
    · obtain ⟨y, hxy, hy, hyx⟩ := h.symm.exists_partner hs' hs hx'
      rw [partner_of_bound hx hx' hxy, partner_of_free hy hyx]
    · have hself : partner s s' x = x := by simp [partner, hx, hx']
      rw [hself, hself]

/-- **Substitutions that are satisfied alike differ in names only.** -/
theorem Equisatisfied.exists_renaming (h : Equisatisfied s s') (hs : s.Acyclic)
    (hs' : s'.Acyclic) : ∃ ρ : Equiv.Perm Var, ∀ t : Term,
      Term.Alike (t.subst s'.value) ((t.subst s.value).rename ρ) := by
  have hρ : Function.Involutive (partner s s') := h.partner_partner hs hs'
  refine ⟨hρ.toPerm, fun t => ?_⟩
  have hname : (t.subst s.value).subst s'.value = (t.subst s.value).rename (partner s s') := by
    refine Term.subst_congr fun x hx => ?_
    have hfree : s.get? x = none := hs.free_of_occurs hx
    obtain ⟨y, hxy, -, -⟩ := h.exists_partner hs hs' hfree
    rw [partner_of_free hfree hxy, hxy]
  rw [Function.Involutive.coe_toPerm, ← hname]
  exact ((h _).2 hs'.satisfies_value).alike_subst_value hs t

/-- What every term stands for under the one and under the other is the same but for a renaming of
variables, and no reified term tells the two apart. -/
structure Variant (s s' : Substitution) : Prop where
  walks_renamed : ∃ ρ : Equiv.Perm Var, ∀ t, ∃ a b,
    (∀ᶠ n in atTop, s.walk n t = some a ∧ s'.walk n t = some b) ∧ (b == a.rename ρ) = true
  reified_equal : ∀ t, ∃ a b,
    (∀ᶠ n in atTop, s.reifyTerm n t = some a ∧ s'.reifyTerm n t = some b) ∧ (a == b) = true

theorem Equisatisfied.variant (h : Equisatisfied s s') (hs : s.Acyclic) (hs' : s'.Acyclic) :
    Variant s s' := by
  obtain ⟨ρ, hρ⟩ := h.exists_renaming hs hs'
  refine ⟨⟨ρ, fun t => ?_⟩, fun t => ?_⟩
  · have hwalks := (hs.walks t).eventually_walk.and (hs'.walks t).eventually_walk
    exact ⟨_, _, hwalks, beq_iff_alike.2 (hρ t)⟩
  · -- the mark that takes the place of a variable does not depend on its name
    have hmark := (hρ t).subst (θ := fun _ => .unassigned) fun _ => Term.alike_refl _
    rw [Term.subst_rename] at hmark
    have hreified := (hs.eventually_reifyTerm t).and (hs'.eventually_reifyTerm t)
    exact ⟨_, _, hreified, beq_iff_alike.2 hmark.symm⟩

end Substitution

end Relational
