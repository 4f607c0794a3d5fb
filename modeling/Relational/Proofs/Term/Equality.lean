import Mathlib.Data.List.Forall2
import Relational.Proofs.Term.Instance
import Relational.Term.Equality

/-!
# Equality of terms is structural

`Term.Alike` compares two terms by recursion on their trees.  The comparison of the library, which
keeps a list of pairs, decides it (`eqv_iff_alike`).  Constants are compared by value or by
identity, so the relation is reflexive although a NaN differs from itself, and it is an equivalence
relation (`alike_refl`, `Alike.symm`, `Alike.trans`).

Instances of alike terms under alike replacements are alike (`Alike.subst`), a part of a term may be
replaced by one that is alike (`Alike.fill`), and alike terms have the same size
(`Alike.weight_eq`).
-/

namespace Relational

/-! ### Equality of constants -/

theorem Floating.eqv_comm (a b : Floating) : a.eqv b = b.eqv a := by
  cases a <;> cases b <;> grind [Floating.eqv]

theorem Floating.eqv_trans {a b c : Floating} (h : a.eqv b = true) (h' : b.eqv c = true) :
    a.eqv c = true := by
  cases a <;> cases b <;> cases c <;> grind [Floating.eqv]

theorem Scalar.eqv_comm (a b : Scalar) : a.eqv b = b.eqv a := by
  cases a <;> cases b <;> grind [Scalar.eqv, Floating.eqv_comm]

theorem Scalar.eqv_trans {a b c : Scalar} (h : a.eqv b = true) (h' : b.eqv c = true) :
    a.eqv c = true := by
  cases a <;> cases b <;> simp only [Scalar.eqv, Bool.false_eq_true] at h <;>
    cases c <;> simp only [Scalar.eqv, Bool.false_eq_true] at h' ⊢ <;>
      grind [Floating.eqv_trans]

/-- The scalars are of one type, and equal as the values of this type are. -/
inductive Scalar.SameValue : Scalar → Scalar → Prop
  /-- Numbers are compared as the standard has it. -/
  | float (format : Floating.Format) {x y : Floating} :
      x.eqv y = true → SameValue (.float format x) (.float format y)
  /-- All else is equal to itself alone. -/
  | other {a : Scalar} : (∀ format x, a ≠ .float format x) → SameValue a a

theorem Scalar.eqv_iff_eq {a b : Scalar} (h : ∀ format x, a ≠ .float format x) :
    a.eqv b = true ↔ a = b := by
  cases a with
  | float format x => exact absurd rfl (h format x)
  | _ => cases b <;> simp [Scalar.eqv, and_assoc]

theorem Scalar.eqv_iff_sameValue {a b : Scalar} : a.eqv b = true ↔ a.SameValue b := by
  by_cases ha : ∃ format x, a = .float format x
  · obtain ⟨format, x, rfl⟩ := ha
    constructor
    · intro h
      cases b with
      | float format' y =>
        simp only [Scalar.eqv, Bool.and_eq_true, beq_iff_eq] at h
        obtain ⟨rfl, h⟩ := h
        exact .float format h
      | _ => simp [Scalar.eqv] at h
    · rintro (⟨_, h⟩ | hother)
      · simp [Scalar.eqv, h]
      · exact absurd rfl (hother format x)
  · have hother : ∀ format x, a ≠ .float format x := fun format x h => ha ⟨format, x, h⟩
    rw [Scalar.eqv_iff_eq hother]
    constructor
    · rintro rfl
      exact .other hother
    · rintro (⟨format, _⟩ | _)
      · exact absurd rfl (hother format _)
      · rfl

/-- **Constants are equal if they are one and the same, or have one type and equal values.** -/
theorem Constant.eqv_iff {c d : Constant} : c.eqv d = true ↔
    c = d ∨ c.value.holders = d.value.holders ∧ c.value.scalar.SameValue d.value.scalar := by
  rw [Constant.eqv, Value.eqv, Bool.or_eq_true, Bool.and_eq_true, beq_iff_eq, beq_iff_eq,
    Scalar.eqv_iff_sameValue, or_comm]

theorem Constant.eqv_refl (c : Constant) : c.eqv c = true := by
  simp [Constant.eqv]

theorem Constant.eqv_symm {c d : Constant} (h : c.eqv d = true) : d.eqv c = true := by
  simp only [Constant.eqv, Value.eqv, Bool.or_eq_true, Bool.and_eq_true, beq_iff_eq] at h ⊢
  rcases h with ⟨hh, hs⟩ | rfl
  · exact .inl ⟨hh.symm, by rwa [Scalar.eqv_comm]⟩
  · exact .inr rfl

theorem Constant.eqv_comm (c d : Constant) : c.eqv d = d.eqv c :=
  Bool.eq_iff_iff.2 ⟨eqv_symm, eqv_symm⟩

theorem Constant.eqv_trans {c d e : Constant} (h : c.eqv d = true) (h' : d.eqv e = true) :
    c.eqv e = true := by
  simp only [Constant.eqv, Value.eqv, Bool.or_eq_true, Bool.and_eq_true, beq_iff_eq] at h h' ⊢
  rcases h with ⟨hh, hs⟩ | rfl
  · rcases h' with ⟨hh', hs'⟩ | rfl
    · exact .inl ⟨hh.trans hh', Scalar.eqv_trans hs hs'⟩
    · exact .inl ⟨hh, hs⟩
  · exact h'

namespace Term

/-! ### Structural equality -/

mutual

/-- Two terms have the same tree, the same variables and equal constants. -/
def Alike : Term → Term → Prop
  | .var x, .var y => x = y
  | .constant c, .constant d => c.eqv d = true
  | .compound shape ts, .compound shape' us => shape = shape' ∧ AllAlike ts us
  | .unassigned, .unassigned => True
  | _, _ => False

/-- Two rows of terms are alike, one term after the other. -/
def AllAlike : List Term → List Term → Prop
  | [], [] => True
  | t :: ts, u :: us => Alike t u ∧ AllAlike ts us
  | _, _ => False

end

theorem allAlike_iff_forall₂ {ts us : List Term} : AllAlike ts us ↔ List.Forall₂ Alike ts us := by
  induction ts generalizing us with
  | nil => cases us <;> simp [AllAlike]
  | cons t ts ih => cases us <;> simp [AllAlike, ih]

@[simp] theorem alike_var {x y : Var} : Alike (var x) (var y) ↔ x = y := by simp [Alike]

theorem alike_var_left {x : Var} {t : Term} : Alike (var x) t ↔ t = var x := by
  cases t <;> simp [Alike, eq_comm]

@[simp] theorem alike_constant {c d : Constant} :
    Alike (constant c) (constant d) ↔ c.eqv d = true := by simp [Alike]

@[simp] theorem alike_compound {shape shape' : Shape} {ts us : List Term} :
    Alike (compound shape ts) (compound shape' us) ↔
      shape = shape' ∧ List.Forall₂ Alike ts us := by
  rw [Alike, allAlike_iff_forall₂]

@[simp, refl] theorem alike_refl (t : Term) : Alike t t := by
  induction t with
  | var x => simp
  | constant c => simpa using c.eqv_refl
  | compound shape ts ih => simpa [List.forall₂_same] using ih
  | unassigned => simp [Alike]

/-- Induction over two alike trees. -/
@[elab_as_elim]
theorem Alike.ind {motive : ∀ t u, Alike t u → Prop}
    (var : ∀ x, motive (.var x) (.var x) (alike_refl _))
    (constant : ∀ c d (h : c.eqv d = true),
      motive (.constant c) (.constant d) (alike_constant.2 h))
    (compound : ∀ shape ts us (h : List.Forall₂ Alike ts us),
      List.Forall₂ (fun t u => ∃ h : Alike t u, motive t u h) ts us →
      motive (.compound shape ts) (.compound shape us) (alike_compound.2 ⟨rfl, h⟩))
    (unassigned : motive .unassigned .unassigned (alike_refl _)) {t u : Term} (h : Alike t u) :
    motive t u h := by
  induction t generalizing u with
  | var x =>
    cases u with
    | var y => cases alike_var.1 h; exact var x
    | _ => simp [Alike] at h
  | constant c =>
    cases u with
    | constant d => exact constant c d (alike_constant.1 h)
    | _ => simp [Alike] at h
  | compound shape ts ih =>
    cases u with
    | compound shape' us =>
      obtain ⟨rfl, hc⟩ := alike_compound.1 h
      refine compound shape ts us hc (List.forall₂_iff_zip.2 ⟨hc.length_eq, fun {t u} hmem => ?_⟩)
      have htu : Alike t u := List.forall₂_zip hc hmem
      exact ⟨htu, ih t (List.of_mem_zip hmem).1 htu⟩
    | _ => simp [Alike] at h
  | unassigned =>
    cases u with
    | unassigned => exact unassigned
    | _ => simp [Alike] at h

theorem Alike.symm {t u : Term} (h : Alike t u) : Alike u t := by
  induction h using Alike.ind with
  | var x => rfl
  | constant c d h => exact alike_constant.2 (c.eqv_symm h)
  | compound shape ts us _ ih => exact alike_compound.2 ⟨rfl, (ih.imp fun _ _ ⟨_, h⟩ => h).flip⟩
  | unassigned => rfl

theorem Alike.trans {t u v : Term} (h : Alike t u) (h' : Alike u v) : Alike t v := by
  induction h using Alike.ind generalizing v with
  | var x => exact h'
  | constant c d h =>
    cases v with
    | constant e => exact alike_constant.2 (c.eqv_trans h (alike_constant.1 h'))
    | _ => simp [Alike] at h'
  | compound shape ts us _ ih =>
    cases v with
    | compound shape' vs =>
      obtain ⟨rfl, hc⟩ := alike_compound.1 h'
      refine alike_compound.2 ⟨rfl, ?_⟩
      clear * - ih hc
      induction ih generalizing vs with
      | nil => exact hc
      | cons h _ ih =>
        obtain ⟨_, h⟩ := h
        cases hc with
        | cons h₁ h₂ => exact .cons (h h₁) (ih _ h₂)
    | _ => simp [Alike] at h'
  | unassigned => exact h'

theorem alike_comm {t u : Term} : Alike t u ↔ Alike u t := ⟨Alike.symm, Alike.symm⟩

theorem Alike.congr_left {t u v : Term} (h : Alike t u) : Alike t v ↔ Alike u v :=
  ⟨h.symm.trans, h.trans⟩

theorem Alike.congr_right {t u v : Term} (h : Alike t u) : Alike v t ↔ Alike v u :=
  ⟨fun hv => hv.trans h, fun hv => hv.trans h.symm⟩

theorem Alike.weight_eq {t u : Term} (h : Alike t u) : t.weight = u.weight := by
  induction h using Alike.ind with
  | var x => rfl
  | constant c d _ => simp [weight]
  | compound shape ts us _ ih =>
    simp only [weight_compound, Nat.add_left_cancel_iff]
    clear * - ih
    induction ih with
    | nil => rfl
    | cons h _ ih =>
      obtain ⟨_, h⟩ := h
      rw [weights_cons, weights_cons, h, ih]
  | unassigned => rfl

/-- Alike terms under the same replacement, or one term under alike replacements. -/
theorem Alike.subst {θ θ' : Var → Term} (hθ : ∀ x, Alike (θ x) (θ' x)) {t u : Term}
    (h : Alike t u) : Alike (t.subst θ) (u.subst θ') := by
  induction h using Alike.ind with
  | var x => simpa using hθ x
  | constant c d h => simpa using h
  | compound shape ts us _ ih =>
    simp only [subst_compound, alike_compound, List.forall₂_map_left_iff,
      List.forall₂_map_right_iff, true_and]
    exact ih.imp fun _ _ ⟨_, h⟩ => h
  | unassigned => rfl

/-! ### Parts of a term -/

/-- A term with one place left open. -/
inductive Context where
  /-- The place itself. -/
  | hole
  /-- The place is in one of the children. -/
  | child (shape : Shape) (before : List Term) (c : Context) (after : List Term)

/-- The term with `t` at the open place. -/
def Context.fill (t : Term) : Context → Term
  | .hole => t
  | .child shape before c after => .compound shape (before ++ c.fill t :: after)

/-- Terms that differ in a part only, and there are alike, are alike. -/
theorem Alike.fill {t u : Term} (h : Alike t u) (c : Context) : Alike (c.fill t) (c.fill u) := by
  induction c with
  | hole => exact h
  | child shape before c after ih =>
    have hsame : ∀ ts : List Term, List.Forall₂ Alike ts ts := fun ts =>
      List.forall₂_same.2 fun t _ => alike_refl t
    exact alike_compound.2 ⟨rfl, List.rel_append (hsame before) (.cons ih (hsame after))⟩

/-! ### The comparison decides it -/

theorem allEqv_append (ps qs : List (Term × Term)) :
    allEqv (ps ++ qs) = (allEqv ps && allEqv qs) := by
  fun_induction allEqv ps with
  | case1 => rfl
  | case2 x y ps ih => simp [allEqv, ih, Bool.and_assoc]
  | case3 c d ps ih => simp [allEqv, ih, Bool.and_assoc]
  | case4 ps ih => simp [allEqv, ih]
  | case5 s ts s' us ps ih =>
    rw [List.cons_append, allEqv, ← List.append_assoc, ih, Bool.and_assoc]
  | case6 ps hnil hvar hconstant hunassigned hcompound =>
    obtain _ | ⟨⟨t, u⟩, ps⟩ := ps
    · exact absurd rfl hnil
    · rw [List.cons_append, Bool.false_and]
      cases t <;> cases u <;>
        first
        | exact absurd rfl (hvar _ _ _)
        | exact absurd rfl (hconstant _ _ _)
        | exact absurd rfl (hunassigned _)
        | exact absurd rfl (hcompound _ _ _ _ _)
        | simp [allEqv]

theorem allEqv_cons (t u : Term) (ps : List (Term × Term)) :
    allEqv ((t, u) :: ps) = (t.eqv u && allEqv ps) :=
  allEqv_append [(t, u)] ps

theorem allEqv_iff (ps : List (Term × Term)) :
    allEqv ps = true ↔ ∀ p ∈ ps, p.1.eqv p.2 = true := by
  induction ps with
  | nil => simp [allEqv]
  | cons p ps ih => rw [allEqv_cons, Bool.and_eq_true, ih, List.forall_mem_cons]

/-- **Equality of terms is structural equality.** -/
theorem eqv_iff_alike {t u : Term} : t.eqv u = true ↔ Alike t u := by
  induction t generalizing u with
  | var x => cases u <;> simp [eqv, allEqv, Alike]
  | constant c => cases u <;> simp [eqv, allEqv, Alike]
  | compound shape ts ih =>
    cases u with
    | compound shape' us =>
      rw [eqv, allEqv, List.append_nil, Bool.and_eq_true, allEqv_iff, alike_compound,
        List.forall₂_iff_zip, sameKind, Bool.and_eq_true, beq_iff_eq, beq_iff_eq, and_assoc]
      refine and_congr_right fun _ => and_congr_right fun _ => ?_
      rw [Prod.forall]
      exact forall₃_congr fun t u h => ih t (List.of_mem_zip h).1
    | _ => simp [eqv, allEqv, Alike]
  | unassigned => cases u <;> simp [eqv, allEqv, Alike]

end Term

end Relational
