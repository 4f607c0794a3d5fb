import Mathlib.Order.WellFounded
import Mathlib.Order.RelClasses
import Mathlib.Data.Set.Finite.Basic
import Mathlib.Logic.Relation
import Relational.Proofs.Substitution.Walk
import Relational.Proofs.Term.Equality
import Relational.Substitution.Lemmas

/-!
# Acyclic substitutions

`s.Mentions x y` says that `y` occurs in the term that `x` is bound to, and `s.Acyclic` that this
relation has no cycle.  Only finitely many variables are bound, so the relation is well founded, and
there is an induction over terms that goes from a bound variable to its value (`Acyclic.ind`).

* Every term can be walked: its walk is the instance `t.subst s.value`, where `s.value x` is what
  the variable `x` stands for (`Acyclic.walks`).
* The variables below a term are the unbound ones that can be reached from it
  (`Acyclic.occurs_value_iff`).
* A binding whose variable is not below its own value keeps a substitution acyclic
  (`Acyclic.insert`).
-/

namespace Relational

namespace Substitution

open Relation

/-- The variable `y` occurs in the term that `x` is bound to. -/
def Mentions (s : Substitution) (x y : Var) : Prop := ∃ t, s.get? x = some t ∧ t.Occurs y

/-- No variable is a part of its own value, by however many bindings. -/
def Acyclic (s : Substitution) : Prop := ∀ x, ¬ TransGen s.Mentions x x

/-- What a variable stands for; the variable itself where following its bindings does not end. -/
noncomputable def value (s : Substitution) (x : Var) : Term :=
  open Classical in if h : ∃ w, s.Walks (.var x) w then h.choose else .var x

variable {s : Substitution} {t u w : Term} {x y : Var}

theorem Mentions.isSome (h : s.Mentions x y) : (s.get? x).isSome := by
  obtain ⟨t, ht, -⟩ := h
  rw [ht, Option.isSome_some]

theorem not_mentions_of_free (h : s.get? x = none) : ¬ s.Mentions x y := by
  intro hxy
  simpa [h] using hxy.isSome

theorem transGen_isSome (h : TransGen s.Mentions x y) : (s.get? x).isSome := by
  obtain ⟨z, hxz, -⟩ := TransGen.head'_iff.1 h
  exact hxz.isSome

theorem acyclic_empty : empty.Acyclic := by
  intro x h
  simpa using transGen_isSome h

/-- The variables of the tree are the bound ones. -/
theorem mem_bindings_keys : x ∈ s.bindings.keys ↔ (s.get? x).isSome := by
  rw [Std.TreeMap.mem_keys, ← Std.TreeMap.contains_iff_mem, ← contains, contains_eq_isSome]

/-- A variable from which no cycle can be reached can only be followed so far, because only finitely
many variables are bound. -/
theorem acc_of_no_cycle (h : ∀ y, ReflTransGen s.Mentions x y → ¬ TransGen s.Mentions y y) :
    Acc (fun y x => s.Mentions x y) x := by
  let Below := {y : Var // y ∈ s.bindings.keys ∧ ReflTransGen s.Mentions x y}
  let leads : Below → Below → Prop := fun z y => TransGen s.Mentions y.1 z.1
  have : Finite Below :=
    ((List.finite_toSet s.bindings.keys).subset fun _ hy => hy.1).to_subtype
  have : IsTrans Below leads := ⟨fun _ _ _ hab hbc => hbc.trans hab⟩
  have : Std.Irrefl leads := ⟨fun y => h y.1 y.2.2⟩
  have hwf : WellFounded leads := Finite.wellFounded_of_trans_of_irrefl leads
  have hfree : ∀ y, y ∉ s.bindings.keys → Acc (fun y x => s.Mentions x y) y := by
    intro y hy
    exact Acc.intro y fun z hyz => absurd (mem_bindings_keys.2 hyz.isSome) hy
  have hbound : ∀ y : Below, Acc (fun y x => s.Mentions x y) y.1 := by
    intro y
    induction y using hwf.induction with
    | _ y ih =>
      refine Acc.intro y.1 fun z hyz => ?_
      by_cases hz : z ∈ s.bindings.keys
      · exact ih ⟨z, hz, y.2.2.tail hyz⟩ (.single hyz)
      · exact hfree z hz
  by_cases hx : x ∈ s.bindings.keys
  · exact hbound ⟨x, hx, .refl⟩
  · exact hfree x hx

/-- The relation of an acyclic substitution is well founded. -/
theorem Acyclic.wellFounded (h : s.Acyclic) : WellFounded fun y x => s.Mentions x y :=
  ⟨fun _ => acc_of_no_cycle fun y _ => h y⟩

/-- Induction over a term and the values of the variables in it. -/
theorem Acyclic.ind (h : s.Acyclic) {motive : Term → Prop}
    (bound : ∀ x t, s.get? x = some t → motive t → motive (.var x))
    (free : ∀ x, s.get? x = none → motive (.var x))
    (constant : ∀ c, motive (.constant c))
    (compound : ∀ shape ts, (∀ t ∈ ts, motive t) → motive (.compound shape ts))
    (unassigned : motive .unassigned) (t : Term) : motive t := by
  have hterm : ∀ t : Term, (∀ x, t.Occurs x → motive (.var x)) → motive t := by
    intro t hx
    induction t with
    | var x => exact hx x .var
    | constant c => exact constant c
    | compound shape ts ih =>
      exact compound shape ts fun t ht => ih t ht fun x hxt => hx x (.child ht hxt)
    | unassigned => exact unassigned
  have hvar : ∀ x, motive (.var x) := by
    intro x
    induction x using h.wellFounded.induction with
    | _ x ih =>
      cases hx : s.get? x with
      | none => exact free x hx
      | some t => exact bound x t hx (hterm t fun y hy => ih y ⟨t, hx, hy⟩)
  exact hterm t fun x _ => hvar x

/-! ### What variables stand for -/

theorem walks_value (h : ∃ w, s.Walks (.var x) w) : s.Walks (.var x) (s.value x) := by
  rw [value, dif_pos h]
  exact h.choose_spec

theorem value_eq_of_walks (h : s.Walks (.var x) w) : s.value x = w :=
  (walks_value ⟨w, h⟩).unique h

@[simp] theorem value_of_free (h : s.get? x = none) : s.value x = .var x :=
  value_eq_of_walks (.free h)

/-- A term walks to what its variables walk to, put in their places. -/
theorem walks_subst {θ : Var → Term} (h : ∀ x, t.Occurs x → s.Walks (.var x) (θ x)) :
    s.Walks t (t.subst θ) := by
  induction t with
  | var x =>
    rw [Term.subst_var]
    exact h x .var
  | constant c =>
    rw [Term.subst_constant]
    exact .constant c
  | compound shape ts ih =>
    rw [Term.subst_compound, walks_compound_iff]
    refine ⟨_, rfl, List.forall₂_map_right_iff.2 (List.forall₂_same.2 fun t ht => ?_)⟩
    exact ih t ht fun x hx => h x (.child ht hx)
  | unassigned =>
    rw [Term.subst_unassigned]
    exact .unassigned

/-- A term can be walked if its variables can be. -/
theorem walks_subst_value (h : ∀ x, t.Occurs x → ∃ w, s.Walks (.var x) w) :
    s.Walks t (t.subst s.value) :=
  walks_subst fun x hx => walks_value (h x hx)

/-- A variable that can only be followed so far can be walked. -/
theorem exists_walks_of_acc (h : Acc (fun y x => s.Mentions x y) x) :
    ∃ w, s.Walks (.var x) w := by
  induction h with
  | intro x _ ih =>
    cases hx : s.get? x with
    | none => exact ⟨_, .free hx⟩
    | some t => exact ⟨_, .bound hx (walks_subst_value fun y hy => ih y ⟨t, hx, hy⟩)⟩

/-- Under an acyclic substitution every term can be walked. -/
theorem Acyclic.walks (h : s.Acyclic) (t : Term) : s.Walks t (t.subst s.value) :=
  walks_subst_value fun x _ => exists_walks_of_acc (h.wellFounded.apply x)

theorem Acyclic.value_bound (h : s.Acyclic) (hx : s.get? x = some t) :
    s.value x = t.subst s.value :=
  value_eq_of_walks (.bound hx (h.walks t))

theorem Acyclic.free_of_occurs (h : s.Acyclic) (hy : (t.subst s.value).Occurs y) :
    s.get? y = none :=
  (h.walks t).free_of_occurs hy

/-- A walked term stands for itself. -/
theorem Walks.subst_value (h : s.Walks t w) : w.subst s.value = w :=
  Term.subst_eq_self fun _ hx => value_of_free (h.free_of_occurs hx)

/-- What stands below a variable are the unbound variables that its bindings lead to. -/
theorem Acyclic.occurs_value_iff (h : s.Acyclic) :
    (s.value x).Occurs y ↔ s.get? y = none ∧ ReflTransGen s.Mentions x y := by
  constructor
  · intro hy
    refine ⟨h.free_of_occurs (t := .var x) (by simpa using hy), ?_⟩
    induction x using h.wellFounded.induction with
    | _ x ih =>
      cases hx : s.get? x with
      | none =>
        rw [value_of_free hx, Term.occurs_var] at hy
        exact hy ▸ .refl
      | some t =>
        rw [h.value_bound hx] at hy
        obtain ⟨z, hz, hy⟩ := Term.occurs_subst.1 hy
        exact .head ⟨t, hx, hz⟩ (ih z ⟨t, hx, hz⟩ hy)
  · rintro ⟨hy, hxy⟩
    induction hxy using ReflTransGen.head_induction_on with
    | refl => simp [value_of_free hy]
    | head hxz _ ih =>
      obtain ⟨t, hx, hz⟩ := hxz
      rw [h.value_bound hx]
      exact Term.occurs_subst.2 ⟨_, hz, ih⟩

/-! ### New bindings -/

/-- All bindings of one substitution are bindings of another one. -/
def Extends (s s' : Substitution) : Prop := ∀ x t, s.get? x = some t → s'.get? x = some t

theorem Extends.refl (s : Substitution) : s.Extends s := fun _ _ h => h

theorem Extends.trans {s' s'' : Substitution} (h : s.Extends s') (h' : s'.Extends s'') :
    s.Extends s'' :=
  fun x t hx => h' x t (h x t hx)

theorem extends_insert (hx : s.get? x = none) : s.Extends (s.insert x t) := by
  intro y u hy
  have hne : x ≠ y := by
    rintro rfl
    simp [hx] at hy
  rw [get?_insert, if_neg hne, hy]

/-- **A binding whose variable does not stand below its value makes no cycle.** -/
theorem Acyclic.insert (h : s.Acyclic) (hx : s.get? x = none)
    (ht : ¬ (t.subst s.value).Occurs x) : (s.insert x t).Acyclic := by
  have hstep : ∀ {a b}, (s.insert x t).Mentions a b → a ≠ x → s.Mentions a b := by
    rintro a b ⟨u, hu, hb⟩ hax
    rw [get?_insert, if_neg (Ne.symm hax)] at hu
    exact ⟨u, hu, hb⟩
  have hnew : ∀ {b}, (s.insert x t).Mentions x b → t.Occurs b := by
    rintro b ⟨u, hu, hb⟩
    rw [get?_insert_self, Option.some.injEq] at hu
    exact hu ▸ hb
  have hreach : ∀ y, t.Occurs y → ¬ ReflTransGen s.Mentions y x := fun y hy hyx =>
    ht (Term.occurs_subst.2 ⟨y, hy, h.occurs_value_iff.2 ⟨hx, hyx⟩⟩)
  -- a path runs through the old bindings, or it comes to `x` and goes on from its value
  have hpath : ∀ {a b}, TransGen (s.insert x t).Mentions a b → TransGen s.Mentions a b ∨
      ReflTransGen s.Mentions a x ∧ ∃ y, t.Occurs y ∧ ReflTransGen s.Mentions y b := by
    intro a b hab
    induction hab with
    | single hab =>
      by_cases hax : a = x
      · subst hax
        exact .inr ⟨.refl, _, hnew hab, .refl⟩
      · exact .inl (.single (hstep hab hax))
    | @tail b c _ hbc ih =>
      rcases ih with hab | ⟨hax, y, hy, hyb⟩
      · by_cases hbx : b = x
        · subst hbx
          exact .inr ⟨hab.to_reflTransGen, _, hnew hbc, .refl⟩
        · exact .inl (hab.tail (hstep hbc hbx))
      · have hbx : b ≠ x := fun hbx => hreach y hy (hbx ▸ hyb)
        exact .inr ⟨hax, y, hy, hyb.tail (hstep hbc hbx)⟩
  intro a haa
  rcases hpath haa with haa | ⟨hax, y, hy, hya⟩
  · exact h a haa
  · exact hreach y hy (hya.trans hax)

end Substitution

end Relational
