import Mathlib.Data.List.Basic
import Relational.Term.Basic

/-!
# Variables and instances of terms

* `Term.ind` : induction over the tree of a term, its children being in a list.
* `Term.Occurs x t` : the variable `x` stands somewhere in `t`; `Term.vars` lists exactly these
  variables (`mem_vars`), from left to right (`vars_eq_leaves`).
* `Term.subst θ t` : the instance of `t` in which every variable `x` is replaced by `θ x`;
  `Term.rename ρ t` replaces variables by variables.
* `Term.Ground t` : `t` has no variables.

An instance of a compound that contains `x` is strictly larger than the instance of `x`
(`weight_lt_of_occurs`); this is why a variable cannot be a proper part of its own value.
-/

namespace Relational

namespace Term

/-- Induction over the tree of a term. -/
@[elab_as_elim, induction_eliminator]
theorem ind {motive : Term → Prop} (var : ∀ x, motive (.var x))
    (constant : ∀ c, motive (.constant c))
    (compound : ∀ shape ts, (∀ t ∈ ts, motive t) → motive (.compound shape ts))
    (unassigned : motive .unassigned) (t : Term) : motive t :=
  Term.rec (motive_1 := motive) (motive_2 := fun ts => ∀ t ∈ ts, motive t) var constant compound
    unassigned (fun _ h => absurd h List.not_mem_nil)
    (fun _ _ ht hts _ h => (List.mem_cons.1 h).elim (fun e => e ▸ ht) (hts _)) t

/-! ### Occurrence -/

/-- The variable `x` stands somewhere in a term. -/
inductive Occurs (x : Var) : Term → Prop
  | var : Occurs x (.var x)
  | child {shape : Shape} {ts : List Term} {t : Term} :
      t ∈ ts → Occurs x t → Occurs x (.compound shape ts)

/-- A term without variables. -/
def Ground (t : Term) : Prop := ∀ x, ¬ t.Occurs x

@[simp] theorem occurs_var {x y : Var} : (var y).Occurs x ↔ y = x :=
  ⟨fun h => by cases h; rfl, fun h => h ▸ .var⟩

@[simp] theorem not_occurs_constant {x : Var} {c : Constant} : ¬ (constant c).Occurs x :=
  fun h => by cases h

@[simp] theorem not_occurs_unassigned {x : Var} : ¬ unassigned.Occurs x := fun h => by cases h

@[simp] theorem occurs_compound {x : Var} {shape : Shape} {ts : List Term} :
    (compound shape ts).Occurs x ↔ ∃ t ∈ ts, t.Occurs x :=
  ⟨fun h => by cases h with | child ht hx => exact ⟨_, ht, hx⟩, fun ⟨_, ht, hx⟩ => .child ht hx⟩

theorem mem_foldNodes {x : Var} {f : List Var → Term → List Var}
    (hf : ∀ acc t, x ∈ f acc t ↔ x ∈ acc ∨ t = .var x) (acc : List Var) (pending : List Term) :
    x ∈ foldNodes f acc pending ↔ x ∈ acc ∨ ∃ t ∈ pending, t.Occurs x := by
  fun_induction foldNodes f acc pending with
  | case1 => simp
  | case2 acc shape children pending ih =>
    rw [ih, hf]
    simp only [reduceCtorEq, or_false, List.mem_append, List.mem_cons, or_and_right, exists_or,
      exists_eq_left, occurs_compound]
  | case3 acc t pending hne ih =>
    have ht : t.Occurs x ↔ t = .var x := by
      cases t with
      | var y => simp
      | compound shape ts => exact absurd rfl (hne shape ts)
      | constant c => simp
      | unassigned => simp
    rw [ih, hf]
    simp only [List.mem_cons, or_and_right, exists_or, exists_eq_left, ht, or_assoc]

/-- The listed variables are those that occur. -/
@[simp] theorem mem_vars {x : Var} {t : Term} : x ∈ t.vars ↔ t.Occurs x := by
  unfold vars
  rw [List.mem_reverse, mem_foldNodes]
  · simp
  · intro acc t
    cases t with
    | var y => simp [or_comm, eq_comm]
    | constant c => simp
    | compound shape ts => simp
    | unassigned => simp

/-! ### Variables in reading order -/

theorem foldNodes_append {β : Type} (f : β → Term → β) (acc : β) (ts us : List Term) :
    foldNodes f acc (ts ++ us) = foldNodes f (foldNodes f acc ts) us := by
  fun_induction foldNodes f acc ts with
  | case1 => rfl
  | case2 acc shape children pending ih =>
    rw [List.cons_append, foldNodes, ← List.append_assoc, ih]
  | case3 acc t pending hne ih =>
    cases t with
    | compound shape children => exact absurd rfl (hne shape children)
    | _ => rw [List.cons_append, foldNodes, ih]; simp

/-- What was gathered before stays behind what is gathered now. -/
theorem foldNodes_acc {α : Type} {f : List α → Term → List α}
    (hf : ∀ acc rest t, f (acc ++ rest) t = f acc t ++ rest) (acc rest : List α)
    (pending : List Term) :
    foldNodes f (acc ++ rest) pending = foldNodes f acc pending ++ rest := by
  fun_induction foldNodes f acc pending with
  | case1 => rw [foldNodes]
  | case2 acc shape children pending ih => rw [foldNodes, hf, ih]
  | case3 acc t pending hne ih =>
    cases t with
    | compound shape children => exact absurd rfl (hne shape children)
    | _ => rw [foldNodes, hf, ih]; simp

theorem reverse_foldNodes {α : Type} {f : List α → Term → List α}
    (hf : ∀ acc rest t, f (acc ++ rest) t = f acc t ++ rest) (ts : List Term) :
    (foldNodes f [] ts).reverse = ts.flatMap fun t => (foldNodes f [] [t]).reverse := by
  induction ts with
  | nil => rw [foldNodes]; rfl
  | cons t ts ih =>
    have hcons : foldNodes f [] (t :: ts) = foldNodes f [] ts ++ foldNodes f [] [t] := by
      rw [← foldNodes_acc hf, List.nil_append, ← foldNodes_append, List.singleton_append]
    rw [hcons, List.reverse_append, ih, List.flatMap_cons]

theorem vars_var (x : Var) : (var x).vars = [x] := by simp [vars, foldNodes]

theorem vars_constant (c : Constant) : (constant c).vars = [] := by simp [vars, foldNodes]

theorem vars_unassigned : unassigned.vars = [] := by simp [vars, foldNodes]

/-- The variables of a compound are those of its children, one child after the other. -/
theorem vars_compound (shape : Shape) (ts : List Term) :
    (compound shape ts).vars = ts.flatMap vars := by
  unfold vars
  rw [foldNodes, List.append_nil]
  refine reverse_foldNodes (fun acc rest t => ?_) ts
  cases t <;> rfl

mutual

/-- The variables of a term from left to right, as often as they stand there. -/
def leaves : Term → List Var
  | .var x => [x]
  | .constant _ => []
  | .compound _ ts => leavesAll ts
  | .unassigned => []

/-- The variables of a row of terms from left to right. -/
def leavesAll : List Term → List Var
  | [] => []
  | t :: ts => leaves t ++ leavesAll ts

end

theorem leavesAll_eq_flatMap (ts : List Term) : leavesAll ts = ts.flatMap leaves := by
  induction ts with
  | nil => rw [leavesAll, List.flatMap_nil]
  | cons t ts ih => rw [leavesAll, List.flatMap_cons, ih]

/-- The variables are listed from left to right. -/
theorem vars_eq_leaves (t : Term) : t.vars = t.leaves := by
  induction t with
  | var x => rw [vars_var, leaves]
  | constant c => rw [vars_constant, leaves]
  | compound shape ts ih =>
    rw [vars_compound, leaves, leavesAll_eq_flatMap]
    exact List.flatMap_congr ih
  | unassigned => rw [vars_unassigned, leaves]

/-! ### Instances -/

mutual

/-- The instance of a term in which every variable `x` is replaced by `θ x`. -/
def subst (θ : Var → Term) : Term → Term
  | .var x => θ x
  | .constant c => .constant c
  | .compound shape ts => .compound shape (substAll θ ts)
  | .unassigned => .unassigned

/-- The instances of a row of terms. -/
def substAll (θ : Var → Term) : List Term → List Term
  | [] => []
  | t :: ts => subst θ t :: substAll θ ts

end

variable {θ θ' : Var → Term}

theorem substAll_eq_map (ts : List Term) : substAll θ ts = ts.map (subst θ) := by
  induction ts with
  | nil => rw [substAll, List.map_nil]
  | cons t ts ih => rw [substAll, List.map_cons, ih]

@[simp] theorem subst_var (x : Var) : (var x).subst θ = θ x := by rw [subst]

@[simp] theorem subst_constant (c : Constant) : (constant c).subst θ = constant c := by rw [subst]

@[simp] theorem subst_unassigned : unassigned.subst θ = unassigned := by rw [subst]

@[simp] theorem subst_compound (shape : Shape) (ts : List Term) :
    (compound shape ts).subst θ = compound shape (ts.map (subst θ)) := by
  rw [subst, substAll_eq_map]

theorem subst_congr {t : Term} (h : ∀ x, t.Occurs x → θ x = θ' x) : t.subst θ = t.subst θ' := by
  induction t with
  | var x => simpa using h x .var
  | constant c => simp
  | compound shape ts ih =>
    simp only [subst_compound, compound.injEq, true_and]
    exact List.map_congr_left fun t ht => ih t ht fun x hx => h x (.child ht hx)
  | unassigned => simp

theorem subst_eq_self {t : Term} (h : ∀ x, t.Occurs x → θ x = .var x) : t.subst θ = t := by
  induction t with
  | var x => simpa using h x .var
  | constant c => simp
  | compound shape ts ih =>
    simp only [subst_compound, compound.injEq, true_and]
    calc ts.map (subst θ) = ts.map id :=
          List.map_congr_left fun t ht => ih t ht fun x hx => h x (.child ht hx)
      _ = ts := List.map_id ts
  | unassigned => simp

theorem Ground.subst_eq {t : Term} (h : t.Ground) : t.subst θ = t :=
  subst_eq_self fun x hx => absurd hx (h x)

theorem occurs_subst {t : Term} {x : Var} :
    (t.subst θ).Occurs x ↔ ∃ y, t.Occurs y ∧ (θ y).Occurs x := by
  induction t with
  | var y => simp
  | constant c => simp
  | compound shape ts ih =>
    simp only [subst_compound, occurs_compound, List.mem_map, exists_exists_and_eq_and]
    constructor
    · rintro ⟨t, ht, hx⟩
      obtain ⟨y, hy, hx⟩ := (ih t ht).1 hx
      exact ⟨y, ⟨t, ht, hy⟩, hx⟩
    · rintro ⟨y, ⟨t, ht, hy⟩, hx⟩
      exact ⟨t, ht, (ih t ht).2 ⟨y, hy, hx⟩⟩
  | unassigned => simp

theorem ground_subst {t : Term} (h : ∀ x, (θ x).Ground) : (t.subst θ).Ground := by
  intro x hx
  obtain ⟨y, -, hy⟩ := occurs_subst.1 hx
  exact h y x hy

/-- An instance of an instance is one instance. -/
theorem subst_subst (t : Term) : (t.subst θ).subst θ' = t.subst fun x => (θ x).subst θ' := by
  induction t with
  | var x => simp
  | constant c => simp
  | compound shape ts ih =>
    simp only [subst_compound, List.map_map, compound.injEq, true_and]
    exact List.map_congr_left ih
  | unassigned => simp

/-- The variables of an instance are those of the terms that the variables are replaced by. -/
theorem vars_subst (t : Term) : (t.subst θ).vars = t.vars.flatMap fun x => (θ x).vars := by
  induction t with
  | var x => simp [vars_var]
  | constant c => simp [vars_constant]
  | compound shape ts ih =>
    rw [subst_compound, vars_compound, vars_compound, List.flatMap_map, List.flatMap_assoc]
    exact List.flatMap_congr ih
  | unassigned => simp [vars_unassigned]

/-- The instance of a term in which every variable `x` is replaced by the variable `ρ x`. -/
def rename (ρ : Var → Var) (t : Term) : Term := t.subst fun x => .var (ρ x)

theorem subst_rename (ρ : Var → Var) (t : Term) :
    (t.rename ρ).subst θ = t.subst fun x => θ (ρ x) := by
  rw [rename, subst_subst]
  simp only [subst_var]

variable {ρ : Var → Var}

@[simp] theorem rename_var (x : Var) : (var x).rename ρ = .var (ρ x) := by simp [rename]

@[simp] theorem rename_constant (c : Constant) : (constant c).rename ρ = .constant c := by
  simp [rename]

@[simp] theorem rename_unassigned : unassigned.rename ρ = .unassigned := by simp [rename]

@[simp] theorem rename_compound (shape : Shape) (ts : List Term) :
    (compound shape ts).rename ρ = .compound shape (ts.map (rename ρ)) := by
  rw [rename, subst_compound]
  rfl

theorem rename_eq_self {t : Term} (h : ∀ x, t.Occurs x → ρ x = x) : t.rename ρ = t :=
  subst_eq_self fun x hx => by rw [h x hx]

theorem Ground.rename_eq {t : Term} (h : t.Ground) : t.rename ρ = t := h.subst_eq

theorem vars_rename (t : Term) : (t.rename ρ).vars = t.vars.map ρ := by
  rw [rename, vars_subst]
  simp only [vars_var]
  exact List.map_eq_flatMap.symm

/-! ### Sizes -/

theorem weight_le_weights {t : Term} {ts : List Term} (h : t ∈ ts) : t.weight ≤ weights ts := by
  induction ts with
  | nil => cases h
  | cons u ts ih =>
    rw [weights_cons]
    rcases List.mem_cons.1 h with rfl | h
    · omega
    · have := ih h
      omega

@[simp] theorem weights_reverse (ts : List Term) : weights ts.reverse = weights ts := by
  induction ts with
  | nil => rfl
  | cons t ts ih => simp [ih, Nat.add_comm]

theorem weight_le_of_occurs {t : Term} {x : Var} (h : t.Occurs x) :
    (θ x).weight ≤ (t.subst θ).weight := by
  induction h with
  | var => simp
  | child ht _ ih =>
    have := weight_le_weights (List.mem_map_of_mem (f := subst θ) ht)
    simp only [subst_compound, weight_compound]
    omega

/-- A compound weighs more than any variable in it, in every instance. -/
theorem weight_lt_of_occurs {shape : Shape} {ts : List Term} {x : Var}
    (h : (compound shape ts).Occurs x) : (θ x).weight < ((compound shape ts).subst θ).weight := by
  obtain ⟨t, ht, hx⟩ := occurs_compound.1 h
  have h₁ := weight_le_of_occurs (θ := θ) hx
  have h₂ := weight_le_weights (List.mem_map_of_mem (f := subst θ) ht)
  simp only [subst_compound, weight_compound]
  omega

end Term

end Relational
