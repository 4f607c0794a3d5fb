import Relational.Proofs.Term.Equality

/-!
# Terms that share their children

The children of a compound stand at a place, and two compounds may have theirs at one and the same.
`Stored` is a term with the places of all children in it and `Stored.tree` the term that this is;
`Stored.In memory` says that at each of the places there stands what the term says.

Two stored terms are compared with a stack of pairs, from which the pair that was put there last is
taken first, so that the last children are compared before the others (`Stored.eqvAll`); two
compounds are compared child by child, and the children as terms (`Stored.eqvCompound`).  Both pass
over children that stand at one place.

Neither the order nor the shortcut shows: they come to structural equality of the trees
(`eqvAll_iff`, `eqvCompound_iff`), and so does the comparison of the library, which is therefore the
same one for every way in which terms may be stored (`eqv_structural`).
-/

namespace Relational

/-- A term, with the place where the children of each compound stand. -/
inductive Stored where
  | var (x : Var)
  | constant (c : Constant)
  | compound (shape : Shape) (place : ℕ) (children : List Stored)
  | unassigned

namespace Stored

mutual

/-- The term that is stored. -/
def tree : Stored → Term
  | .var x => .var x
  | .constant c => .constant c
  | .compound shape _ children => .compound shape (trees children)
  | .unassigned => .unassigned

/-- The terms of a row that is stored. -/
def trees : List Stored → List Term
  | [] => []
  | t :: ts => tree t :: trees ts

end

/-- All children stand where the term has them. -/
inductive In (memory : ℕ → List Stored) : Stored → Prop
  | var (x : Var) : In memory (.var x)
  | constant (c : Constant) : In memory (.constant c)
  | compound (shape : Shape) (place : ℕ) :
      (∀ t ∈ memory place, In memory t) → In memory (.compound shape place (memory place))
  | unassigned : In memory .unassigned

/-- Two compounds have one shape and their very children in common. -/
def sameChildren (shape : Shape) (place : ℕ) (shape' : Shape) (place' : ℕ) : Bool :=
  shape == shape' && place == place'

theorem trees_eq_map (ts : List Stored) : trees ts = ts.map tree := by
  induction ts with
  | nil => rw [trees, List.map_nil]
  | cons t ts ih => rw [trees, List.map_cons, ih]

@[simp] theorem tree_var (x : Var) : (var x).tree = .var x := by rw [tree]

@[simp] theorem tree_constant (c : Constant) : (constant c).tree = .constant c := by rw [tree]

@[simp] theorem tree_compound (shape : Shape) (place : ℕ) (ts : List Stored) :
    (compound shape place ts).tree = .compound shape (ts.map tree) := by
  rw [tree, trees_eq_map]

@[simp] theorem tree_unassigned : unassigned.tree = .unassigned := by rw [tree]

/-! ### The comparisons -/

theorem weights_zip_le (ts us : List Stored) :
    Term.weights ((ts.zip us).map fun p => p.1.tree) ≤ Term.weights (ts.map tree) := by
  have h := Term.weights_map_fst_zip_le (ts.map tree) (us.map tree)
  rw [List.zip_map, List.map_map] at h
  exact h

theorem weights_lt_cons (p : Stored × Stored) (pending : List (Stored × Stored)) :
    Term.weights (pending.map fun p => p.1.tree) <
      Term.weights ((p :: pending).map fun p => p.1.tree) := by
  rw [List.map_cons, Term.weights_cons]
  exact Nat.lt_add_of_pos_left p.1.tree.weight_pos

/-- The children of a compound are less than the compound. -/
theorem weights_lt_children {shape : Shape} {place : ℕ} (ts us : List Stored) (u : Stored)
    (pending : List (Stored × Stored)) :
    Term.weights (((ts.zip us).reverse ++ pending).map fun p => p.1.tree) <
      Term.weights (((compound shape place ts, u) :: pending).map fun p => p.1.tree) := by
  have := weights_zip_le ts us
  rw [List.map_append, List.map_reverse, Term.weights_append, Term.weights_reverse, List.map_cons,
    Term.weights_cons, tree_compound, Term.weight_compound]
  omega

/-- Compare the pairs of a stack, the uppermost one first. -/
def eqvAll : List (Stored × Stored) → Bool
  | [] => true
  | (.var x, .var y) :: pending => x == y && eqvAll pending
  | (.constant c, .constant d) :: pending => c.eqv d && eqvAll pending
  | (.unassigned, .unassigned) :: pending => eqvAll pending
  | (.compound shape place ts, .compound shape' place' us) :: pending =>
    if shape == shape' && ts.length == us.length then
      if sameChildren shape place shape' place' then eqvAll pending
      else eqvAll ((ts.zip us).reverse ++ pending)
    else false
  | _ => false
  termination_by pending => Term.weights (pending.map fun p => p.1.tree)
  decreasing_by
    all_goals first
    | exact weights_lt_cons _ _
    | exact weights_lt_children _ _ _ _

/-- Compare two terms. -/
def eqv (t u : Stored) : Bool := eqvAll [(t, u)]

/-- Compare two compounds. -/
def eqvCompound (shape : Shape) (place : ℕ) (ts : List Stored) (shape' : Shape) (place' : ℕ)
    (us : List Stored) : Bool :=
  sameChildren shape place shape' place' ||
    (shape == shape' && ts.length == us.length) && (ts.zip us).all fun (t, u) => t.eqv u

/-! ### What they come to -/

variable {memory : ℕ → List Stored} {t u : Stored} {ts us : List Stored} {shape shape' : Shape}
  {place place' : ℕ} {pending : List (Stored × Stored)}

theorem In.children (h : In memory (.compound shape place ts)) :
    ts = memory place ∧ ∀ t ∈ ts, In memory t := by
  cases h with
  | compound _ _ h => exact ⟨rfl, h⟩

/-- The children of two compounds of one kind are compared pair by pair. -/
theorem alike_compound_iff (h : (shape == shape' && ts.length == us.length) = true) :
    Term.Alike (compound shape place ts).tree (compound shape' place' us).tree ↔
      ∀ p ∈ ts.zip us, Term.Alike p.1.tree p.2.tree := by
  obtain ⟨hshape, hlength⟩ : shape = shape' ∧ ts.length = us.length := by simpa using h
  rw [tree_compound, tree_compound, Term.alike_compound, List.forall₂_map_left_iff,
    List.forall₂_map_right_iff, List.forall₂_iff_zip, Prod.forall]
  simp [hshape, hlength]

/-- Compounds with their children at one place are the same tree. -/
theorem tree_eq_of_sameChildren (h : sameChildren shape place shape' place' = true)
    (ht : In memory (.compound shape place ts)) (hu : In memory (.compound shape' place' us)) :
    (compound shape place ts).tree = (compound shape' place' us).tree := by
  obtain ⟨rfl, rfl⟩ : shape = shape' ∧ place = place' := by simpa [sameChildren] using h
  rw [ht.children.1, hu.children.1]

/-- **The stack finds the trees of all pairs alike, or does not.** -/
theorem eqvAll_iff (h : ∀ p ∈ pending, In memory p.1 ∧ In memory p.2) :
    eqvAll pending = true ↔ ∀ p ∈ pending, Term.Alike p.1.tree p.2.tree := by
  fun_induction eqvAll pending with
  | case1 => simp
  | case2 x y pending ih => simp [ih (List.forall_mem_cons.1 h).2]
  | case3 c d pending ih => simp [ih (List.forall_mem_cons.1 h).2]
  | case4 pending ih => simp [ih (List.forall_mem_cons.1 h).2]
  | case5 shape place ts shape' place' us pending hkind hsame ih =>
    obtain ⟨⟨ht, hu⟩, h⟩ := List.forall_mem_cons.1 h
    rw [ih h, List.forall_mem_cons, tree_eq_of_sameChildren hsame ht hu]
    simp
  | case6 shape place ts shape' place' us pending hkind hsame ih =>
    obtain ⟨⟨ht, hu⟩, h⟩ := List.forall_mem_cons.1 h
    have hchildren : ∀ p ∈ (ts.zip us).reverse ++ pending, In memory p.1 ∧ In memory p.2 := by
      refine List.forall_mem_append.2 ⟨fun p hp => ?_, h⟩
      obtain ⟨hpt, hpu⟩ := List.of_mem_zip (List.mem_reverse.1 hp)
      exact ⟨ht.children.2 _ hpt, hu.children.2 _ hpu⟩
    rw [ih hchildren, List.forall_mem_append, List.forall_mem_cons, alike_compound_iff hkind]
    simp only [List.mem_reverse]
  | case7 shape place ts shape' place' us pending hkind =>
    refine iff_of_false (by simp) fun hall => hkind ?_
    have halike := (List.forall_mem_cons.1 hall).1
    rw [tree_compound, tree_compound, Term.alike_compound] at halike
    simpa [halike.1] using halike.2.length_eq
  | case8 pending hnil hvar hconstant hunassigned hcompound =>
    obtain _ | ⟨⟨t, u⟩, pending⟩ := pending
    · exact absurd rfl hnil
    · refine iff_of_false (by simp) fun hall => ?_
      have halike := (List.forall_mem_cons.1 hall).1
      cases t <;> cases u <;>
        first
        | exact absurd rfl (hvar _ _ _)
        | exact absurd rfl (hconstant _ _ _)
        | exact absurd rfl (hunassigned _)
        | exact absurd rfl (hcompound _ _ _ _ _ _ _)
        | simp [Term.Alike] at halike

theorem eqv_iff (ht : In memory t) (hu : In memory u) :
    t.eqv u = true ↔ Term.Alike t.tree u.tree := by
  have hpair : ∀ p ∈ [(t, u)], In memory p.1 ∧ In memory p.2 := by simp [ht, hu]
  rw [eqv, eqvAll_iff hpair]
  simp

/-- **Compounds are compared as terms are.** -/
theorem eqvCompound_iff (ht : In memory (.compound shape place ts))
    (hu : In memory (.compound shape' place' us)) :
    eqvCompound shape place ts shape' place' us = true ↔
      Term.Alike (compound shape place ts).tree (compound shape' place' us).tree := by
  rw [eqvCompound, Bool.or_eq_true]
  by_cases hsame : sameChildren shape place shape' place' = true
  · rw [tree_eq_of_sameChildren hsame ht hu]
    simp [hsame]
  · rw [or_iff_right hsame]
    by_cases hkind : (shape == shape' && ts.length == us.length) = true
    · rw [hkind, Bool.true_and, List.all_eq_true, alike_compound_iff hkind]
      refine forall₂_congr fun p hp => ?_
      obtain ⟨hpt, hpu⟩ := List.of_mem_zip hp
      exact eqv_iff (ht.children.2 _ hpt) (hu.children.2 _ hpu)
    · refine iff_of_false (by simp [hkind]) fun halike => hkind ?_
      rw [tree_compound, tree_compound, Term.alike_compound] at halike
      simpa [halike.1] using halike.2.length_eq

/-- **Equality of terms is structural, and a partial equivalence of values makes it an equivalence
of terms.**  However terms are stored, the two comparisons and the one of the library decide whether
two trees are alike: constants by being one and the same, or of one type and with equal values, and
all else by its form.  So equality is symmetric and transitive, and although a value may differ from
itself it is reflexive: a term is equal to every term with the very same constants.  To put an equal
term in the place of a part of a term changes no comparison. -/
theorem eqv_structural :
    (∀ memory t u, In memory t → In memory u →
      t.eqv u = (t.tree == u.tree) ∧ (t.eqv u = true ↔ Term.Alike t.tree u.tree) ∧
      (t.tree = u.tree → t.eqv u = true)) ∧
    (∀ memory shape place ts shape' place' us, In memory (.compound shape place ts) →
      In memory (.compound shape' place' us) → eqvCompound shape place ts shape' place' us =
        ((compound shape place ts).tree == (compound shape' place' us).tree)) ∧
    (∀ t u : Term, (t == u) = true ↔ t.Alike u) ∧
    (∀ c d : Constant, (Term.constant c).Alike (.constant d) ↔
      c = d ∨ c.value.holders = d.value.holders ∧ c.value.scalar.SameValue d.value.scalar) ∧
    (∀ t : Term, (t == t) = true) ∧
    (∀ t u : Term, (t == u) = (u == t)) ∧
    (∀ t u v : Term, (t == u) = true → (u == v) = true → (t == v) = true) ∧
    (∀ (c : Term.Context) (t u v : Term), (t == u) = true →
      (c.fill t == v) = (c.fill u == v) ∧ (v == c.fill t) = (v == c.fill u)) := by
  have hlibrary : ∀ t u : Term, (t == u) = true ↔ t.Alike u := fun t u => Term.eqv_iff_alike
  refine ⟨fun memory t u ht hu => ?_, fun memory shape place ts shape' place' us ht hu => ?_,
    hlibrary, fun c d => ?_, fun t => ?_, fun t u => ?_, fun t u v htu huv => ?_,
    fun c t u v htu => ?_⟩
  · refine ⟨?_, eqv_iff ht hu, fun h => ?_⟩
    · rw [Bool.eq_iff_iff, eqv_iff ht hu, hlibrary]
    · rw [eqv_iff ht hu, h]
  · rw [Bool.eq_iff_iff, eqvCompound_iff ht hu, hlibrary]
  · rw [Term.alike_constant, Constant.eqv_iff]
  · exact (hlibrary t t).2 (Term.alike_refl t)
  · rw [Bool.eq_iff_iff, hlibrary, hlibrary, Term.alike_comm]
  · exact (hlibrary t v).2 (((hlibrary t u).1 htu).trans ((hlibrary u v).1 huv))
  · have hfill : (c.fill t).Alike (c.fill u) := ((hlibrary t u).1 htu).fill c
    refine ⟨Bool.eq_iff_iff.2 ?_, Bool.eq_iff_iff.2 ?_⟩
    · rw [hlibrary, hlibrary, hfill.congr_left]
    · rw [hlibrary, hlibrary, hfill.congr_right]

/-- Two cells with one and the same NaN, stored at two places, are equal, and so is a cell to
itself; with a NaN of its own at either place they would not be. -/
theorem eqv_structural_nan :
    let nan (n : ℕ) := Stored.constant ⟨.plain (.float .double .nan), [n]⟩
    let memory : ℕ → List Stored := fun
      | 0 => [nan 0, .unassigned]
      | 1 => [nan 0, .unassigned]
      | 2 => [nan 1, .unassigned]
      | _ => []
    let cell (place : ℕ) := Stored.compound .cons place (memory place)
    (∀ place < 3, In memory (cell place)) ∧ (cell 0).eqv (cell 1) = true ∧
      (cell 2).eqv (cell 2) = true ∧ (cell 1).eqv (cell 2) = false := by
  intro nan memory cell
  have hin : ∀ place < 3, In memory (cell place) := by
    intro place hplace
    refine .compound _ place fun t ht => ?_
    obtain rfl | rfl | rfl : place = 0 ∨ place = 1 ∨ place = 2 := by omega
    all_goals
      rcases List.mem_cons.1 ht with rfl | ht
      · exact .constant _
      · obtain rfl := List.mem_singleton.1 ht
        exact .unassigned
  obtain ⟨hstored, -⟩ := eqv_structural
  have hdiffer : (cell 1).eqv (cell 2) = false := by
    rw [(hstored memory _ _ (hin 1 (by decide)) (hin 2 (by decide))).1]
    cbv
  exact ⟨hin, (hstored memory _ _ (hin 0 (by decide)) (hin 1 (by decide))).2.2 rfl,
    (hstored memory _ _ (hin 2 (by decide)) (hin 2 (by decide))).2.2 rfl, hdiffer⟩

end Stored

end Relational
