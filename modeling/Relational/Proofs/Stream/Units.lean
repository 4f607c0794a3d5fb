import Relational.Proofs.Stream.StepEqual

/-!
# Folds with units

The stream without items is a unit of merging (`merge_empty_stepEqual`), and expanding every item to
itself is a unit of binding (`bind_stepEqual_self`, `single_bind_stepEqual`).

`Combinators rules G` are goals that make a stream of every item, and that can be put together by
merging and binding; what else a goal does is left open.  So what is said here is said of goals of
every kind: a conjunction of a list is, step for step, the right fold of `both` that ends in
`succeed`, and a disjunction the right fold of `either` that ends in `fail`
(`Combinators.all_stepEqual_foldr`, `Combinators.any_stepEqual_foldr`).  They are not the same
goals, because the last goal of a list stands there as it is.
-/

namespace Relational

namespace Stream

variable {ι κ ε α G : Type} {rules : Rules ι κ ε α}

/-! ### Units -/

/-- The stream without items is a unit of merging: what is forced stands in front of nothing. -/
theorem merge_empty_stepEqual (rules : Rules ι κ ε α) (s : Stream ι κ α) :
    StepEqual rules (s.merge empty) s := by
  refine .of_behind ?_ ?_ ?_
  · rw [heads_merge]
    split_ifs <;> exact List.append_nil _
  · rw [isNone_rest_merge]
    exact Bool.and_true _
  · rw [behind_merge]
    split_ifs with hs
    · rw [behind_of_ended (Option.isNone_iff_eq_none.1 hs), behind_of_ended rfl]
    · rw [empty_merge]

/-- Expanding every item to itself is a unit of binding. -/
theorem bind_stepEqual_self (c : κ) (hc : ∀ x, (rules.expand c x).value = single x)
    (s : Stream ι κ α) : StepEqual rules (s.bind rules c).value s := by
  refine stepEqual_iff.2 fun k => ?_
  induction k generalizing s with
  | zero => trivial
  | succ k ih =>
    induction s with
    | empty => rfl
    | cons x d ihd =>
      have hcons : ((cons x d).bind rules c).value = cons x (d.bind rules c).value := by
        rw [Stream.bind, cons_bindWith, Logged.value_bind, Logged.value_bind, hc]
        rfl
      rw [hcons]
      exact ihd.cons
    | suspend p => exact ⟨rfl, rfl, ih _⟩

/-- A single item is a unit on the other side. -/
theorem single_bind_stepEqual (rules : Rules ι κ ε α) (x : α) (c : κ) :
    StepEqual rules ((single x).bind rules c).value (rules.expand c x).value := by
  rw [value_bind]
  exact merge_empty_stepEqual rules _

/-! ### Goals of every kind -/

/-- Goals that can be put together.  There may be any others among them. -/
structure Combinators (rules : Rules ι κ ε α) (G : Type) where
  /-- A goal as what is done with an item. -/
  continuation : G → κ
  succeed : G
  fail : G
  either : G → G → G
  both : G → G → G
  expand_succeed : ∀ x, rules.expand (continuation succeed) x = pure (single x)
  expand_fail : ∀ x, rules.expand (continuation fail) x = pure empty
  expand_either : ∀ g h x, rules.expand (continuation (either g h)) x = do
    let a ← rules.expand (continuation g) x
    let b ← rules.expand (continuation h) x
    return a.merge b
  expand_both : ∀ g h x, rules.expand (continuation (both g h)) x = do
    let a ← rules.expand (continuation g) x
    a.bind rules (continuation h)

namespace Combinators

variable (C : Combinators rules G) {g g' h h' : G}

/-- The stream that a goal makes of an item. -/
def search (g : G) (x : α) : Stream ι κ α := (rules.expand (C.continuation g) x).value

/-- Every goal of a list. -/
def all : List G → G
  | [] => C.succeed
  | [g] => g
  | g :: gs => C.both g (all gs)

/-- One of the goals of a list. -/
def any : List G → G
  | [] => C.fail
  | [g] => g
  | g :: gs => C.either g (any gs)

/-- The streams of two goals are step equal, whatever the item is. -/
def StepEqual (g h : G) : Prop := ∀ x, Stream.StepEqual rules (C.search g x) (C.search h x)

theorem search_succeed (x : α) : C.search C.succeed x = single x :=
  congrArg Logged.value (C.expand_succeed x)

theorem search_fail (x : α) : C.search C.fail x = empty :=
  congrArg Logged.value (C.expand_fail x)

theorem search_either (g h : G) (x : α) :
    C.search (C.either g h) x = (C.search g x).merge (C.search h x) :=
  congrArg Logged.value (C.expand_either g h x)

theorem search_both (g h : G) (x : α) :
    C.search (C.both g h) x = ((C.search g x).bind rules (C.continuation h)).value := by
  rw [search, C.expand_both, Logged.value_bind, search]

namespace StepEqual

variable {C}

@[refl] theorem refl (g : G) : C.StepEqual g g := fun _ => .refl _

theorem symm (hg : C.StepEqual g h) : C.StepEqual h g := fun x => (hg x).symm

theorem either (hg : C.StepEqual g g') (hh : C.StepEqual h h') :
    C.StepEqual (C.either g h) (C.either g' h') := by
  intro x
  rw [search_either, search_either]
  exact (hg x).merge (hh x)

theorem both (hg : C.StepEqual g g') (hh : C.StepEqual h h') :
    C.StepEqual (C.both g h) (C.both g' h') := by
  intro x
  rw [search_both, search_both]
  exact (hg x).bind _ _ hh

end StepEqual

theorem both_succeed (g : G) : C.StepEqual (C.both g C.succeed) g := by
  intro x
  rw [search_both]
  exact bind_stepEqual_self _ C.search_succeed _

theorem succeed_both (g : G) : C.StepEqual (C.both C.succeed g) g := by
  intro x
  rw [search_both, search_succeed]
  exact single_bind_stepEqual rules x _

theorem either_fail (g : G) : C.StepEqual (C.either g C.fail) g := by
  intro x
  rw [search_either, search_fail]
  exact merge_empty_stepEqual rules _

theorem fail_either (g : G) : C.StepEqual (C.either C.fail g) g := by
  intro x
  rw [search_either, search_fail, empty_merge]

/-- **A conjunction is a fold** that ends in `succeed`. -/
theorem all_stepEqual_foldr : ∀ gs : List G, C.StepEqual (C.all gs) (gs.foldr C.both C.succeed)
  | [] => .refl _
  | [g] => (C.both_succeed g).symm
  | g :: h :: gs => .both (.refl g) (all_stepEqual_foldr (h :: gs))

/-- **A disjunction is a fold** that ends in `fail`. -/
theorem any_stepEqual_foldr : ∀ gs : List G, C.StepEqual (C.any gs) (gs.foldr C.either C.fail)
  | [] => .refl _
  | [g] => (C.either_fail g).symm
  | g :: h :: gs => .either (.refl g) (any_stepEqual_foldr (h :: gs))

/-- The streams of two goals are step equal, and pulls find the same in them, whatever the item and
the limits are. -/
structure SameSearch (g h : G) (x : α) : Prop where
  steps : Stream.StepEqual rules (C.search g x) (C.search h x)
  pulls : ∀ limits, (C.search g x).pulls rules limits = (C.search h x).pulls rules limits

variable {C} in
theorem StepEqual.sameSearch (hgh : C.StepEqual g h) (x : α) : C.SameSearch g h x :=
  ⟨hgh x, fun limits => (hgh x).pulls limits⟩

end Combinators

end Stream

end Relational
