import Std.Data.TreeMap.Lemmas
import Relational.Substitution.Basic

/-!
# What binding a variable does

The order on variables is a total order, so that looking up a variable behind `insert` finds the
new term for that variable and the old ones for all others.  The views of a substitution are
`get?`, `contains`, `size` and `keys`; after these lemmas nothing looks at the tree.
-/

namespace Relational

namespace Var

instance : Std.TransCmp order where
  eq_swap {x y} := by
    cases x <;> cases y <;> simp [order]
    · exact Std.OrientedCmp.eq_swap
    · exact Std.OrientedCmp.eq_swap
  isLE_trans {x y z} := by
    cases x <;> cases y <;> cases z <;> simp [order]
    · exact Std.TransCmp.isLE_trans
    · exact Std.TransCmp.isLE_trans

instance : Std.LawfulEqCmp order where
  compare_self {x} := by cases x <;> simp [order]
  eq_of_compare {x y} := by cases x <;> cases y <;> simp [order]

end Var

namespace Substitution

variable {s : Substitution} {x y : Var} {t : Term}

@[simp] theorem get?_empty : empty.get? x = none := by
  simp [empty, get?]

theorem get?_insert : (s.insert x t).get? y = if x = y then some t else s.get? y := by
  simp [insert, get?, Std.TreeMap.get?_eq_getElem?, Std.TreeMap.getElem?_insert,
    Std.LawfulEqCmp.compare_eq_iff_eq]

@[simp] theorem get?_insert_self : (s.insert x t).get? x = some t := by
  simp [get?_insert]

theorem contains_eq_isSome : s.contains x = (s.get? x).isSome := by
  simp [contains, get?]

@[simp] theorem contains_insert : (s.insert x t).contains y = (decide (x = y) || s.contains y) := by
  simp only [contains_eq_isSome, get?_insert]
  by_cases h : x = y <;> simp [h]

@[simp] theorem keys_empty : empty.keys = [] := rfl

@[simp] theorem keys_insert : (s.insert x t).keys = s.keys ++ [x] := by
  simp [insert, keys]

theorem size_insert (h : s.contains x = false) : (s.insert x t).size = s.size + 1 := by
  have : s.bindings.contains x = false := h
  simp [insert, size, Std.TreeMap.size_insert, this]

theorem extend_eq_insert (h : s.contains x = false) : s.extend x t = .ok (s.insert x t) := by
  simp [extend, h]

/-- Bindings that are made one after the other stand behind the old ones, in this order. -/
theorem keys_of_foldlM_extend {r : Substitution} {pairs : List (Var × Term)}
    (h : pairs.foldlM (fun s p => s.extend p.1 p.2) s = .ok r) :
    r.keys = s.keys ++ pairs.map Prod.fst := by
  induction pairs generalizing s with
  | nil =>
    cases h
    rw [List.map_nil, List.append_nil]
  | cons p pairs ih =>
    rw [List.foldlM_cons, extend] at h
    split at h
    · cases h
    · rw [ih h, keys_insert, List.map_cons, List.append_assoc, List.singleton_append]

end Substitution

end Relational
