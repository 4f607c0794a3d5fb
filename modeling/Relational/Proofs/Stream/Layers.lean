import Mathlib.Data.Nat.Basic
import Relational.Stream.Lemmas

/-!
# The layers of a stream

Forcing what is behind the heads of a stream gives the stream behind it; so a stream is a row of
layers, and `s.Yields rules k x` says that `x` is among the heads behind `k` suspensions.

A layer of a merged stream is a layer of a stream that is merged from what was there before: when a
suspension is forced, the two streams change places (`behind_merge`).  What is behind the heads of a
bound stream is bound when it is there (`behind_bindRest`).
-/

namespace Relational

namespace Stream

variable {ι κ ε α : Type} {rules : Rules ι κ ε α}

/-- What comes of forcing the suspension behind the heads. -/
def behind (rules : Rules ι κ ε α) (s : Stream ι κ α) : Stream ι κ α :=
  match s.rest with
  | none => empty
  | some p => (p.force rules).value

/-- What is left of a stream behind `k` suspensions. -/
def after (rules : Rules ι κ ε α) : ℕ → Stream ι κ α → Stream ι κ α
  | 0, s => s
  | k + 1, s => after rules k (s.behind rules)

/-- The item `x` is there when `k` suspensions have been forced. -/
def Yields (rules : Rules ι κ ε α) (s : Stream ι κ α) (k : ℕ) (x : α) : Prop :=
  x ∈ (s.after rules k).heads

variable {a b s : Stream ι κ α} {p : Suspension ι κ α} {continuation : κ} {k : ℕ} {x : α}

@[simp] theorem behind_suspend : (suspend p).behind rules = (p.force rules).value := rfl

@[simp] theorem behind_of_ended (h : s.rest = none) : s.behind rules = empty := by
  rw [behind, h]

theorem behind_of_suspended (h : s.rest = some p) : s.behind rules = (p.force rules).value := by
  rw [behind, h]

@[simp] theorem yields_zero : s.Yields rules 0 x ↔ x ∈ s.heads := Iff.rfl

@[simp] theorem yields_succ : s.Yields rules (k + 1) x ↔ (s.behind rules).Yields rules k x :=
  Iff.rfl

theorem after_empty : (empty : Stream ι κ α).after rules k = empty := by
  induction k with
  | zero => rfl
  | succ k ih => exact ih

@[simp] theorem not_yields_empty : ¬ (empty : Stream ι κ α).Yields rules k x := by
  rw [Yields, after_empty]
  exact List.not_mem_nil

theorem yields_suspend : (suspend p).Yields rules k x ↔
    ∃ j, k = j + 1 ∧ (p.force rules).value.Yields rules j x := by
  cases k with
  | zero => simp
  | succ k => simp

@[simp] theorem yields_ofList {xs : List α} :
    (ofList xs : Stream ι κ α).Yields rules k x ↔ k = 0 ∧ x ∈ xs := by
  cases k with
  | zero => simp
  | succ k =>
    rw [yields_succ, behind_of_ended (rest_ofList xs)]
    simp

theorem yields_single {y : α} : (single x : Stream ι κ α).Yields rules k y ↔ k = 0 ∧ y = x := by
  have hone : (single x : Stream ι κ α) = ofList [x] := rfl
  rw [hone, yields_ofList, List.mem_singleton]

/-! ### Merging -/

theorem behind_merge (a b : Stream ι κ α) : (a.merge b).behind rules =
    if a.rest.isNone then b.behind rules else b.merge (a.behind rules) := by
  cases ha : a.rest with
  | none => rw [behind, rest_merge_of_ended b ha, behind]; rfl
  | some p =>
    rw [behind_of_suspended (rest_merge_of_suspended b ha), behind_of_suspended ha]
    rfl

/-! ### Binding -/

/-- The streams that come of the heads are merged one behind the other. -/
theorem value_bindWith (f : α → Logged ε (Stream ι κ α)) (s : Stream ι κ α) :
    (s.bindWith continuation f).value =
      s.heads.foldr (fun x others => (f x).value.merge others) (s.bindRest continuation) := by
  induction s with
  | empty => rfl
  | cons x d ih =>
    rw [cons_bindWith, Logged.value_bind, Logged.value_bind, ih]
    rfl
  | suspend p => rfl

theorem behind_bindRest : (s.bindRest continuation).behind rules =
    if s.rest.isNone then empty else ((s.behind rules).bind rules continuation).value := by
  unfold behind bindRest
  cases s.rest with
  | none => rfl
  | some p => rfl

end Stream

end Relational
