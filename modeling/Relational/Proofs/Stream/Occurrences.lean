import Mathlib.Data.Prod.Lex
import Relational.Proofs.Stream.Layers

/-!
# Where the items of a stream stand

Equal items of a stream are told apart by where they stand: behind how many suspensions, and how
many heads from the front (`Stream.Occurrence`).  What is yielded first comes first.
-/

namespace Relational

namespace Stream

variable {ι κ ε α : Type} {rules : Rules ι κ ε α} {s : Stream ι κ α} {k : ℕ} {x : α}

/-- An item of a stream together with where it stands. -/
@[ext]
structure Occurrence (rules : Rules ι κ ε α) (s : Stream ι κ α) where
  /-- The number of suspensions that are forced before the item is there. -/
  depth : ℕ
  /-- The number of heads that are there with it and in front of it. -/
  index : ℕ
  inside : index < (s.after rules depth).heads.length

namespace Occurrence

/-- The item that stands there. -/
def item (o : Occurrence rules s) : α := (s.after rules o.depth).heads.get ⟨o.index, o.inside⟩

theorem item_congr {t : Stream ι κ α} {o : Occurrence rules s} {o' : Occurrence rules t}
    (h : (s.after rules o.depth).heads[o.index]? = (t.after rules o'.depth).heads[o'.index]?) :
    o.item = o'.item := by
  rw [List.getElem?_eq_getElem o.inside, List.getElem?_eq_getElem o'.inside] at h
  exact Option.some.inj h

/-- The items in the order in which they are yielded. -/
instance : LinearOrder (Occurrence rules s) :=
  LinearOrder.lift' (fun o => toLex (o.depth, o.index)) fun o o' h => by
    obtain ⟨hdepth, hindex⟩ := Prod.mk.inj (toLex.injective h)
    exact Occurrence.ext hdepth hindex

theorem lt_iff {o o' : Occurrence rules s} :
    o < o' ↔ o.depth < o'.depth ∨ o.depth = o'.depth ∧ o.index < o'.index :=
  Prod.Lex.toLex_lt_toLex

/-- An item behind the first suspension, seen from in front of it. -/
def later (o : Occurrence rules (s.behind rules)) : Occurrence rules s :=
  ⟨o.depth + 1, o.index, o.inside⟩

theorem later_le_later {o o' : Occurrence rules (s.behind rules)} :
    o.later ≤ o'.later ↔ o ≤ o' := by
  rw [← not_lt, ← not_lt, lt_iff, lt_iff]
  simp [later]

end Occurrence

theorem yields_iff_exists_occurrence :
    s.Yields rules k x ↔ ∃ o : Occurrence rules s, o.depth = k ∧ o.item = x := by
  rw [Yields, List.mem_iff_get]
  constructor
  · rintro ⟨i, hi⟩
    exact ⟨⟨k, i, i.isLt⟩, rfl, hi⟩
  · rintro ⟨o, rfl, hx⟩
    exact ⟨⟨o.index, o.inside⟩, hx⟩

/-- The number of suspensions that are forced by forcing `k` times: fewer if the stream ends before
that. -/
def forced (rules : Rules ι κ ε α) : ℕ → Stream ι κ α → ℕ
  | 0, _ => 0
  | k + 1, s => if s.rest.isNone then 0 else forced rules k (s.behind rules) + 1

theorem forced_le (rules : Rules ι κ ε α) (s : Stream ι κ α) (k : ℕ) : s.forced rules k ≤ k := by
  induction k generalizing s with
  | zero => exact le_rfl
  | succ k ih =>
    rw [forced]
    split_ifs
    · exact Nat.zero_le _
    · exact Nat.succ_le_succ (ih _)

end Stream

end Relational
