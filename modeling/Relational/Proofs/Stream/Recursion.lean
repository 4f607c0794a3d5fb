import Relational.Proofs.Stream.StepEqual

/-!
# Merging and binding by recursion

`merge` and `bind` go along the chain of a stream in a loop.  Whoever sees a stream only from the
front would define them by recursion: a stream is empty, or has an item in front of it, or is
suspended.  `Recursion rules join extend` are the equations of such a definition.

The loops satisfy these equations, for chains of every length and with every end, and with the same
reports in the same order (`merge_bind_recursion`).  And nothing else could be meant by them:
operations that satisfy the equations are step equal to `merge` and `bind`
(`Recursion.stepEqual`).
-/

namespace Relational

namespace Stream

variable {ι κ ε α : Type}

/-- The stream `s` shows nothing, and forcing it is the work `yielding`. -/
def Suspends (rules : Rules ι κ ε α) (s : Stream ι κ α) (yielding : Logged ε (Stream ι κ α)) :
    Prop :=
  ∃ p, s = suspend p ∧ p.force rules = yielding

/-- The equations that define by recursion how `join` merges two streams, and how `extend` replaces
every item of a stream by what a continuation makes of it. -/
structure Recursion (rules : Rules ι κ ε α) (join : Stream ι κ α → Stream ι κ α → Stream ι κ α)
    (extend : Stream ι κ α → κ → Logged ε (Stream ι κ α)) : Prop where
  join_empty : ∀ b, join empty b = b
  join_cons : ∀ x d b, join (cons x d) b = cons x (join d b)
  /-- The other stream goes first when the suspension has been forced. -/
  join_suspend : ∀ p b, Suspends rules (join (suspend p) b) (do
    let t ← p.force rules
    return join b t)
  extend_empty : ∀ c, extend empty c = pure empty
  /-- The stream of the first item goes first, although this item is looked at last. -/
  extend_cons : ∀ x d c, extend (cons x d) c = do
    let others ← extend d c
    let items ← rules.expand c x
    return join items others
  extend_suspend : ∀ p c, ∃ s, extend (suspend p) c = pure s ∧ Suspends rules s (do
    let t ← p.force rules
    extend t c)

variable {rules : Rules ι κ ε α} {a b s t : Stream ι κ α} {v w : Logged ε (Stream ι κ α)}
  {join : Stream ι κ α → Stream ι κ α → Stream ι κ α}
  {extend : Stream ι κ α → κ → Logged ε (Stream ι κ α)}

theorem suspends_merge (rules : Rules ι κ ε α) (p : Suspension ι κ α) (b : Stream ι κ α) :
    Suspends rules ((suspend p).merge b) (do
      let t ← p.force rules
      return b.merge t) :=
  ⟨.swap b p, suspend_merge p b, rfl⟩

theorem exists_suspends_bind (rules : Rules ι κ ε α) (p : Suspension ι κ α) (c : κ) :
    ∃ s, (suspend p).bind rules c = pure s ∧ Suspends rules s (do
      let t ← p.force rules
      t.bind rules c) :=
  ⟨suspend (.bind p c), suspend_bindWith c _ p, .bind p c, rfl, rfl⟩

/-- **Merging and binding satisfy their recursive equations.** -/
theorem merge_bind_recursion (rules : Rules ι κ ε α) : Recursion rules merge (bind rules) where
  join_empty := empty_merge
  join_cons := cons_merge
  join_suspend := suspends_merge rules
  extend_empty := fun c => empty_bindWith c _
  extend_cons := fun x d c => cons_bindWith c _ x d
  extend_suspend := exists_suspends_bind rules

/-- Suspended streams agree in one layer more than what they yield. -/
theorem Suspends.agree {k : ℕ} (hs : Suspends rules s v) (ht : Suspends rules t w)
    (h : Agree rules k v.value w.value) : Agree rules (k + 1) s t := by
  obtain ⟨p, rfl, rfl⟩ := hs
  obtain ⟨q, rfl, rfl⟩ := ht
  exact ⟨rfl, rfl, h⟩

namespace Recursion

/-- The equations leave no choice what `join` is: by the layers, since the streams change places
when a suspension is forced, and for one layer along the chain. -/
theorem join_stepEqual (h : Recursion rules join extend) (a b : Stream ι κ α) :
    StepEqual rules (join a b) (a.merge b) := by
  refine stepEqual_iff.2 fun k => ?_
  induction k generalizing a b with
  | zero => trivial
  | succ k ih =>
    induction a with
    | empty => rw [h.join_empty, empty_merge]
    | cons x d ihd =>
      rw [h.join_cons, cons_merge]
      exact ihd.cons
    | suspend p => exact (h.join_suspend p b).agree (suspends_merge rules p b) (ih b _)

theorem extend_stepEqual (h : Recursion rules join extend) (s : Stream ι κ α) (c : κ) :
    StepEqual rules (extend s c).value (s.bind rules c).value := by
  refine stepEqual_iff.2 fun k => ?_
  induction k generalizing s with
  | zero => trivial
  | succ k ih =>
    induction s with
    | empty =>
      rw [h.extend_empty, Stream.bind, empty_bindWith]
    | cons x d ihd =>
      have hjoin := h.join_stepEqual (rules.expand c x).value (extend d c).value
      rw [h.extend_cons, Stream.bind, cons_bindWith]
      exact (hjoin.agree (k + 1)).trans (.merge (.refl _ _) ihd)
    | suspend p =>
      obtain ⟨s, hs, hsuspends⟩ := h.extend_suspend p c
      obtain ⟨t, ht, htsuspends⟩ := exists_suspends_bind rules p c
      rw [hs, ht]
      exact hsuspends.agree htsuspends (ih _)

/-- **The equations determine merging and binding**, up to step equality. -/
theorem stepEqual (h : Recursion rules join extend) :
    (∀ a b, StepEqual rules (join a b) (a.merge b)) ∧
      ∀ s c, StepEqual rules (extend s c).value (s.bind rules c).value :=
  ⟨h.join_stepEqual, h.extend_stepEqual⟩

end Recursion

end Stream

end Relational
