import Relational.Stream.Basic

/-!
# The equations of merging and binding

A stream shows its *heads*, the items that are there before anything is forced, and behind them it
has ended or there is the suspension at the end of the chain, its *rest*.

Merging and binding go along the chain in a loop, with a pile of the items met so far.  What is on
the pile stands in front of what the loop would come to without it (`mergeFrom_eq`, `bindFrom_eq`).
So it can be said cell by cell what `merge` and `bindWith` do to a stream that is empty, has an item
in front, or is suspended; and for all cells at once, what they do to the heads (`heads_merge`,
`bindWith_eq_foldr`).
-/

namespace Relational

namespace Stream

variable {ι κ ε α : Type}

/-- Induction along the chain of a stream. -/
@[induction_eliminator, elab_as_elim]
theorem ind {motive : Stream ι κ α → Prop} (empty : motive empty)
    (cons : ∀ x s, motive s → motive (cons x s)) (suspend : ∀ p, motive (suspend p)) :
    ∀ s, motive s
  | .empty => empty
  | .cons x s => cons x s (ind empty cons suspend s)
  | .suspend p => suspend p

/-! ### What a stream shows -/

/-- The items that are there already. -/
def heads : Stream ι κ α → List α
  | empty => []
  | cons x s => x :: s.heads
  | suspend _ => []

/-- What yields the items behind the heads; nothing if the stream has ended. -/
def rest : Stream ι κ α → Option (Suspension ι κ α)
  | empty => none
  | cons _ s => s.rest
  | suspend p => some p

@[simp] theorem heads_empty : (empty : Stream ι κ α).heads = [] := rfl

@[simp] theorem heads_cons (x : α) (s : Stream ι κ α) : (cons x s).heads = x :: s.heads := rfl

@[simp] theorem heads_suspend (p : Suspension ι κ α) : (suspend p).heads = ([] : List α) := rfl

@[simp] theorem rest_empty : (empty : Stream ι κ α).rest = none := rfl

@[simp] theorem rest_cons (x : α) (s : Stream ι κ α) : (cons x s).rest = s.rest := rfl

@[simp] theorem rest_suspend (p : Suspension ι κ α) : (suspend p).rest = some p := rfl

/-- A stream is what it shows, and what is behind that. -/
theorem ext {a b : Stream ι κ α} (hheads : a.heads = b.heads) (hrest : a.rest = b.rest) :
    a = b := by
  induction a generalizing b with
  | empty => cases b <;> simp_all
  | cons x d ih =>
    cases b with
    | cons y e =>
      obtain ⟨rfl, htail⟩ := List.cons.inj hheads
      rw [ih htail hrest]
    | _ => simp at hheads
  | suspend p => cases b <;> simp_all

/-! ### Items on a pile -/

@[simp] theorem prepend_nil (s : Stream ι κ α) : prepend [] s = s := rfl

@[simp] theorem prepend_cons (x : α) (pile : List α) (s : Stream ι κ α) :
    prepend (x :: pile) s = prepend pile (cons x s) := rfl

theorem heads_prepend (pile : List α) (s : Stream ι κ α) :
    (prepend pile s).heads = pile.reverse ++ s.heads := by
  induction pile generalizing s with
  | nil => rfl
  | cons x pile ih => rw [prepend_cons, ih, heads_cons, List.reverse_cons, List.append_assoc]; rfl

theorem rest_prepend (pile : List α) (s : Stream ι κ α) : (prepend pile s).rest = s.rest := by
  induction pile generalizing s with
  | nil => rfl
  | cons x pile ih => rw [prepend_cons, ih, rest_cons]

@[simp] theorem heads_ofList (xs : List α) : (ofList xs : Stream ι κ α).heads = xs := by
  rw [ofList, heads_prepend, List.reverse_reverse, heads_empty, List.append_nil]

@[simp] theorem rest_ofList (xs : List α) : (ofList xs : Stream ι κ α).rest = none :=
  rest_prepend _ _

@[simp] theorem ofList_nil : (ofList [] : Stream ι κ α) = empty := rfl

/-! ### Merging -/

@[simp] theorem empty_merge (b : Stream ι κ α) : empty.merge b = b := rfl

theorem suspend_merge (p : Suspension ι κ α) (b : Stream ι κ α) :
    (suspend p).merge b = suspend (.swap b p) := rfl

/-- What is on the pile stands in front of the merged stream. -/
theorem mergeFrom_eq (b : Stream ι κ α) (pile : List α) (a : Stream ι κ α) :
    mergeFrom b pile a = prepend pile (a.merge b) := by
  induction a generalizing pile with
  | empty => rfl
  | cons x d ih =>
    have hone : (cons x d).merge b = cons x (d.merge b) := ih [x]
    rw [hone, ← prepend_cons]
    exact ih (x :: pile)
  | suspend p => rfl

theorem cons_merge (x : α) (d b : Stream ι κ α) : (cons x d).merge b = cons x (d.merge b) :=
  mergeFrom_eq b [x] d

/-- The heads of a merged stream: those of `b` are there at once only if `a` has ended. -/
theorem heads_merge (a b : Stream ι κ α) :
    (a.merge b).heads = a.heads ++ if a.rest.isNone then b.heads else [] := by
  induction a with
  | empty => rfl
  | cons x d ih => rw [cons_merge, heads_cons, ih]; rfl
  | suspend p => rfl

theorem heads_merge_of_ended {a : Stream ι κ α} (b : Stream ι κ α) (h : a.rest = none) :
    (a.merge b).heads = a.heads ++ b.heads := by
  rw [heads_merge, h]
  rfl

theorem heads_merge_of_suspended {a : Stream ι κ α} {p : Suspension ι κ α} (b : Stream ι κ α)
    (h : a.rest = some p) : (a.merge b).heads = a.heads := by
  rw [heads_merge, h]
  exact List.append_nil _

theorem rest_merge_of_ended {a : Stream ι κ α} (b : Stream ι κ α) (h : a.rest = none) :
    (a.merge b).rest = b.rest := by
  induction a with
  | empty => rfl
  | cons x d ih => rw [cons_merge, rest_cons, ih h]
  | suspend p => cases h

theorem rest_merge_of_suspended {a : Stream ι κ α} {p : Suspension ι κ α} (b : Stream ι κ α)
    (h : a.rest = some p) : (a.merge b).rest = some (.swap b p) := by
  induction a with
  | empty => cases h
  | cons x d ih => rw [cons_merge, rest_cons, ih h]
  | suspend q => cases h; rfl

@[simp] theorem merge_empty_of_ended {a : Stream ι κ α} (h : a.rest = none) :
    a.merge empty = a := by
  apply ext
  · rw [heads_merge_of_ended empty h, heads_empty, List.append_nil]
  · rw [rest_merge_of_ended empty h, h]
    rfl

/-! ### Binding -/

section Loop

variable {m : Type → Type} [Monad m] (k : κ) (f : α → m (Stream ι κ α))

theorem empty_bindM : empty.bindM k f = pure empty := rfl

theorem suspend_bindM (p : Suspension ι κ α) :
    (suspend p).bindM k f = pure (suspend (.bind p k)) := rfl

variable [LawfulMonad m]

/-- What is on the pile is expanded when everything else has been. -/
theorem bindFrom_eq (pile : List α) (s : Stream ι κ α) :
    bindFrom k f pile s = s.bindM k f >>= expandPile f pile := by
  induction s generalizing pile with
  | empty => rw [empty_bindM, pure_bind]; rfl
  | cons x d ih =>
    have hone : (cons x d).bindM k f = d.bindM k f >>= expandPile f [x] := ih [x]
    rw [hone, bind_assoc]
    refine (ih (x :: pile)).trans (bind_congr fun others => ?_)
    simp [expandPile]
  | suspend p => rw [suspend_bindM, pure_bind]; rfl

/-- The items behind the first one are looked at before it. -/
theorem cons_bindM (x : α) (d : Stream ι κ α) : (cons x d).bindM k f = (do
    let others ← d.bindM k f
    let items ← f x
    return items.merge others) :=
  bindFrom_eq k f [x] d

end Loop

@[simp] theorem empty_bindWith (k : κ) (f : α → Logged ε (Stream ι κ α)) :
    empty.bindWith k f = pure empty := rfl

theorem suspend_bindWith (k : κ) (f : α → Logged ε (Stream ι κ α)) (p : Suspension ι κ α) :
    (suspend p).bindWith k f = pure (suspend (.bind p k)) := rfl

theorem cons_bindWith (k : κ) (f : α → Logged ε (Stream ι κ α)) (x : α) (d : Stream ι κ α) :
    (cons x d).bindWith k f = (do
      let others ← d.bindWith k f
      let items ← f x
      return items.merge others) := by
  rw [bindWith, cons_bindM]
  refine Logged.ext rfl ?_
  show _ = _ ++ ((f x).events ++ #[])
  rw [Array.append_empty]
  rfl

/-- What `continuation` will make of the items behind the heads, once they are there. -/
def bindRest (continuation : κ) (s : Stream ι κ α) : Stream ι κ α :=
  match s.rest with
  | none => empty
  | some p => suspend (.bind p continuation)

/-- All heads at once: the last one is looked at first. -/
theorem bindWith_eq_foldr (k : κ) (f : α → Logged ε (Stream ι κ α)) (s : Stream ι κ α) :
    s.bindWith k f = s.heads.foldr (fun x others => do
      let others ← others
      let items ← f x
      return items.merge others) (pure (s.bindRest k)) := by
  induction s with
  | empty => rfl
  | cons x d ih => rw [cons_bindWith, ih]; rfl
  | suspend p => rfl

end Stream

end Relational
