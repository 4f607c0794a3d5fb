import Relational.Proofs.Stream.Layers

/-!
# Renaming what a stream is made of

`Stream.map` puts other seeds, continuations and items into a stream and leaves its structure as it
is: the suspensions stay, and every item stays in its place.  Merging goes along with it, and so
does binding where the heads are expanded to the same with other items.
-/

namespace Relational

variable {ι κ ι' κ' ε α α' : Type}

mutual

/-- The stream with other seeds, continuations and items. -/
def Stream.map (f : ι → ι') (g : κ → κ') (h : α → α') : Stream ι κ α → Stream ι' κ' α'
  | .empty => .empty
  | .cons x s => .cons (h x) (s.map f g h)
  | .suspend p => .suspend (p.map f g h)

/-- The suspension with other seeds, continuations and items. -/
def Suspension.map (f : ι → ι') (g : κ → κ') (h : α → α') :
    Suspension ι κ α → Suspension ι' κ' α'
  | .unfold seed => .unfold (f seed)
  | .yield s => .yield (s.map f g h)
  | .swap other turn => .swap (other.map f g h) (turn.map f g h)
  | .bind source continuation => .bind (source.map f g h) (g continuation)

end

namespace Stream

variable {f : ι → ι'} {g : κ → κ'} {h : α → α'} {a b s : Stream ι κ α}

@[simp] theorem map_empty : (empty : Stream ι κ α).map f g h = empty := by rw [Stream.map]

@[simp] theorem map_cons (x : α) (s : Stream ι κ α) :
    (cons x s).map f g h = cons (h x) (s.map f g h) := by rw [Stream.map]

@[simp] theorem map_suspend (p : Suspension ι κ α) :
    (suspend p).map f g h = suspend (p.map f g h) := by rw [Stream.map]

@[simp] theorem heads_map (s : Stream ι κ α) : (s.map f g h).heads = s.heads.map h := by
  induction s with
  | cons x s ih => rw [map_cons, heads_cons, ih]; rfl
  | _ => simp

@[simp] theorem rest_map (s : Stream ι κ α) :
    (s.map f g h).rest = s.rest.map (Suspension.map f g h) := by
  induction s with
  | cons x s ih => rw [map_cons, rest_cons, ih]; rfl
  | _ => simp

theorem map_ofList (xs : List α) : (ofList xs : Stream ι κ α).map f g h = ofList (xs.map h) := by
  apply ext <;> simp

theorem map_merge (a b : Stream ι κ α) :
    (a.merge b).map f g h = (a.map f g h).merge (b.map f g h) := by
  induction a with
  | empty => simp
  | cons x d ih => rw [cons_merge, map_cons, map_cons, cons_merge, ih]
  | suspend p => rw [suspend_merge, map_suspend, map_suspend, suspend_merge, Suspension.map]

theorem map_bindRest (c : κ) (s : Stream ι κ α) :
    (s.bindRest c).map f g h = (s.map f g h).bindRest (g c) := by
  unfold bindRest
  rw [rest_map]
  cases s.rest with
  | none => exact map_empty
  | some p => rw [map_suspend, Suspension.map]; rfl

/-- A bound stream with other items is the bound stream of the other items, if the heads are
expanded to the same with other items. -/
theorem map_bindWith {F : α → Logged ε (Stream ι κ α)} {G : α' → Logged ε (Stream ι' κ' α')} (c : κ)
    (hF : ∀ x ∈ s.heads, (G (h x)).value = (F x).value.map f g h) :
    ((s.map f g h).bindWith (g c) G).value = (s.bindWith c F).value.map f g h := by
  rw [value_bindWith, value_bindWith, heads_map, ← map_bindRest]
  generalize s.heads = heads at hF
  induction heads with
  | nil => rfl
  | cons x heads ih =>
    obtain ⟨hx, hheads⟩ := List.forall_mem_cons.1 hF
    rw [List.map_cons, List.foldr_cons, List.foldr_cons, hx, ih hheads, map_merge]

end Stream

end Relational
