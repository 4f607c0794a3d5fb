import Relational.Proofs.Stream.Binding
import Relational.Proofs.Stream.Pull

/-!
# Streams that are equal step for step

Two streams are equal step for step if looking at them and forcing them, however often, never tells
them apart: both have ended, both are suspended, or both show the same head with tails of this kind
(`StepEqual`).  This is less than being the same stream, because a suspension may be wrapped in
another one that does nothing; and it is all that counts for whoever pulls items with a limit
(`StepEqual.pulls`).

`Agree rules k a b` says the same of the first `k` layers, and there an induction over the layers
goes through.  Merging and binding keep it (`Agree.merge`, `Agree.bind`), so they respect step
equality (`StepEqual.merge`, `StepEqual.bind`).
-/

namespace Relational

namespace Stream

variable {ι κ ε α : Type}

/-- What is seen of two streams is the same, and what is not seen yet is related by `R`. -/
def SameFront (rules : Rules ι κ ε α) (R : Stream ι κ α → Stream ι κ α → Prop) :
    Pulled ι κ α → Pulled ι κ α → Prop
  | .item x a, .item y b => x = y ∧ R a b
  | .ended, .ended => True
  | .suspended a, .suspended b => R (a.behind rules) (b.behind rules)
  | _, _ => False

/-- Both streams have ended, both are suspended and step equal behind the suspension, or both have
equal heads and step equal tails. -/
def StepEqual (rules : Rules ι κ ε α) (a b : Stream ι κ α) : Prop :=
  ∃ R : Stream ι κ α → Stream ι κ α → Prop, R a b ∧
    ∀ a b, R a b → SameFront rules R a.front b.front

/-- The first `k` layers have the same heads, and both streams end there or neither does. -/
def Agree (rules : Rules ι κ ε α) : ℕ → Stream ι κ α → Stream ι κ α → Prop
  | 0, _, _ => True
  | k + 1, a, b => a.heads = b.heads ∧ a.rest.isNone = b.rest.isNone ∧
    Agree rules k (a.behind rules) (b.behind rules)

variable {rules : Rules ι κ ε α} {a a' b b' s : Stream ι κ α} {k n : ℕ} {c c' : κ}

/-! ### Layers that agree -/

namespace Agree

@[refl] theorem refl (k : ℕ) (a : Stream ι κ α) : Agree rules k a a := by
  induction k generalizing a with
  | zero => trivial
  | succ k ih => exact ⟨rfl, rfl, ih _⟩

theorem symm (h : Agree rules k a b) : Agree rules k b a := by
  induction k generalizing a b with
  | zero => trivial
  | succ k ih =>
    obtain ⟨hheads, hends, h⟩ := h
    exact ⟨hheads.symm, hends.symm, ih h⟩

theorem trans (h : Agree rules k a b) (h' : Agree rules k b s) : Agree rules k a s := by
  induction k generalizing a b s with
  | zero => trivial
  | succ k ih =>
    obtain ⟨hheads, hends, h⟩ := h
    obtain ⟨hheads', hends', h'⟩ := h'
    exact ⟨hheads.trans hheads', hends.trans hends', ih h h'⟩

theorem mono (h : Agree rules n a b) (hk : k ≤ n) : Agree rules k a b := by
  induction k generalizing n a b with
  | zero => trivial
  | succ k ih =>
    obtain ⟨n, rfl⟩ : ∃ m, n = m + 1 := ⟨n - 1, by omega⟩
    obtain ⟨hheads, hends, h⟩ := h
    exact ⟨hheads, hends, ih h (by omega)⟩

theorem cons {x : α} (h : Agree rules k a b) : Agree rules k (cons x a) (cons x b) := by
  cases k with
  | zero => trivial
  | succ k =>
    obtain ⟨hheads, hends, h⟩ := h
    exact ⟨congrArg (x :: ·) hheads, hends, h⟩

end Agree

theorem isNone_rest_merge (a b : Stream ι κ α) :
    (a.merge b).rest.isNone = (a.rest.isNone && b.rest.isNone) := by
  cases ha : a.rest with
  | none => rw [rest_merge_of_ended b ha]; rfl
  | some p => rw [rest_merge_of_suspended b ha]; rfl

/-- Merging keeps the layers that agree, although the streams change places behind each of them. -/
theorem Agree.merge (ha : Agree rules k a a') (hb : Agree rules k b b') :
    Agree rules k (a.merge b) (a'.merge b') := by
  induction k generalizing a a' b b' with
  | zero => trivial
  | succ k ih =>
    obtain ⟨hheads, hends, hbehind⟩ := ha
    refine ⟨?_, ?_, ?_⟩
    · rw [heads_merge, heads_merge, hheads, hends, hb.1]
    · rw [isNone_rest_merge, isNone_rest_merge, hends, hb.2.1]
    · rw [behind_merge, behind_merge, hends]
      split_ifs
      · exact hb.2.2
      · exact ih (hb.mono (Nat.le_succ k)) hbehind

theorem Agree.mergeAll {f g : α → Stream ι κ α} (xs : List α)
    (hf : ∀ x, Agree rules k (f x) (g x)) (hs : Agree rules k s b) :
    Agree rules k (mergeAll f s xs) (mergeAll g b xs) := by
  induction xs with
  | nil => exact hs
  | cons x xs ih => exact (hf x).merge ih

/-- Binding keeps the layers that agree, if the streams of the items agree so far. -/
theorem Agree.bind (hs : Agree rules k a b)
    (hc : ∀ x, Agree rules k (rules.expand c x).value (rules.expand c' x).value) :
    Agree rules k (a.bind rules c).value (b.bind rules c').value := by
  induction k generalizing a b with
  | zero => trivial
  | succ k ih =>
    obtain ⟨hheads, hends, hbehind⟩ := hs
    rw [value_bind, value_bind, bound, bound, hheads]
    refine Agree.mergeAll _ hc ⟨?_, ?_, ?_⟩
    · unfold bindRest
      cases a.rest <;> cases b.rest <;> rfl
    · revert hends
      unfold bindRest
      cases a.rest <;> cases b.rest <;> exact id
    · rw [behind_bindRest, behind_bindRest, hends]
      split_ifs
      · rfl
      · exact ih hbehind fun x => (hc x).mono (Nat.le_succ k)

/-! ### Step equality, layer by layer -/

theorem StepEqual.agree (h : StepEqual rules a b) (k : ℕ) : Agree rules k a b := by
  obtain ⟨R, hab, hR⟩ := h
  induction k generalizing a b with
  | zero => trivial
  | succ k ih =>
    induction a generalizing b with
    | empty =>
      cases b with
      | empty => rfl
      | _ => exact (hR _ _ hab).elim
    | cons x d ihd =>
      cases b with
      | cons y e =>
        obtain ⟨rfl, htail⟩ : x = y ∧ R d e := hR _ _ hab
        exact (ihd htail).cons
      | _ => exact (hR _ _ hab).elim
    | suspend p =>
      cases b with
      | suspend q => exact ⟨rfl, rfl, ih (hR _ _ hab)⟩
      | _ => exact (hR _ _ hab).elim

/-- **Streams are step equal exactly if all their layers agree.** -/
theorem stepEqual_iff : StepEqual rules a b ↔ ∀ k, Agree rules k a b := by
  refine ⟨fun h k => h.agree k, fun h => ⟨fun a b => ∀ k, Agree rules k a b, h, ?_⟩⟩
  intro a b h
  obtain ⟨hheads, hends, -⟩ := h 1
  cases a with
  | empty => cases b <;> trivial
  | cons x d =>
    cases b with
    | cons y e =>
      obtain ⟨rfl, htail⟩ := List.cons.inj hheads
      refine ⟨rfl, fun k => ?_⟩
      cases k with
      | zero => trivial
      | succ k => exact ⟨htail, hends, (h (k + 1)).2.2⟩
    | _ => simp at hheads
  | suspend p =>
    cases b with
    | empty => simp at hends
    | cons y e => simp at hheads
    | suspend q => exact fun k => (h (k + 1)).2.2

namespace StepEqual

@[refl] theorem refl (a : Stream ι κ α) : StepEqual rules a a :=
  stepEqual_iff.2 fun k => .refl k a

theorem symm (h : StepEqual rules a b) : StepEqual rules b a :=
  stepEqual_iff.2 fun k => (h.agree k).symm

theorem trans (h : StepEqual rules a b) (h' : StepEqual rules b s) : StepEqual rules a s :=
  stepEqual_iff.2 fun k => (h.agree k).trans (h'.agree k)

theorem merge (ha : StepEqual rules a a') (hb : StepEqual rules b b') :
    StepEqual rules (a.merge b) (a'.merge b') :=
  stepEqual_iff.2 fun k => (ha.agree k).merge (hb.agree k)

theorem bind (hs : StepEqual rules a b) (c c' : κ)
    (hc : ∀ x, StepEqual rules (rules.expand c x).value (rules.expand c' x).value) :
    StepEqual rules (a.bind rules c).value (b.bind rules c').value :=
  stepEqual_iff.2 fun k => (hs.agree k).bind fun x => (hc x).agree k

theorem behind (h : StepEqual rules a b) : StepEqual rules (a.behind rules) (b.behind rules) :=
  stepEqual_iff.2 fun k => (h.agree (k + 1)).2.2

theorem after (h : StepEqual rules a b) (k : ℕ) :
    StepEqual rules (a.after rules k) (b.after rules k) := by
  induction k generalizing a b with
  | zero => exact h
  | succ k ih => exact ih h.behind

/-- Streams are step equal if they are behind the first layer, and the first layer is the same. -/
theorem of_behind (hheads : a.heads = b.heads) (hends : a.rest.isNone = b.rest.isNone)
    (h : StepEqual rules (a.behind rules) (b.behind rules)) : StepEqual rules a b := by
  refine stepEqual_iff.2 fun k => ?_
  cases k with
  | zero => trivial
  | succ k => exact ⟨hheads, hends, h.agree k⟩

/-- What the fronts of step equal streams have in common. -/
theorem sameFront (h : StepEqual rules a b) :
    SameFront rules (StepEqual rules) a.front b.front := by
  obtain ⟨R, hab, hR⟩ := h
  have hfront := hR a b hab
  cases a <;> cases b <;>
    first
    | exact hfront
    | exact ⟨R, hfront, hR⟩
    | exact ⟨hfront.1, R, hfront.2, hR⟩

theorem isSuspended (h : StepEqual rules a b) : a.isSuspended = b.isSuspended := by
  have hfront := h.sameFront
  cases a <;> cases b <;> first | rfl | exact hfront.elim

end StepEqual

theorem stepEqual_equivalence (rules : Rules ι κ ε α) : Equivalence (StepEqual rules) :=
  ⟨.refl, .symm, .trans⟩

/-! ### Pulling -/

/-- What several pulls find, each with a limit of its own: an item, or the end, or nothing because
the limit was met. -/
def pulls (rules : Rules ι κ ε α) : List ℕ → Stream ι κ α → List (Option (Option α))
  | [], _ => []
  | limit :: limits, s =>
    match (s.pull rules limit).value with
    | .item x s => some (some x) :: pulls rules limits s
    | .ended => some none :: pulls rules limits empty
    | .suspended s => none :: pulls rules limits s

namespace StepEqual

/-- A pull looks at step equal streams, behind equally many suspensions. -/
theorem exists_pull (h : StepEqual rules a b) (limit : ℕ) : ∃ a' b', StepEqual rules a' b' ∧
    (a.pull rules limit).value = a'.front ∧ (b.pull rules limit).value = b'.front := by
  have hsuspended : ∀ i, (b.after rules i).isSuspended = (a.after rules i).isSuspended :=
    fun i => (h.after i).isSuspended.symm
  rcases exists_ahead_or rules limit a with ⟨k, hk, hahead⟩ | hfar
  · have hahead' : b.Ahead rules k :=
      ⟨fun i hi => (hsuspended i).trans (hahead.1 i hi), (hsuspended k).trans hahead.2⟩
    exact ⟨_, _, h.after k, by rw [pull_of_ahead hahead hk], by rw [pull_of_ahead hahead' hk]⟩
  · have hfar' : ∀ i ≤ limit, (b.after rules i).isSuspended :=
      fun i hi => (hsuspended i).trans (hfar i hi)
    exact ⟨_, _, h.after limit, by rw [pull_of_suspended hfar], by rw [pull_of_suspended hfar']⟩

/-- **Pulls find the same**, whatever their limits are. -/
theorem pulls (h : StepEqual rules a b) (limits : List ℕ) :
    a.pulls rules limits = b.pulls rules limits := by
  induction limits generalizing a b with
  | nil => rfl
  | cons limit limits ih =>
    obtain ⟨a', b', h', ha, hb⟩ := h.exists_pull limit
    have hfront := h'.sameFront
    rw [Stream.pulls, Stream.pulls, ha, hb]
    cases a' with
    | empty =>
      cases b' with
      | empty => rfl
      | _ => exact hfront.elim
    | cons x a' =>
      cases b' with
      | cons y b' =>
        obtain ⟨rfl, htail⟩ := hfront
        exact congrArg (some (some x) :: ·) (ih htail)
      | _ => exact hfront.elim
    | suspend p =>
      cases b' with
      | suspend q => exact congrArg (none :: ·) (ih h')
      | _ => exact hfront.elim

end StepEqual

end Stream

end Relational
