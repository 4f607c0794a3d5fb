import Relational.Proofs.Stream.Interleaving

/-!
# What a bound stream yields

When every item of a stream is replaced by a stream of its own, an item of the bound stream comes
from an item of the source and from an item of what that one is expanded to; and every such pair has
exactly one place in the bound stream, even if other streams suspend for ever (`bindPlace`,
`bindPlace_injective`, `bindPlace_surjective`).  What comes from one item of the source keeps its
order (`strictMono_placeBehind`), and neither the item nor what it is expanded to is deeper than
what comes of them (`depth_le_placeBehind`).

The heads of a stream are expanded at once, and their streams are merged one behind the other
(`mergeAll`); what is behind the heads is bound when it is there.  So the places are found head by
head first, and then suspension by suspension.
-/

namespace Relational

namespace Stream

variable {ι κ ε α : Type} {rules : Rules ι κ ε α} {s : Stream ι κ α} {continuation : κ}
  {f : α → Stream ι κ α} {xs : List α} {k : ℕ} {x : α}

/-! ### Streams merged one behind the other -/

/-- The streams of the items `xs` and then `base`, merged one behind the other. -/
def mergeAll (f : α → Stream ι κ α) (base : Stream ι κ α) (xs : List α) : Stream ι κ α :=
  xs.foldr (fun x others => (f x).merge others) base

/-- The first of several things, or one of the others. -/
def headOrLater {n : ℕ} (P : Fin (n + 1) → Type) :
    (Σ i, P i) ≃ P ⟨0, n.succ_pos⟩ ⊕ Σ i : Fin n, P i.succ where
  toFun := fun z =>
    Fin.cases (motive := fun i => P i → P ⟨0, n.succ_pos⟩ ⊕ Σ i : Fin n, P i.succ)
      (fun y : P ⟨0, n.succ_pos⟩ => .inl y) (fun i y => .inr ⟨i, y⟩) z.1 z.2
  invFun := Sum.elim (fun y => ⟨⟨0, n.succ_pos⟩, y⟩) fun z => ⟨z.1.succ, z.2⟩
  left_inv := by
    rintro ⟨i, y⟩
    cases i using Fin.cases <;> rfl
  right_inv := by
    rintro (y | ⟨i, y⟩) <;> rfl

/-- Where the items of streams that are merged one behind the other stand. -/
noncomputable def mergeAllPlace (f : α → Stream ι κ α) (base : Stream ι κ α) : (xs : List α) →
    (Σ i : Fin xs.length, Occurrence rules (f (xs.get i))) ⊕ Occurrence rules base ≃
      Occurrence rules (mergeAll f base xs)
  | [] => @Equiv.emptySum _ _ ⟨fun z => z.1.elim0⟩
  | x :: xs =>
    ((headOrLater _).sumCongr (.refl _)).trans <| (Equiv.sumAssoc _ _ _).trans <|
      ((Equiv.refl _).sumCongr (mergeAllPlace f base xs)).trans (mergePlace (f x) _)

theorem item_mergeAllPlace (f : α → Stream ι κ α) (base : Stream ι κ α) (xs : List α)
    (z : (Σ i : Fin xs.length, Occurrence rules (f (xs.get i))) ⊕ Occurrence rules base) :
    (mergeAllPlace f base xs z).item = z.elim (fun y => y.2.item) Occurrence.item := by
  induction xs with
  | nil =>
    obtain ⟨i, y⟩ | y := z
    · exact i.elim0
    · rfl
  | cons x xs ih =>
    obtain ⟨i, y⟩ | y := z
    · cases i using Fin.cases with
      | zero => exact item_mergePlace (.inl y)
      | succ i => exact (item_mergePlace (.inr _)).trans (ih (.inl ⟨i, y⟩))
    · exact (item_mergePlace (.inr _)).trans (ih (.inr y))

/-- The items of each of the streams keep their order. -/
theorem strictMono_mergeAllPlace_inl (f : α → Stream ι κ α) (base : Stream ι κ α) (xs : List α)
    (i : Fin xs.length) : StrictMono fun y : Occurrence rules (f (xs.get i)) =>
      mergeAllPlace f base xs (.inl ⟨i, y⟩) := by
  induction xs with
  | nil => exact i.elim0
  | cons x xs ih =>
    cases i using Fin.cases with
    | zero => exact strictMono_mergePlace.comp Sum.inl_strictMono
    | succ i => exact strictMono_mergePlace.comp (Sum.inr_strictMono.comp (ih i))

theorem strictMono_mergeAllPlace_inr (f : α → Stream ι κ α) (base : Stream ι κ α) (xs : List α) :
    StrictMono fun y : Occurrence rules base => mergeAllPlace f base xs (.inr y) := by
  induction xs with
  | nil => exact strictMono_id
  | cons x xs ih => exact strictMono_mergePlace.comp (Sum.inr_strictMono.comp ih)

theorem depth_le_mergeAllPlace (f : α → Stream ι κ α) (base : Stream ι κ α) (xs : List α)
    (z : (Σ i : Fin xs.length, Occurrence rules (f (xs.get i))) ⊕ Occurrence rules base) :
    z.elim (fun y => y.2.depth) Occurrence.depth ≤ (mergeAllPlace f base xs z).depth := by
  induction xs with
  | nil =>
    obtain ⟨i, y⟩ | y := z
    · exact i.elim0
    · exact le_rfl
  | cons x xs ih =>
    have hfront : ∀ o : Occurrence rules (f x),
        o.depth ≤ (mergePlace (f x) (mergeAll f base xs) (.inl o)).depth := by
      intro o
      rw [depth_mergePlace_inl]
      exact Nat.le_add_right _ _
    have hlater : ∀ o : Occurrence rules (mergeAll f base xs),
        o.depth ≤ (mergePlace (f x) _ (.inr o)).depth := by
      intro o
      rw [depth_mergePlace_inr]
      exact Nat.le_add_right _ _
    obtain ⟨i, y⟩ | y := z
    · cases i using Fin.cases with
      | zero => exact hfront y
      | succ i => exact (ih (.inl ⟨i, y⟩)).trans (hlater _)
    · exact (ih (.inr y)).trans (hlater _)

/-! ### Behind the heads of a bound stream -/

/-- The bound stream: the streams of the heads, merged one behind the other, and behind them what
will be made of the items that are not there yet. -/
def bound (rules : Rules ι κ ε α) (continuation : κ) (s : Stream ι κ α) : Stream ι κ α :=
  mergeAll (fun x => (rules.expand continuation x).value) (s.bindRest continuation) s.heads

theorem value_bind (rules : Rules ι κ ε α) (s : Stream ι κ α) (continuation : κ) :
    (s.bind rules continuation).value = s.bound rules continuation :=
  value_bindWith _ s

theorem after_bindRest (hs : ¬ s.rest.isNone) : (s.bindRest continuation).after rules (k + 1) =
    ((s.behind rules).bound rules continuation).after rules k := by
  rw [after, behind_bindRest, if_neg hs, value_bind]

theorem suspended_of_lt_heads {i : ℕ} (hi : i < (s.after rules (k + 1)).heads.length) :
    ¬ s.rest.isNone := by
  intro hs
  rw [after, behind_of_ended (Option.isNone_iff_eq_none.1 hs), after_empty] at hi
  exact Nat.not_lt_zero i hi

namespace Occurrence

/-- What comes of the items behind the heads, seen from in front of the suspension. -/
def delayed (hs : ¬ s.rest.isNone)
    (o : Occurrence rules ((s.behind rules).bound rules continuation)) :
    Occurrence rules (s.bindRest continuation) :=
  ⟨o.depth + 1, o.index, after_bindRest hs ▸ o.inside⟩

theorem item_delayed (hs : ¬ s.rest.isNone)
    (o : Occurrence rules ((s.behind rules).bound rules continuation)) :
    (o.delayed hs).item = o.item := by
  refine item_congr ?_
  dsimp only [delayed]
  rw [after_bindRest hs]

theorem strictMono_delayed (hs : ¬ s.rest.isNone) :
    StrictMono (delayed hs : Occurrence rules ((s.behind rules).bound rules continuation) → _) := by
  intro o o' h
  rw [lt_iff] at h ⊢
  simpa [delayed] using h

/-- Whatever comes of the items behind the heads comes later. -/
theorem exists_delayed (o : Occurrence rules (s.bindRest continuation)) :
    ∃ (hs : ¬ s.rest.isNone) (o' : Occurrence rules ((s.behind rules).bound rules continuation)),
      o'.delayed hs = o := by
  obtain ⟨k, j, hj⟩ := o
  have hs : ¬ s.rest.isNone := by
    intro hs
    rw [bindRest, Option.isNone_iff_eq_none.1 hs, after_empty] at hj
    exact Nat.not_lt_zero j hj
  cases k with
  | zero =>
    have hnil : (s.bindRest continuation).heads = [] := by
      unfold bindRest
      cases s.rest <;> rfl
    rw [after, hnil] at hj
    exact absurd hj (Nat.not_lt_zero j)
  | succ k => exact ⟨hs, ⟨k, j, after_bindRest hs ▸ hj⟩, rfl⟩

end Occurrence

/-! ### The places in a bound stream -/

/-- Where the items stand that head number `i` behind `k` suspensions is expanded to. -/
noncomputable def placeBehind (continuation : κ) : (k : ℕ) → (s : Stream ι κ α) →
    (i : Fin (s.after rules k).heads.length) →
    Occurrence rules (rules.expand continuation ((s.after rules k).heads.get i)).value →
    Occurrence rules (s.bound rules continuation)
  | 0, _, i, y => mergeAllPlace _ _ _ (.inl ⟨i, y⟩)
  | k + 1, s, i, y => mergeAllPlace _ _ _ <| .inr <|
    (placeBehind continuation k (s.behind rules) i y).delayed (suspended_of_lt_heads i.isLt)

/-- Where the items stand that an item of the source is expanded to. -/
noncomputable def bindPlace (continuation : κ) (x : Occurrence rules s)
    (y : Occurrence rules (rules.expand continuation x.item).value) :
    Occurrence rules (s.bound rules continuation) :=
  placeBehind continuation x.depth s ⟨x.index, x.inside⟩ y

theorem item_placeBehind (i : Fin (s.after rules k).heads.length)
    (y : Occurrence rules (rules.expand continuation ((s.after rules k).heads.get i)).value) :
    (placeBehind continuation k s i y).item = y.item := by
  induction k generalizing s with
  | zero =>
    exact item_mergeAllPlace (fun x => (rules.expand continuation x).value) _ _ (.inl ⟨i, y⟩)
  | succ k ih =>
    exact (item_mergeAllPlace _ _ _ (.inr _)).trans ((Occurrence.item_delayed _ _).trans (ih i y))

/-- What comes of one item of the source keeps its order. -/
theorem strictMono_placeBehind (i : Fin (s.after rules k).heads.length) :
    StrictMono (placeBehind continuation k s i) := by
  induction k generalizing s with
  | zero => exact strictMono_mergeAllPlace_inl (fun x => (rules.expand continuation x).value) _ _ i
  | succ k ih =>
    exact (strictMono_mergeAllPlace_inr _ _ _).comp ((Occurrence.strictMono_delayed _).comp (ih i))

/-- Neither an item of the source nor what it is expanded to is deeper than what comes of them. -/
theorem depth_le_placeBehind (i : Fin (s.after rules k).heads.length)
    (y : Occurrence rules (rules.expand continuation ((s.after rules k).heads.get i)).value) :
    k ≤ (placeBehind continuation k s i y).depth ∧
      y.depth ≤ (placeBehind continuation k s i y).depth := by
  induction k generalizing s with
  | zero =>
    refine ⟨Nat.zero_le _, ?_⟩
    exact depth_le_mergeAllPlace (fun x => (rules.expand continuation x).value) _ _ (.inl ⟨i, y⟩)
  | succ k ih =>
    obtain ⟨hk, hy⟩ := ih (s := s.behind rules) i y
    have hdepth := depth_le_mergeAllPlace (fun x => (rules.expand continuation x).value) _ s.heads
      (.inr ((placeBehind continuation k (s.behind rules) i y).delayed
        (suspended_of_lt_heads i.isLt)))
    exact ⟨(Nat.succ_le_succ hk).trans hdepth, (hy.trans (Nat.le_succ _)).trans hdepth⟩

theorem bindPlace_injective : Function.Injective
    fun z : (Σ x : Occurrence rules s,
      Occurrence rules (rules.expand continuation x.item).value) =>
        bindPlace continuation z.1 z.2 := by
  rintro ⟨⟨k, i, hi⟩, y⟩ ⟨⟨k', i', hi'⟩, y'⟩ h
  dsimp only [bindPlace] at h
  induction k generalizing s k' with
  | zero =>
    cases k' with
    | zero =>
      cases (mergeAllPlace _ _ _).injective h
      rfl
    | succ k' => cases (mergeAllPlace _ _ _).injective h
  | succ k ih =>
    cases k' with
    | zero => cases (mergeAllPlace _ _ _).injective h
    | succ k' =>
      have hdelayed := Sum.inr.inj ((mergeAllPlace _ _ _).injective h)
      have hplace := (Occurrence.strictMono_delayed (suspended_of_lt_heads hi)).injective hdelayed
      cases ih (s := s.behind rules) hi y k' hi' y' hplace
      rfl

theorem bindPlace_surjective : Function.Surjective
    fun z : (Σ x : Occurrence rules s,
      Occurrence rules (rules.expand continuation x.item).value) =>
        bindPlace continuation z.1 z.2 := by
  intro o
  -- by the depth: what is behind the heads is bound one suspension later
  induction hk : o.depth using Nat.strong_induction_on generalizing s with
  | _ k ih =>
    subst hk
    obtain ⟨⟨i, y⟩ | z, rfl⟩ := (mergeAllPlace _ _ _).surjective o
    · exact ⟨⟨⟨0, i, i.isLt⟩, y⟩, rfl⟩
    · obtain ⟨hs, o, rfl⟩ := z.exists_delayed
      have hlt : o.depth < (mergeAllPlace (fun x => (rules.expand continuation x).value) _ s.heads
          (.inr (o.delayed hs))).depth := depth_le_mergeAllPlace _ _ _ (.inr (o.delayed hs))
      obtain ⟨⟨x, y⟩, rfl⟩ := ih _ hlt o rfl
      exact ⟨⟨x.later, y⟩, rfl⟩

/-- An item of the bound stream comes from an item of the source; neither is deeper there. -/
theorem yields_bind (h : (s.bind rules continuation).value.Yields rules k x) :
    ∃ i ≤ k, ∃ j ≤ k, ∃ y, s.Yields rules i y ∧
      (rules.expand continuation y).value.Yields rules j x := by
  rw [value_bind, yields_iff_exists_occurrence] at h
  obtain ⟨o, rfl, rfl⟩ := h
  obtain ⟨⟨y, z⟩, rfl⟩ := bindPlace_surjective o
  obtain ⟨hy, hz⟩ := depth_le_placeBehind ⟨y.index, y.inside⟩ z
  refine ⟨y.depth, hy, z.depth, hz, y.item, yields_iff_exists_occurrence.2 ⟨y, rfl, rfl⟩, ?_⟩
  exact yields_iff_exists_occurrence.2 ⟨z, rfl, (item_placeBehind _ z).symm⟩

/-- Whatever an item of the source is expanded to is found. -/
theorem exists_yields_bind {i j : ℕ} {y : α} (hy : s.Yields rules i y)
    (h : (rules.expand continuation y).value.Yields rules j x) :
    ∃ k, (s.bind rules continuation).value.Yields rules k x := by
  obtain ⟨y, -, rfl⟩ := yields_iff_exists_occurrence.1 hy
  obtain ⟨z, -, rfl⟩ := yields_iff_exists_occurrence.1 h
  rw [value_bind]
  exact ⟨_, yields_iff_exists_occurrence.2 ⟨bindPlace continuation y z, rfl, item_placeBehind _ z⟩⟩

/-- Streams that have ended are put one behind the other. -/
theorem mergeAll_of_ended (hf : ∀ x ∈ xs, (f x).rest = none) :
    mergeAll f empty xs = ofList (xs.flatMap fun x => (f x).heads) := by
  induction xs with
  | nil => rfl
  | cons x xs ih =>
    obtain ⟨hx, hxs⟩ := List.forall_mem_cons.1 hf
    have hrest : mergeAll f empty (x :: xs) = (f x).merge (mergeAll f empty xs) := rfl
    rw [hrest, ih hxs]
    apply ext
    · rw [heads_merge_of_ended _ hx, heads_ofList, heads_ofList]
      rfl
    · rw [rest_merge_of_ended _ hx, rest_ofList, rest_ofList]

/-- **Binding yields every combination exactly once**, whether the streams end or not: the items of
the bound stream stand for the pairs of an item of the source and an item of what that one is
expanded to, and what comes of one item of the source keeps its order.  If nothing suspends, all
that the items are expanded to is put one behind the other. -/
theorem bind_yields_pairs (rules : Rules ι κ ε α) (s : Stream ι κ α) (continuation : κ) :
    (∃ place : (Σ x : Occurrence rules s,
        Occurrence rules (rules.expand continuation x.item).value) ≃
          Occurrence rules (s.bind rules continuation).value,
      (∀ z, (place z).item = z.2.item) ∧ ∀ x, StrictMono fun y => place ⟨x, y⟩) ∧
    (s.rest = none → (∀ x ∈ s.heads, (rules.expand continuation x).value.rest = none) →
      (s.bind rules continuation).value =
        ofList (s.heads.flatMap fun x => (rules.expand continuation x).value.heads)) := by
  rw [value_bind]
  constructor
  · refine ⟨.ofBijective _ ⟨bindPlace_injective, bindPlace_surjective⟩, fun z => ?_, fun x => ?_⟩
    · exact item_placeBehind _ z.2
    · exact strictMono_placeBehind _
  · intro hs hf
    rw [bound, bindRest, hs]
    exact mergeAll_of_ended hf

/-- Three items, each expanded to two of which the second one is ten times the first. -/
theorem bind_yields_pairs_three :
    let rules : Rules ℕ Unit Unit ℕ :=
      ⟨fun n => .silent (ofList [n]), fun _ x => .silent (ofList [x, 10 * x])⟩
    ((ofList [1, 2, 3]).bind rules ()).value = ofList [1, 10, 2, 20, 3, 30] := by
  intro rules
  obtain ⟨-, hconcat⟩ := bind_yields_pairs rules (ofList [1, 2, 3]) ()
  exact hconcat rfl fun x _ => rfl

end Stream

end Relational
