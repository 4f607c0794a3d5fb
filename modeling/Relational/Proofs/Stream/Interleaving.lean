import Mathlib.Data.Sum.Order
import Mathlib.Logic.Equiv.Basic
import Mathlib.Tactic.Positivity
import Mathlib.Tactic.Ring
import Relational.Proofs.Stream.Occurrences

/-!
# Interleaving

The items of a merged stream are those of the two streams, each of them once and in the order they
had, whether the streams end or not (`mergePlace`, `item_mergePlace`, `strictMono_mergePlace`).
While neither has ended, the two take turns: an item behind `k` suspensions of the first stream
waits for `k` suspensions of the second one, an item of the second stream for `k + 1` of the first,
or for all of them if there are fewer (`depth_mergePlace_inl`, `depth_mergePlace_inr`).

The same goes for any number of streams that are merged one with the rest (`Interleaving`).
-/

namespace Relational

namespace Stream

variable {ι κ ε α : Type} {rules : Rules ι κ ε α} {a b s : Stream ι κ α} {k : ℕ} {x : α}

/-! ### Where an item of a merged stream comes from -/

variable (rules) in
theorem after_merge_of_ended (ha : a.rest.isNone) :
    (a.merge b).after rules (k + 1) = b.after rules (k + 1) := by
  rw [after, behind_merge, if_pos ha, after]

variable (rules) in
theorem after_merge_of_suspended (ha : ¬ a.rest.isNone) :
    (a.merge b).after rules (k + 1) = (b.merge (a.behind rules)).after rules k := by
  rw [after, behind_merge, if_neg ha]

theorem ended_of_le_of_lt_heads {j : ℕ} (hj : j < (a.merge b).heads.length)
    (ha : a.heads.length ≤ j) : a.rest.isNone ∧ j - a.heads.length < b.heads.length := by
  rw [heads_merge, List.length_append] at hj
  split_ifs at hj with hended
  · exact ⟨hended, by omega⟩
  · rw [List.length_nil] at hj
    omega

/-- An item of one of two streams that have changed places, seen from in front of the suspension. -/
def swapBack : Occurrence rules b ⊕ Occurrence rules (a.behind rules) →
    Occurrence rules a ⊕ Occurrence rules b
  | .inl y => .inr y
  | .inr x => .inl x.later

theorem swapBack_le_swapBack {z z' : Occurrence rules b ⊕ Occurrence rules (a.behind rules)} :
    swapBack z ≤ swapBack z' ↔ z ≤ z' := by
  cases z <;> cases z' <;> simp [swapBack, Occurrence.later_le_later]

theorem item_swapBack (z : Occurrence rules b ⊕ Occurrence rules (a.behind rules)) :
    (swapBack z).elim Occurrence.item Occurrence.item = z.elim Occurrence.item Occurrence.item := by
  cases z <;> rfl

/-- Where an item of a merged stream stands in the stream that it comes from. -/
def origin {a b : Stream ι κ α} :
    Occurrence rules (a.merge b) → Occurrence rules a ⊕ Occurrence rules b
  | ⟨0, j, hj⟩ =>
    if ha : j < a.heads.length then .inl ⟨0, j, ha⟩
    else .inr ⟨0, j - a.heads.length, (ended_of_le_of_lt_heads hj (not_lt.1 ha)).2⟩
  | ⟨k + 1, j, hj⟩ =>
    if ha : a.rest.isNone then .inr ⟨k + 1, j, after_merge_of_ended rules ha ▸ hj⟩
    -- the streams have changed places
    else swapBack (origin ⟨k, j, after_merge_of_suspended rules ha ▸ hj⟩)
  termination_by o => o.depth

/-- An item that is yielded when the streams have changed places, seen from in front of the
suspension. -/
def Occurrence.swapped (ha : ¬ a.rest.isNone) (o : Occurrence rules (b.merge (a.behind rules))) :
    Occurrence rules (a.merge b) :=
  ⟨o.depth + 1, o.index, after_merge_of_suspended rules ha ▸ o.inside⟩

@[simp]
theorem Occurrence.depth_swapped (ha : ¬ a.rest.isNone)
    (o : Occurrence rules (b.merge (a.behind rules))) : (o.swapped ha).depth = o.depth + 1 := rfl

theorem origin_swapped (ha : ¬ a.rest.isNone) (o : Occurrence rules (b.merge (a.behind rules))) :
    origin (o.swapped ha) = swapBack (origin o) := by
  rw [Occurrence.swapped, origin, dif_neg ha]

/-- Past the end of `a` there are the items of `b`. -/
theorem exists_origin_of_ended (ha : a.rest.isNone) (y : Occurrence rules b) :
    ∃ o : Occurrence rules (a.merge b), origin o = .inr y ∧ o.depth = y.depth := by
  obtain ⟨d, i, hi⟩ := y
  cases d with
  | zero =>
    have hinside : a.heads.length + i < ((a.merge b).after rules 0).heads.length := by
      rw [after, heads_merge, if_pos ha, List.length_append]
      exact Nat.add_lt_add_left hi _
    refine ⟨⟨0, a.heads.length + i, hinside⟩, ?_, rfl⟩
    rw [origin, dif_neg (Nat.not_lt.2 (Nat.le_add_right _ i))]
    simp
  | succ d =>
    refine ⟨⟨d + 1, i, (after_merge_of_ended rules ha).symm ▸ hi⟩, ?_, rfl⟩
    rw [origin, dif_pos ha]

variable (rules) in
/-- No item behind `d` suspensions of the stream in front is lost, and it waits for as many
suspensions of the other stream. -/
def KeepsFront (d : ℕ) : Prop :=
  ∀ (a b : Stream ι κ α) (x : Occurrence rules a), x.depth = d →
    ∃ o : Occurrence rules (a.merge b), origin o = .inl x ∧ o.depth = d + b.forced rules d

/-- Nor is one of the other stream, which is the stream in front as soon as the two have changed
places. -/
theorem KeepsFront.exists_origin_inr {d : ℕ} (h : KeepsFront rules d) (a b : Stream ι κ α)
    (y : Occurrence rules b) (hy : y.depth = d) :
    ∃ o : Occurrence rules (a.merge b), origin o = .inr y ∧
      o.depth = d + a.forced rules (d + 1) := by
  by_cases ha : a.rest.isNone
  · obtain ⟨o, ho, hdepth⟩ := exists_origin_of_ended ha y
    refine ⟨o, ho, ?_⟩
    rw [hdepth, hy, forced, if_pos ha, Nat.add_zero]
  · obtain ⟨o, ho, hdepth⟩ := h b (a.behind rules) y hy
    refine ⟨o.swapped ha, ?_, ?_⟩
    · rw [origin_swapped, ho]
      rfl
    · rw [Occurrence.depth_swapped, hdepth, forced, if_neg ha, Nat.add_assoc]

theorem keepsFront (rules : Rules ι κ ε α) (d : ℕ) : KeepsFront rules d := by
  induction d with
  | zero =>
    rintro a b ⟨_, i, hi⟩ rfl
    have hinside : i < ((a.merge b).after rules 0).heads.length := by
      rw [after, heads_merge, List.length_append]
      exact Nat.lt_add_right _ hi
    refine ⟨⟨0, i, hinside⟩, ?_, rfl⟩
    rw [origin]
    exact dif_pos hi
  | succ d ih =>
    rintro a b ⟨_, i, hi⟩ rfl
    -- a stream that has ended has nothing at this depth
    have ha : ¬ a.rest.isNone := by
      intro ha
      rw [after, behind_of_ended (Option.isNone_iff_eq_none.1 ha), after_empty] at hi
      exact Nat.not_lt_zero i hi
    obtain ⟨o, ho, hdepth⟩ := ih.exists_origin_inr b (a.behind rules) ⟨d, i, hi⟩ rfl
    refine ⟨o.swapped ha, ?_, ?_⟩
    · rw [origin_swapped, ho]
      rfl
    · rw [Occurrence.depth_swapped, hdepth, Nat.add_right_comm]

/-- The items of either stream keep their order. -/
theorem not_origin_le_origin {o o' : Occurrence rules (a.merge b)} (h : o < o') :
    ¬ origin o' ≤ origin o := by
  have hinl : ∀ {a b : Stream ι κ α} {x x' : Occurrence rules a}, x < x' →
      ¬ (.inl x' : Occurrence rules a ⊕ Occurrence rules b) ≤ .inl x :=
    fun h => Sum.inl_le_inl_iff.not.2 (not_le.2 h)
  have hinr : ∀ {a b : Stream ι κ α} {y y' : Occurrence rules b}, y < y' →
      ¬ (.inr y' : Occurrence rules a ⊕ Occurrence rules b) ≤ .inr y :=
    fun h => Sum.inr_le_inr_iff.not.2 (not_le.2 h)
  obtain ⟨k, j, hj⟩ := o
  obtain ⟨k', j', hj'⟩ := o'
  rw [Occurrence.lt_iff] at h
  induction k generalizing a b k' with
  | zero =>
    cases k' with
    | zero =>
      -- the heads of `a` stand in front of those of `b`
      have hlt : j < j' := by simpa using h
      rw [origin, origin]
      split_ifs with hfront' hfront
      · exact hinl (Occurrence.lt_iff.2 (.inr ⟨rfl, hlt⟩))
      · exact absurd (hlt.trans hfront') hfront
      · exact Sum.not_inr_le_inl
      · exact hinr (Occurrence.lt_iff.2 (.inr ⟨rfl, by dsimp only; omega⟩))
    | succ k' =>
      -- a head of `b` is there without a suspension only if `a` has ended
      rw [origin, origin]
      split_ifs with ha hfront hfront
      · exact Sum.not_inr_le_inl
      · exact hinr (Occurrence.lt_iff.2 (.inl (Nat.succ_pos k')))
      · cases origin ⟨k', j', after_merge_of_suspended rules ha ▸ hj'⟩ with
        | inl y => exact Sum.not_inr_le_inl
        | inr x => exact hinl (Occurrence.lt_iff.2 (.inl (Nat.succ_pos _)))
      · exact absurd (ended_of_le_of_lt_heads hj (not_lt.1 hfront)).1 ha
  | succ k ih =>
    cases k' with
    | zero => simp at h
    | succ k' =>
      rw [origin, origin]
      split_ifs with ha
      · exact hinr (Occurrence.lt_iff.2 h)
      · exact swapBack_le_swapBack.not.2 (ih _ _ _ (by simpa using h))

/-- What stands there is the item that stood where it comes from. -/
theorem item_origin (o : Occurrence rules (a.merge b)) :
    (origin o).elim Occurrence.item Occurrence.item = o.item := by
  obtain ⟨k, j, hj⟩ := o
  induction k generalizing a b with
  | zero =>
    rw [origin]
    split_ifs with hfront
    · refine Occurrence.item_congr ?_
      change a.heads[j]? = (a.merge b).heads[j]?
      rw [heads_merge, List.getElem?_append_left hfront]
    · have ha := (ended_of_le_of_lt_heads hj (not_lt.1 hfront)).1
      refine Occurrence.item_congr ?_
      change b.heads[j - a.heads.length]? = (a.merge b).heads[j]?
      rw [heads_merge, if_pos ha, List.getElem?_append_right (not_lt.1 hfront)]
  | succ k ih =>
    rw [origin]
    split_ifs with ha
    · refine Occurrence.item_congr ?_
      dsimp only
      rw [after_merge_of_ended rules ha]
    · rw [item_swapBack, ih]
      refine Occurrence.item_congr ?_
      dsimp only
      rw [after_merge_of_suspended rules ha]

/-! ### The places in a merged stream -/

theorem origin_bijective : Function.Bijective
    (origin : Occurrence rules (a.merge b) → Occurrence rules a ⊕ Occurrence rules b) := by
  refine ⟨fun o o' h => ?_, fun z => ?_⟩
  · by_contra hne
    obtain hlt | hlt := lt_or_gt_of_ne hne
    · exact not_origin_le_origin hlt h.ge
    · exact not_origin_le_origin hlt h.le
  · cases z with
    | inl x =>
      obtain ⟨o, ho, -⟩ := keepsFront rules x.depth a b x rfl
      exact ⟨o, ho⟩
    | inr y =>
      obtain ⟨o, ho, -⟩ := (keepsFront rules y.depth).exists_origin_inr a b y rfl
      exact ⟨o, ho⟩

/-- Where the items of two streams stand when the streams are merged. -/
noncomputable def mergePlace (a b : Stream ι κ α) :
    Occurrence rules a ⊕ Occurrence rules b ≃ Occurrence rules (a.merge b) :=
  (Equiv.ofBijective origin origin_bijective).symm

theorem mergePlace_eq_iff {z : Occurrence rules a ⊕ Occurrence rules b}
    {o : Occurrence rules (a.merge b)} : mergePlace a b z = o ↔ origin o = z := by
  rw [mergePlace, Equiv.symm_apply_eq, Equiv.ofBijective_apply, eq_comm]

theorem origin_mergePlace (z : Occurrence rules a ⊕ Occurrence rules b) :
    origin (mergePlace a b z) = z :=
  mergePlace_eq_iff.1 rfl

theorem item_mergePlace (z : Occurrence rules a ⊕ Occurrence rules b) :
    (mergePlace a b z).item = z.elim Occurrence.item Occurrence.item := by
  rw [← item_origin, origin_mergePlace]

theorem strictMono_mergePlace :
    StrictMono (mergePlace a b : Occurrence rules a ⊕ Occurrence rules b → _) := by
  intro z z' h
  by_contra hnot
  obtain heq | hlt := (not_lt.1 hnot).eq_or_lt
  · exact h.ne' ((mergePlace a b).injective heq)
  · have hle := not_origin_le_origin hlt
    rw [origin_mergePlace, origin_mergePlace] at hle
    exact hle h.le

theorem depth_mergePlace_inl (x : Occurrence rules a) :
    (mergePlace a b (.inl x)).depth = x.depth + b.forced rules x.depth := by
  obtain ⟨o, ho, hdepth⟩ := keepsFront rules x.depth a b x rfl
  rw [mergePlace_eq_iff.2 ho, hdepth]

theorem depth_mergePlace_inr (y : Occurrence rules b) :
    (mergePlace a b (.inr y)).depth = y.depth + a.forced rules (y.depth + 1) := by
  obtain ⟨o, ho, hdepth⟩ := (keepsFront rules y.depth).exists_origin_inr a b y rfl
  rw [mergePlace_eq_iff.2 ho, hdepth]

/-- An item of the merged stream is an item of one of the two, and at most as deep there. -/
theorem yields_merge (h : (a.merge b).Yields rules k x) :
    ∃ j ≤ k, a.Yields rules j x ∨ b.Yields rules j x := by
  obtain ⟨o, rfl, rfl⟩ := yields_iff_exists_occurrence.1 h
  obtain ⟨z, rfl⟩ := (mergePlace a b).surjective o
  rw [item_mergePlace]
  cases z with
  | inl y =>
    refine ⟨y.depth, ?_, .inl (yields_iff_exists_occurrence.2 ⟨y, rfl, rfl⟩)⟩
    rw [depth_mergePlace_inl]
    exact Nat.le_add_right _ _
  | inr y =>
    refine ⟨y.depth, ?_, .inr (yields_iff_exists_occurrence.2 ⟨y, rfl, rfl⟩)⟩
    rw [depth_mergePlace_inr]
    exact Nat.le_add_right _ _

/-- Whichever stream an item comes from, its turn comes. -/
theorem exists_yields_merge_left (b : Stream ι κ α) (h : a.Yields rules k x) :
    ∃ j, (a.merge b).Yields rules j x := by
  obtain ⟨y, rfl, rfl⟩ := yields_iff_exists_occurrence.1 h
  exact ⟨_, yields_iff_exists_occurrence.2 ⟨mergePlace a b (.inl y), rfl, item_mergePlace _⟩⟩

theorem exists_yields_merge_right (a : Stream ι κ α) (h : b.Yields rules k x) :
    ∃ j, (a.merge b).Yields rules j x := by
  obtain ⟨y, rfl, rfl⟩ := yields_iff_exists_occurrence.1 h
  exact ⟨_, yields_iff_exists_occurrence.2 ⟨mergePlace a b (.inr y), rfl, item_mergePlace _⟩⟩

/-! ### Any number of streams -/

/-- The items of `s` are those of the streams `parts`: every item of each of them has its place in
`s`, all places are different, none is left, and the items of one stream stand in the order they
had. -/
structure Interleaving (rules : Rules ι κ ε α) {n : ℕ} (parts : Fin n → Stream ι κ α)
    (s : Stream ι κ α) where
  place : ∀ i, Occurrence rules (parts i) → Occurrence rules s
  item_place : ∀ i o, (place i o).item = o.item
  bijective : Function.Bijective fun o : Σ i, Occurrence rules (parts i) => place o.1 o.2
  strictMono : ∀ i, StrictMono (place i)

namespace Interleaving

/-- No streams have no items. -/
def none (parts : Fin 0 → Stream ι κ α) : Interleaving rules parts empty where
  place := fun i => i.elim0
  item_place := fun i => i.elim0
  bijective := by
    refine ⟨fun o => o.1.elim0, fun o => ?_⟩
    have hinside := o.inside
    rw [after_empty] at hinside
    exact absurd hinside (Nat.not_lt_zero _)
  strictMono := fun i => i.elim0

/-- One stream has its own items. -/
def one (parts : Fin 1 → Stream ι κ α) : Interleaving rules parts (parts 0) where
  place := Fin.cases id fun i => i.elim0
  item_place := Fin.cases (fun _ => rfl) fun i => i.elim0
  bijective := by
    refine ⟨?_, fun o => ⟨⟨0, o⟩, rfl⟩⟩
    rintro ⟨i, x⟩ ⟨j, y⟩ h
    obtain rfl : i = 0 := Subsingleton.elim _ _
    obtain rfl : j = 0 := Subsingleton.elim _ _
    obtain rfl : x = y := h
    rfl
  strictMono := Fin.cases strictMono_id fun i => i.elim0

/-- One more stream is merged in front. -/
noncomputable def merge {n : ℕ} {parts : Fin (n + 1) → Stream ι κ α}
    (w : Interleaving rules (fun i => parts i.succ) s) :
    Interleaving rules parts ((parts 0).merge s) where
  place := Fin.cases (fun x => mergePlace _ _ (.inl x))
    fun i y => mergePlace _ _ (.inr (w.place i y))
  item_place := by
    refine Fin.cases (fun x => item_mergePlace _) fun i y => ?_
    exact (item_mergePlace _).trans (w.item_place i y)
  bijective := by
    constructor
    · rintro ⟨i, x⟩ ⟨j, y⟩ h
      cases i using Fin.cases with
      | zero =>
        cases j using Fin.cases with
        | zero =>
          obtain rfl := Sum.inl.inj ((mergePlace _ _).injective h)
          rfl
        | succ j => cases (mergePlace _ _).injective h
      | succ i =>
        cases j using Fin.cases with
        | zero => cases (mergePlace _ _).injective h
        | succ j =>
          have hplace : w.place i x = w.place j y := Sum.inr.inj ((mergePlace _ _).injective h)
          have hsame : (⟨i, x⟩ : Σ i : Fin n, Occurrence rules (parts i.succ)) = ⟨j, y⟩ :=
            w.bijective.1 hplace
          cases hsame
          rfl
    · intro o
      obtain ⟨x | y, rfl⟩ := (mergePlace _ _).surjective o
      · exact ⟨⟨0, x⟩, rfl⟩
      · obtain ⟨⟨i, y⟩, rfl⟩ := w.bijective.2 y
        exact ⟨⟨i.succ, y⟩, rfl⟩
  strictMono := by
    refine Fin.cases (strictMono_mergePlace.comp Sum.inl_strictMono) fun i => ?_
    exact strictMono_mergePlace.comp (Sum.inr_strictMono.comp (w.strictMono i))

/-- An item waits for no more suspensions than its own depth and the number of its stream say,
whatever the other streams do. -/
def Fair {n : ℕ} {parts : Fin n → Stream ι κ α} (w : Interleaving rules parts s) : Prop :=
  ∀ (i : Fin n) (o : Occurrence rules (parts i)),
    (w.place i o).depth ≤ 2 ^ (i : ℕ) * (2 * o.depth + 1) - 1

theorem fair_none (parts : Fin 0 → Stream ι κ α) : (none parts : Interleaving rules _ _).Fair :=
  fun i => i.elim0

theorem fair_one (parts : Fin 1 → Stream ι κ α) : (one parts : Interleaving rules _ _).Fair := by
  refine Fin.cases (fun o => ?_) fun i => i.elim0
  change o.depth ≤ 2 ^ 0 * (2 * o.depth + 1) - 1
  omega

/-- The bound for an item of the next stream. -/
theorem bound_succ (i k : ℕ) :
    2 ^ (i + 1) * (2 * k + 1) - 1 = 2 * (2 ^ i * (2 * k + 1) - 1) + 1 := by
  have hpow : 2 ^ (i + 1) * (2 * k + 1) = 2 * (2 ^ i * (2 * k + 1)) := by ring
  have hpos : 0 < 2 ^ i * (2 * k + 1) := by positivity
  omega

/-- The bound doubles with every stream in front: while an item of the others waits for one
suspension of theirs, one of that stream is forced. -/
theorem Fair.merge {n : ℕ} {parts : Fin (n + 1) → Stream ι κ α}
    {w : Interleaving rules (fun i => parts i.succ) s} (hw : w.Fair) : w.merge.Fair := by
  refine Fin.cases (fun o => ?_) fun i o => ?_
  · have hforced := forced_le rules s o.depth
    calc (w.merge.place 0 o).depth
        = o.depth + s.forced rules o.depth := depth_mergePlace_inl o
      _ ≤ 2 ^ 0 * (2 * o.depth + 1) - 1 := by omega
  · have hforced := forced_le rules (parts 0) ((w.place i o).depth + 1)
    have hplace := hw i o
    calc (w.merge.place i.succ o).depth
        = (w.place i o).depth + (parts 0).forced rules ((w.place i o).depth + 1) :=
          depth_mergePlace_inr (w.place i o)
      _ ≤ 2 * (2 ^ (i : ℕ) * (2 * o.depth + 1) - 1) + 1 := by omega
      _ = 2 ^ (i.succ : ℕ) * (2 * o.depth + 1) - 1 := (bound_succ i o.depth).symm

end Interleaving

end Stream

end Relational
