import Mathlib.Data.ENat.Lattice
import Mathlib.Order.CompleteBooleanAlgebra
import Mathlib.Order.CompletePartialOrder
import Relational.Proofs.Stream.Interleaving

/-!
# The schedule of a merged stream

Two streams that are merged take turns, so it can be said of every item and of every suspension of
the two when its turn is: the number of suspensions that are forced before it depends on its own
depth and on how many suspensions the other stream has (`merge_takesTurns`).  A stream may have
infinitely many suspensions, so their number is a number with infinity (`suspensions`).
-/

namespace Relational

namespace Stream

variable {ι κ ε α : Type} {rules : Rules ι κ ε α} {a b s : Stream ι κ α} {k : ℕ}

/-- To force `q` is to force `p`, and perhaps to merge what comes of it behind another stream. -/
def TurnOf (p q : Suspension ι κ α) : Prop := q = p ∨ ∃ other, q = .swap other p

/-! ### The number of suspensions -/

/-- The number of suspensions of a stream; infinite if it never ends. -/
noncomputable def suspensions (rules : Rules ι κ ε α) (s : Stream ι κ α) : ℕ∞ :=
  ⨆ k, (s.forced rules k : ℕ∞)

theorem suspensions_of_ended (h : s.rest.isNone) : s.suspensions rules = 0 := by
  have hforced : ∀ k, s.forced rules k = 0 := by
    intro k
    cases k with
    | zero => rfl
    | succ k => rw [forced, if_pos h]
  simp [suspensions, hforced]

theorem suspensions_of_suspended (h : ¬ s.rest.isNone) :
    s.suspensions rules = (s.behind rules).suspensions rules + 1 := by
  have hforced : ∀ k, s.forced rules (k + 1) = (s.behind rules).forced rules k + 1 := by
    intro k
    rw [forced, if_neg h]
  rw [suspensions, suspensions, ENat.iSup_add]
  apply le_antisymm
  · refine iSup_le fun k => ?_
    cases k with
    | zero => exact zero_le
    | succ k =>
      rw [hforced, Nat.cast_succ]
      exact le_iSup (fun k => ((s.behind rules).forced rules k : ℕ∞) + 1) k
  · refine iSup_le fun k => ?_
    rw [← Nat.cast_succ, Nat.succ_eq_add_one, ← hforced]
    exact le_iSup (fun k => (s.forced rules k : ℕ∞)) (k + 1)

/-- Forcing `k` times forces `k` suspensions, or all there are. -/
theorem forced_eq_min (rules : Rules ι κ ε α) (s : Stream ι κ α) (k : ℕ) :
    (s.forced rules k : ℕ∞) = min ↑k (s.suspensions rules) := by
  induction k generalizing s with
  | zero => simp [forced]
  | succ k ih =>
    rw [forced]
    split_ifs with h
    · rw [suspensions_of_ended h, Nat.cast_zero, min_zero]
    · rw [suspensions_of_suspended h, Nat.cast_succ, Nat.cast_succ, ih, min_add_add_right]

theorem suspensions_merge_of_ended (ha : a.rest.isNone) :
    (a.merge b).suspensions rules = b.suspensions rules := by
  have hrest : (a.merge b).rest = b.rest :=
    rest_merge_of_ended b (Option.isNone_iff_eq_none.1 ha)
  have hbehind : (a.merge b).behind rules = b.behind rules := by rw [behind_merge, if_pos ha]
  have hforced : ∀ k, (a.merge b).forced rules k = b.forced rules k := by
    intro k
    cases k with
    | zero => rfl
    | succ k => rw [forced, forced, hrest, hbehind]
  simp only [suspensions, hforced]

theorem suspensions_merge_of_suspended (ha : ¬ a.rest.isNone) :
    (a.merge b).suspensions rules = (b.merge (a.behind rules)).suspensions rules + 1 := by
  have hrest : ¬ (a.merge b).rest.isNone := by
    obtain ⟨p, hp⟩ := Option.isSome_iff_exists.1 (Option.isSome_iff_ne_none.2 (by simpa using ha))
    simp [rest_merge_of_suspended b hp]
  rw [suspensions_of_suspended hrest, behind_merge, if_neg ha]

/-- No suspension is lost and none is added. -/
theorem suspensions_merge (rules : Rules ι κ ε α) (a b : Stream ι κ α) :
    (a.merge b).suspensions rules = a.suspensions rules + b.suspensions rules := by
  refine ENat.eq_of_forall_natCast_le_iff fun n => ?_
  -- by the number of suspensions asked for; the streams change places at each of them
  induction n generalizing a b with
  | zero => simp
  | succ n ih =>
    by_cases ha : a.rest.isNone
    · rw [suspensions_merge_of_ended ha, suspensions_of_ended ha, zero_add]
    · have hsum : a.suspensions rules + b.suspensions rules =
          b.suspensions rules + (a.behind rules).suspensions rules + 1 := by
        rw [suspensions_of_suspended ha]
        ring
      rw [suspensions_merge_of_suspended ha, hsum, Nat.cast_succ]
      rw [ENat.add_le_add_iff_right ENat.one_ne_top, ENat.add_le_add_iff_right ENat.one_ne_top, ih]

/-! ### The turns of the suspensions -/

variable (rules) in
/-- A suspension of the stream in front is forced when as many suspensions of the other one have
been. -/
def TurnsInFront (k : ℕ) : Prop :=
  ∀ (a b : Stream ι κ α) (p : Suspension ι κ α), (a.after rules k).rest = some p →
    ∃ q, ((a.merge b).after rules (k + b.forced rules k)).rest = some q ∧ TurnOf p q

/-- One of the other stream waits for one suspension more, unless the stream in front has ended. -/
theorem TurnsInFront.exists_turn_behind (h : TurnsInFront rules k) (a b : Stream ι κ α)
    {p : Suspension ι κ α} (hp : (b.after rules k).rest = some p) :
    ∃ q, ((a.merge b).after rules (k + a.forced rules (k + 1))).rest = some q ∧ TurnOf p q := by
  by_cases ha : a.rest.isNone
  · refine ⟨p, ?_, .inl rfl⟩
    rw [forced, if_pos ha, Nat.add_zero]
    cases k with
    | zero => rwa [after, rest_merge_of_ended b (Option.isNone_iff_eq_none.1 ha)]
    | succ k => rwa [after_merge_of_ended rules ha]
  · obtain ⟨q, hq, hturn⟩ := h b (a.behind rules) p hp
    refine ⟨q, ?_, hturn⟩
    rwa [forced, if_neg ha, ← Nat.add_assoc, after_merge_of_suspended rules ha]

theorem turnsInFront (rules : Rules ι κ ε α) (k : ℕ) : TurnsInFront rules k := by
  induction k with
  | zero =>
    intro a b p hp
    rw [after] at hp
    exact ⟨.swap b p, rest_merge_of_suspended b hp, .inr ⟨b, rfl⟩⟩
  | succ k ih =>
    intro a b p hp
    -- a stream that has ended has no suspension at this depth
    have ha : ¬ a.rest.isNone := by
      intro ha
      rw [after, behind_of_ended (Option.isNone_iff_eq_none.1 ha), after_empty] at hp
      cases hp
    obtain ⟨q, hq, hturn⟩ := ih.exists_turn_behind b (a.behind rules) hp
    refine ⟨q, ?_, hturn⟩
    rwa [Nat.add_right_comm, after_merge_of_suspended rules ha]

/-! ### The schedule -/

/-- The streams `a` and `b` take turns in the stream `s`, and `a` goes first. -/
structure TakesTurns (rules : Rules ι κ ε α) (a b s : Stream ι κ α) : Prop where
  /-- Every item of either stream has its place in `s`, all places are different, none is left, the
  items of one stream keep their order, and it is known when their turn is. -/
  items : ∃ place : Occurrence rules a ⊕ Occurrence rules b ≃ Occurrence rules s,
    (∀ z, (place z).item = z.elim Occurrence.item Occurrence.item) ∧
    StrictMono (fun x => place (.inl x)) ∧ StrictMono (fun y => place (.inr y)) ∧
    (∀ x, ((place (.inl x)).depth : ℕ∞) = x.depth + min ↑x.depth (b.suspensions rules)) ∧
    ∀ y, ((place (.inr y)).depth : ℕ∞) = y.depth + min ((y.depth : ℕ∞) + 1) (a.suspensions rules)
  suspensions_eq : s.suspensions rules = a.suspensions rules + b.suspensions rules
  /-- No suspension is forced before its turn. -/
  turn_left : ∀ k p, (a.after rules k).rest = some p → ∃ (j : ℕ) (q : Suspension ι κ α),
    (j : ℕ∞) = k + min ↑k (b.suspensions rules) ∧ (s.after rules j).rest = some q ∧ TurnOf p q
  turn_right : ∀ k p, (b.after rules k).rest = some p → ∃ (j : ℕ) (q : Suspension ι κ α),
    (j : ℕ∞) = k + min ((k : ℕ∞) + 1) (a.suspensions rules) ∧ (s.after rules j).rest = some q ∧
      TurnOf p q

/-- **Two streams that are merged take turns**, be they finite or infinite.  The merged stream is
made before anything is known of what the suspensions will yield, and all of them are still there
to be forced. -/
theorem merge_takesTurns (rules : Rules ι κ ε α) (a b : Stream ι κ α) :
    TakesTurns rules a b (a.merge b) where
  items := by
    refine ⟨mergePlace a b, item_mergePlace, strictMono_mergePlace.comp Sum.inl_strictMono,
      strictMono_mergePlace.comp Sum.inr_strictMono, fun x => ?_, fun y => ?_⟩
    · rw [depth_mergePlace_inl, Nat.cast_add, forced_eq_min]
    · rw [depth_mergePlace_inr, Nat.cast_add, forced_eq_min, Nat.cast_succ]
  suspensions_eq := suspensions_merge rules a b
  turn_left := by
    intro k p hp
    obtain ⟨q, hq, hturn⟩ := turnsInFront rules k a b p hp
    exact ⟨_, q, by rw [Nat.cast_add, forced_eq_min], hq, hturn⟩
  turn_right := by
    intro k p hp
    obtain ⟨q, hq, hturn⟩ := (turnsInFront rules k).exists_turn_behind a b hp
    exact ⟨_, q, by rw [Nat.cast_add, forced_eq_min, Nat.cast_succ], hq, hturn⟩

end Stream

end Relational
