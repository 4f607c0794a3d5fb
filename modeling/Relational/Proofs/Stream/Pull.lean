import Relational.Proofs.Stream.Limit
import Relational.Stream.Pull

/-!
# Pulling from a stream

`s.Ahead rules k` says that the next item of a stream, or its end, is `k` suspensions away.  A pull
with a limit of at least `k` forces just these, and stands in front of the item or the end
(`realize_eq`, `pull_of_ahead`); with a lower limit it forces as many as it may, and what it leaves
is what is behind them (`pull_of_suspended`).

`s.Iterates rules found` says what an iterator without a limit gives, as far as it gets: the items
one by one, and nothing more once the stream has ended.
-/

namespace Relational

namespace Stream

variable {ι κ ε α : Type} {rules : Rules ι κ ε α} {s : Stream ι κ α} {i j k limit : ℕ} {x : α}

/-- The next item, or the end, is behind exactly `k` suspensions. -/
def Ahead (rules : Rules ι κ ε α) (s : Stream ι κ α) (k : ℕ) : Prop :=
  (∀ i < k, (s.after rules i).isSuspended) ∧ (s.after rules k).isSuspended = false

/-- What is reported while `k` suspensions are forced. -/
def reports (rules : Rules ι κ ε α) : ℕ → Stream ι κ α → Array ε
  | 0, _ => #[]
  | k + 1, s =>
    match s.rest with
    | none => #[]
    | some p => (p.force rules).events ++ reports rules k (s.behind rules)

/-- Force `k` suspensions, whatever items stand in front of them. -/
def advance (rules : Rules ι κ ε α) (k : ℕ) (s : Stream ι κ α) : Logged ε (Stream ι κ α) :=
  ⟨s.after rules k, s.reports rules k⟩

/-- The first results of an iterator that goes on until there is an item or the end. -/
inductive Iterates (rules : Rules ι κ ε α) : Stream ι κ α → List (Option α) → Prop
  | nil (s : Stream ι κ α) : Iterates rules s []
  | item {x : α} {s : Stream ι κ α} {found : List (Option α)} :
      Iterates rules s found → Iterates rules (cons x s) (some x :: found)
  | ended {found : List (Option α)} :
      Iterates rules empty found → Iterates rules empty (none :: found)
  | force {p : Suspension ι κ α} {found : List (Option α)} :
      Iterates rules (p.force rules).value found → Iterates rules (suspend p) found

theorem isSuspended_iff : s.isSuspended ↔ ∃ p, s = suspend p := by
  cases s <;> simp [isSuspended]

theorem after_add (j k : ℕ) (s : Stream ι κ α) :
    s.after rules (j + k) = (s.after rules j).after rules k := by
  induction j generalizing s with
  | zero => rw [Nat.zero_add]; rfl
  | succ j ih => rw [Nat.succ_add]; exact ih _

theorem reports_of_ended (h : s.rest = none) (k : ℕ) : s.reports rules k = #[] := by
  cases k with
  | zero => rfl
  | succ k => rw [reports, h]

theorem reports_of_suspended {p : Suspension ι κ α} (h : s.rest = some p) (k : ℕ) :
    s.reports rules (k + 1) = (p.force rules).events ++ (s.behind rules).reports rules k := by
  rw [reports, h]

theorem reports_add (j k : ℕ) (s : Stream ι κ α) :
    s.reports rules (j + k) = s.reports rules j ++ (s.after rules j).reports rules k := by
  induction j generalizing s with
  | zero => rw [Nat.zero_add, reports, Array.empty_append]; rfl
  | succ j ih =>
    rw [Nat.succ_add, reports, reports, after]
    cases hs : s.rest with
    | none =>
      have hend : (s.behind rules).after rules j = empty := by
        rw [behind_of_ended hs, after_empty]
      rw [hend]
      cases k <;> rfl
    | some p =>
      dsimp only
      rw [ih, Array.append_assoc]

/-- What was reported when some suspensions have been forced is still reported with more. -/
theorem reports_subset {event : ε} (hjk : j ≤ k) (h : event ∈ s.reports rules j) :
    event ∈ s.reports rules k := by
  obtain ⟨d, rfl⟩ := Nat.exists_eq_add_of_le hjk
  rw [reports_add]
  exact Array.mem_append.2 (.inl h)

theorem advance_of_ended (h : s.rest = none) (k : ℕ) :
    s.advance rules (k + 1) = pure empty :=
  Logged.ext (by rw [advance, after, behind_of_ended h, after_empty]; rfl) (reports_of_ended h _)

theorem advance_of_suspended {p : Suspension ι κ α} (h : s.rest = some p) (k : ℕ) :
    s.advance rules (k + 1) = p.force rules >>= advance rules k := by
  refine Logged.ext ?_ ?_
  · rw [advance, after, behind_of_suspended h]
    rfl
  · rw [advance, reports_of_suspended h, behind_of_suspended h]
    rfl

theorem Ahead.after (h : s.Ahead rules k) (hj : j ≤ k) :
    (s.after rules j).Ahead rules (k - j) := by
  refine ⟨fun i hi => ?_, ?_⟩
  · rw [← after_add]
    exact h.1 (j + i) (by omega)
  · rw [← after_add, Nat.add_sub_cancel' hj]
    exact h.2

theorem ahead_zero : s.Ahead rules 0 ↔ s.isSuspended = false :=
  ⟨fun h => h.2, fun h => ⟨fun _ hi => absurd hi (Nat.not_lt_zero _), h⟩⟩

theorem ahead_succ (h : s.isSuspended) :
    s.Ahead rules (k + 1) ↔ (s.behind rules).Ahead rules k := by
  constructor
  · intro hk
    exact hk.after (j := 1) (by omega)
  · intro hk
    refine ⟨fun i hi => ?_, hk.2⟩
    cases i with
    | zero => exact h
    | succ i => exact hk.1 i (by omega)

/-- No item is nearer than what is ahead. -/
theorem Ahead.le_of_yields (h : s.Ahead rules k) (hx : s.Yields rules i x) : k ≤ i := by
  by_contra hlt
  obtain ⟨p, hp⟩ := isSuspended_iff.1 (h.1 i (by omega))
  rw [Yields, hp] at hx
  exact List.not_mem_nil hx

/-- **A pull forces what is in front of the next item, as far as the limit allows.** -/
theorem realize_eq (hj : j ≤ limit) (hsusp : ∀ i < j, (s.after rules i).isSuspended)
    (hend : j = limit ∨ (s.after rules j).isSuspended = false) :
    s.realize rules limit = ⟨s.after rules j, reports rules j s⟩ := by
  have hfrom : ∀ reported : Array ε, realizeFrom rules limit reported s =
      ⟨s.after rules j, reported ++ reports rules j s⟩ := by
    induction limit generalizing j s with
    | zero =>
      intro reported
      obtain rfl : j = 0 := by omega
      rw [realizeFrom, after, reports, Array.append_empty]
      simp
    | succ limit ih =>
      intro reported
      cases j with
      | zero =>
        have hs : s.isSuspended = false := hend.resolve_left (by omega)
        rw [after, reports, Array.append_empty]
        cases s with
        | suspend p => cases hs
        | _ => rfl
      | succ j =>
        obtain ⟨p, rfl⟩ := isSuspended_iff.1 (hsusp 0 (by omega))
        have hrec := ih (j := j) (s := (p.force rules).value) (by omega)
          (fun i hi => hsusp (i + 1) (by omega)) (hend.imp_left (by omega))
          (reported ++ (p.force rules).events)
        rw [Array.append_assoc] at hrec
        exact hrec
  rw [realize, hfrom, Array.empty_append]

/-- Either the next item or the end is within the limit, or only suspensions are. -/
theorem exists_ahead_or (rules : Rules ι κ ε α) (limit : ℕ) (s : Stream ι κ α) :
    (∃ k ≤ limit, s.Ahead rules k) ∨ ∀ i ≤ limit, (s.after rules i).isSuspended := by
  induction limit generalizing s with
  | zero =>
    cases hs : s.isSuspended with
    | false => exact .inl ⟨0, le_rfl, ahead_zero.2 hs⟩
    | true =>
      refine .inr fun i hi => ?_
      obtain rfl : i = 0 := by omega
      exact hs
  | succ limit ih =>
    cases hs : s.isSuspended with
    | false => exact .inl ⟨0, Nat.zero_le _, ahead_zero.2 hs⟩
    | true =>
      rcases ih (s.behind rules) with ⟨k, hk, h⟩ | h
      · exact .inl ⟨k + 1, by omega, (ahead_succ hs).2 h⟩
      · refine .inr fun i hi => ?_
        cases i with
        | zero => exact hs
        | succ i => exact h i (by omega)

/-! ### What is pulled -/

theorem pull_of_ahead (hj : s.Ahead rules j) (hjl : j ≤ limit) :
    s.pull rules limit = ⟨(s.after rules j).front, s.reports rules j⟩ := by
  rw [pull, realize_eq hjl hj.1 (.inr hj.2)]

theorem pull_of_suspended (h : ∀ i ≤ limit, (s.after rules i).isSuspended) :
    s.pull rules limit = ⟨(s.after rules limit).front, s.reports rules limit⟩ := by
  rw [pull, realize_eq le_rfl (fun i hi => h i hi.le) (.inl rfl)]

theorem cons_or_empty (h : s.isSuspended = false) : (∃ x d, s = cons x d) ∨ s = empty := by
  cases s with
  | empty => exact .inr rfl
  | cons x d => exact .inl ⟨x, d, rfl⟩
  | suspend p => cases h

/-! ### The iterator without a limit -/

theorem iterates_of_after {found : List (Option α)}
    (hsusp : ∀ i < j, (s.after rules i).isSuspended) (h : (s.after rules j).Iterates rules found) :
    s.Iterates rules found := by
  induction j generalizing s with
  | zero => exact h
  | succ j ih =>
    obtain ⟨p, rfl⟩ := isSuspended_iff.1 (hsusp 0 (by omega))
    exact .force (ih (fun i hi => hsusp (i + 1) (by omega)) h)

/-- The next result of the iterator is what is ahead. -/
theorem Iterates.exists_ahead {found : List (Option α)} {r : Option α}
    (h : s.Iterates rules (r :: found)) : ∃ k, s.Ahead rules k ∧
      ((∃ x d, s.after rules k = cons x d ∧ r = some x ∧ d.Iterates rules found) ∨
        s.after rules k = empty ∧ r = none ∧ empty.Iterates rules found) := by
  generalize hr : r :: found = results at h
  induction h with
  | nil => cases hr
  | item h _ =>
    cases hr
    exact ⟨0, ahead_zero.2 rfl, .inl ⟨_, _, rfl, rfl, h⟩⟩
  | ended h _ =>
    cases hr
    exact ⟨0, ahead_zero.2 rfl, .inr ⟨rfl, rfl, h⟩⟩
  | force _ ih =>
    obtain ⟨k, hk, h⟩ := ih hr
    exact ⟨k + 1, (ahead_succ rfl).2 hk, h⟩

theorem Iterates.exists_item {found : List (Option α)} (h : s.Iterates rules (some x :: found)) :
    ∃ k d, s.Ahead rules k ∧ s.after rules k = cons x d ∧ d.Iterates rules found := by
  obtain ⟨k, hk, ⟨y, d, hd, hy, hrest⟩ | ⟨-, hnone, -⟩⟩ := h.exists_ahead
  · cases hy
    exact ⟨k, d, hk, hd, hrest⟩
  · cases hnone

theorem Iterates.exists_ended {found : List (Option α)} (h : s.Iterates rules (none :: found)) :
    ∃ k, s.Ahead rules k ∧ s.after rules k = empty := by
  obtain ⟨k, hk, ⟨x, d, -, hx, -⟩ | ⟨hend, -, -⟩⟩ := h.exists_ahead
  · cases hx
  · exact ⟨k, hk, hend⟩

/-- With enough effort the iterator gives what it gives without a limit on the effort. -/
theorem Settles.eventually_iterates {rules : ℕ → Rules ι κ ε α} {ideal : Rules ι κ ε α}
    (hsettles : Settles rules ideal) {found : List (Option α)} (h : s.Iterates ideal found) :
    ∀ᶠ n in Filter.atTop, s.Iterates (rules n) found := by
  induction h with
  | nil s => exact .of_forall fun n => .nil s
  | item _ ih => exact ih.mono fun n hn => .item hn
  | ended _ ih => exact ih.mono fun n hn => .ended hn
  | @force p found _ ih =>
    filter_upwards [hsettles.eventually_force p, ih] with n hforce hn
    exact .force (hforce ▸ hn)

end Stream

end Relational
