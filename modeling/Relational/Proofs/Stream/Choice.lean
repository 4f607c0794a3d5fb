import Relational.Proofs.Stream.Interleaving
import Relational.Proofs.Stream.Pull

/-!
# Choosing between streams

`choice fs x` merges the streams that several functions make of `x`, each with those behind it.
Nothing is known of the functions, so this is what a disjunction does, whatever its goals are.

The items of all these streams are interleaved fairly (`sharedBy_choice`).  Their reports go the
same way: what is reported in front of an item in its own stream is reported in front of it, and
all else that is reported there comes of the first suspensions of the other streams, no more of them
than the item may have to wait for (`Interleaving.KeepsReports`).  Whoever takes a report for work
that never ends can read off which streams can keep an item from being there.
-/

namespace Relational

namespace Stream

variable {ι κ ε α σ : Type} {rules : Rules ι κ ε α} {a b s : Stream ι κ α} {k : ℕ} {event : ε}

/-- What one of several functions makes of `x`: their streams, each merged with those behind it. -/
def choice : List (σ → Logged ε (Stream ι κ α)) → σ → Logged ε (Stream ι κ α)
  | [] => fun _ => pure empty
  | [f] => f
  | f :: fs => fun x => do
    let a ← f x
    let b ← choice fs x
    return a.merge b

/-! ### The reports of a merged stream -/

theorem reports_merge_of_ended (ha : a.rest = none) (b : Stream ι κ α) (k : ℕ) :
    (a.merge b).reports rules k = b.reports rules k := by
  cases k with
  | zero => rfl
  | succ k => rw [reports, reports, rest_merge_of_ended b ha, behind_merge, ha]; rfl

theorem reports_merge_of_suspended {p : Suspension ι κ α} (ha : a.rest = some p)
    (b : Stream ι κ α) (k : ℕ) : (a.merge b).reports rules (k + 1) =
      (p.force rules).events ++ (b.merge (a.behind rules)).reports rules k := by
  have hforce : ((Suspension.swap b p).force rules).events = (p.force rules).events :=
    Array.append_empty ..
  rw [reports_of_suspended (rest_merge_of_suspended b ha), hforce, behind_merge, ha]
  rfl

/-- Nothing is reported that the two streams do not report by then. -/
theorem mem_reports_of_merge (h : event ∈ (a.merge b).reports rules k) :
    event ∈ a.reports rules k ∨ event ∈ b.reports rules k := by
  induction k generalizing a b with
  | zero => exact .inl h
  | succ k ih =>
    cases ha : a.rest with
    | none =>
      rw [reports_merge_of_ended ha] at h
      exact .inr h
    | some p =>
      rw [reports_merge_of_suspended ha, Array.mem_append] at h
      rw [reports_of_suspended ha, Array.mem_append]
      obtain hforce | hlater := h
      · exact .inl (.inl hforce)
      · obtain hb | ha := ih hlater
        · exact .inr (reports_subset k.le_succ hb)
        · exact .inl (.inr ha)

variable (rules) in
/-- In front of an item behind `d` suspensions of the stream in front, both streams have reported
what `d` of their suspensions report. -/
def ReportsFront (d : ℕ) : Prop :=
  ∀ (a b : Stream ι κ α) (x : Occurrence rules a), x.depth = d → ∀ event,
    event ∈ (a.merge b).reports rules (d + b.forced rules d) ↔
      event ∈ a.reports rules d ∨ event ∈ b.reports rules d

/-- In front of an item of the other stream, the stream in front has reported one more. -/
theorem ReportsFront.inr {d : ℕ} (h : ReportsFront rules d) (a b : Stream ι κ α)
    (y : Occurrence rules b) (hy : y.depth = d) (event : ε) :
    event ∈ (a.merge b).reports rules (d + a.forced rules (d + 1)) ↔
      event ∈ a.reports rules (d + 1) ∨ event ∈ b.reports rules d := by
  cases ha : a.rest with
  | none =>
    have hforced : a.forced rules (d + 1) = 0 := by rw [forced, ha]; rfl
    rw [hforced, Nat.add_zero, reports_merge_of_ended ha, reports_of_ended ha]
    simp
  | some p =>
    have hforced : a.forced rules (d + 1) = (a.behind rules).forced rules d + 1 := by
      rw [forced, ha]; rfl
    rw [hforced, ← Nat.add_assoc, reports_merge_of_suspended ha, reports_of_suspended ha,
      Array.mem_append, Array.mem_append, h b (a.behind rules) y hy, or_assoc]
    exact or_congr_right or_comm

theorem reportsFront (rules : Rules ι κ ε α) (d : ℕ) : ReportsFront rules d := by
  induction d with
  | zero =>
    intro a b x _ event
    simp [reports, forced]
  | succ d ih =>
    rintro a b ⟨_, i, hi⟩ rfl event
    cases ha : a.rest with
    | none =>
      -- a stream that has ended has nothing at this depth
      rw [after, behind_of_ended ha, after_empty] at hi
      exact absurd hi (Nat.not_lt_zero i)
    | some p =>
      have hbehind := ih.inr b (a.behind rules) ⟨d, i, hi⟩ rfl event
      rw [Nat.add_right_comm, reports_merge_of_suspended ha, reports_of_suspended ha,
        Array.mem_append, Array.mem_append, hbehind, or_assoc]
      exact or_congr_right or_comm

theorem mem_reports_mergePlace_inl (x : Occurrence rules a) :
    event ∈ (a.merge b).reports rules (mergePlace a b (.inl x)).depth ↔
      event ∈ a.reports rules x.depth ∨ event ∈ b.reports rules x.depth := by
  rw [depth_mergePlace_inl]
  exact reportsFront rules x.depth a b x rfl event

theorem mem_reports_mergePlace_inr (y : Occurrence rules b) :
    event ∈ (a.merge b).reports rules (mergePlace a b (.inr y)).depth ↔
      event ∈ a.reports rules (y.depth + 1) ∨ event ∈ b.reports rules y.depth := by
  rw [depth_mergePlace_inr]
  exact (reportsFront rules y.depth).inr a b y rfl event

/-! ### The reports in front of an item -/

namespace Interleaving

/-- In front of an item there are the reports that it has in front of it in its own stream.  All
others come of the first suspensions of the other streams, no more of them than the item may have to
wait for. -/
structure KeepsReports {n : ℕ} {parts : Fin n → Stream ι κ α} (w : Interleaving rules parts s) :
    Prop where
  own : ∀ i o, ∀ event ∈ (parts i).reports rules o.depth,
    event ∈ s.reports rules (w.place i o).depth
  others : ∀ i o, ∀ event ∈ s.reports rules (w.place i o).depth,
    event ∈ (parts i).reports rules o.depth ∨
      ∃ j ≠ i, event ∈ (parts j).reports rules (2 ^ (i : ℕ) * (2 * o.depth + 1) - 1)

theorem keepsReports_none (parts : Fin 0 → Stream ι κ α) :
    (none parts : Interleaving rules _ _).KeepsReports :=
  ⟨fun i => i.elim0, fun i => i.elim0⟩

theorem keepsReports_one (parts : Fin 1 → Stream ι κ α) :
    (one parts : Interleaving rules _ _).KeepsReports := by
  constructor
  · exact Fin.cases (fun o event h => h) fun i => i.elim0
  · exact Fin.cases (fun o event h => .inl h) fun i => i.elim0

theorem KeepsReports.merge {n : ℕ} {parts : Fin (n + 1) → Stream ι κ α}
    {w : Interleaving rules (fun i => parts i.succ) s} (hw : w.KeepsReports) (hfair : w.Fair)
    (hs : ∀ k, ∀ event ∈ s.reports rules k, ∃ i : Fin n, event ∈ (parts i.succ).reports rules k) :
    w.merge.KeepsReports := by
  constructor
  · intro i o event h
    cases i using Fin.cases with
    | zero => exact (mem_reports_mergePlace_inl o).2 (.inl h)
    | succ i => exact (mem_reports_mergePlace_inr (w.place i o)).2 (.inr (hw.own i o event h))
  · intro i o event h
    cases i using Fin.cases with
    | zero =>
      obtain hown | hrest := (mem_reports_mergePlace_inl o).1 h
      · exact .inl hown
      · obtain ⟨j, hj⟩ := hs _ event hrest
        exact .inr ⟨j.succ, Fin.succ_ne_zero j, reports_subset (by simp; omega) hj⟩
    | succ i =>
      -- the stream in front is forced once more, and twice the bound leaves room for that
      have hplace := hfair i o
      rw [Fin.val_succ, bound_succ]
      obtain hfront | hrest := (mem_reports_mergePlace_inr (w.place i o)).1 h
      · exact .inr ⟨0, (Fin.succ_ne_zero i).symm, reports_subset (by omega) hfront⟩
      · obtain hown | ⟨j, hne, hj⟩ := hw.others i o event hrest
        · exact .inl hown
        · exact .inr ⟨j.succ, fun h => hne (Fin.succ_injective n h), reports_subset (by omega) hj⟩

end Interleaving

/-- The stream `whole` goes through the streams `parts`, fairly so and with their reports. -/
structure SharedBy (rules : Rules ι κ ε α) {n : ℕ} (parts : Fin n → Logged ε (Stream ι κ α))
    (whole : Logged ε (Stream ι κ α)) : Prop where
  /-- Every item has its place, and so have the reports in front of it. -/
  interleaved : ∃ w : Interleaving rules (fun i => (parts i).value) whole.value,
    w.Fair ∧ w.KeepsReports
  /-- Whatever is reported before anything is forced. -/
  applied : ∀ event, event ∈ whole.events ↔ ∃ i, event ∈ (parts i).events
  /-- Nothing is reported that no part reports by then. -/
  reported : ∀ k, ∀ event ∈ whole.value.reports rules k,
    ∃ i, event ∈ (parts i).value.reports rules k

theorem SharedBy.merge {n : ℕ} {parts : Fin (n + 1) → Logged ε (Stream ι κ α)}
    {whole : Logged ε (Stream ι κ α)} (h : SharedBy rules (fun i => parts i.succ) whole) :
    SharedBy rules parts (do
      let a ← parts 0
      let b ← whole
      return a.merge b) := by
  obtain ⟨⟨w, hfair, hkeeps⟩, happlied, hreported⟩ := h
  refine ⟨⟨w.merge, hfair.merge, hkeeps.merge hfair hreported⟩, fun event => ?_,
    fun k event h => ?_⟩
  · rw [Logged.events_bind, Logged.events_bind, Logged.events_pure, Array.append_empty,
      Array.mem_append, happlied, Fin.exists_fin_succ]
  · obtain hfront | hrest := mem_reports_of_merge h
    · exact ⟨0, hfront⟩
    · obtain ⟨i, hi⟩ := hreported k event hrest
      exact ⟨i.succ, hi⟩

theorem sharedBy_none (parts : Fin 0 → Logged ε (Stream ι κ α)) :
    SharedBy rules parts (pure empty) where
  interleaved := ⟨.none _, Interleaving.fair_none _, Interleaving.keepsReports_none _⟩
  applied := by simp
  reported := fun k event h => by
    rw [Logged.value_pure, reports_of_ended rfl] at h
    exact absurd h (Array.not_mem_empty event)

theorem sharedBy_one (parts : Fin 1 → Logged ε (Stream ι κ α)) :
    SharedBy rules parts (parts 0) where
  interleaved := ⟨.one _, Interleaving.fair_one _, Interleaving.keepsReports_one _⟩
  applied := by simp
  reported := fun k event h => ⟨0, h⟩

/-- **A choice is fair and loses nothing**, whatever the functions are. -/
theorem sharedBy_choice (rules : Rules ι κ ε α) (x : σ) :
    ∀ fs : List (σ → Logged ε (Stream ι κ α)),
      SharedBy rules (fun i : Fin fs.length => fs.get i x) (choice fs x)
  | [] => sharedBy_none _
  | [_] => sharedBy_one _
  | _ :: g :: fs => (sharedBy_choice rules x (g :: fs)).merge

end Stream

end Relational
