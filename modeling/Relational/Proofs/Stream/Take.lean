import Relational.Proofs.Stream.Pull

/-!
# Taking a prefix of a stream

The first `n` items of a stream are there when some number of suspensions has been forced, or fewer
are there and the stream has ended.  `s.First rules n xs k` says so: `xs` are these items, and `k`
is the number of suspensions; each of the `k` stands in front of the `n`-th item.  The items are
those that an iterator gives (`First.iteratesFirst`, `IteratesFirst.exists_first`).

`take` forces exactly these suspensions, and gives exactly these items (`First.take_eq`).  What
stands behind the last item is not looked at, so it does not matter whether it could be forced at
all: other rules may do there what they like.  With a limit that is too low, nothing comes back
(`take_cases`).

All items are there before `take` gives the first one.  So whoever can take some items can take
fewer (`take_of_le`), and can then take them off what was taken (`take_take`); but there are streams
of which one item can be taken and two cannot, so that taking one of two never comes to an end
(`take_take_diverges`).
-/

namespace Relational

namespace Stream

variable {ι κ ε α : Type} {rules rules' : Rules ι κ ε α} {s t d : Stream ι κ α} {xs ys : List α}
  {i j k l m n limit : ℕ} {x : α}

/-- The items that are there when `k` suspensions have been forced. -/
def shown (rules : Rules ι κ ε α) : ℕ → Stream ι κ α → List α
  | 0, s => s.heads
  | k + 1, s => s.heads ++ shown rules k (s.behind rules)

/-- The first `n` items of a stream are `xs`, or all there are if they are fewer, and `k`
suspensions stand in front of the last of them, or in front of the end. -/
structure First (rules : Rules ι κ ε α) (s : Stream ι κ α) (n : ℕ) (xs : List α) (k : ℕ) :
    Prop where
  items_eq : xs = (s.shown rules k).take n
  enough : n ≤ (s.shown rules k).length ∨ (s.after rules k).rest.isNone
  /-- Each of the suspensions is there, with fewer than `n` items in front of it. -/
  needed : ∀ i < k, ¬ (s.after rules i).rest.isNone ∧ (s.shown rules i).length < n

/-- Fewer than `n` items, and more suspensions than the limit in front of the next one: `k` have
been forced, as many as the limit behind the last item. -/
structure OutOfReach (rules : Rules ι κ ε α) (limit : ℕ) (s : Stream ι κ α) (n : ℕ) (xs : List α)
    (k : ℕ) : Prop where
  length_lt : xs.length < n
  shown_eq : s.shown rules k = xs
  far : ∃ (j : ℕ) (p : Suspension ι κ α), k = j + limit ∧ (s.after rules j).rest = some p ∧
    ∀ i ≤ limit, ((suspend p).after rules i).isSuspended

/-- The first `n` results of an iterator, up to the end. -/
def IteratesFirst (rules : Rules ι κ ε α) (s : Stream ι κ α) (n : ℕ) (xs : List α) : Prop :=
  xs.length = n ∧ s.Iterates rules (xs.map some) ∨
    xs.length < n ∧ s.Iterates rules (xs.map some ++ [none])

/-! ### What is there when some suspensions have been forced -/

theorem after_succ (rules : Rules ι κ ε α) (k : ℕ) (s : Stream ι κ α) :
    s.after rules (k + 1) = (s.after rules k).behind rules :=
  after_add k 1 s

theorem shown_succ (rules : Rules ι κ ε α) (k : ℕ) (s : Stream ι κ α) :
    s.shown rules (k + 1) = s.shown rules k ++ (s.after rules (k + 1)).heads := by
  induction k generalizing s with
  | zero => rfl
  | succ k ih =>
    have hk : s.shown rules (k + 1 + 1) = s.heads ++ (s.behind rules).shown rules (k + 1) := rfl
    rw [hk, ih, ← List.append_assoc]
    rfl

theorem shown_le (hij : i ≤ j) (s : Stream ι κ α) : s.shown rules i <+: s.shown rules j := by
  induction hij with
  | refl => exact List.prefix_refl _
  | step _ ih =>
    rw [shown_succ]
    exact ih.trans (List.prefix_append _ _)

theorem rest_isNone_of_le (hij : i ≤ j) (h : (s.after rules i).rest.isNone) :
    (s.after rules j).rest.isNone := by
  induction hij with
  | refl => exact h
  | step _ ih =>
    rw [after_succ, behind_of_ended (Option.isNone_iff_eq_none.1 ih)]
    rfl

/-- The items in front of the first one that is ahead: none. -/
theorem shown_of_suspended (h : ∀ i < j, (s.after rules i).isSuspended) (k : ℕ) :
    s.shown rules (j + k) = (s.after rules j).shown rules k := by
  induction j generalizing s with
  | zero => rw [Nat.zero_add]; rfl
  | succ j ih =>
    obtain ⟨p, rfl⟩ := isSuspended_iff.1 (h 0 j.succ_pos)
    rw [Nat.succ_add]
    exact ih fun i hi => h (i + 1) (by omega)

theorem rest_after_congr (h : s.rest = t.rest) (k : ℕ) :
    (s.after rules k).rest = (t.after rules k).rest := by
  cases k with
  | zero => exact h
  | succ k => rw [after, after, behind, behind, h]

/-! ### An item in front -/

theorem rest_after_cons (x : α) (d : Stream ι κ α) (k : ℕ) :
    ((cons x d).after rules k).rest = (d.after rules k).rest := by
  cases k <;> rfl

theorem reports_cons (x : α) (d : Stream ι κ α) (k : ℕ) :
    (cons x d).reports rules k = d.reports rules k := by
  cases k <;> rfl

theorem shown_cons (x : α) (d : Stream ι κ α) (k : ℕ) :
    (cons x d).shown rules k = x :: d.shown rules k := by
  cases k <;> rfl

/-- What is there when the suspensions in front of the next item have been forced, and some more. -/
theorem shown_of_ahead (hj : s.Ahead rules j) (hx : s.after rules j = cons x d) (k : ℕ) :
    s.shown rules (j + k) = x :: d.shown rules k := by
  rw [shown_of_suspended hj.1, hx, shown_cons]

theorem rest_after_of_ahead (hx : s.after rules j = cons x d) (k : ℕ) :
    (s.after rules (j + k)).rest = (d.after rules k).rest := by
  rw [after_add, hx, rest_after_cons]

theorem reports_of_ahead (hx : s.after rules j = cons x d) (k : ℕ) :
    s.reports rules (j + k) = s.reports rules j ++ d.reports rules k := by
  rw [reports_add, hx, reports_cons]

/-! ### The first items -/

namespace First

theorem zero (s : Stream ι κ α) : s.First rules 0 [] 0 :=
  ⟨List.take_zero.symm, .inl (Nat.zero_le _), fun _ hi => absurd hi (Nat.not_lt_zero _)⟩

/-- The first item and those behind it. -/
theorem item (hj : s.Ahead rules j) (hx : s.after rules j = cons x d)
    (h : d.First rules n xs k) : s.First rules (n + 1) (x :: xs) (j + k) := by
  refine ⟨?_, ?_, fun i hi => ?_⟩
  · rw [shown_of_ahead hj hx, List.take_succ_cons, ← h.items_eq]
  · rw [shown_of_ahead hj hx, rest_after_of_ahead hx, List.length_cons]
    exact h.enough.imp_left Nat.succ_le_succ
  · rcases Nat.lt_or_ge i j with hij | hji
    · obtain ⟨p, hp⟩ := isSuspended_iff.1 (hj.1 i hij)
      have hnone : s.shown rules i = (s.after rules i).heads :=
        shown_of_suspended (fun l hl => hj.1 l (by omega)) 0
      rw [hnone, hp]
      exact ⟨Bool.false_ne_true, n.succ_pos⟩
    · obtain ⟨i, rfl⟩ := Nat.exists_eq_add_of_le hji
      rw [shown_of_ahead hj hx, rest_after_of_ahead hx, List.length_cons]
      obtain ⟨hrest, hlt⟩ := h.needed i (by omega)
      exact ⟨hrest, Nat.succ_lt_succ hlt⟩

/-- There are no items. -/
theorem ended (hj : s.Ahead rules j) (hend : s.after rules j = empty) :
    s.First rules (n + 1) [] j := by
  have hnone : ∀ i ≤ j, s.shown rules i = [] := by
    intro i hi
    have hi' : s.shown rules i = (s.after rules i).heads :=
      shown_of_suspended (fun l hl => hj.1 l (by omega)) 0
    rw [hi']
    rcases Nat.lt_or_eq_of_le hi with hlt | rfl
    · obtain ⟨p, hp⟩ := isSuspended_iff.1 (hj.1 i hlt)
      rw [hp]
      rfl
    · rw [hend]
      rfl
  refine ⟨?_, .inr ?_, fun i hi => ?_⟩
  · rw [hnone j le_rfl, List.take_nil]
  · rw [hend]
    rfl
  · obtain ⟨p, hp⟩ := isSuspended_iff.1 (hj.1 i hi)
    rw [hnone i hi.le, hp]
    exact ⟨Bool.false_ne_true, n.succ_pos⟩

theorem unique (h : s.First rules n xs k) (h' : s.First rules n ys l) : xs = ys ∧ k = l := by
  -- neither number of suspensions can be lower: there would be enough without the next one
  have hle : ∀ {xs ys : List α} {k l : ℕ}, s.First rules n xs k → s.First rules n ys l → k ≤ l := by
    intro xs ys k l h h'
    by_contra hlt
    obtain ⟨hrest, hlength⟩ := h.needed l (not_le.1 hlt)
    exact h'.enough.elim (fun hn => absurd hlength (Nat.not_lt.2 hn)) hrest
  obtain rfl := le_antisymm (hle h h') (hle h' h)
  exact ⟨h.items_eq.trans h'.items_eq.symm, rfl⟩

/-- With a limit that is high enough for all suspensions together, no item is out of reach. -/
theorem not_outOfReach (h : s.First rules n xs k) (hk : k ≤ limit) :
    ¬ s.OutOfReach rules limit n ys l := by
  rintro ⟨hlength, rfl, j, p, rfl, hp, hfar⟩
  obtain ⟨q, hq⟩ := isSuspended_iff.1 (hfar limit le_rfl)
  have hrest : (s.after rules (j + limit)).rest = some q := by
    rw [after_add, rest_after_congr (t := suspend p) hp limit, hq]
    rfl
  have hkl : k ≤ j + limit := by omega
  -- `j + limit` suspensions are enough, but behind them there is neither an `n`-th item nor the end
  rcases h.enough with hn | hended
  · have hshown : s.shown rules k <+: s.shown rules (j + limit) := shown_le hkl s
    have hle := hshown.length_le
    omega
  · have hnone := rest_isNone_of_le hkl hended
    rw [hrest] at hnone
    cases hnone

/-- Only what `k` suspensions yield counts. -/
theorem congr (h : s.First rules n xs k)
    (hsame : ∀ i ≤ k, s.after rules' i = s.after rules i) : s.First rules' n xs k := by
  have hshown : ∀ i ≤ k, s.shown rules' i = s.shown rules i := by
    intro i hi
    induction i with
    | zero => rfl
    | succ i ih => rw [shown_succ, shown_succ, ih (by omega), hsame (i + 1) hi]
  refine ⟨?_, ?_, fun i hi => ?_⟩
  · rw [hshown k le_rfl]
    exact h.items_eq
  · rw [hshown k le_rfl, hsame k le_rfl]
    exact h.enough
  · rw [hshown i hi.le, hsame i hi.le]
    exact h.needed i hi

/-- A stream of given items has its first items at once. -/
theorem ofList (rules : Rules ι κ ε α) (xs : List α) (n : ℕ) :
    (ofList xs : Stream ι κ α).First rules n (xs.take n) 0 := by
  refine ⟨?_, .inr ?_, fun _ hi => absurd hi (Nat.not_lt_zero _)⟩
  · rw [shown, heads_ofList]
  · rw [after, rest_ofList]
    rfl

end First

namespace OutOfReach

theorem of_suspended (h : ∀ i ≤ limit, (s.after rules i).isSuspended) :
    s.OutOfReach rules limit (n + 1) [] limit := by
  obtain ⟨p, hp⟩ := isSuspended_iff.1 (h limit le_rfl)
  have hnone : s.shown rules limit = (s.after rules limit).heads :=
    shown_of_suspended (fun i hi => h i hi.le) 0
  obtain ⟨q, rfl⟩ := isSuspended_iff.1 (h 0 (Nat.zero_le _))
  refine ⟨n.succ_pos, ?_, 0, q, (Nat.zero_add _).symm, rfl, h⟩
  rw [hnone, hp]
  rfl

theorem item (hj : s.Ahead rules j) (hx : s.after rules j = cons x d)
    (h : d.OutOfReach rules limit n xs k) :
    s.OutOfReach rules limit (n + 1) (x :: xs) (j + k) := by
  obtain ⟨hlength, hshown, i, p, rfl, hp, hfar⟩ := h
  refine ⟨Nat.succ_lt_succ hlength, ?_, j + i, p, (Nat.add_assoc _ _ _).symm, ?_, hfar⟩
  · rw [shown_of_ahead hj hx, hshown]
  · rwa [rest_after_of_ahead hx]

end OutOfReach

/-! ### What an iterator gives -/

/-- The stream without its heads. -/
def headless : Stream ι κ α → Stream ι κ α
  | cons _ d => d.headless
  | s => s

theorem iterates_of_heads {found : List (Option α)} (h : s.headless.Iterates rules found) :
    s.Iterates rules (s.heads.map some ++ found) := by
  induction s with
  | cons x d ih => exact .item (ih h)
  | _ => exact h

theorem headless_of_ended (h : s.rest = none) : s.headless = empty := by
  induction s with
  | empty => rfl
  | cons x d ih => exact ih h
  | suspend p => cases h

theorem headless_of_suspended {p : Suspension ι κ α} (h : s.rest = some p) :
    s.headless = suspend p := by
  induction s with
  | empty => cases h
  | cons x d ih => exact ih h
  | suspend q => cases h; rfl

theorem iterates_of_shown {found : List (Option α)} (k : ℕ)
    (h : (s.after rules k).headless.Iterates rules found) :
    s.Iterates rules ((s.shown rules k).map some ++ found) := by
  induction k generalizing s with
  | zero => exact iterates_of_heads h
  | succ k ih =>
    have hbehind := ih (s := s.behind rules) h
    rw [shown, List.map_append, List.append_assoc]
    refine iterates_of_heads ?_
    cases hs : s.rest with
    | none =>
      rw [headless_of_ended hs]
      rw [behind_of_ended hs] at hbehind ⊢
      exact hbehind
    | some p =>
      rw [headless_of_suspended hs]
      rw [behind_of_suspended hs] at hbehind ⊢
      exact .force hbehind

theorem Iterates.left {found later : List (Option α)}
    (h : s.Iterates rules (found ++ later)) : s.Iterates rules found := by
  generalize hall : found ++ later = all at h
  induction h generalizing found with
  | nil s =>
    obtain ⟨rfl, -⟩ := List.append_eq_nil_iff.1 hall
    exact .nil s
  | force _ ih => exact .force (ih hall)
  | item _ ih =>
    cases found with
    | nil => exact .nil _
    | cons r found =>
      obtain ⟨rfl, hrest⟩ := List.cons.inj hall
      exact .item (ih hrest)
  | ended _ ih =>
    cases found with
    | nil => exact .nil _
    | cons r found =>
      obtain ⟨rfl, hrest⟩ := List.cons.inj hall
      exact .ended (ih hrest)

theorem First.iteratesFirst (h : s.First rules n xs k) : s.IteratesFirst rules n xs := by
  obtain ⟨rfl, henough, -⟩ := h
  by_cases hn : n ≤ (s.shown rules k).length
  · have hall : s.Iterates rules ((s.shown rules k).map some ++ []) :=
      iterates_of_shown k (.nil _)
    rw [List.append_nil, ← List.take_append_drop n (s.shown rules k), List.map_append] at hall
    exact .inl ⟨List.length_take_of_le hn, hall.left⟩
  · have hend : (s.after rules k).rest = none :=
      Option.isNone_iff_eq_none.1 (henough.resolve_left hn)
    rw [List.take_of_length_le (not_le.1 hn).le]
    refine .inr ⟨not_le.1 hn, iterates_of_shown k ?_⟩
    rw [headless_of_ended hend]
    exact .ended (.nil _)

theorem IteratesFirst.exists_first (h : s.IteratesFirst rules n xs) :
    ∃ k, s.First rules n xs k := by
  induction n generalizing s xs with
  | zero =>
    obtain rfl : xs = [] := by
      obtain ⟨hlength, -⟩ | ⟨hlength, -⟩ := h
      · exact List.length_eq_zero_iff.1 hlength
      · exact absurd hlength (Nat.not_lt_zero _)
    exact ⟨0, .zero s⟩
  | succ n ih =>
    cases xs with
    | nil =>
      obtain ⟨hlength, -⟩ | ⟨-, hend⟩ := h
      · cases hlength
      · obtain ⟨k, hk, hend⟩ := hend.exists_ended
        exact ⟨k, .ended hk hend⟩
    | cons x xs =>
      have hnext : ∃ j d, s.Ahead rules j ∧ s.after rules j = cons x d ∧
          d.IteratesFirst rules n xs := by
        obtain ⟨hlength, hiter⟩ | ⟨hlength, hiter⟩ := h
        · obtain ⟨j, d, hj, hx, hrest⟩ := hiter.exists_item
          exact ⟨j, d, hj, hx, .inl ⟨Nat.succ.inj hlength, hrest⟩⟩
        · obtain ⟨j, d, hj, hx, hrest⟩ := hiter.exists_item
          exact ⟨j, d, hj, hx, .inr ⟨Nat.lt_of_succ_lt_succ hlength, hrest⟩⟩
      obtain ⟨j, d, hj, hx, hrest⟩ := hnext
      obtain ⟨k, hk⟩ := ih hrest
      exact ⟨j + k, hk.item hj hx⟩

/-! ### Taking -/

/-- What was taken and reported before stands in front. -/
theorem takeFrom_eq (rules : Rules ι κ ε α) (limit n : ℕ) (taken : List α) (reported : Array ε)
    (s : Stream ι κ α) : takeFrom rules limit n taken reported s =
      ⟨(taken.reverse ++ (s.splitAt rules limit n).value.1, (s.splitAt rules limit n).value.2),
        reported ++ (s.splitAt rules limit n).events⟩ := by
  unfold splitAt
  induction n generalizing taken reported s with
  | zero => simp [takeFrom]
  | succ n ih =>
    rw [takeFrom, takeFrom]
    cases (s.pull rules limit).value with
    | item x t =>
      dsimp only
      rw [ih, ih [x]]
      simp
    | ended => simp
    | suspended t => simp

theorem splitAt_zero (rules : Rules ι κ ε α) (limit : ℕ) (s : Stream ι κ α) :
    s.splitAt rules limit 0 = pure ([], s) := rfl

theorem splitAt_succ (rules : Rules ι κ ε α) (limit n : ℕ) (s : Stream ι κ α) :
    s.splitAt rules limit (n + 1) = (do
      match ← s.pull rules limit with
      | .item x t =>
        let (xs, t) ← t.splitAt rules limit n
        return (x :: xs, t)
      | .ended => return ([], empty)
      | .suspended t => return ([], t)) := by
  rw [splitAt, takeFrom]
  obtain ⟨pulled, events⟩ := s.pull rules limit
  cases pulled with
  | item x t =>
    dsimp only
    rw [takeFrom_eq, Array.empty_append]
    refine Logged.ext rfl ?_
    show events ++ (t.splitAt rules limit n).events =
      events ++ ((t.splitAt rules limit n).events ++ #[])
    rw [Array.append_empty]
  | ended => exact Logged.ext rfl (by simp)
  | suspended t => exact Logged.ext rfl (by simp)

/-- The limit was met before `n` items were taken. -/
def Unmet (n : ℕ) (split : List α × Stream ι κ α) : Prop :=
  split.1.length < n ∧ split.2.isSuspended

instance (n : ℕ) (split : List α × Stream ι κ α) : Decidable (Unmet n split) :=
  inferInstanceAs (Decidable (_ ∧ _))

theorem take_eq (rules : Rules ι κ ε α) (limit n : ℕ) (s : Stream ι κ α) :
    s.take rules limit n =
      ⟨if Unmet n (s.splitAt rules limit n).value then none
        else some (ofList (s.splitAt rules limit n).value.1),
        (s.splitAt rules limit n).events⟩ := by
  refine Logged.ext ?_ (Array.append_empty ..)
  simp only [take, Logged.value_bind, Logged.value_pure, Unmet, Bool.and_eq_true, decide_eq_true_eq]
  rfl

/-- The `n` items were taken off and `t` is left, or there are fewer, or the limit was met in front
of `t`. -/
def Split (rules : Rules ι κ ε α) (limit : ℕ) (s : Stream ι κ α) (n : ℕ) (xs : List α) (k : ℕ)
    (t : Stream ι κ α) : Prop :=
  s.First rules n xs k ∧ (xs.length = n ∨ t = empty) ∨
    s.OutOfReach rules limit n xs k ∧ t.isSuspended

/-- Either the first items are split off, with what stands in front of them being forced, or the
limit is met on the way. -/
theorem splitAt_cases (rules : Rules ι κ ε α) (limit n : ℕ) (s : Stream ι κ α) :
    ∃ xs k t, s.splitAt rules limit n = ⟨(xs, t), s.reports rules k⟩ ∧
      s.Split rules limit n xs k t := by
  induction n generalizing s with
  | zero => exact ⟨[], 0, s, rfl, .inl ⟨.zero s, .inl rfl⟩⟩
  | succ n ih =>
    rw [splitAt_succ]
    -- every item has the whole limit for the suspensions between it and the one before
    rcases exists_ahead_or rules limit s with ⟨j, hjl, hj⟩ | hfar
    · rw [pull_of_ahead hj hjl]
      rcases cons_or_empty hj.2 with ⟨x, d, hx⟩ | hend
      · obtain ⟨xs, k, t, hsplit, hcases⟩ := ih d
        refine ⟨x :: xs, j + k, t, ?_, ?_⟩
        · rw [hx, reports_of_ahead hx]
          refine Logged.ext ?_ ?_
          · simp [front, hsplit]
          · simp only [front, Logged.events_bind, hsplit, Logged.events_pure, Array.append_empty]
        · obtain ⟨hfirst, hlength⟩ | ⟨hfar, ht⟩ := hcases
          · exact .inl ⟨hfirst.item hj hx, hlength.imp_left (congrArg (· + 1))⟩
          · exact .inr ⟨hfar.item hj hx, ht⟩
      · rw [hend]
        exact ⟨[], j, empty, Logged.ext rfl (Array.append_empty ..),
          .inl ⟨.ended hj hend, .inr rfl⟩⟩
    · obtain ⟨p, hp⟩ := isSuspended_iff.1 (hfar limit le_rfl)
      rw [pull_of_suspended hfar, hp]
      exact ⟨[], limit, suspend p, Logged.ext rfl (Array.append_empty ..),
        .inr ⟨.of_suspended hfar, rfl⟩⟩

/-- Either the first items are taken, or the limit is met on the way. -/
theorem take_cases (rules : Rules ι κ ε α) (limit n : ℕ) (s : Stream ι κ α) : ∃ xs k,
    s.take rules limit n = ⟨some (ofList xs), s.reports rules k⟩ ∧ s.First rules n xs k ∨
    s.take rules limit n = ⟨none, s.reports rules k⟩ ∧ s.OutOfReach rules limit n xs k := by
  obtain ⟨xs, k, t, hsplit, ⟨hfirst, hleft⟩ | ⟨hfar, ht⟩⟩ := splitAt_cases rules limit n s
  · refine ⟨xs, k, .inl ⟨?_, hfirst⟩⟩
    rw [take_eq, hsplit, if_neg]
    rintro ⟨hlt, ht⟩
    obtain rfl | rfl := hleft
    · exact Nat.lt_irrefl _ hlt
    · cases ht
  · refine ⟨xs, k, .inr ⟨?_, hfar⟩⟩
    rw [take_eq, hsplit, if_pos ⟨hfar.length_lt, ht⟩]

/-- **Taking does not look behind the last item.** -/
theorem First.take_eq (h : s.First rules n xs k) (hk : k ≤ limit)
    (hsame : ∀ i ≤ k, s.after rules' i = s.after rules i) :
    s.take rules' limit n = ⟨some (Stream.ofList xs), s.reports rules' k⟩ := by
  obtain ⟨ys, l, ⟨htake, hfirst⟩ | ⟨-, hfar⟩⟩ := take_cases rules' limit n s
  · obtain ⟨rfl, rfl⟩ := (h.congr hsame).unique hfirst
    exact htake
  · exact absurd hfar ((h.congr hsame).not_outOfReach hk)

/-! ### Fewer items -/

/-- Fewer items are the first ones of more; nothing else is done to get at them, and no limit is met
that is not met for more. -/
theorem splitAt_of_le (rules : Rules ι κ ε α) (limit : ℕ) (hnm : n ≤ m) (s : Stream ι κ α) :
    (s.splitAt rules limit n).value.1 = (s.splitAt rules limit m).value.1.take n ∧
      (Unmet n (s.splitAt rules limit n).value → Unmet m (s.splitAt rules limit m).value) ∧
      ∃ later, (s.splitAt rules limit m).events = (s.splitAt rules limit n).events ++ later := by
  induction n generalizing m s with
  | zero =>
    rw [splitAt_zero, List.take_zero]
    exact ⟨rfl, fun h => absurd h.1 (Nat.not_lt_zero _), _, (Array.empty_append ..).symm⟩
  | succ n ih =>
    obtain ⟨m, rfl⟩ : ∃ l, m = l + 1 := ⟨m - 1, by omega⟩
    rw [splitAt_succ, splitAt_succ]
    obtain ⟨pulled, events⟩ := s.pull rules limit
    cases pulled with
    | item x t =>
      obtain ⟨hitems, hunmet, later, hlater⟩ := ih (Nat.le_of_succ_le_succ hnm) t
      refine ⟨?_, fun h => ?_, later, ?_⟩
      · show x :: (t.splitAt rules limit n).value.1 =
          (x :: (t.splitAt rules limit m).value.1).take (n + 1)
        rw [List.take_succ_cons, hitems]
      · obtain ⟨hlength, hleft⟩ := hunmet ⟨Nat.lt_of_succ_lt_succ h.1, h.2⟩
        exact ⟨Nat.succ_lt_succ hlength, hleft⟩
      · show events ++ ((t.splitAt rules limit m).events ++ #[]) =
          events ++ ((t.splitAt rules limit n).events ++ #[]) ++ later
        rw [Array.append_empty, Array.append_empty, hlater, Array.append_assoc]
    | ended =>
      exact ⟨rfl, fun h => absurd h.2 Bool.false_ne_true, #[], (Array.append_empty ..).symm⟩
    | suspended t =>
      exact ⟨rfl, fun h => ⟨m.succ_pos, h.2⟩, #[], (Array.append_empty ..).symm⟩

/-- What is taken are the items that are split off, if no limit was met. -/
theorem value_take_eq_some : (s.take rules limit n).value = some t ↔
    ¬ Unmet n (s.splitAt rules limit n).value ∧
      ofList (s.splitAt rules limit n).value.1 = t := by
  rw [Stream.take_eq]
  split_ifs with h <;> simp [h]

/-- Whoever can take some items can take fewer. -/
theorem take_of_le (hnm : n ≤ m) (h : (s.take rules limit m).value = some t) :
    (s.take rules limit n).value = some (ofList (t.heads.take n)) ∧
      ∃ later, (s.take rules limit m).events = (s.take rules limit n).events ++ later := by
  obtain ⟨hitems, hunmet, hevents⟩ := splitAt_of_le rules limit hnm s
  obtain ⟨hm, rfl⟩ := value_take_eq_some.1 h
  constructor
  · rw [heads_ofList, ← hitems]
    exact value_take_eq_some.2 ⟨fun hn => hm (hunmet hn), rfl⟩
  · rw [Stream.take_eq, Stream.take_eq]
    exact hevents

/-- Nothing is forced to take items that have been taken before. -/
theorem take_take (h : (s.take rules limit m).value = some t) (limit' n : ℕ) :
    t.take rules limit' n = pure (s.take rules limit (min m n)).value := by
  obtain ⟨-, hall⟩ := value_take_eq_some.1 h
  obtain ⟨hlength, -⟩ := splitAt_of_le rules limit le_rfl s
  obtain ⟨hmin, -⟩ := take_of_le (min_le_left m n) h
  rw [hmin, ← hall, heads_ofList]
  generalize (s.splitAt rules limit m).value.1 = xs at hlength
  have htake : xs.take (min m n) = xs.take n := by
    rw [min_comm, ← List.take_take, ← hlength]
  rw [htake, (First.ofList rules xs n).take_eq (Nat.zero_le _) fun _ _ => rfl]
  rfl

/-- The first `n` items are taken, with a limit that is high enough: this comes to `t`. -/
def Takes (rules : Rules ι κ ε α) (s : Stream ι κ α) (n : ℕ) (t : Stream ι κ α) : Prop :=
  ∃ limit, (s.take rules limit n).value = some t

/-- Taking `n` items of a stream gives the first items of an iterator, and forces what stands in
front of them. -/
structure TakesFirst (rules : Rules ι κ ε α) (s : Stream ι κ α) (n : ℕ) : Prop where
  /-- What comes back has no suspensions and holds the first `n` items; nothing comes back if the
  limit is met. -/
  taken : ∀ limit, ∃ xs k,
    (s.take rules limit n = ⟨some (ofList xs), s.reports rules k⟩ ∧
      s.First rules n xs k ∧ s.IteratesFirst rules n xs) ∨
    (s.take rules limit n = ⟨none, s.reports rules k⟩ ∧ s.OutOfReach rules limit n xs k)
  /-- What an iterator gives first is taken with every limit that is high enough, whatever becomes
  of the suspensions behind it. -/
  reached : ∀ xs, s.IteratesFirst rules n xs → ∃ k, s.First rules n xs k ∧
    ∀ limit ≥ k, ∀ rules' : Rules ι κ ε α, (∀ i ≤ k, s.after rules' i = s.after rules i) →
      s.take rules' limit n = ⟨some (ofList xs), s.reports rules' k⟩
  /-- To take nothing, nothing is forced. -/
  nothing : ∀ limit, s.take rules limit 0 = pure (some empty)
  /-- Whoever can take more items takes these first, and reports the same so far. -/
  first : ∀ limit m t, n ≤ m → (s.take rules limit m).value = some t →
    (s.take rules limit n).value = some (ofList (t.heads.take n)) ∧
      ∃ later, (s.take rules limit m).events = (s.take rules limit n).events ++ later
  /-- If the first `m` items can be taken, then nothing is forced to take `n` of them, and they are
  what is taken of the whole stream, whichever number is smaller. -/
  again : ∀ limit m t, (s.take rules limit m).value = some t → ∀ limit',
    t.take rules limit' n = pure (s.take rules limit (min m n)).value

theorem takesFirst (rules : Rules ι κ ε α) (s : Stream ι κ α) (n : ℕ) : s.TakesFirst rules n where
  taken := fun limit => by
    obtain ⟨xs, k, ⟨htake, hfirst⟩ | hfar⟩ := take_cases rules limit n s
    · exact ⟨xs, k, .inl ⟨htake, hfirst, hfirst.iteratesFirst⟩⟩
    · exact ⟨xs, k, .inr hfar⟩
  reached := fun xs h => by
    obtain ⟨k, hk⟩ := h.exists_first
    exact ⟨k, hk, fun limit hlimit rules' hsame => hk.take_eq hlimit hsame⟩
  nothing := fun limit => rfl
  first := fun limit m t hnm h => take_of_le hnm h
  again := fun limit m t h limit' => take_take h limit' n

theorem Takes.exists_first (h : s.Takes rules n t) : ∃ xs k, s.First rules n xs k := by
  obtain ⟨limit, htake⟩ := h
  obtain ⟨xs, k, ⟨-, hfirst⟩ | ⟨hnone, -⟩⟩ := take_cases rules limit n s
  · exact ⟨xs, k, hfirst⟩
  · rw [hnone] at htake
    cases htake

/-- There is no second item where only suspensions stand behind the first one. -/
theorem First.not_of_suspended (h : ∀ k, (d.after rules k).isSuspended) :
    ¬ (cons x d).First rules 2 xs k := by
  intro hfirst
  obtain ⟨p, hp⟩ := isSuspended_iff.1 (h k)
  have hnone : d.shown rules k = (d.after rules k).heads := shown_of_suspended (fun i _ => h i) 0
  rcases hfirst.enough with hn | hended
  · rw [shown_cons, hnone, hp] at hn
    exact absurd hn (by simp)
  · rw [rest_after_cons, hp] at hended
    cases hended

/-- Two items cannot be taken where a suspension that yields itself stands behind the first one, so
nothing can be taken of them, although the first one is there. -/
theorem take_take_diverges :
    let rules : Rules Unit Unit Unit ℕ :=
      ⟨fun _ => .silent (suspend (.unfold ())), fun _ x => .silent (single x)⟩
    let s : Stream Unit Unit ℕ := cons 1 (suspend (.unfold ()))
    (¬ ∃ u t, s.Takes rules 2 u ∧ u.Takes rules 1 t) ∧ s.Takes rules (min 2 1) (single 1) := by
  intro rules s
  have hsuspended : ∀ k, ((suspend (.unfold ())).after rules k).isSuspended := by
    intro k
    induction k with
    | zero => rfl
    | succ k ih => exact ih
  refine ⟨?_, 0, rfl⟩
  rintro ⟨u, t, hu, -⟩
  obtain ⟨xs, k, hfirst⟩ := hu.exists_first
  exact First.not_of_suspended hsuspended hfirst

end Stream

end Relational
