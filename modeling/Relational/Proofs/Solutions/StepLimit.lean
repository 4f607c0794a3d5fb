import Relational.Proofs.Stream.Pull
import Relational.Solutions

/-!
# Searches with a step limit

A search with a step limit that is asked again and again gives the answers of an iterator without a
limit, with a report of the limit in between where an answer is far away (`stepLimit_exact`).

A call either lands on what is ahead (`tryNext_of_ahead`), or it leaves the stream that is behind as
many suspensions as the limit (`tryNext_of_suspended`).  So several calls in a row come as many
times the limit further, as long as nothing is there (`tryNexts_of_suspended`), and it can be
counted when the next answer is reported (`tryNexts_of_ahead`).
-/

namespace Relational

namespace Solutions

/-- How a search is asked for the next solution. -/
inductive Ask where
  | next
  | tryNext

/-- The answer, and the search behind it. -/
def ask (e : Engine) (s : Solutions) : Ask → Except Error (Option Substitution) × Solutions
  | .next => (.ok (s.next e).value.1, (s.next e).value.2)
  | .tryNext => (s.tryNext e).value

/-- The answers when a search is asked several times, and the search behind them. -/
def asks (e : Engine) :
    List Ask → Solutions → List (Except Error (Option Substitution)) × Solutions
  | [], s => ([], s)
  | a :: later, s =>
    let step := s.ask e a
    let rest := asks e later step.2
    (step.1 :: rest.1, rest.2)

/-- The answers to `n` calls of `tryNext`. -/
def tryNexts (e : Engine) (n : ℕ) (s : Solutions) :
    List (Except Error (Option Substitution)) × Solutions :=
  asks e (List.replicate n .tryNext) s

/-- What is reported when the search stands in front of an item or of the end. -/
def land (s : Solutions) (states : Goal.States) : Except Error (Option Substitution) × Solutions :=
  match states with
  | .cons st states => (.ok (some st.substitution), ⟨states, s.stepLimit, s.pulled + 1⟩)
  | _ => (.ok none, ⟨.empty, s.stepLimit, s.pulled⟩)

variable {e : Engine} {s : Solutions} {k n : ℕ}

/-! ### One call -/

theorem exists_pull_eq (e : Engine) (limit : ℕ) (S : Goal.States) : ∃ j ≤ limit,
    (∀ i < j, (S.after (Goal.rules e) i).isSuspended) ∧ S.pull (Goal.rules e) limit =
      ⟨(S.after (Goal.rules e) j).front, Stream.reports (Goal.rules e) j S⟩ := by
  rcases Stream.exists_ahead_or (Goal.rules e) limit S with ⟨k, hk, h⟩ | h
  · exact ⟨k, hk, h.1, Stream.pull_of_ahead h hk⟩
  · exact ⟨limit, le_rfl, fun i hi => h i hi.le, Stream.pull_of_suspended h⟩

/-- Within the limit, a call lands on what is ahead. -/
theorem tryNext_of_ahead (h : s.states.Ahead (Goal.rules e) k) (hk : k ≤ s.limit e) :
    (s.tryNext e).value = s.land (s.states.after (Goal.rules e) k) := by
  rw [tryNext, Logged.value_bind, Stream.pull_of_ahead h hk]
  rcases Stream.cons_or_empty h.2 with ⟨st, states, hcons⟩ | hend
  · rw [hcons]
    rfl
  · rw [hend]
    rfl

/-- Where nothing is within the limit, a call leaves what is behind it. -/
theorem tryNext_of_suspended
    (h : ∀ i ≤ s.limit e, (s.states.after (Goal.rules e) i).isSuspended) :
    (s.tryNext e).value = (.error (.stepLimitExceeded (s.limit e)),
      ⟨s.states.after (Goal.rules e) (s.limit e), s.stepLimit, s.pulled⟩) := by
  obtain ⟨p, hp⟩ := Stream.isSuspended_iff.1 (h _ le_rfl)
  rw [tryNext, Logged.value_bind, Stream.pull_of_suspended h, hp]
  rfl

/-- One call gives an item, says that there are no more, or meets the limit. -/
theorem tryNext_cases (e : Engine) (s : Solutions) :
    (∃ k ≤ s.limit e, s.states.Ahead (Goal.rules e) k ∧
      (s.tryNext e).value = s.land (s.states.after (Goal.rules e) k)) ∨
    (∀ i ≤ s.limit e, (s.states.after (Goal.rules e) i).isSuspended) ∧
      (s.tryNext e).value = (.error (.stepLimitExceeded (s.limit e)),
        ⟨s.states.after (Goal.rules e) (s.limit e), s.stepLimit, s.pulled⟩) := by
  rcases Stream.exists_ahead_or (Goal.rules e) (s.limit e) s.states with ⟨k, hk, h⟩ | h
  · exact .inl ⟨k, hk, h, tryNext_of_ahead h hk⟩
  · exact .inr ⟨h, tryNext_of_suspended h⟩

/-- Landing on an item gives the item; landing on the end says that there are no more. -/
theorem land_cases (s : Solutions) (states : Goal.States) (h : states.isSuspended = false) :
    (∃ st left, states = .cons st left ∧ s.land states =
      (.ok (some st.substitution), ⟨left, s.stepLimit, s.pulled + 1⟩)) ∨
    states = .empty ∧ s.land states = (.ok none, ⟨.empty, s.stepLimit, s.pulled⟩) := by
  rcases Stream.cons_or_empty h with ⟨st, left, rfl⟩ | rfl
  · exact .inl ⟨st, left, rfl, rfl⟩
  · exact .inr ⟨rfl, rfl⟩

theorem stepLimit_land (s : Solutions) (states : Goal.States) :
    (s.land states).2.stepLimit = s.stepLimit := by
  unfold land
  split <;> rfl

theorem stepLimit_tryNext (e : Engine) (s : Solutions) :
    (s.tryNext e).value.2.stepLimit = s.stepLimit := by
  rcases tryNext_cases e s with ⟨_, _, _, h⟩ | ⟨_, h⟩
  · rw [h, stepLimit_land]
  · rw [h]

/-! ### Several calls -/

theorem asks_append (e : Engine) (as bs : List Ask) (s : Solutions) :
    asks e (as ++ bs) s =
      ((asks e as s).1 ++ (asks e bs (asks e as s).2).1, (asks e bs (asks e as s).2).2) := by
  induction as generalizing s with
  | nil => rfl
  | cons a as ih => simp only [List.cons_append, asks, ih]

theorem tryNexts_succ (e : Engine) (n : ℕ) (s : Solutions) : tryNexts e (n + 1) s =
    ((s.tryNext e).value.1 :: (tryNexts e n (s.tryNext e).value.2).1,
      (tryNexts e n (s.tryNext e).value.2).2) := rfl

theorem tryNexts_add (e : Engine) (m n : ℕ) (s : Solutions) : tryNexts e (m + n) s =
    ((tryNexts e m s).1 ++ (tryNexts e n (tryNexts e m s).2).1,
      (tryNexts e n (tryNexts e m s).2).2) := by
  rw [tryNexts, ← List.replicate_append_replicate, asks_append]
  rfl

theorem tryNexts_one (e : Engine) (s : Solutions) :
    tryNexts e 1 s = ([(s.tryNext e).value.1], (s.tryNext e).value.2) := rfl

theorem stepLimit_tryNexts (e : Engine) (n : ℕ) (s : Solutions) :
    (tryNexts e n s).2.stepLimit = s.stepLimit := by
  induction n generalizing s with
  | zero => rfl
  | succ n ih => rw [tryNexts_succ, ih, stepLimit_tryNext]

theorem limit_eq {s s' : Solutions} (h : s'.stepLimit = s.stepLimit) : s'.limit e = s.limit e := by
  rw [limit, limit, h]

/-- Calls that meet the limit take the search as many times the limit further. -/
theorem tryNexts_of_suspended
    (h : 0 < n → ∀ i ≤ n * s.limit e, (s.states.after (Goal.rules e) i).isSuspended) :
    tryNexts e n s = (List.replicate n (.error (.stepLimitExceeded (s.limit e))),
      ⟨s.states.after (Goal.rules e) (n * s.limit e), s.stepLimit, s.pulled⟩) := by
  induction n generalizing s with
  | zero =>
    rw [Nat.zero_mul]
    rfl
  | succ n ih =>
    have hsucc : (n + 1) * s.limit e = s.limit e + n * s.limit e := by
      rw [Nat.succ_mul, Nat.add_comm]
    have hfirst := tryNext_of_suspended fun i hi => h n.succ_pos i (by omega)
    have hrest := ih (s := ⟨s.states.after (Goal.rules e) (s.limit e), s.stepLimit, s.pulled⟩) (by
      intro _ i hi
      rw [← Stream.after_add]
      refine h n.succ_pos _ ?_
      rw [hsucc]
      exact Nat.add_le_add_left hi _)
    rw [tryNexts_succ, hfirst, hrest, hsucc, Stream.after_add]
    rfl

/-- How many calls meet a limit of `m` in front of what is `k` suspensions away. -/
theorem misses_bounds {k m : ℕ} (hm : 1 ≤ m) :
    (0 < (k + m - 1) / m - 1 → ((k + m - 1) / m - 1) * m < k) ∧
      k ≤ ((k + m - 1) / m - 1) * m + m := by
  cases k with
  | zero =>
    have hzero : (0 + m - 1) / m = 0 := Nat.div_eq_of_lt (by omega)
    rw [hzero]
    omega
  | succ k =>
    have hdiv : (k + 1 + m - 1) / m - 1 = k / m := by
      rw [show k + 1 + m - 1 = k + m by omega, Nat.add_div_right k (by omega), Nat.add_sub_cancel]
    have hmul := Nat.div_add_mod k m
    have hlt := Nat.mod_lt k (show m > 0 by omega)
    rw [hdiv, Nat.mul_comm]
    exact ⟨fun _ => by omega, by omega⟩

/-- **What is `k` suspensions away is reported after `⌈k / L⌉ - 1` calls that meet the limit
`L`.** -/
theorem tryNexts_of_ahead (hL : 1 ≤ s.limit e) (h : s.states.Ahead (Goal.rules e) k) :
    tryNexts e ((k + s.limit e - 1) / s.limit e - 1 + 1) s =
      (List.replicate ((k + s.limit e - 1) / s.limit e - 1)
          (.error (.stepLimitExceeded (s.limit e))) ++
        [(s.land (s.states.after (Goal.rules e) k)).1],
        (s.land (s.states.after (Goal.rules e) k)).2) := by
  obtain ⟨hlow, hhigh⟩ := misses_bounds (k := k) hL
  generalize (k + s.limit e - 1) / s.limit e - 1 = n at hlow hhigh
  have hmiss := tryNexts_of_suspended (n := n) fun hn i hi => h.1 i (by have := hlow hn; omega)
  have hle : n * s.limit e ≤ k := by
    rcases Nat.eq_zero_or_pos n with rfl | hn
    · omega
    · exact Nat.le_of_lt (hlow hn)
  have hland := tryNext_of_ahead
    (s := ⟨s.states.after (Goal.rules e) (n * s.limit e), s.stepLimit, s.pulled⟩)
    (h.after hle) (show k - n * s.limit e ≤ s.limit e by omega)
  rw [← Stream.after_add, Nat.add_sub_cancel' hle] at hland
  rw [tryNexts_add, hmiss, tryNexts_one, hland]
  rfl

/-! ### All the answers -/

/-- The solutions among the answers, and the reports that there are no more. -/
def solutions (answers : List (Except Error (Option Substitution))) : List (Option Substitution) :=
  answers.filterMap Except.toOption

theorem solutions_append (as bs : List (Except Error (Option Substitution))) :
    solutions (as ++ bs) = solutions as ++ solutions bs :=
  List.filterMap_append

theorem solutions_error (error : Error) (as : List (Except Error (Option Substitution))) :
    solutions (.error error :: as) = solutions as := rfl

theorem solutions_ok (found : Option Substitution)
    (as : List (Except Error (Option Substitution))) :
    solutions (.ok found :: as) = found :: solutions as := rfl

theorem solutions_replicate_error (n : ℕ) (error : Error) :
    solutions (List.replicate n (.error error)) = [] := by
  induction n with
  | zero => rfl
  | succ n ih => rw [List.replicate_succ, solutions_error, ih]

/-- What is landed on is the next result of an iterator without a limit. -/
theorem exists_land (s : Solutions) {states : Goal.States} (h : states.isSuspended = false) :
    ∃ r : Option State, (s.land states).1 = .ok (r.map State.substitution) ∧
      ∀ found, (s.land states).2.states.Iterates (Goal.rules e) found →
        states.Iterates (Goal.rules e) (r :: found) := by
  rcases land_cases s _ h with ⟨st, left, rfl, hland⟩ | ⟨rfl, hland⟩
  · rw [hland]
    exact ⟨some st, rfl, fun found hfound => .item hfound⟩
  · rw [hland]
    exact ⟨none, rfl, fun found hfound => .ended hfound⟩

/-- The next result of an iterator without a limit is what is landed on. -/
theorem land_of_iterates {r : Option State} {found : List (Option State)}
    (h : s.states.Iterates (Goal.rules e) (r :: found)) :
    ∃ k, s.states.Ahead (Goal.rules e) k ∧
      (s.land (s.states.after (Goal.rules e) k)).1 = .ok (r.map State.substitution) ∧
      (s.land (s.states.after (Goal.rules e) k)).2.states.Iterates (Goal.rules e) found := by
  obtain ⟨k, hk, ⟨st, left, hcons, rfl, hrest⟩ | ⟨hempty, rfl, hrest⟩⟩ := h.exists_ahead
  · refine ⟨k, hk, ?_⟩
    rw [hcons]
    exact ⟨rfl, hrest⟩
  · refine ⟨k, hk, ?_⟩
    rw [hempty]
    exact ⟨rfl, hrest⟩

/-- **Nothing is invented and nothing changes places**: whatever limit a search has, its answers are
those of an iterator without a limit. -/
theorem exists_iterates (e : Engine) (n : ℕ) (s : Solutions) :
    ∃ found, s.states.Iterates (Goal.rules e) found ∧
      solutions (tryNexts e n s).1 = found.map (Option.map State.substitution) := by
  induction n generalizing s with
  | zero => exact ⟨[], .nil _, rfl⟩
  | succ n ih =>
    obtain ⟨found, hfound, hsol⟩ := ih (s.tryNext e).value.2
    rw [tryNexts_succ]
    rcases tryNext_cases e s with ⟨k, -, hk, h⟩ | ⟨hsusp, h⟩
    · obtain ⟨r, hr, hnext⟩ := s.exists_land (e := e) hk.2
      rw [h] at hfound hsol ⊢
      refine ⟨r :: found, Stream.iterates_of_after hk.1 (hnext found hfound), ?_⟩
      rw [hr, solutions_ok, hsol, List.map_cons]
    · rw [h] at hfound hsol ⊢
      refine ⟨found, Stream.iterates_of_after (fun i hi => hsusp i (Nat.le_of_lt hi)) hfound, ?_⟩
      rw [solutions_error, hsol]

/-- **Nothing is lost**: whatever an iterator without a limit gives is given after some number of
calls. -/
theorem exists_solutions_eq {found : List (Option State)} (hL : 1 ≤ s.limit e)
    (h : s.states.Iterates (Goal.rules e) found) :
    ∃ n, solutions (tryNexts e n s).1 = found.map (Option.map State.substitution) := by
  induction found generalizing s with
  | nil => exact ⟨0, rfl⟩
  | cons r found ih =>
    obtain ⟨k, hk, hr, hrest⟩ := land_of_iterates h
    have hstep := tryNexts_of_ahead hL hk
    generalize (k + s.limit e - 1) / s.limit e - 1 = m at hstep
    obtain ⟨n, hn⟩ := ih (by rwa [limit_eq (stepLimit_land s _)]) hrest
    refine ⟨m + 1 + n, ?_⟩
    rw [tryNexts_add, hstep, hr, solutions_append, solutions_append, solutions_replicate_error, hn]
    rfl

/-- The end is reported only where no item is left, however far away. -/
theorem not_yields_of_ended (h : (s.tryNext e).value.1 = .ok none) (k : ℕ) (st : State) :
    ¬ s.states.Yields (Goal.rules e) k st := by
  intro hst
  rcases tryNext_cases e s with ⟨i, -, hi, hland⟩ | ⟨-, hmiss⟩
  · rcases land_cases s _ hi.2 with ⟨st', left, -, hitem⟩ | ⟨hempty, -⟩
    · rw [hland, hitem] at h
      cases h
    · obtain ⟨j, rfl⟩ := Nat.exists_eq_add_of_le (hi.le_of_yields hst)
      rw [Stream.Yields, Stream.after_add, hempty, Stream.after_empty] at hst
      exact List.not_mem_nil hst
  · rw [hmiss] at h
    cases h

/-- A search without states answers that there are no more, and stays so. -/
theorem asks_of_empty {s : Solutions} (hs : s.states = .empty) (later : List Ask) :
    ∀ r ∈ (asks e later s).1, r = .ok none := by
  induction later generalizing s with
  | nil => simp [asks]
  | cons a later ih =>
    obtain ⟨states, stepLimit, pulled⟩ := s
    obtain rfl : states = .empty := hs
    have htry : (tryNext e ⟨.empty, stepLimit, pulled⟩).value =
        (.ok none, ⟨.empty, stepLimit, pulled⟩) :=
      tryNext_of_ahead (Stream.ahead_zero.2 rfl) (Nat.zero_le _)
    have hask : ask e ⟨.empty, stepLimit, pulled⟩ a = (.ok none, ⟨.empty, stepLimit, pulled⟩) := by
      cases a with
      | tryNext => exact htry
      | next => simp only [ask, next, Logged.value_bind, htry, Logged.value_pure]
    rw [asks, hask]
    exact List.forall_mem_cons.2 ⟨rfl, ih rfl⟩

/-- A search that is given up has no states left. -/
theorem next_of_error {error : Error} (h : (s.tryNext e).value.1 = .error error) :
    (s.next e).value.1 = none ∧ (s.next e).value.2.states = .empty := by
  rw [next, Logged.value_bind]
  generalize (s.tryNext e).value = out at h ⊢
  obtain ⟨r, s'⟩ := out
  obtain rfl : r = .error error := h
  exact ⟨rfl, rfl⟩

/-- How a search with the step limit `L` goes on from where it stands. -/
structure Resumes (e : Engine) (L : ℕ) (s : Solutions) : Prop where
  /-- A call forces at most as many suspensions as the limit allows. -/
  forced : ∃ j ≤ L, (∀ i < j, (s.states.after (Goal.rules e) i).isSuspended) ∧
    s.states.pull (Goal.rules e) (s.limit e) =
      ⟨(s.states.after (Goal.rules e) j).front, Stream.reports (Goal.rules e) j s.states⟩
  /-- What is `k` suspensions away is reported after exactly so many errors. -/
  reported : ∀ k, s.states.Ahead (Goal.rules e) k →
    tryNexts e ((k + L - 1) / L - 1 + 1) s =
      (List.replicate ((k + L - 1) / L - 1) (.error (.stepLimitExceeded L)) ++
        [(s.land (s.states.after (Goal.rules e) k)).1],
        (s.land (s.states.after (Goal.rules e) k)).2)
  /-- Where there are items left, the end is not reported. -/
  ended : (s.tryNext e).value.1 = .ok none → ∀ k st, ¬ s.states.Yields (Goal.rules e) k st
  /-- A search that is given up has ended. -/
  abandoned : ∀ error, (s.tryNext e).value.1 = .error error →
    (s.next e).value.1 = none ∧ ∀ later, ∀ r ∈ (asks e later (s.next e).value.2).1, r = .ok none

theorem resumes {L : ℕ} (hL : 1 ≤ L) (hs : s.limit e = L) : Resumes e L s := by
  subst hs
  refine ⟨exists_pull_eq e _ _, fun k hk => tryNexts_of_ahead hL hk, not_yields_of_ended, ?_⟩
  intro error herror
  obtain ⟨hnone, hempty⟩ := next_of_error herror
  exact ⟨hnone, asks_of_empty hempty⟩

theorem error_or_ok (e : Engine) (n : ℕ) (s : Solutions) : ∀ r ∈ (tryNexts e n s).1,
    r = .error (.stepLimitExceeded (s.limit e)) ∨ ∃ found, r = .ok found := by
  induction n generalizing s with
  | zero => simp [tryNexts, asks]
  | succ n ih =>
    rw [tryNexts_succ]
    refine List.forall_mem_cons.2 ⟨?_, ?_⟩
    · rcases tryNext_cases e s with ⟨k, -, hk, h⟩ | ⟨-, h⟩
      · rcases land_cases s _ hk.2 with ⟨st, left, -, hland⟩ | ⟨-, hland⟩
        · exact .inr ⟨_, by rw [h, hland]⟩
        · exact .inr ⟨_, by rw [h, hland]⟩
      · exact .inl (by rw [h])
    · rw [← limit_eq (stepLimit_tryNext e s)]
      exact ih _

/-- **A step limit loses no answer, gives none twice and keeps their order.**  For every stream,
every limit and every number of calls: but for the errors, which say that the limit was met, the
answers are those of an iterator without a limit; every one of these is given at last; and from
wherever the calls have got to, the search goes on as `Resumes` says. -/
theorem stepLimit_exact (e : Engine) (S : Goal.States) (L : ℕ) (hL : 1 ≤ L) :
    (∀ n, let run := tryNexts e n (ofStates S (some L))
      (∀ r ∈ run.1, r = .error (.stepLimitExceeded L) ∨ ∃ found, r = .ok found) ∧
      (∃ found, S.Iterates (Goal.rules e) found ∧
        solutions run.1 = found.map (Option.map State.substitution)) ∧
      Resumes e L run.2) ∧
    ∀ found, S.Iterates (Goal.rules e) found →
      ∃ n, solutions (tryNexts e n (ofStates S (some L))).1 =
        found.map (Option.map State.substitution) := by
  refine ⟨fun n => ?_, fun found h => ?_⟩
  · refine ⟨error_or_ok e n _, exists_iterates e n (ofStates S (some L)), resumes hL ?_⟩
    rw [limit_eq (stepLimit_tryNexts e n _)]
    rfl
  · exact exists_solutions_eq (s := ofStates S (some L)) hL h

/-- A state two suspensions away: with a limit of one it comes after one error. -/
theorem stepLimit_exact_two :
    let e : Engine := ⟨fun _ => none, 0⟩
    let st := State.start {}
    let S : Goal.States := .suspend (.yield (.suspend (.yield (.single st))))
    1 ≤ 1 ∧ (tryNexts e 2 (ofStates S (some 1))).1 =
      [.error (.stepLimitExceeded 1), .ok (some st.substitution)] := by
  intro e st S
  have hahead : S.Ahead (Goal.rules e) 2 := by
    refine ⟨fun i hi => ?_, rfl⟩
    obtain rfl | rfl : i = 0 ∨ i = 1 := by omega
    · rfl
    · rfl
  obtain ⟨-, -, hresumes⟩ := (stepLimit_exact e S 1 le_rfl).1 0
  exact ⟨le_rfl, congrArg Prod.fst (hresumes.reported 2 hahead)⟩

end Solutions

end Relational
