import Mathlib.Data.Multiset.Bind
import Relational.Proofs.Stream.Layers

/-!
# Streams that run out

`s.RunsOut rules good layers` says that a stream ends: `layers` are its heads, the heads behind the
first suspension, and so on up to the last ones, and all reports on the way are good.

How the layers of a merged stream come about is computed by `weave`, and for a bound one by `graft`.
Both can be read in both directions: a merged stream runs out exactly if both streams do
(`runsOut_merge`), and a bound stream exactly if the source does and the streams of all its items do
(`RunsOut.bind`, `exists_runsOut_of_bind`).  Which items there are in all layers, and how often,
does not depend on how the streams take turns (`coe_flatten_weave`, `coe_flatten_graft`).
-/

namespace Relational

/-- All reports of the computation are good. -/
def Logged.Reports {ε α : Type} (good : ε → Prop) (a : Logged ε α) : Prop :=
  ∀ event ∈ a.events, good event

namespace Logged

variable {ε α β : Type} {good : ε → Prop} {a : Logged ε α} {f : α → Logged ε β}

theorem reports_pure (x : α) : (pure x : Logged ε α).Reports good := by
  simp [Reports]

theorem reports_report {event : ε} : (report event).Reports good ↔ good event := by
  simp [Reports, report]

theorem reports_bind : (a >>= f).Reports good ↔ a.Reports good ∧ (f a.value).Reports good := by
  simp [Reports, or_imp, forall_and]

end Logged

namespace Stream

variable {ι κ ε α : Type}

/-! ### Layers -/

/-- The layers of a merged stream: whoever was suspended goes behind the other. -/
def weave : List (List α) → List (List α) → List (List α)
  | [], bs => bs
  | [a], [] => [a]
  | [a], b :: bs => (a ++ b) :: bs
  | a :: a' :: as, bs => a :: weave bs (a' :: as)
  termination_by as bs => as.length + bs.length
  decreasing_by
    simp only [List.length_cons]
    omega

/-- The layers of the given items and of what is merged behind them. -/
def spread (f : α → List (List α)) (behind : List (List α)) (heads : List α) : List (List α) :=
  heads.foldr (fun x others => weave (f x) others) behind

/-- The layers of a bound stream, when `f` gives the layers that come of an item. -/
def graft (f : α → List (List α)) : List (List α) → List (List α)
  | [] => [[]]
  | [heads] => spread f [[]] heads
  | heads :: layers => spread f ([] :: graft f layers) heads

variable {as bs cs layers : List (List α)} {a b xs heads : List α} {f : α → List (List α)} {x : α}

theorem weave_singleton_cons : weave [a] (b :: bs) = (a ++ b) :: bs := by
  rw [weave]

theorem weave_cons (has : as ≠ []) : weave (a :: as) bs = a :: weave bs as := by
  obtain ⟨a', as, rfl⟩ := List.exists_cons_of_ne_nil has
  rw [weave]

theorem graft_cons (h : layers ≠ []) :
    graft f (heads :: layers) = spread f ([] :: graft f layers) heads := by
  obtain ⟨xs, layers, rfl⟩ := List.exists_cons_of_ne_nil h
  rw [graft]
  simp

theorem length_weave (has : as ≠ []) (hbs : bs ≠ []) :
    (weave as bs).length + 1 = as.length + bs.length := by
  induction as, bs using weave.induct with
  | case1 => exact absurd rfl has
  | case2 => exact absurd rfl hbs
  | case3 a b bs => simp [weave_singleton_cons]; omega
  | case4 a a' as bs ih =>
    have hlen := ih hbs (by simp)
    rw [weave_cons (by simp)]
    simp only [List.length_cons] at hlen ⊢
    omega

theorem coe_flatten_weave (as bs : List (List α)) :
    ((weave as bs).flatten : Multiset α) = as.flatten + bs.flatten := by
  induction as, bs using weave.induct with
  | case1 bs => simp [weave]
  | case2 a => simp [weave]
  | case3 a b bs => simp [weave_singleton_cons]
  | case4 a a' as bs ih =>
    have hfirst : ((a :: a' :: as).flatten : Multiset α) = a + (a' :: as).flatten := by
      rw [List.flatten_cons, Multiset.coe_add]
    rw [weave_cons (by simp), List.flatten_cons, ← Multiset.coe_add, ih, hfirst,
      add_comm (bs.flatten : Multiset α), add_assoc]

theorem coe_flatten_spread (f : α → List (List α)) (behind : List (List α)) (heads : List α) :
    ((spread f behind heads).flatten : Multiset α) =
      (heads : Multiset α).bind (fun x => ((f x).flatten : Multiset α)) + behind.flatten := by
  induction heads with
  | nil => simp [spread]
  | cons x heads ih =>
    rw [spread, List.foldr_cons, coe_flatten_weave, ← Multiset.cons_coe, Multiset.cons_bind,
      add_assoc, ← ih, spread]

theorem coe_flatten_graft (f : α → List (List α)) (layers : List (List α)) :
    ((graft f layers).flatten : Multiset α) =
      (layers.flatten : Multiset α).bind fun x => ((f x).flatten : Multiset α) := by
  induction layers using graft.induct with
  | case1 => simp [graft]
  | case2 heads => simp [graft, coe_flatten_spread]
  | case3 heads layers hne ih =>
    rw [graft_cons (by simpa using hne), coe_flatten_spread, List.flatten_cons, List.nil_append, ih,
      List.flatten_cons, ← Multiset.coe_add, Multiset.add_bind]

theorem weave_ne_nil (h : bs ≠ []) : weave as bs ≠ [] := by
  cases as with
  | nil => rwa [weave]
  | cons a as =>
    cases as with
    | nil =>
      obtain ⟨b, bs, rfl⟩ := List.exists_cons_of_ne_nil h
      simp [weave_singleton_cons]
    | cons a' as => simp [weave]

theorem spread_ne_nil (h : layers ≠ []) : spread f layers heads ≠ [] := by
  induction heads with
  | nil => exact h
  | cons x heads ih => exact weave_ne_nil ih

/-- No more suspensions stand in a stream that is merged in than in the whole. -/
theorem length_le_length_spread (hf : ∀ x ∈ heads, f x ≠ []) (h : layers ≠ []) :
    layers.length ≤ (spread f layers heads).length ∧
      ∀ x ∈ heads, (f x).length ≤ (spread f layers heads).length := by
  induction heads with
  | nil => simp [spread]
  | cons x heads ih =>
    obtain ⟨hx, hheads⟩ := List.forall_mem_cons.1 hf
    obtain ⟨hlayers, hle⟩ := ih hheads
    have hlen : (spread f layers (x :: heads)).length + 1 =
        (f x).length + (spread f layers heads).length :=
      length_weave hx (spread_ne_nil h)
    have hpos := List.length_pos_iff.2 hx
    have hne : spread f layers heads ≠ [] := spread_ne_nil h
    have hpos' := List.length_pos_iff.2 hne
    refine ⟨by omega, List.forall_mem_cons.2 ⟨by omega, fun y hy => ?_⟩⟩
    have := hle y hy
    omega

theorem mem_flatten_weave : x ∈ (weave as bs).flatten ↔ x ∈ as.flatten ∨ x ∈ bs.flatten := by
  rw [← Multiset.mem_coe, coe_flatten_weave, Multiset.mem_add, Multiset.mem_coe, Multiset.mem_coe]

theorem mem_flatten_graft :
    x ∈ (graft f layers).flatten ↔ ∃ y ∈ layers.flatten, x ∈ (f y).flatten := by
  rw [← Multiset.mem_coe, coe_flatten_graft, Multiset.mem_bind]
  rfl

/-- No more suspensions stand in the streams of a bound stream than in the whole. -/
theorem length_le_length_graft (hf : ∀ x ∈ layers.flatten, f x ≠ []) (h : layers ≠ []) :
    layers.length ≤ (graft f layers).length ∧
      ∀ x ∈ layers.flatten, (f x).length ≤ (graft f layers).length := by
  induction layers using graft.induct with
  | case1 => exact absurd rfl h
  | case2 heads =>
    rw [List.flatten_singleton] at hf ⊢
    rw [graft]
    exact length_le_length_spread hf (List.cons_ne_nil [] [])
  | case3 heads layers hne ih =>
    rw [List.flatten_cons] at hf ⊢
    obtain ⟨hlayers, hle⟩ := ih (fun x hx => hf x (List.mem_append_right _ hx)) (by simpa using hne)
    obtain ⟨hrest, hheads⟩ := length_le_length_spread
      (fun x hx => hf x (List.mem_append_left _ hx)) (List.cons_ne_nil [] (graft f layers))
    rw [graft_cons (by simpa using hne)]
    rw [List.length_cons] at hrest
    refine ⟨by rw [List.length_cons]; omega, fun x hx => ?_⟩
    rcases List.mem_append.1 hx with hx | hx
    · exact hheads x hx
    · have := hle x hx
      omega

/-! ### Running out -/

/-- The stream ends, `layers` are the heads behind each suspension, and all reports are good. -/
inductive RunsOut (rules : Rules ι κ ε α) (good : ε → Prop) :
    Stream ι κ α → List (List α) → Prop
  | ended {s : Stream ι κ α} : s.rest = none → RunsOut rules good s [s.heads]
  | force {s : Stream ι κ α} {p : Suspension ι κ α} {layers : List (List α)} : s.rest = some p →
      (p.force rules).Reports good → RunsOut rules good (p.force rules).value layers →
      RunsOut rules good s (s.heads :: layers)

variable {rules : Rules ι κ ε α} {good : ε → Prop} {r s : Stream ι κ α}
  {p : Suspension ι κ α} {continuation : κ} {others : List (List α)}

theorem RunsOut.ne_nil (h : s.RunsOut rules good layers) : layers ≠ [] := by
  cases h <;> simp

theorem RunsOut.unique (h : s.RunsOut rules good layers) (h' : s.RunsOut rules good others) :
    layers = others := by
  induction h generalizing others with
  | ended hs =>
    cases h' with
    | ended => rfl
    | force hs' => cases hs.symm.trans hs'
  | force hs _ _ ih =>
    cases h' with
    | ended hs' => cases hs.symm.trans hs'
    | force hs' _ h' =>
      cases hs.symm.trans hs'
      rw [ih h']

theorem runsOut_ofList (xs : List α) : (ofList xs).RunsOut rules good [xs] := by
  have hended : (ofList xs).RunsOut rules good [(ofList xs).heads] := .ended (rest_ofList xs)
  rwa [heads_ofList] at hended

theorem runsOut_empty : (empty : Stream ι κ α).RunsOut rules good [[]] := .ended rfl

theorem runsOut_suspend : (suspend p).RunsOut rules good layers ↔
    ∃ behind, layers = [] :: behind ∧ (p.force rules).Reports good ∧
      (p.force rules).value.RunsOut rules good behind := by
  constructor
  · intro h
    cases h with
    | ended hs => cases hs
    | force hs hp h =>
      cases hs
      exact ⟨_, rfl, hp, h⟩
  · rintro ⟨behind, rfl, hp, h⟩
    exact .force rfl hp h

theorem reports_force_swap :
    ((Suspension.swap s p).force rules).Reports good ↔ (p.force rules).Reports good := by
  rw [Suspension.force, Logged.reports_bind]
  exact and_iff_left (Logged.reports_pure _)

/-- Two streams that run out are merged to one that runs out. -/
theorem RunsOut.merge (hr : r.RunsOut rules good as) (hs : s.RunsOut rules good bs) :
    (r.merge s).RunsOut rules good (weave as bs) := by
  induction as, bs using weave.induct generalizing r s with
  | case1 => exact absurd rfl hr.ne_nil
  | case2 => exact absurd rfl hs.ne_nil
  | case3 a b bs =>
    rw [weave_singleton_cons]
    cases hr with
    | ended hr =>
      have hheads := heads_merge_of_ended s hr
      have hrest := rest_merge_of_ended s hr
      cases hs with
      | ended hs =>
        rw [← hheads]
        exact .ended (hrest.trans hs)
      | force hs hp hbehind =>
        rw [← hheads]
        exact .force (hrest.trans hs) hp hbehind
    | force _ _ hr => exact absurd rfl hr.ne_nil
  | case4 a a' as bs ih =>
    rw [weave_cons (by simp)]
    cases hr with
    | force hr hp hbehind =>
      have hheads := heads_merge_of_suspended s hr
      rw [← hheads]
      exact .force (rest_merge_of_suspended s hr) (reports_force_swap.2 hp) (ih hs hbehind)

/-- A merged stream runs out only if both streams do. -/
theorem exists_runsOut_of_merge (h : (r.merge s).RunsOut rules good cs) :
    ∃ as bs, r.RunsOut rules good as ∧ s.RunsOut rules good bs ∧ cs = weave as bs := by
  -- by the number of suspensions, since the two streams change places
  induction hn : cs.length generalizing r s cs with
  | zero => exact absurd (List.length_eq_zero_iff.1 hn) h.ne_nil
  | succ n ih =>
    cases hr : r.rest with
    | none =>
      have hheads := heads_merge_of_ended s hr
      have hrest := rest_merge_of_ended s hr
      cases h with
      | ended hs =>
        refine ⟨_, _, .ended hr, .ended (hrest.symm.trans hs), ?_⟩
        rw [weave_singleton_cons, hheads]
      | force hs hp h =>
        refine ⟨_, _, .ended hr, .force (hrest.symm.trans hs) hp h, ?_⟩
        rw [weave_singleton_cons, hheads]
    | some p =>
      have hheads := heads_merge_of_suspended s hr
      have hrest := rest_merge_of_suspended s hr
      cases h with
      | ended hs => cases hrest.symm.trans hs
      | force hs hp h =>
        cases hrest.symm.trans hs
        obtain ⟨bs, as, hbs, has, rfl⟩ := ih h (by simpa using hn)
        refine ⟨r.heads :: as, bs, .force hr (reports_force_swap.1 hp) has, hbs, ?_⟩
        rw [weave_cons has.ne_nil, hheads]

theorem runsOut_merge : (r.merge s).RunsOut rules good cs ↔
    ∃ as bs, r.RunsOut rules good as ∧ s.RunsOut rules good bs ∧ cs = weave as bs := by
  constructor
  · exact exists_runsOut_of_merge
  · rintro ⟨as, bs, hr, hs, rfl⟩
    exact hr.merge hs

/-! ### Binding -/

theorem reports_bindWith {g : α → Logged ε (Stream ι κ α)} :
    (s.bindWith continuation g).Reports good ↔ ∀ x ∈ s.heads, (g x).Reports good := by
  induction s with
  | cons x d ih =>
    rw [cons_bindWith, Logged.reports_bind, ih, Logged.reports_bind, heads_cons,
      List.forall_mem_cons, and_comm]
    exact and_congr_left fun _ => and_iff_left (Logged.reports_pure _)
  | _ => exact iff_of_true (Logged.reports_pure _) (by simp)

/-- The streams of some items run out together with what they are merged with. -/
theorem runsOut_foldr {g : α → Stream ι κ α} (hg : ∀ x ∈ heads, (g x).RunsOut rules good (f x))
    (hs : s.RunsOut rules good layers) :
    (heads.foldr (fun x others => (g x).merge others) s).RunsOut rules good
      (spread f layers heads) := by
  induction heads with
  | nil => exact hs
  | cons x heads ih =>
    obtain ⟨hx, hheads⟩ := List.forall_mem_cons.1 hg
    exact hx.merge (ih hheads)

/-- The layers of a stream that runs out. -/
noncomputable def allLayers (rules : Rules ι κ ε α) (good : ε → Prop) (s : Stream ι κ α) :
    List (List α) :=
  open Classical in if h : ∃ layers, s.RunsOut rules good layers then h.choose else []

theorem RunsOut.allLayers_eq (h : s.RunsOut rules good others) :
    s.allLayers rules good = others := by
  have hex : ∃ layers, s.RunsOut rules good layers := ⟨others, h⟩
  rw [allLayers, dif_pos hex]
  exact hex.choose_spec.unique h

theorem exists_runsOut_of_foldr {g : α → Stream ι κ α}
    (h : (heads.foldr (fun x others => (g x).merge others) s).RunsOut rules good cs) :
    (∀ x ∈ heads, (g x).RunsOut rules good ((g x).allLayers rules good)) ∧
      ∃ others, s.RunsOut rules good others ∧
        cs = spread (fun x => (g x).allLayers rules good) others heads := by
  induction heads generalizing cs with
  | nil => exact ⟨by simp, cs, h, rfl⟩
  | cons x heads ih =>
    obtain ⟨as, bs, hx, hheads, rfl⟩ := exists_runsOut_of_merge h
    obtain ⟨hall, others, hs, rfl⟩ := ih hheads
    refine ⟨List.forall_mem_cons.2 ⟨hx.allLayers_eq.symm ▸ hx, hall⟩, others, hs, ?_⟩
    rw [← hx.allLayers_eq]
    rfl

/-- If a stream runs out, and the streams of all its items do, then so does the bound stream. -/
theorem RunsOut.bind (hs : s.RunsOut rules good layers) (continuation : κ)
    (hf : ∀ x ∈ layers.flatten, (rules.expand continuation x).Reports good ∧
      (rules.expand continuation x).value.RunsOut rules good (f x)) :
    (s.bind rules continuation).Reports good ∧
      (s.bind rules continuation).value.RunsOut rules good (graft f layers) := by
  induction hs with
  | ended hs =>
    rw [List.flatten_singleton] at hf
    refine ⟨reports_bindWith.2 fun x hx => (hf x hx).1, ?_⟩
    rw [Stream.bind, value_bindWith, graft, bindRest, hs]
    exact runsOut_foldr (fun x hx => (hf x hx).2) runsOut_empty
  | @force s p layers hs hp hrest ih =>
    rw [List.flatten_cons] at hf
    obtain ⟨hreports, hlayers⟩ := ih fun x hx => hf x (List.mem_append_right _ hx)
    have hforce : ((Suspension.bind p continuation).force rules).Reports good := by
      rw [Suspension.force, Logged.reports_bind]
      exact ⟨hp, hreports⟩
    refine ⟨reports_bindWith.2 fun x hx => (hf x (List.mem_append_left _ hx)).1, ?_⟩
    rw [Stream.bind, value_bindWith, graft_cons hrest.ne_nil, bindRest, hs]
    exact runsOut_foldr (fun x hx => (hf x (List.mem_append_left _ hx)).2)
      (.force rfl hforce hlayers)

/-- A bound stream runs out only if the source does, and the streams of all its items do. -/
theorem exists_runsOut_of_bind (hreports : (s.bind rules continuation).Reports good)
    (h : (s.bind rules continuation).value.RunsOut rules good cs) :
    ∃ layers, s.RunsOut rules good layers ∧
      (∀ x ∈ layers.flatten, (rules.expand continuation x).Reports good ∧
        ∃ others, (rules.expand continuation x).value.RunsOut rules good others) ∧
      cs = graft (fun x => (rules.expand continuation x).value.allLayers rules good) layers := by
  induction hn : cs.length using Nat.strong_induction_on generalizing s cs with
  | _ n ih =>
    subst hn
    rw [Stream.bind, reports_bindWith] at hreports
    rw [Stream.bind, value_bindWith] at h
    obtain ⟨hall, others, hothers, rfl⟩ := exists_runsOut_of_foldr h
    rw [bindRest] at hothers
    cases hs : s.rest with
    | none =>
      rw [hs] at hothers
      obtain rfl := hothers.unique runsOut_empty
      refine ⟨[s.heads], .ended hs, fun x hx => ?_, by rw [graft]⟩
      rw [List.flatten_singleton] at hx
      exact ⟨hreports x hx, _, hall x hx⟩
    | some p =>
      rw [hs] at hothers
      obtain ⟨behind, rfl, hforce, hbehind⟩ := runsOut_suspend.1 hothers
      rw [Suspension.force, Logged.reports_bind] at hforce
      have hle := (length_le_length_spread (fun x hx => (hall x hx).ne_nil)
        (List.cons_ne_nil [] behind)).1
      obtain ⟨layers, hlayers, hrest, rfl⟩ :=
        ih _ (Nat.lt_of_lt_of_le (Nat.lt_succ_self _) hle) hforce.2 hbehind rfl
      refine ⟨s.heads :: layers, .force hs hforce.1 hlayers, fun x hx => ?_,
        (graft_cons hlayers.ne_nil).symm⟩
      rw [List.flatten_cons, List.mem_append] at hx
      exact hx.elim (fun hx => ⟨hreports x hx, _, hall x hx⟩) (hrest x)

end Stream

end Relational
