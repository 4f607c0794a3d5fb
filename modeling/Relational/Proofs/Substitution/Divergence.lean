import Relational.Proofs.Substitution.Fresh
import Relational.Proofs.Substitution.Termination

/-!
# When unification without the check does not end

Without the occurs check the bindings of one call may close a cycle, and a later pair of the same
call may run into it.  That is all that can go wrong: a loop that starts without cycles does not end
exactly if it `Diverges`, which is to say that

* it comes to a variable that is to be bound to a term from which a cycle can be reached
  (`WalksForever`), or
* it comes again and again to two compounds from both of which a cycle can be reached (`Circles`).

Away from these the loop ends for the reason for which it ends under the check: a binding leaves one
unbound variable fewer, and between two bindings the children of a pair are smaller than the pair,
as long as one of its sides is a finite tree (`Quiet.ends`).

A cycle in the bindings is one that the check refuses to close, so a call that does not end without
the check is refused by it.  The main result is `Acyclic.unify_unchecked_returns_iff`.
-/

namespace Relational

namespace Substitution

open Filter Relation

/-- A variable is to be bound to a term from which a cycle can be reached. -/
inductive WalksForever : Waiting → Prop
  | intro {s : Substitution} {u v u' v' t : Term} {x : Var} {pending : List (Term × Term)} :
      s.Resolves u v u' v' → demand u' v' = .binding x t → s.LeadsToCycle t →
      WalksForever (s, (u, v) :: pending)

/-- Two compounds of one kind are next, and a cycle can be reached from both of them. -/
inductive Circles : Waiting → Prop
  | intro {s : Substitution} {u v u' v' : Term} {pairs pending : List (Term × Term)} :
      s.Resolves u v u' v' → demand u' v' = .children pairs → s.LeadsToCycle u →
      s.LeadsToCycle v → Circles (s, (u, v) :: pending)

/-- The loop without the check runs into a walk that does not end, or comes again and again to two
compounds that lead to a cycle. -/
def Diverges (a : Waiting) : Prop :=
  (∃ b, ReflTransGen (Turn false) a b ∧ WalksForever b) ∨
    ∀ b, ReflTransGen (Turn false) a b → ∃ c, ReflTransGen (Turn false) b c ∧ Circles c

/-- The loop without the check ends. -/
def Ends (a : Waiting) : Prop := ∃ r, Unifies false a.1 a.2 r

variable {check : Bool} {Q : Finset Var} {s : Substitution} {t u v u' v' w : Term} {x : Var}
  {p : Term × Term} {pending pairs : List (Term × Term)} {r : Except Refusal Substitution}
  {a b c : Waiting}

/-! ### Following variables bound to variables -/

/-- Every chain of variables that are bound to each other ends. -/
def Resolvable (s : Substitution) : Prop := ∀ t, ∃ n u, s.resolve n t = some u

theorem Acyclic.resolvable (hs : s.Acyclic) : s.Resolvable := fun t => (hs.walks t).exists_resolve

/-- Binding a variable to a walked term makes no chain of variables endless, even where it closes
a cycle. -/
theorem Resolvable.insert (hs : s.Resolvable) (hx : s.get? x = none) (hw : s.Walks t w)
    (hne : w ≠ .var x) : (s.insert x w).Resolvable := by
  have hkeep : ∀ y, y ≠ x → (s.insert x w).get? y = s.get? y := by
    intro y hy
    rw [get?_insert, if_neg hy.symm]
  have hwr : (s.insert x w).Resolved w := by
    rintro y rfl
    rw [hkeep y fun hy => hne (by rw [hy])]
    exact hw.free_of_occurs .var
  intro t
  obtain ⟨n, u, hu⟩ := hs t
  refine resolve_ind (motive := fun t _ => ∃ m u, (s.insert x w).resolve m t = some u) ?_ ?_ hu
  · intro t ht
    by_cases htx : t = .var x
    · exact ⟨1, w, by rw [htx, resolve_bound get?_insert_self, hwr.resolve_eq]⟩
    · refine ⟨0, t, Resolved.resolve_eq ?_⟩
      rintro y rfl
      rw [hkeep y fun hy => htx (by rw [hy]), ht y rfl]
  · rintro y t u hy ⟨m, u', hu'⟩
    have hyx : y ≠ x := by
      rintro rfl
      simp [hx] at hy
    exact ⟨m + 1, u', by rw [resolve_bound ((hkeep y hyx).trans hy), hu']⟩

theorem Turn.resolvable (h : Turn check a b) (ha : a.1.Resolvable) : b.1.Resolvable := by
  cases h with
  | binding hres hd hw _ => exact ha.insert (hres.free hd) hw (hres.ne_var hd hw)
  | _ => exact ha

theorem Resolvable.turns (ha : a.1.Resolvable) (hab : ReflTransGen (Turn check) a b) :
    b.1.Resolvable := by
  induction hab with
  | refl => exact ha
  | tail _ hbc ih => exact hbc.resolvable ih

/-! ### A loop away from cycles -/

/-- Bindings and pairs have only finitely many variables. -/
theorem exists_waitingOver (a : Waiting) : ∃ Q : Finset Var, WaitingOver (· ∈ Q) a := by
  let bound := a.1.bindings.keys.flatMap fun x => x :: ((a.1.get? x).getD .unassigned).vars
  let waiting := a.2.flatMap fun p => p.1.vars ++ p.2.vars
  have hbound : ∀ x t, a.1.get? x = some t → ∀ y, y = x ∨ t.Occurs y →
      y ∈ (bound ++ waiting).toFinset := by
    intro x t hx y hy
    have hkey : x ∈ a.1.bindings.keys := mem_bindings_keys.2 (by simp [hx])
    refine List.mem_toFinset.2 (List.mem_append_left _ (List.mem_flatMap.2 ⟨x, hkey, ?_⟩))
    simpa [hx] using hy
  have hwaiting : ∀ p ∈ a.2, ∀ y, p.1.Occurs y ∨ p.2.Occurs y →
      y ∈ (bound ++ waiting).toFinset := by
    intro p hp y hy
    refine List.mem_toFinset.2 (List.mem_append_right _ (List.mem_flatMap.2 ⟨p, hp, ?_⟩))
    simpa using hy
  refine ⟨(bound ++ waiting).toFinset, fun x t hx => ?_, fun p hp => ?_⟩
  · exact ⟨hbound x t hx x (.inl rfl), fun y hy => hbound x t hx y (.inr hy)⟩
  · exact ⟨fun y hy => hwaiting p hp y (.inl hy), fun y hy => hwaiting p hp y (.inr hy)⟩

/-- The loop does not meet a cycle from here on, and all its variables are in `Q`. -/
structure Quiet (Q : Finset Var) (a : Waiting) : Prop where
  resolvable : a.1.Resolvable
  within : WaitingOver (· ∈ Q) a
  calm : ∀ b, ReflTransGen (Turn false) a b → ¬ WalksForever b ∧ ¬ Circles b

theorem Quiet.turn (h : Quiet Q a) (hab : Turn false a b) : Quiet Q b :=
  ⟨hab.resolvable h.resolvable, hab.over h.within, fun c hc => h.calm c (.head hab hc)⟩

/-- The variables of `Q` that are not bound. -/
def unboundIn (Q : Finset Var) (s : Substitution) : Finset Var :=
  Q.filter fun x => s.get? x = none

theorem unboundIn_insert (hQ : x ∈ Q) (hx : s.get? x = none) :
    (unboundIn Q (s.insert x w)).card < (unboundIn Q s).card := by
  refine Finset.card_lt_card ((Finset.ssubset_iff_of_subset fun y hy => ?_).2 ⟨x, ?_, ?_⟩)
  · obtain ⟨hyQ, hy⟩ := Finset.mem_filter.1 hy
    rw [get?_insert] at hy
    split_ifs at hy
    exact Finset.mem_filter.2 ⟨hyQ, hy⟩
  · exact Finset.mem_filter.2 ⟨hQ, hx⟩
  · simp [unboundIn]

theorem Turn.ends (hab : Turn false a b) (hb : Ends b) : Ends a := by
  obtain ⟨r, hr⟩ := hb
  exact ⟨r, hab.unifies hr⟩

/-- Where no walk runs on forever, the loop ends if it does so behind its next turn. -/
theorem Quiet.ends_of_turns (h : Quiet Q (s, p :: pending))
    (hnext : ∀ b, Turn false (s, p :: pending) b → Quiet Q b → Ends b) :
    Ends (s, p :: pending) := by
  have hturn : ∀ b, Turn false (s, p :: pending) b → Ends (s, p :: pending) := fun b hab =>
    hab.ends (hnext b hab (h.turn hab))
  obtain ⟨u, v⟩ := p
  obtain ⟨n, u', hu⟩ := h.resolvable u
  obtain ⟨m, v', hv⟩ := h.resolvable v
  obtain ⟨x, rfl, rfl⟩ | hres := skipped_or_resolves ⟨n, hu⟩ ⟨m, hv⟩
  · exact hturn _ (.same ⟨n, hu⟩)
  cases hd : demand u' v' with
  | nothing => exact hturn _ (.nothing hres hd)
  | children pairs => exact hturn _ (.children hres hd)
  | impossible => exact ⟨_, .clash hres hd⟩
  | binding x t =>
    obtain ⟨w, hw⟩ := walks_iff.2 fun ht => (h.calm _ .refl).1 (.intro hres hd ht)
    exact hturn _ (.binding hres hd hw (by simp))

/-- The loop gets past the pair, if what stands behind it and what comes after a binding ends. -/
def Passes (Q : Finset Var) (s : Substitution) (p : Term × Term) : Prop :=
  ∀ pending, (Quiet Q (s, pending) → Ends (s, pending)) → Quiet Q (s, p :: pending) →
    Ends (s, p :: pending)

theorem ends_of_forall_passes (hpairs : ∀ p ∈ pairs, Passes Q s p)
    (hpending : Quiet Q (s, pending) → Ends (s, pending)) :
    Quiet Q (s, pairs ++ pending) → Ends (s, pairs ++ pending) := by
  induction pairs with
  | nil => exact hpending
  | cons p pairs ih =>
    obtain ⟨hp, hpairs⟩ := List.forall_mem_cons.1 hpairs
    exact hp _ (ih hpairs)

/-- A pair is passed if its children are. -/
theorem passes_of_children
    (hfewer : ∀ b, (unboundIn Q b.1).card < (unboundIn Q s).card → Quiet Q b → Ends b)
    (hchildren : ∀ u' v' pairs, s.Resolves u v u' v' → demand u' v' = .children pairs →
      ¬ (s.LeadsToCycle u ∧ s.LeadsToCycle v) → ∀ p ∈ pairs, Passes Q s p) :
    Passes Q s (u, v) := by
  intro pending hpending hq
  refine hq.ends_of_turns fun b hab hb => ?_
  cases hab with
  | same _ => exact hpending hb
  | nothing _ _ => exact hpending hb
  | binding hres hd hw _ =>
    obtain ⟨hu, hv⟩ := (List.forall_mem_cons.1 hq.within.2).1
    obtain ⟨hu', hv'⟩ := hres.over hq.within.1 hu hv
    exact hfewer _ (unboundIn_insert (over_of_demand_binding hd hu' hv').1 (hres.free hd)) hb
  | children hres hd =>
    refine ends_of_forall_passes (hchildren _ _ _ hres hd ?_) hpending hb
    exact fun hc => (hq.calm _ .refl).2 (.intro hres hd hc.1 hc.2)

/-- The children of a compound walk to smaller terms than it does. -/
theorem Walks.exists_child {shape : Shape} {ts : List Term} (h : s.Walks (.compound shape ts) w)
    (ht : t ∈ ts) : ∃ w', s.Walks t w' ∧ w'.weight < w.weight := by
  obtain ⟨ws, rfl, hf⟩ := walks_compound_iff.1 h
  obtain ⟨i, hi, rfl⟩ := List.mem_iff_getElem.1 ht
  have hi' : i < ws.length := hf.length_eq ▸ hi
  refine ⟨ws[i], hf.get hi hi', ?_⟩
  have := Term.weight_le_weights (List.getElem_mem hi')
  rw [Term.weight_compound]
  omega

/-- A pair with one side that can be walked is passed: its children have such a side, and a smaller
one. -/
theorem passes_of_walks
    (hfewer : ∀ b, (unboundIn Q b.1).card < (unboundIn Q s).card → Quiet Q b → Ends b)
    (hw : s.Walks u w ∨ s.Walks v w) : Passes Q s (u, v) := by
  induction hk : w.weight using Nat.strong_induction_on generalizing u v w with
  | _ k ih =>
    subst hk
    refine passes_of_children hfewer fun u' v' pairs hres hd _ p hp => ?_
    obtain ⟨n, hu⟩ := hres.left
    obtain ⟨m, hv⟩ := hres.right
    obtain ⟨shape, ts, us, rfl, rfl, -, rfl⟩ := eq_of_demand_children hd
    obtain ⟨ht, hu'⟩ := List.of_mem_zip hp
    rcases hw with hw | hw
    · obtain ⟨w', hw', hlt⟩ := ((walks_iff_of_resolve hu).1 hw).exists_child ht
      exact ih _ hlt (.inl hw') rfl
    · obtain ⟨w', hw', hlt⟩ := ((walks_iff_of_resolve hv).1 hw).exists_child hu'
      exact ih _ hlt (.inr hw') rfl

/-- **Away from cycles the loop ends.** -/
theorem Quiet.ends (h : Quiet Q a) : Ends a := by
  -- by the unbound variables, of which a binding takes one; until then the pairs are passed in turn
  induction hc : (unboundIn Q a.1).card using Nat.strong_induction_on generalizing a with
  | _ c ih =>
    subst hc
    obtain ⟨s, pending⟩ := a
    have hfewer : ∀ b, (unboundIn Q b.1).card < (unboundIn Q s).card → Quiet Q b → Ends b :=
      fun b hb hq => ih _ hb hq rfl
    have hpass : ∀ u v, Passes Q s (u, v) := by
      intro u v
      by_cases hcycle : s.LeadsToCycle u ∧ s.LeadsToCycle v
      · -- the children of such a pair are never looked at
        exact passes_of_children hfewer fun _ _ _ _ _ hno => absurd hcycle hno
      · rw [not_and_or, ← walks_iff, ← walks_iff] at hcycle
        obtain ⟨w, hw⟩ | ⟨w, hw⟩ := hcycle
        · exact passes_of_walks hfewer (.inl hw)
        · exact passes_of_walks hfewer (.inr hw)
    have hnil : Quiet Q (s, []) → Ends (s, []) := fun _ => ⟨_, .done s⟩
    simpa using ends_of_forall_passes (fun p _ => hpass p.1 p.2) hnil (by simpa using h)

/-! ### A loop that meets a cycle -/

theorem WalksForever.not_ends (h : WalksForever a) : ¬ Ends a := by
  rintro ⟨r, hr⟩
  obtain ⟨hres, hd, ht⟩ := h
  cases hr with
  | same => simpa [sameVariable] using hres.differ
  | nothing hres' hd' => simpa [hd, hd'] using hres.demand_eq hres'
  | binding hres' hd' hw =>
    obtain ⟨rfl, rfl⟩ : _ ∧ _ := by simpa [hd, hd'] using hres.demand_eq hres'
    exact walks_iff.1 ⟨_, hw⟩ ht
  | circular _ _ _ hcheck => cases hcheck
  | children hres' hd' => simpa [hd, hd'] using hres.demand_eq hres'
  | clash hres' hd' => simpa [hd, hd'] using hres.demand_eq hres'

/-- A loop behind each of whose turns a cycle is met again does not end. -/
theorem not_ends_of_circles
    (h : ∀ b, ReflTransGen (Turn false) a b → ∃ c, ReflTransGen (Turn false) b c ∧ Circles c) :
    ¬ Ends a := by
  obtain ⟨s, pending⟩ := a
  rintro ⟨r, hr⟩
  change Unifies false s pending r at hr
  induction hr with
  | done s =>
    obtain ⟨c, hc, hcircles⟩ := h _ .refl
    obtain rfl | ⟨_, hturn, -⟩ := hc.cases_head
    · cases hcircles
    · cases hturn
  | same hu _ ih => exact ih fun b hb => h b (.head (.same hu) hb)
  | nothing hres hd _ ih => exact ih fun b hb => h b (.head (.nothing hres hd) hb)
  | binding hres hd hw hc _ ih => exact ih fun b hb => h b (.head (.binding hres hd hw hc) hb)
  | circular _ _ _ hcheck => cases hcheck
  | children hres hd _ ih => exact ih fun b hb => h b (.head (.children hres hd) hb)
  | clash hres hd =>
    obtain ⟨c, hc, hcircles⟩ := h _ .refl
    obtain rfl | ⟨_, hturn, -⟩ := hc.cases_head
    · obtain ⟨hres', hd'⟩ := hcircles
      simpa [hd, hd'] using hres.demand_eq hres'
    · exact hres.not_turn hd hturn

theorem Ends.of_turns (hab : ReflTransGen (Turn false) a b) (hb : Ends b) : Ends a := by
  induction hab using ReflTransGen.head_induction_on with
  | refl => exact hb
  | head hac _ ih => exact hac.ends ih

theorem Ends.behind (ha : Ends a) (hab : ReflTransGen (Turn false) a b) : Ends b := by
  induction hab with
  | refl => exact ha
  | tail _ hbc ih =>
    obtain ⟨r, hr⟩ := ih
    exact ⟨r, hr.turn hbc hr.ne_unfinished⟩

theorem Diverges.not_ends (h : Diverges a) : ¬ Ends a := by
  rcases h with ⟨b, hab, hb⟩ | h
  · exact fun ha => hb.not_ends (ha.behind hab)
  · exact not_ends_of_circles h

/-- A loop whose chains of variables end, ends itself unless it diverges. -/
theorem ends_iff_not_diverges (ha : a.1.Resolvable) : Ends a ↔ ¬ Diverges a := by
  refine ⟨fun hends h => h.not_ends hends, fun h => ?_⟩
  rw [Diverges, not_or] at h
  push Not at h
  obtain ⟨hwalks, b, hab, hcircles⟩ := h
  obtain ⟨Q, hQ⟩ := exists_waitingOver b
  have hquiet : Quiet Q b :=
    ⟨ha.turns hab, hQ, fun c hc => ⟨hwalks c (hab.trans hc), hcircles c hc⟩⟩
  exact .of_turns hab hquiet.ends

/-- A loop that diverges has made a cycle. -/
theorem Diverges.exists_not_acyclic (h : Diverges a) :
    ∃ b, ReflTransGen (Turn false) a b ∧ ¬ b.1.Acyclic := by
  have hcycle : ∀ {s : Substitution} {t}, s.LeadsToCycle t → ¬ s.Acyclic := by
    rintro s t ⟨_, y, -, -, hy⟩ hs
    exact hs y hy
  rcases h with ⟨b, hab, ⟨_, _, ht⟩⟩ | h
  · exact ⟨_, hab, hcycle ht⟩
  · obtain ⟨b, hab, ⟨_, _, hu, _⟩⟩ := h a .refl
    exact ⟨_, hab, hcycle hu⟩

/-- The check lets a turn pass, or refuses the binding that the turn makes. -/
theorem Turn.checked (h : Turn false a b) :
    Turn true a b ∨ ∃ x w, Unifies true a.1 a.2 (.error (.circular x w)) := by
  cases h with
  | same hu => exact .inl (.same hu)
  | nothing hres hd => exact .inl (.nothing hres hd)
  | @binding s u v u' v' t w x pending hres hd hw _ =>
    by_cases hx : w.Occurs x
    · exact .inr ⟨x, w, .circular hres hd hw rfl hx⟩
    · exact .inl (.binding hres hd hw fun _ => hx)
  | children hres hd => exact .inl (.children hres hd)

theorem Turn.acyclic (h : Turn true a b) (ha : a.1.Acyclic) : b.1.Acyclic := by
  cases h with
  | binding hres hd hw hc => exact hw.acyclic_insert ha (hres.free hd) (hc rfl)
  | _ => exact ha

/-- **The check refuses to close the cycle** that the loop without it comes to. -/
theorem exists_circular_of_turns (ha : a.1.Acyclic) (hab : ReflTransGen (Turn false) a b)
    (hb : ¬ b.1.Acyclic) : ∃ x w, Unifies true a.1 a.2 (.error (.circular x w)) := by
  induction hab using ReflTransGen.head_induction_on with
  | refl => exact absurd ha hb
  | head hac _ ih =>
    obtain hturn | hcircular := hac.checked
    · obtain ⟨x, w, h⟩ := ih (hturn.acyclic ha)
      exact ⟨x, w, hturn.unifies h⟩
    · exact hcircular

/-- **When unification without the check returns.**  Starting without cycles it returns exactly if
it does not come to bind a variable to a term from which a cycle can be reached, nor again and again
to two compounds from both of which a cycle can be reached.  It returns with a substitution or for
lack of one.  Where it never returns, it has closed a cycle that the occurs check refuses. -/
theorem Acyclic.unify_unchecked_returns_iff (hs : s.Acyclic) (u v : Term) :
    ((∃ r, s.Returns false u v r) ↔ ¬ Diverges (s, [(u, v)])) ∧
    (∀ r, s.Returns false u v r → (∃ s', r = .ok s') ∨ ∃ a b, r = .error (.clash a b)) ∧
    (Diverges (s, [(u, v)]) → (∀ n, s.unify false n u v = .error .unfinished) ∧
      ∃ x w, s.Returns true u v (.error (.circular x w))) := by
  refine ⟨?_, fun r hr => ?_, fun h => ⟨fun n => ?_, ?_⟩⟩
  · rw [← ends_iff_not_diverges hs.resolvable]
    exact exists_congr fun r => returns_iff
  · cases r with
    | ok s' => exact .inl ⟨s', rfl⟩
    | error refusal =>
      obtain ⟨a, b, rfl⟩ | ⟨h, -⟩ := (returns_iff.1 hr).refusal_cases
      · exact .inr ⟨a, b, rfl⟩
      · cases h
  · by_contra hn
    exact h.not_ends ⟨_, unifies_of_unifyAll rfl hn⟩
  · obtain ⟨b, hab, hb⟩ := h.exists_not_acyclic
    obtain ⟨x, w, hcircular⟩ := exists_circular_of_turns hs hab hb
    exact ⟨x, w, returns_iff.2 hcircular⟩

/-- The last children of two compounds are equal by the bindings for the children before them. -/
theorem unify_unchecked_returns_shared :
    let x := Term.var (.fresh 0)
    let y := Term.var (.fresh 1)
    let fz := Term.compound ⟨"f"⟩ [.var (.fresh 2)]
    let u := Term.compound ⟨"h"⟩ [x, y, x]
    let v := Term.compound ⟨"h"⟩ [fz, fz, y]
    empty.Acyclic ∧ ¬ Diverges (empty, [(u, v)]) ∧ ∃ s', empty.Returns false u v (.ok s') := by
  intro x y fz u v
  have hok : empty.unify false 7 u v =
      .ok ((empty.insert (.fresh 0) fz).insert (.fresh 1) fz) := by cbv
  have hreturns := returns_of_unify hok (by simp)
  obtain ⟨hiff, -, -⟩ := acyclic_empty.unify_unchecked_returns_iff u v
  exact ⟨acyclic_empty, hiff.1 ⟨_, hreturns⟩, _, hreturns⟩

/-- Two variables are bound to terms that contain them, and the last children compare these two
endlessly. -/
theorem unify_crossed {x y : Var} (hne : x ≠ y) (n : ℕ) :
    empty.unify false n (.compound ⟨"h"⟩ [.var x, .var y, .var x])
      (.compound ⟨"h"⟩ [.compound ⟨"f"⟩ [.var x], .compound ⟨"f"⟩ [.var y], .var y]) =
        .error .unfinished := by
  let u := Term.compound ⟨"h"⟩ [.var x, .var y, .var x]
  let v := Term.compound ⟨"h"⟩ [.compound ⟨"f"⟩ [.var x], .compound ⟨"f"⟩ [.var y], .var y]
  let s₁ := empty.insert x (.compound ⟨"f"⟩ [.var x])
  let s₂ := s₁.insert y (.compound ⟨"f"⟩ [.var y])
  have hfree : s₁.get? y = none := by rw [get?_insert, if_neg hne, get?_empty]
  have hx : s₂.get? x = some (.compound ⟨"f"⟩ [.var x]) := by
    rw [get?_insert, if_neg hne.symm, get?_insert_self]
  have hy : s₂.get? y = some (.compound ⟨"f"⟩ [.var y]) := get?_insert_self
  -- comparing the two bound variables comes to comparing them again
  have hloop : ∀ n, unifyAll false n s₂ [(.var x, .var y)] = .error .unfinished := by
    intro n
    induction n with
    | zero => rw [unifyAll]; simp
    | succ n ih =>
      cases n with
      | zero => simp [unifyAll, resolve, hx, hy]
      | succ n =>
        have hx : s₂.resolve (n + 1) (.var x) = some (.compound ⟨"f"⟩ [.var x]) := by
          rw [resolve_bound hx, resolve_compound]
        have hy : s₂.resolve (n + 1) (.var y) = some (.compound ⟨"f"⟩ [.var y]) := by
          rw [resolve_bound hy, resolve_compound]
        rw [unifyAll_succ hx hy (by simpa [sameVariable] using hne)]
        exact ih
  have hwalk : ∀ {s : Substitution} {z}, s.get? z = none →
      s.Walks (.compound ⟨"f"⟩ [.var z]) (.compound ⟨"f"⟩ [.var z]) := by
    intro s z hz
    refine walks_self fun z' hz' => ?_
    obtain rfl : z = z' := by simpa using hz'
    exact hz
  have hchildren : Turn false (empty, [(u, v)]) (empty,
      [(.var x, .compound ⟨"f"⟩ [.var x]), (.var y, .compound ⟨"f"⟩ [.var y]), (.var x, .var y)] ++
        []) :=
    .children ⟨⟨0, rfl⟩, ⟨0, rfl⟩, rfl⟩ rfl
  have hfirst : Turn false (empty,
      [(.var x, .compound ⟨"f"⟩ [.var x]), (.var y, .compound ⟨"f"⟩ [.var y]), (.var x, .var y)])
      (s₁, [(.var y, .compound ⟨"f"⟩ [.var y]), (.var x, .var y)]) :=
    .binding ⟨⟨0, resolve_free get?_empty⟩, ⟨0, rfl⟩, rfl⟩ rfl (hwalk get?_empty) (by simp)
  have hsecond : Turn false (s₁, [(.var y, .compound ⟨"f"⟩ [.var y]), (.var x, .var y)])
      (s₂, [(.var x, .var y)]) :=
    .binding ⟨⟨0, resolve_free hfree⟩, ⟨0, rfl⟩, rfl⟩ rfl (hwalk hfree) (by simp)
  by_contra hn
  have hends : Ends (empty, [(u, v)]) := ⟨_, unifies_of_unifyAll rfl hn⟩
  obtain ⟨r, hr⟩ := hends.behind (.head hchildren (.head hfirst (.single hsecond)))
  obtain ⟨m, hm⟩ := hr.eventually_unifyAll.exists
  exact hr.ne_unfinished (hm.symm.trans (hloop m))

/-- Unification without the check is not total: two variables are bound to terms that contain them,
and the last children compare these two endlessly. -/
theorem unify_unchecked_not_total :
    let x := Term.var (.fresh 0)
    let y := Term.var (.fresh 1)
    let u := Term.compound ⟨"h"⟩ [x, y, x]
    let v := Term.compound ⟨"h"⟩ [.compound ⟨"f"⟩ [x], .compound ⟨"f"⟩ [y], y]
    empty.Acyclic ∧ ∀ n, empty.unify false n u v = .error .unfinished := by
  intro x y u v
  exact ⟨acyclic_empty, unify_crossed (by decide)⟩

end Substitution

end Relational
