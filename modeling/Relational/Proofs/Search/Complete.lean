import Relational.Proofs.Goal.Variables
import Relational.Proofs.Search.Returns
import Relational.Proofs.Search.Sound

/-!
# Searches are complete

Every valuation that satisfies the bindings of a state and a goal satisfies the bindings of some
state that the search finds, once the variables that are handed out on the way have the right values
(`Holds.complete`).  Together with soundness this says that a search finds what the goal means
(`search_sound_complete`).

`Ready g l st` says that a search may start: the occurs check is on, the bindings have no cycle, and
no variable that will be handed out occurs anywhere yet.  Every search hands on what it was given
(`Finds.next`), so the second of two goals is ready wherever the first one is found.

The induction is over the meaning of the goal.  There the parameters have values, whereas in the
search they stand for terms, and the valuation grows with every variable that is handed out;
`Matches` relates the two sides.
-/

namespace Relational

open Filter Substitution

theorem Valuation.update {θ : Var → Term} {x : Var} {t : Term} (hθ : Valuation θ) (ht : t.Ground) :
    Valuation (Function.update θ x t) := by
  intro y
  rw [Function.update_apply]
  split_ifs
  · exact ht
  · exact hθ y

namespace Goal

/-- A search for the goal may start from here. -/
structure Ready (g : Goal) (l : Locals) (st : State) : Prop where
  checked : st.config.occursCheck = true
  acyclic : st.substitution.Acyclic
  /-- The variables of the bindings were handed out before. -/
  bindings : st.substitution.Over (Var.Below st.nextId)
  /-- So were the variables that stand in the goal. -/
  terms : ∀ t, g.Contains (.term t) → t.Over (Var.Below st.nextId)
  /-- So were the variables of its parameters. -/
  params : ∀ name, (l.value name).Over (Var.Below st.nextId)

/-- The goal means the same with the parameters `k` under `θ` as with the parameters `l` under
`θ'`. -/
structure Matches (g : Goal) (θ : Var → Term) (k : Locals) (θ' : Var → Term) (l : Locals) :
    Prop where
  values : ∀ name, (k.value name).subst θ = (l.value name).subst θ'
  terms : ∀ t, g.Contains (.term t) → t.subst θ = t.subst θ'
  literals : (∃ value occurrence, g.Contains (.literal value occurrence)) →
    k.depth = l.depth ∧ k.bindings = l.bindings

variable {program : Program} {θ θ' : Var → Term} {g h : Goal} {k l : Locals} {st st' : State}
  {p : Pattern}

/-! ### Parts of a goal -/

theorem Ready.over (hr : Ready g l st) : (Closure.mk l g).Over (Var.Below st.nextId) :=
  ⟨hr.terms, hr.params⟩

/-- What is ready depends on the goal by the variables that it mentions. -/
theorem Ready.of_over {k : Locals} {n : ℕ} (hr : Ready g l st) (hn : st.nextId ≤ n)
    (hh : (Closure.mk k h).Over (Var.Below n)) :
    Ready h k ⟨st.substitution, n, st.config⟩ :=
  ⟨hr.checked, hr.acyclic, hr.bindings.mono fun _ hx => hx.mono hn, hh.terms, hh.params⟩

theorem Ready.mono (hr : Ready g l st) (hgh : ∀ a, h.Contains a → g.Contains a) : Ready h l st :=
  hr.of_over le_rfl (hr.over.part hgh)

theorem Matches.mono (hm : Matches g θ k θ' l) (hgh : ∀ a, h.Contains a → g.Contains a) :
    Matches h θ k θ' l := by
  refine ⟨hm.values, fun t ht => hm.terms t (hgh _ ht), ?_⟩
  rintro ⟨value, occurrence, hl⟩
  exact hm.literals ⟨value, occurrence, hgh _ hl⟩

theorem Matches.instantiate (hm : Matches g θ k θ' l)
    (hp : ∀ a : Pattern, a.PartOf p → g.Contains a) :
    (p.instantiate k).subst θ = (p.instantiate l).subst θ' := by
  refine Pattern.subst_instantiate_congr hm.values (fun t ht => hm.terms t (hp _ ht)) ?_
  rintro ⟨value, occurrence, hl⟩
  exact hm.literals ⟨value, occurrence, hp _ hl⟩

theorem Ready.fresh {name : String} (hr : Ready (.fresh name g) l st) :
    Ready g (l.bind name (.var (.fresh st.nextId)))
      ⟨st.substitution, st.nextId + 1, st.config⟩ :=
  hr.of_over (Nat.le_succ _) ((hr.over.mono fun _ hx => hx.mono (Nat.le_succ _)).fresh
    (Var.below_fresh.2 (Nat.lt_succ_self _)))

theorem Ready.given {name : String} (hr : Ready (.given name p g) l st) :
    Ready g (l.bind name (p.instantiate l)) st :=
  hr.of_over le_rfl hr.over.given

theorem Ready.call {relation : String} {arguments : List Pattern} {r : Relation}
    (hr : Ready (.call relation arguments) l st) (hprogram : program.Closed)
    (hrel : program relation = some r) :
    Ready r.body (openLocals l r (Pattern.instantiateAll l arguments) st) st :=
  hr.of_over le_rfl (hr.over.call hprogram.over hrel)

/-! ### What a search hands on -/

/-- The counter only rises, and the bindings stay without cycles and without variables that were
not handed out. -/
structure Continues (st st' : State) : Prop where
  counter : st.nextId ≤ st'.nextId
  checked : st'.config.occursCheck = true
  acyclic : st'.substitution.Acyclic
  bindings : st'.substitution.Over (Var.Below st'.nextId)

theorem Ready.continues (hr : Ready g l st) : Continues st st :=
  ⟨le_rfl, hr.checked, hr.acyclic, hr.bindings⟩

theorem Continues.ready (hc : Continues st st') (hr : Ready g l st) : Ready g l st' := by
  refine ⟨hc.checked, hc.acyclic, hc.bindings, fun t ht => ?_, fun name => ?_⟩
  · exact (hr.terms t ht).mono fun _ hx => hx.mono hc.counter
  · exact (hr.params name).mono fun _ hx => hx.mono hc.counter

theorem Continues.trans {mid : State} (hc : Continues st mid) (hc' : Continues mid st') :
    Continues st st' :=
  ⟨hc.counter.trans hc'.counter, hc'.checked, hc'.acyclic, hc'.bindings⟩

/-- **A search hands on what it was given.** -/
theorem Finds.next (hprogram : program.Closed) (hf : Finds program g l st st')
    (hr : Ready g l st) : Continues st st' := by
  induction hf with
  | @eq u v l st s hu =>
    rw [hr.checked] at hu
    refine ⟨le_rfl, hr.checked, hu.acyclic hr.acyclic, hu.over hr.bindings ?_⟩
    intro p hp
    rw [List.mem_singleton] at hp
    subst hp
    exact ⟨hr.over.instantiate fun _ => .inl, hr.over.instantiate fun _ => .inr⟩
  | succeed => exact hr.continues
  | alwayso => exact hr.continues
  | left _ ih => exact ih (hr.mono fun _ => .inl)
  | right _ ih => exact ih (hr.mono fun _ => .inr)
  | both _ _ ihg ihh =>
    have hmid := ihg (hr.mono fun _ => .inl)
    exact hmid.trans (ihh (hmid.ready (hr.mono fun _ => .inr)))
  | @fresh name g l st st' _ ih =>
    have hc := ih hr.fresh
    exact ⟨(Nat.le_succ _).trans hc.counter, hc.checked, hc.acyclic, hc.bindings⟩
  | given _ ih => exact ih hr.given
  | deferred _ ih => exact ih (hr.mono fun _ ha => ha)
  | delayed _ ih => exact ih (hr.mono fun _ ha => ha)
  | call hrel _ ih => exact ih (hr.call hprogram hrel)

/-! ### Completeness -/

theorem update_of_below {n : ℕ} {t : Term} {x : Var} (hx : x.Below n) :
    Function.update θ (.fresh n) t x = θ x := by
  rw [Function.update_of_ne]
  rintro rfl
  exact lt_irrefl _ (hx _ rfl)

/-- A fresh variable takes the value that is right for it, and nothing else notices. -/
theorem Matches.fresh {name : String} {t : Term} (hm : Matches (.fresh name g) θ k θ' l)
    (hr : Ready (.fresh name g) l st) (ht : t.Ground) :
    Matches g θ (k.bind name t) (Function.update θ' (.fresh st.nextId) t)
      (l.bind name (.var (.fresh st.nextId))) := by
  have hold : ∀ x : Var, x.Below st.nextId → θ' x = Function.update θ' (.fresh st.nextId) t x :=
    fun x hx => (update_of_below hx).symm
  refine ⟨fun name' => ?_, fun t' ht' => ?_, hm.literals⟩
  · rw [Locals.value_bind, Locals.value_bind]
    split_ifs
    · rw [Term.subst_var, Function.update_self, ht.subst_eq]
    · rw [hm.values, (hr.params name').subst_congr hold]
  · rw [hm.terms t' ht', (hr.terms t' ht').subst_congr hold]

theorem Matches.given {name : String} {t : Pattern} (hθ : Valuation θ)
    (hm : Matches (.given name t g) θ k θ' l) :
    Matches g θ (k.bind name ((t.instantiate k).subst θ)) θ' (l.bind name (t.instantiate l)) := by
  obtain ⟨hvalues, hterms, hliterals⟩ := hm.mono (h := g) fun _ => .inr
  refine ⟨fun name' => ?_, hterms, hliterals⟩
  rw [Locals.value_bind, Locals.value_bind]
  split_ifs
  · rw [hθ.subst_subst, hm.instantiate fun _ ha => .inl ha]
  · exact hvalues name'

theorem Matches.call {relation : String} {arguments : List Pattern} {r : Relation} {b : ℕ}
    (hθ' : Valuation θ') (hm : Matches (.call relation arguments) θ k θ' l)
    (hclosed : r.body.Closed) :
    Matches r.body θ ⟨(r.params.zip
        ((Pattern.instantiateAll k arguments).map (Term.subst θ))).reverse, k.depth + 1, b⟩ θ'
      (openLocals l r (Pattern.instantiateAll l arguments) st) := by
  have harguments : (Pattern.instantiateAll k arguments).map (Term.subst θ) =
      (Pattern.instantiateAll l arguments).map (Term.subst θ') := by
    rw [Pattern.instantiateAll_eq_map, Pattern.instantiateAll_eq_map, List.map_map, List.map_map]
    exact List.map_congr_left fun p hp => hm.instantiate fun a ha => ⟨p, hp, ha⟩
  refine ⟨fun name => ?_, fun t ht => ?_, ?_⟩
  · have hunder : ((openLocals l r (Pattern.instantiateAll l arguments) st).under θ').value name =
        _ := Locals.value_under
    rw [under_openLocals, ← harguments] at hunder
    exact (congrArg (Term.subst θ) hunder).trans (hθ'.subst_subst θ _)
  · rw [(hclosed.terms t ht).subst_eq, (hclosed.terms t ht).subst_eq]
  · rintro ⟨value, occurrence, hl⟩
    exact (hclosed.literals value occurrence hl).elim

/-- A state is found whose bindings the valuation satisfies, once the variables that are handed out
have the right values. -/
def Reaches (program : Program) (θ : Var → Term) (g : Goal) (l : Locals) (st : State) : Prop :=
  ∃ θ' st', Valuation θ' ∧ (∀ x : Var, x.Below st.nextId → θ' x = θ x) ∧
    Finds program g l st st' ∧ Satisfies θ' st'.substitution

theorem Reaches.imp (hg : Reaches program θ g l st)
    (hgh : ∀ st', Finds program g l st st' → Finds program h l st st') :
    Reaches program θ h l st := by
  obtain ⟨θ', st', hθ', hsame, hfound, hs⟩ := hg
  exact ⟨θ', st', hθ', hsame, hgh st' hfound, hs⟩

/-- An equation that is true is found, because unification ends and misses no valuation. -/
theorem Ready.reaches_eq {u v : Pattern} (hr : Ready (.eq u v) l st) (hθ : Valuation θ)
    (hs : Satisfies θ st.substitution)
    (huv : ((u.instantiate l).subst θ == (v.instantiate l).subst θ) = true) :
    Reaches program θ (.eq u v) l st := by
  obtain ⟨r, hu⟩ := hr.acyclic.exists_unifies [(u.instantiate l, v.instantiate l)]
  obtain ⟨s, rfl, hs'⟩ := hu.solves_iff.1 (solves_singleton.2 ⟨hs, huv⟩)
  rw [← hr.checked] at hu
  exact ⟨θ, st.withSubstitution s, hθ, fun _ _ => rfl, .eq hu, hs'⟩

/-- **What is true is found.** -/
theorem Holds.complete (hprogram : program.Closed) (hθ : Valuation θ) (hg : Holds program θ g k) :
    ∀ {θ' : Var → Term} {l : Locals} {st : State}, Valuation θ' → Matches g θ k θ' l →
      Ready g l st → Satisfies θ' st.substitution → Reaches program θ' g l st := by
  induction hg with
  | eq huv =>
    intro θ' l st hθ' hm hr hs
    rw [hm.instantiate fun _ ha => .inl ha, hm.instantiate fun _ ha => .inr ha] at huv
    exact hr.reaches_eq hθ' hs huv
  | succeed => exact fun hθ' _ _ hs => ⟨_, _, hθ', fun _ _ => rfl, .succeed _ _, hs⟩
  | alwayso => exact fun hθ' _ _ hs => ⟨_, _, hθ', fun _ _ => rfl, .alwayso _ _, hs⟩
  | left _ ih =>
    intro θ' l st hθ' hm hr hs
    exact (ih hθ' (hm.mono fun _ => .inl) (hr.mono fun _ => .inl) hs).imp fun _ => .left
  | right _ ih =>
    intro θ' l st hθ' hm hr hs
    exact (ih hθ' (hm.mono fun _ => .inr) (hr.mono fun _ => .inr) hs).imp fun _ => .right
  | @both g h k _ _ ihg ihh =>
    intro θ' l st hθ' hm hr hs
    have hrh : Ready h l st := hr.mono fun _ => .inr
    obtain ⟨θ₁, mid, hθ₁, hsame, hfound, hmid⟩ :=
      ihg hθ' (hm.mono fun _ => .inl) (hr.mono fun _ => .inl) hs
    have hnext : Continues st mid := hfound.next hprogram (hr.mono fun _ => .inl)
    -- the valuation has changed only where `h` does not look
    have hm₁ : Matches h θ k θ₁ l := by
      obtain ⟨hvalues, hterms, hliterals⟩ := hm.mono (h := h) fun _ => .inr
      refine ⟨fun name => ?_, fun t ht => ?_, hliterals⟩
      · rw [hvalues, (hrh.params name).subst_congr fun x hx => (hsame x hx).symm]
      · rw [hterms t ht, (hrh.terms t ht).subst_congr fun x hx => (hsame x hx).symm]
    obtain ⟨θ₂, st', hθ₂, hsame', hfound', hs'⟩ := ihh hθ₁ hm₁ (hnext.ready hrh) hmid
    refine ⟨θ₂, st', hθ₂, fun x hx => ?_, .both hfound hfound', hs'⟩
    rw [hsame' x (hx.mono hnext.counter), hsame x hx]
  | @fresh name g k t ht _ ih =>
    intro θ' l st hθ' hm hr hs
    have hθ₁ : Valuation (Function.update θ' (.fresh st.nextId) t) := hθ'.update ht
    have hs₁ : Satisfies (Function.update θ' (.fresh st.nextId) t) st.substitution :=
      hs.congr hr.bindings fun x hx => (update_of_below hx).symm
    obtain ⟨θ₂, st', hθ₂, hsame, hfound, hs'⟩ := ih hθ₁ (hm.fresh hr ht) hr.fresh hs₁
    refine ⟨θ₂, st', hθ₂, fun x hx => ?_, .fresh hfound, hs'⟩
    rw [hsame x (hx.mono (Nat.le_succ _)), update_of_below hx]
  | given _ ih =>
    intro θ' l st hθ' hm hr hs
    obtain ⟨θ₁, st', hθ₁, hsame, hfound, hs'⟩ := ih hθ' (hm.given hθ) hr.given hs
    exact ⟨θ₁, st', hθ₁, hsame, .given hfound, hs'⟩
  | deferred _ ih =>
    intro θ' l st hθ' hm hr hs
    exact (ih hθ' (hm.mono fun _ ha => ha) (hr.mono fun _ ha => ha) hs).imp fun _ => .deferred
  | delayed _ ih =>
    intro θ' l st hθ' hm hr hs
    exact (ih hθ' (hm.mono fun _ ha => ha) (hr.mono fun _ ha => ha) hs).imp fun _ => .delayed
  | call b hrel _ ih =>
    intro θ' l st hθ' hm hr hs
    obtain ⟨θ₁, st', hθ₁, hsame, hfound, hs'⟩ :=
      ih hθ' (hm.call hθ' (hprogram _ _ hrel)) (hr.call hprogram hrel) hs
    exact ⟨θ₁, st', hθ₁, hsame, .call hrel hfound, hs'⟩

theorem matches_under (hθ : Valuation θ) (g : Goal) (l : Locals) :
    Matches g θ (l.under θ) θ l := by
  refine ⟨fun name => ?_, fun _ _ => rfl, fun _ => ⟨rfl, rfl⟩⟩
  rw [Locals.value_under, hθ.subst_subst]

/-- **Searches are sound and complete.**  From a state where a search may start, it can be followed
behind any number of suspensions, and no unification is given up on the way.  Every valuation that
satisfies the bindings of a state that is yielded, at whatever depth and with whatever effort,
satisfies the old bindings and the goal.  And every valuation that satisfies these satisfies the
bindings of a state that is yielded at some depth by every search with enough effort, once it is
changed at variables that were not handed out before. -/
theorem search_sound_complete (g : Goal) (l : Locals) (st : State) (hr : Ready g l st) :
    (∀ k, g.Returns Program.lists l st k) ∧
    (∀ effort k st', (g.apply ⟨Program.lists, effort⟩ l st).value.Yields
        (rules ⟨Program.lists, effort⟩) k st' →
      ∀ θ, Valuation θ → Satisfies θ st'.substitution →
        Satisfies θ st.substitution ∧ Holds Program.lists θ g (l.under θ)) ∧
    ∀ θ, Valuation θ → Satisfies θ st.substitution → Holds Program.lists θ g (l.under θ) →
      ∃ θ' st' k, Valuation θ' ∧ (∀ x, θ' x ≠ θ x → ∃ m, st.nextId ≤ m ∧ x = .fresh m) ∧
        (∀ᶠ effort in atTop, (g.apply ⟨Program.lists, effort⟩ l st).value.Yields
          (rules ⟨Program.lists, effort⟩) k st') ∧
        Satisfies θ' st'.substitution := by
  refine ⟨returns_of_checked Program.lists g l ⟨hr.checked, hr.acyclic⟩,
    fun effort k st' hk θ hθ hs => (finds_of_yields hk).sound hθ hs, ?_⟩
  intro θ hθ hs hg
  obtain ⟨θ', st', hθ', hsame, hfound, hs'⟩ :=
    hg.complete Program.closed_lists hθ hθ (matches_under hθ g l) hr hs
  obtain ⟨k, hk⟩ := hfound.exists_yields
  refine ⟨θ', st', k, hθ', fun x hx => ?_, hk, hs'⟩
  have hnew : ¬ x.Below st.nextId := fun hbelow => hx (hsame x hbelow)
  simp only [Var.Below, not_forall, not_lt] at hnew
  obtain ⟨m, rfl, hm⟩ := hnew
  exact ⟨m, hm, rfl⟩

/-- Beside a goal that is never found out, it is found out that a variable is the empty list. -/
theorem search_sound_complete_nullo :
    let g := Goal.either .nevero (.call "nullo" [.term (.var (.named "q"))])
    let st := State.start { occursCheck := true }
    Ready g .none st ∧ ∃ θ' st' k, Valuation θ' ∧
      (∀ x, θ' x ≠ .nil → ∃ m, st.nextId ≤ m ∧ x = .fresh m) ∧
      (∀ᶠ effort in atTop, (g.apply ⟨Program.lists, effort⟩ .none st).value.Yields
        (rules ⟨Program.lists, effort⟩) k st') ∧
      Satisfies θ' st'.substitution := by
  intro g st
  have hnil : Term.nil.Ground := fun x => Term.not_occurs_constant
  have hready : Ready g .none st := by
    refine ⟨rfl, acyclic_empty, over_empty, fun t ht => ?_, fun name x hx => ?_⟩
    · obtain rfl : t = .var (.named "q") := by simpa [g, Contains] using ht
      intro x hx m hm
      rw [Term.occurs_var] at hx
      rw [← hx] at hm
      cases hm
    · exact (Term.not_occurs_unassigned hx).elim
  have hholds : Holds Program.lists (fun _ => .nil) g (Locals.none.under fun _ => .nil) := by
    refine .right (.call 0 (r := Lists.nullo) rfl (.eq ?_))
    exact beq_iff_alike.2 (Term.alike_refl .nil)
  exact ⟨hready, (search_sound_complete g .none st hready).2.2 (fun _ => .nil) (fun _ => hnil)
    satisfies_empty hholds⟩

end Goal

end Relational
