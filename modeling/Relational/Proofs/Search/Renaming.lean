import Relational.Proofs.Search.Branch
import Relational.Proofs.Search.Sound
import Relational.Proofs.Stream.Map
import Relational.Proofs.Substitution.Renaming

/-!
# Names and the counter

No result depends on what variables are called.  Renaming them by a permutation goes along with
everything that is done to a substitution (`Substitution.Equivariant`), and so the counter at which
a search starts has no influence on it: a search that starts at `m` goes through the same streams as
one that starts at `n`, with `Var.shift n m` of every variable that has been handed out since
(`Goal.search_nameless`).

The shift is no permutation.  But it keeps apart what can occur in a search that started at `n`: the
variables that were there before, and those from `n` on (`Var.Clear`).  The branches of the search
have no other variables (`Goal.Movable`), because no step brings any.
-/

namespace Relational

open Substitution

variable {n m : ℕ} {x : Var} {l : Locals} {p : Pattern} {st : State} {u v : Term}

/-! ### Shifting variables -/

namespace Var

/-- The variables that are handed out from `n` on become those that are handed out from `m` on. -/
def shift (n m : ℕ) : Var → Var
  | .named name => .named name
  | .fresh i => .fresh (if n ≤ i then i - n + m else i)

/-- The variable is below both counters, or it was handed out from `n` on. -/
def Clear (n m : ℕ) (x : Var) : Prop := x.Below (min n m) ∨ ¬ x.Below n

theorem shift_fresh {i : ℕ} (h : n ≤ i) : (fresh i).shift n m = .fresh (i - n + m) := by
  rw [shift, if_pos h]

theorem shift_of_below (hx : x.Below (min n m)) : x.shift n m = x := by
  cases x with
  | named name => rfl
  | fresh i =>
    have hi : ¬ n ≤ i := by
      have := below_fresh.1 hx
      omega
    rw [shift, if_neg hi]

theorem clear_fresh {i : ℕ} : (fresh i).Clear n m ↔ i < min n m ∨ n ≤ i := by
  rw [Clear, below_fresh, below_fresh, not_lt]

/-- Old variables stay below `m`, and new ones come to stand from `m` on. -/
theorem injOn_shift (n m : ℕ) : Set.InjOn (shift n m) {x | x.Clear n m} := by
  intro x hx y hy hxy
  cases x with
  | named a =>
    cases y with
    | named b => exact hxy
    | fresh j => cases hxy
  | fresh i =>
    cases y with
    | named b => cases hxy
    | fresh j =>
      have hi := clear_fresh.1 hx
      have hj := clear_fresh.1 hy
      simp only [shift, fresh.injEq] at hxy ⊢
      split_ifs at hxy <;> omega

end Var

/-- The parameters with shifted variables. -/
def Locals.shift (n m : ℕ) (l : Locals) : Locals := l.under fun x => .var (x.shift n m)

/-- Where the variables of a pattern stay, its parameters shift what it stands for. -/
theorem Pattern.instantiate_shift
    (hterms : ∀ t, (term t).PartOf p → t.Over (Var.Below (min n m))) :
    p.instantiate (l.shift n m) = (p.instantiate l).rename (Var.shift n m) := by
  induction p with
  | term t =>
    exact (Term.rename_eq_self fun x hx => Var.shift_of_below (hterms t .self x hx)).symm
  | literal value occurrence =>
    simp only [instantiate, Term.rename_constant]
    rfl
  | param name => exact Locals.value_under
  | compound shape ps ih =>
    rw [instantiate_compound, instantiate_compound, Term.rename_compound, List.map_map]
    exact congrArg _ (List.map_congr_left fun p hp => ih p hp fun t ht => hterms t (.child hp ht))

namespace State

/-- The state with shifted variables, its counter as far beyond `m` as it was beyond `n`. -/
def shift (n m : ℕ) (st : State) : State :=
  ⟨st.substitution.rename (Var.shift n m), st.nextId - n + m, st.config⟩

theorem shift_mk {s : Substitution} {config : SearchConfig}
    (hs : s.Within (Var.Below (min n m))) : shift n m ⟨s, n, config⟩ = ⟨s, m, config⟩ := by
  rw [shift, hs.rename_eq_self fun _ hx => Var.shift_of_below hx, Nat.sub_self, Nat.zero_add]

theorem shift_freshVar (hn : n ≤ st.nextId) : (st.shift n m).freshVar.value =
    (st.freshVar.value.1.shift n m, st.freshVar.value.2.shift n m) := by
  have hcounter : st.nextId - n + m + 1 = st.nextId + 1 - n + m := by omega
  simp [freshVar, shift, Var.shift_fresh hn, hcounter]

theorem value_unify_shift {effort : ℕ} (hst : st.substitution.Within (Var.Clear n m))
    (hu : u.Over (Var.Clear n m)) (hv : v.Over (Var.Clear n m)) :
    ((st.shift n m).unify effort (u.rename (Var.shift n m)) (v.rename (Var.shift n m))).value =
      (st.unify effort u v).value.map (shift n m) := by
  unfold State.unify
  simp only [shift, hst.unify_rename (Var.injOn_shift n m) st.config.occursCheck hu hv]
  cases st.substitution.unify st.config.occursCheck effort u v <;> rfl

end State

namespace Goal

variable {e : Engine} {program : Program} {g : Goal} {st' : State} {todo parts : List Closure}

/-- The goal with shifted parameters. -/
def Closure.shift (n m : ℕ) (c : Closure) : Closure := ⟨c.locals.shift n m, c.goal⟩

/-- The waiting goal with shifted parameters, and with its state shifted. -/
def Pending.shift (n m : ℕ) (p : Pending) : Pending :=
  ⟨p.locals.shift n m, p.goal, p.state.shift n m⟩

/-- The same suspensions and the same number of states in the same order, all of them shifted. -/
def States.shift (n m : ℕ) (a : States) : States :=
  a.map (Pending.shift n m) (Closure.shift n m) (State.shift n m)

/-- A branch of a search that started with the counter at `n`, and can as well with the counter at
`m`: the variables in the text of its goals are below both. -/
structure Movable (n m : ℕ) (todo : List Closure) (st : State) : Prop where
  counter : n ≤ st.nextId
  bindings : st.substitution.Within (Var.Clear n m)
  goals : ∀ c ∈ todo, c.Over (Var.Clear n m)
  terms : ∀ c ∈ todo, ∀ t, c.goal.Contains (.term t) → t.Over (Var.Below (min n m))

theorem stable_movable (hprogram : program.Over (Var.Below (min n m))) :
    Stable program (Movable n m) := by
  intro c todo st parts st' h ho
  obtain ⟨hc, hgoals⟩ := List.forall_mem_cons.1 h.goals
  obtain ⟨hct, hterms⟩ := List.forall_mem_cons.1 h.terms
  have hbuilt : st'.substitution.Built := by
    cases ho with
    | eq hu => exact hu.grows.built h.bindings.built
    | _ => exact h.bindings.built
  -- the variable that `fresh` hands out is not below `n`, and what the bodies say is below both
  refine ⟨h.counter.trans ho.kept.counter, ⟨hbuilt, ho.bindings h.bindings.vars hc⟩,
    List.forall_mem_append.2 ⟨ho.goals hc (hprogram.mono fun _ => .inl) fun _ => ?_, hgoals⟩,
    List.forall_mem_append.2 ⟨fun part hpart t ht => ?_, hterms⟩⟩
  · exact Var.clear_fresh.2 (.inr h.counter)
  · obtain hold | ⟨name, r, hr, hbody⟩ := ho.contains part hpart _ ht
    · exact hct t hold
    · exact hprogram name r hr t hbody

theorem Movable.subset (h : Movable n m todo st) (hparts : parts ⊆ todo) : Movable n m parts st :=
  ⟨h.counter, h.bindings, fun c hc => h.goals c (hparts hc), fun c hc => h.terms c (hparts hc)⟩

/-- What stands in the goal is instantiated with shifted variables. -/
theorem Movable.instantiate (h : Movable n m (⟨l, g⟩ :: todo) st)
    (hp : ∀ a : Pattern, a.PartOf p → g.Contains a) :
    p.instantiate (l.shift n m) = (p.instantiate l).rename (Var.shift n m) :=
  Pattern.instantiate_shift fun t ht => h.terms _ List.mem_cons_self t (hp _ ht)

theorem shift_later : States.shift n m (later l g st) = later (l.shift n m) g (st.shift n m) :=
  Stream.map_suspend _

theorem openLocals_shift {r : Relation} {arguments : List Term}
    (hst : st.substitution.Within (Var.Clear n m)) :
    openLocals (l.shift n m) r (arguments.map (Term.rename (Var.shift n m))) (st.shift n m) =
      (openLocals l r arguments st).shift n m := by
  rw [Locals.shift, Locals.shift, under_openLocals, ← hst.size_rename (Var.injOn_shift n m)]
  rfl

/-- **A goal does the same with the counter elsewhere.** -/
theorem Movable.apply (h : Movable n m [⟨l, g⟩] st)
    (hprogram : e.program.Over (Var.Below (min n m))) :
    (g.apply e (l.shift n m) (st.shift n m)).value = States.shift n m (g.apply e l st).value := by
  have hR : Stable e.program (Movable n m) := stable_movable hprogram
  induction g generalizing l st with
  | eq u v =>
    have hu : (u.instantiate l).Over (Var.Clear n m) :=
      (h.goals _ List.mem_cons_self).instantiate fun _ => .inl
    have hv : (v.instantiate l).Over (Var.Clear n m) :=
      (h.goals _ List.mem_cons_self).instantiate fun _ => .inr
    simp only [Goal.apply, Logged.value_bind, Logged.value_pure]
    rw [h.instantiate fun _ => .inl, h.instantiate fun _ => .inr,
      State.value_unify_shift h.bindings hu hv, States.shift, Stream.map_ofList]
    cases (st.unify e.effort (u.instantiate l) (v.instantiate l)).value <;> rfl
  | succeed => exact (Stream.map_ofList [st]).symm
  | fail => exact Stream.map_empty.symm
  | either g h' ihg ihh =>
    simp only [Goal.apply, Logged.value_bind, Logged.value_pure]
    rw [ihg (hR h (.left _ _ l st)), ihh (hR h (.right _ _ l st))]
    exact (Stream.map_merge _ _).symm
  | both g h' ihg ihh =>
    have hboth : Movable n m [⟨l, g⟩, ⟨l, h'⟩] st := hR h (.both _ _ l st)
    have hfirst : Movable n m [⟨l, g⟩] st := hboth.subset (by simp)
    simp only [Goal.apply, Logged.value_bind]
    rw [ihg hfirst]
    -- on a head of the first side the second goal is still to be applied
    refine Stream.map_bindWith (Closure.mk l h') fun mid hmid => ihh ?_
    exact hR.carries_apply hboth (.head hmid)
  | fresh name g ih =>
    have hbody := ih (hR h (.fresh name g l st))
    -- the variable that is handed out from `m` on is the shifted one
    simp only [Goal.apply, Logged.value_bind, State.shift_freshVar h.counter]
    rw [Locals.shift, Locals.under_bind, Term.subst_var] at hbody
    exact hbody
  | given name t g ih =>
    have hbody := ih (hR h (.given name t g l st))
    rw [Goal.apply, Goal.apply, h.instantiate fun _ => .inl]
    exact hbody
  | deferred make ih => exact ih () (hR h (.deferred make l st))
  | delayed g _ => exact shift_later.symm
  | nevero => exact shift_later.symm
  | alwayso => exact shift_later.symm
  | call relation arguments =>
    have harguments : Pattern.instantiateAll (l.shift n m) arguments =
        (Pattern.instantiateAll l arguments).map (Term.rename (Var.shift n m)) := by
      rw [Pattern.instantiateAll_eq_map, Pattern.instantiateAll_eq_map, List.map_map]
      exact List.map_congr_left fun p hp => h.instantiate fun a ha => ⟨p, hp, ha⟩
    rw [value_apply_call, value_apply_call]
    cases e.program relation with
    | none => exact Stream.map_empty.symm
    | some r =>
      dsimp only
      rw [shift_later, harguments, openLocals_shift h.bindings]

/-- So does a suspension. -/
theorem shift_force {p : Suspension Pending Closure State}
    (hprogram : e.program.Over (Var.Below (min n m)))
    (hp : ∀ todo st, Keeps p todo st → Movable n m todo st) :
    ((p.map (Pending.shift n m) (Closure.shift n m) (State.shift n m)).force (rules e)).value =
      States.shift n m (p.force (rules e)).value := by
  have hR : Stable e.program (Movable n m) := stable_movable hprogram
  induction p using Suspension.force.induct with
  | case1 seed => exact (hp _ _ (.unfold seed)).apply hprogram
  | case2 s => rfl
  | case3 other turn ih =>
    rw [Suspension.map, Suspension.force, Suspension.force, Logged.value_bind, Logged.value_bind,
      ih fun _ _ hk => hp _ _ (.turn hk)]
    exact (Stream.map_merge _ _).symm
  | case4 source c ih =>
    have hsource : ∀ {todo st}, Keeps source todo st → Movable n m (todo ++ [c]) st :=
      fun hk => hp _ _ (.bind hk)
    rw [Suspension.map, Suspension.force, Suspension.force, Logged.value_bind, Logged.value_bind,
      ih fun _ _ hk => (hsource hk).subset (List.subset_append_left _ _)]
    refine Stream.map_bindWith _ fun mid hmid => Movable.apply ?_ hprogram
    exact hR.carries_force hsource (.head hmid)

theorem shift_behind {a : States} (hprogram : e.program.Over (Var.Below (min n m)))
    (ha : ∀ todo st, Carries a todo st → Movable n m todo st) :
    (States.shift n m a).behind (rules e) = States.shift n m (a.behind (rules e)) := by
  unfold Stream.behind
  rw [States.shift, Stream.rest_map]
  cases hrest : a.rest with
  | none => exact Stream.map_empty.symm
  | some p => exact shift_force hprogram fun todo st hk => ha todo st (.rest hrest hk)

/-- **The layers of a search are the same with the counter elsewhere.** -/
theorem shift_after {a : States} (hprogram : e.program.Over (Var.Below (min n m))) (k : ℕ)
    (ha : ∀ todo st, Carries a todo st → Movable n m todo st) :
    (States.shift n m a).after (rules e) k = States.shift n m (a.after (rules e) k) := by
  have hR : Stable e.program (Movable n m) := stable_movable hprogram
  induction k generalizing a with
  | zero => rfl
  | succ k ih =>
    rw [Stream.after, Stream.after, shift_behind hprogram ha]
    exact ih fun todo st hc => hR.carries_after 1 (fun hc => ha _ _ hc) hc

/-- What is left of the search behind `k` suspensions, if it starts with the counter at `n`. -/
def searchFrom (e : Engine) (g : Goal) (s : Substitution) (config : SearchConfig) (n k : ℕ) :
    States :=
  (g.apply e .none ⟨s, n, config⟩).value.after (rules e) k

variable {s : Substitution} {config : SearchConfig}

theorem movable_start (hs : s.Within (Var.Below (min n m)))
    (hg : (Closure.mk .none g).Over (Var.Below (min n m))) :
    Movable n m [⟨.none, g⟩] ⟨s, n, config⟩ :=
  ⟨le_rfl, ⟨hs.built, hs.vars.mono fun _ => .inl⟩,
    List.forall_mem_singleton.2 (hg.mono fun _ => .inl), List.forall_mem_singleton.2 hg.terms⟩

theorem movable_searchFrom (hs : s.Within (Var.Below (min n m)))
    (hg : (Closure.mk .none g).Over (Var.Below (min n m)))
    (hprogram : e.program.Over (Var.Below (min n m))) (k : ℕ)
    (hc : Carries (searchFrom e g s config n k) todo st) : Movable n m todo st := by
  have hR : Stable e.program (Movable n m) := stable_movable hprogram
  exact hR.carries_search (movable_start hs hg) k hc

/-- A search from `m` has the layers of the search from `n`, shifted. -/
theorem shift_searchFrom (hs : s.Within (Var.Below (min n m)))
    (hg : (Closure.mk .none g).Over (Var.Below (min n m)))
    (hprogram : e.program.Over (Var.Below (min n m))) (k : ℕ) :
    searchFrom e g s config m k = States.shift n m (searchFrom e g s config n k) := by
  have hstart : Movable n m [⟨.none, g⟩] ⟨s, n, config⟩ := movable_start hs hg
  have hfirst : searchFrom e g s config m 0 = States.shift n m (searchFrom e g s config n 0) := by
    have happly := hstart.apply hprogram
    rw [State.shift_mk hs] at happly
    exact happly
  have hcarried : ∀ todo st, Carries (searchFrom e g s config n 0) todo st → Movable n m todo st :=
    fun _ _ hc => movable_searchFrom hs hg hprogram 0 hc
  exact (congrArg (Stream.after (rules e) k) hfirst).trans (shift_after hprogram k hcarried)

/-- **No result depends on what variables are called, or on where the counter stands.**  Renaming by
a permutation goes along with unification, with and without the occurs check, with walking and with
reification, and keeps the order in which bindings are made.  And if the variables of the goal, of
the relations and of the bindings are below both `n` and `m`, then the search that starts with the
counter at `m` has the suspensions of the one that starts at `n` and the same states in the same
order, with the variables shifted that were handed out on the way; a term over old variables is
reified alike in corresponding states. -/
theorem search_nameless :
    (∀ (ρ : Equiv.Perm Var) (s : Substitution), s.Built → s.Equivariant ρ) ∧
    ∀ (e : Engine) (g : Goal) (s : Substitution) (config : SearchConfig) (n m : ℕ),
      s.Within (Var.Below (min n m)) → (Closure.mk .none g).Over (Var.Below (min n m)) →
      e.program.Over (Var.Below (min n m)) → ∀ k,
        searchFrom e g s config m k = States.shift n m (searchFrom e g s config n k) ∧
        ∀ st ∈ (searchFrom e g s config n k).heads,
          (st.shift n m).substitution.entries = st.substitution.entries.map
            (Prod.map (Var.shift n m) (Term.rename (Var.shift n m))) ∧
          ∀ t : Term, t.Over (Var.Below (min n m)) → ∀ effort,
            (st.shift n m).substitution.reifyTerm effort t =
              st.substitution.reifyTerm effort t := by
  refine ⟨fun ρ s hs => hs.equivariant ρ.injective, ?_⟩
  intro e g s config n m hs hg hprogram k
  refine ⟨shift_searchFrom hs hg hprogram k, fun st hst => ?_⟩
  have hbindings := (movable_searchFrom hs hg hprogram k (.head hst)).bindings
  refine ⟨(hbindings.rename (Var.injOn_shift n m)).2, fun t ht effort => ?_⟩
  have hself : t.rename (Var.shift n m) = t :=
    Term.rename_eq_self fun x hx => Var.shift_of_below (ht x hx)
  exact hbindings.reifyTerm_rename (Var.injOn_shift n m) (ht.mono fun _ => .inl) hself

/-- A search for a list cell that starts at 5 finds the variables 5 and 6 in place of 0 and 1. -/
theorem search_nameless_pairo :
    let q := Term.var (.named "q")
    let g := Goal.call "pairo" [.term q]
    let e : Engine := ⟨Program.lists, 9⟩
    let found : State :=
      ⟨empty.insert (.named "q") (.cons (.var (.fresh 0)) (.var (.fresh 1))), 2, {}⟩
    (empty.insert (.named "q") .nil).Equivariant (Equiv.swap (.named "q") (.fresh 3)) ∧
      empty.Within (Var.Below (min 0 5)) ∧ (Closure.mk .none g).Over (Var.Below (min 0 5)) ∧
      e.program.Over (Var.Below (min 0 5)) ∧ (searchFrom e g empty {} 0 2).heads = [found] ∧
      (searchFrom e g empty {} 5 2).heads = [found.shift 0 5] ∧
      (found.shift 0 5).substitution.entries =
        [(.named "q", .cons (.var (.fresh 5)) (.var (.fresh 6)))] ∧
      (found.shift 0 5).substitution.reifyTerm 9 q = found.substitution.reifyTerm 9 q := by
  intro q g e found
  have hrename : (empty.insert (.named "q") .nil).Equivariant
      (Equiv.swap (.named "q") (.fresh 3)) :=
    search_nameless.1 _ _ (.insert _ .empty get?_empty)
  have hgoal : (Closure.mk .none g).Over (Var.Below (min 0 5)) := by
    refine ⟨fun t ht => ?_, fun name => Term.over_unassigned⟩
    obtain rfl : t = q := by simpa [g, Contains] using ht
    exact Term.over_var.2 Var.below_named
  have hprogram : e.program.Over (Var.Below (min 0 5)) := Program.closed_lists.over
  have hheads : (searchFrom e g empty {} 0 2).heads = [found] := rfl
  obtain ⟨hshift, hfound⟩ :=
    search_nameless.2 e g empty {} 0 5 within_empty hgoal hprogram 2
  obtain ⟨horder, hreify⟩ := hfound found (hheads ▸ List.mem_singleton_self _)
  refine ⟨hrename, within_empty, hgoal, hprogram, hheads, ?_, ?_, ?_⟩
  · rw [hshift, States.shift, Stream.heads_map, hheads, List.map_singleton]
  · rw [horder]
    rfl
  · exact hreify q (Term.over_var.2 Var.below_named) 9

end Goal

end Relational
