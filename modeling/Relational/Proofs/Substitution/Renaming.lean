import Mathlib.Data.Set.Function
import Relational.Proofs.Substitution.Built
import Relational.Proofs.Substitution.Fresh
import Relational.Proofs.Substitution.Reified

/-!
# Renaming variables

`s.rename ρ` has the bindings of `s`, made in the same order, with `ρ x` in place of every variable
`x`.  If `ρ` keeps the variables apart that there are, then everything that is done to a
substitution commutes with it: following bindings, unification with its refusals, and reification.
Nothing is decided by what a variable is called (`Built.equivariant`).

It is enough that `ρ` is injective where `Q` holds, if all variables of the substitution and of the
terms satisfy `Q`; for a permutation `Q` may hold everywhere.
-/

namespace Relational

/-- A refusal with other variables. -/
def Refusal.rename (ρ : Var → Var) : Refusal → Refusal
  | .clash u v => .clash (u.rename ρ) (v.rename ρ)
  | .circular x t => .circular (ρ x) (t.rename ρ)
  | .alreadyBound x => .alreadyBound (ρ x)
  | .unfinished => .unfinished

/-- Terms are equal exactly if they are equal with other variables. -/
theorem Term.alike_rename_iff {Q : Var → Prop} {ρ : Var → Var} (hρ : Set.InjOn ρ {x | Q x})
    {u v : Term} (hu : u.Over Q) (hv : v.Over Q) :
    Alike (u.rename ρ) (v.rename ρ) ↔ Alike u v := by
  induction u generalizing v with
  | var x =>
    cases v with
    | var y => simpa using hρ.eq_iff (hu x .var) (hv y .var)
    | _ => simp [Alike]
  | constant c => cases v <;> simp [Alike]
  | compound shape ts ih =>
    cases v with
    | compound shape' us =>
      rw [over_compound] at hu hv
      rw [rename_compound, rename_compound, alike_compound, alike_compound]
      refine and_congr_right fun _ => ?_
      induction ts generalizing us with
      | nil => cases us <;> simp
      | cons t ts ihts =>
        cases us with
        | nil => simp
        | cons u us =>
          obtain ⟨ht, hts⟩ := List.forall_mem_cons.1 hu
          obtain ⟨hu, hus⟩ := List.forall_mem_cons.1 hv
          rw [List.map_cons, List.map_cons, List.forall₂_cons, List.forall₂_cons,
            ih t List.mem_cons_self ht hu,
            ihts (fun t ht => ih t (List.mem_cons_of_mem _ ht)) hts us hus]
    | _ => simp [Alike]
  | unassigned => cases v <;> simp [Alike]

namespace Substitution

/-- The bindings with other variables, made in the same order. -/
def rename (ρ : Var → Var) (s : Substitution) : Substitution :=
  s.entries.foldl (fun r b => r.insert (ρ b.1) (b.2.rename ρ)) empty

/-- What unification comes to, with other variables. -/
def renameOutcome (ρ : Var → Var) : Except Refusal Substitution → Except Refusal Substitution
  | .ok s => .ok (s.rename ρ)
  | .error refusal => .error (refusal.rename ρ)

/-- A task with other variables. -/
def Task.rename (ρ : Var → Var) : Task → Task
  | .visit t => .visit (t.rename ρ)
  | .build shape arity => .build shape arity

/-- What a pair asks for, with other variables. -/
def Demand.rename (ρ : Var → Var) : Demand → Demand
  | .nothing => .nothing
  | .binding x t => .binding (ρ x) (t.rename ρ)
  | .children pairs => .children (pairs.map (Prod.map (Term.rename ρ) (Term.rename ρ)))
  | .impossible => .impossible

/-- A substitution that was made by binding, and all of whose variables satisfy `Q`. -/
structure Within (Q : Var → Prop) (s : Substitution) : Prop where
  built : s.Built
  vars : s.Over Q

variable {Q : Var → Prop} {ρ : Var → Var} {s s' : Substitution} {x y : Var} {t u v w : Term} {n : ℕ}

/-! ### Bindings -/

theorem within_empty : empty.Within Q := ⟨.empty, over_empty⟩

theorem Within.insert (h : s.Within Q) (hx : s.get? x = none) (hxQ : Q x) (ht : t.Over Q) :
    (s.insert x t).Within Q :=
  ⟨h.built.insert t hx, h.vars.insert hxQ ht⟩

theorem Built.rename_insert (hs : s.Built) (hx : s.get? x = none) :
    (s.insert x t).rename ρ = (s.rename ρ).insert (ρ x) (t.rename ρ) := by
  rw [rename, hs.entries_insert hx, List.foldl_append]
  rfl

/-- What holds of a substitution because of how it was made, over `Q`. -/
theorem Within.ind {motive : Substitution → Prop} (empty : motive empty)
    (insert : ∀ s x t, s.Within Q → s.get? x = none → Q x → t.Over Q → motive s →
      motive (s.insert x t)) (h : s.Within Q) : motive s := by
  obtain ⟨hs, hQ⟩ := h
  induction hs with
  | empty => exact empty
  | @insert s x t hs hx ih =>
    have hold : s.Over Q := by
      intro y u hy
      have hxy : x ≠ y := by
        rintro rfl
        simp [hx] at hy
      exact hQ y u (by rw [get?_insert, if_neg hxy, hy])
    obtain ⟨hxQ, ht⟩ := hQ x t get?_insert_self
    exact insert s x t ⟨hs, hold⟩ hx hxQ ht (ih hold)

theorem Within.get?_rename (hs : s.Within Q) (hρ : Set.InjOn ρ {x | Q x}) (hx : Q x) :
    (s.rename ρ).get? (ρ x) = (s.get? x).map (Term.rename ρ) := by
  refine hs.ind (motive := fun s => (s.rename ρ).get? (ρ x) = (s.get? x).map (Term.rename ρ)) ?_ ?_
  · simp [rename, entries]
  · intro s y t hs hy hyQ _ ih
    rw [hs.built.rename_insert hy, get?_insert, get?_insert]
    by_cases hyx : y = x
    · simp [hyx]
    · have hne : ρ y ≠ ρ x := fun h => hyx (hρ hyQ hx h)
      rw [if_neg hyx, if_neg hne, ih]

theorem Within.contains_rename (hs : s.Within Q) (hρ : Set.InjOn ρ {x | Q x}) (hx : Q x) :
    (s.rename ρ).contains (ρ x) = s.contains x := by
  rw [contains_eq_isSome, contains_eq_isSome, hs.get?_rename hρ hx, Option.isSome_map]

/-- Renaming makes a substitution out of a substitution, with the same order of its bindings. -/
theorem Within.rename (hs : s.Within Q) (hρ : Set.InjOn ρ {x | Q x}) : (s.rename ρ).Built ∧
    (s.rename ρ).entries = s.entries.map fun b => (ρ b.1, b.2.rename ρ) := by
  refine hs.ind (motive := fun s => (s.rename ρ).Built ∧
    (s.rename ρ).entries = s.entries.map fun b => (ρ b.1, b.2.rename ρ)) ⟨.empty, rfl⟩ ?_
  rintro s x t hs hx hxQ _ ⟨hb, he⟩
  have hfree : (s.rename ρ).get? (ρ x) = none := by rw [hs.get?_rename hρ hxQ, hx, Option.map_none]
  rw [hs.built.rename_insert hx, hb.entries_insert hfree, hs.built.entries_insert hx, he,
    List.map_append]
  exact ⟨hb.insert _ hfree, rfl⟩

theorem Within.size_rename (hs : s.Within Q) (hρ : Set.InjOn ρ {x | Q x}) :
    (s.rename ρ).size = s.size := by
  refine hs.ind (motive := fun s => (s.rename ρ).size = s.size) rfl ?_
  intro s x t hs hx hxQ _ ih
  have hnew : (s.rename ρ).contains (ρ x) = false := by
    rw [hs.contains_rename hρ hxQ, contains_eq_false hx]
  rw [hs.built.rename_insert hx, size_insert hnew, size_insert (contains_eq_false hx), ih]

theorem Within.rename_eq_self (hs : s.Within Q) (hρ : ∀ x, Q x → ρ x = x) : s.rename ρ = s := by
  refine hs.ind (motive := fun s => s.rename ρ = s) rfl ?_
  intro s x t hs hx hxQ ht ih
  rw [hs.built.rename_insert hx, ih, hρ x hxQ, Term.rename_eq_self fun y hy => hρ y (ht y hy)]

/-! ### Following bindings -/

theorem Within.resolve_rename (hs : s.Within Q) (hρ : Set.InjOn ρ {x | Q x}) (ht : t.Over Q) :
    (s.rename ρ).resolve n (t.rename ρ) = (s.resolve n t).map (Term.rename ρ) := by
  induction n generalizing t with
  | zero =>
    cases t with
    | var x =>
      have hx := hs.get?_rename hρ (ht x .var)
      cases hget : s.get? x with
      | none => simp [resolve, hx, hget]
      | some u => simp [resolve, hx, hget]
    | _ => simp
  | succ n ih =>
    cases t with
    | var x =>
      have hx := hs.get?_rename hρ (ht x .var)
      cases hget : s.get? x with
      | none => simp [resolve, hx, hget]
      | some u =>
        rw [hget] at hx
        rw [Term.rename_var, resolve_bound hx, resolve_bound hget, ih (hs.vars x u hget).2]
    | _ => simp

theorem Within.runTasks_rename (hs : s.Within Q) (hρ : Set.InjOn ρ {x | Q x}) {tasks : List Task}
    (htasks : ∀ t, .visit t ∈ tasks → t.Over Q) (done : List Term) :
    (s.rename ρ).runTasks n (tasks.map (Task.rename ρ)) (done.map (Term.rename ρ)) =
      (s.runTasks n tasks done).map (Term.rename ρ) := by
  induction n generalizing tasks done with
  | zero => cases tasks <;> simp [runTasks]
  | succ n ih =>
    cases tasks with
    | nil => simp [runTasks]
    | cons task tasks =>
      have hlater : ∀ t, .visit t ∈ tasks → t.Over Q := fun t ht =>
        htasks t (List.mem_cons_of_mem task ht)
      cases task with
      | visit t =>
        have ht : t.Over Q := htasks t List.mem_cons_self
        rw [List.map_cons, Task.rename, runTasks, runTasks, hs.resolve_rename hρ ht]
        cases hu : s.resolve n t with
        | none => rfl
        | some u =>
          have huQ : u.Over Q := hs.vars.of_resolve hu ht
          cases u with
          | compound shape ts =>
            rw [Term.over_compound] at huQ
            have hall : ∀ t, .visit t ∈ ts.map Task.visit ++ .build shape ts.length :: tasks →
                t.Over Q := by
              intro t ht
              rcases List.mem_append.1 ht with ht | ht
              · obtain ⟨t', ht', heq⟩ := List.mem_map.1 ht
                cases heq
                exact huQ t ht'
              · exact hlater t (by simpa using ht)
            have hvisit : (ts.map Task.visit).map (Task.rename ρ) =
                (ts.map (Term.rename ρ)).map .visit := by
              rw [List.map_map, List.map_map]
              rfl
            have hrec := ih hall done
            rw [List.map_append, hvisit] at hrec
            simpa [Task.rename] using hrec
          | var x => simpa using ih hlater (.var x :: done)
          | constant c => simpa using ih hlater (.constant c :: done)
          | unassigned => simpa using ih hlater (.unassigned :: done)
      | build shape arity =>
        have hrec := ih hlater (.compound shape (done.take arity).reverse :: done.drop arity)
        rw [List.map_cons, Task.rename, runTasks, runTasks]
        simpa [List.map_take, List.map_drop] using hrec

theorem Within.walk_rename (hs : s.Within Q) (hρ : Set.InjOn ρ {x | Q x}) (ht : t.Over Q) :
    (s.rename ρ).walk n (t.rename ρ) = (s.walk n t).map (Term.rename ρ) := by
  have htasks : ∀ u, .visit u ∈ [Task.visit t] → u.Over Q := by simpa using ht
  exact hs.runTasks_rename hρ htasks []

theorem Within.occursIn_rename (hs : s.Within Q) (hρ : Set.InjOn ρ {x | Q x}) (hx : Q x)
    {pending : List Term} (hp : ∀ t ∈ pending, t.Over Q) :
    (s.rename ρ).occursIn (ρ x) n (pending.map (Term.rename ρ)) = s.occursIn x n pending := by
  induction n generalizing pending with
  | zero => cases pending <;> simp [occursIn]
  | succ n ih =>
    cases pending with
    | nil => simp [occursIn]
    | cons t pending =>
      obtain ⟨ht, hpending⟩ := List.forall_mem_cons.1 hp
      rw [List.map_cons, occursIn, occursIn, hs.resolve_rename hρ ht]
      cases hu : s.resolve n t with
      | none => rfl
      | some u =>
        have huQ : u.Over Q := hs.vars.of_resolve hu ht
        cases u with
        | var y =>
          have hyx : ρ y = ρ x ↔ y = x := hρ.eq_iff (huQ y .var) hx
          simp [hyx, ih hpending]
        | compound shape ts =>
          rw [Term.over_compound] at huQ
          have hall : ∀ t ∈ ts.reverse ++ pending, t.Over Q := by
            intro t ht
            rcases List.mem_append.1 ht with ht | ht
            · exact huQ t (List.mem_reverse.1 ht)
            · exact hpending t ht
          have hrec := ih hall
          rw [List.map_append, List.map_reverse] at hrec
          simpa using hrec
        | _ => simpa using ih hpending

/-! ### Unification -/

theorem Within.extend_rename (hs : s.Within Q) (hρ : Set.InjOn ρ {x | Q x}) (hx : Q x) :
    (s.rename ρ).extend (ρ x) (t.rename ρ) = renameOutcome ρ (s.extend x t) := by
  unfold extend
  rw [hs.contains_rename hρ hx]
  split_ifs with hc
  · rfl
  · rw [renameOutcome, hs.built.rename_insert (get?_of_not_contains hc)]

theorem Within.bind_rename (hs : s.Within Q) (hρ : Set.InjOn ρ {x | Q x}) (check : Bool) (hx : Q x)
    (ht : t.Over Q) :
    (s.rename ρ).bind check n (ρ x) (t.rename ρ) = renameOutcome ρ (s.bind check n x t) := by
  rw [Substitution.bind, Substitution.bind, hs.walk_rename hρ ht]
  cases hw : s.walk n t with
  | none => rfl
  | some w =>
    have hwQ : w.Over Q := (walks_of_walk hw).over hs.vars ht
    cases check with
    | false => exact hs.extend_rename hρ hx
    | true =>
      have hoccurs := hs.occursIn_rename (n := n) hρ hx (List.forall_mem_singleton.2 hwQ)
      simp only [Option.map_some, if_true, extendChecked, occurs]
      rw [List.map_cons, List.map_nil] at hoccurs
      rw [hoccurs]
      cases s.occursIn x n [w] with
      | none => rfl
      | some b =>
        cases b with
        | true => rfl
        | false => exact hs.extend_rename hρ hx

theorem Within.of_bind {check : Bool} (hs : s.Within Q) (hx : Q x) (ht : t.Over Q)
    (h : s.bind check n x t = .ok s') : s'.Within Q := by
  rw [Substitution.bind] at h
  cases hw : s.walk n t with
  | none =>
    rw [hw] at h
    cases h
  | some w =>
    have hwQ : w.Over Q := (walks_of_walk hw).over hs.vars ht
    have hextend : s.extend x w = .ok s' := by
      rw [hw] at h
      cases check with
      | false => exact h
      | true =>
        simp only [if_true, extendChecked] at h
        split at h
        · cases h
        · cases h
        · exact h
    rw [extend] at hextend
    split_ifs at hextend with hc
    cases hextend
    exact hs.insert (get?_of_not_contains hc) hx hwQ

theorem sameVariable_rename (hρ : Set.InjOn ρ {x | Q x}) (hu : u.Over Q) (hv : v.Over Q) :
    sameVariable (u.rename ρ) (v.rename ρ) = sameVariable u v := by
  cases u with
  | var x =>
    cases v with
    | var y =>
      rw [Bool.eq_iff_iff]
      simp [sameVariable, hρ.eq_iff (hu x .var) (hv y .var)]
    | _ => simp [sameVariable]
  | _ => simp [sameVariable]

theorem demand_rename (hρ : Set.InjOn ρ {x | Q x}) (hu : u.Over Q) (hv : v.Over Q) :
    demand (u.rename ρ) (v.rename ρ) = (demand u v).rename ρ := by
  -- terms that are no variables and not two compounds of a kind are compared as they stand
  have hbeq : (u.rename ρ == v.rename ρ) = (u == v) := by
    rw [Bool.eq_iff_iff, beq_iff_alike, beq_iff_alike, Term.alike_rename_iff hρ hu hv]
  cases u with
  | var x =>
    cases v with
    | var y =>
      have hxy : ρ x = ρ y ↔ x = y := hρ.eq_iff (hu x .var) (hv y .var)
      by_cases h : x = y
      · simp [demand, h, Demand.rename]
      · simp [demand, h, hxy, Demand.rename]
    | _ => simp [demand, Demand.rename]
  | compound shape ts =>
    cases v with
    | var y => simp [demand, Demand.rename]
    | compound shape' us =>
      rw [Term.rename_compound, Term.rename_compound, demand, demand, Term.sameKind, Term.sameKind,
        List.length_map, List.length_map]
      cases shape == shape' && ts.length == us.length with
      | true => simp [Demand.rename, List.zip_map]
      | false => rfl
    | _ =>
      simp only [Term.rename_compound, Term.rename_constant, Term.rename_unassigned] at hbeq
      simp only [demand, Term.rename_compound, Term.rename_constant, Term.rename_unassigned, hbeq]
      split_ifs <;> rfl
  | _ =>
    cases v with
    | var y => simp [demand, Demand.rename]
    | _ =>
      simp only [Term.rename_compound, Term.rename_constant, Term.rename_unassigned] at hbeq
      simp only [demand, Term.rename_compound, Term.rename_constant, Term.rename_unassigned, hbeq]
      split_ifs <;> rfl

/-- **Unification does not depend on what variables are called.** -/
theorem Within.unifyAll_rename (hs : s.Within Q) (hρ : Set.InjOn ρ {x | Q x}) (check : Bool)
    {pending : List (Term × Term)} (hp : ∀ p ∈ pending, p.1.Over Q ∧ p.2.Over Q) :
    unifyAll check n (s.rename ρ) (pending.map (Prod.map (Term.rename ρ) (Term.rename ρ))) =
      renameOutcome ρ (unifyAll check n s pending) := by
  induction n generalizing s pending with
  | zero => cases pending <;> simp [unifyAll, renameOutcome, Refusal.rename]
  | succ n ih =>
    cases pending with
    | nil => simp [unifyAll, renameOutcome]
    | cons p pending =>
      obtain ⟨u, v⟩ := p
      obtain ⟨⟨hu, hv⟩, hp⟩ := List.forall_mem_cons.1 hp
      rw [List.map_cons, Prod.map_apply, unifyAll, unifyAll, hs.resolve_rename hρ hu,
        hs.resolve_rename hρ hv, sameVariable_rename hρ hu hv]
      cases hru : s.resolve n u with
      | none => rfl
      | some u' =>
        cases hrv : s.resolve n v with
        | none => rfl
        | some v' =>
          have hu' := hs.vars.of_resolve hru hu
          have hv' := hs.vars.of_resolve hrv hv
          simp only [Option.map_some, demand_rename hρ hu' hv']
          split_ifs
          · exact ih hs hp
          · cases hd : demand u' v' with
            | nothing => exact ih hs hp
            | impossible => rfl
            | children pairs =>
              have hall : ∀ p ∈ pairs ++ pending, p.1.Over Q ∧ p.2.Over Q :=
                List.forall_mem_append.2 ⟨over_of_demand_children hd hu' hv', hp⟩
              have hrec := ih hs hall
              rw [List.map_append] at hrec
              exact hrec
            | binding x t =>
              obtain ⟨hx, ht⟩ := over_of_demand_binding hd hu' hv'
              simp only [Demand.rename, hs.bind_rename hρ check hx ht]
              cases hb : s.bind check n x t with
              | error refusal => rfl
              | ok s' => exact ih (hs.of_bind hx ht hb) hp

theorem Within.unify_rename (hs : s.Within Q) (hρ : Set.InjOn ρ {x | Q x}) (check : Bool)
    (hu : u.Over Q) (hv : v.Over Q) :
    (s.rename ρ).unify check n (u.rename ρ) (v.rename ρ) =
      renameOutcome ρ (s.unify check n u v) := by
  have hp : ∀ p ∈ [(u, v)], p.1.Over Q ∧ p.2.Over Q := List.forall_mem_singleton.2 ⟨hu, hv⟩
  exact hs.unifyAll_rename hρ check hp

/-! ### Reification -/

theorem Within.release (hs : s.Within Q) (hx : Q x) : (s.release x).Within Q := by
  unfold Substitution.release
  split_ifs with hc
  · exact hs
  · exact hs.insert (get?_of_not_contains hc) hx Term.over_unassigned

theorem Within.release_rename (hs : s.Within Q) (hρ : Set.InjOn ρ {x | Q x}) (hx : Q x) :
    (s.rename ρ).release (ρ x) = (s.release x).rename ρ := by
  unfold Substitution.release
  rw [hs.contains_rename hρ hx]
  split_ifs with hc
  · rfl
  · rw [hs.built.rename_insert (get?_of_not_contains hc), Term.rename_unassigned]

theorem Within.foldl_release (hs : s.Within Q) {xs : List Var} (hxs : ∀ x ∈ xs, Q x) :
    (xs.foldl Substitution.release s).Within Q := by
  induction xs generalizing s with
  | nil => exact hs
  | cons x xs ih =>
    obtain ⟨hx, hxs⟩ := List.forall_mem_cons.1 hxs
    exact ih (hs.release hx) hxs

theorem Within.foldl_release_rename (hs : s.Within Q) (hρ : Set.InjOn ρ {x | Q x}) {xs : List Var}
    (hxs : ∀ x ∈ xs, Q x) : (xs.map ρ).foldl Substitution.release (s.rename ρ) =
      (xs.foldl Substitution.release s).rename ρ := by
  induction xs generalizing s with
  | nil => rfl
  | cons x xs ih =>
    obtain ⟨hx, hxs⟩ := List.forall_mem_cons.1 hxs
    rw [List.map_cons, List.foldl_cons, hs.release_rename hρ hx, List.foldl_cons,
      ih (hs.release hx) hxs]

theorem Within.reify_rename (hs : s.Within Q) (hρ : Set.InjOn ρ {x | Q x}) (ht : t.Over Q) :
    (s.rename ρ).reify n (t.rename ρ) = (s.reify n t).map (Substitution.rename ρ) := by
  rw [reify, reify, hs.walk_rename hρ ht]
  cases hw : s.walk n t with
  | none => rfl
  | some w =>
    have hwQ : ∀ x ∈ w.vars, Q x := fun x hx =>
      (walks_of_walk hw).over hs.vars ht x (Term.mem_vars.1 hx)
    rw [Option.map_some, Option.map_some, Option.map_some, Option.map_some, Term.vars_rename,
      hs.foldl_release_rename hρ hwQ]

/-- A term whose variables keep their names is reified as before. -/
theorem Within.reifyTerm_rename (hs : s.Within Q) (hρ : Set.InjOn ρ {x | Q x}) (ht : t.Over Q)
    (hself : t.rename ρ = t) : (s.rename ρ).reifyTerm n t = s.reifyTerm n t := by
  have hreify := hs.reify_rename (n := n) hρ ht
  rw [hself] at hreify
  rw [reifyTerm, hreify, reifyTerm]
  cases hr : s.reify n t with
  | none => rfl
  | some r =>
    have hrQ : r.Within Q := by
      obtain ⟨w, hw, rfl⟩ := Option.map_eq_some_iff.1 hr
      exact hs.foldl_release fun x hx =>
        (walks_of_walk hw).over hs.vars ht x (Term.mem_vars.1 hx)
    have hwalk := hrQ.walk_rename (n := n) hρ ht
    rw [hself] at hwalk
    rw [Option.map_some, Option.bind_some, Option.bind_some, hwalk]
    cases hw : r.walk n t with
    | none => rfl
    | some w =>
      have hground : w.Ground := ground_of_reifyTerm (s := s) (n := n) (t := t)
        (by rw [reifyTerm, hr, Option.bind_some, hw])
      rw [Option.map_some, hground.rename_eq]

/-! ### All in one -/

/-- The bindings of `r` are those of `s` with other variables, and were made in the same order. -/
structure Renames (ρ : Var → Var) (s r : Substitution) : Prop where
  lookup : ∀ x, r.get? (ρ x) = (s.get? x).map (Term.rename ρ)
  order : r.entries = s.entries.map (Prod.map ρ (Term.rename ρ))

theorem Built.within (hs : s.Built) : s.Within fun _ => True :=
  ⟨hs, fun _ _ _ => ⟨trivial, fun _ _ => trivial⟩⟩

theorem Built.renames (hs : s.Built) (hρ : Function.Injective ρ) : s.Renames ρ (s.rename ρ) :=
  ⟨fun _ => hs.within.get?_rename hρ.injOn trivial, (hs.within.rename hρ.injOn).2⟩

/-- Renaming goes along with everything that is done to `s`, however much effort there is. -/
structure Equivariant (ρ : Var → Var) (s : Substitution) : Prop where
  renamed : s.Renames ρ (s.rename ρ)
  unify : ∀ check n u v, (s.rename ρ).unify check n (u.rename ρ) (v.rename ρ) =
    renameOutcome ρ (s.unify check n u v)
  unified : ∀ check n u v r, s.unify check n u v = .ok r → r.Renames ρ (r.rename ρ)
  walk : ∀ n t, (s.rename ρ).walk n (t.rename ρ) = (s.walk n t).map (Term.rename ρ)
  reify : ∀ n t, (s.rename ρ).reify n (t.rename ρ) = (s.reify n t).map (rename ρ)
  reified : ∀ n t r, s.reify n t = some r → r.Renames ρ (r.rename ρ)

/-- **Nothing that is done to a substitution depends on what variables are called.** -/
theorem Built.equivariant (hs : s.Built) (hρ : Function.Injective ρ) : s.Equivariant ρ := by
  have hall : s.Within fun _ => True := hs.within
  have hterm : ∀ t : Term, t.Over fun _ => True := fun _ _ _ => trivial
  refine ⟨hs.renames hρ, fun check n u v => ?_, fun check n u v r hr => ?_, fun n t => ?_,
    fun n t => ?_, fun n t r hr => ?_⟩
  · exact hall.unify_rename hρ.injOn check (hterm u) (hterm v)
  · exact ((unifies_of_unifyAll hr (by simp)).grows.built hs).renames hρ
  · exact hall.walk_rename hρ.injOn (hterm t)
  · exact hall.reify_rename hρ.injOn (hterm t)
  · exact ((grows_reify hr).built hs).renames hρ

end Substitution

end Relational
