import Mathlib.Order.Filter.Finite
import Relational.Proofs.Substitution.OccursCheck

/-!
# Unification by descent

`Substitution.descend` is unification as one would write it down by recursion: resolve both sides,
bind an unbound variable to what the other side stands for, and make the children of two compounds
of one kind equal from left to right, each pair under the bindings that the pairs before it have
made.  The list of waiting pairs is another way to say the same (`Simulated.all`,
`Unifies.eventually_descendAll`).

Compounds may be shared.  A loop that finds the same compound on both sides can skip it, and which
compounds are shared is nothing that a term shows.  So the loop is looked at for every `Sharing`
that there could be, and skips what it says is shared (`unifySharing`); the loop of unification is
one of these (`unifyAll_eq_unifySharing`).  Equal trees ask for no binding (`descend_self`), and so
what is shared does not show in what comes out (`Acyclic.unify_descends`).
-/

namespace Relational

namespace Substitution

open Filter

/-- Make `u` and `v` equal by recursion over what they resolve to. -/
def descend (check : Bool) : ℕ → Substitution → Term → Term → Except Refusal Substitution
  | 0, _, _, _ => .error .unfinished
  | effort + 1, s, u, v =>
    match s.resolve effort u, s.resolve effort v with
    | some u', some v' =>
      match demand u' v' with
      | .nothing => .ok s
      | .binding x t => s.bind check effort x t
      | .children pairs => pairs.foldlM (fun s (u, v) => descend check effort s u v) s
      | .impossible => .error (.clash u' v')
    | _, _ => .error .unfinished

/-- Make the sides of the pairs equal, one pair after the other. -/
def descendAll (check : Bool) (effort : ℕ) (s : Substitution) (pairs : List (Term × Term)) :
    Except Refusal Substitution :=
  pairs.foldlM (fun s (u, v) => descend check effort s u v) s

/-- Which compounds are found to be shared. -/
structure Sharing where
  /-- Whether the sides of the first waiting pair resolve to one compound, stored once. -/
  shared : Substitution → List (Term × Term) → Bool
  /-- What is stored once is the same tree on both sides. -/
  same_tree : ∀ {s n u v u' v' pending}, shared s ((u, v) :: pending) = true →
    s.resolve n u = some u' → s.resolve n v = some v' → u' = v'

/-- Make the two sides of every pair equal, and skip two compounds that are shared. -/
def unifySharing (σ : Sharing) (check : Bool) :
    ℕ → Substitution → List (Term × Term) → Except Refusal Substitution
  | _, s, [] => .ok s
  | 0, _, _ => .error .unfinished
  | effort + 1, s, (u, v) :: pending =>
    match s.resolve effort u, s.resolve effort v with
    | some u', some v' =>
      match demand u' v' with
      | .nothing => unifySharing σ check effort s pending
      | .binding x t =>
        match s.bind check effort x t with
        | .ok s => unifySharing σ check effort s pending
        | .error refusal => .error refusal
      | .children pairs =>
        if σ.shared s ((u, v) :: pending) then unifySharing σ check effort s pending
        else unifySharing σ check effort s (pairs ++ pending)
      | .impossible => .error (.clash u' v')
    | _, _ => .error .unfinished

variable {check : Bool} {s s' : Substitution} {n m : ℕ} {t u v u' v' w : Term} {x : Var}
  {pairs pending : List (Term × Term)} {r r' : Except Refusal Substitution} {σ : Sharing}

/-! ### One step of the descent -/

theorem descend_succ (hu : s.resolve n u = some u') (hv : s.resolve n v = some v') :
    descend check (n + 1) s u v =
      match demand u' v' with
      | .nothing => .ok s
      | .binding x t => s.bind check n x t
      | .children pairs => descendAll check n s pairs
      | .impossible => .error (.clash u' v') := by
  rw [descend, hu, hv]
  rfl

/-- A descent that is not cut short resolves both sides. -/
theorem exists_resolve_of_descend (h : descend check (n + 1) s u v ≠ .error .unfinished) :
    ∃ u' v', s.resolve n u = some u' ∧ s.resolve n v = some v' := by
  cases hu : s.resolve n u with
  | none => simp [descend, hu] at h
  | some u' =>
    cases hv : s.resolve n v with
    | none => simp [descend, hu, hv] at h
    | some v' => exact ⟨u', v', rfl, rfl⟩

theorem descendAll_cons : descendAll check n s ((u, v) :: pending) =
    descend check n s u v >>= fun s => descendAll check n s pending := rfl

theorem descendAll_append : descendAll check n s (pairs ++ pending) =
    descendAll check n s pairs >>= fun s => descendAll check n s pending := by
  rw [descendAll, List.foldlM_append]
  rfl

/-! ### Effort -/

/-- What is known from the first of two computations is known from a first one that goes on for
longer. -/
theorem bind_mono_of_ne {a b : Except Refusal Substitution}
    {f g : Substitution → Except Refusal Substitution} (h : a >>= f ≠ .error .unfinished)
    (hab : a ≠ .error .unfinished → b = a)
    (hfg : ∀ s, f s ≠ .error .unfinished → g s = f s) : b >>= g = a >>= f := by
  cases a with
  | error refusal =>
    rw [hab h]
    rfl
  | ok s =>
    rw [hab (by simp)]
    exact hfg s h

theorem descend_mono (h : descend check n s u v ≠ .error .unfinished) (hnm : n ≤ m) :
    descend check m s u v = descend check n s u v := by
  induction n generalizing m s u v with
  | zero => exact absurd rfl h
  | succ n ih =>
    obtain ⟨m, rfl⟩ : ∃ k, m = k + 1 := ⟨m - 1, by omega⟩
    have hnm : n ≤ m := by omega
    have hall : ∀ pairs s, descendAll check n s pairs ≠ .error .unfinished →
        descendAll check m s pairs = descendAll check n s pairs := by
      intro pairs
      induction pairs with
      | nil => exact fun s _ => rfl
      | cons p pairs ihp => exact fun s hp => bind_mono_of_ne hp (fun hp => ih hp hnm) ihp
    obtain ⟨u', v', hu, hv⟩ := exists_resolve_of_descend h
    rw [descend_succ hu hv] at h ⊢
    rw [descend_succ (resolve_mono hu hnm) (resolve_mono hv hnm)]
    cases hd : demand u' v' with
    | nothing => rfl
    | impossible => rfl
    | binding x t =>
      rw [hd] at h
      exact bind_mono h hnm
    | children pairs =>
      rw [hd] at h
      exact hall pairs s h

theorem descendAll_mono (h : descendAll check n s pairs ≠ .error .unfinished) (hnm : n ≤ m) :
    descendAll check m s pairs = descendAll check n s pairs := by
  induction pairs generalizing s with
  | nil => rfl
  | cons p pairs ih => exact bind_mono_of_ne h (fun h => descend_mono h hnm) fun s => ih

/-! ### Equal trees -/

theorem demand_self (t : Term) : demand t t = .nothing ∨
    ∃ shape ts, t = .compound shape ts ∧ demand t t = .children (ts.zip ts) := by
  cases t with
  | var x => exact .inl (by simp [demand])
  | constant c =>
    have hcc : (Term.constant c == Term.constant c) = true := beq_iff_alike.2 (Term.alike_refl _)
    exact .inl (by simp [demand, hcc])
  | compound shape ts => exact .inr ⟨shape, ts, rfl, by simp [demand, Term.sameKind]⟩
  | unassigned =>
    have huu : (Term.unassigned == Term.unassigned) = true := beq_iff_alike.2 (Term.alike_refl _)
    exact .inl (by simp [demand, huu])

theorem eq_of_mem_zip_self {ts : List Term} {p : Term × Term} (hp : p ∈ ts.zip ts) :
    p.1 = p.2 ∧ p.1 ∈ ts := by
  obtain ⟨i, hi, rfl⟩ := List.mem_iff_getElem.1 hp
  simp

/-- Pairs of equal trees add nothing, if each of them does not. -/
theorem descendAll_same (hpairs : ∀ p ∈ pairs, p.1 = p.2)
    (h : ∀ p ∈ pairs, descend check n s p.1 p.1 ≠ .error .unfinished →
      descend check n s p.1 p.1 = .ok s)
    (hne : descendAll check n s pairs ≠ .error .unfinished) :
    descendAll check n s pairs = .ok s := by
  induction pairs with
  | nil => rfl
  | cons p pairs ih =>
    obtain ⟨t, t'⟩ := p
    obtain ⟨rfl : t = t', hrest⟩ := List.forall_mem_cons.1 hpairs
    obtain ⟨ht, h⟩ := List.forall_mem_cons.1 h
    rw [descendAll_cons] at hne ⊢
    have hself : descend check n s t t = .ok s := by
      refine ht fun hunfinished => hne ?_
      rw [hunfinished]
      rfl
    rw [hself] at hne ⊢
    exact ih hrest h hne

/-- **Equal trees ask for no binding**, whatever is bound, if the descent comes to its end. -/
theorem descend_self (h : descend check n s t t ≠ .error .unfinished) :
    descend check n s t t = .ok s := by
  induction n generalizing t with
  | zero => exact absurd rfl h
  | succ n ih =>
    obtain ⟨u, -, hu, -⟩ := exists_resolve_of_descend h
    rw [descend_succ hu hu] at h ⊢
    obtain hd | ⟨shape, ts, rfl, hd⟩ := demand_self u
    · rw [hd]
    · rw [hd] at h ⊢
      exact descendAll_same (fun p hp => (eq_of_mem_zip_self hp).1) (fun p _ => ih) h

/-! ### The loop does what the descent does -/

theorem unifySharing_succ (hu : s.resolve n u = some u') (hv : s.resolve n v = some v') :
    unifySharing σ check (n + 1) s ((u, v) :: pending) =
      match demand u' v' with
      | .nothing => unifySharing σ check n s pending
      | .binding x t =>
        match s.bind check n x t with
        | .ok s => unifySharing σ check n s pending
        | .error refusal => .error refusal
      | .children pairs =>
        if σ.shared s ((u, v) :: pending) then unifySharing σ check n s pending
        else unifySharing σ check n s (pairs ++ pending)
      | .impossible => .error (.clash u' v') := by
  rw [unifySharing, hu, hv]

/-- Whatever is shared, the loop ends with `r`. -/
def EndsWith (check : Bool) (s : Substitution) (pending : List (Term × Term))
    (r : Except Refusal Substitution) : Prop :=
  ∀ᶠ n in atTop, ∀ σ, unifySharing σ check n s pending = r

/-- What comes of the waiting pairs once the first part of the work has come to `r`. -/
def GoesOn (check : Bool) (r : Except Refusal Substitution) (pending : List (Term × Term))
    (r' : Except Refusal Substitution) : Prop :=
  match r with
  | .ok s => EndsWith check s pending r'
  | .error refusal => r' = .error refusal

section Step

variable (hu : s.resolve n u = some u') (hv : s.resolve n v = some v')

include hu hv

theorem eventually_resolve_pair :
    ∀ᶠ m in atTop, s.resolve m u = some u' ∧ s.resolve m v = some v' :=
  eventually_atTop.2 ⟨n, fun _ hm => ⟨resolve_mono hu hm, resolve_mono hv hm⟩⟩

theorem EndsWith.nothing (hd : demand u' v' = .nothing) (h : EndsWith check s pending r) :
    EndsWith check s ((u, v) :: pending) r := by
  refine eventually_of_succ ?_
  filter_upwards [eventually_resolve_pair hu hv, h] with m hm hend σ
  rw [unifySharing_succ hm.1 hm.2, hd]
  exact hend σ

theorem endsWith_clash (hd : demand u' v' = .impossible) :
    EndsWith check s ((u, v) :: pending) (.error (.clash u' v')) := by
  refine eventually_of_succ ?_
  filter_upwards [eventually_resolve_pair hu hv] with m hm σ
  rw [unifySharing_succ hm.1 hm.2, hd]

theorem GoesOn.binding (hd : demand u' v' = .binding x t)
    (hne : s.bind check n x t ≠ .error .unfinished)
    (h : GoesOn check (s.bind check n x t) pending r) :
    EndsWith check s ((u, v) :: pending) r := by
  refine eventually_of_succ ?_
  have hbind : ∀ᶠ m in atTop, s.bind check m x t = s.bind check n x t :=
    eventually_atTop.2 ⟨n, fun m hm => bind_mono hne hm⟩
  cases hb : s.bind check n x t with
  | error refusal =>
    simp only [hb] at h hbind
    filter_upwards [eventually_resolve_pair hu hv, hbind] with m hm hbm σ
    rw [unifySharing_succ hm.1 hm.2, hd]
    simp only [hbm]
    exact h.symm
  | ok s' =>
    simp only [hb] at h hbind
    filter_upwards [eventually_resolve_pair hu hv, hbind, h] with m hm hbm hend σ
    rw [unifySharing_succ hm.1 hm.2, hd]
    simp only [hbm]
    exact hend σ

/-- The children go in front, or they are equal trees and the loop may pass over them. -/
theorem EndsWith.children (hd : demand u' v' = .children pairs)
    (h : EndsWith check s (pairs ++ pending) r) (hskip : u' = v' → EndsWith check s pending r) :
    EndsWith check s ((u, v) :: pending) r := by
  refine eventually_of_succ ?_
  by_cases huv : u' = v'
  · filter_upwards [eventually_resolve_pair hu hv, h, hskip huv] with m hm hend hend' σ
    rw [unifySharing_succ hm.1 hm.2, hd]
    dsimp only
    split_ifs
    · exact hend' σ
    · exact hend σ
  · filter_upwards [eventually_resolve_pair hu hv, h] with m hm hend σ
    have hnot : ¬ σ.shared s ((u, v) :: pending) = true := fun h => huv (σ.same_tree h hu hv)
    rw [unifySharing_succ hm.1 hm.2, hd]
    simp only [if_neg hnot]
    exact hend σ

end Step

variable (check n) in
/-- Where a descent with effort `n` comes to its end, the loop goes on from there. -/
def Simulated : Prop :=
  ∀ {s u v pending r'}, descend check n s u v ≠ .error .unfinished →
    GoesOn check (descend check n s u v) pending r' → EndsWith check s ((u, v) :: pending) r'

theorem Simulated.all (h : Simulated check n)
    (hne : descendAll check n s pairs ≠ .error .unfinished)
    (hr : GoesOn check (descendAll check n s pairs) pending r') :
    EndsWith check s (pairs ++ pending) r' := by
  induction pairs generalizing s with
  | nil => exact hr
  | cons p pairs ih =>
    obtain ⟨u, v⟩ := p
    rw [descendAll_cons] at hne hr
    refine h ?_ ?_
    · intro hunfinished
      rw [hunfinished] at hne
      exact hne rfl
    · cases hd : descend check n s u v with
      | error refusal =>
        rw [hd] at hr
        exact hr
      | ok s' =>
        rw [hd] at hne hr
        exact ih hne hr

theorem simulated (check : Bool) (n : ℕ) : Simulated check n := by
  induction n with
  | zero => exact fun h => absurd rfl h
  | succ n ih =>
    intro s u v pending r' hne hr
    obtain ⟨u', v', hu, hv⟩ := exists_resolve_of_descend hne
    rw [descend_succ hu hv] at hne hr
    cases hd : demand u' v' with
    | nothing =>
      rw [hd] at hr
      exact EndsWith.nothing hu hv hd hr
    | impossible =>
      rw [hd] at hr
      obtain rfl : r' = .error (.clash u' v') := hr
      exact endsWith_clash hu hv hd
    | binding x t =>
      rw [hd] at hne hr
      exact GoesOn.binding hu hv hd hne hr
    | children pairs =>
      rw [hd] at hne hr
      refine EndsWith.children hu hv hd (ih.all hne hr) ?_
      rintro rfl
      obtain ⟨shape, ts, us, rfl, htree, -, rfl⟩ := eq_of_demand_children hd
      cases htree
      have hself : descendAll check n s (ts.zip ts) = .ok s :=
        descendAll_same (fun p hp => (eq_of_mem_zip_self hp).1) (fun p _ => descend_self) hne
      simp only [hself] at hr
      exact hr

/-- **Where the descent comes to its end, so does the loop, and with the same outcome**, whatever is
shared. -/
theorem endsWith_of_descend (h : descend check n s u v = r) (hr : r ≠ .error .unfinished) :
    EndsWith check s [(u, v)] r := by
  subst h
  refine simulated check n hr ?_
  cases hd : descend check n s u v with
  | error refusal => rfl
  | ok s' => exact .of_forall fun m σ => by rw [unifySharing]

/-! ### What the loop of unification finds shared -/

/-- A variable stands for one and the same term on both sides. -/
def Sharing.variables : Sharing where
  shared := fun _ pending => pending.head?.any fun p => sameVariable p.1 p.2
  same_tree := by
    intro s n u v u' v' pending h hu hv
    cases u <;> cases v <;> simp [sameVariable] at h
    subst h
    rw [hu, Option.some.injEq] at hv
    exact hv

theorem unifyAll_eq_unifySharing (check : Bool) (n : ℕ) (s : Substitution)
    (pending : List (Term × Term)) :
    unifyAll check n s pending = unifySharing .variables check n s pending := by
  induction n generalizing s pending with
  | zero => cases pending <;> rfl
  | succ n ih =>
    cases pending with
    | nil => rfl
    | cons p pending =>
      obtain ⟨u, v⟩ := p
      cases hu : s.resolve n u with
      | none => simp [unifyAll, unifySharing, hu]
      | some u' =>
        cases hv : s.resolve n v with
        | none => simp [unifyAll, unifySharing, hu, hv]
        | some v' =>
          rw [unifySharing_succ hu hv]
          cases hsame : sameVariable u v with
          | false =>
            have hnot : ¬ Sharing.variables.shared s ((u, v) :: pending) = true := by
              simp [Sharing.variables, hsame]
            rw [unifyAll_succ hu hv hsame]
            cases demand u' v' with
            | binding x t => cases hb : s.bind check n x t <;> simp only [hb, ih]
            | _ => simp only [ih, if_neg hnot]
          | true =>
            have hshared : Sharing.variables.shared s ((u, v) :: pending) = true := by
              simp [Sharing.variables, hsame]
            obtain rfl := Sharing.variables.same_tree hshared hu hv
            have hskip : unifyAll check (n + 1) s ((u, v) :: pending) =
                unifyAll check n s pending := by
              rw [unifyAll, hu, hv]
              exact if_pos hsame
            rw [hskip, ih]
            obtain hd | ⟨shape, ts, rfl, hd⟩ := demand_self u'
            · rw [hd]
            · rw [hd]
              exact (if_pos hshared).symm

theorem EndsWith.returns (h : EndsWith check s [(u, v)] r) (hr : r ≠ .error .unfinished) :
    s.Returns check u v r := by
  refine ⟨hr, ?_⟩
  filter_upwards [h] with n hn
  rw [unify, unifyAll_eq_unifySharing]
  exact hn _

/-! ### The descent ends when the loop does -/

theorem descendAll_of_forall (h : ∀ p ∈ pairs, descend check n s p.1 p.2 = .ok s) :
    descendAll check n s pairs = .ok s := by
  induction pairs with
  | nil => rfl
  | cons p pairs ih =>
    obtain ⟨hp, h⟩ := List.forall_mem_cons.1 h
    rw [descendAll_cons, hp]
    exact ih h

/-- A bound variable is as good as its value. -/
theorem descend_bound (hx : s.get? x = some t) (h : descend check n s t t = .ok s) :
    descend check (n + 1) s (.var x) (.var x) = .ok s := by
  cases n with
  | zero => cases h
  | succ n =>
    obtain ⟨u, -, hu, -⟩ :=
      exists_resolve_of_descend (show descend check (n + 1) s t t ≠ _ by simp [h])
    have hvar : s.resolve (n + 1) (.var x) = some u := by rw [resolve_bound hx, hu]
    have hval : s.resolve (n + 1) t = some u := resolve_mono hu (by omega)
    rw [descend_succ hvar hvar, ← descend_succ hval hval]
    rw [descend_mono (by simp [h]) (by omega : n + 1 ≤ n + 1 + 1), h]

/-- Without cycles, equal trees are found equal. -/
theorem Acyclic.eventually_descend_self (hs : s.Acyclic) (t : Term) :
    ∀ᶠ n in atTop, descend check n s t t = .ok s := by
  have hsettled : ∀ {u : Term}, (∀ n, s.resolve n u = some u) → demand u u = .nothing →
      ∀ᶠ n in atTop, descend check n s u u = .ok s := by
    intro u hu hd
    refine eventually_of_succ (.of_forall fun n => ?_)
    rw [descend_succ (hu n) (hu n), hd]
  induction t using hs.ind with
  | bound x t hx ih => exact eventually_of_succ (ih.mono fun n hn => descend_bound hx hn)
  | free x hx => exact hsettled (fun n => resolve_free hx) (by simp [demand])
  | constant c =>
    obtain hd | ⟨_, _, hc, -⟩ := demand_self (.constant c)
    · exact hsettled (fun n => resolve_constant c) hd
    · cases hc
  | compound shape ts ih =>
    obtain hd | ⟨_, _, hts, hd⟩ := demand_self (.compound shape ts)
    · exact hsettled (fun n => resolve_compound shape ts) hd
    · cases hts
      refine eventually_of_succ ?_
      filter_upwards [(eventually_all_finite ts.finite_toSet).2 ih] with n hn
      rw [descend_succ (resolve_compound shape ts) (resolve_compound shape ts), hd]
      refine descendAll_of_forall fun p hp => ?_
      obtain ⟨hsame, hmem⟩ := eq_of_mem_zip_self hp
      rw [← hsame]
      exact hn _ hmem
  | unassigned =>
    obtain hd | ⟨_, _, hc, -⟩ := demand_self .unassigned
    · exact hsettled (fun n => resolve_unassigned) hd
    · cases hc

/-- **Where the loop with the occurs check comes to its end, so does the descent, and with the same
outcome.** -/
theorem Unifies.eventually_descendAll (h : Unifies true s pending r) (hs : s.Acyclic) :
    ∀ᶠ n in atTop, descendAll true n s pending = r := by
  induction h with
  | done s => exact .of_forall fun n => rfl
  | @same s x u pending r hu h ih =>
    filter_upwards [hs.eventually_descend_self (.var x), ih hs] with n hself hn
    rw [descendAll_cons, hself]
    exact hn
  | @nothing s u v u' v' pending r hres hd h ih =>
    have hfirst : ∀ᶠ n in atTop, descend true n s u v = .ok s := by
      refine eventually_of_succ ?_
      filter_upwards [hres.eventually_resolve] with n hn
      rw [descend_succ hn.1 hn.2, hd]
    filter_upwards [hfirst, ih hs] with n hfirst hn
    rw [descendAll_cons, hfirst]
    exact hn
  | @binding s u v u' v' t w x pending r hres hd hw hc h ih =>
    have hxw : ¬ w.Occurs x := hc rfl
    have hfirst : ∀ᶠ n in atTop, descend true n s u v = .ok (s.insert x w) := by
      refine eventually_of_succ ?_
      filter_upwards [hres.eventually_resolve, eventually_bind true (hres.free hd) hw] with n hn hb
      rw [descend_succ hn.1 hn.2, hd]
      simpa [hxw] using hb
    filter_upwards [hfirst, ih (hw.acyclic_insert hs (hres.free hd) hxw)] with n hfirst hn
    rw [descendAll_cons, hfirst]
    exact hn
  | @circular s u v u' v' t w x pending hres hd hw hc hx =>
    refine eventually_of_succ ?_
    filter_upwards [hres.eventually_resolve, eventually_bind true (hres.free hd) hw] with n hn hb
    have hb : s.bind true n x t = .error (.circular x w) := by simpa [hx] using hb
    rw [descendAll_cons, descend_succ hn.1 hn.2, hd]
    simp only [hb]
    rfl
  | @children s u v u' v' pairs pending r hres hd h ih =>
    refine eventually_of_succ ?_
    filter_upwards [hres.eventually_resolve, ih hs] with n hn hall
    rw [descendAll_append] at hall
    rw [descendAll_cons, descend_succ hn.1 hn.2, hd, ← hall]
    -- the children are made equal with the effort `n`, and what waits behind them with one more
    refine bind_mono_of_ne (hall ▸ h.ne_unfinished) (fun _ => rfl) fun s' hs' => ?_
    exact descendAll_mono hs' (Nat.le_succ n)
  | clash hres hd =>
    refine eventually_of_succ ?_
    filter_upwards [hres.eventually_resolve] with n hn
    rw [descendAll_cons, descend_succ hn.1 hn.2, hd]
    rfl

/-- **Unification is the descent, and what is shared does not show.**  Without cycles to start
with, unification with the occurs check returns what the descent comes to, and so does the loop
with any other compounds shared.  Without the check the same is true wherever the descent comes to
its end. -/
theorem Acyclic.unify_descends (hs : s.Acyclic) (u v : Term) :
    (∃ r, s.Returns true u v r ∧ (∀ᶠ n in atTop, descend true n s u v = r) ∧
      EndsWith true s [(u, v)] r) ∧
    ∀ r, r ≠ .error .unfinished → (∃ n, descend false n s u v = r) →
      s.Returns false u v r ∧ EndsWith false s [(u, v)] r := by
  constructor
  · obtain ⟨r, hr⟩ := hs.exists_unifies [(u, v)]
    have hdescend : ∀ᶠ n in atTop, descend true n s u v = r := by
      filter_upwards [hr.eventually_descendAll hs] with n hn
      rw [← hn, descendAll_cons]
      cases descend true n s u v <;> rfl
    obtain ⟨n, hn⟩ := hdescend.exists
    exact ⟨r, returns_iff.2 hr, hdescend, endsWith_of_descend hn hr.ne_unfinished⟩
  · rintro r hr ⟨n, hn⟩
    have hend : EndsWith false s [(u, v)] r := endsWith_of_descend hn hr
    exact ⟨hend.returns hr, hend⟩

/-- One compound stands on both sides, with a constant in it that is equal to nothing but itself:
the tails alone ask for a binding. -/
theorem unify_descends_shared :
    let nan := Term.constant ⟨.plain (.float .double .nan), [0]⟩
    let shared := Term.cons nan (.var (.fresh 1))
    let u := Term.cons shared (.var (.fresh 0))
    let v := Term.cons shared .nil
    let r : Except Refusal Substitution := .ok (empty.insert (.fresh 0) .nil)
    ((∀ᶠ n in atTop, descend true n empty u v = r) ∧ EndsWith true empty [(u, v)] r) ∧
      EndsWith false empty [(u, v)] r := by
  intro nan shared u v r
  have hunify : empty.unify true 9 u v = r := by cbv
  have hdescend : descend false 9 empty u v = r := by cbv
  obtain ⟨⟨r', hr', hd, hend⟩, hunchecked⟩ := Acyclic.unify_descends acyclic_empty u v
  obtain rfl : r' = r := hr'.unique (returns_of_unify hunify (by simp [r]))
  exact ⟨⟨hd, hend⟩, (hunchecked _ (by simp [r]) ⟨9, hdescend⟩).2⟩

end Substitution

end Relational
