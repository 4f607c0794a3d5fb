import Relational.Proofs.Search.Items
import Relational.Proofs.Stream.Pull
import Relational.Proofs.Substitution.Reified
import Relational.Proofs.Substitution.Walked

/-!
# Membership

With the occurs check the outcome of unification depends on what a term stands for, so the items of
a list can be taken as they are walked (`decides_unified`), and `membero` finds a state for each of
them for which there is an outcome (`exists_completes_membero`).

A list that is not there yet is made: for an unbound variable the search goes on for ever, with one
more cell in front of the item each time.  What is kept from one call to the next is that the cells
so far have unbound variables in them and that the list ends in an unbound variable
(`Ending.OpenList`).
-/

namespace Relational

open Filter Substitution
open Relational.Stream (Iterates)

theorem State.unifies_of_unified {st st' : State} {u v : Term} (h : st.unified u v = some st') :
    ∃ s, st.substitution.Unifies st.config.occursCheck [(u, v)] (.ok s) ∧
      st' = st.withSubstitution s := by
  obtain ⟨n, hn⟩ := (st.eventually_value_unify u v).exists
  exact unifies_of_unify (hn.trans h)

/-- Of two suspended streams the first one has an item, and the second one an item that is replaced
by a suspended stream: the item is there behind two suspensions, and the other stream behind it. -/
theorem Stream.after_merge_bind {ι κ ε α : Type} {rules : Rules ι κ ε α} {p q r : Suspension ι κ α}
    {c : κ} {a b : α} (hp : (p.force rules).value = single a)
    (hq : (q.force rules).value = single b) (hb : (rules.expand c b).value = suspend r) :
    ((suspend p).merge (suspend (.bind q c))).after rules 2 =
      cons a (suspend (.swap empty r)) := by
  have hbind : (suspend (.bind q c)).behind rules = suspend (.swap empty r) := by
    rw [behind_suspend, Suspension.force, Logged.value_bind, hq, Stream.bind, value_bindWith]
    show (rules.expand c b).value.merge empty = _
    rw [hb]
    rfl
  have hfirst : ((suspend p).merge (suspend (.bind q c))).behind rules =
      (suspend (.bind q c)).merge (single a) := by
    rw [behind_merge, if_neg (by simp), behind_suspend, hp]
  have hsecond : ((suspend (.bind q c)).merge (single a)).behind rules =
      (single a).merge (suspend (.swap empty r)) := by
    rw [behind_merge, if_neg (by simp), hbind]
  rw [after, hfirst, after, hsecond]
  rfl

namespace Goal

variable {st : State} {e l tail x : Term} {es : List Term}

/-- With the occurs check, unification with a term comes to what it does with its walk. -/
theorem decides_unified (hcheck : st.config.occursCheck = true) (hst : st.substitution.Acyclic)
    (Q : Var → Prop) (x e : Term) :
    Decides true Q st.substitution x e ((st.unified x e).map State.substitution) := by
  have hwalked : ∀ {u}, st.substitution.Walks u e →
      st.substitution.walked [(x, u)] = st.substitution.walked [(x, e)] := by
    intro u hu
    simp [walked, hu.subst_value, (hst.walks u).unique hu]
  cases hfound : st.unified x e with
  | none =>
    intro u _ hu
    obtain ⟨refusal | r, h⟩ := hst.exists_unifies [(x, u)]
    · exact ⟨refusal, h⟩
    · have h' := (hst.unifies_iff_of_walked_eq (hwalked hu)).1 h
      rw [← hcheck] at h'
      rw [State.unified_eq h'] at hfound
      cases hfound
  | some st' =>
    obtain ⟨r, h, rfl⟩ := State.unifies_of_unified hfound
    rw [hcheck] at h
    exact ⟨h.acyclic hst, fun u _ hu => (hst.unifies_iff_of_walked_eq (hwalked hu)).2 h⟩

/-- The variables below `n` walk to the same in both states, whether they are bound or not. -/
def ReadsSame (n : ℕ) (st st' : State) : Prop :=
  ∀ y : Var, y.Below n → ∃ w, ∀ᶠ m in atTop,
    st.substitution.walk m (.var y) = some w ∧ st'.substitution.walk m (.var y) = some w

/-- **The items of a list are enumerated from left to right**, those that can be unified. -/
theorem exists_completes_membero (loc : Locals) (hcheck : st.config.occursCheck = true)
    (hst : st.substitution.Acyclic) (hover : st.substitution.Over (Var.Below st.nextId))
    (hx : x.Over (Var.Below st.nextId)) (hl : l.Over (Var.Below st.nextId)) (htail : tail.isNil)
    (hwalk : ∀ᶠ n in atTop, st.substitution.walk n l = some (.listWithTail es tail)) :
    ∃ results layers, (∀ᶠ n in atTop, (es.filterMap fun e => (st.unify n x e).value) = results ∧
        Completes ⟨Program.lists, n⟩ (.call "membero" [.term x, .term l]) loc st layers) ∧
      List.Forall₂ (ReadsSame st.nextId) results layers.flatten := by
  obtain ⟨n, hn⟩ := hwalk.exists
  have hlist := walks_of_walk hn
  have hes : ∀ e ∈ es, e.Over (Var.Below st.nextId) :=
    (Term.over_listWithTail.1 (hlist.over hover hl)).1
  have hknows : st.Knows st.nextId st.substitution := ⟨.refl _, hover, hst, le_rfl⟩
  have hdecides : ∀ e, Decides st.config.occursCheck (Var.Below st.nextId) st.substitution x e
      ((st.unified x e).map State.substitution) := by
    rw [hcheck]
    exact decides_unified hcheck hst _ x
  obtain ⟨ls, hcall, hfound⟩ := exists_callExhausts_membero hover hx htail hknows
    (fun e he => ⟨hes e he, hdecides e⟩) hl hlist
    fun n c d hres => (hover.of_resolve_cons hl ⟨n, hres⟩).1
  refine ⟨es.filterMap (st.unified x), [] :: ls, ?_, ?_⟩
  · have hall : ∀ᶠ n in atTop, ∀ e ∈ {e | e ∈ es}, (st.unify n x e).value = st.unified x e :=
      (eventually_all_finite es.finite_toSet).2 fun e _ => st.eventually_value_unify x e
    filter_upwards [hall, (hcall.exhausts loc).eventually_completes] with n hn hcompletes
    exact ⟨List.filterMap_congr hn, hcompletes⟩
  · rw [List.flatten_cons, List.nil_append]
    rw [← List.map_filterMap, List.forall₂_map_left_iff] at hfound
    refine hfound.imp fun r st' hshows y hy => ?_
    obtain ⟨hr, hst'⟩ := hshows.walks (Term.over_var.2 hy)
    exact ⟨_, hr.eventually_walk.and hst'.eventually_walk⟩

/-! ### A list without an end -/

/-- The body of `membero`, when it is called with the terms `x` and `p`. -/
noncomputable def itemSearch (x p : Term) (l : Locals) (st : State) : States :=
  Lists.membero.body.search Program.lists (openLocals l Lists.membero [x, p] st) st

/-- If the list can be extended, an item is there behind two suspensions, and the items of its tail
stand behind it. -/
theorem itemSearch_after (loc : Locals) {p : Term} {found next : State}
    (hfound : (⟨st.substitution, st.nextId + 1, st.config⟩ : State).unified
      (.cons x (.var (.fresh st.nextId))) p = some found)
    (hnext : (⟨st.substitution, st.nextId + 2, st.config⟩ : State).unified
      (.cons (.var (.fresh (st.nextId + 1))) (.var (.fresh st.nextId))) p = some next) :
    (itemSearch x p loc st).isSuspended ∧
      ((itemSearch x p loc st).behind (searchRules Program.lists)).isSuspended ∧
      ∃ loc' r, (itemSearch x p loc st).after (searchRules Program.lists) 2 =
          .cons found (.suspend (.swap .empty r)) ∧
        (r.force (searchRules Program.lists)).value =
          itemSearch x (.var (.fresh st.nextId)) loc' next := by
  let loc' := (openLocals loc Lists.membero [x, p] st).bind "d" (.var (.fresh st.nextId))
  let call : Pending :=
    ⟨openLocals loc' Lists.membero [x, .var (.fresh st.nextId)] next, Lists.membero.body, next⟩
  refine ⟨rfl, rfl, loc', .unfold call, ?_, rfl⟩
  exact Stream.after_merge_bind (congrArg (fun o : Option State => Stream.ofList o.toList) hfound)
    (congrArg (fun o : Option State => Stream.ofList o.toList) hnext) rfl

/-- A search state, and the variable in which a list ends there. -/
abbrev Ending := State × Var

/-- The list gets a cell with the item `x`, and ends behind it in a new variable. -/
def Ending.found (x : Term) (z : Ending) : State :=
  ⟨z.1.substitution.insert z.2 (.cons x (.var (.fresh z.1.nextId))), z.1.nextId + 1, z.1.config⟩

/-- The list gets a cell with a new variable, and ends behind it in another one. -/
def Ending.longer (z : Ending) : Ending :=
  (⟨z.1.substitution.insert z.2
      (.cons (.var (.fresh (z.1.nextId + 1))) (.var (.fresh z.1.nextId))),
    z.1.nextId + 2, z.1.config⟩, .fresh z.1.nextId)

/-- The variable `q` stands for `k` cells with unbound variables, and behind them the list ends in
an unbound variable. -/
structure Ending.OpenList (q : Var) (k : ℕ) (z : Ending) : Prop where
  handedOut : z.1.substitution.Over (Var.Below z.1.nextId)
  below : z.2.Below z.1.nextId
  free : z.1.substitution.get? z.2 = none
  cells : ∃ as : List Var, as.length = k ∧
    (∀ a ∈ as, a.Below z.1.nextId ∧ z.1.substitution.get? a = none ∧ a ≠ z.2) ∧
    ∀ s w, z.1.substitution.Extends s → (∀ a ∈ as, s.get? a = none) → s.Walks (.var z.2) w →
      s.Walks (.var q) (.listWithTail (as.map .var) w)

namespace Ending.OpenList

variable {q : Var} {k : ℕ} {z : Ending}

theorem start (name : String) (config : SearchConfig) :
    OpenList (.named name) 0 (.start config, .named name) where
  handedOut := over_empty
  below := Var.below_named
  free := get?_empty
  cells := ⟨[], rfl, by simp, fun _ _ _ _ hw => hw⟩

theorem longer (h : OpenList q k z) : OpenList q (k + 1) z.longer := by
  obtain ⟨⟨s, n, config⟩, x⟩ := z
  obtain ⟨hover, hbelow, hfree, as, hlength, has, hreads⟩ := h
  dsimp only at hover hbelow hfree has hreads
  have hle : n ≤ n + 2 := by omega
  have hnew : ∀ {m}, n ≤ m → s.get? (.fresh m) = none := fun hm =>
    hover.free fun hb => hb.ne_fresh hm rfl
  have hother : ∀ {y}, y ≠ x → s.get? y = none →
      (s.insert x (.cons (.var (.fresh (n + 1))) (.var (.fresh n)))).get? y = none := by
    intro y hne hy
    rw [get?_insert, if_neg hne.symm, hy]
  have hcell : (Term.cons (.var (.fresh (n + 1))) (.var (.fresh n))).Over (Var.Below (n + 2)) := by
    simp [Term.cons, Term.over_compound, Term.over_var, Var.below_fresh]
  refine ⟨(hover.mono fun _ hy => hy.mono hle).insert (hbelow.mono hle) hcell,
    Var.below_fresh.2 (show n < n + 2 by omega), hother (hbelow.ne_fresh le_rfl).symm (hnew le_rfl),
    as ++ [.fresh (n + 1)], by simp [hlength], ?_, ?_⟩
  · intro a ha
    rcases List.mem_append.1 ha with ha | ha
    · obtain ⟨hb, hget, hne⟩ := has a ha
      exact ⟨hb.mono hle, hother hne hget, hb.ne_fresh le_rfl⟩
    · obtain rfl := List.mem_singleton.1 ha
      exact ⟨Var.below_fresh.2 (show n + 1 < n + 2 by omega),
        hother (hbelow.ne_fresh n.le_succ).symm (hnew n.le_succ), by simp [Ending.longer]⟩
  · intro s' w hext hunbound hw
    have hx : s'.Walks (.var x) (.cons (.var (.fresh (n + 1))) w) :=
      .bound (hext x _ get?_insert_self)
        (walks_cons_iff.2 ⟨_, _, rfl, .free (hunbound _ (by simp)), hw⟩)
    have hq := hreads s' _ ((extends_insert hfree).trans hext)
      (fun a ha => hunbound a (List.mem_append_left _ ha)) hx
    simpa [Term.listWithTail] using hq

/-- The unification of a cell with the end of the list. -/
theorem unified_cell (h : OpenList q k z) {a d : Term} {m : ℕ}
    (hcell : (Term.cons a d).Over fun y => z.1.substitution.get? y = none ∧ y ≠ z.2) :
    (⟨z.1.substitution, m, z.1.config⟩ : State).unified (.cons a d) (.var z.2) =
      some ⟨z.1.substitution.insert z.2 (.cons a d), m, z.1.config⟩ := by
  have hw : z.1.substitution.Walks (.cons a d) (.cons a d) := walks_self fun y hy => (hcell y hy).1
  have hne : ∀ y, Term.cons a d ≠ .var y := by rintro y ⟨⟩
  exact State.unified_eq (.free_right hne ⟨0, resolve_free h.free⟩ hw
    (fun hocc => (hcell _ hocc).2 rfl) (.done _))

/-- A variable that was not handed out yet is unbound, and not the end of the list. -/
theorem unbound_fresh (h : OpenList q k z) {m : ℕ} (hm : z.1.nextId ≤ m) :
    z.1.substitution.get? (.fresh m) = none ∧ Var.fresh m ≠ z.2 :=
  ⟨h.handedOut.free fun hb => hb.ne_fresh hm rfl, (h.below.ne_fresh hm).symm⟩

/-- The item stands behind `k` unbound variables, and an unbound tail behind it. -/
theorem eventually_reifyTerm_found (h : OpenList q k z) {x : Term} (hx : x.Ground) :
    ∀ᶠ n in atTop, (z.found x).substitution.reifyTerm n (.var q) =
      some (.listWithTail (List.replicate k .unassigned ++ [x]) .unassigned) := by
  obtain ⟨hget, hne⟩ := h.unbound_fresh le_rfl
  obtain ⟨as, hlength, has, hreads⟩ := h.cells
  have hother : ∀ {y}, y ≠ z.2 → z.1.substitution.get? y = none →
      (z.found x).substitution.get? y = none := by
    intro y hy hfree
    rw [Ending.found, get?_insert, if_neg hy.symm, hfree]
  have hend : (z.found x).substitution.Walks (.var z.2) (.cons x (.var (.fresh z.1.nextId))) :=
    .bound get?_insert_self (walks_cons_iff.2 ⟨_, _, rfl,
      walks_self fun y hy => absurd hy (hx y), .free (hother hne hget)⟩)
  have hq := hreads (z.found x).substitution _ (extends_insert h.free)
    (fun a ha => hother (has a ha).2.2 (has a ha).2.1) hend
  filter_upwards [hq.eventually_reifyTerm] with n hn
  have hmarks : (as.map Term.var).map (Term.subst fun _ => .unassigned) =
      List.replicate k .unassigned := by
    rw [List.map_map, ← hlength, ← List.map_const']
    exact List.map_congr_left fun a _ => Term.subst_var a
  have hcell : (Term.cons x (.var (.fresh z.1.nextId))).subst (fun _ => .unassigned) =
      .cons x .unassigned := by
    simp [Term.cons, hx.subst_eq]
  rw [hn, Term.subst_listWithTail, hmarks, hcell]
  simp [Term.listWithTail]

/-- **One item after the other is found**, and always one more. -/
theorem iterates (h : OpenList q k z) {x : Term} (hx : x.Ground) (l : Locals) (m : ℕ) :
    (itemSearch x (.var z.2) l z.1).Iterates (searchRules Program.lists)
      ((List.range m).map fun i => some ((Ending.longer^[i] z).found x)) := by
  induction m generalizing z k l with
  | zero => exact .nil _
  | succ m ih =>
    have hcell : (Term.cons x (.var (.fresh z.1.nextId))).Over
        fun y => z.1.substitution.get? y = none ∧ y ≠ z.2 := by
      refine Term.over_compound.2 fun t ht => ?_
      obtain rfl | rfl : t = x ∨ t = .var (.fresh z.1.nextId) := by simpa using ht
      · exact fun y hy => absurd hy (hx y)
      · exact Term.over_var.2 (h.unbound_fresh le_rfl)
    have hlonger : (Term.cons (.var (.fresh (z.1.nextId + 1))) (.var (.fresh z.1.nextId))).Over
        fun y => z.1.substitution.get? y = none ∧ y ≠ z.2 := by
      simp [Term.cons, Term.over_compound, Term.over_var, h.unbound_fresh]
    obtain ⟨hnow, hbehind, loc, r, hafter, hrest⟩ :=
      itemSearch_after l (h.unified_cell hcell) (h.unified_cell hlonger)
    have hitems : (List.range (m + 1)).map (fun i => some ((Ending.longer^[i] z).found x)) =
        some (z.found x) ::
          (List.range m).map fun i => some ((Ending.longer^[i] z.longer).found x) := by
      rw [List.range_succ_eq_map, List.map_cons, List.map_map]
      rfl
    have hsusp : ∀ i < 2, ((itemSearch x (.var z.2) l z.1).after (searchRules Program.lists)
        i).isSuspended := by
      intro i hi
      obtain rfl | rfl : i = 0 ∨ i = 1 := by omega
      · exact hnow
      · exact hbehind
    rw [hitems]
    refine Stream.iterates_of_after hsusp ?_
    rw [hafter]
    refine .item (.force ?_)
    rw [Suspension.force, Logged.value_bind, hrest]
    exact ih h.longer loc

theorem iterate_longer (h : OpenList q 0 z) (k : ℕ) : OpenList q k (Ending.longer^[k] z) := by
  induction k with
  | zero => exact h
  | succ k ih =>
    rw [Function.iterate_succ_apply']
    exact ih.longer

end Ending.OpenList

/-- **A call of `membero` goes through the items of a list from left to right, once each.**  It
finds a state for each item that unification with `x` succeeds for, and then ends; what was there
before the call walks in that state to what it walks to behind the unification.  If the list is an
unbound variable instead, the search finds longer and longer lists and never ends. -/
theorem membero_enumerates :
    (∀ (loc : Locals) (st : State) (x l tail : Term) (es : List Term),
      st.config.occursCheck = true → st.substitution.Acyclic →
      st.substitution.Over (Var.Below st.nextId) → x.Over (Var.Below st.nextId) →
      l.Over (Var.Below st.nextId) → tail.isNil →
      (∀ᶠ n in atTop, st.substitution.walk n l = some (.listWithTail es tail)) →
      ∃ results layers, (∀ᶠ n in atTop, (es.filterMap fun e => (st.unify n x e).value) = results ∧
          Completes ⟨Program.lists, n⟩ (.call "membero" [.term x, .term l]) loc st layers) ∧
        List.Forall₂ (ReadsSame st.nextId) results layers.flatten) ∧
    ∀ (config : SearchConfig) (v : Term) (name : String), v.Ground →
      ∃ found : ℕ → State,
        (∀ m, ∀ᶠ n in atTop, ((Goal.call "membero" [.term v, .term (.var (.named name))]).apply
          ⟨Program.lists, n⟩ .none (.start config)).value.Iterates (rules ⟨Program.lists, n⟩)
            ((List.range m).map fun k => some (found k))) ∧
        ∀ k, ∀ᶠ n in atTop, (found k).substitution.reifyTerm n (.var (.named name)) =
          some (.listWithTail (List.replicate k .unassigned ++ [v]) .unassigned) := by
  constructor
  · intro loc st x l tail es hcheck hst hover hx hl htail hwalk
    exact exists_completes_membero loc hcheck hst hover hx hl htail hwalk
  · intro config v name hv
    have hstart := Ending.OpenList.start name config
    refine ⟨fun k => (Ending.longer^[k] (.start config, .named name)).found v, fun m => ?_,
      fun k => (hstart.iterate_longer k).eventually_reifyTerm_found hv⟩
    have hiterates : ((Goal.call "membero" [.term v, .term (.var (.named name))]).search
        Program.lists .none (.start config)).Iterates (searchRules Program.lists)
          ((List.range m).map fun k => some
            ((Ending.longer^[k] (.start config, .named name)).found v)) :=
      .force (hstart.iterates hv .none m)
    filter_upwards [eventually_value_apply Program.lists
        (.call "membero" [.term v, .term (.var (.named name))]) .none (.start config),
      (settles_rules Program.lists).eventually_iterates hiterates] with n hn hiterates
    rw [hn]
    exact hiterates

/-- Of three items the second one contains the variable that it would be the value of. -/
theorem membero_enumerates_circular :
    let x := Term.var (.named "x")
    let items := [.nil, .cons x .nil, .var (.named "y")]
    let l := Term.listWithTail items .nil
    let st := State.start ⟨true, none⟩
    st.config.occursCheck = true ∧ st.substitution.Acyclic ∧
      st.substitution.Over (Var.Below st.nextId) ∧ x.Over (Var.Below st.nextId) ∧
      l.Over (Var.Below st.nextId) ∧ Term.nil.isNil ∧
      (∀ᶠ n in atTop, st.substitution.walk n l = some l) ∧ Term.nil.Ground ∧
      (∃ layers, (∀ᶠ n in atTop, Completes ⟨Program.lists, n⟩
          (.call "membero" [.term x, .term l]) .none st layers) ∧ layers.flatten.length = 2) ∧
      ∃ found : State, ∀ᶠ n in atTop, found.substitution.reifyTerm n x =
        some (.listWithTail [.unassigned, .unassigned, .nil] .unassigned) := by
  intro x items l st
  have hnamed : ∀ {t : Term}, (∀ m, ¬ t.Occurs (.fresh m)) → t.Over (Var.Below st.nextId) := by
    rintro t ht (name | m) hy
    · exact Var.below_named
    · exact absurd hy (ht m)
  have hx : x.Over (Var.Below st.nextId) := hnamed (by simp [x])
  have hl : l.Over (Var.Below st.nextId) :=
    hnamed (by simp [l, items, x, Term.listWithTail, Term.cons, Term.nil])
  have hwalk : ∀ᶠ n in atTop, st.substitution.walk n l = some l :=
    eventually_walk (n := 24) (by cbv)
  have hground : Term.nil.Ground := fun y => Term.not_occurs_constant
  obtain ⟨hlist, hopen⟩ := membero_enumerates
  obtain ⟨results, layers, hrun, hsame⟩ :=
    hlist .none st x l .nil items rfl acyclic_empty over_empty hx hl rfl hwalk
  obtain ⟨found, -, hreified⟩ := hopen {} .nil "x" hground
  refine ⟨rfl, acyclic_empty, over_empty, hx, hl, rfl, hwalk, hground,
    ⟨layers, hrun.mono fun n hn => hn.2, ?_⟩, found 2, hreified 2⟩
  obtain ⟨n, ⟨hresults, -⟩, hn⟩ := (hrun.and (eventually_ge_atTop 12)).exists
  have hvalue : ∀ e r, st.substitution.unify true 12 x e = r → r ≠ .error .unfinished →
      (st.unify n x e).value = r.toOption.map st.withSubstitution := by
    rintro e _ rfl hr
    have hcheck : st.config.occursCheck = true := rfl
    rw [State.value_unify, hcheck, unify_mono hr hn]
    cases st.substitution.unify true 12 x e <;> rfl
  have hfirst := hvalue .nil (.ok (empty.insert (.named "x") .nil)) (by cbv) (by simp)
  have hsecond := hvalue (.cons x .nil) (.error (.circular (.named "x") (.cons x .nil)))
    (by cbv) (by simp)
  have hthird := hvalue (.var (.named "y")) (.ok (empty.insert (.named "x") (.var (.named "y"))))
    (by cbv) (by simp)
  rw [← hsame.length_eq, ← hresults]
  simp [items, hfirst, hsecond, hthird, Except.toOption]

end Goal

end Relational
