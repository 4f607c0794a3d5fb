import Relational.Proofs.Search.ListCalls
import Relational.Proofs.Substitution.Cells

/-!
# The items of a list

A call of `membero` takes its list to pieces, cell by cell, and unifies the head of each cell with
the item.  The calls on the way bind nothing but variables that were handed out for them
(`State.Knows`), so what comes of a head was decided before the first call: unification has an
outcome for it, or is refused, under the bindings that were there then (`Decides`).  A state that is
found has the bindings of that outcome, and others beside them (`State.Shows`).
-/

namespace Relational

open Filter Substitution

/-- The state has the bindings of the variables below `n₀` that `s₀` has, and no others but of
variables that were handed out since. -/
structure State.Knows (n₀ : ℕ) (s₀ : Substitution) (st : State) : Prop where
  same : SameOn (Var.Below n₀) s₀ st.substitution
  handedOut : st.substitution.Over (Var.Below st.nextId)
  acyclic : st.substitution.Acyclic
  le : n₀ ≤ st.nextId

/-- A new variable is bound to something that was walked. -/
theorem State.Knows.insert {n₀ n m k : ℕ} {s₀ s : Substitution} {config : SearchConfig} {t w : Term}
    (h : State.Knows n₀ s₀ ⟨s, n, config⟩) (hm : n₀ ≤ m) (hmk : m < k) (hnk : n ≤ k)
    (hfree : s.get? (.fresh m) = none) (hw : s.Walks t w) (hover : w.Over (Var.Below k))
    (hocc : ¬ w.Occurs (.fresh m)) : State.Knows n₀ s₀ ⟨s.insert (.fresh m) w, k, config⟩ where
  same := h.same.insert_right fun hbelow => Var.not_below_self (hbelow.mono hm)
  handedOut := (h.handedOut.mono fun _ hx => hx.mono hnk).insert (Var.below_fresh.2 hmk) hover
  acyclic := hw.acyclic_insert h.acyclic hfree hocc
  le := h.le.trans hnk

/-- The state is found with the outcome `r`, of which all variables are below `n₀`. -/
structure State.Shows (n₀ : ℕ) (config : SearchConfig) (r : Substitution) (st : State) : Prop
    extends State.Knows n₀ r st where
  base : r.Over (Var.Below n₀)
  config_eq : st.config = config

/-- What the state shows walks there to what it walks to under the outcome. -/
theorem State.Shows.walks {n₀ : ℕ} {config : SearchConfig} {r : Substitution} {st : State}
    (h : State.Shows n₀ config r st) {t : Term} (ht : t.Over (Var.Below n₀)) :
    r.Walks t (t.subst r.value) ∧ st.substitution.Walks t (t.subst r.value) := by
  have hextends : r.Extends st.substitution := fun y u hy => (h.same y (h.base y u hy).1).trans hy
  have hw := (h.acyclic.of_extends hextends).walks t
  exact ⟨hw, h.same.walks h.base ht hw⟩

namespace Goal

variable {n₀ : ℕ} {s₀ : Substitution} {st : State} {c d e l tail w x : Term}
  {es : List Term} {o : Option Substitution} {outcome : Term → Option Substitution}

/-- The head of a cell gives a state exactly if it can be unified with the item. -/
theorem exists_unifies_head (hst : st.Knows n₀ s₀) (hs₀ : s₀.Over (Var.Below n₀))
    (hx : x.Over (Var.Below n₀)) (ho : Decides st.config.occursCheck (Var.Below n₀) s₀ x e o)
    (hl : ∃ n, st.substitution.resolve n l = some (.cons c d)) (hc : c.Over (Var.Below n₀))
    (hd : d.Over (Var.Below st.nextId)) (hce : st.substitution.Walks c e) :
    ∃ out, st.substitution.Unifies st.config.occursCheck
        [(.cons x (.var (.fresh st.nextId)), l)] out ∧
      List.Forall₂ (State.Shows n₀ st.config) o.toList (st.freshVar.value.2.outcomes out) := by
  obtain ⟨s, n, config⟩ := st
  have hce₀ : s₀.Walks c e := (hst.same.walks_iff hs₀ hc).2 hce
  have hpair : ∀ p ∈ [(x, c)], p.1.Over (Var.Below n₀) ∧ p.2.Over (Var.Below n₀) := by
    simpa using ⟨hx, hc⟩
  cases o with
  | none =>
    obtain ⟨refusal, h⟩ := ho c hc hce₀
    exact ⟨_, unifies_cells hl (h.frame_error hst.same hs₀ hpair).append_error, .nil⟩
  | some r =>
    obtain ⟨hr, h⟩ := ho
    obtain ⟨r', h', hsame, hother⟩ := (h c hc hce₀).frame_ok hst.same hs₀ hpair
    have hover : r'.Over (Var.Below n) := h'.over hst.handedOut fun p hp =>
      (hpair p hp).imp (.mono · fun _ hy => hy.mono hst.le) (.mono · fun _ hy => hy.mono hst.le)
    have hbase : r.Over (Var.Below n₀) := (h c hc hce₀).over hs₀ hpair
    have hacyclic : r'.Acyclic := hsame.acyclic hbase hr hother hst.acyclic
    have hknows : State.Knows n₀ r ⟨r', n, config⟩ := ⟨hsame, hover, hacyclic, hst.le⟩
    -- the tail is bound to a variable that nothing mentions
    have hw := hacyclic.walks d
    have hwover := hw.over hover hd
    have hnew : ¬ (d.subst r'.value).Occurs (.fresh n) := fun h => Var.not_below_self (hwover _ h)
    have hfree : r'.get? (.fresh n) = none := hover.free Var.not_below_self
    exact ⟨_, unifies_cells hl (h'.append (.free hfree hw hnew (.done _))),
      .cons ⟨hknows.insert hst.le n.lt_succ_self n.le_succ hfree hw
        (hwover.mono fun _ hy => hy.mono n.le_succ) hnew, hbase, rfl⟩ .nil⟩

/-- The tail of a cell is taken out of it, and put under a variable that was just handed out. -/
theorem exists_unifies_tail (hst : st.Knows n₀ s₀)
    (hl : ∃ n, st.substitution.resolve n l = some (.cons c d))
    (hc : c.Over (Var.Below st.nextId)) (hd : d.Over (Var.Below st.nextId))
    (hce : st.substitution.Walks c e) (hdw : st.substitution.Walks d w) :
    ∃ s', st.substitution.Unifies st.config.occursCheck
        [(.cons (.var (.fresh (st.nextId + 1))) (.var (.fresh st.nextId)), l)] (.ok s') ∧
      State.Knows n₀ s₀ ⟨s', st.nextId + 2, st.config⟩ ∧ s'.get? (.fresh st.nextId) = some w ∧
      s'.Walks w w := by
  obtain ⟨s, n, config⟩ := st
  have hnew : ∀ {k}, n ≤ k → ¬ (Var.fresh k).Below n := fun hk hbelow =>
    Var.not_below_self (hbelow.mono hk)
  have hfree : ∀ {k}, n ≤ k → s.get? (.fresh k) = none := fun hk => hst.handedOut.free (hnew hk)
  have he := hce.over hst.handedOut hc
  have hw := hdw.over hst.handedOut hd
  have hnext : (s.insert (.fresh (n + 1)) e).get? (.fresh n) = none := by
    rw [get?_insert, if_neg (by simp), hfree le_rfl]
  have hdw' : (s.insert (.fresh (n + 1)) e).Walks d w :=
    hdw.insert hst.handedOut hd (hnew n.le_succ) e
  have hww : ((s.insert (.fresh (n + 1)) e).insert (.fresh n) w).Walks w w := by
    refine walks_self fun y hy => ?_
    have hyn : y.Below n := hw y hy
    have hne : ∀ {k}, n ≤ k → Var.fresh k ≠ y := fun hk h => hnew hk (h ▸ hyn)
    rw [get?_insert, if_neg (hne le_rfl), get?_insert, if_neg (hne n.le_succ),
      hdw.free_of_occurs hy]
  have hmono : ∀ {t : Term}, t.Over (Var.Below n) → t.Over (Var.Below (n + 2)) :=
    fun ht => ht.mono fun _ hy => hy.mono (by omega)
  have hfirst : State.Knows n₀ s₀ ⟨s.insert (.fresh (n + 1)) e, n + 2, config⟩ :=
    hst.insert (hst.le.trans n.le_succ) (by omega) (by omega) (hfree n.le_succ) hce (hmono he)
      fun h => hnew n.le_succ (he _ h)
  exact ⟨_, unifies_take (hfree n.le_succ) (hfree le_rfl) (by simp) hl hce hdw'
      (fun h => hnew n.le_succ (he _ h)) fun h => hnew le_rfl (hw _ h),
    hfirst.insert hst.le (by omega) le_rfl hnext hdw' (hmono hw) fun h => hnew le_rfl (hw _ h),
    get?_insert_self, hww⟩

/-- **A call of `membero` goes through a list from left to right.** -/
theorem exists_callExhausts_membero (hs₀ : s₀.Over (Var.Below n₀)) (hx : x.Over (Var.Below n₀))
    (htail : tail.isNil) (hst : st.Knows n₀ s₀)
    (hes : ∀ e ∈ es, e.Over (Var.Below n₀) ∧
      Decides st.config.occursCheck (Var.Below n₀) s₀ x e (outcome e))
    (hl : l.Over (Var.Below st.nextId))
    (hwalk : st.substitution.Walks l (.listWithTail es tail))
    (hhead : ∀ n c d, st.substitution.resolve n l = some (.cons c d) → c.Over (Var.Below n₀)) :
    ∃ ls, CallExhausts "membero" [x, l] st ([] :: ls) ∧
      List.Forall₂ (State.Shows n₀ st.config) (es.filterMap outcome) ls.flatten := by
  induction es generalizing st l with
  | nil =>
    obtain ⟨k, rfl, -⟩ := Term.exists_constant_of_isNil htail
    have hres := hwalk.exists_resolve_constant
    exact ⟨_, callExhausts_membero_end (unifies_cell_constant hres) (unifies_cell_constant hres),
      .nil⟩
  | cons e es ih =>
    obtain ⟨⟨he, ho⟩, hes⟩ := List.forall_mem_cons.1 hes
    obtain ⟨c, d, ⟨n, hres⟩, hce, hdw⟩ := hwalk.exists_resolve_cons
    have hc := hhead n c d hres
    obtain ⟨hc', hd⟩ := hst.handedOut.of_resolve_cons hl ⟨n, hres⟩
    obtain ⟨out, hout, hfound⟩ := exists_unifies_head hst hs₀ hx ho ⟨n, hres⟩ hc hd hce
    obtain ⟨s', hs', hknows, hget, hww⟩ := exists_unifies_tail hst ⟨n, hres⟩ hc' hd hce hdw
    -- what the tail walks to is walked, so its head is the next item as it stands
    have hnext : ∀ m c d, s'.resolve m (.var (.fresh st.nextId)) = some (.cons c d) →
        c.Over (Var.Below n₀) := by
      intro m c' d' hm
      cases m with
      | zero => simp [resolve, hget] at hm
      | succ m =>
        rw [resolve_bound hget] at hm
        cases es with
        | nil =>
          obtain ⟨k, rfl, -⟩ := Term.exists_constant_of_isNil htail
          simp [Term.cons] at hm
        | cons e' es =>
          obtain ⟨rfl, -⟩ : e' = c' ∧ _ := by simpa [Term.listWithTail, Term.cons] using hm
          exact (hes e' List.mem_cons_self).1
    obtain ⟨ls, hls, hrest⟩ := ih hknows hes (Term.over_var.2 (Var.below_fresh.2 (by simp)))
      (.bound hget hww) hnext
    refine ⟨_, callExhausts_membero_cons hout hs' hls, ?_⟩
    have hitems : (e :: es).filterMap outcome = (outcome e).toList ++ es.filterMap outcome := by
      rw [List.filterMap_cons]
      cases outcome e <;> rfl
    rw [hitems]
    exact List.rel_append hfound hrest

end Goal

end Relational
