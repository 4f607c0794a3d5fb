import Relational.Proofs.Substitution.Agreement

/-!
# Unification of what terms stand for

Without cycles it makes no difference to unification whether a term or what it stands for is given
to it, nor which term that stands for the same.  Two lists of pairs that walk to the same terms have
one outcome, with the same bindings (`Acyclic.unifies_iff_of_walked_eq`): a resolved side is a
variable in the one list if it is one in the other, the two of them the same, and what is bound is
a walk.  The runs need not have the same steps, because a pair of one variable is skipped where
what it stands for would be compared.
-/

namespace Relational

namespace Substitution

variable {check : Bool} {s s' r : Substitution} {t u v u' v' w : Term} {x : Var}
  {pending pending' pairs : List (Term × Term)}

/-- What the sides of the pairs stand for. -/
noncomputable def walked (s : Substitution) (pending : List (Term × Term)) : List (Term × Term) :=
  pending.map (Prod.map (Term.subst s.value) (Term.subst s.value))

theorem walked_append : s.walked (pairs ++ pending) = s.walked pairs ++ s.walked pending :=
  List.map_append

/-- Pairs that walk to the same as a first pair and others are a first pair and others. -/
theorem exists_cons_of_walked_eq (h : s.walked ((u, v) :: pending) = s.walked pending') :
    ∃ u' v' others, pending' = (u', v') :: others ∧ u.subst s.value = u'.subst s.value ∧
      v.subst s.value = v'.subst s.value ∧ s.walked pending = s.walked others := by
  obtain ⟨⟨u', v'⟩, others, rfl, hpair, hrest⟩ := List.map_eq_cons_iff.1 h.symm
  obtain ⟨hu, hv⟩ := Prod.mk.inj hpair
  exact ⟨u', v', others, rfl, hu.symm, hv.symm, hrest.symm⟩

/-- Pairs that walk to the same still do so when there are more bindings. -/
theorem Extends.walked_eq (h : s.Extends s') (hs : s.Acyclic) (hs' : s'.Acyclic)
    (heq : s.walked pending = s.walked pending') : s'.walked pending = s'.walked pending' := by
  have hagain : ∀ pairs, s'.walked pairs = s'.walked (s.walked pairs) := by
    intro pairs
    simp only [walked, List.map_map, Prod.map_comp_map]
    refine List.map_congr_left fun p _ => ?_
    rw [Prod.map_apply, Prod.map_apply, Function.comp_apply, Function.comp_apply,
      h.subst_value hs hs', h.subst_value hs hs']
  rw [hagain, heq, ← hagain]

/-- Resolved terms that walk to the same are the same, or compounds with children of which that is
true. -/
theorem Resolved.eq_or_compound (hu : s.Resolved u) (hv : s.Resolved v)
    (h : u.subst s.value = v.subst s.value) : u = v ∨ ∃ shape ts us, u = .compound shape ts ∧
      v = .compound shape us ∧ ts.map (Term.subst s.value) = us.map (Term.subst s.value) := by
  cases u with
  | var x =>
    rw [Term.subst_var, value_of_free (hu x rfl)] at h
    cases v with
    | var y =>
      rw [Term.subst_var, value_of_free (hv y rfl)] at h
      exact .inl h
    | _ => simp at h
  | constant c =>
    cases v with
    | var y => simp [value_of_free (hv y rfl)] at h
    | constant d => exact .inl (by simpa using h)
    | _ => simp at h
  | compound shape ts =>
    cases v with
    | var y => simp [value_of_free (hv y rfl)] at h
    | compound shape' us =>
      simp only [Term.subst_compound, Term.compound.injEq] at h
      obtain ⟨rfl, h⟩ := h
      exact .inr ⟨shape, ts, us, rfl, rfl, h⟩
    | _ => simp at h
  | unassigned =>
    cases v with
    | var y => simp [value_of_free (hv y rfl)] at h
    | unassigned => exact .inl rfl
    | _ => simp at h

/-- A binding is asked for whenever the sides walk to the same. -/
theorem exists_demand_binding (hu : s.Resolved u) (hv : s.Resolved v) (hu' : s.Resolved u')
    (hv' : s.Resolved v') (hwu : u.subst s.value = u'.subst s.value)
    (hwv : v.subst s.value = v'.subst s.value) (hd : demand u v = .binding x t) :
    ∃ t', demand u' v' = .binding x t' ∧ t.subst s.value = t'.subst s.value := by
  obtain ⟨⟨rfl, rfl⟩ | ⟨rfl, rfl⟩, -⟩ := eq_of_demand_binding hd
  · obtain rfl : Term.var x = u' := by
      obtain h | ⟨_, _, _, h, -⟩ := hu.eq_or_compound hu' hwu
      · exact h
      · cases h
    obtain rfl | ⟨shape, ts, us, rfl, rfl, -⟩ := hv.eq_or_compound hv' hwv
    · exact ⟨_, hd, rfl⟩
    · exact ⟨_, rfl, hwv⟩
  · obtain rfl : Term.var x = v' := by
      obtain h | ⟨_, _, _, h, -⟩ := hv.eq_or_compound hv' hwv
      · exact h
      · cases h
    obtain rfl | ⟨shape, ts, us, rfl, rfl, -⟩ := hu.eq_or_compound hu' hwu
    · exact ⟨_, hd, rfl⟩
    · exact ⟨_, rfl, hwu⟩

/-- So is that the children are made equal. -/
theorem exists_demand_children (hu : s.Resolved u) (hv : s.Resolved v) (hu' : s.Resolved u')
    (hv' : s.Resolved v') (hwu : u.subst s.value = u'.subst s.value)
    (hwv : v.subst s.value = v'.subst s.value) (hd : demand u v = .children pairs) :
    ∃ pairs', demand u' v' = .children pairs' ∧ s.walked pairs = s.walked pairs' := by
  obtain ⟨shape, ts, us, rfl, rfl, hl, rfl⟩ := eq_of_demand_children hd
  have hcompound : ∀ {shape ts t}, s.Resolved (.compound shape ts) → s.Resolved t →
      (Term.compound shape ts).subst s.value = t.subst s.value →
      ∃ us, t = .compound shape us ∧ ts.map (Term.subst s.value) = us.map (Term.subst s.value) := by
    intro shape ts t h h' hw
    obtain rfl | ⟨_, _, us, hts, rfl, hmap⟩ := h.eq_or_compound h' hw
    · exact ⟨ts, rfl, rfl⟩
    · cases hts
      exact ⟨us, rfl, hmap⟩
  obtain ⟨ts', rfl, hts⟩ := hcompound hu hu' hwu
  obtain ⟨us', rfl, hus⟩ := hcompound hv hv' hwv
  have hlts : ts.length = ts'.length := by simpa using congrArg List.length hts
  have hlus : us.length = us'.length := by simpa using congrArg List.length hus
  refine ⟨ts'.zip us', ?_, ?_⟩
  · rw [demand, if_pos]
    simp [Term.sameKind, ← hlts, ← hlus, hl]
  · rw [walked, walked, ← List.zip_map, ← List.zip_map, hts, hus]

/-- A pair that stands for equal terms adds nothing to the outcome. -/
theorem Acyclic.unifies_cons (hs : s.Acyclic) {out : Except Refusal Substitution}
    (halike : Term.Alike (u.subst s.value) (v.subst s.value)) (h : Unifies check s pending out) :
    Unifies check s ((u, v) :: pending) out :=
  (hs.unifies_self (solves_singleton.2 ⟨hs.satisfies_value, beq_iff_alike.2 halike⟩)).append h

/-- What makes some pairs equal makes those equal that walk to the same. -/
theorem Unifies.ok_of_walked_eq (h : Unifies true s pending (.ok r)) (hs : s.Acyclic)
    (heq : s.walked pending = s.walked pending') : Unifies true s pending' (.ok r) := by
  generalize hout : Except.ok r = out at h ⊢
  induction h generalizing pending' with
  | done s =>
    obtain rfl : pending' = [] := List.map_eq_nil_iff.1 heq.symm
    exact .done s
  | circular => cases hout
  | clash => cases hout
  | same hx _ ih =>
    obtain ⟨u', v', pending', rfl, hu, hv, hrest⟩ := exists_cons_of_walked_eq heq
    refine hs.unifies_cons ?_ (ih hs hrest hout)
    rw [← hu, ← hv]
  | @nothing s u v u₁ v₁ pending out hres hd _ ih =>
    obtain ⟨u', v', pending', rfl, hu, hv, hrest⟩ := exists_cons_of_walked_eq heq
    obtain ⟨hu₁, hv₁⟩ := hres.subst_value hs
    refine hs.unifies_cons ?_ (ih hs hrest hout)
    rw [← hu, ← hv, ← hu₁, ← hv₁]
    exact (alike_of_demand_nothing hd).subst fun _ => Term.alike_refl _
  | @binding s u v u₁ v₁ t w x pending out hres hd hw hc _ ih =>
    obtain ⟨u', v', pending', rfl, hu, hv, hrest⟩ := exists_cons_of_walked_eq heq
    obtain ⟨hu₁, hv₁⟩ := hres.subst_value hs
    have hs' : (s.insert x w).Acyclic := hw.acyclic_insert hs (hres.free hd) (hc rfl)
    obtain ⟨y, _, -, rfl, rfl⟩ | ⟨u₂, v₂, hres'⟩ := hs.same_or_resolves u' v'
    · -- the sides of a pair that asks for a binding do not stand for the same
      refine absurd ?_ (hres.not_alike_of_binding hs hd)
      rw [hu₁, hv₁, hu, hv]
    obtain ⟨hu₂, hv₂⟩ := hres'.subst_value hs
    obtain ⟨t', hd', ht'⟩ := exists_demand_binding hres.resolved.1 hres.resolved.2
      hres'.resolved.1 hres'.resolved.2 (by rw [hu₁, hu₂, hu]) (by rw [hv₁, hv₂, hv]) hd
    have hw' : s.Walks t' w := by
      rw [hw.unique (hs.walks t), ht']
      exact hs.walks t'
    have hext : s.Extends (s.insert x w) := extends_insert (hres.free hd)
    exact .binding hres' hd' hw' hc (ih hs' (hext.walked_eq hs hs' hrest) hout)
  | @children s u v u₁ v₁ pairs pending out hres hd _ ih =>
    obtain ⟨u', v', pending', rfl, hu, hv, hrest⟩ := exists_cons_of_walked_eq heq
    obtain ⟨hu₁, hv₁⟩ := hres.subst_value hs
    have happend : ∀ qs, s.walked pairs = s.walked qs →
        s.walked (pairs ++ pending) = s.walked (qs ++ pending') := by
      intro qs hqs
      rw [walked_append, walked_append, hqs, hrest]
    obtain ⟨y, _, hy, rfl, rfl⟩ | ⟨u₂, v₂, hres'⟩ := hs.same_or_resolves u' v'
    · -- the pair is skipped, and the children stand for equal terms, so that nothing is lost
      obtain ⟨out', h'⟩ := hs.exists_unifies pending'
      have halike : Term.Alike (u₁.subst s.value) (v₁.subst s.value) := by
        rw [hu₁, hv₁, hu, hv]
      have hself : Unifies true s pairs (.ok s) :=
        hs.unifies_self ⟨hs.satisfies_value, (alike_iff_of_children hd).1 halike⟩
      have hall := ih hs (happend pairs rfl) hout
      rw [hall.unique (hself.append h')]
      exact .same hy h'
    · obtain ⟨hu₂, hv₂⟩ := hres'.subst_value hs
      obtain ⟨pairs', hd', hpairs⟩ := exists_demand_children hres.resolved.1 hres.resolved.2
        hres'.resolved.1 hres'.resolved.2 (by rw [hu₁, hu₂, hu]) (by rw [hv₁, hv₂, hv]) hd
      exact .children hres' hd' (ih hs (happend pairs' hpairs) hout)

/-- **The outcome depends on what the sides of the pairs stand for**, and on nothing else. -/
theorem Acyclic.unifies_iff_of_walked_eq (hs : s.Acyclic)
    (heq : s.walked pending = s.walked pending') :
    Unifies true s pending (.ok r) ↔ Unifies true s pending' (.ok r) :=
  ⟨fun h => h.ok_of_walked_eq hs heq, fun h => h.ok_of_walked_eq hs heq.symm⟩

end Substitution

end Relational
