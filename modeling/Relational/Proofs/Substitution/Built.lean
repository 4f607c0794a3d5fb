import Relational.Proofs.Substitution.Order

/-!
# How substitutions are made

A substitution is made from the one without bindings by binding variables that are not bound yet
(`Substitution.Built`); these are the ones that a list of bindings gives (`built_iff_ofList`), and
whatever is made of one of them by unification or reification is one as well (`Grows.built`).  In a
substitution that is built the bindings and the order in which they were made say the same: every
bound variable stands in the order exactly once (`Built.nodup_keys`, `Built.mem_keys`).
-/

namespace Relational

namespace Substitution

/-- Made by binding variables that are not bound yet, one after the other. -/
inductive Built : Substitution → Prop
  | empty : Built empty
  | insert {s : Substitution} {x : Var} (t : Term) : Built s → s.get? x = none →
      Built (s.insert x t)

variable {loops : Prop} {s r : Substitution} {t : Term} {x : Var} {pairs : List (Var × Term)}

theorem Built.mem_keys (h : s.Built) : x ∈ s.keys ↔ (s.get? x).isSome := by
  induction h with
  | empty => simp
  | @insert s y t _ _ ih =>
    rw [keys_insert, List.mem_append, List.mem_singleton, ih, get?_insert]
    by_cases hyx : y = x
    · simp [hyx]
    · simp [hyx, Ne.symm hyx]

theorem Built.not_mem_keys (h : s.Built) : x ∉ s.keys ↔ s.get? x = none := by
  rw [h.mem_keys, Option.not_isSome_iff_eq_none]

theorem Built.nodup_keys (h : s.Built) : s.keys.Nodup := by
  induction h with
  | empty => simp
  | @insert s x t hs hx ih =>
    rw [keys_insert]
    exact ih.append (List.nodup_singleton x) (by simpa using hs.not_mem_keys.2 hx)

theorem Built.size_eq (h : s.Built) : s.size = s.keys.length := by
  induction h with
  | empty => rfl
  | insert t _ hx ih =>
    rw [size_insert (contains_eq_false hx), ih, keys_insert, List.length_append,
      List.length_singleton]

/-- A new binding stands behind the old ones. -/
theorem Built.entries_insert (h : s.Built) (hx : s.get? x = none) :
    (s.insert x t).entries = s.entries ++ [(x, t)] := by
  have hold : ∀ y ∈ s.keys, ((s.insert x t).get? y).map (fun u => (y, u)) =
      (s.get? y).map fun u => (y, u) := by
    intro y hy
    have hxy : x ≠ y := by
      rintro rfl
      exact h.not_mem_keys.2 hx hy
    rw [get?_insert, if_neg hxy]
  rw [entries, keys_insert, List.filterMap_append, List.filterMap_congr hold, entries]
  simp

/-- What binds variables one after the other makes a substitution of a substitution. -/
theorem Grows.built (h : Grows loops s r) (hs : s.Built) : r.Built := by
  induction h with
  | refl => exact hs
  | insert _ hx _ _ _ ih => exact ih.insert _ hx

/-- A chain of extensions puts its bindings behind the old ones. -/
theorem Built.of_foldlM_extend (hs : s.Built)
    (h : pairs.foldlM (fun s p => s.extend p.1 p.2) s = .ok r) :
    r.Built ∧ r.entries = s.entries ++ pairs := by
  induction pairs generalizing s with
  | nil =>
    cases h
    exact ⟨hs, (List.append_nil _).symm⟩
  | cons p pairs ih =>
    rw [List.foldlM_cons, extend] at h
    split_ifs at h with hc
    · cases h
    · have hx : s.get? p.1 = none := get?_of_not_contains hc
      obtain ⟨hr, hentries⟩ := ih (hs.insert p.2 hx) h
      exact ⟨hr, by rw [hentries, hs.entries_insert hx, List.append_assoc, List.singleton_append]⟩

theorem built_iff_ofList : s.Built ↔ ∃ pairs, ofList pairs = .ok s := by
  constructor
  · intro h
    induction h with
    | empty => exact ⟨[], rfl⟩
    | @insert s x t _ hx ih =>
      obtain ⟨pairs, hp⟩ := ih
      refine ⟨pairs ++ [(x, t)], ?_⟩
      unfold ofList at hp ⊢
      rw [List.foldlM_append, hp]
      simp [extend_eq_insert (contains_eq_false hx), Bind.bind, Except.bind, Pure.pure, Except.pure]
  · rintro ⟨pairs, hp⟩
    exact (Built.of_foldlM_extend .empty hp).1

end Substitution

end Relational
