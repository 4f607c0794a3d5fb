import Relational.Proofs.Substitution.Unifier

/-!
# The variables of a substitution

`Over Q` says of a term or of a substitution that all its variables satisfy `Q`.  Unification makes
no new variables: bindings that are over `Q` and terms that are over `Q` give bindings that are over
`Q` (`Unifies.over`).  With `Var.Below n`, for the variables that were handed out while the counter
stood below `n`, this is why a variable that is handed out next occurs nowhere.
-/

namespace Relational

/-- The variable was not handed out when the counter stood at `n` or beyond. -/
def Var.Below (n : ℕ) (x : Var) : Prop := ∀ m, x = .fresh m → m < n

theorem Var.Below.mono {n m : ℕ} {x : Var} (h : x.Below n) (hnm : n ≤ m) : x.Below m :=
  fun k hk => lt_of_lt_of_le (h k hk) hnm

theorem Var.below_fresh {n m : ℕ} : (Var.fresh n).Below m ↔ n < m := by
  simp [Below]

theorem Var.below_named {name : String} {n : ℕ} : (Var.named name).Below n := by
  simp [Below]

theorem Var.not_below_self {n : ℕ} : ¬ (Var.fresh n).Below n := by
  rw [below_fresh]
  exact Nat.lt_irrefl n

/-- A variable that was not handed out yet is another one. -/
theorem Var.Below.ne_fresh {n m : ℕ} {x : Var} (h : x.Below n) (hm : n ≤ m) : x ≠ .fresh m := by
  rintro rfl
  exact not_below_self (h.mono hm)

/-- All variables of the term satisfy `Q`. -/
def Term.Over (Q : Var → Prop) (t : Term) : Prop := ∀ x, t.Occurs x → Q x

theorem Term.Over.mono {Q R : Var → Prop} {t : Term} (h : t.Over Q) (hQ : ∀ x, Q x → R x) :
    t.Over R :=
  fun x hx => hQ x (h x hx)

theorem Term.over_var {Q : Var → Prop} {x : Var} : (var x).Over Q ↔ Q x :=
  ⟨fun h => h x .var, fun hx _ hy => occurs_var.1 hy ▸ hx⟩

theorem Term.over_unassigned {Q : Var → Prop} : unassigned.Over Q :=
  fun _ hx => (not_occurs_unassigned hx).elim

theorem Term.over_compound {Q : Var → Prop} {shape : Shape} {ts : List Term} :
    (compound shape ts).Over Q ↔ ∀ t ∈ ts, t.Over Q := by
  constructor
  · intro h t ht x hx
    exact h x (.child ht hx)
  · intro h x hx
    obtain ⟨t, ht, hx⟩ := occurs_compound.1 hx
    exact h t ht x hx

/-- A term has the same value under valuations that agree on its variables. -/
theorem Term.Over.subst_congr {Q : Var → Prop} {θ θ' : Var → Term} {t : Term} (h : t.Over Q)
    (hθ : ∀ x, Q x → θ x = θ' x) : t.subst θ = t.subst θ' :=
  Term.subst_congr fun x hx => hθ x (h x hx)

namespace Substitution

/-- All variables of the bindings satisfy `Q`. -/
def Over (Q : Var → Prop) (s : Substitution) : Prop := ∀ x t, s.get? x = some t → Q x ∧ t.Over Q

variable {check : Bool} {Q R : Var → Prop} {s s' : Substitution} {n : ℕ} {t u v u' v' w : Term}
  {x : Var} {pending : List (Term × Term)} {θ θ' : Var → Term}

theorem Over.mono (h : s.Over Q) (hQ : ∀ x, Q x → R x) : s.Over R := by
  intro x t hx
  obtain ⟨hxQ, ht⟩ := h x t hx
  exact ⟨hQ x hxQ, ht.mono hQ⟩

theorem over_empty : empty.Over Q := by
  intro x t hx
  simp at hx

/-- A variable that no binding mentions is unbound. -/
theorem Over.free (h : s.Over Q) (hx : ¬ Q x) : s.get? x = none :=
  Option.eq_none_iff_forall_ne_some.2 fun t ht => hx (h x t ht).1

theorem Over.insert (h : s.Over Q) (hx : Q x) (hw : w.Over Q) : (s.insert x w).Over Q := by
  intro y t hy
  rw [get?_insert] at hy
  split_ifs at hy with hxy
  · cases hy
    exact ⟨hxy ▸ hx, hw⟩
  · exact h y t hy

theorem Over.of_resolve (h : s.Over Q) (hu : s.resolve n t = some u) (ht : t.Over Q) :
    u.Over Q := by
  revert ht
  refine resolve_ind (motive := fun t u => t.Over Q → u.Over Q) (fun _ _ ht => ht) ?_ hu
  intro x t u hx ih _
  exact ih (h x t hx).2

theorem Walks.over (hw : s.Walks t w) (h : s.Over Q) (ht : t.Over Q) : w.Over Q := by
  induction hw with
  | bound hx _ ih => exact ih (h _ _ hx).2
  | free => exact ht
  | constant => exact ht
  | @compound shape ts ws hl _ ih =>
    rw [Term.over_compound] at ht ⊢
    intro w hw
    obtain ⟨i, hi, rfl⟩ := List.mem_iff_getElem.1 hw
    have hi' : i < ts.length := by omega
    have hmem : (ts[i], ws[i]) ∈ ts.zip ws := List.mem_iff_getElem.2 ⟨i, by simp [hi, hi'], by simp⟩
    exact ih _ _ hmem (ht _ (List.getElem_mem hi'))
  | unassigned => exact ht

theorem Resolves.over (h : s.Resolves u v u' v') (hs : s.Over Q) (hu : u.Over Q) (hv : v.Over Q) :
    u'.Over Q ∧ v'.Over Q := by
  obtain ⟨_, hu'⟩ := h.left
  obtain ⟨_, hv'⟩ := h.right
  exact ⟨hs.of_resolve hu' hu, hs.of_resolve hv' hv⟩

/-- What two terms ask for has no other variables than they have. -/
theorem over_of_demand_binding (h : demand u v = .binding x t) (hu : u.Over Q) (hv : v.Over Q) :
    Q x ∧ t.Over Q := by
  obtain ⟨⟨rfl, rfl⟩ | ⟨rfl, rfl⟩, -⟩ := eq_of_demand_binding h
  · exact ⟨hu x .var, hv⟩
  · exact ⟨hv x .var, hu⟩

theorem over_of_demand_children {pairs : List (Term × Term)} (h : demand u v = .children pairs)
    (hu : u.Over Q) (hv : v.Over Q) : ∀ p ∈ pairs, p.1.Over Q ∧ p.2.Over Q := by
  obtain ⟨shape, ts, us, rfl, rfl, -, rfl⟩ := eq_of_demand_children h
  rw [Term.over_compound] at hu hv
  intro p hp
  obtain ⟨ht, hu'⟩ := List.of_mem_zip hp
  exact ⟨hu _ ht, hv _ hu'⟩

/-- All variables of the bindings and of the waiting pairs satisfy `Q`. -/
def WaitingOver (Q : Var → Prop) (a : Waiting) : Prop :=
  a.1.Over Q ∧ ∀ p ∈ a.2, p.1.Over Q ∧ p.2.Over Q

/-- A turn of the loop brings no new variables. -/
theorem Turn.over {a b : Waiting} (h : Turn check a b) (ha : WaitingOver Q a) :
    WaitingOver Q b := by
  obtain ⟨hs, hp⟩ := ha
  cases h with
  | same _ => exact ⟨hs, (List.forall_mem_cons.1 hp).2⟩
  | nothing _ _ => exact ⟨hs, (List.forall_mem_cons.1 hp).2⟩
  | binding hres hd hw _ =>
    obtain ⟨⟨hu, hv⟩, hp⟩ := List.forall_mem_cons.1 hp
    obtain ⟨hu', hv'⟩ := hres.over hs hu hv
    obtain ⟨hx, ht⟩ := over_of_demand_binding hd hu' hv'
    exact ⟨hs.insert hx (hw.over hs ht), hp⟩
  | children hres hd =>
    obtain ⟨⟨hu, hv⟩, hp⟩ := List.forall_mem_cons.1 hp
    obtain ⟨hu', hv'⟩ := hres.over hs hu hv
    exact ⟨hs, List.forall_mem_append.2 ⟨over_of_demand_children hd hu' hv', hp⟩⟩

/-- Unification brings no new variables. -/
theorem Unifies.over (h : Unifies check s pending (.ok s')) (hs : s.Over Q)
    (hp : ∀ p ∈ pending, p.1.Over Q ∧ p.2.Over Q) : s'.Over Q := by
  have hturns : ∀ b, Relation.ReflTransGen (Turn check) (s, pending) b → WaitingOver Q b := by
    intro b hb
    induction hb with
    | refl => exact ⟨hs, hp⟩
    | tail _ hab ih => exact hab.over ih
  exact (hturns _ h.turns).1

/-- Whether a valuation satisfies the bindings depends on their variables only. -/
theorem Satisfies.congr (h : Satisfies θ s) (hs : s.Over Q) (hθ : ∀ x, Q x → θ x = θ' x) :
    Satisfies θ' s := by
  intro x t hx
  obtain ⟨hxQ, ht⟩ := hs x t hx
  rw [← hθ x hxQ, ← ht.subst_congr hθ]
  exact h x t hx

end Substitution

end Relational
