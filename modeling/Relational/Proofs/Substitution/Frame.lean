import Relational.Proofs.Substitution.Fresh

/-!
# What bindings of other variables leave alone

Two substitutions that agree on the variables that satisfy `Q` (`SameOn`) may differ in bindings of
others, which a search has handed out in between.  As long as the bindings of the first one stay
among the variables of `Q`, so does whatever is read from a term over `Q`: it resolves and walks to
the same (`SameOn.resolve`, `SameOn.walks`), and pairs of such terms unify in the same steps
(`Unifies.frame`).  The outcome has the new bindings of the variables in `Q`, and all others are as
they were.
-/

namespace Relational

namespace Substitution

open Relation

/-- The variables that satisfy `Q` are bound to the same terms, or unbound in both. -/
def SameOn (Q : Var → Prop) (s s' : Substitution) : Prop := ∀ x, Q x → s'.get? x = s.get? x

/-- Outcomes of two runs that start from bindings that agree on `Q`, the second one from `s'`. -/
def Framed (Q : Var → Prop) (s' : Substitution) :
    Except Refusal Substitution → Except Refusal Substitution → Prop
  | .ok r, .ok r' => SameOn Q r r' ∧ SameOn (¬ Q ·) s' r'
  | .error refusal, .error refusal' => refusal = refusal'
  | _, _ => False

variable {check : Bool} {Q : Var → Prop} {s s' r r' : Substitution} {n : ℕ} {t u v w : Term}
  {u' v' : Term} {x : Var} {pending : List (Term × Term)} {out out' : Except Refusal Substitution}

namespace SameOn

@[refl] theorem refl (s : Substitution) : SameOn Q s s := fun _ _ => rfl

theorem symm (h : SameOn Q s s') : SameOn Q s' s := fun x hx => (h x hx).symm

/-- One more binding on both sides. -/
theorem insert (h : SameOn Q s s') (x : Var) (w : Term) :
    SameOn Q (s.insert x w) (s'.insert x w) := by
  intro y hy
  rw [get?_insert, get?_insert, h y hy]

/-- A binding of another variable. -/
theorem insert_right (h : SameOn Q s s') (hx : ¬ Q x) : SameOn Q s (s'.insert x w) := by
  intro y hy
  have hne : x ≠ y := fun hxy => hx (hxy ▸ hy)
  rw [get?_insert, if_neg hne, h y hy]

theorem resolve (h : SameOn Q s s') (hs : s.Over Q) (ht : t.Over Q)
    (hu : s.resolve n t = some u) : s'.resolve n t = some u := by
  induction n generalizing t with
  | zero =>
    cases t with
    | var x =>
      rw [Substitution.resolve] at hu ⊢
      rwa [h x (ht x .var)]
    | _ => simpa using hu
  | succ n ih =>
    cases t with
    | var x =>
      cases hx : s.get? x with
      | none =>
        rw [resolve_free hx] at hu
        rwa [resolve_free ((h x (ht x .var)).trans hx)]
      | some t =>
        rw [resolve_bound hx] at hu
        rw [resolve_bound ((h x (ht x .var)).trans hx)]
        exact ih (hs x t hx).2 hu
    | _ => simpa using hu

/-- A walk that stays among the variables of `Q` is the same on the other side. -/
theorem walks_of_closed (h : SameOn Q s s')
    (hclosed : ∀ x u, Q x → s.get? x = some u → u.Over Q) (ht : t.Over Q) (hw : s.Walks t w) :
    s'.Walks t w := by
  induction hw with
  | bound hx _ ih =>
    have hQ := Term.over_var.1 ht
    exact .bound ((h _ hQ).trans hx) (ih (hclosed _ _ hQ hx))
  | free hx => exact .free ((h _ (ht _ .var)).trans hx)
  | constant c => exact .constant c
  | compound hl _ ih =>
    exact .compound hl fun t w hm => ih t w hm (Term.over_compound.1 ht t (List.of_mem_zip hm).1)
  | unassigned => exact .unassigned

theorem walks (h : SameOn Q s s') (hs : s.Over Q) (ht : t.Over Q) (hw : s.Walks t w) :
    s'.Walks t w :=
  h.walks_of_closed (fun x u _ hx => (hs x u hx).2) ht hw

/-- What a term over `Q` walks to on one side is what it walks to on the other. -/
theorem walks_iff (h : SameOn Q s s') (hs : s.Over Q) (ht : t.Over Q) :
    s.Walks t w ↔ s'.Walks t w :=
  ⟨h.walks hs ht, h.symm.walks_of_closed (fun x u hQ hx => (hs x u (h x hQ ▸ hx)).2) ht⟩

/-- Where no variable of `Q` is bound, a term over `Q` stands for itself. -/
theorem walks_self (h : SameOn Q empty s) (ht : t.Over Q) : s.Walks t t :=
  Substitution.walks_self fun y hy => (h y (ht y hy)).trans get?_empty

theorem resolves (h : SameOn Q s s') (hs : s.Over Q) (hu : u.Over Q) (hv : v.Over Q)
    (hres : s.Resolves u v u' v') : s'.Resolves u v u' v' := by
  obtain ⟨n, hn⟩ := hres.left
  obtain ⟨m, hm⟩ := hres.right
  exact ⟨⟨n, h.resolve hs hu hn⟩, ⟨m, h.resolve hs hv hm⟩, hres.differ⟩

/-- **Bindings of other variables make no cycle** with bindings that stay among the variables of
`Q`: a path that has come to such a variable does not leave them. -/
theorem acyclic (h : SameOn Q r r') (hr : r.Over Q) (hacyclic : r.Acyclic)
    (hother : SameOn (¬ Q ·) s' r') (hs' : s'.Acyclic) : r'.Acyclic := by
  have hinside : ∀ {a b}, Q a → r'.Mentions a b → r.Mentions a b ∧ Q b := by
    rintro a b ha ⟨t, ht, hb⟩
    rw [h a ha] at ht
    exact ⟨⟨t, ht, hb⟩, (hr a t ht).2 b hb⟩
  have hin : ∀ {a b}, Q a → TransGen r'.Mentions a b → TransGen r.Mentions a b ∧ Q b := by
    intro a b ha hab
    induction hab with
    | single hab => exact (hinside ha hab).imp .single id
    | tail _ hbc ih =>
      obtain ⟨hab, hb⟩ := ih
      obtain ⟨hbc, hc⟩ := hinside hb hbc
      exact ⟨hab.tail hbc, hc⟩
  have hout : ∀ {a b}, ¬ Q a → TransGen r'.Mentions a b → Q b ∨ TransGen s'.Mentions a b := by
    intro a b ha hab
    induction hab with
    | single hab =>
      obtain ⟨t, ht, hb⟩ := hab
      exact .inr (.single ⟨t, (hother a ha).symm.trans ht, hb⟩)
    | @tail b c _ hbc ih =>
      by_cases hb : Q b
      · exact .inl (hinside hb hbc).2
      · obtain ⟨t, ht, hc⟩ := hbc
        exact .inr ((ih.resolve_left hb).tail ⟨t, (hother b hb).symm.trans ht, hc⟩)
  intro a haa
  by_cases ha : Q a
  · exact hacyclic a (hin ha haa).1
  · exact hs' a ((hout ha haa).resolve_left ha)

end SameOn

/-- A new binding is one more binding on both sides. -/
theorem Framed.of_insert (hx : Q x) (h : Framed Q (s'.insert x w) out out') :
    Framed Q s' out out' := by
  cases out with
  | error refusal =>
    cases out' with
    | error refusal' => exact h
    | ok r' => exact h
  | ok r =>
    cases out' with
    | error refusal' => exact h
    | ok r' =>
      obtain ⟨hsame, hother⟩ := h
      refine ⟨hsame, fun y hy => ?_⟩
      have hne : x ≠ y := fun hxy => hy (hxy ▸ hx)
      rw [hother y hy, get?_insert, if_neg hne]

/-- **Pairs of terms over `Q` unify in the same steps**, whatever is bound outside of `Q`. -/
theorem Unifies.frame (h : Unifies check s pending out) (hsame : SameOn Q s s') (hs : s.Over Q)
    (hp : ∀ p ∈ pending, p.1.Over Q ∧ p.2.Over Q) :
    ∃ out', Unifies check s' pending out' ∧ Framed Q s' out out' := by
  induction h generalizing s' with
  | done s => exact ⟨.ok s', .done s', hsame, .refl s'⟩
  | same hx _ ih =>
    obtain ⟨⟨hx', -⟩, hp⟩ := List.forall_mem_cons.1 hp
    obtain ⟨n, hn⟩ := hx
    obtain ⟨out', h', hframed⟩ := ih hsame hs hp
    exact ⟨out', .same ⟨n, hsame.resolve hs hx' hn⟩ h', hframed⟩
  | nothing hres hd _ ih =>
    obtain ⟨⟨hu, hv⟩, hp⟩ := List.forall_mem_cons.1 hp
    obtain ⟨out', h', hframed⟩ := ih hsame hs hp
    exact ⟨out', .nothing (hsame.resolves hs hu hv hres) hd h', hframed⟩
  | binding hres hd hw hc _ ih =>
    obtain ⟨⟨hu, hv⟩, hp⟩ := List.forall_mem_cons.1 hp
    obtain ⟨hu', hv'⟩ := hres.over hs hu hv
    obtain ⟨hx, ht⟩ := over_of_demand_binding hd hu' hv'
    obtain ⟨out', h', hframed⟩ := ih (hsame.insert _ _) (hs.insert hx (hw.over hs ht)) hp
    exact ⟨out', .binding (hsame.resolves hs hu hv hres) hd (hsame.walks hs ht hw) hc h',
      hframed.of_insert hx⟩
  | circular hres hd hw hc hxw =>
    obtain ⟨⟨hu, hv⟩, hp⟩ := List.forall_mem_cons.1 hp
    obtain ⟨hu', hv'⟩ := hres.over hs hu hv
    have ht := (over_of_demand_binding hd hu' hv').2
    exact ⟨_, .circular (hsame.resolves hs hu hv hres) hd (hsame.walks hs ht hw) hc hxw, rfl⟩
  | children hres hd _ ih =>
    obtain ⟨⟨hu, hv⟩, hp⟩ := List.forall_mem_cons.1 hp
    obtain ⟨hu', hv'⟩ := hres.over hs hu hv
    have hall := List.forall_mem_append.2 ⟨over_of_demand_children hd hu' hv', hp⟩
    obtain ⟨out', h', hframed⟩ := ih hsame hs hall
    exact ⟨out', .children (hsame.resolves hs hu hv hres) hd h', hframed⟩
  | clash hres hd =>
    obtain ⟨⟨hu, hv⟩, -⟩ := List.forall_mem_cons.1 hp
    exact ⟨_, .clash (hsame.resolves hs hu hv hres) hd, rfl⟩

theorem Unifies.frame_ok (h : Unifies check s pending (.ok r)) (hsame : SameOn Q s s')
    (hs : s.Over Q) (hp : ∀ p ∈ pending, p.1.Over Q ∧ p.2.Over Q) :
    ∃ r', Unifies check s' pending (.ok r') ∧ SameOn Q r r' ∧ SameOn (¬ Q ·) s' r' := by
  obtain ⟨_ | r', h', hframed⟩ := h.frame hsame hs hp
  · exact hframed.elim
  · exact ⟨r', h', hframed⟩

theorem Unifies.frame_error {refusal : Refusal} (h : Unifies check s pending (.error refusal))
    (hsame : SameOn Q s s') (hs : s.Over Q) (hp : ∀ p ∈ pending, p.1.Over Q ∧ p.2.Over Q) :
    Unifies check s' pending (.error refusal) := by
  obtain ⟨refusal' | r', h', hframed⟩ := h.frame hsame hs hp
  · obtain rfl : refusal = refusal' := hframed
    exact h'
  · exact hframed.elim

end Substitution

end Relational
