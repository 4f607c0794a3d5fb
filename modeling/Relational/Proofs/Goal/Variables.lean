import Relational.Proofs.Goal.Meaning
import Relational.Proofs.Substitution.Fresh

/-!
# The variables of a goal

The variables of a goal whose parameters have values are those that stand in its patterns and those
of the values (`Goal.Closure.Mentions`).  `Over Q` says of such a goal that all these variables
satisfy `Q`, and of a program that the variables in the bodies of its relations do.  The parts of a
goal mention no other variables than the goal, but for a variable that is handed out to them.
-/

namespace Relational

/-- All variables in the bodies of the relations satisfy `Q`. -/
def Program.Over (Q : Var → Prop) (program : Program) : Prop :=
  ∀ name r, program name = some r → ∀ t, r.body.Contains (.term t) → t.Over Q

theorem Program.Over.mono {Q R : Var → Prop} {program : Program} (h : program.Over Q)
    (hQ : ∀ x, Q x → R x) : program.Over R :=
  fun name r hr t ht => (h name r hr t ht).mono hQ

/-- Bodies that know nothing but their parameters have no variables. -/
theorem Program.Closed.over {Q : Var → Prop} {program : Program} (h : program.Closed) :
    program.Over Q :=
  fun name r hr t ht x hx => ((h name r hr).terms t ht x hx).elim

namespace Goal

variable {Q R : Var → Prop} {g h : Goal} {l : Locals} {st : State} {p : Pattern} {x : Var}

theorem over_instantiate (hterms : ∀ t, (Pattern.term t).PartOf p → t.Over Q)
    (hparams : ∀ name, (l.value name).Over Q) : (p.instantiate l).Over Q := by
  induction p with
  | term t => exact hterms t .self
  | literal value occurrence => exact fun x hx => (Term.not_occurs_constant hx).elim
  | param name => exact hparams name
  | compound shape ps ih =>
    rw [Pattern.instantiate_compound, Term.over_compound, List.forall_mem_map]
    exact fun p hp => ih p hp fun t ht => hterms t (.child hp ht)

/-- The parameters of a relation have only variables of its arguments. -/
theorem over_openLocals {r : Relation} {arguments : List Term}
    (h : ∀ t ∈ arguments, t.Over Q) (name : String) :
    ((openLocals l r arguments st).value name).Over Q := by
  rw [Locals.value, openLocals]
  cases hfind : (r.params.zip arguments).reverse.lookup name with
  | none => exact Term.over_unassigned
  | some t =>
    obtain ⟨_, _, hl, -⟩ := List.lookup_eq_some_iff.1 hfind
    have hmem : (name, t) ∈ r.params.zip arguments := by
      rw [← List.mem_reverse, hl]
      simp
    exact h t (List.of_mem_zip hmem).2

namespace Closure

/-- The variable stands in the goal or in the value of one of its parameters. -/
def Mentions (c : Closure) (x : Var) : Prop :=
  (∃ t, c.goal.Contains (.term t) ∧ t.Occurs x) ∨ ∃ name, (c.locals.value name).Occurs x

/-- All variables that the goal mentions satisfy `Q`. -/
structure Over (Q : Var → Prop) (c : Closure) : Prop where
  terms : ∀ t, c.goal.Contains (.term t) → t.Over Q
  params : ∀ name, (c.locals.value name).Over Q

variable {c : Closure}

theorem Over.of_mentions (h : c.Over Q) (hx : c.Mentions x) : Q x := by
  obtain ⟨t, ht, hx⟩ | ⟨name, hx⟩ := hx
  · exact h.terms t ht x hx
  · exact h.params name x hx

theorem Over.mono (h : c.Over Q) (hQ : ∀ x, Q x → R x) : c.Over R :=
  ⟨fun t ht => (h.terms t ht).mono hQ, fun name => (h.params name).mono hQ⟩

/-- A part of a goal, with the same parameters. -/
theorem Over.part (hg : (Closure.mk l g).Over Q) (hgh : ∀ a, h.Contains a → g.Contains a) :
    (Closure.mk l h).Over Q :=
  ⟨fun t ht => hg.terms t (hgh _ ht), hg.params⟩

theorem Over.instantiate (hg : (Closure.mk l g).Over Q)
    (hp : ∀ a : Pattern, a.PartOf p → g.Contains a) : (p.instantiate l).Over Q :=
  over_instantiate (fun t ht => hg.terms t (hp _ ht)) hg.params

theorem Over.bind {name : String} {t : Term} (hg : (Closure.mk l g).Over Q) (ht : t.Over Q) :
    (Closure.mk (l.bind name t) g).Over Q := by
  refine ⟨hg.terms, fun name' => ?_⟩
  rw [Locals.value_bind]
  split_ifs
  · exact ht
  · exact hg.params name'

/-- The body of `fresh` mentions the variable that is handed out to it as well. -/
theorem Over.fresh {name : String} (hg : (Closure.mk l (.fresh name g)).Over Q) (hx : Q x) :
    (Closure.mk (l.bind name (.var x)) g).Over Q := by
  have hbody : (Closure.mk l g).Over Q := hg.part fun _ ha => ha
  exact hbody.bind fun y hy => Term.occurs_var.1 hy ▸ hx

theorem Over.given {name : String} (hg : (Closure.mk l (.given name p g)).Over Q) :
    (Closure.mk (l.bind name (p.instantiate l)) g).Over Q :=
  (hg.part fun _ => .inr).bind (hg.instantiate fun _ => .inl)

theorem Over.call {program : Program} {relation : String} {arguments : List Pattern} {r : Relation}
    (hg : (Closure.mk l (.call relation arguments)).Over Q) (hprogram : program.Over Q)
    (hr : program relation = some r) :
    (Closure.mk (openLocals l r (Pattern.instantiateAll l arguments) st) r.body).Over Q := by
  refine ⟨hprogram _ _ hr, over_openLocals fun t ht => ?_⟩
  rw [Pattern.instantiateAll_eq_map, List.mem_map] at ht
  obtain ⟨p, hp, rfl⟩ := ht
  exact hg.instantiate fun a ha => ⟨p, hp, ha⟩

end Closure

end Goal

end Relational
