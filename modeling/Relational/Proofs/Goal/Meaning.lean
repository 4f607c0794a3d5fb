import Relational.Goal.Lists
import Relational.Proofs.Term.Instance

/-!
# What goals mean

A valuation gives every variable a term without variables.  `Goal.Holds program θ g l` says what a
goal means under the valuation `θ`, where the parameters of the goal have the values `l`: an
equation holds if its sides are equal, both goals hold or one of them, some value is right for a
fresh variable, and a relation is the least one that its body defines.  Nothing is said of states,
of streams, or of the order in which anything is looked for.

* `Locals.under θ l` : the values of the parameters under a valuation.  A goal with parameters that
  stand for terms with variables means what it means with their values (`instantiate_under`).
* `Goal.Contains a g` : the pattern `a` is a part of a pattern in `g`.  The meaning of a goal that
  is `Closed` depends on nothing but its parameters.
-/

namespace Relational

/-- Every variable stands for a term without variables. -/
def Valuation (θ : Var → Term) : Prop := ∀ x, (θ x).Ground

theorem Valuation.subst_ground {θ : Var → Term} (hθ : Valuation θ) (t : Term) :
    (t.subst θ).Ground :=
  Term.ground_subst hθ

theorem Valuation.subst_subst {θ : Var → Term} (hθ : Valuation θ) (θ' : Var → Term) (t : Term) :
    (t.subst θ).subst θ' = t.subst θ :=
  (hθ.subst_ground t).subst_eq

/-! ### Patterns -/

namespace Pattern

/-- Induction over the tree of a pattern. -/
@[elab_as_elim, induction_eliminator]
theorem ind {motive : Pattern → Prop} (term : ∀ t, motive (.term t))
    (literal : ∀ value occurrence, motive (.literal value occurrence))
    (param : ∀ name, motive (.param name))
    (compound : ∀ shape ps, (∀ p ∈ ps, motive p) → motive (.compound shape ps)) (p : Pattern) :
    motive p :=
  Pattern.rec (motive_1 := motive) (motive_2 := fun ps => ∀ p ∈ ps, motive p) term literal param
    compound (fun _ h => absurd h List.not_mem_nil)
    (fun _ _ hp hps _ h => (List.mem_cons.1 h).elim (fun e => e ▸ hp) (hps _)) p

/-- The pattern `a` is a part of a pattern, or all of it. -/
inductive PartOf (a : Pattern) : Pattern → Prop
  | self : PartOf a a
  | child {shape : Shape} {ps : List Pattern} {p : Pattern} :
      p ∈ ps → PartOf a p → PartOf a (.compound shape ps)

variable {a p : Pattern} {θ θ' : Var → Term} {l l' : Locals}

@[simp] theorem partOf_term {t : Term} : a.PartOf (term t) ↔ a = term t :=
  ⟨fun h => by cases h; rfl, fun h => h ▸ .self⟩

@[simp] theorem partOf_literal {value : Value} {occurrence : Identity} :
    a.PartOf (literal value occurrence) ↔ a = literal value occurrence :=
  ⟨fun h => by cases h; rfl, fun h => h ▸ .self⟩

@[simp] theorem partOf_param {name : String} : a.PartOf (param name) ↔ a = param name :=
  ⟨fun h => by cases h; rfl, fun h => h ▸ .self⟩

@[simp] theorem partOf_compound {shape : Shape} {ps : List Pattern} :
    a.PartOf (compound shape ps) ↔ a = compound shape ps ∨ ∃ p ∈ ps, a.PartOf p := by
  constructor
  · intro h
    cases h with
    | self => exact .inl rfl
    | child hp ha => exact .inr ⟨_, hp, ha⟩
  · rintro (rfl | ⟨p, hp, ha⟩)
    · exact .self
    · exact .child hp ha

theorem instantiateAll_eq_map (ps : List Pattern) :
    instantiateAll l ps = ps.map (instantiate l) := by
  induction ps with
  | nil => rw [instantiateAll, List.map_nil]
  | cons p ps ih => rw [instantiateAll, List.map_cons, ih]

@[simp] theorem instantiate_compound (shape : Shape) (ps : List Pattern) :
    (compound shape ps).instantiate l = .compound shape (ps.map (instantiate l)) := by
  rw [instantiate, instantiateAll_eq_map]

/-- A pattern stands for equal terms where its parameters, its variables and its literals do. -/
theorem subst_instantiate_congr
    (hvalues : ∀ name, (l.value name).subst θ = (l'.value name).subst θ')
    (hterms : ∀ t, (term t).PartOf p → t.subst θ = t.subst θ')
    (hliterals : (∃ value occurrence, (literal value occurrence).PartOf p) →
      l.depth = l'.depth ∧ l.bindings = l'.bindings) :
    (p.instantiate l).subst θ = (p.instantiate l').subst θ' := by
  induction p with
  | term t => exact hterms t .self
  | literal value occurrence =>
    obtain ⟨hd, hb⟩ := hliterals ⟨_, _, .self⟩
    simp [instantiate, hd, hb]
  | param name => exact hvalues name
  | compound shape ps ih =>
    rw [instantiate_compound, instantiate_compound, Term.subst_compound, Term.subst_compound,
      List.map_map, List.map_map]
    refine congrArg _ (List.map_congr_left fun p hp => ih p hp ?_ ?_)
    · exact fun t ht => hterms t (.child hp ht)
    · rintro ⟨value, occurrence, h⟩
      exact hliterals ⟨value, occurrence, .child hp h⟩

end Pattern

/-! ### Parameters under a valuation -/

namespace Locals

/-- The values of the parameters under a valuation. -/
def under (θ : Var → Term) (l : Locals) : Locals :=
  { l with values := l.values.map (Prod.map id (Term.subst θ)) }

variable {θ : Var → Term} {l : Locals} {name : String} {t : Term}

theorem value_under : (l.under θ).value name = (l.value name).subst θ := by
  obtain ⟨values, depth, bindings⟩ := l
  simp only [value, under]
  induction values with
  | nil => simp
  | cons p values ih =>
    obtain ⟨name', t⟩ := p
    rw [List.map_cons, Prod.map_apply, id_eq, List.lookup_cons, List.lookup_cons]
    cases name == name' with
    | true => rfl
    | false => exact ih

theorem under_bind : (l.bind name t).under θ = (l.under θ).bind name (t.subst θ) := rfl

theorem value_bind (name' : String) :
    (l.bind name t).value name' = if name' = name then t else l.value name' := by
  unfold value bind
  rw [List.lookup_cons]
  by_cases h : name' = name
  · simp [h]
  · rw [beq_eq_false_iff_ne.2 h, if_neg h]

end Locals

/-- A pattern stands for the same whether its parameters are valuated before or after. -/
theorem Valuation.instantiate_under {θ : Var → Term} (hθ : Valuation θ) (l : Locals) (p : Pattern) :
    (p.instantiate (l.under θ)).subst θ = (p.instantiate l).subst θ := by
  refine Pattern.subst_instantiate_congr (fun name => ?_) (fun _ _ => rfl) fun _ => ⟨rfl, rfl⟩
  rw [Locals.value_under, hθ.subst_subst]

/-! ### Meaning -/

namespace Goal

/-- What a goal means. -/
inductive Holds (program : Program) (θ : Var → Term) : Goal → Locals → Prop
  | eq {u v : Pattern} {l : Locals} :
      ((u.instantiate l).subst θ == (v.instantiate l).subst θ) = true →
      Holds program θ (.eq u v) l
  | succeed (l : Locals) : Holds program θ .succeed l
  | left {g h : Goal} {l : Locals} : Holds program θ g l → Holds program θ (.either g h) l
  | right {g h : Goal} {l : Locals} : Holds program θ h l → Holds program θ (.either g h) l
  | both {g h : Goal} {l : Locals} :
      Holds program θ g l → Holds program θ h l → Holds program θ (.both g h) l
  | fresh {name : String} {g : Goal} {l : Locals} (t : Term) : t.Ground →
      Holds program θ g (l.bind name t) → Holds program θ (.fresh name g) l
  | given {name : String} {t : Pattern} {g : Goal} {l : Locals} :
      Holds program θ g (l.bind name ((t.instantiate l).subst θ)) →
      Holds program θ (.given name t g) l
  | deferred {make : Unit → Goal} {l : Locals} :
      Holds program θ (make ()) l → Holds program θ (.deferred make) l
  | delayed {g : Goal} {l : Locals} : Holds program θ g l → Holds program θ (.delayed g) l
  | alwayso (l : Locals) : Holds program θ .alwayso l
  /-- The number of bindings tells nothing but the literals in the body apart. -/
  | call {relation : String} {arguments : List Pattern} {r : Relation} {l : Locals}
      (bindings : ℕ) : program relation = some r →
      Holds program θ r.body ⟨(r.params.zip
        ((Pattern.instantiateAll l arguments).map (Term.subst θ))).reverse, l.depth + 1, bindings⟩ →
      Holds program θ (.call relation arguments) l

variable {program : Program} {θ : Var → Term} {g h : Goal} {l : Locals}

theorem holds_both : Holds program θ (.both g h) l ↔ Holds program θ g l ∧ Holds program θ h l := by
  constructor
  · intro hb
    cases hb with
    | both hg hh => exact ⟨hg, hh⟩
  · rintro ⟨hg, hh⟩
    exact .both hg hh

theorem holds_either :
    Holds program θ (.either g h) l ↔ Holds program θ g l ∨ Holds program θ h l := by
  constructor
  · intro he
    cases he with
    | left hg => exact .inl hg
    | right hh => exact .inr hh
  · rintro (hg | hh)
    · exact .left hg
    · exact .right hh

/-- All goals of a list hold if each of them does. -/
theorem holds_all (gs : List Goal) :
    Holds program θ (all gs) l ↔ ∀ g ∈ gs, Holds program θ g l := by
  fun_induction all gs with
  | case1 => simp [Holds.succeed]
  | case2 g => simp
  | case3 g gs _ ih => rw [holds_both, ih, List.forall_mem_cons]

/-- One goal of a list holds if one of them does. -/
theorem holds_any (gs : List Goal) :
    Holds program θ (any gs) l ↔ ∃ g ∈ gs, Holds program θ g l := by
  fun_induction any gs with
  | case1 =>
    constructor
    · intro hf
      cases hf
    · rintro ⟨g, hg, -⟩
      exact absurd hg List.not_mem_nil
  | case2 g => simp
  | case3 g gs _ ih => rw [holds_either, ih, List.exists_mem_cons_iff]

/-! ### What a goal is made of -/

/-- The pattern `a` is a part of a pattern in a goal. -/
def Contains (a : Pattern) : Goal → Prop
  | .eq u v => a.PartOf u ∨ a.PartOf v
  | .either g h | .both g h => g.Contains a ∨ h.Contains a
  | .fresh _ g | .delayed g => g.Contains a
  | .given _ t g => a.PartOf t ∨ g.Contains a
  | .deferred make => (make ()).Contains a
  | .call _ arguments => ∃ p ∈ arguments, a.PartOf p
  | .succeed | .fail | .nevero | .alwayso => False

/-- No variables and no literals stand in the goal. -/
structure Closed (g : Goal) : Prop where
  terms : ∀ t, g.Contains (.term t) → t.Ground
  literals : ∀ value occurrence, ¬ g.Contains (.literal value occurrence)

end Goal

/-- The bodies of the relations know nothing but their parameters. -/
def Program.Closed (program : Program) : Prop :=
  ∀ name r, program name = some r → r.body.Closed

namespace Lists

variable {r : Relation}

theorem cases_of_mem (h : r ∈ relations) : r = conso ∨ r = caro ∨ r = cdro ∨ r = nullo ∨
    r = pairo ∨ r = membero ∨ r = appendo := by
  simpa [relations] using h

/-- The only term in the bodies is the empty list. -/
theorem eq_nil_of_contains {t : Term} (h : r ∈ relations) :
    r.body.Contains (.term t) → t = .nil := by
  obtain rfl | rfl | rfl | rfl | rfl | rfl | rfl := cases_of_mem h <;>
    simp [conso, caro, cdro, nullo, pairo, membero, appendo, Goal.conde, Goal.any, Goal.all,
      Goal.freshAll, Goal.Contains, Pattern.cons, Pattern.nil]

theorem not_contains_literal (h : r ∈ relations) (value : Value) (occurrence : Identity) :
    ¬ r.body.Contains (.literal value occurrence) := by
  obtain rfl | rfl | rfl | rfl | rfl | rfl | rfl := cases_of_mem h <;>
    simp [conso, caro, cdro, nullo, pairo, membero, appendo, Goal.conde, Goal.any, Goal.all,
      Goal.freshAll, Goal.Contains, Pattern.cons, Pattern.nil]

end Lists

/-- **The relations about lists are closed.** -/
theorem Program.closed_lists : Program.lists.Closed := by
  intro name r hr
  have hfind : Lists.relations.find? (·.name == name) = some r := hr
  have hmem : r ∈ Lists.relations := List.mem_of_find?_eq_some hfind
  refine ⟨fun t ht => ?_, Lists.not_contains_literal hmem⟩
  rw [Lists.eq_nil_of_contains hmem ht]
  exact fun x => Term.not_occurs_constant

end Relational
