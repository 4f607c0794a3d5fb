import Mathlib.Order.Filter.Finite
import Relational.Proofs.Substitution.Built

/-!
# The bindings and the order in which they were made

A substitution keeps its variables twice over, in the tree of its bindings and in the order in which
they were bound, and no operation compares the two.  They are in step (`InStep`) all the same: each
operation that makes a substitution does nothing but bind unbound variables, one after the other, to
the substitution that it starts from (`Update.exists_extend`), so what is obtained from the
substitution without bindings is built (`Obtained.built`), and its new variables stand behind the
old ones (`Update.appends`).

Bindings that are collected are refused exactly if a variable repeats, and their order does not
matter to equality (`collects`).  The main result is `order_in_step_with_bindings`.
-/

namespace Relational

namespace Substitution

open Filter

/-- An operation that makes a substitution. -/
inductive Update where
  | extend (x : Var) (t : Term)
  | extendChecked (x : Var) (t : Term)
  | collect (pairs : List (Var × Term))
  | call (c : Call)

/-- What comes of an operation. -/
def Update.answer (effort : ℕ) (s : Substitution) : Update → Except Refusal Substitution
  | .extend x t => s.extend x t
  | .extendChecked x t => s.extendChecked effort x t
  | .collect pairs => ofList pairs
  | .call c => c.answer effort s

/-- The substitution that an operation starts from. -/
def Update.start (s : Substitution) : Update → Substitution
  | .collect _ => empty
  | _ => s

/-- Made from the substitution without bindings by operations that return a substitution. -/
inductive Obtained : Substitution → Prop
  | empty : Obtained empty
  | update {s r : Substitution} {u : Update} {n : ℕ} :
      Obtained s → u.answer n s = .ok r → Obtained r

/-- The order holds the bound variables, each of them once, and so does whatever is listed by it. -/
structure InStep (s : Substitution) : Prop where
  nodup : s.keys.Nodup
  mem_keys : ∀ x, x ∈ s.keys ↔ s.contains x = true
  size_eq : s.size = s.keys.length
  /-- The bindings are listed and written as they stand, in the order in which they were made. -/
  listed : ∃ ts, List.Forall₂ (fun x t => s.get? x = some t) s.keys ts ∧
    s.entries = s.keys.zip ts ∧
    s.text = "\x7b" ++ ", ".intercalate
      (List.zipWith (fun x t => x.text ++ ": " ++ t.text) s.keys ts) ++ "\x7d"
  /-- They are listed with what the variables stand for, in the same order. -/
  walked : s.Acyclic → ∃ ws, ∀ᶠ n in atTop,
    List.Forall₂ (fun x w => s.walk n (.var x) = some w) s.keys ws ∧
      s.walkedEntries n = some (s.keys.zip ws)

/-- The bindings of `r` are those of `s` and others, which were made after them. -/
structure Appends (s r : Substitution) : Prop where
  entries : s.entries <+: r.entries
  keys : s.keys <+: r.keys
  extends_old : s.Extends r

/-- What becomes of a list of bindings. -/
structure Collects (pairs : List (Var × Term)) : Prop where
  /-- It is refused exactly if a variable repeats. -/
  refused_iff : (∃ x, ofList pairs = .error (.alreadyBound x)) ↔ ¬ (pairs.map Prod.fst).Nodup
  /-- Else the order of the bindings does not matter. -/
  perm : (pairs.map Prod.fst).Nodup → ∀ pairs', pairs.Perm pairs' →
    ∃ s r, ofList pairs = .ok s ∧ ofList pairs' = .ok r ∧ (s == r) = true

variable {s r : Substitution} {n : ℕ} {u : Update} {x : Var} {t : Term}
  {pairs pairs' : List (Var × Term)} {refusal : Refusal}

/-! ### Operations bind unbound variables -/

theorem foldlM_extend_singleton :
    [(x, t)].foldlM (fun (s : Substitution) p => s.extend p.1 p.2) s = s.extend x t := by
  rw [List.foldlM_cons]
  cases s.extend x t <;> rfl

/-- The check may refuse a binding, and changes nothing else. -/
theorem extend_of_extendChecked (h : s.extendChecked n x t = .ok r) : s.extend x t = .ok r := by
  unfold extendChecked at h
  split at h
  · cases h
  · cases h
  · exact h

/-- Every operation is a chain of extensions of the substitution that it starts from. -/
theorem Update.exists_extend (h : u.answer n s = .ok r) :
    ∃ pairs : List (Var × Term),
      pairs.foldlM (fun s p => s.extend p.1 p.2) (u.start s) = .ok r := by
  cases u with
  | extend x t => exact ⟨[(x, t)], foldlM_extend_singleton.trans h⟩
  | extendChecked x t =>
    exact ⟨[(x, t)], foldlM_extend_singleton.trans (extend_of_extendChecked h)⟩
  | collect pairs => exact ⟨pairs, h⟩
  | call c => exact (Call.grows h).exists_extend

theorem Built.start (hs : s.Built) (u : Update) : (u.start s).Built := by
  cases u with
  | collect pairs => exact .empty
  | _ => exact hs

theorem Obtained.built (h : Obtained s) : s.Built := by
  induction h with
  | empty => exact .empty
  | @update s r u n _ hr ih =>
    obtain ⟨pairs, hpairs⟩ := Update.exists_extend hr
    exact (Built.of_foldlM_extend (ih.start u) hpairs).1

/-- A chain of extensions keeps the bindings that there are. -/
theorem extends_of_foldlM_extend (h : pairs.foldlM (fun s p => s.extend p.1 p.2) s = .ok r) :
    s.Extends r := by
  induction pairs generalizing s with
  | nil =>
    cases h
    exact .refl _
  | cons p pairs ih =>
    rw [List.foldlM_cons, extend] at h
    split_ifs at h with hc
    · cases h
    · exact (extends_insert (get?_of_not_contains hc)).trans (ih h)

theorem Update.appends (hs : s.Built) (h : u.answer n s = .ok r) : Appends (u.start s) r := by
  obtain ⟨pairs, hpairs⟩ := u.exists_extend h
  obtain ⟨-, hentries⟩ := Built.of_foldlM_extend (hs.start u) hpairs
  exact ⟨hentries ▸ List.prefix_append _ _, keys_of_foldlM_extend hpairs ▸ List.prefix_append _ _,
    extends_of_foldlM_extend hpairs⟩

/-! ### In step -/

/-- Each variable is listed, with its value. -/
theorem Built.entries_eq (hs : s.Built) :
    s.entries = s.keys.zip (s.keys.map fun x => (s.get? x).getD .unassigned) := by
  rw [← List.map_prod_left_eq_zip, entries, ← List.filterMap_eq_map]
  refine List.filterMap_congr fun x hx => ?_
  obtain ⟨t, ht⟩ := Option.isSome_iff_exists.1 (hs.mem_keys.1 hx)
  simp [ht]

theorem Built.mem_entries (hs : s.Built) : (x, t) ∈ s.entries ↔ s.get? x = some t := by
  simp only [entries, List.mem_filterMap, Option.map_eq_some_iff, Prod.mk.injEq]
  constructor
  · rintro ⟨y, -, u, hy, rfl, rfl⟩
    exact hy
  · intro h
    exact ⟨x, hs.mem_keys.2 (by simp [h]), t, h, rfl, rfl⟩

/-- Walks that end are listed one after the other. -/
theorem mapM_walk {bindings : List (Var × Term)} {f : Term → Term}
    (h : ∀ p ∈ bindings, s.walk n p.2 = some (f p.2)) :
    (bindings.mapM fun (x, t) => (s.walk n t).map fun t => (x, t)) =
      some (bindings.map fun (x, t) => (x, f t)) := by
  induction bindings with
  | nil => rfl
  | cons p bindings ih =>
    obtain ⟨hp, hbindings⟩ := List.forall_mem_cons.1 h
    rw [List.mapM_cons, ih hbindings]
    simp [hp]

theorem Built.walkedEntries_eq (hs : s.Built) (ha : s.Acyclic) :
    ∀ᶠ n in atTop, s.walkedEntries n = some (s.keys.zip (s.keys.map s.value)) := by
  have hwalk : ∀ᶠ n in atTop, ∀ p ∈ s.entries, s.walk n p.2 = some (p.2.subst s.value) :=
    (eventually_all_finite (List.finite_toSet s.entries)).2 fun p _ =>
      (ha.walks p.2).eventually_walk
  filter_upwards [hwalk] with n hn
  rw [walkedEntries, mapM_walk hn, hs.entries_eq, ← List.map_prod_left_eq_zip,
    ← List.map_prod_left_eq_zip, List.map_map]
  congr 1
  refine List.map_congr_left fun x hx => ?_
  obtain ⟨t, ht⟩ := Option.isSome_iff_exists.1 (hs.mem_keys.1 hx)
  simp [ht, ha.value_bound ht]

theorem Built.inStep (hs : s.Built) : InStep s where
  nodup := hs.nodup_keys
  mem_keys := fun x => by rw [hs.mem_keys, contains_eq_isSome]
  size_eq := hs.size_eq
  listed := by
    refine ⟨_, ?_, hs.entries_eq, ?_⟩
    · refine List.forall₂_map_right_iff.2 (List.forall₂_same.2 fun x hx => ?_)
      obtain ⟨t, ht⟩ := Option.isSome_iff_exists.1 (hs.mem_keys.1 hx)
      rw [ht, Option.getD_some]
    · rw [text, hs.entries_eq, List.map_zip_eq_zipWith]
      rfl
  walked := by
    intro ha
    refine ⟨s.keys.map s.value, ?_⟩
    have hwalk : ∀ᶠ n in atTop, ∀ x ∈ s.keys, s.walk n (.var x) = some (s.value x) :=
      (eventually_all_finite (List.finite_toSet s.keys)).2 fun x _ => by
        simpa using (ha.walks (.var x)).eventually_walk
    filter_upwards [hwalk, hs.walkedEntries_eq ha] with n hn hentries
    exact ⟨List.forall₂_map_right_iff.2 (List.forall₂_same.2 hn), hentries⟩

/-! ### Collecting bindings -/

/-- A chain of extensions is refused exactly if a variable repeats. -/
theorem foldlM_extend_ok_iff (hs : s.Built) :
    (∃ r, pairs.foldlM (fun s p => s.extend p.1 p.2) s = .ok r) ↔
      (s.keys ++ pairs.map Prod.fst).Nodup := by
  induction pairs generalizing s with
  | nil => simpa [Pure.pure, Except.pure] using hs.nodup_keys
  | cons p pairs ih =>
    rw [List.foldlM_cons, extend, List.map_cons]
    split_ifs with hc
    · have hmem : p.1 ∈ s.keys := by rwa [hs.mem_keys, ← contains_eq_isSome]
      refine iff_of_false ?_ fun h => ?_
      · rintro ⟨r, hr⟩
        cases hr
      · exact (List.nodup_append.1 h).2.2 _ hmem _ List.mem_cons_self rfl
    · have h := ih (hs.insert p.2 (get?_of_not_contains hc))
      rwa [keys_insert, List.append_assoc, List.singleton_append] at h

/-- It is refused for no other reason. -/
theorem alreadyBound_of_foldlM_extend
    (h : pairs.foldlM (fun s p => s.extend p.1 p.2) s = .error refusal) :
    ∃ x, refusal = .alreadyBound x := by
  induction pairs generalizing s with
  | nil => cases h
  | cons p pairs ih =>
    rw [List.foldlM_cons, extend] at h
    split_ifs at h
    · cases h
      exact ⟨_, rfl⟩
    · exact ih h

theorem eqv_of_get?_eq (hsize : s.size = r.size) (hget : ∀ x, s.get? x = r.get? x) :
    (s == r) = true := by
  change s.eqv r = true
  rw [eqv, hsize, beq_self_eq_true, Bool.true_and, List.all_eq_true]
  rintro ⟨x, t⟩ hx
  have ht : s.get? x = some t := Std.TreeMap.mem_toList_iff_getElem?_eq_some.1 hx
  have hr : r.get? x = some t := hget x ▸ ht
  simpa [hr] using beq_iff_alike.2 (Term.alike_refl t)

theorem get?_of_ofList (h : ofList pairs = .ok s) : s.get? x = some t ↔ (x, t) ∈ pairs := by
  obtain ⟨hs, hentries⟩ := Built.of_foldlM_extend .empty h
  rw [← hs.mem_entries, hentries]
  rfl

theorem ofList_ok_iff : (∃ s, ofList pairs = .ok s) ↔ (pairs.map Prod.fst).Nodup := by
  have h : (∃ s, ofList pairs = .ok s) ↔ (empty.keys ++ pairs.map Prod.fst).Nodup :=
    foldlM_extend_ok_iff .empty
  rwa [keys_empty, List.nil_append] at h

theorem collects (pairs : List (Var × Term)) : Collects pairs where
  refused_iff := by
    rw [← ofList_ok_iff]
    constructor
    · rintro ⟨x, hx⟩ ⟨s, hs⟩
      simp [hs] at hx
    · intro hno
      cases h : ofList pairs with
      | ok s => exact absurd ⟨s, h⟩ hno
      | error refusal =>
        obtain ⟨x, rfl⟩ := alreadyBound_of_foldlM_extend h
        exact ⟨x, rfl⟩
  perm := by
    intro hnodup pairs' hperm
    obtain ⟨s, hs⟩ := ofList_ok_iff.2 hnodup
    obtain ⟨r, hr⟩ := ofList_ok_iff.2 ((hperm.map Prod.fst).nodup_iff.1 hnodup)
    refine ⟨s, r, hs, hr, eqv_of_get?_eq ?_ fun x => Option.ext fun t => ?_⟩
    · rw [(built_iff_ofList.2 ⟨_, hs⟩).size_eq, (built_iff_ofList.2 ⟨_, hr⟩).size_eq,
        keys_of_foldlM_extend hs, keys_of_foldlM_extend hr]
      simpa using hperm.length_eq
    · rw [get?_of_ofList hs, get?_of_ofList hr, hperm.mem_iff]

/-- **The bindings and their order are in step.**  Whatever is obtained from the substitution
without bindings by operations that return has every bound variable in its order once, and lists its
bindings accordingly; and each of these operations appends to the substitution that it starts from.
Collecting bindings is refused exactly if a variable repeats, and their order does not matter. -/
theorem order_in_step_with_bindings :
    (∀ s, Obtained s → InStep s ∧
      ∀ (u : Update) (n : ℕ) (r : Substitution), u.answer n s = .ok r → Appends (u.start s) r) ∧
    ∀ pairs, Collects pairs :=
  ⟨fun _ hs => ⟨hs.built.inStep, fun u _ _ hr => u.appends hs.built hr⟩, collects⟩

/-- A variable that is bound to a free one, which reification marks; and the same two bindings,
collected the other way round. -/
theorem order_in_step_reified :
    let x := Var.named "x"
    let y := Var.named "y"
    let s := (empty.insert x (.var y)).insert y .unassigned
    InStep s ∧ Appends (empty.insert x (.var y)) s ∧ s.text = "\x7bx: y, y: _\x7d" ∧
      ∃ r, ofList [(y, .unassigned), (x, .var y)] = .ok r ∧ (s == r) = true := by
  intro x y s
  have hfirst : empty.extend x (.var y) = .ok (empty.insert x (.var y)) := by cbv
  have hsecond : Call.answer 3 (empty.insert x (.var y)) (.reify (.var x)) = .ok s := by cbv
  have hobtained : Obtained (empty.insert x (.var y)) :=
    Obtained.empty.update (u := .extend x (.var y)) (n := 0) hfirst
  obtain ⟨hobtain, hcollect⟩ := order_in_step_with_bindings
  have hs : ofList [(x, .var y), (y, .unassigned)] = .ok s := by cbv
  obtain ⟨s', r, hs', hr, heq⟩ := (hcollect _).perm (by decide) _
    (.swap (y, .unassigned) (x, .var y) [])
  rw [hs] at hs'
  cases hs'
  exact ⟨(hobtain s (hobtained.update (u := .call (.reify (.var x))) (n := 3) hsecond)).1,
    (hobtain _ hobtained).2 (.call (.reify (.var x))) 3 s hsecond, by cbv, r, hr, heq⟩

end Substitution

end Relational
