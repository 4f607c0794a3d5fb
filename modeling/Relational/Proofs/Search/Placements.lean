import Mathlib.Data.Fintype.CardEmbedding
import Relational.Goal.Combinators
import Relational.Proofs.Search.Items

/-!
# Placements

A constant that is looked for in a list of variables gets to each of those that are unbound, in
turn, and to no other one (`exists_exhausts_placing`).  If several constants are looked for, one
after the other, each of them finds the places taken that the ones before it have got to.  So the
states that are found in the end correspond to the choices of as many variables, none of them twice
(`exists_exhausts_everyg`), and these to the injective maps (`map_chosen_eq_choices`).

In which order they are found is left open: the searches for the later constants take turns.
-/

namespace Relational

open Filter Substitution

/-! ### Choices without repetition -/

section Choices

variable {α β : Type} [DecidableEq α] {k : ℕ} {items q : List α}

/-- The ways to choose `k` items one after the other, none of them twice. -/
def choices : ℕ → List α → List (List α)
  | 0, _ => [[]]
  | k + 1, items => items.flatMap fun a => (choices k (items.erase a)).map (a :: ·)

theorem mem_choices (h : items.Nodup) :
    q ∈ choices k items ↔ q.length = k ∧ q.Nodup ∧ ∀ a ∈ q, a ∈ items := by
  induction k generalizing items q with
  | zero =>
    rw [choices, List.mem_singleton, List.length_eq_zero_iff]
    refine ⟨?_, fun h => h.1⟩
    rintro rfl
    simp
  | succ k ih =>
    rw [choices, List.mem_flatMap]
    cases q with
    | nil => simp
    | cons a q =>
      have hhead : (∃ b ∈ items, (a :: q) ∈ (choices k (items.erase b)).map (b :: ·)) ↔
          a ∈ items ∧ q ∈ choices k (items.erase a) := by
        constructor
        · rintro ⟨b, hb, hq⟩
          obtain ⟨q', hq', heq⟩ := List.mem_map.1 hq
          obtain ⟨rfl, rfl⟩ := List.cons.inj heq
          exact ⟨hb, hq'⟩
        · rintro ⟨ha, hq⟩
          exact ⟨a, ha, List.mem_map_of_mem hq⟩
      rw [hhead, ih (h.erase a)]
      simp only [h.mem_erase_iff, List.length_cons, Nat.add_right_cancel_iff, List.nodup_cons,
        List.forall_mem_cons]
      constructor
      · rintro ⟨ha, hlength, hnodup, hq⟩
        exact ⟨hlength, ⟨fun haq => (hq a haq).1 rfl, hnodup⟩, ha, fun b hb => (hq b hb).2⟩
      · rintro ⟨hlength, ⟨haq, hnodup⟩, ha, hq⟩
        exact ⟨ha, hlength, hnodup, fun b hb => ⟨fun hba => haq (hba ▸ hb), hq b hb⟩⟩

theorem nodup_choices (h : items.Nodup) : (choices k items).Nodup := by
  induction k generalizing items with
  | zero => exact List.nodup_singleton _
  | succ k ih =>
    rw [choices]
    refine List.nodup_flatMap.2 ⟨fun a _ => (ih (h.erase a)).map List.cons_injective,
      h.imp fun {a b} hab q hqa hqb => ?_⟩
    obtain ⟨_, _, rfl⟩ := List.mem_map.1 hqa
    obtain ⟨_, _, heq⟩ := List.mem_map.1 hqb
    exact hab (List.cons.inj heq).1.symm

/-- The choice that an injective map makes. -/
def chosen (items : List α) (p : Fin k ↪ Fin items.length) : List α :=
  List.ofFn fun j => items.get (p j)

/-- **Each choice is made by one injective map**, and each injective map makes one. -/
theorem map_chosen_eq_choices (h : items.Nodup) :
    (Finset.univ.val.map (chosen (k := k) items)) = (choices k items : Multiset (List α)) := by
  have hinjective : Function.Injective (chosen (k := k) items) := by
    intro p p' hp
    ext j
    have hj := congrFun (List.ofFn_injective hp) j
    exact congrArg Fin.val (List.nodup_iff_injective_get.1 h hj)
  refine (Multiset.Nodup.ext (Finset.univ.nodup.map hinjective)
    (Multiset.coe_nodup.2 (nodup_choices h))).2 fun q => ?_
  rw [Multiset.mem_map, Multiset.mem_coe, mem_choices h]
  constructor
  · rintro ⟨p, -, rfl⟩
    refine ⟨List.length_ofFn, List.nodup_ofFn.2 ?_, fun a ha => ?_⟩
    · exact (List.nodup_iff_injective_get.1 h).comp p.injective
    · obtain ⟨j, rfl⟩ := List.mem_ofFn.1 ha
      exact items.get_mem _
  · rintro ⟨rfl, hq, hmem⟩
    have hplace : ∀ j : Fin q.length, ∃ i : Fin items.length, items.get i = q.get j := fun j =>
      List.mem_iff_get.1 (hmem _ (q.get_mem j))
    choose p hp using hplace
    have hinj : Function.Injective p := by
      intro i j hij
      refine List.nodup_iff_injective_get.1 hq ?_
      rw [← hp, ← hp, hij]
    refine ⟨⟨p, hinj⟩, Finset.mem_univ _, ?_⟩
    show List.ofFn (fun j => items.get (p j)) = q
    simp only [hp, List.ofFn_get]

/-- Two lists of which the first one has no item twice correspond by a map. -/
theorem exists_map_of_forall₂ {R : α → β → Prop} {bs : List β} (h : List.Forall₂ R items bs)
    (hitems : items.Nodup) (b : β) : ∃ f : α → β, bs = items.map f ∧ ∀ a ∈ items, R a (f a) := by
  induction h with
  | nil => exact ⟨fun _ => b, rfl, by simp⟩
  | @cons a b' items bs hab _ ih =>
    obtain ⟨ha, hitems⟩ := List.nodup_cons.1 hitems
    obtain ⟨f, rfl, hf⟩ := ih hitems
    have hother : ∀ a' ∈ items, Function.update f a b' a' = f a' := fun a' ha' =>
      Function.update_of_ne (fun heq : a' = a => ha (heq ▸ ha')) _ _
    refine ⟨Function.update f a b', ?_, List.forall_mem_cons.2 ⟨?_, fun a' ha' => ?_⟩⟩
    · rw [List.map_cons, Function.update_self, List.map_congr_left hother]
    · rwa [Function.update_self]
    · rw [hother a' ha']
      exact hf a' ha'

end Choices

/-! ### Constants and variables -/

namespace Substitution

variable {check : Bool} {Q : Var → Prop} {s : Substitution} {c d : Constant} {x : Var}

/-- An unbound variable gets the constant as its value. -/
theorem decides_constant_var (hs : s.Acyclic) (hx : s.get? x = none) (c : Constant) :
    Decides check Q s (.constant c) (.var x) (some (s.insert x (.constant c))) :=
  ⟨hs.insert hx (by simp), fun _ _ hu => .free_right (by rintro y ⟨⟩) hu.exists_resolve_var
    (.constant c) Term.not_occurs_constant (.done _)⟩

theorem beq_constant : (Term.constant c == Term.constant d) = c.eqv d :=
  Bool.eq_iff_iff.2 (beq_iff_alike.trans Term.alike_constant)

/-- Another constant is refused. -/
theorem decides_constant_constant (h : c.eqv d = false) :
    Decides check Q s (.constant c) (.constant d) none := by
  have hne : ¬ (Term.constant c == Term.constant d) = true := by
    rw [beq_constant, h]
    exact Bool.false_ne_true
  exact fun u _ hu => ⟨_, .clash ⟨⟨0, resolve_constant c⟩, hu.exists_resolve_constant, rfl⟩
    (if_neg hne)⟩

end Substitution

/-! ### The search -/

/-- Those of the variables that are unbound. -/
def State.vacant (st : State) (names : List String) : List String :=
  names.filter fun a => (st.substitution.get? (.named a)).isNone

/-- Variables that are bound have constants as their values, and none that is equal to one of
`cs`. -/
structure State.HasRoom (names : List String) (cs : List Constant) (st : State) : Prop where
  handedOut : st.substitution.Over (Var.Below st.nextId)
  acyclic : st.substitution.Acyclic
  bound : ∀ a ∈ names, ∀ t, st.substitution.get? (.named a) = some t →
    ∃ d, t = .constant d ∧ ∀ c ∈ cs, c.eqv d = false

/-- What the variable is bound to, or itself. -/
def State.valueOf (st : State) (a : String) : Term :=
  (st.substitution.get? (.named a)).getD (.var (.named a))

/-- What unification of the constant with a value comes to, if it is no constant that is equal. -/
def State.outcome (st : State) (c : Constant) (e : Term) : Option Substitution :=
  e.var?.map fun x => st.substitution.insert x (.constant c)

/-- The constant is the value of the variable now, and everything else is as it was. -/
def State.Placed (st : State) (c : Constant) (a : String) (mid : State) : Prop :=
  State.Shows st.nextId st.config (st.substitution.insert (.named a) (.constant c)) mid

/-- The constants are the values of the variables in `q`, in this order, and the other ones of
`names` are as they were. -/
structure State.Places (st : State) (names : List String) (cs : List Constant) (q : List String)
    (st' : State) : Prop where
  placed : List.Forall₂ (fun a c => st'.substitution.get? (.named a) = some (.constant c)) q cs
  others : ∀ a ∈ names, a ∉ q → st'.substitution.get? (.named a) = st.substitution.get? (.named a)

section Placed

variable {st mid : State} {names : List String} {c : Constant} {cs : List Constant} {a : String}

theorem State.HasRoom.valueOf_cases (h : st.HasRoom names cs) (ha : a ∈ names) :
    (st.substitution.get? (.named a) = none ∧ st.valueOf a = .var (.named a)) ∨
      ∃ d, st.substitution.get? (.named a) = some (.constant d) ∧ st.valueOf a = .constant d ∧
        ∀ c ∈ cs, c.eqv d = false := by
  cases hget : st.substitution.get? (.named a) with
  | none => exact .inl ⟨rfl, by rw [valueOf, hget, Option.getD_none]⟩
  | some t =>
    obtain ⟨d, rfl, hd⟩ := h.bound a ha t hget
    exact .inr ⟨d, rfl, by rw [valueOf, hget, Option.getD_some], hd⟩

theorem State.HasRoom.walks_list (h : st.HasRoom names cs) : st.substitution.Walks
    (.list (names.map fun a => .var (.named a))) (.list (names.map st.valueOf)) := by
  refine Substitution.walks_list fun a ha => ?_
  obtain ⟨hget, hvalue⟩ | ⟨d, hget, hvalue, -⟩ := h.valueOf_cases ha
  · exact hvalue ▸ .free hget
  · exact hvalue ▸ .bound hget (.constant d)

theorem State.HasRoom.decides (h : st.HasRoom names (c :: cs)) (ha : a ∈ names) (check : Bool) :
    (st.valueOf a).Over (Var.Below st.nextId) ∧ Decides check (Var.Below st.nextId)
      st.substitution (.constant c) (st.valueOf a) (st.outcome c (st.valueOf a)) := by
  obtain ⟨hget, hvalue⟩ | ⟨d, -, hvalue, hd⟩ := h.valueOf_cases ha
  · rw [hvalue]
    exact ⟨Term.over_var.2 Var.below_named, decides_constant_var h.acyclic hget c⟩
  · rw [hvalue]
    exact ⟨fun y hy => absurd hy Term.not_occurs_constant,
      decides_constant_constant (hd c List.mem_cons_self)⟩

/-- There is an outcome for each vacant place, and for no other one. -/
theorem State.HasRoom.filterMap_outcome (h : st.HasRoom names cs) (c : Constant) :
    (names.map st.valueOf).filterMap (st.outcome c) =
      (st.vacant names).map fun a => st.substitution.insert (.named a) (.constant c) := by
  rw [List.filterMap_map, State.vacant, ← List.filterMap_eq_filter, List.map_filterMap]
  refine List.filterMap_congr fun a ha => ?_
  obtain ⟨hget, hvalue⟩ | ⟨d, hget, hvalue, -⟩ := h.valueOf_cases ha <;>
    simp [hvalue, hget, State.outcome, Term.var?, Option.guard]

theorem State.Placed.get? (h : st.Placed c a mid) (b : String) : mid.substitution.get? (.named b) =
    if a = b then some (.constant c) else st.substitution.get? (.named b) := by
  rw [h.same _ Var.below_named, get?_insert]
  simp

theorem State.Placed.hasRoom (h : st.Placed c a mid) (hst : st.HasRoom names (c :: cs))
    (hc : ∀ d ∈ cs, d.eqv c = false) : mid.HasRoom names cs where
  handedOut := h.handedOut
  acyclic := h.acyclic
  bound := by
    intro b hb t ht
    rw [h.get?] at ht
    split_ifs at ht
    · cases ht
      exact ⟨c, rfl, hc⟩
    · obtain ⟨d, hd, hcs⟩ := hst.bound b hb t ht
      exact ⟨d, hd, fun c' hc' => hcs c' (List.mem_cons_of_mem c hc')⟩

theorem State.Placed.vacant (h : st.Placed c a mid) (hnames : names.Nodup) :
    mid.vacant names = (st.vacant names).erase a := by
  rw [State.vacant, State.vacant, (hnames.filter _).erase_eq_filter, List.filter_filter]
  refine List.filter_congr fun b _ => ?_
  rw [h.get?]
  split_ifs with hab
  · simp [hab]
  · simp [Ne.symm hab]

end Placed

namespace Goal

variable {program : Program} {g : Goal} {gs : List Goal} {l : Locals} {st : State}
  {layers : List (List State)} {names : List String} {c : Constant} {cs : List Constant}

/-- One goal before others: what is found for them comes of each state that is found for it. -/
theorem exists_exhausts_all_cons {f : State → List (List State)}
    (hg : Exhausts program g l st layers)
    (hgs : ∀ mid ∈ layers.flatten, Exhausts program (all gs) l mid (f mid)) :
    ∃ layers', Exhausts program (all (g :: gs)) l st layers' ∧
      (layers'.flatten : Multiset State) =
        (layers.flatten : Multiset State).bind fun mid => ((f mid).flatten : Multiset State) := by
  cases gs with
  | nil =>
    have hself : ∀ mid ∈ layers.flatten, f mid = [[mid]] := by
      intro mid hmid
      have h : Exhausts program .succeed l mid (f mid) := hgs mid hmid
      generalize f mid = found at h
      cases h
      rfl
    refine ⟨layers, hg, ?_⟩
    rw [Multiset.bind_congr fun mid hmid => congrArg (fun ls => (ls.flatten : Multiset State))
      (hself mid hmid)]
    exact ((Multiset.bind_singleton _ id).trans (Multiset.map_id _)).symm
  | cons h gs => exact ⟨_, .both hg hgs, Stream.coe_flatten_graft f layers⟩

/-- The constant is an item of the list of the variables. -/
def placing (names : List String) (c : Constant) : Goal :=
  .call "membero" [.term (.constant c), .term (.list (names.map fun a => .var (.named a)))]

/-- **The constant gets to every vacant place**, and to no other one. -/
theorem exists_exhausts_placing (l : Locals) (h : st.HasRoom names (c :: cs)) :
    ∃ layers, Exhausts Program.lists (placing names c) l st layers ∧
      List.Forall₂ (st.Placed c) (st.vacant names) layers.flatten := by
  have hknows : st.Knows st.nextId st.substitution := ⟨.refl _, h.handedOut, h.acyclic, le_rfl⟩
  have hconstant : (Term.constant c).Over (Var.Below st.nextId) := fun y hy =>
    absurd hy Term.not_occurs_constant
  have hlist : (Term.list (names.map fun a => .var (.named a))).Over (Var.Below st.nextId) := by
    refine Term.over_list.2 fun t ht => ?_
    obtain ⟨a, -, rfl⟩ := List.mem_map.1 ht
    exact Term.over_var.2 Var.below_named
  have hitems : ∀ e ∈ names.map st.valueOf, e.Over (Var.Below st.nextId) ∧
      Decides st.config.occursCheck (Var.Below st.nextId) st.substitution (.constant c) e
        (st.outcome c e) :=
    List.forall_mem_map.2 fun a ha => h.decides ha _
  obtain ⟨ls, hls, hshows⟩ := exists_callExhausts_membero h.handedOut hconstant rfl hknows
    hitems hlist h.walks_list fun n a d hres => (h.handedOut.of_resolve_cons hlist ⟨n, hres⟩).1
  rw [h.filterMap_outcome, List.forall₂_map_left_iff] at hshows
  exact ⟨_, hls.exhausts l, hshows⟩

/-- **One constant after the other gets to a vacant place**, in every way there is, once each. -/
theorem exists_exhausts_everyg (l : Locals) (hnames : names.Nodup)
    (hcs : cs.Pairwise fun c d => c.eqv d = false) (h : st.HasRoom names cs) :
    ∃ layers, Exhausts Program.lists (everyg (placing names) cs) l st layers ∧
      ∃ found : List String → State,
        (layers.flatten : Multiset State) = (choices cs.length (st.vacant names)).map found ∧
        ∀ q ∈ choices cs.length (st.vacant names), State.Places st names cs q (found q) := by
  induction cs generalizing st with
  | nil =>
    refine ⟨_, .succeed l st, fun _ => st, rfl, fun q hq => ?_⟩
    obtain rfl := List.mem_singleton.1 hq
    exact ⟨.nil, fun _ _ _ => rfl⟩
  | cons c cs ih =>
    obtain ⟨hc, hcs⟩ := List.pairwise_cons.1 hcs
    obtain ⟨layers, hlayers, hplaced⟩ := exists_exhausts_placing l h
    have hvacant : (st.vacant names).Nodup := hnames.filter _
    obtain ⟨mid, hflat, hmid⟩ := exists_map_of_forall₂ hplaced hvacant st
    have hnext : ∀ st' ∈ layers.flatten, ∃ layers', Exhausts Program.lists
        (everyg (placing names) cs) l st' layers' ∧ ∃ found : List String → State,
          (layers'.flatten : Multiset State) = (choices cs.length (st'.vacant names)).map found ∧
          ∀ q ∈ choices cs.length (st'.vacant names), State.Places st' names cs q (found q) := by
      intro st' hst'
      rw [hflat] at hst'
      obtain ⟨a, ha, rfl⟩ := List.mem_map.1 hst'
      exact ih hcs ((hmid a ha).hasRoom h fun d hd => (d.eqv_comm c).trans (hc d hd))
    have hmem : ∀ a ∈ st.vacant names, mid a ∈ layers.flatten := fun a ha =>
      hflat ▸ List.mem_map_of_mem ha
    -- the states of all places of `c` are taken together, and each goes on by itself
    have : Nonempty State := ⟨st⟩
    choose! next hexhausts found hfound hplaces using hnext
    obtain ⟨layers', hall, hflat'⟩ := exists_exhausts_all_cons hlayers hexhausts
    let found' : List String → State
      | [] => st
      | a :: q => found (mid a) q
    refine ⟨layers', hall, found', ?_, ?_⟩
    · calc (layers'.flatten : Multiset State)
          = ((st.vacant names : Multiset String).map mid).bind
              fun st' => ((next st').flatten : Multiset State) := by
            rw [hflat', hflat, Multiset.map_coe]
        _ = (st.vacant names : Multiset String).bind
              fun a => ((next (mid a)).flatten : Multiset State) := Multiset.bind_map _ _ _
        _ = (st.vacant names : Multiset String).bind fun a =>
              ((choices cs.length ((st.vacant names).erase a)).map (found (mid a)) :
                Multiset State) := by
            refine Multiset.bind_congr fun a ha => ?_
            rw [hfound _ (hmem a ha), (hmid a ha).vacant hnames]
        _ = (choices (c :: cs).length (st.vacant names)).map found' := by
            rw [Multiset.coe_bind, List.length_cons, choices, List.map_flatMap]
            simp only [List.map_map]
            rfl
    · intro q hq
      obtain ⟨a, ha, hmap⟩ := List.mem_flatMap.1 hq
      obtain ⟨q, hchoice, rfl⟩ := List.mem_map.1 hmap
      have haq : a ∉ q := fun haq => hvacant.not_mem_erase
        (((mem_choices (hvacant.erase a)).1 hchoice).2.2 a haq)
      have hrest := hplaces (mid a) (hmem a ha) q ((hmid a ha).vacant hnames ▸ hchoice)
      refine ⟨.cons ?_ hrest.placed, fun b hb hbq => ?_⟩
      · rw [hrest.others a (List.mem_of_mem_filter ha) haq, (hmid a ha).get?, if_pos rfl]
      · have hab : a ≠ b := fun hab => hbq (hab ▸ List.mem_cons_self)
        rw [hrest.others b hb fun hb' => hbq (List.mem_cons_of_mem a hb'), (hmid a ha).get?,
          if_neg hab]

/-- **All injective placements of the constants are found, once each**: for every way to give the
constants to different ones of the variables there is one answer, in which those variables walk to
their constants and the others are unbound.  So their number is that of the injective maps, and
there is none if there are more constants than variables. -/
theorem everyg_places (config : SearchConfig) (loc : Locals) {names : List String}
    {cs : List Constant} (hnames : names.Nodup)
    (hcs : cs.Pairwise fun c d => (Term.constant c == .constant d) = false) :
    ∃ layers, (∀ᶠ n in atTop, Completes ⟨Program.lists, n⟩
        (everyg (fun c => .call "membero"
          [.term (.constant c), .term (.list (names.map fun a => .var (.named a)))]) cs)
        loc (.start config) layers) ∧
      (names.length < cs.length → layers.flatten = []) ∧
      (cs.length ≤ names.length → layers.flatten.length =
        names.length.factorial / (names.length - cs.length).factorial) ∧
      ∃ found : (Fin cs.length ↪ Fin names.length) → State,
        (layers.flatten : Multiset State) = Finset.univ.val.map found ∧ ∀ p,
          (∀ j, ∀ᶠ n in atTop, (found p).substitution.walk n (.var (.named (names.get (p j)))) =
            some (.constant (cs.get j))) ∧
          ∀ i, (∀ j, p j ≠ i) → (found p).substitution.get? (.named (names.get i)) = none := by
  have hroom : (State.start config).HasRoom names cs :=
    ⟨over_empty, acyclic_empty, fun a _ t ht => by simp [State.start] at ht⟩
  have hvacant : (State.start config).vacant names = names :=
    List.filter_eq_self.2 fun a _ => by simp [State.start]
  obtain ⟨layers, hlayers, found, hfound, hplaces⟩ :=
    exists_exhausts_everyg loc hnames (hcs.imp fun h => beq_constant ▸ h) hroom
  rw [hvacant] at hfound hplaces
  have hall : (layers.flatten : Multiset State) =
      Finset.univ.val.map fun p : Fin cs.length ↪ Fin names.length => found (chosen names p) := by
    rw [hfound, ← Multiset.map_coe, ← map_chosen_eq_choices hnames, Multiset.map_map]
    rfl
  have hlength : layers.flatten.length = names.length.descFactorial cs.length := by
    have hcard := congrArg Multiset.card hall
    rw [Multiset.coe_card, Multiset.card_map] at hcard
    rw [hcard]
    exact (Fintype.card_embedding_eq).trans (by simp)
  refine ⟨layers, hlayers.eventually_completes, fun hlt => ?_, fun hle => ?_, _, hall, fun p => ?_⟩
  · rw [Nat.descFactorial_eq_zero_iff_lt.2 hlt] at hlength
    exact List.eq_nil_of_length_eq_zero hlength
  · rw [hlength, Nat.descFactorial_eq_div hle]
  · have hp : chosen names p ∈ choices cs.length names := by
      rw [← Multiset.mem_coe, ← map_chosen_eq_choices hnames]
      exact Multiset.mem_map_of_mem _ (Finset.mem_univ p)
    obtain ⟨hplaced, hothers⟩ := hplaces _ hp
    refine ⟨fun j => ?_, fun i hi => ?_⟩
    · have hj := (List.forall₂_iff_get.1 hplaced).2 j (by simp [chosen]) j.isLt
      have hwalks : (found (chosen names p)).substitution.Walks
          (.var (.named (names.get (p j)))) (.constant (cs.get j)) :=
        .bound (by simpa [chosen] using hj) (.constant _)
      exact hwalks.eventually_walk
    · rw [hothers _ (names.get_mem i)]
      · exact get?_empty
      · intro hmem
        obtain ⟨j, hj⟩ := List.mem_ofFn.1 hmem
        exact hi j (List.nodup_iff_injective_get.1 hnames hj)

/-- Two constants that are the same but for being equal to nothing have six places in three
variables. -/
theorem everyg_places_nan :
    let nan := fun i => (⟨.plain (.float .double .nan), [i]⟩ : Constant)
    let names := ["a", "b", "c"]
    names.Nodup ∧
      [nan 0, nan 1].Pairwise (fun c d => (Term.constant c == .constant d) = false) ∧
      ∃ layers, (∀ᶠ n in atTop, Completes ⟨Program.lists, n⟩
        (everyg (fun c => .call "membero"
          [.term (.constant c), .term (.list (names.map fun a => .var (.named a)))])
          [nan 0, nan 1]) .none (.start {}) layers) ∧ layers.flatten.length = 6 := by
  intro nan names
  have hnames : names.Nodup := by decide
  have hnan : [nan 0, nan 1].Pairwise fun c d => (Term.constant c == .constant d) = false :=
    List.pairwise_pair.2 (by cbv)
  obtain ⟨layers, hrun, -, hlength, -⟩ := everyg_places {} .none hnames hnan
  exact ⟨hnames, hnan, layers, hrun, (hlength (by decide)).trans (by decide)⟩

end Goal

end Relational
