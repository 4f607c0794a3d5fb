import Std.Data.String.ToInt
import Relational.Proofs.Term.Equality
import Relational.Term.Text

/-!
# The text of a term can be read in one way only

`Term.write` keeps the pieces that are still to be written in a list.  What it writes is, piece
after piece, what each of them is written as alone (`toList_write`), so `Piece.chars` follows the
tree.

The text of a term is laid out as a word, then, if it is no atom, an opening bracket, and what
stands in the brackets (`Layout`).  No word has a delimiter in it and a delimiter comes behind every
word, so two texts that are equal begin with the same word; the word and the bracket behind it
tell the kind of the term (`Layout.read`).  By induction over the tree a text determines the term
and where the text ends in a longer one (`Plain.determined`), for terms in which nothing but words,
numbers and the empty list is written (`Plain`).

The main result is `Plain.eqv_of_text_eq`.
-/

namespace Relational

namespace Term

namespace Piece

/-- The text that a piece begins with, and the pieces that are left of it. -/
def unfolded : Piece → String × List Piece
  | .text s => (s, [])
  | .whole (.var x) => (x.text, [])
  | .whole (.constant c) => (c.shown, [])
  | .whole .unassigned => ("_", [])
  | .whole (.compound shape []) => (shape.name ++ "()", [])
  | .whole (.compound shape [car, cdr]) =>
    if shape = .cons then ("(", [.whole car, .tail cdr])
    else (shape.name ++ "(", [.whole car, .others [cdr]])
  | .whole (.compound shape (t :: ts)) => (shape.name ++ "(", [.whole t, .others ts])
  | .tail (.compound shape [car, cdr]) =>
    if shape = .cons then (" ", [.whole car, .tail cdr])
    else (" . ", [.whole (.compound shape [car, cdr]), .text ")"])
  | .tail t => if t.isNil then (")", []) else (" . ", [.whole t, .text ")"])
  | .others [] => (")", [])
  | .others (t :: ts) => (", ", [.whole t, .others ts])

/-- What a piece is written as. -/
def chars (p : Piece) : List Char := (write "" [p]).toList

variable {out : String} {p : Piece} {ps : List Piece} {s : String} {shape : Shape} {x : Var}
  {c : Constant} {t u car cdr : Term} {ts : List Term}

theorem write_cons : write out (p :: ps) = write (out ++ p.unfolded.1) (p.unfolded.2 ++ ps) := by
  fun_cases unfolded p <;> rw [write] <;> grind [unfolded]

theorem total_append (ps qs : List Piece) : total (ps ++ qs) = total ps + total qs := by
  induction ps with
  | nil => simp
  | cons p ps ih => simp [ih, Nat.add_assoc]

theorem total_unfolded_lt (p : Piece) : total p.unfolded.2 < p.weight := by
  fun_cases unfolded p <;> simp [weight, Term.weight] <;> grind [Term.weight_pos]

/-- **Pieces are written one after the other**, each as it is written alone. -/
theorem toList_write (out : String) (ps : List Piece) :
    (write out ps).toList = out.toList ++ ps.flatMap chars := by
  induction hn : total ps using Nat.strongRecOn generalizing out ps with
  | _ n ih =>
    subst hn
    cases ps with
    | nil => simp [write]
    | cons p ps =>
      have hlt := p.total_unfolded_lt
      have hpos : 0 < p.weight := by omega
      have hrest := ih _ (by simp [total_append]; omega) (out ++ p.unfolded.1)
        (p.unfolded.2 ++ ps) rfl
      have halone : p.chars = p.unfolded.1.toList ++ p.unfolded.2.flatMap chars := by
        rw [chars, write_cons, ih _ (by simp; omega) _ (p.unfolded.2 ++ []) rfl]
        simp
      rw [write_cons, hrest, List.flatMap_cons, halone]
      simp

theorem chars_eq (p : Piece) : p.chars = p.unfolded.1.toList ++ p.unfolded.2.flatMap chars := by
  rw [chars, write_cons, toList_write]
  simp

/-! ### What each piece is written as -/

@[simp] theorem chars_text : (text s).chars = s.toList := by
  simp [chars_eq, unfolded]

@[simp] theorem chars_var : (whole (.var x)).chars = x.text.toList := by
  simp [chars_eq, unfolded]

@[simp] theorem chars_constant : (whole (.constant c)).chars = c.shown.toList := by
  simp [chars_eq, unfolded]

@[simp] theorem chars_unassigned : (whole .unassigned).chars = ['_'] := by
  simp [chars_eq, unfolded]

@[simp] theorem chars_cons :
    (whole (cons car cdr)).chars = '(' :: ((whole car).chars ++ (tail cdr).chars) := by
  rw [chars_eq]
  simp [unfolded, cons]

@[simp] theorem chars_others_nil : (others []).chars = [')'] := by
  simp [chars_eq, unfolded]

@[simp] theorem chars_others_cons :
    (others (t :: ts)).chars = ',' :: ' ' :: ((whole t).chars ++ (others ts).chars) := by
  rw [chars_eq]
  simp [unfolded]

/-- What stands behind the opening bracket of a compound. -/
def row : List Term → List Char
  | [] => [')']
  | t :: ts => (whole t).chars ++ (others ts).chars

theorem chars_compound (h : (compound shape ts).cons? = none) :
    (whole (compound shape ts)).chars = shape.name.toList ++ '(' :: row ts := by
  rw [chars_eq]
  match ts with
  | [] => simp [unfolded, row]
  | [t] => simp [unfolded, row]
  | [car, cdr] =>
    have hne : shape ≠ .cons := by simpa [cons?] using h
    simp [unfolded, hne, row]
  | t :: u :: v :: ts => simp [unfolded, row]

theorem chars_tail_cons :
    (tail (cons car cdr)).chars = ' ' :: ((whole car).chars ++ (tail cdr).chars) := by
  rw [chars_eq]
  simp [unfolded, cons]

theorem chars_tail_nil (h : t.isNil = true) : (tail t).chars = [')'] := by
  cases t with
  | constant c => simp [chars_eq, unfolded, h]
  | _ => simp [isNil, value?] at h

theorem chars_tail_other (h : t.cons? = none) (h' : t.isNil = false) :
    (tail t).chars = ' ' :: '.' :: ' ' :: ((whole t).chars ++ [')']) := by
  have hunfolded : (tail t).unfolded = (" . ", [whole t, text ")"]) := by
    fun_cases cons? t with
    | case1 => simp [cons?] at h
    | case2 shape car cdr hne => simp [unfolded, hne]
    | case3 t hcell =>
      rw [unfolded, if_neg (by simp [h'])]
      exact hcell
  rw [chars_eq, hunfolded]
  simp

end Piece

open Piece

/-! ### Words and delimiters -/

/-- A character that may stand behind a term: it goes on with the next term, or it closes. -/
def closer (c : Char) : Bool := c == ' ' || c == ',' || c == ')'

/-- A character that ends a word. -/
def delimiter (c : Char) : Bool := closer c || c == '('

/-- The text goes on behind a term. -/
def Closed (r : List Char) : Prop := ∀ c ∈ r.head?, closer c = true

/-- A name that is written with letters. -/
def Word (name : String) : Prop := name ≠ "" ∧ ∀ c ∈ name.toList, c.isAlpha = true

/-- The terms that are written unambiguously: names are words, and constants are numbers of one type
or the empty list. -/
inductive Plain : Term → Prop
  | named {name : String} : Word name → Plain (.var (.named name))
  | fresh (id : ℕ) : Plain (.var (.fresh id))
  | number (n : Int) (i : Identity) : Plain (.constant ⟨.plain (.int true (.bits 32) n), i⟩)
  | nil (i : Identity) : Plain (.constant ⟨.plain .unit, i⟩)
  | unassigned : Plain .unassigned
  | compound {shape : Shape} {ts : List Term} :
      Word shape.name → (∀ t ∈ ts, Plain t) → Plain (.compound shape ts)

variable {t u car cdr : Term} {ts us : List Term} {shape : Shape} {name : String}
  {a b l l' r s w w' : List Char} {c : Char}

/-- A character of a class that no delimiter is in is none. -/
theorem not_delimiter_of {p : Char → Bool} (h : p c = true)
    (hp : ∀ d ∈ [' ', ',', ')', '('], p d = false) : delimiter c = false := by
  simp only [delimiter, closer, Bool.or_eq_false_iff, beq_eq_false_iff_ne]
  refine ⟨⟨⟨?_, ?_⟩, ?_⟩, ?_⟩ <;> rintro rfl <;> simp [hp] at h

theorem not_delimiter_of_isAlpha (h : c.isAlpha = true) : delimiter c = false :=
  not_delimiter_of h (by simp)

theorem not_delimiter_of_isDigit (h : c.isDigit = true) : delimiter c = false :=
  not_delimiter_of h (by simp)

theorem not_isAlpha_of_isDigit (h : c.isDigit = true) : c.isAlpha = false := by
  have hdigit : 48 ≤ c.toNat ∧ c.toNat ≤ 57 := Char.isDigit_iff_toNat.1 h
  refine Bool.eq_false_iff.2 fun ha => ?_
  obtain hupper | hlower := Bool.or_eq_true_iff.1 ha
  · have hupper : 65 ≤ c.toNat ∧ c.toNat ≤ 90 := of_decide_eq_true hupper
    omega
  · obtain ⟨hle, -⟩ := Bool.and_eq_true_iff.1 hlower
    have hle : 97 ≤ c.toNat := of_decide_eq_true hle
    omega

/-- Two words that are followed by a delimiter, if by anything, are the same if the texts are. -/
theorem word_unique (ha : ∀ c ∈ a, delimiter c = false) (hb : ∀ c ∈ b, delimiter c = false)
    (hr : ∀ c ∈ r.head?, delimiter c = true) (hs : ∀ c ∈ s.head?, delimiter c = true)
    (h : a ++ r = b ++ s) : a = b ∧ r = s := by
  have hword : ∀ {a r : List Char}, (∀ c ∈ a, delimiter c = false) →
      (∀ c ∈ r.head?, delimiter c = true) → (a ++ r).takeWhile (fun c => !delimiter c) = a := by
    intro a r ha hr
    rw [List.takeWhile_append_of_pos fun c hc => by simp [ha c hc]]
    cases r with
    | nil => simp
    | cons c r =>
      have hc : delimiter c = true := hr c rfl
      simp [hc]
  have hab : a = b := by rw [← hword ha hr, h, hword hb hs]
  subst hab
  exact ⟨rfl, List.append_cancel_left h⟩

theorem isDigit_of_mem_repr {n : ℕ} (h : c ∈ n.repr.toList) : c.isDigit = true := by
  rw [Nat.repr_eq_ofList_toDigits, String.toList_ofList] at h
  exact Nat.isDigit_of_mem_toDigits (by decide) (by decide) h

/-- The characters of a whole number are digits, but for a sign. -/
theorem sign_or_digit_of_mem_repr {n : Int} (h : c ∈ n.repr.toList) :
    c = '-' ∨ c.isDigit = true := by
  rw [Int.repr_eq_if] at h
  split_ifs at h
  · exact .inr (isDigit_of_mem_repr h)
  · rw [String.toList_append, List.mem_append] at h
    exact h.imp (by simp) isDigit_of_mem_repr

/-- A whole number begins with a digit or a sign. -/
theorem exists_repr (n : Int) : ∃ c w, n.repr.toList = c :: w ∧ (c = '-' ∨ c.isDigit = true) := by
  have hne : n.repr ≠ "" := by
    rw [Int.repr_eq_if]
    split_ifs <;> simp
  obtain ⟨c, w, hw⟩ := List.exists_cons_of_ne_nil (mt String.toList_eq_nil_iff.1 hne)
  exact ⟨c, w, hw, sign_or_digit_of_mem_repr (hw ▸ List.mem_cons_self)⟩

/-! ### How the text of a term is laid out -/

/-- The kinds of terms as they are written. -/
inductive Kind where
  | named
  | fresh
  | number
  | unassigned
  | list
  | compound

/-- The bracket behind the word that a term of this kind begins with. -/
def Kind.opening : Kind → List Char
  | .list | .compound => ['(']
  | _ => []

/-- The kind that a word and a bracket behind it tell. -/
def kindOf : List Char → List Char → Kind
  | [], _ => .list
  | _ :: _, _ :: _ => .compound
  | c :: w, [] =>
    if c = '_' then if w = [] then .unassigned else .fresh
    else if c.isAlpha then .named else .number

/-- The kind of a term, the word that it begins with, and what stands in its brackets. -/
inductive Layout : Term → Kind → List Char → List Char → Prop
  | named {name : String} : Word name → Layout (.var (.named name)) .named name.toList []
  | fresh (id : ℕ) : Layout (.var (.fresh id)) .fresh ('_' :: '.' :: id.repr.toList) []
  | number (n : Int) (i : Identity) :
      Layout (.constant ⟨.plain (.int true (.bits 32) n), i⟩) .number n.repr.toList []
  | unassigned : Layout .unassigned .unassigned ['_'] []
  | nil (i : Identity) : Layout (.constant ⟨.plain .unit, i⟩) .list [] [')']
  | cons {car cdr : Term} : Plain car → Plain cdr →
      Layout (cons car cdr) .list [] ((whole car).chars ++ (tail cdr).chars)
  | compound {shape : Shape} {ts : List Term} : Word shape.name → (∀ t ∈ ts, Plain t) →
      (compound shape ts).cons? = none →
      Layout (compound shape ts) .compound shape.name.toList (row ts)

variable {k k' : Kind}

theorem Layout.chars_eq (h : Layout t k w l) : (whole t).chars = w ++ (k.opening ++ l) := by
  cases h with
  | named => simp [Var.text, Kind.opening]
  | fresh id => simp [Var.text, Kind.opening, Nat.toString_eq_repr]
  | number n i => simp [Constant.shown, Scalar.shown, Value.plain, Kind.opening]
  | unassigned => simp [Kind.opening]
  | nil i => simp [Constant.shown, Scalar.shown, Value.plain, Kind.opening]
  | cons => simp [Kind.opening]
  | compound _ _ hcell => simp [chars_compound hcell, Kind.opening]

theorem Layout.not_delimiter (h : Layout t k w l) : ∀ c ∈ w, delimiter c = false := by
  intro c hc
  cases h with
  | named hname => exact not_delimiter_of_isAlpha (hname.2 c hc)
  | fresh id =>
    rw [List.mem_cons, List.mem_cons] at hc
    obtain rfl | rfl | hdigit := hc
    · decide
    · decide
    · exact not_delimiter_of_isDigit (isDigit_of_mem_repr hdigit)
  | number n i =>
    obtain rfl | hdigit := sign_or_digit_of_mem_repr hc
    · decide
    · exact not_delimiter_of_isDigit hdigit
  | unassigned =>
    obtain rfl : c = '_' := by simpa using hc
    decide
  | nil i => cases hc
  | cons => cases hc
  | compound hname => exact not_delimiter_of_isAlpha (hname.2 c hc)

theorem Word.exists_cons (h : Word name) : ∃ c w, name.toList = c :: w ∧ c.isAlpha = true := by
  obtain ⟨hne, halpha⟩ := h
  obtain ⟨c, w, hw⟩ := List.exists_cons_of_ne_nil (mt String.toList_eq_nil_iff.1 hne)
  exact ⟨c, w, hw, halpha c (by simp [hw])⟩

theorem Layout.kindOf_eq (h : Layout t k w l) : kindOf w k.opening = k := by
  cases h with
  | named hname =>
    obtain ⟨c, w, hw, hc⟩ := hname.exists_cons
    have hne : c ≠ '_' := by
      rintro rfl
      simp at hc
    simp [hw, Kind.opening, kindOf, hne, hc]
  | fresh id => simp [Kind.opening, kindOf]
  | number n i =>
    obtain ⟨c, w, hw, hsign⟩ := exists_repr n
    have hc : c ≠ '_' ∧ c.isAlpha = false := by
      obtain rfl | hdigit := hsign
      · decide
      · exact ⟨by rintro rfl; simp at hdigit, not_isAlpha_of_isDigit hdigit⟩
    simp [hw, Kind.opening, kindOf, hc]
  | unassigned => simp [Kind.opening, kindOf]
  | nil i => rfl
  | cons => rfl
  | compound hname =>
    obtain ⟨c, w, hw, -⟩ := hname.exists_cons
    simp [hw, Kind.opening, kindOf]

theorem eq_cons_of_cons? (h : t.cons? = some (car, cdr)) : t = cons car cdr := by
  fun_cases cons? t <;> simp_all [cons?, cons]

theorem Plain.exists_layout (h : Plain t) : ∃ k w l, Layout t k w l := by
  cases h with
  | named hname => exact ⟨_, _, _, .named hname⟩
  | fresh id => exact ⟨_, _, _, .fresh id⟩
  | number n i => exact ⟨_, _, _, .number n i⟩
  | nil i => exact ⟨_, _, _, .nil i⟩
  | unassigned => exact ⟨_, _, _, .unassigned⟩
  | @compound shape ts hname hts =>
    cases hcell : (Term.compound shape ts).cons? with
    | none => exact ⟨_, _, _, .compound hname hts hcell⟩
    | some p =>
      obtain ⟨rfl, rfl⟩ := Term.compound.inj (eq_cons_of_cons? hcell)
      exact ⟨_, _, _, .cons (hts _ (by simp)) (hts _ (by simp))⟩

/-- The text of a term begins neither with a point nor with a closing bracket. -/
theorem Plain.exists_chars (h : Plain t) :
    ∃ c l, (whole t).chars = c :: l ∧ c ≠ '.' ∧ c ≠ ')' := by
  have halpha : ∀ {c : Char}, c.isAlpha = true → c ≠ '.' ∧ c ≠ ')' := by
    intro c hc
    constructor <;> rintro rfl <;> simp at hc
  obtain ⟨k, w, l, h⟩ := h.exists_layout
  rw [h.chars_eq]
  cases h with
  | named hname =>
    obtain ⟨c, w, hw, hc⟩ := hname.exists_cons
    exact ⟨c, _, by rw [hw, List.cons_append], halpha hc⟩
  | fresh id => exact ⟨'_', _, rfl, by decide⟩
  | number n i =>
    obtain ⟨c, w, hw, hsign⟩ := exists_repr n
    refine ⟨c, _, by rw [hw, List.cons_append], ?_⟩
    obtain rfl | hdigit := hsign
    · decide
    · constructor <;> rintro rfl <;> simp at hdigit
  | unassigned => exact ⟨'_', _, rfl, by decide⟩
  | nil i => exact ⟨'(', _, rfl, by decide⟩
  | cons _ _ => exact ⟨'(', _, rfl, by decide⟩
  | compound hname =>
    obtain ⟨c, w, hw, hc⟩ := hname.exists_cons
    exact ⟨c, _, by rw [hw, List.cons_append], halpha hc⟩

theorem Kind.opening_cases (k : Kind) : k.opening = [] ∨ k.opening = ['('] := by
  cases k <;> simp [opening]

/-- There is nothing to be written behind the word of an atom. -/
theorem Layout.inner_eq_nil (h : Layout t k w l) (hk : k.opening = []) : l = [] := by
  cases h <;> first | rfl | cases hk

theorem not_closed_bracket : ¬ Closed ('(' :: r) := by
  intro h
  simpa [closer] using h '('

/-- What comes behind the word of a term is a bracket, or what comes behind the term. -/
theorem Layout.delimiter_head (h : Layout t k w l) (hr : Closed r) :
    ∀ c ∈ (k.opening ++ (l ++ r)).head?, delimiter c = true := by
  intro c hc
  obtain hk | hk := k.opening_cases
  · rw [hk, h.inner_eq_nil hk] at hc
    simp [delimiter, hr c hc]
  · obtain rfl : '(' = c := by simpa [hk] using hc
    decide

/-- **Texts that are equal are laid out alike.** -/
theorem Layout.read (h : Layout t k w l) (h' : Layout u k' w' l') (hr : Closed r) (hs : Closed s)
    (heq : (whole t).chars ++ r = (whole u).chars ++ s) : k = k' ∧ w = w' ∧ l ++ r = l' ++ s := by
  rw [h.chars_eq, h'.chars_eq, List.append_assoc, List.append_assoc, List.append_assoc,
    List.append_assoc] at heq
  obtain ⟨hw, hbehind⟩ := word_unique h.not_delimiter h'.not_delimiter (h.delimiter_head hr)
    (h'.delimiter_head hs) heq
  have hopening : k.opening = k'.opening := by
    obtain hk | hk := k.opening_cases <;> obtain hk' | hk' := k'.opening_cases
    · rw [hk, hk']
    · rw [hk, hk', h.inner_eq_nil hk] at hbehind
      exact absurd hr (by rw [show r = _ from hbehind]; exact not_closed_bracket)
    · rw [hk, hk', h'.inner_eq_nil hk'] at hbehind
      exact absurd hs (by rw [show s = _ from hbehind.symm]; exact not_closed_bracket)
    · rw [hk, hk']
  rw [hopening, List.append_cancel_left_eq] at hbehind
  exact ⟨by rw [← h.kindOf_eq, ← h'.kindOf_eq, hw, hopening], hw, hbehind⟩

/-! ### How a tail is laid out -/

/-- What the tail of a list begins with. -/
inductive Ending where
  /-- The list is closed. -/
  | stop
  /-- The next item follows. -/
  | next
  /-- What is no list follows behind a point. -/
  | point

/-- The text that a tail begins with. -/
def Ending.chars : Ending → List Char
  | .stop => [')']
  | .next => [' ']
  | .point => [' ', '.', ' ']

/-- What a tail begins with, and what stands behind. -/
inductive TailLayout : Term → Ending → List Char → Prop
  | nil (i : Identity) : TailLayout (.constant ⟨.plain .unit, i⟩) .stop []
  | cons {car cdr : Term} : Plain car → Plain cdr →
      TailLayout (cons car cdr) .next ((whole car).chars ++ (tail cdr).chars)
  | other {t : Term} : t.cons? = none → t.isNil = false →
      TailLayout t .point ((whole t).chars ++ [')'])

variable {e e' : Ending}

theorem Plain.of_cons (h : Plain (cons car cdr)) : Plain car ∧ Plain cdr := by
  cases h with
  | compound _ hts => exact ⟨hts _ (by simp), hts _ (by simp)⟩

theorem Plain.exists_tailLayout (h : Plain t) : ∃ e l, TailLayout t e l := by
  cases hcell : t.cons? with
  | some p =>
    obtain rfl := eq_cons_of_cons? hcell
    exact ⟨_, _, .cons h.of_cons.1 h.of_cons.2⟩
  | none =>
    cases hnil : t.isNil with
    | false => exact ⟨_, _, .other hcell hnil⟩
    | true =>
      cases h with
      | nil i => exact ⟨_, _, .nil i⟩
      | _ => simp [isNil, value?, Value.plain] at hnil

theorem TailLayout.chars_eq (h : TailLayout t e l) : (tail t).chars = e.chars ++ l := by
  cases h with
  | nil i => exact chars_tail_nil (by simp [isNil, value?])
  | cons => exact chars_tail_cons
  | other hcell hnil => exact chars_tail_other hcell hnil

theorem TailLayout.read (h : TailLayout t e l) (h' : TailLayout u e' l')
    (heq : (tail t).chars ++ r = (tail u).chars ++ s) : e = e' ∧ l ++ r = l' ++ s := by
  have hpoint : ∀ {car : Term}, Plain car → ∀ a b, (whole car).chars ++ a ≠ '.' :: b := by
    intro car hcar a b
    obtain ⟨c, l, hc, hne, -⟩ := hcar.exists_chars
    simp [hc, hne]
  rw [h.chars_eq, h'.chars_eq, List.append_assoc, List.append_assoc] at heq
  cases h with
  | nil i => cases h' <;> simp_all [Ending.chars]
  | cons hcar _ =>
    cases h' with
    | nil i => simp [Ending.chars] at heq
    | cons => exact ⟨rfl, (List.cons.inj heq).2⟩
    | other => simp [Ending.chars, hpoint hcar] at heq
  | other =>
    cases h' with
    | nil i => simp [Ending.chars] at heq
    | cons hcar _ =>
      have heq := (List.cons.inj heq).2.symm
      rw [List.append_assoc] at heq
      exact absurd heq (hpoint hcar _ _)
    | other => exact ⟨rfl, by simpa [Ending.chars] using heq⟩

theorem Plain.closed_tail (h : Plain t) (r : List Char) : Closed ((tail t).chars ++ r) := by
  obtain ⟨e, l, ht⟩ := h.exists_tailLayout
  rw [ht.chars_eq]
  cases e <;> simp [Closed, closer, Ending.chars]

/-! ### Reading a term -/

/-- The text of a term determines the term, and where it ends in a longer text. -/
def Determined (t : Term) : Prop :=
  ∀ u r s, Plain u → Closed r → Closed s → (whole t).chars ++ r = (whole u).chars ++ s →
    Alike t u ∧ r = s

/-- The text of a tail determines the tail, and where it ends in a longer text. -/
def TailDetermined (t : Term) : Prop :=
  ∀ u r s, Plain u → (tail t).chars ++ r = (tail u).chars ++ s → Alike t u ∧ r = s

theorem closed_others (ts : List Term) (r : List Char) : Closed ((others ts).chars ++ r) := by
  cases ts <;> simp [Closed, closer]

theorem others_determined (hts : ∀ t ∈ ts, Determined t) (hus : ∀ u ∈ us, Plain u)
    (h : (others ts).chars ++ r = (others us).chars ++ s) : List.Forall₂ Alike ts us ∧ r = s := by
  induction ts generalizing us with
  | nil =>
    cases us with
    | nil => simpa using h
    | cons u us => simp at h
  | cons t ts ih =>
    cases us with
    | nil => simp at h
    | cons u us =>
      simp only [chars_others_cons, List.cons_append, List.cons.injEq, true_and,
        List.append_assoc] at h
      obtain ⟨ht, hts⟩ := List.forall_mem_cons.1 hts
      obtain ⟨hu, hus⟩ := List.forall_mem_cons.1 hus
      obtain ⟨htu, h⟩ := ht u _ _ hu (closed_others ts r) (closed_others us s) h
      obtain ⟨hall, h⟩ := ih hts hus h
      exact ⟨.cons htu hall, h⟩

theorem row_determined (hts : ∀ t ∈ ts, Plain t) (hts' : ∀ t ∈ ts, Determined t)
    (hus : ∀ u ∈ us, Plain u) (h : row ts ++ r = row us ++ s) :
    List.Forall₂ Alike ts us ∧ r = s := by
  cases ts with
  | nil =>
    cases us with
    | nil => simpa [row] using h
    | cons u us =>
      obtain ⟨c, l, hc, -, hne⟩ := (hus u List.mem_cons_self).exists_chars
      simp [row, hc, hne.symm] at h
  | cons t ts =>
    cases us with
    | nil =>
      obtain ⟨c, l, hc, -, hne⟩ := (hts t List.mem_cons_self).exists_chars
      simp [row, hc, hne] at h
    | cons u us =>
      rw [row, row, List.append_assoc, List.append_assoc] at h
      obtain ⟨ht, hts'⟩ := List.forall_mem_cons.1 hts'
      obtain ⟨hu, hus⟩ := List.forall_mem_cons.1 hus
      obtain ⟨htu, h⟩ := ht u _ _ hu (closed_others ts r) (closed_others us s) h
      obtain ⟨hall, h⟩ := others_determined hts' hus h
      exact ⟨.cons htu hall, h⟩

theorem alike_nil (i i' : Identity) :
    Alike (.constant ⟨.plain .unit, i⟩) (.constant ⟨.plain .unit, i'⟩) := by
  simp [Constant.eqv, Value.eqv, Value.plain, Scalar.eqv]

/-- What stands in the brackets of a list cell, or behind it in a list, determines it. -/
theorem cons_determined {car' cdr' : Term} (hcar : Determined car) (htail : TailDetermined cdr)
    (hcdr : Plain cdr) (hcar' : Plain car') (hcdr' : Plain cdr')
    (h : (whole car).chars ++ (tail cdr).chars ++ r =
      (whole car').chars ++ (tail cdr').chars ++ s) :
    Alike (cons car cdr) (cons car' cdr') ∧ r = s := by
  rw [List.append_assoc, List.append_assoc] at h
  obtain ⟨halike, h⟩ := hcar car' _ _ hcar' (hcdr.closed_tail r) (hcdr'.closed_tail s) h
  obtain ⟨halike', h⟩ := htail cdr' _ _ hcdr' h
  exact ⟨by simp [cons, halike, halike'], h⟩

/-- A term whose children are determined by their texts is determined by its own. -/
theorem Plain.determined_of_children (h : Plain t)
    (ih : ∀ shape ts, t = .compound shape ts → ∀ c ∈ ts, Determined c ∧ TailDetermined c) :
    Determined t := by
  intro u r s hu hr hs heq
  obtain ⟨k, w, l, ht⟩ := h.exists_layout
  obtain ⟨k', w', l', hu⟩ := hu.exists_layout
  obtain ⟨rfl, hw, hl⟩ := ht.read hu hr hs heq
  cases ht with
  | named =>
    cases hu with
    | named => exact ⟨by simpa [String.toList_inj] using hw, hl⟩
  | fresh id =>
    cases hu with
    | fresh id' =>
      rw [List.cons.injEq, List.cons.injEq, String.toList_inj, Nat.repr_inj] at hw
      exact ⟨by rw [hw.2.2], hl⟩
  | number n i =>
    cases hu with
    | number n' i' =>
      rw [String.toList_inj, Int.repr_inj] at hw
      exact ⟨by simp [hw, Constant.eqv, Value.eqv, Value.plain, Scalar.eqv], hl⟩
  | unassigned =>
    cases hu with
    | unassigned => exact ⟨alike_refl _, hl⟩
  | nil i =>
    cases hu with
    | nil i' => exact ⟨alike_nil i i', by simpa using hl⟩
    | cons hcar hcdr =>
      obtain ⟨c, l, hc, -, hne⟩ := hcar.exists_chars
      simp [hc, hne.symm] at hl
  | cons hcar hcdr =>
    cases hu with
    | nil i =>
      obtain ⟨c, l, hc, -, hne⟩ := hcar.exists_chars
      simp [hc, hne] at hl
    | cons hcar' hcdr' =>
      have hchildren := ih _ _ rfl
      exact cons_determined (hchildren _ (by simp)).1 (hchildren _ (by simp)).2 hcdr hcar' hcdr' hl
  | compound _ hts _ =>
    cases hu with
    | compound _ hus _ =>
      have hchildren := ih _ _ rfl
      obtain ⟨hall, hrs⟩ := row_determined hts (fun c hc => (hchildren c hc).1) hus hl
      refine ⟨alike_compound.2 ⟨?_, hall⟩, hrs⟩
      rwa [String.toList_inj, ← Shape.mk.injEq] at hw

/-- A tail is determined by its text if its children are, and as a term it is. -/
theorem Plain.tailDetermined_of_children (h : Plain t) (ht : Determined t)
    (ih : ∀ shape ts, t = .compound shape ts → ∀ c ∈ ts, Determined c ∧ TailDetermined c) :
    TailDetermined t := by
  intro u r s hu heq
  obtain ⟨e, l, htail⟩ := h.exists_tailLayout
  obtain ⟨e', l', htail'⟩ := hu.exists_tailLayout
  obtain ⟨rfl, hl⟩ := htail.read htail' heq
  cases htail with
  | nil i =>
    cases htail' with
    | nil i' => exact ⟨alike_nil i i', hl⟩
  | cons _ hcdr =>
    cases htail' with
    | cons hcar' hcdr' =>
      have hchildren := ih _ _ rfl
      exact cons_determined (hchildren _ (by simp)).1 (hchildren _ (by simp)).2 hcdr hcar' hcdr' hl
  | other _ _ =>
    cases htail' with
    | other _ _ =>
      rw [List.append_assoc, List.append_assoc] at hl
      obtain ⟨htu, hl⟩ := ht u _ _ hu (by simp [Closed, closer]) (by simp [Closed, closer]) hl
      exact ⟨htu, by simpa using hl⟩

/-- By induction over the tree, a text determines the term and the tail that it was written for. -/
theorem Plain.determined (h : Plain t) : Determined t ∧ TailDetermined t := by
  induction t with
  | compound shape ts ih =>
    have hchildren : ∀ shape' ts', Term.compound shape ts = .compound shape' ts' →
        ∀ c ∈ ts', Determined c ∧ TailDetermined c := by
      rintro _ _ ⟨⟩ c hc
      cases h with
      | compound _ hts => exact ih c hc (hts c hc)
    have hd := h.determined_of_children hchildren
    exact ⟨hd, h.tailDetermined_of_children hd hchildren⟩
  | _ =>
    have hd := h.determined_of_children nofun
    exact ⟨hd, h.tailDetermined_of_children hd nofun⟩

/-- **A text has one reading**: terms of words, numbers and empty lists that are written alike are
equal, whatever lists, dotted lists and compounds they are made of. -/
theorem Plain.eqv_of_text_eq (ht : Plain t) (hu : Plain u) (h : t.text = u.text) :
    (t == u) = true := by
  have hchars : (whole t).chars ++ [] = (whole u).chars ++ [] := by
    rw [Piece.chars, Piece.chars, ← text, ← text, h]
  have hclosed : Closed [] := by simp [Closed]
  exact eqv_iff_alike.2 (ht.determined.1 u [] [] hu hclosed hclosed hchars).1

/-- A dotted list with a cell-shaped compound of one child in it, made twice. -/
theorem eqv_of_text_eq_dotted :
    let t := fun i : Identity =>
      cons (compound .cons [constant ⟨.plain (.int true (.bits 32) (-7)), i⟩])
        (cons unassigned (cons (var (.fresh 3)) (var (.named "rest"))))
    (t [0]).text = "(cons(-7) _ _.3 . rest)" ∧ (t [1]).text = "(cons(-7) _ _.3 . rest)" ∧
      Plain (t [0]) ∧ Plain (t [1]) ∧ (t [0] == t [1]) = true := by
  intro t
  have hcons : Word Shape.cons.name := ⟨by decide, by simp [Shape.cons]⟩
  have hcell : ∀ {car cdr}, Plain car → Plain cdr → Plain (cons car cdr) := by
    intro car cdr hcar hcdr
    exact .compound hcons (by simp [hcar, hcdr])
  have hplain : ∀ i, Plain (t i) := fun i =>
    hcell (.compound hcons (by simp [Plain.number]))
      (hcell .unassigned (hcell (.fresh 3) (.named ⟨by decide, by simp⟩)))
  have htext : ∀ i, (t i).text = "(cons(-7) _ _.3 . rest)" := by
    intro i
    cbv
  exact ⟨htext _, htext _, hplain _, hplain _,
    (hplain _).eqv_of_text_eq (hplain _) ((htext _).trans (htext _).symm)⟩

end Term

end Relational
