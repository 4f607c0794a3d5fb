import Relational.Term.Basic

/-!
# How terms are written

A variable by its name, a constant by its value, a free variable of an answer as `_`, a compound as
`shape(a, b)`.  A list cell opens a list, `(a b c)`, which runs on along the tails for as long as
they are cells and shows its end behind a point, `(a b . c)`, unless it is the empty list.
-/

namespace Relational

namespace Term

/-- What is still to be written. -/
inductive Piece where
  /-- Text as it stands. -/
  | text (s : String)
  /-- A term. -/
  | whole (t : Term)
  /-- The tail of a list whose opening bracket and first item are written. -/
  | tail (t : Term)
  /-- The children of a compound behind the first one. -/
  | others (ts : List Term)

namespace Piece

/-- Bounds the pieces that a piece is taken apart into. -/
def weight : Piece → Nat
  | .text _ => 1
  | .whole t => 2 * t.weight - 1
  | .tail t => 2 * t.weight + 1
  | .others ts => 2 * weights ts + 1

/-- The weight of a row of pieces. -/
def total (ps : List Piece) : Nat := ps.foldr (fun p rest => p.weight + rest) 0

@[simp] theorem total_nil : total [] = 0 := rfl

@[simp] theorem total_cons (p : Piece) (ps : List Piece) : total (p :: ps) = p.weight + total ps :=
  rfl

end Piece

/-- Write the pieces behind `out`. -/
def write (out : String) : List Piece → String
  | [] => out
  | .text s :: ps => write (out ++ s) ps
  | .whole (.var x) :: ps => write (out ++ x.text) ps
  | .whole (.constant c) :: ps => write (out ++ c.shown) ps
  | .whole .unassigned :: ps => write (out ++ "_") ps
  | .whole (.compound shape []) :: ps => write (out ++ shape.name ++ "()") ps
  | .whole (.compound shape [car, cdr]) :: ps =>
    if shape = .cons then write (out ++ "(") (.whole car :: .tail cdr :: ps)
    else write (out ++ shape.name ++ "(") (.whole car :: .others [cdr] :: ps)
  | .whole (.compound shape (t :: ts)) :: ps =>
    write (out ++ shape.name ++ "(") (.whole t :: .others ts :: ps)
  | .tail t :: ps =>
    match t with
    | .compound shape [car, cdr] =>
      if shape = .cons then write (out ++ " ") (.whole car :: .tail cdr :: ps)
      else write (out ++ " . ") (.whole (.compound shape [car, cdr]) :: .text ")" :: ps)
    | t => if t.isNil then write (out ++ ")") ps
      else write (out ++ " . ") (.whole t :: .text ")" :: ps)
  | .others [] :: ps => write (out ++ ")") ps
  | .others (t :: ts) :: ps => write (out ++ ", ") (.whole t :: .others ts :: ps)
  termination_by ps => Piece.total ps
  decreasing_by
    all_goals simp [Piece.weight, Term.weight]
    all_goals grind [weight_pos]

/-- How a term is written. -/
def text (t : Term) : String := write "" [.whole t]

instance : ToString Term := ⟨text⟩

end Term

end Relational
