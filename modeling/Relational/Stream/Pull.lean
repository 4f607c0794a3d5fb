import Relational.Stream.Basic

/-!
# Consuming streams

Items are pulled from a stream one at a time, and only what stands in front of the next item is
forced.  A stream may suspend for ever, so a pull is given a limit on the suspensions it forces
(`Stream.realize`); when the limit is met, what is left of the stream is handed back as it stands,
and pulling may be taken up again from there.
-/

namespace Relational

namespace Stream

variable {ι κ ε α : Type}

/-- Force at most `limit` suspensions, until a head is there or the stream has ended.  The reports
of the suspensions are gathered behind `reported`. -/
def realizeFrom (rules : Rules ι κ ε α) :
    Nat → Array ε → Stream ι κ α → Logged ε (Stream ι κ α)
  | limit + 1, reported, suspend p =>
    let next := p.force rules
    realizeFrom rules limit (reported ++ next.events) next.value
  | _, reported, s => ⟨s, reported⟩

/-- Force at most `limit` suspensions, until a head is there or the stream has ended.  What comes
back is suspended exactly when the limit was too low. -/
def realize (rules : Rules ι κ ε α) (limit : Nat) (s : Stream ι κ α) :
    Logged ε (Stream ι κ α) :=
  realizeFrom rules limit #[] s

/-- What comes of pulling an item. -/
inductive Pulled (ι κ α : Type) where
  /-- The next item, and the stream behind it. -/
  | item (head : α) (tail : Stream ι κ α)
  /-- There are no more items. -/
  | ended
  /-- The limit was met; the stream is left suspended. -/
  | suspended (rest : Stream ι κ α)

/-- Look at a stream without forcing anything. -/
def front : Stream ι κ α → Pulled ι κ α
  | cons x s => .item x s
  | empty => .ended
  | suspend p => .suspended (suspend p)

/-- Pull the next item, forcing at most `limit` suspensions. -/
def pull (rules : Rules ι κ ε α) (limit : Nat) (s : Stream ι κ α) : Logged ε (Pulled ι κ α) :=
  let realized := s.realize rules limit
  ⟨realized.value.front, realized.events⟩

/-- Pull items until `n` are there or the stream has ended, forcing at most `limit` suspensions for
each; `taken` holds the items pulled so far, the last one first, and `reported` what was reported.
The stream that is left is suspended if a limit was met, and otherwise not needed any more. -/
def takeFrom (rules : Rules ι κ ε α) (limit : Nat) :
    Nat → List α → Array ε → Stream ι κ α → Logged ε (List α × Stream ι κ α)
  | 0, taken, reported, s => ⟨(taken.reverse, s), reported⟩
  | n + 1, taken, reported, s =>
    let pulled := s.pull rules limit
    match pulled.value with
    | .item x s => takeFrom rules limit n (x :: taken) (reported ++ pulled.events) s
    | .ended => ⟨(taken.reverse, empty), reported ++ pulled.events⟩
    | .suspended s => ⟨(taken.reverse, s), reported ++ pulled.events⟩

/-- The first `n` items, with what is left of the stream. -/
def splitAt (rules : Rules ι κ ε α) (limit n : Nat) (s : Stream ι κ α) :
    Logged ε (List α × Stream ι κ α) :=
  takeFrom rules limit n [] #[] s

/-- The stream of the first `n` items, which has no suspensions left; none if a limit was met before
they were there. -/
def take (rules : Rules ι κ ε α) (limit n : Nat) (s : Stream ι κ α) :
    Logged ε (Option (Stream ι κ α)) := do
  let (items, left) ← s.splitAt rules limit n
  return if items.length < n && left.isSuspended then none else some (ofList items)

end Stream

end Relational
