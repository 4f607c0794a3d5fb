import Relational.Logged

/-!
# Streams

A stream is a lazy sequence that may go on for ever.  It is a chain of cells with an item each; the
chain ends, or it comes to a *suspension*, work that yields the rest of the stream when it is
forced.  How often a suspension is forced can be observed, so it is a part of what a stream is.

A suspension is data: a seed from which a stream unfolds, and what is to be done with the stream
that comes out of it.  What a seed unfolds to, and what a continuation makes of an item, is said by
`Stream.Rules`; in this way a stream that never ends is a finite value, and forcing it once is a
total function.

* `Stream.merge` alternates between two streams: whoever was suspended goes behind the other.
* `Stream.bindWith` replaces every item by a stream of its own.
* `Suspension.force` forces a suspension.

A chain can be long, so merging and binding go along it in a loop: they put the items they meet on a
pile, see what stands at the end of the chain, and take the items off the pile again.
-/

namespace Relational

mutual

/-- A lazy sequence of items of type `α`, made of seeds of type `ι` and continuations of type
`κ`. -/
inductive Stream (ι κ α : Type) where
  /-- No items. -/
  | empty
  /-- An item in front of a stream. -/
  | cons (head : α) (tail : Stream ι κ α)
  /-- What a suspension yields; nothing is there before it is forced. -/
  | suspend (p : Suspension ι κ α)

/-- Work that yields a stream. -/
inductive Suspension (ι κ α : Type) where
  /-- Unfold a seed. -/
  | unfold (seed : ι)
  /-- Hand over a stream. -/
  | yield (stream : Stream ι κ α)
  /-- Force `turn`, and merge what it yields behind `other`. -/
  | swap (other : Stream ι κ α) (turn : Suspension ι κ α)
  /-- Force `source`, and go on with every item of what it yields. -/
  | bind (source : Suspension ι κ α) (continuation : κ)

end

namespace Stream

variable {ι κ ε α : Type} {m : Type → Type}

instance : Inhabited (Stream ι κ α) := ⟨empty⟩

/-- The items of a pile in front of a stream; the one on top comes last. -/
def prepend (pile : List α) (s : Stream ι κ α) : Stream ι κ α := pile.foldl (fun d x => cons x d) s

/-- The stream of the given items. -/
def ofList (xs : List α) : Stream ι κ α := prepend xs.reverse empty

/-- The stream of one item. -/
def single (x : α) : Stream ι κ α := cons x empty

/-- Whether a stream has ended. -/
def isEmpty : Stream ι κ α → Bool
  | empty => true
  | _ => false

/-- Whether a stream shows nothing before it is forced. -/
def isSuspended : Stream ι κ α → Bool
  | suspend _ => true
  | _ => false

/-- Put the items of the chain on the pile.  Where the chain ends, `other` takes its place; where it
is suspended, the suspension goes behind `other`. -/
def mergeFrom (other : Stream ι κ α) : List α → Stream ι κ α → Stream ι κ α
  | pile, empty => prepend pile other
  | pile, cons x d => mergeFrom other (x :: pile) d
  | pile, suspend p => prepend pile (suspend (.swap other p))

/-- The items of both streams: those that are there in `a` first, then `b` and what is left of `a`
taking turns. -/
def merge (a b : Stream ι κ α) : Stream ι κ α := mergeFrom b [] a

/-- Take the items off the pile, and merge what `f` makes of each with what came of those above
it. -/
def expandPile [Monad m] (f : α → m (Stream ι κ α)) : List α → Stream ι κ α → m (Stream ι κ α)
  | [], others => pure others
  | x :: pile, others => do
    let items ← f x
    expandPile f pile (items.merge others)

/-- Put the items of the chain on the pile, and go on with `continuation` behind a suspension at the
end; then expand the pile. -/
def bindFrom [Monad m] (continuation : κ) (f : α → m (Stream ι κ α)) :
    List α → Stream ι κ α → m (Stream ι κ α)
  | pile, empty => expandPile f pile empty
  | pile, cons x d => bindFrom continuation f (x :: pile) d
  | pile, suspend p => expandPile f pile (suspend (.bind p continuation))

/-- The streams that `f` makes of the items that are there, merged with what `continuation` will
make of the others.  The last item is looked at first. -/
def bindM [Monad m] (continuation : κ) (f : α → m (Stream ι κ α)) (s : Stream ι κ α) :
    m (Stream ι κ α) :=
  bindFrom continuation f [] s

/-- The streams that `f` makes of the items, with all that `f` reports. -/
def bindWith (continuation : κ) (f : α → Logged ε (Stream ι κ α)) (s : Stream ι κ α) :
    Logged ε (Stream ι κ α) :=
  Logged.gather (s.bindM continuation fun x => (f x).append)

/-- What seeds unfold to, and what continuations make of items. -/
structure Rules (ι κ ε α : Type) where
  /-- The stream of a seed. -/
  unfold : ι → Logged ε (Stream ι κ α)
  /-- The stream by which a continuation replaces an item. -/
  expand : κ → α → Logged ε (Stream ι κ α)

/-- Replace every item by the stream that `continuation` makes of it. -/
def bind (rules : Rules ι κ ε α) (s : Stream ι κ α) (continuation : κ) :
    Logged ε (Stream ι κ α) :=
  s.bindWith continuation (rules.expand continuation)

/-- Two streams are equal when they have equal items and have both ended.  A stream behind a
suspension is equal to none, not even to itself. -/
def eqv [BEq α] : Stream ι κ α → Stream ι κ α → Bool
  | empty, empty => true
  | cons x a, cons y b => x == y && eqv a b
  | _, _ => false

instance [BEq α] : BEq (Stream ι κ α) := ⟨eqv⟩

/-- How the stream behind an item is written, with `written` being what stands in front. -/
def tailText [ToString α] (written : String) : Stream ι κ α → String
  | empty => written ++ ")"
  | cons x s => tailText (written ++ " " ++ toString x) s
  | suspend _ => written ++ " ...)"

/-- How a stream is written: the items that are there, and dots for a suspension. -/
def text [ToString α] : Stream ι κ α → String
  | empty => "()"
  | cons x s => tailText ("(" ++ toString x) s
  | suspend _ => "(...)"

end Stream

/-- Force a suspension. -/
def Suspension.force {ι κ ε α : Type} (rules : Stream.Rules ι κ ε α) :
    Suspension ι κ α → Logged ε (Stream ι κ α)
  | .unfold seed => rules.unfold seed
  | .yield s => pure s
  | .swap other turn => do
    let s ← turn.force rules
    return other.merge s
  | .bind source continuation => do
    let s ← source.force rules
    s.bind rules continuation

end Relational
