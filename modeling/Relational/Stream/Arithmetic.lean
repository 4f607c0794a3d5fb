import Std.Data.TreeMap.Basic
import Relational.Stream.Pull

/-!
# Streams of whole numbers

A small language of streams of whole numbers, with endless ones among them.  An expression is
evaluated for an *item*, the number that an enclosing `bind` looks at; a number in an expression is
a linear form of the item.

What stands behind a suspension is evaluated when the suspension is forced, and not before: the
seeds of the streams are expressions, and a seed unfolds by being evaluated.  So an expression may
stand there whose evaluation would take for ever.

Streams may be kept under names on a *shelf*.  An expression takes a stream away from there when it
is evaluated, and whoever evaluates it next finds nothing under that name.
-/

namespace Relational

/-- A whole number computed from the item. -/
inductive Linear where
  /-- A number. -/
  | number (n : Int)
  /-- The item times one number plus another. -/
  | ofItem (factor offset : Linear)
  deriving Inhabited

/-- The value of a linear form. -/
def Linear.eval (item : Int) : Linear → Int
  | .number n => n
  | .ofItem factor offset => item * factor.eval item + offset.eval item

/-- An expression for a stream of whole numbers. -/
inductive Sequence where
  | empty
  | cons (head : Linear) (tail : Sequence)
  /-- The given numbers. -/
  | items (xs : List Linear)
  /-- The numbers from `lo` up to, but without, `hi`. -/
  | range (lo hi : Linear)
  /-- A stream behind some suspensions. -/
  | suspended (times : Nat) (s : Sequence)
  /-- A suspension in front of `start`, a suspension in front of `start + 1`, and so on. -/
  | naturals (start : Linear)
  /-- A suspension in front of `x`, again and again. -/
  | forever (x : Linear)
  /-- One suspension behind the other. -/
  | never
  | merge (a b : Sequence)
  | bind (s each : Sequence)
  /-- The first items of a stream. -/
  | take (s : Sequence) (n : Nat)
  /-- One of two streams, as the item leaves the given remainder or not. -/
  | ifRemainder (modulus remainder : Linear) (yes no : Sequence)
  /-- The stream that is kept under a name. -/
  | named (name : String)
  deriving Inhabited

/-- A stream of whole numbers. -/
abbrev IntStream := Stream (Sequence × Int) Sequence Int

/-- Streams that are kept under names. -/
structure Shelf where
  streams : Std.TreeMap String IntStream

namespace Shelf

/-- The shelf without streams. -/
def empty : Shelf := ⟨∅⟩

instance : Inhabited Shelf := ⟨empty⟩

/-- The stream under a name; the one without items if nothing is kept there. -/
def get (shelf : Shelf) (name : String) : IntStream := shelf.streams.getD name .empty

/-- Keep a stream under a name, in place of what was kept there. -/
def put (shelf : Shelf) (name : String) (s : IntStream) : Shelf := ⟨shelf.streams.insert name s⟩

/-- Take away what is kept under a name. -/
def erase (shelf : Shelf) (name : String) : Shelf := ⟨shelf.streams.erase name⟩

/-- Take away what is kept under any of the names. -/
def without (shelf : Shelf) (names : Array String) : Shelf := names.foldl erase shelf

/-- The names under which `rest` does not keep a stream any more. -/
def missing (shelf rest : Shelf) : Array String :=
  shelf.streams.keysArray.filter fun name => !rest.streams.contains name

/-- Do work that takes streams from a shelf, and report the names of those that it took.  The shelf
itself stays as it is. -/
def lend {α : Type} (shelf : Shelf) (work : StateM Shelf α) : Logged String α :=
  let (a, rest) := work.run shelf
  ⟨a, shelf.missing rest⟩

/-- How the streams of expressions unfold in front of a shelf, when `eval` says what an expression
is for an item.  The names of the streams that are taken from the shelf are reported. -/
def rules (shelf : Shelf) (eval : Sequence → Int → StateM Shelf IntStream) :
    Stream.Rules (Sequence × Int) Sequence String Int :=
  ⟨fun (s, item) => shelf.lend (eval s item), fun each item => shelf.lend (eval each item)⟩

end Shelf

namespace Sequence

/-- The stream of an expression, with the streams that it names being taken from the shelf.  Taking
a prefix of a stream forces its suspensions; `effort` bounds how many for each item, and how deeply
a prefix may be taken inside of what a prefix is taken of.  A prefix that lacks effort is empty. -/
def eval : Nat → Sequence → Int → StateM Shelf IntStream
  | _, .empty, _ => return .empty
  | effort, .cons head tail, item => return .cons (head.eval item) (← eval effort tail item)
  | _, .items xs, item => return .ofList (xs.map (Linear.eval item))
  | _, .range lo hi, item =>
    let lo := lo.eval item
    return .ofList ((List.range (hi.eval item - lo).toNat).map fun i => lo + Int.ofNat i)
  | effort, .suspended 0 s, item => eval effort s item
  | _, .suspended (times + 1) s, item => return .suspend (.unfold (.suspended times s, item))
  | _, .naturals start, item =>
    let n := start.eval item
    return .suspend (.unfold (.cons (.number n) (.naturals (.number (n + 1))), item))
  | _, .forever x, item => return .suspend (.unfold (.cons x (.forever x), item))
  | _, .never, item => return .suspend (.unfold (.never, item))
  | effort, .merge a b, item => return (← eval effort a item).merge (← eval effort b item)
  | effort, .bind s each, item => do
    let s ← eval effort s item
    s.bindM each fun x => eval effort each x
  | 0, .take _ _, _ => return .empty
  | effort + 1, .take s n, item => do
    let s ← eval effort s item
    let shelf ← get
    let taken := s.take (shelf.rules fun s item => eval effort s item) effort n
    set (shelf.without taken.events)
    return taken.value.getD .empty
  | effort, .ifRemainder modulus remainder yes no, item =>
    if item % modulus.eval item = remainder.eval item then eval effort yes item
    else eval effort no item
  | _, .named name, _ => do
    let shelf ← get
    set (shelf.erase name)
    return shelf.get name
  termination_by effort s => (effort, sizeOf s)

end Sequence

end Relational
