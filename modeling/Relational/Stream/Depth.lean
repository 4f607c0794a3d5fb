import Relational.Stream.Pull

/-!
# Depth

An item of a stream stands at some depth: the number of suspensions that are forced before it is
there.  `Stream.survey` forces a stream suspension by suspension and notes how many stood in front
of each item, counted from the item before it.
-/

namespace Relational

namespace Stream

variable {ι κ ε α : Type}

/-- Why a survey stopped. -/
inductive Stop where
  /-- Enough items were seen. -/
  | enough
  /-- The stream has ended. -/
  | ended
  /-- Too many suspensions stood in front of the next item. -/
  | tooDeep
  deriving DecidableEq

/-- What a survey found. -/
structure Survey (ι κ α : Type) where
  /-- The items, each with the number of suspensions between it and the item before it. -/
  items : Array (Nat × α)
  /-- Why the survey stopped there. -/
  stop : Stop
  /-- The stream behind what was looked at. -/
  rest : Stream ι κ α

/-- Survey the next `count` items, when `patience` suspensions may still be forced in front of the
next one and `limit` in front of each item behind it. -/
def surveyFrom (rules : Rules ι κ ε α) (limit count patience : Nat) (items : Array (Nat × α))
    (reported : Array ε) (s : Stream ι κ α) : Logged ε (Survey ι κ α) :=
  match count with
  | 0 => ⟨⟨items, .enough, s⟩, reported⟩
  | count + 1 =>
    match s.front with
    | .item x s => surveyFrom rules limit count limit (items.push (limit - patience, x)) reported s
    | .ended => ⟨⟨items, .ended, s⟩, reported⟩
    | .suspended s =>
      match patience with
      | 0 => ⟨⟨items, .tooDeep, s⟩, reported⟩
      | patience + 1 =>
        let next := s.realize rules 1
        surveyFrom rules limit (count + 1) patience items (reported ++ next.events) next.value
  termination_by (count, patience)

/-- Look at `count` items, and give up where more than `limit` suspensions stand in front of
one. -/
def survey (rules : Rules ι κ ε α) (count limit : Nat) (s : Stream ι κ α) :
    Logged ε (Survey ι κ α) :=
  surveyFrom rules limit count limit #[] #[] s

end Stream

end Relational
