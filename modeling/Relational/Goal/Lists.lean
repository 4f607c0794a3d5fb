import Relational.Goal.Combinators

/-!
# Relations about lists

* `conso a d p` : `p` is the list cell with head `a` and tail `d`.
* `caro p a`, `cdro p d` : the head of `p` is `a`, its tail is `d`.
* `nullo x` : `x` is the empty list.
* `pairo p` : `p` is a list cell.
* `membero x l` : `x` is an item of `l`.
* `appendo l t out` : `out` is `l` followed by `t`.
-/

namespace Relational

namespace Lists

open Pattern (param cons nil)

/-- A list cell by its head and tail. -/
def conso : Relation where
  name := "conso"
  params := ["a", "d", "p"]
  body := .eq (cons (param "a") (param "d")) (param "p")

/-- The head of a list cell. -/
def caro : Relation where
  name := "caro"
  params := ["p", "a"]
  body := .fresh "d" (.eq (cons (param "a") (param "d")) (param "p"))

/-- The tail of a list cell. -/
def cdro : Relation where
  name := "cdro"
  params := ["p", "d"]
  body := .fresh "a" (.eq (cons (param "a") (param "d")) (param "p"))

/-- The empty list. -/
def nullo : Relation where
  name := "nullo"
  params := ["x"]
  body := .eq (param "x") nil

/-- A list cell. -/
def pairo : Relation where
  name := "pairo"
  params := ["p"]
  body := .freshAll ["a", "d"] [.call "conso" [param "a", param "d", param "p"]]

/-- An item of a list: its head, or an item of its tail. -/
def membero : Relation where
  name := "membero"
  params := ["x", "l"]
  body := .conde [
    [.call "caro" [param "l", param "x"]],
    [.freshAll ["d"] [
      .call "cdro" [param "l", param "d"],
      .call "membero" [param "x", param "d"]]]]

/-- Two lists one behind the other: the second one alone, or a cell in front of the rest. -/
def appendo : Relation where
  name := "appendo"
  params := ["l", "t", "out"]
  body := .conde [
    [.call "nullo" [param "l"], .eq (param "t") (param "out")],
    [.freshAll ["a", "d", "res"] [
      .call "conso" [param "a", param "d", param "l"],
      .call "conso" [param "a", param "res", param "out"],
      .call "appendo" [param "d", param "t", param "res"]]]]

/-- The relations about lists. -/
def relations : List Relation := [conso, caro, cdro, nullo, pairo, membero, appendo]

end Lists

namespace Program

/-- The program of some relations; of several with one name the first one counts. -/
def ofList (relations : List Relation) : Program := fun name => relations.find? (·.name == name)

/-- The program of the relations about lists. -/
def lists : Program := ofList Lists.relations

end Program

end Relational
