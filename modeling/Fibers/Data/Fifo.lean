/-!
# First-in first-out lists

A list read at one end and written at the other, kept as two lists so that both
ends are cheap.  `Fifo.toList` is what it stands for, oldest element first, and
every operation is described by what it does to that list.

## Main definitions

* `Fifo`, `Fifo.toList`.
* `Fifo.push`, `Fifo.pop?`, `Fifo.filter`, `Fifo.length`.

## Main results

* `Fifo.toList_push`, `Fifo.toList_filter`, `Fifo.length_eq` — each operation on
  the list it stands for.
* `Fifo.pop?_eq_none_iff`, `Fifo.toList_of_pop?` — taking takes the head.
-/

namespace Fibers

/-- A list written at its end and read at its head. -/
structure Fifo (α : Type) where
  /-- The oldest elements, oldest first. -/
  front : List α := []
  /-- The youngest elements, youngest first. -/
  back : List α := []
  deriving Inhabited

namespace Fifo

variable {α : Type}

/-- The elements, oldest first. -/
def toList (q : Fifo α) : List α := q.front ++ q.back.reverse

/-- No elements. -/
def empty : Fifo α := {}

/-- The given elements, oldest first. -/
def ofList (items : List α) : Fifo α := { front := items }

/-- Whether there are no elements. -/
def isEmpty (q : Fifo α) : Bool := q.front.isEmpty && q.back.isEmpty

/-- The number of elements. -/
def length (q : Fifo α) : Nat := q.front.length + q.back.length

/-- Adds an element as the youngest. -/
def push (q : Fifo α) (a : α) : Fifo α := { q with back := a :: q.back }

/-- The oldest element and the others. -/
def pop? (q : Fifo α) : Option (α × Fifo α) :=
  match q.front with
  | a :: front => some (a, { q with front := front })
  | [] =>
    match q.back.reverse with
    | a :: front => some (a, ⟨front, []⟩)
    | [] => none

/-- Keeps the elements that pass the test. -/
def filter (p : α → Bool) (q : Fifo α) : Fifo α := ⟨q.front.filter p, q.back.filter p⟩

@[simp] theorem toList_empty : (empty : Fifo α).toList = [] := rfl

@[simp] theorem toList_ofList (items : List α) : (ofList items).toList = items := by
  simp [ofList, toList]

@[simp] theorem toList_push (q : Fifo α) (a : α) : (q.push a).toList = q.toList ++ [a] := by
  simp [push, toList]

@[simp] theorem toList_filter (p : α → Bool) (q : Fifo α) :
    (q.filter p).toList = q.toList.filter p := by
  simp [filter, toList]

theorem length_eq (q : Fifo α) : q.length = q.toList.length := by
  simp [length, toList]

theorem isEmpty_iff (q : Fifo α) : q.isEmpty = true ↔ q.toList = [] := by
  simp [isEmpty, toList]

theorem pop?_eq_none_iff (q : Fifo α) : q.pop? = none ↔ q.toList = [] := by
  cases q with
  | mk front back =>
    cases front with
    | cons a front => simp [pop?, toList]
    | nil => cases h : back.reverse <;> simp_all [pop?, toList]

/-- Taking an element takes the head of the list. -/
theorem toList_of_pop? {q rest : Fifo α} {a : α} (h : q.pop? = some (a, rest)) :
    q.toList = a :: rest.toList := by
  cases q with
  | mk front back =>
    cases front with
    | cons b front =>
      simp only [pop?, Option.some.injEq, Prod.mk.injEq] at h
      obtain ⟨rfl, rfl⟩ := h
      simp [toList]
    | nil =>
      cases hb : back.reverse with
      | nil => simp [pop?, hb] at h
      | cons b front =>
        simp only [pop?, hb, Option.some.injEq, Prod.mk.injEq] at h
        obtain ⟨rfl, rfl⟩ := h
        simp [toList, hb]

end Fifo

end Fibers
