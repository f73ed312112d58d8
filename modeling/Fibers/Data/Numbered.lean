/-!
# Numbered entries

A table whose entries get consecutive numbers in the order in which they are
added, starting from a given first number.  Entries are changed in place and
never removed, so a number keeps its meaning for good.

## Main definitions

* `Numbered`, `Numbered.next`, `Numbered.get?`.
* `Numbered.push`, `Numbered.modify`, `Numbered.map`.

## Main results

* `Numbered.get?_push`, `Numbered.get?_modify` — what is found afterwards.
* `Numbered.entries_of_get?` — an entry among the others.
-/

namespace Fibers

/-- Entries numbered from `first` on. -/
structure Numbered (α : Type) where
  /-- The number of the first entry. -/
  first : Nat := 0
  /-- The entries in the order of their numbers. -/
  entries : Array α := #[]
  deriving Inhabited

namespace Numbered

variable {α : Type}

/-- No entries yet. -/
def startingAt (first : Nat) : Numbered α := { first }

/-- The number the next entry will get. -/
def next (t : Numbered α) : Nat := t.first + t.entries.size

/-- The entry with the given number. -/
def get? (t : Numbered α) (n : Nat) : Option α :=
  if t.first ≤ n then t.entries[n - t.first]? else none

/-- Adds an entry under the next number. -/
def push (t : Numbered α) (a : α) : Numbered α := { t with entries := t.entries.push a }

/-- Changes the entry with the given number, if there is one. -/
def modify (t : Numbered α) (n : Nat) (f : α → α) : Numbered α :=
  if t.first ≤ n then { t with entries := t.entries.modify (n - t.first) f } else t

/-- Changes all entries. -/
def map {β : Type} (f : α → β) (t : Numbered α) : Numbered β := ⟨t.first, t.entries.map f⟩

/-- The entries with their numbers. -/
def toList (t : Numbered α) : List (Nat × α) :=
  t.entries.toList.zipIdx.map fun e => (t.first + e.2, e.1)

/-- Where an entry stands among the others, and what changing it does to them. -/
theorem entries_of_get? {t : Numbered α} {n : Nat} {a : α} (h : t.get? n = some a) (f : α → α) :
    ∃ before after, t.entries.toList = before ++ a :: after ∧
      (t.modify n f).entries.toList = before ++ f a :: after := by
  unfold get? at h
  split at h
  · next hle =>
    have hlist : t.entries.toList[n - t.first]? = some a := by simpa using h
    obtain ⟨hlt, hget⟩ := List.getElem?_eq_some_iff.mp hlist
    refine ⟨t.entries.toList.take (n - t.first), t.entries.toList.drop (n - t.first + 1), ?_, ?_⟩
    · rw [← hget, List.getElem_cons_drop, List.take_append_drop]
    · simp only [modify, if_pos hle, Array.toList_modify]
      rw [List.modify_eq_take_cons_drop hlt, hget]
  · cases h

theorem get?_push (t : Numbered α) (a : α) (n : Nat) :
    (t.push a).get? n = if n = t.next then some a else t.get? n := by
  unfold get? push next
  by_cases hn : n = t.first + t.entries.size
  · subst hn
    simp
  · by_cases hf : t.first ≤ n
    · simp only [hf, if_true, hn, if_false]
      rw [Array.getElem?_push]
      have : n - t.first ≠ t.entries.size := by omega
      simp [this]
    · simp [hf, hn]

@[simp] theorem get?_next (t : Numbered α) : t.get? t.next = none := by
  simp [get?, next]

@[simp] theorem get?_push_next (t : Numbered α) (a : α) : (t.push a).get? t.next = some a := by
  simp [get?_push]

theorem get?_modify (t : Numbered α) (f : α → α) (m n : Nat) :
    (t.modify m f).get? n = if n = m then (t.get? n).map f else t.get? n := by
  unfold modify get?
  by_cases hm : t.first ≤ m
  · by_cases hn : t.first ≤ n
    · simp only [hm, hn, if_true, Array.getElem?_modify]
      by_cases h : n = m
      · subst h; simp
      · have : m - t.first ≠ n - t.first := by omega
        simp [h, this]
    · have : n ≠ m := by omega
      simp [hm, hn, this]
  · by_cases h : n = m
    · subst h; simp [hm]
    · simp [hm, h]

theorem get?_map {β : Type} (t : Numbered α) (f : α → β) (n : Nat) :
    (t.map f).get? n = (t.get? n).map f := by
  unfold map get?
  by_cases hn : t.first ≤ n <;> simp [hn]

@[simp] theorem next_push (t : Numbered α) (a : α) : (t.push a).next = t.next + 1 := by
  simp [next, push, Nat.add_assoc]

@[simp] theorem next_modify (t : Numbered α) (f : α → α) (n : Nat) :
    (t.modify n f).next = t.next := by
  unfold modify
  split <;> simp [next]

end Numbered

end Fibers
