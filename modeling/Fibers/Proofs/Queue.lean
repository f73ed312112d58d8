import Mathlib.Data.List.Nodup
import Fibers.Channel

/-!
# One list in the order of arrival

A channel keeps a buffer, a line of offerers and a line of takers, and hands elements over
past the buffer where it can.  What it is meant to be is much simpler: one list of elements in
the order in which they were offered.  An element is put at the end and taken from the head;
the offerers of those that stand at a position beyond the capacity have to wait.  Takers wait
only while the list is empty, and the longest waiting one gets the next element that is offered.

A `Queue` is that list.  Every element stands in it with the place from which it was offered, so
that it can be told from equal ones.

## Main definitions

* `Request`, `Answer` — what is asked of a channel, and what those who wait are told.
* `Queue`, `Queue.blocked` — the list, and the elements beyond the capacity.
* `Queue.serve` — what a request does; `Queue.after`, `Queue.answers`, `Queue.delivered` for
  many of them in a row.
* `Queue.Allowed`, `Queue.Distinct` — requests that a channel can receive.

## Main results

* `Queue.delivered_append_items` — **elements are delivered once and in order, and none is lost.**
* `Queue.delivered_in_order`, `Queue.nodup_delivered` — what holds after the end as well.
-/

namespace Fibers

/-- What is asked of a channel. -/
inductive Request (α σ : Type) where
  /-- An element is offered from a place. -/
  | offer (place : σ) (a : α)
  /-- An element is wanted at a place. -/
  | take (place : σ)
  /-- An element is wanted if there is one. -/
  | poll
  /-- The end of the channel is waited for at a place. -/
  | watch (place : σ)
  /-- The place with a ticket in a line is given up. -/
  | leave (line : Line) (ticket : Nat) (place : σ)
  /-- The channel is closed on behalf of a fiber. -/
  | close (source : FiberId)
  deriving DecidableEq, Repr

/-- What is told at a place. -/
inductive Answer (α : Type) where
  /-- The element. -/
  | element (a : α)
  /-- What was waited for has happened. -/
  | done
  /-- The channel has been closed on behalf of a fiber. -/
  | closed (source : FiberId)
  deriving DecidableEq, Repr

namespace Request

variable {α σ : Type}

/-- The place that comes to wait for an answer. -/
def asker? : Request α σ → Option σ
  | .offer s _ => some s
  | .take s => some s
  | .watch s => some s
  | .poll => none
  | .leave _ _ _ => none
  | .close _ => none

/-- The element that is offered. -/
def offered? : Request α σ → Option (σ × α)
  | .offer s a => some (s, a)
  | _ => none

/-- The place whose element is withdrawn. -/
def withdrawn? : Request α σ → Option σ
  | .leave .offerers _ s => some s
  | _ => none

/-- Whether a request is made for a place. -/
def concerns [DecidableEq σ] (p : σ) : Request α σ → Bool
  | .leave _ _ s => s = p
  | r => r.asker? = some p

theorem concerns_iff [DecidableEq σ] {p : σ} {r : Request α σ} :
    r.concerns p = true ↔ r.asker? = some p ∨ ∃ line ticket, r = .leave line ticket p := by
  cases r <;> simp [concerns, asker?]

end Request

/-- The elements of a channel with the places from which they were offered, oldest first, and
the places at which fibers wait. -/
structure Queue (α σ : Type) where
  /-- How many elements there is room for, if that is bounded. -/
  capacity : Option Nat := none
  /-- The elements. -/
  items : List (σ × α) := []
  /-- The places of those who wait for an element. -/
  takers : List σ := []
  /-- The places of those who wait for the end. -/
  watchers : List σ := []
  /-- The fiber that closed the channel. -/
  closedBy : Option FiberId := none

namespace Queue

variable {α σ : Type}

/-- Whether there is room for the element at a position. -/
def fits (q : Queue α σ) (position : Nat) : Bool :=
  match q.capacity with
  | some n => position < n
  | none => true

/-- The elements for which there is room. -/
def stored (q : Queue α σ) : List (σ × α) :=
  match q.capacity with
  | some n => q.items.take n
  | none => q.items

/-- The elements for which there is no room. -/
def blocked (q : Queue α σ) : List (σ × α) :=
  match q.capacity with
  | some n => q.items.drop n
  | none => []

/-- The places that stand in a line. -/
def line (q : Queue α σ) : Line → List σ
  | .takers => q.takers
  | .offerers => q.blocked.map Prod.fst
  | .watchers => q.watchers

/-- What is told when an element has been taken: the first one of the blocked gets room. -/
def admitted (q : Queue α σ) : List (σ × Answer α) :=
  (q.blocked.head?.map fun item => (item.1, .done)).toList

section Serve

variable [DecidableEq σ]

/-- Gives up a place. -/
def forget (q : Queue α σ) (line : Line) (s : σ) : Queue α σ :=
  match line with
  | .takers => { q with takers := q.takers.filter (· ≠ s) }
  | .offerers => { q with items := q.items.filter (·.1 ≠ s) }
  | .watchers => { q with watchers := q.watchers.filter (· ≠ s) }

/-- What a request does as long as the channel is open: what is told to whom, and the list
afterwards. -/
def serveOpen (q : Queue α σ) : Request α σ → List (σ × Answer α) × Queue α σ
  | .offer s a =>
    match q.takers with
    | t :: takers => ([(t, .element a), (s, .done)], { q with takers })
    | [] =>
      (if q.fits q.items.length then [(s, .done)] else [], { q with items := q.items ++ [(s, a)] })
  | .take t =>
    match q.items with
    | item :: items => (q.admitted ++ [(t, .element item.2)], { q with items })
    | [] => ([], { q with takers := q.takers ++ [t] })
  | .poll =>
    match q.items with
    | _ :: items => (q.admitted, { q with items })
    | [] => ([], q)
  | .watch s => ([], { q with watchers := q.watchers ++ [s] })
  | .leave line _ s => ([], q.forget line s)
  | .close source =>
    (q.takers.map (·, .closed source) ++ q.blocked.map (·.1, .closed source) ++
        q.watchers.map (·, .done),
      { capacity := q.capacity, closedBy := some source })

/-- What a request does after the channel has been closed. -/
def serveClosed (source : FiberId) : Request α σ → List (σ × Answer α)
  | .offer s _ => [(s, .closed source)]
  | .take s => [(s, .closed source)]
  | .watch s => [(s, .done)]
  | .poll => []
  | .leave _ _ _ => []
  | .close _ => []

/-- **What a request does.** -/
def serve (q : Queue α σ) (r : Request α σ) : List (σ × Answer α) × Queue α σ :=
  match q.closedBy with
  | some source => (serveClosed source r, q)
  | none => q.serveOpen r

/-- The element that is given away for a request. -/
def delivery? (q : Queue α σ) (r : Request α σ) : Option (σ × α) :=
  match q.closedBy, r with
  | none, .offer s a => if q.takers.isEmpty then none else some (s, a)
  | none, .take _ => q.items.head?
  | none, .poll => q.items.head?
  | _, _ => none

/-- The list after some requests. -/
def after (q : Queue α σ) : List (Request α σ) → Queue α σ
  | [] => q
  | r :: rs => (q.serve r).2.after rs

/-- What is told for some requests. -/
def answers (q : Queue α σ) : List (Request α σ) → List (σ × Answer α)
  | [] => []
  | r :: rs => (q.serve r).1 ++ (q.serve r).2.answers rs

/-- The elements that are given away for some requests, in that order. -/
def delivered (q : Queue α σ) : List (Request α σ) → List (σ × α)
  | [] => []
  | r :: rs => (q.delivery? r).toList ++ (q.serve r).2.delivered rs

/-- Only who stands in a line can leave it. -/
def Allows (q : Queue α σ) : Request α σ → Prop
  | .leave line _ s => s ∈ q.line line
  | _ => True

/-- Requests in a row in which only who stands in a line leaves it. -/
def Allowed (q : Queue α σ) : List (Request α σ) → Prop
  | [] => True
  | r :: rs => q.Allows r ∧ (q.serve r).2.Allowed rs

theorem after_append (q : Queue α σ) (rs rs' : List (Request α σ)) :
    q.after (rs ++ rs') = (q.after rs).after rs' := by
  induction rs generalizing q with
  | nil => rfl
  | cons r rs ih => exact ih _

theorem answers_append (q : Queue α σ) (rs rs' : List (Request α σ)) :
    q.answers (rs ++ rs') = q.answers rs ++ (q.after rs).answers rs' := by
  induction rs generalizing q with
  | nil => rfl
  | cons r rs ih => rw [List.cons_append, answers, answers, ih, List.append_assoc, after]

theorem allowed_append {q : Queue α σ} {rs rs' : List (Request α σ)} (h : q.Allowed rs)
    (h' : (q.after rs).Allowed rs') : q.Allowed (rs ++ rs') := by
  induction rs generalizing q with
  | nil => exact h'
  | cons r rs ih => exact ⟨h.1, ih h.2 h'⟩

end Serve

/-! ### Regular lists -/

/-- What holds of the list at any time. -/
structure Regular (q : Queue α σ) : Prop where
  /-- Something can be stored. -/
  room : q.capacity ≠ some 0
  /-- Nobody waits for an element while there is one. -/
  idle : q.takers ≠ [] → q.items = []
  /-- Nothing is left after the end. -/
  closed : q.closedBy ≠ none → q.items = [] ∧ q.takers = [] ∧ q.watchers = []

theorem blocked_of_items {q : Queue α σ} (h : q.items = []) : q.blocked = [] := by
  unfold blocked
  split <;> simp [h]

theorem stored_append_blocked (q : Queue α σ) : q.stored ++ q.blocked = q.items := by
  unfold stored blocked
  cases q.capacity <;> simp

theorem stored_ne_nil {q : Queue α σ} (hroom : q.capacity ≠ some 0) (h : q.items ≠ []) :
    q.stored ≠ [] := by
  unfold stored
  cases hcapacity : q.capacity with
  | none => exact h
  | some n =>
    have hn : n ≠ 0 := fun hzero => hroom (hzero ▸ hcapacity)
    simp [List.take_eq_nil_iff, hn, h]

/-- The blocked elements are those at the positions for which there is no room. -/
theorem mem_blocked_iff {q : Queue α σ} {item : σ × α} :
    item ∈ q.blocked ↔ ∃ i, q.items[i]? = some item ∧ q.fits i = false := by
  unfold blocked fits
  cases q.capacity with
  | none => simp
  | some n =>
    simp only [List.mem_iff_getElem?, List.getElem?_drop, decide_eq_false_iff_not, Nat.not_lt]
    constructor
    · rintro ⟨i, hi⟩
      exact ⟨n + i, hi, by omega⟩
    · rintro ⟨i, hi, hle⟩
      refine ⟨i - n, ?_⟩
      rwa [Nat.add_sub_cancel' hle]

/-- An element that is put at the end is stored if there is room for it. -/
theorem stored_push (q : Queue α σ) (item : σ × α) :
    ({ q with items := q.items ++ [item] } : Queue α σ).stored =
      if q.fits q.items.length then q.stored ++ [item] else q.stored := by
  unfold stored fits
  cases q.capacity with
  | none => rfl
  | some n =>
    simp only [decide_eq_true_eq]
    split
    · next hlt =>
      rw [List.take_of_length_le (by rw [List.length_append]; exact hlt),
        List.take_of_length_le (Nat.le_of_lt hlt)]
    · next hle => rw [List.take_append_of_le_length (Nat.not_lt.mp hle)]

theorem blocked_push (q : Queue α σ) (item : σ × α) :
    ({ q with items := q.items ++ [item] } : Queue α σ).blocked =
      if q.fits q.items.length then q.blocked else q.blocked ++ [item] := by
  unfold blocked fits
  cases q.capacity with
  | none => rfl
  | some n =>
    simp only [decide_eq_true_eq]
    split
    · next hlt =>
      rw [List.drop_of_length_le (by rw [List.length_append]; exact hlt),
        List.drop_of_length_le (Nat.le_of_lt hlt)]
    · next hle => rw [List.drop_append_of_le_length (Nat.not_lt.mp hle)]

/-- When the first element has been taken, the first one of the blocked gets its room. -/
theorem stored_pop {q : Queue α σ} (hroom : q.capacity ≠ some 0) {item : σ × α}
    {items : List (σ × α)} (h : q.items = item :: items) :
    q.stored ++ q.blocked.head?.toList = item :: ({ q with items } : Queue α σ).stored := by
  unfold stored blocked
  cases hcapacity : q.capacity with
  | none => simp [h]
  | some n =>
    cases n with
    | zero => exact absurd hcapacity hroom
    | succ n =>
      simp only [h, List.take_succ_cons, List.drop_succ_cons, List.cons_append, List.head?_drop]
      rw [← List.take_add_one]

theorem blocked_pop {q : Queue α σ} (hroom : q.capacity ≠ some 0) {item : σ × α}
    {items : List (σ × α)} (h : q.items = item :: items) :
    ({ q with items } : Queue α σ).blocked = q.blocked.tail := by
  unfold blocked
  cases hcapacity : q.capacity with
  | none => rfl
  | some n =>
    cases n with
    | zero => exact absurd hcapacity hroom
    | succ n => simp [h]

variable [DecidableEq σ]

omit [DecidableEq σ] in
theorem regular_new {capacity : Option Nat} (h : capacity ≠ some 0) :
    Regular ({ capacity } : Queue α σ) where
  room := h
  idle hne := absurd rfl hne
  closed hne := absurd rfl hne

theorem Regular.serve {q : Queue α σ} (h : q.Regular) (r : Request α σ) : (q.serve r).2.Regular := by
  unfold Queue.serve
  cases hclosed : q.closedBy with
  | some source => exact h
  | none =>
    have hopen : ∀ {p : Prop}, q.closedBy ≠ none → p := fun hne => absurd hclosed hne
    simp only
    cases r with
    | offer s a =>
      simp only [serveOpen]
      split
      · next t takers heq =>
        -- the element is handed over, and the list stays empty
        exact ⟨h.room, fun _ => h.idle (by rw [heq]; exact List.cons_ne_nil _ _), hopen⟩
      · next heq => exact ⟨h.room, fun hne => absurd heq hne, hopen⟩
    | take t =>
      simp only [serveOpen]
      split
      · next item items heq =>
        refine ⟨h.room, fun hne => ?_, hopen⟩
        rw [h.idle hne] at heq
        cases heq
      · next heq => exact ⟨h.room, fun _ => heq, hopen⟩
    | poll =>
      simp only [serveOpen]
      split
      · next item items heq =>
        refine ⟨h.room, fun hne => ?_, hopen⟩
        rw [h.idle hne] at heq
        cases heq
      · exact h
    | watch s => exact ⟨h.room, h.idle, hopen⟩
    | leave line ticket s =>
      cases line with
      | takers =>
        refine ⟨h.room, fun hne => h.idle fun hnil => hne ?_, hopen⟩
        simp [serveOpen, forget, hnil]
      | offerers =>
        refine ⟨h.room, fun hne => ?_, hopen⟩
        simp [serveOpen, forget, h.idle hne]
      | watchers => exact ⟨h.room, h.idle, hopen⟩
    | close source => exact ⟨h.room, fun hne => absurd rfl hne, fun _ => ⟨rfl, rfl, rfl⟩⟩

theorem Regular.after {q : Queue α σ} (h : q.Regular) (rs : List (Request α σ)) :
    (q.after rs).Regular := by
  induction rs generalizing q with
  | nil => exact h
  | cons r rs ih => exact ih (h.serve r)

/-! ### Places -/

/-- The places known to the list. -/
def places (q : Queue α σ) : List σ := q.items.map Prod.fst ++ q.takers ++ q.watchers

/-- A request makes no place known but that of its asker. -/
theorem count_places_serve (q : Queue α σ) (r : Request α σ) (p : σ) :
    (q.serve r).2.places.count p ≤ q.places.count p + r.asker?.toList.count p := by
  unfold serve
  split
  · exact Nat.le_add_right _ _
  · cases r with
    | offer s a =>
      simp only [serveOpen]
      split
      · next t takers heq =>
        simp only [places, heq, List.count_append, List.count_cons]
        omega
      · simp only [places, List.map_append, List.count_append, Request.asker?, Option.toList_some,
          List.map_cons, List.map_nil]
        omega
    | take t =>
      simp only [serveOpen]
      split
      · next item items heq =>
        simp only [places, heq, List.map_cons, List.count_append, List.count_cons]
        omega
      · simp only [places, List.count_append, Request.asker?, Option.toList_some]
        omega
    | poll =>
      simp only [serveOpen]
      split
      · next item items heq =>
        simp only [places, heq, List.map_cons, List.count_append, List.count_cons]
        omega
      · exact Nat.le_add_right _ _
    | watch s =>
      simp only [serveOpen, places, List.count_append, Request.asker?, Option.toList_some]
      omega
    | leave line ticket s =>
      -- a line that is filtered holds nothing new
      have hsub : ∀ {l l' : List σ}, l.Sublist l' → l.count p ≤ l'.count p :=
        fun hl => hl.count_le p
      cases line with
      | takers =>
        have := hsub (List.filter_sublist (p := (· ≠ s)) (l := q.takers))
        simp only [serveOpen, forget, places, List.count_append]
        omega
      | offerers =>
        have := hsub ((List.filter_sublist (p := (·.1 ≠ s)) (l := q.items)).map Prod.fst)
        simp only [serveOpen, forget, places, List.count_append]
        omega
      | watchers =>
        have := hsub (List.filter_sublist (p := (· ≠ s)) (l := q.watchers))
        simp only [serveOpen, forget, places, List.count_append]
        omega
    | close source => simp [serveOpen, places]

/-- The places from which something is asked. -/
def askers (rs : List (Request α σ)) : List σ := rs.filterMap Request.asker?

/-- Nobody asks from a place that is known already, and nobody asks twice from one place. -/
def Distinct (q : Queue α σ) (rs : List (Request α σ)) : Prop := (q.places ++ askers rs).Nodup

theorem Distinct.serve {q : Queue α σ} {r : Request α σ} {rs : List (Request α σ)}
    (h : q.Distinct (r :: rs)) : (q.serve r).2.Distinct rs := by
  rw [Distinct, List.nodup_iff_count_le_one] at h ⊢
  intro p
  have hcount := h p
  have hserve := q.count_places_serve r p
  have hcons : (askers (r :: rs)).count p = r.asker?.toList.count p + (askers rs).count p := by
    rw [askers, List.filterMap_cons]
    cases r.asker? with
    | none => simp [askers]
    | some s => simp [askers, List.count_cons, Nat.add_comm]
  rw [List.count_append] at hcount ⊢
  omega

/-! ### Elements are delivered once and in order -/

/-- The elements that are offered, with the places from which they are. -/
def offered (rs : List (Request α σ)) : List (σ × α) := rs.filterMap Request.offered?

/-- The places whose elements are withdrawn. -/
def withdrawn (rs : List (Request α σ)) : List σ := rs.filterMap Request.withdrawn?

/-- The elements among some that are not withdrawn. -/
def kept (rs : List (Request α σ)) (items : List (σ × α)) : List (σ × α) :=
  items.filter fun item => item.1 ∉ withdrawn rs

theorem kept_append (rs : List (Request α σ)) (items items' : List (σ × α)) :
    kept rs (items ++ items') = kept rs items ++ kept rs items' := List.filter_append ..

theorem kept_cons (r : Request α σ) (rs : List (Request α σ)) (items : List (σ × α)) :
    kept (r :: rs) items = kept rs (items.filter fun item => some item.1 ≠ r.withdrawn?) := by
  have hmem : ∀ p : σ, p ∈ withdrawn (r :: rs) ↔ some p = r.withdrawn? ∨ p ∈ withdrawn rs := by
    intro p
    rw [withdrawn, List.filterMap_cons]
    cases r.withdrawn? with
    | none => simp [withdrawn]
    | some s => simp [withdrawn]
  simp only [kept, List.filter_filter, hmem, not_or, Bool.decide_and, Bool.and_comm]

/-- One request moves at most the first element out of the list. -/
theorem delivery_append_items {q : Queue α σ} (h : q.Regular) {r : Request α σ}
    (hopen : (q.serve r).2.closedBy = none) :
    (q.delivery? r).toList ++ (q.serve r).2.items =
      (q.items ++ r.offered?.toList).filter fun item => some item.1 ≠ r.withdrawn? := by
  have hall : ∀ {l : List (σ × α)}, l = l.filter fun item => some item.1 ≠ (none : Option σ) := by
    simp
  unfold serve at hopen ⊢
  cases hclosed : q.closedBy with
  | some source => simp [hclosed] at hopen
  | none =>
    simp only [hclosed] at hopen ⊢
    cases r with
    | offer s a =>
      cases htakers : q.takers with
      | cons t takers =>
        have hempty : q.items = [] := h.idle (by rw [htakers]; exact List.cons_ne_nil _ _)
        simp [serveOpen, delivery?, hclosed, htakers, hempty, Request.offered?,
          Request.withdrawn?]
      | nil =>
        simp only [serveOpen, delivery?, hclosed, htakers]
        exact hall
    | take _ | poll =>
      cases hitems : q.items with
      | cons item items =>
        simp only [serveOpen, delivery?, hclosed, hitems, Request.offered?, Option.toList_none,
          List.append_nil]
        exact hall
      | nil => simp [serveOpen, delivery?, hclosed, hitems, Request.offered?]
    | watch s =>
      simp only [serveOpen, delivery?, hclosed, Request.offered?, Option.toList_none,
        List.append_nil, List.nil_append]
      exact hall
    | leave line ticket s =>
      cases line with
      | offerers => simp [serveOpen, delivery?, hclosed, forget, Request.offered?, Request.withdrawn?]
      | takers | watchers =>
        simp only [serveOpen, delivery?, hclosed, forget, Request.offered?, Option.toList_none,
          List.append_nil, List.nil_append]
        exact hall
    | close source => simp [serveOpen] at hopen

theorem serve_of_open {q : Queue α σ} (h : q.closedBy = none) (r : Request α σ) :
    q.serve r = q.serveOpen r := by
  simp [serve, h]

theorem serve_of_closed {q : Queue α σ} {source : FiberId} (h : q.closedBy = some source)
    (r : Request α σ) : (q.serve r).2 = q := by
  simp [serve, h]

theorem delivered_of_closed {q : Queue α σ} {source : FiberId} (h : q.closedBy = some source)
    (rs : List (Request α σ)) : q.delivered rs = [] ∧ (q.after rs).closedBy = some source := by
  induction rs with
  | nil => exact ⟨rfl, h⟩
  | cons r rs ih =>
    have hnone : q.delivery? r = none := by simp [delivery?, h]
    rw [delivered, after, serve_of_closed h, hnone]
    exact ih

omit [DecidableEq σ] in
theorem offered_sublist (rs : List (Request α σ)) :
    ((offered rs).map Prod.fst).Sublist (askers rs) := by
  induction rs with
  | nil => exact List.Sublist.refl _
  | cons r rs ih =>
    cases r with
    | offer s a => exact ih.cons_cons s
    | take s | watch s => exact ih.cons s
    | poll | leave _ _ _ | close _ => exact ih

omit [DecidableEq σ] in
theorem mem_askers_of_offered {rs : List (Request α σ)} {item : σ × α} (h : item ∈ offered rs) :
    item.1 ∈ askers rs := (offered_sublist rs).subset (List.mem_map_of_mem h)

omit [DecidableEq σ] in
theorem mem_items_of_blocked {q : Queue α σ} {item : σ × α} (h : item ∈ q.blocked) :
    item ∈ q.items := by
  rw [← q.stored_append_blocked]
  exact List.mem_append_right _ h

/-- No element comes into the list but by an offer. -/
theorem items_serve_subset (q : Queue α σ) (r : Request α σ) {item : σ × α}
    (h : item ∈ (q.serve r).2.items) : item ∈ q.items ∨ r.offered? = some item := by
  unfold serve at h
  split at h
  · exact Or.inl h
  · cases r with
    | offer s a =>
      simp only [serveOpen] at h
      split at h
      · exact Or.inl h
      · rcases List.mem_append.mp h with hmem | hmem
        · exact Or.inl hmem
        · rw [List.mem_singleton.mp hmem]
          exact Or.inr rfl
    | take t =>
      simp only [serveOpen] at h
      split at h
      · next heq => exact Or.inl (heq ▸ List.mem_cons_of_mem _ h)
      · exact Or.inl h
    | poll =>
      simp only [serveOpen] at h
      split at h
      · next heq => exact Or.inl (heq ▸ List.mem_cons_of_mem _ h)
      · exact Or.inl h
    | watch s => exact Or.inl h
    | leave line ticket s =>
      cases line with
      | takers | watchers => exact Or.inl h
      | offerers => exact Or.inl (List.mem_of_mem_filter h)
    | close source => cases h

/-- What is withdrawn is in the list, or is going to be offered. -/
theorem mem_of_withdrawn {q : Queue α σ} {rs : List (Request α σ)} (h : q.Allowed rs) {s : σ}
    (hs : s ∈ withdrawn rs) : s ∈ q.items.map Prod.fst ∨ s ∈ askers rs := by
  induction rs generalizing q with
  | nil => cases hs
  | cons r rs ih =>
    have hrest : s ∈ withdrawn rs → s ∈ q.items.map Prod.fst ∨ s ∈ askers (r :: rs) := by
      intro hs
      rcases ih h.2 hs with hmem | hmem
      · obtain ⟨item, hitem, rfl⟩ := List.mem_map.mp hmem
        rcases q.items_serve_subset r hitem with hold | hnew
        · exact Or.inl (List.mem_map_of_mem hold)
        · refine Or.inr (mem_askers_of_offered ?_)
          exact List.mem_filterMap.mpr ⟨r, List.mem_cons_self, hnew⟩
      · obtain ⟨r', hr', heq⟩ := List.mem_filterMap.mp hmem
        exact Or.inr (List.mem_filterMap.mpr ⟨r', List.mem_cons_of_mem _ hr', heq⟩)
    obtain ⟨r', hr', heq⟩ := List.mem_filterMap.mp hs
    rcases List.mem_cons.mp hr' with rfl | hr'
    · -- the request is the withdrawal itself, which is allowed only to who is blocked
      cases r' with
      | leave line ticket p =>
        cases line with
        | offerers =>
          obtain rfl := Option.some.inj heq
          obtain ⟨item, hitem, hp⟩ := List.mem_map.mp h.1
          exact Or.inl (List.mem_map.mpr ⟨item, mem_items_of_blocked hitem, hp⟩)
        | takers | watchers => cases heq
      | offer _ _ | take _ | poll | watch _ | close _ => cases heq
    · exact hrest (List.mem_filterMap.mpr ⟨r', hr', heq⟩)

/-- What is closed by a request has delivered nothing for it. -/
theorem delivery?_of_closing {q : Queue α σ} {r : Request α σ} {source : FiberId}
    (h : (q.serve r).2.closedBy = some source) : q.delivery? r = none := by
  cases hclosed : q.closedBy with
  | some source => simp [delivery?, hclosed]
  | none =>
    simp only [serve, hclosed] at h
    cases r with
    | close _ | watch _ | leave _ _ _ => simp [delivery?, hclosed]
    | offer s a =>
      simp only [serveOpen] at h
      split at h <;> simp [hclosed] at h
    | take _ | poll =>
      simp only [serveOpen] at h
      split at h <;> simp [hclosed] at h

omit [DecidableEq σ] in
/-- The elements in the list have different places, from which nothing else is offered. -/
theorem Distinct.items {q : Queue α σ} {r : Request α σ} {rs : List (Request α σ)}
    (h : q.Distinct (r :: rs)) :
    ((q.items ++ r.offered?.toList).map Prod.fst ++ askers rs).Nodup := by
  have hoffered : (r.offered?.toList.map Prod.fst).Sublist r.asker?.toList := by
    cases r <;> simp [Request.offered?, Request.asker?]
  have hcons : askers (r :: rs) = r.asker?.toList ++ askers rs := by
    rw [askers, List.filterMap_cons]
    cases r.asker? <;> rfl
  refine h.sublist ?_
  rw [hcons, List.map_append, places, List.append_assoc, List.append_assoc, List.append_assoc]
  refine (List.Sublist.refl _).append ?_
  refine List.Sublist.trans ?_ (List.sublist_append_right _ _)
  refine List.Sublist.trans ?_ (List.sublist_append_right _ _)
  exact hoffered.append (List.Sublist.refl _)

section Step

variable {q : Queue α σ} {r : Request α σ} {rs : List (Request α σ)}

/-- What is delivered now is not withdrawn later. -/
theorem kept_delivery (h : q.Regular) (hallowed : (q.serve r).2.Allowed rs)
    (hdistinct : q.Distinct (r :: rs)) (hopen : (q.serve r).2.closedBy = none) :
    kept rs (q.delivery? r).toList = (q.delivery? r).toList := by
  have hsub : ((q.delivery? r).toList ++ (q.serve r).2.items).Sublist
      (q.items ++ r.offered?.toList) :=
    delivery_append_items h hopen ▸ List.filter_sublist
  have hdisjoint := hdistinct.items.sublist ((hsub.map Prod.fst).append (List.Sublist.refl _))
  rw [List.map_append, List.append_assoc] at hdisjoint
  refine List.filter_eq_self.mpr fun item hitem => decide_eq_true fun hmem => ?_
  refine (List.nodup_append.mp hdisjoint).2.2 _ (List.mem_map_of_mem hitem) _ ?_ rfl
  exact List.mem_append.mpr (mem_of_withdrawn hallowed hmem)

/-- What is withdrawn now is not offered later. -/
theorem filter_offered (hallowed : q.Allows r) (hdistinct : q.Distinct (r :: rs)) :
    (offered rs).filter (fun item => some item.1 ≠ r.withdrawn?) = offered rs := by
  refine List.filter_eq_self.mpr fun item hitem => decide_eq_true fun heq => ?_
  have hblocked : item.1 ∈ q.items.map Prod.fst := by
    cases r with
    | leave line ticket s =>
      cases line with
      | offerers =>
        obtain rfl := Option.some.inj heq
        obtain ⟨item', hitem', hfst⟩ := List.mem_map.mp hallowed
        exact List.mem_map.mpr ⟨item', mem_items_of_blocked hitem', hfst⟩
      | takers | watchers => cases heq
    | offer _ _ | take _ | poll | watch _ | close _ => cases heq
  have hnodup := hdistinct.items
  rw [List.map_append, List.append_assoc] at hnodup
  refine (List.nodup_append.mp hnodup).2.2 _ hblocked _ ?_ rfl
  exact List.mem_append_right _ (mem_askers_of_offered hitem)

end Step

/-- What has been delivered, and what is left, in this order, are the elements that were offered
and not withdrawn, in the order in which they were offered.  After the end nothing is left. -/
theorem delivered_append {q : Queue α σ} (h : q.Regular) {rs : List (Request α σ)}
    (hallowed : q.Allowed rs) (hdistinct : q.Distinct rs) :
    ∃ rest, q.delivered rs ++ rest = kept rs (q.items ++ offered rs) ∧
      ((q.after rs).closedBy = none → rest = (q.after rs).items) := by
  induction rs generalizing q with
  | nil => exact ⟨q.items, by simp [delivered, offered, kept, withdrawn], fun _ => rfl⟩
  | cons r rs ih =>
    cases hclosed : (q.serve r).2.closedBy with
    | some source =>
      obtain ⟨hnil, hafter⟩ := delivered_of_closed hclosed rs
      refine ⟨kept (r :: rs) (q.items ++ offered (r :: rs)), ?_, fun hopen => ?_⟩
      · rw [delivered, delivery?_of_closing hclosed, hnil]
        rfl
      · rw [after, hafter] at hopen
        cases hopen
    | none =>
      obtain ⟨rest, hrest, hitems⟩ := ih (h.serve r) hallowed.2 hdistinct.serve
      refine ⟨rest, ?_, hitems⟩
      have hoffered : offered (r :: rs) = r.offered?.toList ++ offered rs := by
        rw [offered, List.filterMap_cons]
        cases r.offered? <;> rfl
      calc q.delivered (r :: rs) ++ rest
          = (q.delivery? r).toList ++ ((q.serve r).2.delivered rs ++ rest) := by
            rw [delivered, List.append_assoc]
        _ = kept rs ((q.delivery? r).toList ++ (q.serve r).2.items ++ offered rs) := by
            rw [hrest, List.append_assoc, kept_append rs (q.delivery? r).toList,
              kept_delivery h hallowed.2 hdistinct hclosed]
        _ = kept rs ((q.items ++ r.offered?.toList ++ offered rs).filter
              fun item => some item.1 ≠ r.withdrawn?) := by
            rw [delivery_append_items h hclosed, List.filter_append _ (offered rs),
              filter_offered hallowed.1 hdistinct]
        _ = kept (r :: rs) (q.items ++ offered (r :: rs)) := by
            rw [kept_cons, hoffered, List.append_assoc]

/-- **Elements are delivered once and in order, and none is lost**: as long as the channel is
open, what has been delivered and what is left are the elements that were offered and not
withdrawn. -/
theorem delivered_append_items {q : Queue α σ} (h : q.Regular) {rs : List (Request α σ)}
    (hallowed : q.Allowed rs) (hdistinct : q.Distinct rs) (hopen : (q.after rs).closedBy = none) :
    q.delivered rs ++ (q.after rs).items = kept rs (q.items ++ offered rs) := by
  obtain ⟨rest, hrest, hitems⟩ := delivered_append h hallowed hdistinct
  rw [← hitems hopen, hrest]

/-- Elements are delivered in the order in which they were offered, whatever happens. -/
theorem delivered_in_order {q : Queue α σ} (h : q.Regular) {rs : List (Request α σ)}
    (hallowed : q.Allowed rs) (hdistinct : q.Distinct rs) :
    q.delivered rs <+: kept rs (q.items ++ offered rs) := by
  obtain ⟨rest, hrest, -⟩ := delivered_append h hallowed hdistinct
  exact ⟨rest, hrest⟩

/-- No element is delivered twice. -/
theorem nodup_delivered {q : Queue α σ} (h : q.Regular) {rs : List (Request α σ)}
    (hallowed : q.Allowed rs) (hdistinct : q.Distinct rs) :
    ((q.delivered rs).map Prod.fst).Nodup := by
  refine List.Nodup.sublist ?_ hdistinct
  refine ((delivered_in_order h hallowed hdistinct).sublist.map Prod.fst).trans ?_
  refine (List.filter_sublist.map Prod.fst).trans ?_
  rw [List.map_append, places, List.append_assoc, List.append_assoc]
  refine (List.Sublist.refl _).append ?_
  refine (offered_sublist rs).trans ?_
  exact (List.sublist_append_right _ _).trans (List.sublist_append_right _ _)

/-! ### Giving up a place -/

omit [DecidableEq σ] in
/-- What stands in a line shows that the channel is open. -/
theorem closedBy_of_line {q : Queue α σ} (h : q.Regular) {line : Line} {p : σ}
    (hp : p ∈ q.line line) :
    q.closedBy = none := by
  by_contra hne
  obtain ⟨hitems, htakers, hwatchers⟩ := h.closed hne
  cases line with
  | takers => simp [Queue.line, htakers] at hp
  | watchers => simp [Queue.line, hwatchers] at hp
  | offerers => simp [Queue.line, blocked_of_items hitems] at hp

omit [DecidableEq σ] in
theorem mem_places_of_line {q : Queue α σ} {line : Line} {p : σ} (h : p ∈ q.line line) :
    p ∈ q.places := by
  rw [places, List.append_assoc]
  cases line with
  | takers => exact List.mem_append_right _ (List.mem_append_left _ h)
  | watchers => exact List.mem_append_right _ (List.mem_append_right _ h)
  | offerers =>
    obtain ⟨item, hitem, rfl⟩ := List.mem_map.mp h
    exact List.mem_append_left _ (List.mem_map_of_mem (mem_items_of_blocked hitem))

omit [DecidableEq σ] in
theorem Distinct.nodup_places {q : Queue α σ} {rs : List (Request α σ)} (h : q.Distinct rs) :
    q.places.Nodup := (List.nodup_append.mp h).1

omit [DecidableEq σ] in
theorem nodup_items {q : Queue α σ} (h : q.places.Nodup) : (q.items.map Prod.fst).Nodup := by
  rw [places, List.append_assoc] at h
  exact (List.nodup_append.mp h).1

/-- Giving up the place of a blocked element leaves the others where they are. -/
theorem items_forget {q : Queue α σ} (hplaces : q.places.Nodup) {p : σ}
    (hp : p ∈ q.line .offerers) :
    (q.forget .offerers p).items = q.stored ++ q.blocked.filter (·.1 ≠ p) := by
  have hkeys := nodup_items hplaces
  rw [← q.stored_append_blocked, List.map_append] at hkeys
  have hstored : q.stored.filter (·.1 ≠ p) = q.stored := by
    refine List.filter_eq_self.mpr fun item hitem => decide_eq_true ?_
    exact (List.nodup_append.mp hkeys).2.2 _ (List.mem_map_of_mem hitem) _ hp
  rw [← hstored, ← List.filter_append, q.stored_append_blocked]
  rfl

omit [DecidableEq σ] in
/-- If an element is blocked, there is no room for more than those that are stored. -/
theorem length_stored {q : Queue α σ} (h : q.blocked ≠ []) :
    ∃ n, q.capacity = some n ∧ q.stored.length = n ∧ n < q.items.length := by
  cases hcapacity : q.capacity with
  | none => simp [blocked, hcapacity] at h
  | some n =>
    have hlt : n < q.items.length := by
      by_contra hle
      exact h (by simp [blocked, hcapacity, Nat.not_lt.mp hle])
    refine ⟨n, rfl, ?_, hlt⟩
    simp [stored, hcapacity]
    omega

theorem blocked_forget {q : Queue α σ} (hplaces : q.places.Nodup) {p : σ}
    (hp : p ∈ q.line .offerers) :
    (q.forget .offerers p).blocked = q.blocked.filter (·.1 ≠ p) := by
  obtain ⟨item, hitem, -⟩ := List.mem_map.mp hp
  obtain ⟨n, hcapacity, hlength, -⟩ := length_stored (List.ne_nil_of_mem hitem)
  have hcapacity' : (q.forget .offerers p).capacity = some n := hcapacity
  rw [blocked, hcapacity']
  simp only
  rw [items_forget hplaces hp, ← hlength, List.drop_left]

theorem stored_forget {q : Queue α σ} (hplaces : q.places.Nodup) {p : σ}
    (hp : p ∈ q.line .offerers) : (q.forget .offerers p).stored = q.stored := by
  obtain ⟨item, hitem, -⟩ := List.mem_map.mp hp
  obtain ⟨n, hcapacity, hlength, -⟩ := length_stored (List.ne_nil_of_mem hitem)
  have hcapacity' : (q.forget .offerers p).capacity = some n := hcapacity
  rw [stored, hcapacity']
  simp only
  rw [items_forget hplaces hp, ← hlength, List.take_left]

end Queue

end Fibers
