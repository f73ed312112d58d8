import Fibers.Identity
import Fibers.Data.Fifo

/-!
# Channels

A channel carries elements from fibers that offer them to fibers that take them,
first in, first out.  A bounded channel holds at most `capacity` elements in its
buffer; a fiber that offers to a full channel, or takes from an empty one, waits
in a line and is served in the order of arrival.  Closing a channel discards what
it holds and ends every wait.

The operations here are pure.  They say which waiting fiber is served, and the
runtime wakes it; a fiber may have stopped waiting in the meantime, which the
runtime tells by the test `live`, and is then passed over.

## Main definitions

* `Channel` — the state of a channel, for elements `α` and waiting places `σ`.
* `Channel.offer?`, `Channel.take?`, `Channel.drain` — the operations, with
  `Offered` and `Taken` for what became of them.
* `Channel.enqueueOfferer`, `Channel.enqueueTaker`, `Channel.enqueueWatcher` —
  joining a line, and `Channel.leave` to leave it.
* `Channel.close` — the end of a channel.
* `Channel.contents` — the elements in the order in which they will be taken.

## Main results

* `Channel.contents_enqueueOfferer` — the element of a waiting offerer comes last.
* `Channel.contents_of_take?` — taking takes the first element.
* `Channel.contents_of_close` — a closed channel holds nothing.
-/

namespace Fibers

/-- Why a channel cannot be made. -/
inductive ChannelError where
  /-- A bounded channel that could hold nothing. -/
  | zeroCapacity
  deriving DecidableEq, Repr, Inhabited

/-- The message for the error. -/
def ChannelError.message : ChannelError → String
  | .zeroCapacity => "a bounded queue needs a capacity of at least 1"

/-- A line of waiting fibers. -/
inductive Line where
  /-- Those that wait for an element. -/
  | takers
  /-- Those that wait for room. -/
  | offerers
  /-- Those that wait for the end of the channel. -/
  | watchers
  deriving DecidableEq, Repr, Inhabited

/-- The state of a channel. -/
structure Channel (α σ : Type) where
  /-- How many elements the buffer may hold, if it is bounded. -/
  capacity : Option Nat := none
  /-- The elements held, oldest first. -/
  buffer : Fifo α := .empty
  /-- The fibers that wait for an element, with their tickets. -/
  takers : List (Nat × σ) := []
  /-- The fibers that wait for room, with their tickets and elements. -/
  offerers : List (Nat × α × σ) := []
  /-- The fibers that wait for the end of the channel, with their tickets. -/
  watchers : List (Nat × σ) := []
  /-- The fiber that closed the channel. -/
  closedBy : Option FiberId := none
  /-- How many tickets have been given out. -/
  tickets : Nat := 0
  deriving Inhabited

/-- What became of an element offered to a channel. -/
inductive Offered (σ : Type) where
  /-- The channel had been closed. -/
  | closed (source : FiberId)
  /-- The longest waiting fiber gets it. -/
  | handedTo (place : σ)
  /-- The buffer holds it. -/
  | stored
  /-- There is no room for it. -/
  | full
  deriving DecidableEq, Repr, Inhabited

/-- What became of an attempt to take an element. -/
inductive Taken (α σ : Type) where
  /-- The channel had been closed. -/
  | closed (source : FiberId)
  /-- An element, and the waiting offerer whose element took its place. -/
  | element (a : α) (admitted : Option σ)
  /-- There is none. -/
  | nothing
  deriving DecidableEq, Repr, Inhabited

namespace Channel

variable {α σ : Type}

/-- A channel with the given capacity, which must not be zero. -/
def new (capacity : Option Nat) : Except ChannelError (Channel α σ) :=
  if capacity = some 0 then .error .zeroCapacity else .ok { capacity }

/-- Whether the buffer has room for one more element. -/
def hasRoom (ch : Channel α σ) : Bool :=
  match ch.capacity with
  | some n => ch.buffer.length < n
  | none => true

/-- Whether the channel has been closed. -/
def isClosed (ch : Channel α σ) : Bool := ch.closedBy.isSome

/-- The elements in the order in which they will be taken: those in the buffer,
then those of the waiting offerers. -/
def contents (ch : Channel α σ) : List α := ch.buffer.toList ++ ch.offerers.map (·.2.1)

/-- How many elements there are to take. -/
def size (ch : Channel α σ) : Nat := ch.buffer.length + ch.offerers.length

theorem size_eq (ch : Channel α σ) : ch.size = ch.contents.length := by
  simp [size, contents, Fifo.length_eq]

/-! ### Offering and taking -/

/-- Takes the longest waiting taker that is still there out of its line. -/
def nextTaker (live : σ → Bool) (ch : Channel α σ) : Option σ × Channel α σ :=
  match ch.takers.dropWhile fun taker => !live taker.2 with
  | [] => (none, { ch with takers := [] })
  | taker :: rest => (some taker.2, { ch with takers := rest })

/-- Offers an element without waiting. -/
def offer? (live : σ → Bool) (a : α) (ch : Channel α σ) : Offered σ × Channel α σ :=
  match ch.closedBy with
  | some source => (.closed source, ch)
  | none =>
    match ch.nextTaker live with
    | (some place, ch) => (.handedTo place, ch)
    | (none, ch) =>
      if ch.hasRoom then (.stored, { ch with buffer := ch.buffer.push a }) else (.full, ch)

/-- Moves the element of the longest waiting offerer that is still there into the
buffer. -/
def moveUp (live : σ → Bool) (ch : Channel α σ) : Option σ × Channel α σ :=
  match ch.offerers.dropWhile fun offerer => !live offerer.2.2 with
  | [] => (none, { ch with offerers := [] })
  | (_, a, place) :: rest =>
    (some place, { ch with buffer := ch.buffer.push a, offerers := rest })

/-- Takes the oldest element without waiting; the place it leaves goes to the
longest waiting offerer. -/
def take? (live : σ → Bool) (ch : Channel α σ) : Taken α σ × Channel α σ :=
  match ch.closedBy with
  | some source => (.closed source, ch)
  | none =>
    match ch.buffer.pop? with
    | none => (.nothing, ch)
    | some (a, buffer) =>
      let (admitted, ch) := { ch with buffer }.moveUp live
      (.element a admitted, ch)

/-! ### Waiting in line -/

/-- Puts an offerer at the end of its line and gives it a ticket. -/
def enqueueOfferer (a : α) (place : σ) (ch : Channel α σ) : Nat × Channel α σ :=
  let ticket := ch.tickets + 1
  (ticket, { ch with offerers := ch.offerers ++ [(ticket, a, place)], tickets := ticket })

/-- Puts a taker at the end of its line and gives it a ticket. -/
def enqueueTaker (place : σ) (ch : Channel α σ) : Nat × Channel α σ :=
  let ticket := ch.tickets + 1
  (ticket, { ch with takers := ch.takers ++ [(ticket, place)], tickets := ticket })

/-- Puts a watcher at the end of its line and gives it a ticket. -/
def enqueueWatcher (place : σ) (ch : Channel α σ) : Nat × Channel α σ :=
  let ticket := ch.tickets + 1
  (ticket, { ch with watchers := ch.watchers ++ [(ticket, place)], tickets := ticket })

/-- Takes the holder of a ticket out of a line. -/
def leave (line : Line) (ticket : Nat) (ch : Channel α σ) : Channel α σ :=
  match line with
  | .takers => { ch with takers := ch.takers.filter fun w => w.1 ≠ ticket }
  | .offerers => { ch with offerers := ch.offerers.filter fun w => w.1 ≠ ticket }
  | .watchers => { ch with watchers := ch.watchers.filter fun w => w.1 ≠ ticket }

/-! ### The end -/

/-- The fibers whose waits end with a channel: those that waited for an element
or for room, and those that waited for the end. -/
structure Closing (σ : Type) where
  /-- Those that are told that the channel was closed. -/
  refused : List σ
  /-- Those that waited for it. -/
  notified : List σ
  deriving DecidableEq, Repr, Inhabited

/-- Closes the channel on behalf of a fiber and discards its elements; `none` if
it had been closed before. -/
def close (source : FiberId) (ch : Channel α σ) : Option (Closing σ × Channel α σ) :=
  if ch.isClosed then none
  else
    some (⟨ch.takers.map (·.2) ++ ch.offerers.map (·.2.2), ch.watchers.map (·.2)⟩,
      { ch with
        buffer := .empty
        takers := []
        offerers := []
        watchers := []
        closedBy := some source })

/-! ### What the operations do to the contents -/

@[simp] theorem contents_enqueueOfferer (a : α) (place : σ) (ch : Channel α σ) :
    (ch.enqueueOfferer a place).2.contents = ch.contents ++ [a] := by
  simp [enqueueOfferer, contents]

@[simp] theorem contents_enqueueTaker (place : σ) (ch : Channel α σ) :
    (ch.enqueueTaker place).2.contents = ch.contents := rfl

@[simp] theorem contents_enqueueWatcher (place : σ) (ch : Channel α σ) :
    (ch.enqueueWatcher place).2.contents = ch.contents := rfl

/-- If every offerer in line is still there, moving one up leaves the elements in
order. -/
theorem contents_moveUp {live : σ → Bool} {ch : Channel α σ}
    (hlive : ∀ w ∈ ch.offerers, live w.2.2 = true) :
    (ch.moveUp live).2.contents = ch.contents := by
  unfold moveUp
  cases ho : ch.offerers with
  | nil => simp [contents, ho]
  | cons w rest =>
    have hw : live w.2.2 = true := hlive w (by simp [ho])
    simp [contents, ho, hw]

/-- If every offerer in line is still there, taking an element takes the first one. -/
theorem contents_of_take? {live : σ → Bool} {ch ch' : Channel α σ} {a : α}
    {admitted : Option σ} (hlive : ∀ w ∈ ch.offerers, live w.2.2 = true)
    (h : ch.take? live = (.element a admitted, ch')) : ch.contents = a :: ch'.contents := by
  unfold take? at h
  cases hc : ch.closedBy with
  | some source => simp [hc] at h
  | none =>
    cases hp : ch.buffer.pop? with
    | none => simp [hc, hp] at h
    | some p =>
      obtain ⟨b, buffer⟩ := p
      simp only [hc, hp, Prod.mk.injEq, Taken.element.injEq] at h
      obtain ⟨⟨rfl, -⟩, rfl⟩ := h
      rw [contents_moveUp (by exact hlive)]
      simp [contents, Fifo.toList_of_pop? hp]

/-- A channel that has just been closed holds nothing. -/
theorem contents_of_close {source : FiberId} {ch ch' : Channel α σ} {closing : Closing σ}
    (h : ch.close source = some (closing, ch')) : ch'.contents = [] := by
  unfold close at h
  split at h
  · simp at h
  · simp only [Option.some.injEq, Prod.mk.injEq] at h
    rw [← h.2]
    rfl

/-! ### Text -/

/-- The text of a channel when its structure is shown. -/
def debug (fiber : FiberId → String) (ch : Channel α σ) : String :=
  let capacity := match ch.capacity with
    | some n => s!"Some({n})"
    | none => "None"
  let closed := match ch.closedBy with
    | some source => s!"Some({fiber source})"
    | none => "None"
  let lengths := s!"buffered: {ch.buffer.length}, takers: {ch.takers.length}, " ++
    s!"offerers: {ch.offerers.length}"
  "Queue \x7b capacity: " ++ capacity ++ ", " ++ lengths ++ ", shutdown: " ++ closed ++ " \x7d"

end Channel

end Fibers
