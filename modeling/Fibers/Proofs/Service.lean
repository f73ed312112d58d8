import Fibers.Proofs.Queue

/-!
# A channel serves requests as one list

As long as everybody who stands in a line is still there, what the operations of a channel do is
what requests do to the list that it stands for: those who wait are told the same, in the same
order, and the channel stands for the list afterwards.

Whoever stands in a line does so once, and with a ticket of its own.  A request takes out of the
lines exactly those who are told something, and puts at most its asker into one.

## Main definitions

* `Channel.serve` — what the operations of a channel do for a request.
* `Channel.entries`, `Channel.Orderly` — who stands in the lines.
* `Channel.Shows` — the list that a channel stands for.

## Main results

* `Channel.Shows.serve` — **a channel serves requests as the list that it stands for.**
* `Channel.serve_entries`, `Channel.Orderly.serve` — what a request does to the lines.
-/

namespace Fibers

/-- Someone who stands in a line. -/
structure Entry (σ : Type) where
  /-- The line. -/
  line : Line
  /-- The ticket. -/
  ticket : Nat
  /-- The place. -/
  place : σ
  deriving DecidableEq, Repr

/-- The line in which the asker of a request comes to stand, if it has to wait. -/
def Request.line {α σ : Type} : Request α σ → Line
  | .offer _ _ => .offerers
  | .take _ => .takers
  | .watch _ => .watchers
  | .leave line _ _ => line
  | .poll => .takers
  | .close _ => .watchers

namespace Channel

variable {α σ : Type}

/-! ### Requests -/

/-- The test that everybody in line passes. -/
def present (_ : σ) : Bool := true

/-- What the operations of a channel do for a request: what is told to whom, and the channel
afterwards. -/
def serve (r : Request α σ) (ch : Channel α σ) : List (σ × Answer α) × Channel α σ :=
  match r with
  | .offer s a =>
    match ch.offer? present a with
    | (.closed source, _) => ([(s, .closed source)], ch)
    | (.handedTo t, ch) => ([(t, .element a), (s, .done)], ch)
    | (.stored, ch) => ([(s, .done)], ch)
    | (.full, ch) => ([], (ch.enqueueOfferer a s).2)
  | .take t =>
    match ch.take? present with
    | (.closed source, _) => ([(t, .closed source)], ch)
    | (.element a admitted, ch) => (admitted.toList.map (·, .done) ++ [(t, .element a)], ch)
    | (.nothing, _) => ([], (ch.enqueueTaker t).2)
  | .poll =>
    match ch.take? present with
    | (.element _ admitted, ch) => (admitted.toList.map (·, .done), ch)
    | (.closed _, _) => ([], ch)
    | (.nothing, _) => ([], ch)
  | .watch s => if ch.isClosed then ([(s, .done)], ch) else ([], (ch.enqueueWatcher s).2)
  | .leave line ticket _ => ([], ch.leave line ticket)
  | .close source =>
    match ch.close source with
    | none => ([], ch)
    | some (closing, ch) =>
      (closing.refused.map (·, .closed source) ++ closing.notified.map (·, .done), ch)

theorem nextTaker_present (ch : Channel α σ) :
    ch.nextTaker present =
      match ch.takers with
      | [] => (none, ch)
      | taker :: rest => (some taker.2, { ch with takers := rest }) := by
  unfold nextTaker
  cases h : ch.takers with
  | nil =>
    obtain ⟨_, _, _, _, _, _, _⟩ := ch
    obtain rfl := h
    rfl
  | cons taker rest => rfl

theorem moveUp_present (ch : Channel α σ) :
    ch.moveUp present =
      match ch.offerers with
      | [] => (none, ch)
      | (_, a, place) :: rest =>
        (some place, { ch with buffer := ch.buffer.push a, offerers := rest }) := by
  unfold moveUp
  cases h : ch.offerers with
  | nil =>
    obtain ⟨_, _, _, _, _, _, _⟩ := ch
    obtain rfl := h
    rfl
  | cons offerer rest => rfl

theorem take?_present {ch : Channel α σ} (hopen : ch.closedBy = none) {a : α} {buffer : Fifo α}
    (hpop : ch.buffer.pop? = some (a, buffer)) :
    ch.take? present =
      match ch.offerers with
      | [] => (.element a none, { ch with buffer })
      | (_, b, place) :: rest =>
        (.element a (some place), { ch with buffer := buffer.push b, offerers := rest }) := by
  simp only [take?, hopen, hpop, moveUp_present]
  cases ch.offerers <;> rfl

theorem take?_empty {ch : Channel α σ} (hopen : ch.closedBy = none) (hpop : ch.buffer.pop? = none) :
    ch.take? present = (.nothing, ch) := by
  simp only [take?, hopen, hpop]

theorem take?_closed {ch : Channel α σ} {source : FiberId} (hclosed : ch.closedBy = some source) :
    ch.take? present = (.closed source, ch) := by
  simp only [take?, hclosed]

/-- What a request does after the channel has been closed. -/
theorem serve_of_closed {ch : Channel α σ} {source : FiberId} (hclosed : ch.closedBy = some source)
    {r : Request α σ} (hstays : ∀ line ticket s, r ≠ .leave line ticket s) :
    ch.serve r = (Queue.serveClosed source r, ch) := by
  cases r with
  | leave line ticket s => exact absurd rfl (hstays line ticket s)
  | offer s a => simp [serve, offer?, Queue.serveClosed, hclosed]
  | take _ | poll => simp [serve, take?_closed hclosed, Queue.serveClosed]
  | watch s => simp [serve, isClosed, Queue.serveClosed, hclosed]
  | close _ => simp [serve, close, isClosed, Queue.serveClosed, hclosed]

/-! ### Who stands in the lines -/

/-- Everyone who stands in a line. -/
def entries (ch : Channel α σ) : List (Entry σ) :=
  ch.takers.map (fun e => ⟨.takers, e.1, e.2⟩) ++
    ch.offerers.map (fun e => ⟨.offerers, e.1, e.2.2⟩) ++
    ch.watchers.map (fun e => ⟨.watchers, e.1, e.2⟩)

/-- Everyone stands in one line, once, and with a ticket of its own. -/
structure Orderly (ch : Channel α σ) : Prop where
  places : (ch.entries.map Entry.place).Nodup
  tickets : (ch.entries.map Entry.ticket).Nodup
  bounded : ∀ e ∈ ch.entries, e.ticket ≤ ch.tickets

theorem orderly_new (capacity : Option Nat) : Orderly ({ capacity } : Channel α σ) where
  places := List.nodup_nil
  tickets := List.nodup_nil
  bounded e he := by cases he

/-- What a request does to the lines: who is told something leaves them, and its asker joins one
or is told something. -/
structure Served (r : Request α σ) (ch : Channel α σ) (told : List (σ × Answer α))
    (ch' : Channel α σ) : Prop where
  places : (told.map Prod.fst ++ ch'.entries.map Entry.place).Perm
    (ch.entries.map Entry.place ++ r.asker?.toList)
  entries : ∀ e ∈ ch'.entries, e ∈ ch.entries ∨
    (r.asker? = some e.place ∧ e.line = r.line ∧ e.ticket = ch.tickets + 1 ∧
      ch'.tickets = ch.tickets + 1)
  tickets : ch.tickets ≤ ch'.tickets

theorem entries_sublist {ch ch' : Channel α σ} (htakers : ch'.takers.Sublist ch.takers)
    (hofferers : ch'.offerers.Sublist ch.offerers) (hwatchers : ch'.watchers.Sublist ch.watchers) :
    ch'.entries.Sublist ch.entries :=
  ((htakers.map _).append (hofferers.map _)).append (hwatchers.map _)

/-- Nobody joins a line, and whoever leaves one is told something. -/
theorem served_of_sublist {r : Request α σ} {ch ch' : Channel α σ} {told : List (σ × Answer α)}
    (hplaces : (told.map Prod.fst ++ ch'.entries.map Entry.place).Perm
      (ch.entries.map Entry.place ++ r.asker?.toList))
    (htakers : ch'.takers.Sublist ch.takers) (hofferers : ch'.offerers.Sublist ch.offerers)
    (hwatchers : ch'.watchers.Sublist ch.watchers) (htickets : ch'.tickets = ch.tickets) :
    Served r ch told ch' where
  places := hplaces
  entries _ he := Or.inl ((entries_sublist htakers hofferers hwatchers).subset he)
  tickets := Nat.le_of_eq htickets.symm

/-- The asker joins a line. -/
theorem served_of_joins {r : Request α σ} {ch ch' : Channel α σ} {s : σ}
    (hask : r.asker? = some s)
    (hentries : ch'.entries.Perm (⟨r.line, ch.tickets + 1, s⟩ :: ch.entries))
    (htickets : ch'.tickets = ch.tickets + 1) : Served r ch ([] : List (σ × Answer α)) ch' where
  places := by
    have hmap := hentries.map Entry.place
    rw [hask]
    exact hmap.trans (List.perm_append_singleton s _).symm
  entries e he := by
    rcases List.mem_cons.mp (hentries.subset he) with rfl | hold
    · exact Or.inr ⟨hask, rfl, rfl, htickets⟩
    · exact Or.inl hold
  tickets := by omega

section Serve

variable (ch : Channel α σ)

theorem served_offer (s : σ) (a : α) :
    Served (.offer s a) ch (ch.serve (.offer s a)).1 (ch.serve (.offer s a)).2 := by
  cases hclosed : ch.closedBy with
  | some source =>
    have hserve : ch.serve (.offer s a) = ([(s, .closed source)], ch) := by
      simp [serve, offer?, hclosed]
    rw [hserve]
    exact served_of_sublist List.perm_append_comm (.refl _) (.refl _) (.refl _) rfl
  | none =>
    cases htakers : ch.takers with
    | cons taker rest =>
      have hserve : ch.serve (.offer s a) =
          ([(taker.2, .element a), (s, .done)], { ch with takers := rest }) := by
        simp [serve, offer?, hclosed, nextTaker_present, htakers]
      rw [hserve]
      refine served_of_sublist ?_ ?_ (.refl _) (.refl _) rfl
      · classical
        rw [List.perm_iff_count]
        intro p
        simp [entries, htakers, Request.asker?, List.count_cons]
        omega
      · rw [htakers]
        exact List.sublist_cons_self taker rest
    | nil =>
      cases hroom : ch.hasRoom with
      | true =>
        have hserve : ch.serve (.offer s a) =
            ([(s, .done)], { ch with buffer := ch.buffer.push a }) := by
          simp [serve, offer?, hclosed, nextTaker_present, htakers, hroom]
        rw [hserve]
        exact served_of_sublist List.perm_append_comm (.refl _) (.refl _) (.refl _) rfl
      | false =>
        have hserve : ch.serve (.offer s a) = ([], (ch.enqueueOfferer a s).2) := by
          simp [serve, offer?, hclosed, nextTaker_present, htakers, hroom]
        rw [hserve]
        refine served_of_joins rfl ?_ rfl
        classical
        rw [List.perm_iff_count]
        intro e
        simp [entries, enqueueOfferer, Request.line, List.count_cons]
        omega

theorem served_take (t : σ) :
    Served (.take t) ch (ch.serve (.take t)).1 (ch.serve (.take t)).2 := by
  cases hclosed : ch.closedBy with
  | some source =>
    have hserve : ch.serve (.take t) = ([(t, .closed source)], ch) := by
      simp [serve, take?_closed hclosed]
    rw [hserve]
    exact served_of_sublist List.perm_append_comm (.refl _) (.refl _) (.refl _) rfl
  | none =>
    cases hpop : ch.buffer.pop? with
    | none =>
      have hserve : ch.serve (.take t) = ([], (ch.enqueueTaker t).2) := by
        simp [serve, take?_empty hclosed hpop]
      rw [hserve]
      refine served_of_joins rfl ?_ rfl
      classical
      rw [List.perm_iff_count]
      intro e
      simp [entries, enqueueTaker, Request.line, List.count_cons]
      omega
    | some popped =>
      obtain ⟨a, buffer⟩ := popped
      cases hofferers : ch.offerers with
      | nil =>
        have hserve : ch.serve (.take t) = ([(t, .element a)], { ch with buffer }) := by
          simp [serve, take?_present hclosed hpop, hofferers]
        rw [hserve]
        exact served_of_sublist List.perm_append_comm (.refl _) (.refl _) (.refl _) rfl
      | cons offerer rest =>
        obtain ⟨ticket, b, s⟩ := offerer
        have hserve : ch.serve (.take t) = ([(s, .done), (t, .element a)],
            { ch with buffer := buffer.push b, offerers := rest }) := by
          simp [serve, take?_present hclosed hpop, hofferers]
        rw [hserve]
        refine served_of_sublist ?_ (.refl _) ?_ (.refl _) rfl
        · classical
          rw [List.perm_iff_count]
          intro p
          simp [entries, hofferers, Request.asker?, List.count_cons]
          omega
        · rw [hofferers]
          exact List.sublist_cons_self _ rest

theorem served_poll : Served .poll ch (ch.serve .poll).1 (ch.serve .poll).2 := by
  have hsame : Served .poll ch ([] : List (σ × Answer α)) ch :=
    served_of_sublist (by simp [Request.asker?]) (.refl _) (.refl _) (.refl _) rfl
  cases hclosed : ch.closedBy with
  | some source =>
    have hserve : ch.serve .poll = ([], ch) := by simp [serve, take?_closed hclosed]
    rw [hserve]
    exact hsame
  | none =>
    cases hpop : ch.buffer.pop? with
    | none =>
      have hserve : ch.serve .poll = ([], ch) := by simp [serve, take?_empty hclosed hpop]
      rw [hserve]
      exact hsame
    | some popped =>
      obtain ⟨a, buffer⟩ := popped
      cases hofferers : ch.offerers with
      | nil =>
        have hserve : ch.serve .poll = ([], { ch with buffer }) := by
          simp [serve, take?_present hclosed hpop, hofferers]
        rw [hserve]
        exact served_of_sublist hsame.places (.refl _) (.refl _) (.refl _) rfl
      | cons offerer rest =>
        obtain ⟨ticket, b, s⟩ := offerer
        have hserve : ch.serve .poll =
            ([(s, .done)], { ch with buffer := buffer.push b, offerers := rest }) := by
          simp [serve, take?_present hclosed hpop, hofferers]
        rw [hserve]
        refine served_of_sublist ?_ (.refl _) ?_ (.refl _) rfl
        · classical
          rw [List.perm_iff_count]
          intro p
          simp [entries, hofferers, Request.asker?, List.count_cons]
          omega
        · rw [hofferers]
          exact List.sublist_cons_self _ rest

theorem served_watch (s : σ) :
    Served (.watch s) ch (ch.serve (.watch s)).1 (ch.serve (.watch s)).2 := by
  cases hclosed : ch.isClosed with
  | true =>
    have hserve : ch.serve (.watch s) = ([(s, .done)], ch) := by simp [serve, hclosed]
    rw [hserve]
    exact served_of_sublist List.perm_append_comm (.refl _) (.refl _) (.refl _) rfl
  | false =>
    have hserve : ch.serve (.watch s) = ([], (ch.enqueueWatcher s).2) := by simp [serve, hclosed]
    rw [hserve]
    refine served_of_joins rfl ?_ rfl
    classical
    rw [List.perm_iff_count]
    intro e
    simp [entries, enqueueWatcher, Request.line, List.count_cons]
    omega

theorem served_close (source : FiberId) :
    Served (.close source) ch (ch.serve (.close source)).1 (ch.serve (.close source)).2 := by
  cases hclosed : ch.isClosed with
  | true =>
    have hserve : ch.serve (.close source) = ([], ch) := by simp [serve, close, hclosed]
    rw [hserve]
    exact served_of_sublist (by simp [Request.asker?]) (.refl _) (.refl _) (.refl _) rfl
  | false =>
    have hserve : ch.serve (.close source) =
        ((ch.takers.map (·.2) ++ ch.offerers.map (·.2.2)).map (·, .closed source) ++
            (ch.watchers.map (·.2)).map (·, .done),
          { ch with buffer := .empty, takers := [], offerers := [], watchers := [],
                    closedBy := some source }) := by
      simp [serve, close, hclosed]
    rw [hserve]
    refine served_of_sublist ?_ (List.nil_sublist _) (List.nil_sublist _) (List.nil_sublist _) rfl
    simp [entries, Request.asker?, Function.comp_def]

/-- **What a request does to the lines**, unless somebody leaves them. -/
theorem serve_entries {r : Request α σ} (hstays : ∀ line ticket s, r ≠ .leave line ticket s) :
    Served r ch (ch.serve r).1 (ch.serve r).2 := by
  cases r with
  | leave line ticket s => exact absurd rfl (hstays line ticket s)
  | offer s a => exact ch.served_offer s a
  | take t => exact ch.served_take t
  | poll => exact ch.served_poll
  | watch s => exact ch.served_watch s
  | close source => exact ch.served_close source

end Serve

/-- Who is told something does not stand in line any more, and is told it once. -/
theorem Served.told {r : Request α σ} {ch ch' : Channel α σ} {told : List (σ × Answer α)}
    (h : Served r ch told ch') (hch : ch.Orderly)
    (hasker : ∀ s, r.asker? = some s → s ∉ ch.entries.map Entry.place) :
    (told.map Prod.fst ++ ch'.entries.map Entry.place).Nodup := by
  refine h.places.nodup_iff.mpr (List.nodup_append.mpr ⟨hch.places, ?_, ?_⟩)
  · cases r.asker? <;> simp
  · rintro s hs _ hs' rfl
    exact hasker s (Option.mem_toList.mp hs') hs

/-- What a request does keeps the lines orderly, if its asker does not stand in one. -/
theorem Served.orderly {r : Request α σ} {ch ch' : Channel α σ} {told : List (σ × Answer α)}
    (h : Served r ch told ch') (hch : ch.Orderly)
    (hasker : ∀ s, r.asker? = some s → s ∉ ch.entries.map Entry.place) : ch'.Orderly := by
  have hplaces := (List.nodup_append.mp (h.told hch hasker)).2.1
  refine ⟨hplaces, ?_, fun e he => ?_⟩
  · -- a new ticket is larger than all others
    refine List.Nodup.map_on (fun e he e' he' heq => ?_) hplaces.of_map
    rcases h.entries e he with hold | ⟨hask, -, hticket, -⟩ <;>
      rcases h.entries e' he' with hold' | ⟨hask', -, hticket', -⟩
    · exact List.inj_on_of_nodup_map hch.tickets hold hold' heq
    · have := hch.bounded e hold
      omega
    · have := hch.bounded e' hold'
      omega
    · exact List.inj_on_of_nodup_map hplaces he he' (Option.some.inj (hask.symm.trans hask'))
  · rcases h.entries e he with hold | ⟨-, -, hticket, htickets⟩
    · exact Nat.le_trans (hch.bounded e hold) h.tickets
    · omega

/-- Who is told nothing stays in line. -/
theorem Served.stays {r : Request α σ} {ch ch' : Channel α σ} {told : List (σ × Answer α)}
    (h : Served r ch told ch') (hch : ch.Orderly)
    (hasker : ∀ s, r.asker? = some s → s ∉ ch.entries.map Entry.place) {e : Entry σ}
    (he : e ∈ ch.entries) (htold : e.place ∉ told.map Prod.fst) : e ∈ ch'.entries := by
  have hplace := List.mem_map_of_mem (f := Entry.place) he
  have hmem := h.places.symm.subset (List.mem_append_left _ hplace)
  obtain ⟨e', he', heq⟩ := List.mem_map.mp ((List.mem_append.mp hmem).resolve_left htold)
  rcases h.entries e' he' with hold | ⟨hask, -⟩
  · rwa [List.inj_on_of_nodup_map hch.places he hold heq.symm]
  · exact absurd (heq ▸ hplace) (hasker _ hask)

theorem entries_leave (ch : Channel α σ) (line : Line) (ticket : Nat) :
    (ch.leave line ticket).entries =
      ch.entries.filter fun e => ¬(e.line = line ∧ e.ticket = ticket) := by
  cases line <;> simp [leave, entries, List.filter_map, Function.comp_def]

theorem Orderly.leave {ch : Channel α σ} (h : ch.Orderly) (line : Line) (ticket : Nat) :
    (ch.leave line ticket).Orderly := by
  have hsub : (ch.leave line ticket).entries.Sublist ch.entries :=
    ch.entries_leave line ticket ▸ List.filter_sublist
  refine ⟨h.places.sublist (hsub.map _), h.tickets.sublist (hsub.map _), fun e he => ?_⟩
  have htickets : (ch.leave line ticket).tickets = ch.tickets := by cases line <;> rfl
  exact htickets ▸ h.bounded e (hsub.subset he)

/-! ### The list that a channel stands for -/

/-- A channel stands for a list: its buffer and its offerers hold the elements, and its lines are
those of the list. -/
structure Shows (ch : Channel α σ) (q : Queue α σ) : Prop where
  capacity : ch.capacity = q.capacity
  buffer : ch.buffer.toList = q.stored.map Prod.snd
  offerers : ch.offerers.map (fun e => (e.2.2, e.2.1)) = q.blocked
  takers : ch.takers.map Prod.snd = q.takers
  watchers : ch.watchers.map Prod.snd = q.watchers
  closedBy : ch.closedBy = q.closedBy

namespace Shows

variable {ch : Channel α σ} {q : Queue α σ}

theorem new (capacity : Option Nat) :
    Shows ({ capacity } : Channel α σ) ({ capacity } : Queue α σ) where
  capacity := rfl
  buffer := by cases capacity <;> simp [Queue.stored]
  offerers := by cases capacity <;> simp [Queue.blocked]
  takers := rfl
  watchers := rfl
  closedBy := rfl

/-- A channel holds the elements of the list. -/
theorem contents (h : ch.Shows q) : ch.contents = q.items.map Prod.snd := by
  have hofferers : ch.offerers.map (·.2.1) = q.blocked.map Prod.snd := by
    rw [← h.offerers, List.map_map]
    rfl
  rw [Channel.contents, h.buffer, hofferers, ← List.map_append, q.stored_append_blocked]

theorem size (h : ch.Shows q) : ch.size = q.items.length := by
  rw [size_eq, h.contents, List.length_map]

/-- There is room in the buffer exactly if there is room for one more element. -/
theorem hasRoom (h : ch.Shows q) : ch.hasRoom = q.fits q.items.length := by
  unfold Channel.hasRoom Queue.fits
  rw [h.capacity]
  cases hcapacity : q.capacity with
  | none => rfl
  | some n =>
    have hlength : ch.buffer.length = min n q.items.length := by
      rw [Fifo.length_eq, h.buffer, List.length_map, Queue.stored, hcapacity, List.length_take]
    simp only [hlength, decide_eq_decide]
    omega

theorem pop?_eq_none (h : ch.Shows q) (hitems : q.items = []) : ch.buffer.pop? = none := by
  have hstored : q.stored = [] :=
    (List.append_eq_nil_iff.mp (q.stored_append_blocked.trans hitems)).1
  rw [Fifo.pop?_eq_none_iff, h.buffer, hstored]
  rfl

/-- The first element of the list is the first one in the buffer, and leaves room there. -/
theorem pop?_eq_some (h : ch.Shows q) (hroom : q.capacity ≠ some 0) {item : σ × α}
    {items : List (σ × α)} (hitems : q.items = item :: items) :
    ∃ buffer, ch.buffer.pop? = some (item.2, buffer) ∧
      buffer.toList ++ (q.blocked.head?.map Prod.snd).toList =
        ({ q with items } : Queue α σ).stored.map Prod.snd := by
  have hpop := congrArg (List.map Prod.snd) (Queue.stored_pop hroom hitems)
  rw [List.map_append, ← h.buffer, List.map_cons] at hpop
  cases hbuffer : ch.buffer.pop? with
  | none =>
    have hnil := h.buffer
    rw [(Fifo.pop?_eq_none_iff _).mp hbuffer] at hnil
    have hne : q.items ≠ [] := by
      rw [hitems]
      exact List.cons_ne_nil _ _
    exact absurd (List.map_eq_nil_iff.mp hnil.symm) (Queue.stored_ne_nil hroom hne)
  | some popped =>
    obtain ⟨a, buffer⟩ := popped
    rw [Fifo.toList_of_pop? hbuffer, List.cons_append, List.cons.injEq] at hpop
    obtain ⟨rfl, hpop⟩ := hpop
    refine ⟨buffer, rfl, ?_⟩
    rw [← hpop]
    cases q.blocked.head? <;> rfl

/-- Taking the first element of the list. -/
theorem take? (h : ch.Shows q) (hroom : q.capacity ≠ some 0) (hopen : q.closedBy = none)
    {item : σ × α} {items : List (σ × α)} (hitems : q.items = item :: items) :
    ∃ admitted ch', ch.take? present = (.element item.2 admitted, ch') ∧
      admitted.toList.map (·, (.done : Answer α)) = q.admitted ∧
      ch'.Shows { q with items } := by
  obtain ⟨buffer, hpop, hbuffer⟩ := h.pop?_eq_some hroom hitems
  have htake := take?_present (h.closedBy.trans hopen) hpop
  have hblocked := Queue.blocked_pop hroom hitems
  cases hofferers : ch.offerers with
  | nil =>
    have hnone : q.blocked = [] := by rw [← h.offerers, hofferers, List.map_nil]
    rw [hofferers] at htake
    rw [hnone, List.head?_nil, Option.map_none, Option.toList_none, List.append_nil] at hbuffer
    refine ⟨none, _, htake, by simp [Queue.admitted, hnone], h.capacity, hbuffer, ?_, h.takers,
      h.watchers, h.closedBy⟩
    rw [hblocked, hnone]
    rfl
  | cons offerer rest =>
    obtain ⟨ticket, b, s⟩ := offerer
    have hsome : q.blocked = (s, b) :: rest.map fun e => (e.2.2, e.2.1) := by
      rw [← h.offerers, hofferers, List.map_cons]
    rw [hofferers] at htake
    rw [hsome, List.head?_cons, Option.map_some, Option.toList_some] at hbuffer
    refine ⟨some s, _, htake, by simp [Queue.admitted, hsome], h.capacity, ?_, ?_, h.takers,
      h.watchers, h.closedBy⟩
    · rw [← hbuffer, Fifo.toList_push]
    · rw [hblocked, hsome, List.tail_cons]

theorem serve_closed [DecidableEq σ] (h : ch.Shows q) {source : FiberId}
    (hclosed : q.closedBy = some source) {r : Request α σ}
    (hstays : ∀ line ticket s, r ≠ .leave line ticket s) : ch.serve r = ((q.serve r).1, ch) := by
  rw [serve_of_closed (h.closedBy.trans hclosed) hstays, Queue.serve, hclosed]

theorem serve_offer [DecidableEq σ] (h : ch.Shows q) (hopen : q.closedBy = none) (s : σ) (a : α) :
    (ch.serve (.offer s a)).1 = (q.serveOpen (.offer s a)).1 ∧
      (ch.serve (.offer s a)).2.Shows (q.serveOpen (.offer s a)).2 := by
  have hch : ch.closedBy = none := h.closedBy.trans hopen
  cases htakers : ch.takers with
  | cons taker rest =>
    have hqtakers : q.takers = taker.2 :: rest.map Prod.snd := by
      rw [← h.takers, htakers, List.map_cons]
    have hserve : ch.serve (.offer s a) =
        ([(taker.2, .element a), (s, .done)], { ch with takers := rest }) := by
      simp [Channel.serve, offer?, hch, nextTaker_present, htakers]
    rw [hserve]
    simp only [Queue.serveOpen, hqtakers]
    exact ⟨trivial, h.capacity, h.buffer, h.offerers, rfl, h.watchers, h.closedBy⟩
  | nil =>
    have hqtakers : q.takers = [] := by rw [← h.takers, htakers, List.map_nil]
    have hstored := q.stored_push (s, a)
    have hblocked := q.blocked_push (s, a)
    cases hroom : ch.hasRoom with
    | true =>
      have hserve : ch.serve (.offer s a) =
          ([(s, .done)], { ch with buffer := ch.buffer.push a }) := by
        simp [Channel.serve, offer?, hch, nextTaker_present, htakers, hroom]
      rw [h.hasRoom] at hroom
      rw [hroom, if_pos rfl] at hstored hblocked
      rw [hserve]
      simp only [Queue.serveOpen, hqtakers, hroom, if_true]
      rw [hqtakers] at hstored hblocked
      refine ⟨trivial, h.capacity, ?_, ?_, ?_, h.watchers, h.closedBy⟩
      · rw [hstored, List.map_append, ← h.buffer, Fifo.toList_push]
        rfl
      · rw [hblocked]
        exact h.offerers
      · exact h.takers.trans hqtakers
    | false =>
      have hserve : ch.serve (.offer s a) = ([], (ch.enqueueOfferer a s).2) := by
        simp [Channel.serve, offer?, hch, nextTaker_present, htakers, hroom]
      rw [h.hasRoom] at hroom
      rw [hroom, if_neg Bool.false_ne_true] at hstored hblocked
      rw [hserve]
      simp only [Queue.serveOpen, hqtakers, hroom, Bool.false_eq_true, if_false]
      rw [hqtakers] at hstored hblocked
      refine ⟨trivial, h.capacity, ?_, ?_, ?_, h.watchers, h.closedBy⟩
      · rw [hstored]
        exact h.buffer
      · rw [hblocked, ← h.offerers, enqueueOfferer, List.map_append]
        rfl
      · exact h.takers.trans hqtakers

theorem serve_take [DecidableEq σ] (h : ch.Shows q) (hroom : q.capacity ≠ some 0)
    (hopen : q.closedBy = none) (t : σ) :
    (ch.serve (.take t)).1 = (q.serveOpen (.take t)).1 ∧
      (ch.serve (.take t)).2.Shows (q.serveOpen (.take t)).2 := by
  cases hitems : q.items with
  | nil =>
    have hserve : ch.serve (.take t) = ([], (ch.enqueueTaker t).2) := by
      simp [Channel.serve, take?_empty (h.closedBy.trans hopen) (h.pop?_eq_none hitems)]
    have hqserve : q.serveOpen (.take t) = ([], { q with takers := q.takers ++ [t] }) := by
      simp only [Queue.serveOpen, hitems]
    rw [hserve, hqserve]
    refine ⟨rfl, h.capacity, h.buffer, h.offerers, ?_, h.watchers, h.closedBy⟩
    rw [enqueueTaker, List.map_append, h.takers]
    rfl
  | cons item items =>
    obtain ⟨admitted, ch', htake, hadmitted, hshows⟩ := h.take? hroom hopen hitems
    have hserve : ch.serve (.take t) =
        (admitted.toList.map (·, .done) ++ [(t, .element item.2)], ch') := by
      simp [Channel.serve, htake]
    rw [hserve, hadmitted]
    simp only [Queue.serveOpen, hitems]
    exact ⟨trivial, hshows⟩

theorem serve_poll [DecidableEq σ] (h : ch.Shows q) (hroom : q.capacity ≠ some 0)
    (hopen : q.closedBy = none) :
    (ch.serve .poll).1 = (q.serveOpen .poll).1 ∧
      (ch.serve .poll).2.Shows (q.serveOpen .poll).2 := by
  cases hitems : q.items with
  | nil =>
    have hserve : ch.serve .poll = ([], ch) := by
      simp [Channel.serve, take?_empty (h.closedBy.trans hopen) (h.pop?_eq_none hitems)]
    rw [hserve]
    simp only [Queue.serveOpen, hitems]
    exact ⟨trivial, h⟩
  | cons item items =>
    obtain ⟨admitted, ch', htake, hadmitted, hshows⟩ := h.take? hroom hopen hitems
    have hserve : ch.serve .poll = (admitted.toList.map (·, .done), ch') := by
      simp [Channel.serve, htake]
    rw [hserve, hadmitted]
    simp only [Queue.serveOpen, hitems]
    exact ⟨trivial, hshows⟩

theorem serve_close [DecidableEq σ] (h : ch.Shows q) (hopen : q.closedBy = none)
    (source : FiberId) :
    (ch.serve (.close source)).1 = (q.serveOpen (.close source)).1 ∧
      (ch.serve (.close source)).2.Shows (q.serveOpen (.close source)).2 := by
  have hch : ch.isClosed = false := by rw [isClosed, h.closedBy, hopen]; rfl
  have hserve : ch.serve (.close source) =
      ((ch.takers.map (·.2) ++ ch.offerers.map (·.2.2)).map (·, .closed source) ++
          (ch.watchers.map (·.2)).map (·, .done),
        { ch with buffer := .empty, takers := [], offerers := [], watchers := [],
                  closedBy := some source }) := by
    simp [Channel.serve, close, hch]
  rw [hserve]
  refine ⟨?_, h.capacity, ?_, ?_, rfl, rfl, rfl⟩
  · simp only [Queue.serveOpen, ← h.takers, ← h.offerers, ← h.watchers, List.map_append,
      List.map_map]
    rfl
  · cases hcapacity : q.capacity <;> simp [Queue.serveOpen, Queue.stored, hcapacity]
  · simp [Queue.serveOpen, Queue.blocked_of_items]

/-- The lines are those of the list. -/
theorem mem_line (h : ch.Shows q) {e : Entry σ} (he : e ∈ ch.entries) : e.place ∈ q.line e.line := by
  rcases List.mem_append.mp he with he | he
  · rcases List.mem_append.mp he with he | he
    · obtain ⟨w, hw, rfl⟩ := List.mem_map.mp he
      rw [Queue.line, ← h.takers]
      exact List.mem_map_of_mem hw
    · obtain ⟨w, hw, rfl⟩ := List.mem_map.mp he
      rw [Queue.line, ← h.offerers, List.map_map]
      exact List.mem_map_of_mem hw
  · obtain ⟨w, hw, rfl⟩ := List.mem_map.mp he
    rw [Queue.line, ← h.watchers]
    exact List.mem_map_of_mem hw

/-- The one who holds a ticket leaves its line. -/
theorem leave [DecidableEq σ] (h : ch.Shows q) (hch : ch.Orderly) (hplaces : q.places.Nodup)
    {line : Line} {ticket : Nat} {s : σ} (hs : ⟨line, ticket, s⟩ ∈ ch.entries) :
    (ch.leave line ticket).Shows (q.forget line s) := by
  -- the holder of the ticket is the one at the place
  have hsame : ∀ e ∈ ch.entries, decide (e.ticket ≠ ticket) = decide (e.place ≠ s) := by
    intro e he
    refine decide_eq_decide.mpr (not_congr ⟨fun heq => ?_, fun heq => ?_⟩)
    · rw [List.inj_on_of_nodup_map hch.tickets he hs heq]
    · rw [List.inj_on_of_nodup_map hch.places he hs heq]
  have hmem : ∀ {e : Entry σ}, e ∈ ch.takers.map (fun w => ⟨.takers, w.1, w.2⟩) ∨
      e ∈ ch.offerers.map (fun w => ⟨.offerers, w.1, w.2.2⟩) ∨
      e ∈ ch.watchers.map (fun w => ⟨.watchers, w.1, w.2⟩) → e ∈ ch.entries := by
    intro e he
    rw [entries, List.append_assoc, List.mem_append, List.mem_append]
    exact he
  cases line with
  | takers =>
    refine ⟨h.capacity, h.buffer, h.offerers, ?_, h.watchers, h.closedBy⟩
    rw [Queue.forget, ← h.takers, List.filter_map, Channel.leave]
    refine congrArg _ (List.filter_congr fun w hw => ?_)
    exact hsame _ (hmem (Or.inl (List.mem_map_of_mem hw)))
  | watchers =>
    refine ⟨h.capacity, h.buffer, h.offerers, h.takers, ?_, h.closedBy⟩
    rw [Queue.forget, ← h.watchers, List.filter_map, Channel.leave]
    refine congrArg _ (List.filter_congr fun w hw => ?_)
    exact hsame _ (hmem (Or.inr (Or.inr (List.mem_map_of_mem hw))))
  | offerers =>
    have hline := h.mem_line hs
    refine ⟨h.capacity, ?_, ?_, h.takers, h.watchers, h.closedBy⟩
    · rw [Queue.stored_forget hplaces hline]
      exact h.buffer
    · rw [Queue.blocked_forget hplaces hline, ← h.offerers, List.filter_map, Channel.leave]
      refine congrArg _ (List.filter_congr fun w hw => ?_)
      exact hsame _ (hmem (Or.inr (Or.inl (List.mem_map_of_mem hw))))

/-- **A channel serves requests as the list that it stands for.** -/
theorem serve [DecidableEq σ] (h : ch.Shows q) (hch : ch.Orderly) (hq : q.Regular)
    (hplaces : q.places.Nodup) {r : Request α σ}
    (hleave : ∀ line ticket s, r = .leave line ticket s → ⟨line, ticket, s⟩ ∈ ch.entries) :
    (ch.serve r).1 = (q.serve r).1 ∧ (ch.serve r).2.Shows (q.serve r).2 := by
  cases hclosed : q.closedBy with
  | some source =>
    have hstays : ∀ line ticket s, r ≠ .leave line ticket s := by
      intro line ticket s heq
      have hopen := Queue.closedBy_of_line hq (h.mem_line (hleave line ticket s heq))
      rw [hopen] at hclosed
      cases hclosed
    rw [h.serve_closed hclosed hstays, Queue.serve_of_closed hclosed]
    exact ⟨rfl, h⟩
  | none =>
    rw [Queue.serve_of_open hclosed]
    cases r with
    | offer s a => exact h.serve_offer hclosed s a
    | take t => exact h.serve_take hq.room hclosed t
    | poll => exact h.serve_poll hq.room hclosed
    | watch s =>
      have hch : ch.isClosed = false := by rw [isClosed, h.closedBy, hclosed]; rfl
      have hserve : ch.serve (.watch s) = ([], (ch.enqueueWatcher s).2) := by
        simp [Channel.serve, hch]
      rw [hserve]
      refine ⟨rfl, h.capacity, h.buffer, h.offerers, h.takers, ?_, h.closedBy⟩
      rw [enqueueWatcher, List.map_append, h.watchers]
      rfl
    | leave line ticket s => exact ⟨rfl, h.leave hch hplaces (hleave _ _ _ rfl)⟩
    | close source => exact h.serve_close hclosed source

end Shows

end Channel

end Fibers
