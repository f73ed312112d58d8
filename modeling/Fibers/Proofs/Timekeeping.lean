import Fibers.Proofs.Appointments
import Fibers.Proofs.Logs

/-!
# Timekeeping

What happens to a timekeeper is written down in order: what is scheduled, called off and
released, when the agenda is closed, and when it is looked at.  Whether an alarm is pending
can be told from that record alone (`Pending`): it was scheduled, and since then it has not
been called off, the agenda has not been closed, and whenever the agenda was looked at the
alarm was not due.

The accounts of a timekeeper say that every key that was given out is in one place: its
alarm is pending, or it was collected, called off or dropped.  Everything that can happen
moves keys from one place to another, so the accounts are right after every record; what
is released and when follows from them.

## Main definitions

* `Occurrence`, `Timekeeper.Happens` — what may happen to a timekeeper.
* `Pending` — an alarm is pending, as told by a record.
* `Timekeeper.Accounts` — what a record and the timekeeper's state say of each other.
* `Timekeeper.Lawful` — what is released, and when.

## Main results

* `Timekeeper.Happens.accounts` — whatever happens keeps the accounts right.
* `Timekeeper.serves` — what has been collected is released in order.
* `Timekeeper.rings_on_time` — every log of a new timekeeper is lawful.
-/

namespace Fibers

variable {α : Type}

/-! ### What happens to a timekeeper -/

/-- What may happen to a timekeeper. -/
inductive Occurrence (α : Type) where
  /-- A payload is scheduled; `kept` says whether the agenda was still open. -/
  | scheduled (a : Alarm α) (kept : Bool)
  /-- A key is called off; `found` says whether it was pending. -/
  | cancelled (key : Nat) (found : Bool)
  /-- The agenda is closed, and what was pending is dropped. -/
  | stopped (dropped : List (Nat × α))
  /-- The agenda is looked at, and what is due is collected. -/
  | woke (time : Nat) (due : List (Alarm α))
  /-- A payload is released; something may go wrong in it. -/
  | released (a : Alarm α) (outcome : Except Defect Unit)

namespace Occurrence

/-- The key that is given out. -/
def scheduledKey? : Occurrence α → Option Nat
  | .scheduled a _ => some a.key
  | _ => none

/-- The alarms that are collected. -/
def collected : Occurrence α → List (Alarm α)
  | .woke _ due => due
  | _ => []

/-- The alarm that is released. -/
def released? : Occurrence α → Option (Alarm α)
  | .released a _ => some a
  | _ => none

/-- The key that is called off. -/
def cancelledKey? : Occurrence α → Option Nat
  | .cancelled key true => some key
  | _ => none

/-- The keys of the payloads that are dropped. -/
def droppedKeys : Occurrence α → List Nat
  | .scheduled a false => [a.key]
  | .stopped dropped => dropped.map Prod.fst
  | _ => []

/-- What is reported. -/
def report? : Occurrence α → Option Defect
  | .released _ (.error defect) => some defect
  | _ => none

/-- Whether the agenda is looked at. -/
def IsLook (e : Occurrence α) : Prop := ∃ time due, e = .woke time due

/-- Whether the agenda is closed. -/
def IsStop (e : Occurrence α) : Prop := ∃ dropped, e = .stopped dropped

/-- An alarm that was pending is not pending any more. -/
def Ends (a : Alarm α) : Occurrence α → Prop
  | .scheduled .. => False
  | .cancelled key _ => key = a.key
  | .stopped _ => True
  | .woke time _ => a.deadline ≤ time
  | .released .. => False

end Occurrence

/-- When the agenda was last looked at. -/
def lastLook (es : List (Occurrence α)) : Nat :=
  es.foldl (fun now e => match e with
    | .woke time _ => time
    | _ => now) 0

/-- An alarm is pending: it has been scheduled, and nothing since then has ended that. -/
def Pending (es : List (Occurrence α)) (a : Alarm α) : Prop :=
  ∃ before after, es = before ++ .scheduled a true :: after ∧ ∀ e ∈ after, ¬e.Ends a

/-- What is pending has been scheduled. -/
theorem Pending.scheduled {es : List (Occurrence α)} {a : Alarm α} (h : Pending es a) :
    .scheduled a true ∈ es := by
  obtain ⟨before, after, rfl, -⟩ := h
  simp

theorem filterMap_one {β : Type} (f : Occurrence α → Option β) (e : Occurrence α) :
    [e].filterMap f = (f e).toList := by
  cases he : f e <;> simp [he]

/-- Whether an alarm is pending after one more thing has happened. -/
theorem pending_concat {es : List (Occurrence α)} {e : Occurrence α} {a : Alarm α} :
    Pending (es ++ [e]) a ↔ e = .scheduled a true ∨ Pending es a ∧ ¬e.Ends a := by
  constructor
  · rintro ⟨before, after, heq, hnone⟩
    rcases List.eq_nil_or_concat after with rfl | ⟨init, last, rfl⟩
    · obtain ⟨-, hlast⟩ := List.append_inj' heq rfl
      exact Or.inl (List.singleton_inj.mp hlast)
    · have hconcat : es ++ [e] = (before ++ .scheduled a true :: init) ++ [last] := by
        simpa using heq
      obtain ⟨rfl, hlast⟩ := List.append_inj' hconcat rfl
      obtain rfl : e = last := by simpa using hlast
      exact Or.inr ⟨⟨before, init, rfl, fun e he => hnone e (by simp [he])⟩, hnone e (by simp)⟩
  · rintro (rfl | ⟨⟨before, after, rfl, hnone⟩, hlast⟩)
    · exact ⟨es, [], rfl, by simp⟩
    · refine ⟨before, after ++ [e], by simp, fun e' he' => ?_⟩
      rcases List.mem_append.mp he' with he' | he'
      · exact hnone e' he'
      · rw [List.mem_singleton.mp he']
        exact hlast

namespace Timekeeper

variable {k k' : Timekeeper α} {e : Occurrence α} {es : List (Occurrence α)}

/-- One thing that happens to a timekeeper.  The agenda may be written to at any time, also
while what was collected is being released. -/
inductive Happens : Timekeeper α → Occurrence α → Timekeeper α → Prop
  | schedule (k : Timekeeper α) (deadline : Nat) (payload : α) :
    Happens k
      (.scheduled ⟨deadline, (k.agenda.schedule deadline payload).1, payload⟩ !k.agenda.stopped)
      { k with agenda := (k.agenda.schedule deadline payload).2 }
  | cancel (k : Timekeeper α) (key : Nat) :
    Happens k (.cancelled key (k.agenda.cancel key).1)
      { k with agenda := (k.agenda.cancel key).2 }
  | stop (k : Timekeeper α) :
    Happens k (.stopped k.agenda.stop.1) { k with agenda := k.agenda.stop.2 }
  | wake {k k' : Timekeeper α} {time : Nat} (htime : k.now ≤ time) (h : k.wake? time = some k') :
    Happens k (.woke time k'.batch) k'
  | release {k : Timekeeper α} {a : Alarm α} {rest : List (Alarm α)} (h : k.batch = a :: rest)
    (outcome : Except Defect Unit) : Happens k (.released a outcome) (k.released outcome)

theorem wake?_eq_some {time : Nat} : k.wake? time = some k' ↔
    k.agenda.stopped = false ∧ k.batch = [] ∧
      k' = { k with
        agenda := (k.agenda.due time).2
        now := time
        batch := (k.agenda.due time).1 } := by
  unfold wake?
  cases k.agenda.stopped <;> cases k.batch <;> simp [eq_comm]

/-! ### The accounts of a timekeeper -/

/-- What a record and the timekeeper's state say of each other. -/
structure Accounts (es : List (Occurrence α)) (k : Timekeeper α) : Prop where
  /-- The two parts of the agenda agree. -/
  kept : k.agenda.Kept
  /-- The keys are given out in turn. -/
  numbered : es.filterMap Occurrence.scheduledKey? = List.range k.agenda.nextKey
  /-- Every key is in one place. -/
  accounted : (es.filterMap Occurrence.scheduledKey?).Perm
    (k.agenda.alarms.pending.map Alarm.key ++ (es.flatMap Occurrence.collected).map Alarm.key ++
      es.filterMap Occurrence.cancelledKey? ++ es.flatMap Occurrence.droppedKeys)
  /-- The alarms that are pending. -/
  pending : ∀ a, a ∈ k.agenda.alarms.pending ↔ Pending es a
  /-- What was collected had been scheduled. -/
  origin : ∀ a ∈ es.flatMap Occurrence.collected, .scheduled a true ∈ es
  /-- What was collected is released in order. -/
  served : es.flatMap Occurrence.collected = es.filterMap Occurrence.released? ++ k.batch
  /-- Whether the agenda has been closed. -/
  stopped : k.agenda.stopped = true ↔ ∃ e ∈ es, e.IsStop
  /-- When the agenda was last looked at. -/
  now : k.now = lastLook es
  /-- What was collected was due by then. -/
  due : ∀ a ∈ k.batch, a.deadline ≤ k.now
  /-- What went wrong is reported. -/
  reports : k.reports = es.filterMap Occurrence.report?

theorem accounts_new : Accounts [] ({} : Timekeeper α) where
  kept := Agenda.kept_new
  numbered := rfl
  accounted := List.Perm.refl _
  pending := fun a => by simp [Pending, Agenda.alarms]
  origin := by simp
  served := rfl
  stopped := by simp
  now := rfl
  due := by simp
  reports := rfl

namespace Accounts

theorem nodup_keys (h : Accounts es k) : (es.filterMap Occurrence.scheduledKey?).Nodup := by
  rw [h.numbered]
  exact List.nodup_range

/-- Every key stays in one place if those that are new and those that were pending are
where the last occurrence says. -/
theorem accounted_concat (h : Accounts es k)
    (hmove : (e.scheduledKey?.toList ++ k.agenda.alarms.pending.map Alarm.key).Perm
      (k'.agenda.alarms.pending.map Alarm.key ++ e.collected.map Alarm.key ++
        e.cancelledKey?.toList ++ e.droppedKeys)) :
    ((es ++ [e]).filterMap Occurrence.scheduledKey?).Perm
      (k'.agenda.alarms.pending.map Alarm.key ++
        ((es ++ [e]).flatMap Occurrence.collected).map Alarm.key ++
        (es ++ [e]).filterMap Occurrence.cancelledKey? ++
        (es ++ [e]).flatMap Occurrence.droppedKeys) := by
  rw [List.perm_iff_count] at hmove ⊢
  intro key
  have hbefore := List.perm_iff_count.mp h.accounted key
  have hlast := hmove key
  simp only [List.filterMap_append, List.flatMap_append, List.flatMap_singleton, List.map_append,
    List.count_append, filterMap_one] at hbefore hlast ⊢
  omega

/-- Where nothing is collected, what was collected had still been scheduled. -/
theorem origin_concat (h : Accounts es k) (hnone : e.collected = []) :
    ∀ a ∈ (es ++ [e]).flatMap Occurrence.collected, .scheduled a true ∈ es ++ [e] := by
  intro a ha
  rw [List.flatMap_append, List.flatMap_singleton, hnone, List.append_nil] at ha
  exact List.mem_append_left _ (h.origin a ha)

/-- Something is scheduled while the agenda is open. -/
theorem scheduled (h : Accounts es k) (hopen : k.agenda.stopped = false) (deadline : Nat)
    (payload : α) :
    Accounts (es ++ [.scheduled ⟨deadline, k.agenda.nextKey, payload⟩ true])
      { k with agenda := (k.agenda.schedule deadline payload).2 } := by
  have hclock : (k.agenda.schedule deadline payload).2.alarms.pending =
      Alarms.insert ⟨deadline, k.agenda.nextKey, payload⟩ k.agenda.alarms.pending := by
    have heq := congrArg (fun p => p.2.pending) (Agenda.alarms_schedule h.kept deadline payload)
    simpa [Alarms.schedule, hopen] using heq
  have hins := (Alarms.insert_perm ⟨deadline, k.agenda.nextKey, payload⟩
    k.agenda.alarms.pending).map Alarm.key
  have hagenda := h.kept.schedule_of_open hopen deadline payload
  refine ⟨h.kept.schedule deadline payload, ?_, h.accounted_concat ?_, fun a => ?_,
    h.origin_concat rfl, ?_, ?_, ?_, h.due, ?_⟩
  · simp [Occurrence.scheduledKey?, h.numbered, hagenda, List.range_succ]
  · rw [hclock]
    simpa [Occurrence.scheduledKey?, Occurrence.collected, Occurrence.cancelledKey?,
      Occurrence.droppedKeys] using hins.symm
  · rw [hclock, pending_concat, Alarms.mem_insert, h.pending]
    simp [Occurrence.Ends, eq_comm]
  · simpa [filterMap_one, Occurrence.collected, Occurrence.released?] using h.served
  · simpa [hagenda, Occurrence.IsStop] using h.stopped
  · simpa [lastLook] using h.now
  · simpa [filterMap_one, Occurrence.report?] using h.reports

/-- Something is scheduled when the agenda has been closed. -/
theorem refused (h : Accounts es k) (hs : k.agenda.stopped = true) (deadline : Nat)
    (payload : α) :
    Accounts (es ++ [.scheduled ⟨deadline, k.agenda.nextKey, payload⟩ false])
      { k with agenda := (k.agenda.schedule deadline payload).2 } := by
  have hagenda := Agenda.schedule_of_stopped hs deadline payload
  have hclock : (k.agenda.schedule deadline payload).2.alarms.pending =
      k.agenda.alarms.pending := by
    rw [hagenda]
    rfl
  refine ⟨h.kept.schedule deadline payload, ?_, h.accounted_concat ?_, fun a => ?_,
    h.origin_concat rfl, ?_, ?_, ?_, h.due, ?_⟩
  · simp [Occurrence.scheduledKey?, h.numbered, hagenda, List.range_succ]
  · rw [hclock]
    simpa [Occurrence.scheduledKey?, Occurrence.collected, Occurrence.cancelledKey?,
      Occurrence.droppedKeys] using (List.perm_append_singleton k.agenda.nextKey _).symm
  · rw [hclock, pending_concat, h.pending]
    simp [Occurrence.Ends]
  · simpa [filterMap_one, Occurrence.collected, Occurrence.released?] using h.served
  · simpa [hagenda, Occurrence.IsStop] using h.stopped
  · simpa [lastLook] using h.now
  · simpa [filterMap_one, Occurrence.report?] using h.reports

/-- A key is called off. -/
theorem cancelled (h : Accounts es k) (key : Nat) :
    Accounts (es ++ [.cancelled key (k.agenda.cancel key).1])
      { k with agenda := (k.agenda.cancel key).2 } := by
  have hclock : (k.agenda.cancel key).2.alarms.pending =
      k.agenda.alarms.pending.filter fun a => a.key ≠ key :=
    congrArg (fun p => p.2.pending) (Agenda.alarms_cancel h.kept key)
  have hkeys : (k.agenda.alarms.pending.filter fun a => a.key ≠ key).map Alarm.key =
      (k.agenda.alarms.pending.map Alarm.key).erase key := by
    rw [h.kept.nodup_pending.erase_eq_filter, List.filter_map]
    exact congrArg _ (List.filter_congr fun a _ => by
      by_cases hk : a.key = key <;> simp [hk])
  refine ⟨h.kept.cancel key, ?_, h.accounted_concat ?_, fun a => ?_,
    h.origin_concat rfl, ?_, ?_, ?_, h.due, ?_⟩
  · simpa [filterMap_one, Occurrence.scheduledKey?, Agenda.cancel] using h.numbered
  · rw [hclock, hkeys]
    cases hfound : (k.agenda.cancel key).1 with
    | true =>
      obtain ⟨a, ha, rfl⟩ := h.kept.cancel_iff.mp hfound
      have hout := List.perm_cons_erase (List.mem_map_of_mem (f := Alarm.key) ha)
      simpa [Occurrence.scheduledKey?, Occurrence.collected, Occurrence.cancelledKey?,
        Occurrence.droppedKeys] using hout.trans (List.perm_append_singleton _ _).symm
    | false =>
      have hnot : key ∉ k.agenda.alarms.pending.map Alarm.key := by
        intro hmem
        obtain ⟨a, ha, hak⟩ := List.mem_map.mp hmem
        simp [h.kept.cancel_iff.mpr ⟨a, ha, hak⟩] at hfound
      rw [List.erase_of_not_mem hnot]
      simp [Occurrence.scheduledKey?, Occurrence.collected, Occurrence.cancelledKey?,
        Occurrence.droppedKeys]
  · rw [hclock, pending_concat, List.mem_filter, h.pending,
      or_iff_right (by simp), decide_eq_true_iff]
    exact and_congr_right fun _ => not_congr eq_comm
  · simpa [filterMap_one, Occurrence.collected, Occurrence.released?] using h.served
  · simpa [Occurrence.IsStop, Agenda.cancel] using h.stopped
  · simpa [lastLook] using h.now
  · simpa [filterMap_one, Occurrence.report?] using h.reports

/-- The agenda is closed. -/
theorem closed (h : Accounts es k) :
    Accounts (es ++ [.stopped k.agenda.stop.1]) { k with agenda := k.agenda.stop.2 } := by
  have hnone : k.agenda.stop.2.alarms.pending = [] := rfl
  refine ⟨Agenda.kept_stop, ?_, h.accounted_concat ?_, fun a => ?_,
    h.origin_concat rfl, ?_, ?_, ?_, h.due, ?_⟩
  · simpa [filterMap_one, Occurrence.scheduledKey?, Agenda.stop] using h.numbered
  · rw [hnone]
    simpa [Occurrence.scheduledKey?, Occurrence.collected, Occurrence.cancelledKey?,
      Occurrence.droppedKeys, Agenda.stop] using h.kept.pending_perm
  · rw [hnone, pending_concat]
    simp [Occurrence.Ends]
  · simpa [filterMap_one, Occurrence.collected, Occurrence.released?] using h.served
  · simp [Agenda.stop, Occurrence.IsStop]
  · simpa [lastLook] using h.now
  · simpa [filterMap_one, Occurrence.report?] using h.reports

/-- The agenda is looked at. -/
theorem woke (h : Accounts es k) {time : Nat} (hlook : k.wake? time = some k') :
    Accounts (es ++ [.woke time k'.batch]) k' := by
  obtain ⟨hopen, hempty, rfl⟩ := wake?_eq_some.mp hlook
  obtain ⟨hsplit, hearly, hlate⟩ := h.kept.alarms_split time
  have hagenda := h.kept.due_eq time
  refine ⟨h.kept.due time, ?_, h.accounted_concat ?_, fun a => ?_, ?_, ?_, ?_, ?_,
    hearly, ?_⟩
  · simpa [filterMap_one, Occurrence.scheduledKey?, hagenda] using h.numbered
  · rw [hsplit, List.map_append]
    simpa [Occurrence.scheduledKey?, Occurrence.collected, Occurrence.cancelledKey?,
      Occurrence.droppedKeys] using List.perm_append_comm
  · rw [pending_concat, ← h.pending, hsplit, List.mem_append]
    simp only [Occurrence.Ends, reduceCtorEq, false_or]
    constructor
    · intro ha
      exact ⟨Or.inr ha, Nat.not_le.mpr (hlate a ha)⟩
    · rintro ⟨ha | ha, hnot⟩
      · exact absurd (hearly a ha) hnot
      · exact ha
  · intro a ha
    rw [List.flatMap_append, List.flatMap_singleton, List.mem_append] at ha
    rcases ha with ha | ha
    · exact List.mem_append_left _ (h.origin a ha)
    · have hpending := (h.pending a).mp (hsplit ▸ List.mem_append_left _ ha)
      exact List.mem_append_left _ hpending.scheduled
  · have hserved := h.served
    rw [hempty, List.append_nil] at hserved
    simp [filterMap_one, Occurrence.collected, Occurrence.released?, hserved]
  · simpa [Occurrence.IsStop, hagenda] using h.stopped
  · simp [lastLook]
  · simpa [filterMap_one, Occurrence.report?] using h.reports

/-- Something that was collected is released. -/
theorem released (h : Accounts es k) {a : Alarm α} {rest : List (Alarm α)}
    (hnext : k.batch = a :: rest) (outcome : Except Defect Unit) :
    Accounts (es ++ [.released a outcome]) (k.released outcome) := by
  have hbatch : (k.released outcome).batch = rest := by simp [Timekeeper.released, hnext]
  have hagenda : (k.released outcome).agenda = k.agenda := rfl
  have hnow : (k.released outcome).now = k.now := rfl
  refine ⟨h.kept, ?_, h.accounted_concat ?_, fun b => ?_, h.origin_concat rfl,
    ?_, ?_, ?_, ?_, ?_⟩
  · simpa [filterMap_one, Occurrence.scheduledKey?, hagenda] using h.numbered
  · simp [Occurrence.scheduledKey?, Occurrence.collected, Occurrence.cancelledKey?,
      Occurrence.droppedKeys, hagenda]
  · rw [pending_concat, hagenda]
    simpa [Occurrence.Ends] using h.pending b
  · rw [hbatch]
    simpa [filterMap_one, Occurrence.collected, Occurrence.released?, hnext] using h.served
  · simpa [Occurrence.IsStop, hagenda] using h.stopped
  · simpa [lastLook, hnow] using h.now
  · rw [hbatch]
    exact fun b hb => h.due b (by simp [hnext, hb])
  · cases outcome <;> simp [filterMap_one, Timekeeper.released, Occurrence.report?, h.reports]

end Accounts

/-- Whatever happens, the accounts stay right. -/
theorem Happens.accounts (h' : k.Happens e k') (h : Accounts es k) : Accounts (es ++ [e]) k' := by
  cases h' with
  | schedule deadline payload =>
    cases hs : k.agenda.stopped with
    | true =>
      simpa [Agenda.schedule_of_stopped hs] using h.refused hs deadline payload
    | false =>
      simpa [h.kept.schedule_of_open hs] using h.scheduled hs deadline payload
  | cancel key => exact h.cancelled key
  | stop => exact h.closed
  | wake htime hlook => exact h.woke hlook
  | release hnext outcome => exact h.released hnext outcome

/-- The accounts of a new timekeeper are right for ever. -/
theorem accounts_of_log (h : Log Happens ({} : Timekeeper α) es k) : Accounts es k := by
  induction h with
  | rest => exact accounts_new
  | add _ hlast ih => exact hlast.accounts ih

/-- What a record says of a timekeeper. -/
structure Lawful (es : List (Occurrence α)) (k : Timekeeper α) : Prop where
  /-- No key is given out twice. -/
  distinct : (es.filterMap Occurrence.scheduledKey?).Nodup
  /-- What is released was scheduled before, and due when the agenda was last looked at. -/
  after_deadline : ∀ before a outcome after, es = before ++ .released a outcome :: after →
    .scheduled a true ∈ before ∧ a.deadline ≤ lastLook before
  /-- Nothing is released twice. -/
  once : ((es.filterMap Occurrence.released?).map Alarm.key).Nodup
  /-- Whoever calls off a key is told whether it was pending, -/
  cancelled_iff : ∀ before key found after, es = before ++ .cancelled key found :: after →
    (found = true ↔ ∃ a, Pending before a ∧ a.key = key)
  /-- and what was pending then is not released. -/
  cancelled : ∀ key, .cancelled key true ∈ es → ∀ a ∈ es.filterMap Occurrence.released?,
    a.key ≠ key
  /-- Whoever looks at the agenda collects what is pending and due, in order. -/
  collected : ∀ before time due after, es = before ++ .woke time due :: after →
    (∀ a, a ∈ due ↔ Pending before a ∧ a.deadline ≤ time) ∧ due.Pairwise Alarm.Before
  /-- That is released in order, whatever goes wrong, before the agenda is looked at again, -/
  pass : ∀ before time due between time' due' after,
    es = before ++ .woke time due :: between ++ .woke time' due' :: after →
    (∀ e ∈ between, ¬e.IsLook) → between.filterMap Occurrence.released? = due
  /-- or else the rest of it is about to be released, -/
  last_pass : ∀ before time due after, es = before ++ .woke time due :: after →
    (∀ e ∈ after, ¬e.IsLook) → after.filterMap Occurrence.released? ++ k.batch = due
  /-- which is always possible. -/
  goes_on : ∀ perform : α → Except Defect Unit,
    Log Happens k (k.batch.map fun a => .released a (perform a.payload)) (k.serve perform) ∧
      (k.serve perform).batch = []
  /-- What went wrong is reported. -/
  reports : k.reports = es.filterMap Occurrence.report?
  /-- The pending alarms are those of the clock that the agenda keeps, -/
  pending_iff : ∀ a, a ∈ k.agenda.alarms.pending ↔ Pending es a
  /-- in order, -/
  pending_sorted : k.agenda.alarms.pending.Pairwise Alarm.Before
  /-- and as many as the agenda says: all that were scheduled but those that were
  collected, called off or dropped. -/
  pending_eq : k.agenda.pending = k.agenda.alarms.pending.length ∧
    k.agenda.pending + (es.flatMap Occurrence.collected).length +
        (es.filterMap Occurrence.cancelledKey?).length +
        (es.flatMap Occurrence.droppedKeys).length =
      (es.filterMap Occurrence.scheduledKey?).length
  /-- The deadlines of payloads that are gone are passed over. -/
  skips : ∀ time, (k.agenda.tidy.due time).1 = (k.agenda.due time).1 ∧
    (k.agenda.tidy.due time).2.alarms = (k.agenda.due time).2.alarms
  /-- When the agenda is closed, what is pending is dropped and not released, -/
  stopped : ∀ before dropped after, es = before ++ .stopped dropped :: after →
    (∀ key, key ∈ dropped.map Prod.fst ↔ ∃ a, Pending before a ∧ a.key = key) ∧
      ∀ a, Pending before a → ∀ b ∈ es.filterMap Occurrence.released?, b.key ≠ a.key
  /-- nor is anything that is scheduled afterwards. -/
  refused : ∀ before a kept after, es = before ++ .scheduled a kept :: after →
    (kept = false ↔ ∃ e ∈ before, e.IsStop) ∧
      (kept = false → ∀ b ∈ es.filterMap Occurrence.released?, b.key ≠ a.key)

namespace Accounts

variable (h : Accounts es k)
include h

/-- The keys that were given out are in four different places. -/
theorem nodup_places : (k.agenda.alarms.pending.map Alarm.key ++
    (es.flatMap Occurrence.collected).map Alarm.key ++ es.filterMap Occurrence.cancelledKey? ++
      es.flatMap Occurrence.droppedKeys).Nodup :=
  h.accounted.nodup_iff.mp h.nodup_keys

/-- What is released was collected. -/
theorem mem_collected {a : Alarm α} (ha : a ∈ es.filterMap Occurrence.released?) :
    a.key ∈ (es.flatMap Occurrence.collected).map Alarm.key := by
  rw [h.served]
  exact List.mem_map_of_mem (List.mem_append_left _ ha)

/-- What was called off is not released. -/
theorem ne_cancelled {a : Alarm α} (ha : a ∈ es.filterMap Occurrence.released?) {key : Nat}
    (hkey : key ∈ es.filterMap Occurrence.cancelledKey?) : a.key ≠ key := by
  have hparts := (List.nodup_append.mp (List.nodup_append.mp h.nodup_places).1).2.2
  exact hparts _ (List.mem_append_right _ (h.mem_collected ha)) _ hkey

/-- What was dropped is not released. -/
theorem ne_dropped {a : Alarm α} (ha : a ∈ es.filterMap Occurrence.released?) {key : Nat}
    (hkey : key ∈ es.flatMap Occurrence.droppedKeys) : a.key ≠ key := by
  have hparts := (List.nodup_append.mp h.nodup_places).2.2
  exact hparts _ (List.mem_append_left _ (List.mem_append_right _ (h.mem_collected ha))) _ hkey

theorem once : ((es.filterMap Occurrence.released?).map Alarm.key).Nodup := by
  have hcollected : ((es.flatMap Occurrence.collected).map Alarm.key).Nodup :=
    h.nodup_places.sublist ((List.sublist_append_right _ _).trans
      ((List.sublist_append_left _ _).trans (List.sublist_append_left _ _)))
  rw [h.served, List.map_append] at hcollected
  exact hcollected.sublist (List.sublist_append_left _ _)

theorem pending_count : k.agenda.pending + (es.flatMap Occurrence.collected).length +
    (es.filterMap Occurrence.cancelledKey?).length + (es.flatMap Occurrence.droppedKeys).length =
      (es.filterMap Occurrence.scheduledKey?).length := by
  have hlen := h.accounted.length_eq
  simp only [List.length_append, List.length_map] at hlen
  rw [h.kept.pending_eq, hlen]

end Accounts

/-- What has been collected is released before the agenda is looked at again. -/
theorem serves (h : Log Happens k es k') (hnone : ∀ e ∈ es, ¬e.IsLook) :
    es.filterMap Occurrence.released? ++ k'.batch = k.batch := by
  induction h with
  | rest => rfl
  | @add es e m m' _ hlast ih =>
    have ih := ih fun e he => hnone e (List.mem_append_left _ he)
    rw [← ih, List.filterMap_append, filterMap_one, List.append_assoc]
    congr 1
    cases hlast with
    | schedule deadline payload => rfl
    | cancel key => rfl
    | stop => rfl
    | wake htime hlook => exact absurd ⟨_, _, rfl⟩ (hnone _ List.mem_concat_self)
    | release hnext outcome => simp [Occurrence.released?, released, hnext]

/-- Everything that has been collected can be released. -/
theorem log_serve (k : Timekeeper α) (perform : α → Except Defect Unit) :
    Log Happens k (k.batch.map fun a => .released a (perform a.payload)) (k.serve perform) ∧
      (k.serve perform).batch = [] := by
  unfold serve
  generalize hbatch : k.batch = batch
  induction batch generalizing k with
  | nil => exact ⟨.rest, hbatch⟩
  | cons a rest ih =>
    have hrest : (k.released (perform a.payload)).batch = rest := by simp [released, hbatch]
    obtain ⟨hrec, hdone⟩ := ih (k.released (perform a.payload)) hrest
    exact ⟨(Log.one (.release hbatch (perform a.payload))).append hrec, hdone⟩

/-! ### What happens next, by the record so far -/

section

variable {a : Alarm α} {key time : Nat}

/-- What is released had been scheduled, and was due. -/
theorem Happens.due_of_released {outcome : Except Defect Unit}
    (h' : k.Happens (.released a outcome) k') (h : Accounts es k) :
    .scheduled a true ∈ es ∧ a.deadline ≤ lastLook es := by
  cases h' with
  | release hnext =>
    have ha : a ∈ k.batch := hnext ▸ List.mem_cons_self
    refine ⟨h.origin a ?_, h.now ▸ h.due a ha⟩
    rw [h.served]
    exact List.mem_append_right _ ha

/-- A key is found exactly if its alarm is pending. -/
theorem Happens.cancelled_iff {found : Bool} (h' : k.Happens (.cancelled key found) k')
    (h : Accounts es k) : found = true ↔ ∃ a, Pending es a ∧ a.key = key := by
  cases h'
  rw [h.kept.cancel_iff]
  exact exists_congr fun a => and_congr_left fun _ => h.pending a

/-- What is collected is what is pending and due, in order. -/
theorem Happens.collected_iff {due : List (Alarm α)} (h' : k.Happens (.woke time due) k')
    (h : Accounts es k) :
    (∀ a, a ∈ due ↔ Pending es a ∧ a.deadline ≤ time) ∧ due.Pairwise Alarm.Before := by
  cases h' with
  | wake htime hlook =>
    obtain ⟨-, -, rfl⟩ := wake?_eq_some.mp hlook
    obtain ⟨hsplit, hearly, hlate⟩ := h.kept.alarms_split time
    refine ⟨fun a => ?_, ?_⟩
    · rw [← h.pending, hsplit, List.mem_append]
      constructor
      · intro ha
        exact ⟨Or.inl ha, hearly a ha⟩
      · rintro ⟨ha | ha, hle⟩
        · exact ha
        · exact absurd hle (Nat.not_le.mpr (hlate a ha))
    · have hsorted := h.kept.pairwise_pending
      rw [hsplit] at hsorted
      exact (List.pairwise_append.mp hsorted).1

/-- Nothing is left of what had been collected before, and what is collected now is about to
be released. -/
theorem Happens.batch_of_woke {due : List (Alarm α)} (h' : k.Happens (.woke time due) k') :
    k.batch = [] ∧ k'.batch = due := by
  cases h' with
  | wake htime hlook => exact ⟨(wake?_eq_some.mp hlook).2.1, rfl⟩

/-- What is dropped is what is pending. -/
theorem Happens.dropped_iff {dropped : List (Nat × α)} (h' : k.Happens (.stopped dropped) k')
    (h : Accounts es k) : key ∈ dropped.map Prod.fst ↔ ∃ a, Pending es a ∧ a.key = key := by
  cases h'
  show key ∈ k.agenda.payloads.map Prod.fst ↔ _
  rw [← h.kept.pending_perm.mem_iff, List.mem_map]
  exact exists_congr fun a => and_congr_left fun _ => h.pending a

/-- What is scheduled is kept unless the agenda has been closed. -/
theorem Happens.kept_iff {kept : Bool} (h' : k.Happens (.scheduled a kept) k')
    (h : Accounts es k) : kept = false ↔ ∃ e ∈ es, e.IsStop := by
  cases h'
  rw [← h.stopped, Bool.not_eq_false']

end

/-- Every record of a new timekeeper is lawful. -/
theorem rings_on_time (h : Log Happens ({} : Timekeeper α) es k) : Lawful es k := by
  have hacc := accounts_of_log h
  refine ⟨hacc.nodup_keys, ?_, hacc.once, ?_, ?_, ?_, ?_, ?_, log_serve k, hacc.reports,
    hacc.pending, hacc.kept.pairwise_pending, ⟨hacc.kept.pending_eq, hacc.pending_count⟩,
    hacc.kept.due_tidy, ?_, ?_⟩
  · rintro before a outcome after rfl
    obtain ⟨m, m', hm, hnow, -⟩ := h.split_at
    exact hnow.due_of_released (accounts_of_log hm)
  · rintro before key found after rfl
    obtain ⟨m, m', hm, hnow, -⟩ := h.split_at
    exact hnow.cancelled_iff (accounts_of_log hm)
  · intro key hkey a ha
    exact hacc.ne_cancelled ha (List.mem_filterMap.mpr ⟨_, hkey, rfl⟩)
  · rintro before time due after rfl
    obtain ⟨m, m', hm, hnow, -⟩ := h.split_at
    exact hnow.collected_iff (accounts_of_log hm)
  · rintro before time due between time' due' after rfl hnone
    rw [List.append_assoc, List.cons_append] at h
    obtain ⟨m, m', -, hnow, hafter⟩ := h.split_at
    obtain ⟨n, n', hn, hnext, -⟩ := hafter.split_at
    have hserved := serves hn hnone
    rwa [hnext.batch_of_woke.1, List.append_nil, hnow.batch_of_woke.2] at hserved
  · rintro before time due after rfl hnone
    obtain ⟨m, m', -, hnow, hafter⟩ := h.split_at
    rw [← hnow.batch_of_woke.2]
    exact serves hafter hnone
  · rintro before dropped after rfl
    obtain ⟨m, m', hm, hnow, -⟩ := h.split_at
    refine ⟨fun key => hnow.dropped_iff (accounts_of_log hm), fun a ha b hb => ?_⟩
    have hkey := (hnow.dropped_iff (accounts_of_log hm)).mpr ⟨a, ha, rfl⟩
    exact hacc.ne_dropped hb (List.mem_flatMap.mpr ⟨.stopped dropped, by simp, hkey⟩)
  · rintro before a kept after rfl
    obtain ⟨m, m', hm, hnow, -⟩ := h.split_at
    refine ⟨hnow.kept_iff (accounts_of_log hm), ?_⟩
    rintro rfl b hb
    refine hacc.ne_dropped hb (List.mem_flatMap.mpr ⟨.scheduled a false, by simp, ?_⟩)
    exact List.mem_singleton_self _

/-- Two alarms are collected together, the second one being due first, after a third one
has been called off; something goes wrong in the one that is released first. -/
def busyDay : List (Occurrence Nat) :=
  [.scheduled ⟨5, 0, 10⟩ true, .scheduled ⟨3, 1, 20⟩ true, .cancelled 0 true,
    .scheduled ⟨2, 2, 30⟩ true, .woke 4 [⟨2, 2, 30⟩, ⟨3, 1, 20⟩],
    .released ⟨2, 2, 30⟩ (.error default), .cancelled 1 false, .released ⟨3, 1, 20⟩ (.ok ()),
    .stopped [], .scheduled ⟨1, 3, 40⟩ false]

theorem exists_log_busyDay : ∃ k, Log Happens ({} : Timekeeper Nat) busyDay k := by
  have hmorning : Log Happens ({} : Timekeeper Nat) (busyDay.take 4) _ :=
    (((Log.rest.add (.schedule _ 5 10)).add (.schedule _ 3 20)).add (.cancel _ 0)).add
      (.schedule _ 2 30)
  have hnoon : Log Happens ({} : Timekeeper Nat) (busyDay.take 6) _ :=
    (hmorning.add (.wake (Nat.zero_le 4) rfl)).add (.release rfl (.error default))
  have hevening : Log Happens ({} : Timekeeper Nat) (busyDay.take 8) _ :=
    (hnoon.add (.cancel _ 1)).add (.release rfl (.ok ()))
  exact ⟨_, (hevening.add (.stop _)).add (.schedule _ 1 40)⟩

theorem rings_on_time_busyDay :
    ∃ k, Log Happens ({} : Timekeeper Nat) busyDay k ∧ Lawful busyDay k := by
  obtain ⟨k, h⟩ := exists_log_busyDay
  exact ⟨k, h, rings_on_time h⟩

end Timekeeper

end Fibers
