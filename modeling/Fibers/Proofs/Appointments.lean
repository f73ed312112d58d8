import Mathlib.Data.List.Nodup
import Mathlib.Data.List.Perm.Basic
import Fibers.Agenda

/-!
# Appointments

An agenda has two parts which must agree: a list of deadlines, in which those of payloads
that are gone stay behind, and a table of the payloads.  What an agenda means is the alarm
clock that it keeps (`Agenda.alarms`), in which there is one alarm for each payload of the
table.  Every operation on the agenda is the operation of the same name on that clock, so
the deadlines that stay behind do not matter.

## Main definitions

* `Alarm.Before` — the order in which alarms ring.
* `Agenda.Kept` — the two parts of an agenda agree.

## Main results

* `Agenda.Kept.schedule`, `Agenda.Kept.cancel`, `Agenda.Kept.due` — they agree however the
  agenda is used.
* `Agenda.alarms_schedule`, `Agenda.alarms_cancel`, `Agenda.alarms_stop`,
  `Agenda.alarms_due` — the operations on an agenda are those on the clock that it keeps.
* `Agenda.Kept.pending_perm` — there is one alarm for each payload.
* `Agenda.Kept.due_tidy` — the deadlines that stay behind do not matter.
-/

namespace Fibers

variable {α : Type}

/-- An alarm comes before another one if it is due earlier, or if it is due at the same
time and was scheduled first. -/
def Alarm.Before (a b : Alarm α) : Prop :=
  a.deadline < b.deadline ∨ a.deadline = b.deadline ∧ a.key < b.key

theorem Appointment.before_iff {a b : Appointment} :
    a.before b = true ↔ a.deadline < b.deadline ∨ a.deadline = b.deadline ∧ a.key < b.key := by
  simp [Appointment.before]

theorem Appointment.before_of_key_lt {a b : Appointment} (h : a.key < b.key) :
    a.before b = true ↔ a.deadline ≤ b.deadline := by
  rw [before_iff]
  omega

namespace Alarms

/-- An alarm that is due before all others is put in front of them. -/
theorem insert_of_lt {a : Alarm α} {l : List (Alarm α)} (h : ∀ b ∈ l, a.deadline < b.deadline) :
    insert a l = a :: l := by
  cases l with
  | nil => rfl
  | cons b rest =>
    have hb := h b (by simp)
    exact if_neg (by omega)

/-- Putting an alarm in its place does not change what else there is. -/
theorem insert_perm (a : Alarm α) (l : List (Alarm α)) : (insert a l).Perm (a :: l) := by
  induction l with
  | nil => exact List.Perm.refl _
  | cons b rest ih =>
    unfold insert
    split
    · exact (ih.cons b).trans (List.Perm.swap a b rest)
    · exact List.Perm.refl _

end Alarms

/-! ### The table of payloads -/

namespace Agenda

variable {c : Agenda α} {key : Nat} {payloads : List (Nat × α)} {a : Appointment} {now : Nat}
  {l : List Appointment} {x : Alarm α}

theorem lookup_isSome_iff : (payloads.lookup key).isSome ↔ key ∈ payloads.map Prod.fst := by
  induction payloads with
  | nil => simp
  | cons e rest ih =>
    obtain ⟨k, payload⟩ := e
    by_cases hk : key = k
    · subst hk
      simp
    · rw [List.lookup_cons, beq_false_of_ne hk, List.map_cons, List.mem_cons]
      simp only [ih, hk, false_or]

theorem lookup_filter {p : Nat × α → Bool} (h : ∀ payload, p (key, payload) = true) :
    (payloads.filter p).lookup key = payloads.lookup key := by
  induction payloads with
  | nil => rfl
  | cons e rest ih =>
    obtain ⟨k, payload⟩ := e
    by_cases hk : key = k
    · subst hk
      simp [h payload]
    · by_cases hp : p (k, payload) = true
      · simp [hp, List.lookup_cons, beq_false_of_ne hk, ih]
      · simp [hp, List.lookup_cons, beq_false_of_ne hk, ih]

theorem without_of_lookup_eq_none (h : payloads.lookup key = none) :
    without key payloads = payloads := by
  refine List.filter_eq_self.mpr fun e he => ?_
  have hnot : key ∉ payloads.map Prod.fst := by
    rw [← lookup_isSome_iff, h]
    simp
  have hne : e.1 ≠ key := fun heq => hnot (heq ▸ List.mem_map_of_mem he)
  simpa using hne

/-- What remains of an appointment's alarm when another key is taken out. -/
theorem alarm?_without (h : a.key ≠ key) : alarm? (without key payloads) a = alarm? payloads a := by
  unfold alarm? without
  rw [lookup_filter fun _ => by simpa using h]

theorem alarm?_without_self (h : a.key = key) : alarm? (without key payloads) a = none := by
  have hnot : ¬((without key payloads).lookup a.key).isSome := by
    rw [lookup_isSome_iff, h]
    simp [without]
  rw [alarm?, Option.not_isSome_iff_eq_none.mp hnot, Option.map_none]

theorem alarm?_eq_some : alarm? payloads a = some x ↔
    payloads.lookup a.key = some x.payload ∧ x.deadline = a.deadline ∧ x.key = a.key := by
  obtain ⟨deadline, key, payload⟩ := x
  simp only [alarm?, Option.map_eq_some_iff, Alarm.mk.injEq]
  constructor
  · rintro ⟨payload', h, rfl, rfl, rfl⟩
    exact ⟨h, rfl, rfl⟩
  · rintro ⟨h, rfl, rfl⟩
    exact ⟨payload, h, rfl, rfl, rfl⟩

/-! ### The list of deadlines -/

theorem mem_enter {b : Appointment} : b ∈ enter a l ↔ b = a ∨ b ∈ l := by
  induction l with
  | nil => simp [enter]
  | cons d rest ih =>
    unfold enter
    split
    · simp only [List.mem_cons, ih]
      tauto
    · simp only [List.mem_cons]

theorem map_key_enter_perm :
    ((enter a l).map Appointment.key).Perm (a.key :: l.map Appointment.key) := by
  induction l with
  | nil => exact List.Perm.refl _
  | cons b rest ih =>
    unfold enter
    split
    · exact (ih.cons b.key).trans (List.Perm.swap _ _ _)
    · exact List.Perm.refl _

/-- A new appointment is put in its place. -/
theorem pairwise_enter (hl : l.Pairwise fun a b => a.before b = true)
    (hkey : ∀ b ∈ l, b.key < a.key) : (enter a l).Pairwise fun a b => a.before b = true := by
  induction l with
  | nil => simp [enter]
  | cons b rest ih =>
    obtain ⟨hb, hrest⟩ := List.pairwise_cons.mp hl
    have hba := hkey b (by simp)
    unfold enter
    split
    case isTrue h =>
      refine List.pairwise_cons.mpr ⟨fun d hd => ?_, ih hrest fun d hd => hkey d (by simp [hd])⟩
      rcases mem_enter.mp hd with rfl | hd
      · exact h
      · exact hb d hd
    case isFalse h =>
      have hlt : a.deadline < b.deadline := by
        rw [Appointment.before_of_key_lt hba] at h
        omega
      refine List.pairwise_cons.mpr ⟨fun d hd => ?_, hl⟩
      rw [Appointment.before_iff]
      rcases List.mem_cons.mp hd with rfl | hd
      · exact Or.inl hlt
      · have := Appointment.before_iff.mp (hb d hd)
        omega

/-- A new appointment stands where the clock puts its alarm. -/
theorem filterMap_enter {f : Appointment → Option (Alarm α)}
    (hf : ∀ b y, f b = some y → y.deadline = b.deadline)
    (hl : l.Pairwise fun a b => a.before b = true) (hkey : ∀ b ∈ l, b.key < a.key)
    (ha : f a = some x) : (enter a l).filterMap f = Alarms.insert x (l.filterMap f) := by
  have hx := hf a x ha
  induction l with
  | nil => simp [enter, Alarms.insert, ha]
  | cons b rest ih =>
    obtain ⟨hb, hrest⟩ := List.pairwise_cons.mp hl
    have hba := hkey b (by simp)
    have ih := ih hrest fun d hd => hkey d (by simp [hd])
    unfold enter
    split
    case isTrue h =>
      rw [Appointment.before_of_key_lt hba] at h
      cases hfb : f b with
      | none => rw [List.filterMap_cons_none hfb, List.filterMap_cons_none hfb, ih]
      | some y =>
        have hle : y.deadline ≤ x.deadline := by
          rw [hf b y hfb, hx]
          exact h
        rw [List.filterMap_cons_some hfb, List.filterMap_cons_some hfb, ih, Alarms.insert,
          if_pos hle]
    case isFalse h =>
      -- Everything from here on is due later, whether its payload is gone or not.
      rw [Appointment.before_of_key_lt hba] at h
      rw [List.filterMap_cons_some ha, Alarms.insert_of_lt]
      intro y hy
      obtain ⟨d, hd, hdy⟩ := List.mem_filterMap.mp hy
      rw [hf d y hdy, hx]
      rcases List.mem_cons.mp hd with rfl | hd
      · omega
      · have := Appointment.before_iff.mp (hb d hd)
        omega

/-- What is collected, by the appointments that are due. -/
theorem collect_eq (hl : (l.map Appointment.key).Nodup) :
    collect now l payloads =
      ((l.takeWhile fun a => a.deadline ≤ now).filterMap (alarm? payloads),
        l.dropWhile fun a => a.deadline ≤ now,
        payloads.filter fun e => !(l.takeWhile fun a => a.deadline ≤ now).any fun a => a.key == e.1)
    := by
  induction l generalizing payloads with
  | nil => simp [collect]
  | cons a rest ih =>
    obtain ⟨hnew, hrest⟩ := List.nodup_cons.mp hl
    unfold collect
    by_cases h : now < a.deadline
    · have h' : ¬a.deadline ≤ now := by omega
      simp [h, h']
    · have h' : a.deadline ≤ now := by omega
      have hsame : ∀ b ∈ rest.takeWhile (fun a => a.deadline ≤ now),
          alarm? (without a.key payloads) b = alarm? payloads b := fun b hb =>
        alarm?_without fun heq => hnew (heq ▸ List.mem_map_of_mem (List.takeWhile_subset _ hb))
      have hleft : (without a.key payloads).filter (fun e =>
          !(rest.takeWhile fun a => a.deadline ≤ now).any fun a => a.key == e.1) =
          payloads.filter fun e =>
            !((a :: rest).takeWhile fun a => a.deadline ≤ now).any fun a => a.key == e.1 := by
        rw [without, List.filter_filter, List.takeWhile_cons_of_pos (by simpa using h')]
        refine List.filter_congr fun e _ => ?_
        by_cases he : e.1 = a.key
        · simp [he]
        · simp [he, Ne.symm he]
      have hgo : collect now rest (without a.key payloads) = _ := ih hrest
      rw [List.filterMap_congr hsame, hleft] at hgo
      rw [if_neg h]
      cases hpay : payloads.lookup a.key with
      | none =>
        have hnone : alarm? payloads a = none := by simp [alarm?, hpay]
        rw [without_of_lookup_eq_none hpay] at hgo
        simp [hgo, h', hnone]
      | some payload =>
        have hsome : alarm? payloads a = some ⟨a.deadline, a.key, payload⟩ := by
          simp [alarm?, hpay]
        simp [hgo, h', hsome]

/-! ### The agenda and its clock -/

/-- The two parts of an agenda agree. -/
structure Kept (c : Agenda α) : Prop where
  /-- The deadlines are in order. -/
  sorted : c.appointments.Pairwise fun a b => a.before b = true
  /-- Every key has one deadline. -/
  distinct : (c.appointments.map Appointment.key).Nodup
  /-- The key that is given out next has none. -/
  fresh : ∀ a ∈ c.appointments, a.key < c.nextKey
  /-- Every key has one payload. -/
  single : (c.payloads.map Prod.fst).Nodup
  /-- What has a payload has a deadline. -/
  entered : c.payloads.map Prod.fst ⊆ c.appointments.map Appointment.key
  /-- Nothing is left once the agenda has been closed. -/
  closed : c.stopped = true → c.appointments = []

theorem kept_new : ({} : Agenda α).Kept where
  sorted := List.Pairwise.nil
  distinct := List.nodup_nil
  fresh := by simp
  single := List.nodup_nil
  entered := List.Subset.refl _
  closed := fun _ => rfl

/-- What an agenda that is closed does with a new payload. -/
theorem schedule_of_stopped (hs : c.stopped = true) (deadline : Nat) (payload : α) :
    c.schedule deadline payload = (c.nextKey, { c with nextKey := c.nextKey + 1 }) := by
  simp [schedule, hs]

theorem kept_stop : c.stop.2.Kept where
  sorted := List.Pairwise.nil
  distinct := List.nodup_nil
  fresh := by simp [Agenda.stop]
  single := List.nodup_nil
  entered := List.Subset.refl _
  closed := fun _ => rfl

namespace Kept

variable (h : c.Kept)
include h

theorem lt_nextKey (hkey : key ∈ c.payloads.map Prod.fst) : key < c.nextKey := by
  obtain ⟨a, ha, rfl⟩ := List.mem_map.mp (h.entered hkey)
  exact h.fresh a ha

theorem without_nextKey : without c.nextKey c.payloads = c.payloads := by
  refine without_of_lookup_eq_none (Option.not_isSome_iff_eq_none.mp fun hsome => ?_)
  exact Nat.lt_irrefl _ (h.lt_nextKey (lookup_isSome_iff.mp hsome))

/-- What an agenda that is open does with a new payload. -/
theorem schedule_of_open (hopen : c.stopped = false) (deadline : Nat) (payload : α) :
    c.schedule deadline payload =
      (c.nextKey, { c with
        appointments := enter ⟨deadline, c.nextKey⟩ c.appointments
        payloads := c.payloads ++ [(c.nextKey, payload)]
        nextKey := c.nextKey + 1 }) := by
  simp [Agenda.schedule, hopen, h.without_nextKey]

theorem schedule (deadline : Nat) (payload : α) : (c.schedule deadline payload).2.Kept := by
  cases hs : c.stopped with
  | true =>
    rw [schedule_of_stopped hs]
    exact { h with fresh := fun a ha => Nat.lt_succ_of_lt (h.fresh a ha) }
  | false =>
    rw [h.schedule_of_open hs]
    refine ⟨pairwise_enter h.sorted h.fresh, ?_, ?_, ?_, ?_, fun hstop => by simp_all⟩
    · refine map_key_enter_perm.nodup_iff.mpr (List.nodup_cons.mpr ⟨fun hmem => ?_, h.distinct⟩)
      obtain ⟨a, ha, hkey⟩ := List.mem_map.mp hmem
      exact Nat.lt_irrefl _ (hkey ▸ h.fresh a ha)
    · intro a ha
      rcases mem_enter.mp ha with rfl | ha
      · exact Nat.lt_succ_self _
      · exact Nat.lt_succ_of_lt (h.fresh a ha)
    · rw [List.map_append]
      refine List.Nodup.append h.single (List.nodup_singleton _) fun key hkey hnew => ?_
      rw [List.map_singleton, List.mem_singleton] at hnew
      exact Nat.lt_irrefl _ (hnew ▸ h.lt_nextKey hkey)
    · intro key hkey
      rw [map_key_enter_perm.mem_iff, List.mem_cons]
      rw [List.map_append, List.mem_append] at hkey
      rcases hkey with hkey | hkey
      · exact Or.inr (h.entered hkey)
      · exact Or.inl (by simpa using hkey)

theorem cancel (key : Nat) : (c.cancel key).2.Kept where
  sorted := h.sorted
  distinct := h.distinct
  fresh := h.fresh
  single := h.single.sublist (List.filter_sublist.map _)
  entered := List.Subset.trans (List.map_subset _ (List.filter_subset_self _)) h.entered
  closed := h.closed

theorem due_eq (now : Nat) : c.due now =
    ((c.appointments.takeWhile fun a => a.deadline ≤ now).filterMap (alarm? c.payloads),
      { c with
        appointments := c.appointments.dropWhile fun a => a.deadline ≤ now
        payloads := c.payloads.filter fun e =>
          !(c.appointments.takeWhile fun a => a.deadline ≤ now).any fun a => a.key == e.1 }) := by
  simp only [Agenda.due, collect_eq h.distinct]

theorem due (now : Nat) : (c.due now).2.Kept := by
  rw [h.due_eq now]
  have hsub := List.dropWhile_sublist (fun a : Appointment => decide (a.deadline ≤ now))
    (l := c.appointments)
  refine ⟨h.sorted.sublist hsub, h.distinct.sublist (hsub.map _),
    fun a ha => h.fresh a (hsub.subset ha), h.single.sublist (List.filter_sublist.map _), ?_,
    fun hstop => ?_⟩
  · intro key hkey
    obtain ⟨e, he, rfl⟩ := List.mem_map.mp hkey
    obtain ⟨he, hnot⟩ := List.mem_filter.mp he
    obtain ⟨a, ha, hae⟩ := List.mem_map.mp (h.entered (List.mem_map_of_mem he))
    rw [← List.takeWhile_append_dropWhile (p := fun a : Appointment => a.deadline ≤ now)
      (l := c.appointments), List.mem_append] at ha
    rcases ha with ha | ha
    · have hany : (c.appointments.takeWhile fun a => a.deadline ≤ now).any
          (fun a => a.key == e.1) = true := List.any_eq_true.mpr ⟨a, ha, by simp [hae]⟩
      simp [hany] at hnot
    · exact List.mem_map.mpr ⟨a, ha, hae⟩
  · simp [h.closed hstop]

end Kept

@[simp] theorem nextKey_alarms : c.alarms.nextKey = c.nextKey := rfl

@[simp] theorem stopped_alarms : c.alarms.stopped = c.stopped := rfl

/-- Scheduling on an agenda is scheduling on its clock. -/
theorem alarms_schedule (h : c.Kept) (deadline : Nat) (payload : α) :
    ((c.schedule deadline payload).1, (c.schedule deadline payload).2.alarms) =
      c.alarms.schedule deadline payload := by
  cases hs : c.stopped with
  | true =>
    rw [schedule_of_stopped hs]
    simp [Alarms.schedule, alarms, hs]
  | false =>
    -- The new payload is found under its key; what the other keys mean has not changed.
    have hself : alarm? (c.payloads ++ [(c.nextKey, payload)]) ⟨deadline, c.nextKey⟩ =
        some ⟨deadline, c.nextKey, payload⟩ := by
      have hnone : c.payloads.lookup c.nextKey = none :=
        Option.not_isSome_iff_eq_none.mp fun hsome =>
          Nat.lt_irrefl _ (h.lt_nextKey (lookup_isSome_iff.mp hsome))
      simp [alarm?, List.lookup_append, hnone]
    have hothers : ∀ a ∈ c.appointments,
        alarm? (c.payloads ++ [(c.nextKey, payload)]) a = alarm? c.payloads a := by
      intro a ha
      have hne : (a.key == c.nextKey) = false := beq_false_of_ne (Nat.ne_of_lt (h.fresh a ha))
      simp [alarm?, List.lookup_append, List.lookup_cons, hne]
    have hall := filterMap_enter (fun b y hb => (alarm?_eq_some.mp hb).2.1) h.sorted h.fresh hself
    rw [List.filterMap_congr hothers] at hall
    rw [h.schedule_of_open hs]
    simp [Alarms.schedule, alarms, hs, hall]

/-- Calling off on an agenda is calling off on its clock, although the deadline stays. -/
theorem alarms_cancel (h : c.Kept) (key : Nat) :
    ((c.cancel key).1, (c.cancel key).2.alarms) = c.alarms.cancel key := by
  have hfound : (c.payloads.lookup key).isSome = c.alarms.isPending key := by
    rw [Bool.eq_iff_iff, lookup_isSome_iff, Alarms.isPending, List.any_eq_true]
    constructor
    · intro hkey
      obtain ⟨a, ha, rfl⟩ := List.mem_map.mp (h.entered hkey)
      obtain ⟨payload, hpay⟩ := Option.isSome_iff_exists.mp (lookup_isSome_iff.mpr hkey)
      exact ⟨⟨a.deadline, a.key, payload⟩,
        List.mem_filterMap.mpr ⟨a, ha, alarm?_eq_some.mpr ⟨hpay, rfl, rfl⟩⟩, beq_self_eq_true _⟩
    · rintro ⟨x, hx, hkey⟩
      obtain ⟨a, -, hax⟩ := List.mem_filterMap.mp hx
      obtain ⟨hpay, -, hk⟩ := alarm?_eq_some.mp hax
      rw [← beq_iff_eq.mp hkey, hk, ← lookup_isSome_iff, hpay]
      rfl
  have hleft : c.appointments.filterMap (alarm? (without key c.payloads)) =
      (c.appointments.filterMap (alarm? c.payloads)).filter fun a => a.key ≠ key := by
    rw [List.filter_filterMap]
    refine List.filterMap_congr fun a _ => ?_
    by_cases hkey : a.key = key
    · rw [alarm?_without_self hkey]
      cases hx : alarm? c.payloads a with
      | none => rfl
      | some x => exact (Option.filter_some_neg (by simp [(alarm?_eq_some.mp hx).2.2, hkey])).symm
    · rw [alarm?_without hkey]
      cases hx : alarm? c.payloads a with
      | none => rfl
      | some x => exact (Option.filter_some_pos (by simp [(alarm?_eq_some.mp hx).2.2, hkey])).symm
  rw [Alarms.cancel, ← hfound]
  simp only [cancel, alarms, hleft]

/-- Closing an agenda stops its clock. -/
theorem alarms_stop : c.stop.2.alarms = c.alarms.stop := rfl

/-- What is pending, by what is due at a given time and what is not. -/
theorem Kept.alarms_split (h : c.Kept) (now : Nat) :
    c.alarms.pending = (c.due now).1 ++ (c.due now).2.alarms.pending ∧
      (∀ a ∈ (c.due now).1, a.deadline ≤ now) ∧
      ∀ a ∈ (c.due now).2.alarms.pending, now < a.deadline := by
  let p : Appointment → Bool := fun a => a.deadline ≤ now
  have hparts : c.appointments.takeWhile p ++ c.appointments.dropWhile p = c.appointments :=
    List.takeWhile_append_dropWhile
  have hlater : ∀ a ∈ c.appointments.dropWhile p, now < a.deadline := by
    intro a ha
    cases hdrop : c.appointments.dropWhile p with
    | nil => simp [hdrop] at ha
    | cons b rest =>
      have hb : p b = false := by
        have := List.head_dropWhile_not p (l := c.appointments) (by simp [hdrop])
        simpa [hdrop] using this
      have hbnow : now < b.deadline := by simpa [p] using hb
      have hsorted := h.sorted.sublist (List.dropWhile_sublist p)
      rw [hdrop] at ha hsorted
      rcases List.mem_cons.mp ha with rfl | ha
      · exact hbnow
      · have := Appointment.before_iff.mp ((List.pairwise_cons.mp hsorted).1 a ha)
        omega
  have hsame : (c.due now).2.alarms.pending =
      (c.appointments.dropWhile p).filterMap (alarm? c.payloads) := by
    rw [h.due_eq now]
    refine List.filterMap_congr fun a ha => ?_
    -- What has been taken out was due, and every key has one deadline.
    have hnot : ∀ b ∈ c.appointments.takeWhile p, b.key ≠ a.key := by
      have hdistinct := h.distinct
      rw [← hparts, List.map_append, List.nodup_append] at hdistinct
      exact fun b hb => hdistinct.2.2 _ (List.mem_map_of_mem hb) _ (List.mem_map_of_mem ha)
    unfold alarm?
    rw [lookup_filter fun _ => by
      rw [Bool.not_eq_true', List.any_eq_false]
      exact fun b hb => by simpa using hnot b hb]
  refine ⟨?_, ?_, ?_⟩
  · rw [hsame, h.due_eq now]
    show c.appointments.filterMap (alarm? c.payloads) = _
    rw [← List.filterMap_append, hparts]
  · rw [h.due_eq now]
    intro x hx
    obtain ⟨a, ha, hax⟩ := List.mem_filterMap.mp hx
    rw [(alarm?_eq_some.mp hax).2.1]
    simpa [p] using List.all_eq_true.mp List.all_takeWhile a ha
  · rw [hsame]
    intro x hx
    obtain ⟨a, ha, hax⟩ := List.mem_filterMap.mp hx
    rw [(alarm?_eq_some.mp hax).2.1]
    exact hlater a ha

/-- What is due on an agenda is what is due on its clock: the deadlines whose payloads are
gone are passed over. -/
theorem alarms_due (h : c.Kept) (now : Nat) :
    ((c.due now).1, (c.due now).2.alarms) = c.alarms.due now := by
  obtain ⟨hsplit, hearly, hlate⟩ := h.alarms_split now
  have hwhile : (c.alarms.pending.takeWhile fun a => a.deadline ≤ now) = (c.due now).1 ∧
      (c.alarms.pending.dropWhile fun a => a.deadline ≤ now) = (c.due now).2.alarms.pending := by
    rw [hsplit, List.takeWhile_append_of_pos (by simpa using hearly),
      List.dropWhile_append_of_pos (by simpa using hearly)]
    cases hrest : (c.due now).2.alarms.pending with
    | nil => simp
    | cons a rest =>
      have ha : ¬a.deadline ≤ now := by
        have := hlate a (by rw [hrest]; exact List.mem_cons_self)
        omega
      simp [ha]
  unfold Alarms.due
  rw [hwhile.1, hwhile.2]
  have hdue := h.due_eq now
  simp [alarms, hdue]

/-- The alarms of an agenda are in order. -/
theorem Kept.pairwise_pending (h : c.Kept) : c.alarms.pending.Pairwise Alarm.Before := by
  refine h.sorted.filterMap _ fun a b hab x hx y hy => ?_
  obtain ⟨-, hxd, hxk⟩ := alarm?_eq_some.mp hx
  obtain ⟨-, hyd, hyk⟩ := alarm?_eq_some.mp hy
  have := Appointment.before_iff.mp hab
  unfold Alarm.Before
  omega

/-- There is one alarm for each payload of the table. -/
theorem Kept.pending_perm (h : c.Kept) :
    (c.alarms.pending.map Alarm.key).Perm (c.payloads.map Prod.fst) := by
  have hkeys : c.alarms.pending.map Alarm.key =
      (c.appointments.map Appointment.key).filter fun key => (c.payloads.lookup key).isSome := by
    show (c.appointments.filterMap (alarm? c.payloads)).map Alarm.key = _
    rw [List.map_filterMap, List.filter_map, ← List.filterMap_eq_map, List.filterMap_filter]
    refine List.filterMap_congr fun a _ => ?_
    cases hpay : c.payloads.lookup a.key <;> simp [alarm?, hpay]
  rw [hkeys, List.perm_ext_iff_of_nodup (h.distinct.filter _) h.single]
  intro key
  rw [List.mem_filter, lookup_isSome_iff]
  exact ⟨And.right, fun hkey => ⟨h.entered hkey, hkey⟩⟩

theorem Kept.nodup_pending (h : c.Kept) : (c.alarms.pending.map Alarm.key).Nodup :=
  h.pending_perm.nodup_iff.mpr h.single

/-- The number that an agenda tells is that of its alarms. -/
theorem Kept.pending_eq (h : c.Kept) : c.pending = c.alarms.pending.length := by
  have := h.pending_perm.length_eq
  simpa [pending] using this.symm

/-- Whether a key is called off, by the alarms. -/
theorem Kept.cancel_iff (h : c.Kept) :
    (c.cancel key).1 = true ↔ ∃ a ∈ c.alarms.pending, a.key = key := by
  rw [congrArg Prod.fst (alarms_cancel h key)]
  simp [Alarms.cancel, Alarms.isPending]

/-- A deadline whose payload is gone makes no difference to what is collected, now or
later. -/
theorem Kept.due_tidy (h : c.Kept) (now : Nat) :
    (c.tidy.due now).1 = (c.due now).1 ∧ (c.tidy.due now).2.alarms = (c.due now).2.alarms := by
  have hsub : c.tidy.appointments.Sublist c.appointments := List.filter_sublist
  have hentered : c.payloads.map Prod.fst ⊆ c.tidy.appointments.map Appointment.key := by
    intro key hkey
    obtain ⟨a, ha, rfl⟩ := List.mem_map.mp (h.entered hkey)
    exact List.mem_map_of_mem (List.mem_filter.mpr ⟨ha, lookup_isSome_iff.mpr hkey⟩)
  have htidy : c.tidy.Kept :=
    { sorted := h.sorted.sublist hsub
      distinct := h.distinct.sublist (hsub.map _)
      fresh := fun a ha => h.fresh a (hsub.subset ha)
      single := h.single
      entered := hentered
      closed := fun hs => List.sublist_nil.mp (h.closed hs ▸ hsub) }
  have halarms : c.tidy.alarms = c.alarms := by
    unfold alarms tidy
    rw [List.filterMap_filter]
    congr 1
    refine List.filterMap_congr fun a _ => ?_
    cases hpay : c.payloads.lookup a.key <;> simp [alarm?, hpay]
  have heq := alarms_due htidy now
  rw [halarms, ← alarms_due h now] at heq
  exact Prod.mk.injEq .. ▸ heq

end Agenda

end Fibers
