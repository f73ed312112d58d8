import Fibers.Proofs.Queue

/-!
# Leaving a line

A fiber that waits at a channel stands in a line, and may be interrupted there.  It then leaves
the line, and everything goes on as if it had never come: all others are told the same, the same
elements are delivered, and the same elements are left.  As long as it stands there it makes no
difference to the others either, unless it is served; but then it cannot leave any more.

## Main definitions

* `Queue.without` — the requests that are not made for a place.
* `Queue.Agrees` — two lists that serve requests alike, and end alike.

## Main results

* `Queue.line_serve`, `Queue.not_mem_leave` — only who has asked stands in a line, and can leave.
* `Queue.ignores_of_line` — a request serves the one at a place, or takes no notice of it.
* `Queue.agrees_without` — **whoever leaves a line might as well never have joined it.**
-/

namespace Fibers

namespace Queue

variable {α σ : Type} [DecidableEq σ]

/-- The requests that are not made for a place. -/
def without (p : σ) (rs : List (Request α σ)) : List (Request α σ) :=
  rs.filter fun r => !r.concerns p

/-- Nobody comes to stand in a line but by asking. -/
theorem line_serve {q : Queue α σ} (hregular : q.Regular) (hplaces : q.places.Nodup)
    {r : Request α σ} (hallows : q.Allows r) {line : Line} {p : σ}
    (hp : p ∈ (q.serve r).2.line line) : p ∈ q.line line ∨ r.asker? = some p := by
  -- taking the first element moves the line of the offerers up
  have hpop : ∀ {item items}, q.items = item :: items →
      p ∈ ({ q with items } : Queue α σ).line line → p ∈ q.line line := by
    intro item items hitems hp
    cases line with
    | takers | watchers => exact hp
    | offerers =>
      rw [Queue.line, blocked_pop hregular.room hitems, List.map_tail] at hp
      exact List.mem_of_mem_tail hp
  unfold serve at hp
  split at hp
  · exact Or.inl hp
  · cases r with
    | offer s a =>
      simp only [serveOpen] at hp
      split at hp
      · next t takers heq =>
        refine Or.inl ?_
        cases line with
        | takers =>
          rw [Queue.line, heq]
          exact List.mem_cons_of_mem t hp
        | offerers | watchers => exact hp
      · cases line with
        | takers | watchers => exact Or.inl hp
        | offerers =>
          rw [Queue.line, blocked_push] at hp
          split at hp
          · exact Or.inl hp
          · rw [List.map_append, List.mem_append] at hp
            refine hp.imp id fun hmem => ?_
            rw [List.mem_singleton.mp hmem]
            rfl
    | take t =>
      simp only [serveOpen] at hp
      split at hp
      · next item items heq => exact Or.inl (hpop heq hp)
      · cases line with
        | offerers | watchers => exact Or.inl hp
        | takers =>
          refine (List.mem_append.mp hp).imp id fun hmem => ?_
          rw [List.mem_singleton.mp hmem]
          rfl
    | poll =>
      simp only [serveOpen] at hp
      split at hp
      · next item items heq => exact Or.inl (hpop heq hp)
      · exact Or.inl hp
    | watch s =>
      cases line with
      | takers | offerers => exact Or.inl hp
      | watchers =>
        refine (List.mem_append.mp hp).imp id fun hmem => ?_
        rw [List.mem_singleton.mp hmem]
        rfl
    | leave line' ticket s =>
      refine Or.inl ?_
      cases line' with
      | takers =>
        cases line with
        | takers => exact List.mem_of_mem_filter hp
        | offerers | watchers => exact hp
      | watchers =>
        cases line with
        | watchers => exact List.mem_of_mem_filter hp
        | offerers | takers => exact hp
      | offerers =>
        cases line with
        | takers | watchers => exact hp
        | offerers =>
          rw [Queue.line] at hp ⊢
          simp only [serveOpen] at hp
          rw [blocked_forget hplaces hallows] at hp
          exact (List.filter_sublist.map Prod.fst).subset hp
    | close source =>
      cases line with
      | takers | watchers => cases hp
      | offerers => simp [serveOpen, Queue.line, blocked_of_items] at hp

/-- Who stands in no line, and does not ask, leaves none. -/
theorem not_mem_leave {q : Queue α σ} (hregular : q.Regular) {rs : List (Request α σ)}
    (hallowed : q.Allowed rs) (hdistinct : q.Distinct rs) {p : σ} (hp : ∀ line, p ∉ q.line line)
    (hasks : p ∉ askers rs) : ∀ line ticket, Request.leave line ticket p ∉ rs := by
  intro line ticket hmem
  induction rs generalizing q with
  | nil => cases hmem
  | cons r rs ih =>
    rcases List.mem_cons.mp hmem with rfl | hmem
    · exact hp line hallowed.1
    · have hask : r.asker? ≠ some p := fun heq =>
        hasks (List.mem_filterMap.mpr ⟨r, List.mem_cons_self, heq⟩)
      refine ih (hregular.serve r) hallowed.2 hdistinct.serve (fun line' hline => ?_) ?_ hmem
      · exact (line_serve hregular hdistinct.nodup_places hallowed.1 hline).elim (hp line') hask
      · intro hmem
        obtain ⟨r', hr', heq⟩ := List.mem_filterMap.mp hmem
        exact hasks (List.mem_filterMap.mpr ⟨r', List.mem_cons_of_mem _ hr', heq⟩)

/-- A request that an open channel serves alike whether somebody stands at a place or not. -/
structure Ignores (q : Queue α σ) (r : Request α σ) (line : Line) (p : σ) : Prop where
  stands : p ∈ (q.serveOpen r).2.line line
  serve : (q.forget line p).serveOpen r = ((q.serveOpen r).1, (q.serveOpen r).2.forget line p)
  delivery : (q.forget line p).delivery? r = q.delivery? r

section Ignores

variable {q : Queue α σ} {r : Request α σ} {p : σ}

theorem closedBy_forget (q : Queue α σ) (line : Line) (p : σ) :
    (q.forget line p).closedBy = q.closedBy := by
  cases line <;> rfl

/-- After the end nobody stands in a line. -/
theorem line_close (q : Queue α σ) (source : FiberId) (line : Line) :
    (q.serveOpen (.close source)).2.line line = [] := by
  cases line with
  | takers | watchers => rfl
  | offerers => simp [serveOpen, Queue.line, blocked_of_items]

theorem not_mem_line_close (q : Queue α σ) (source : FiberId) (p : σ) :
    ∀ line, p ∉ (q.serveOpen (.close source)).2.line line := by
  intro line
  rw [line_close]
  exact List.not_mem_nil

theorem ignores_of_watcher (hother : r.concerns p = false) (hp : p ∈ q.line .watchers) :
    (∀ line, p ∉ (q.serveOpen r).2.line line) ∨ q.Ignores r .watchers p := by
  have hdelivery : (q.forget .watchers p).delivery? r = q.delivery? r := by
    cases r <;> rfl
  cases r with
  | close source => exact Or.inl (q.not_mem_line_close source p)
  | watch s =>
    have hne : s ≠ p := by simpa [Request.concerns, Request.asker?] using hother
    refine Or.inr ⟨List.mem_append_left _ hp, ?_, hdelivery⟩
    simp [serveOpen, forget, hne]
  | leave line ticket s =>
    have hne : s ≠ p := by simpa [Request.concerns] using hother
    cases line with
    | takers | offerers => exact Or.inr ⟨hp, rfl, hdelivery⟩
    | watchers =>
      refine Or.inr ⟨List.mem_filter.mpr ⟨hp, decide_eq_true hne.symm⟩, ?_, hdelivery⟩
      simp [serveOpen, forget, List.filter_filter, Bool.and_comm]
  | offer s a =>
    obtain ⟨capacity, items, takers, watchers, closedBy⟩ := q
    cases takers <;> exact Or.inr ⟨hp, rfl, hdelivery⟩
  | take _ | poll =>
    obtain ⟨capacity, items, takers, watchers, closedBy⟩ := q
    cases items <;> exact Or.inr ⟨hp, rfl, hdelivery⟩

theorem ignores_of_taker (h : q.Regular) (hplaces : q.places.Nodup)
    (hother : r.concerns p = false) (hp : p ∈ q.line .takers) :
    (∀ line, p ∉ (q.serveOpen r).2.line line) ∨ q.Ignores r .takers p := by
  have hitems : q.items = [] := h.idle (List.ne_nil_of_mem hp)
  -- only an offer looks at the takers
  have hdelivery : (∀ s a, r ≠ .offer s a) → (q.forget .takers p).delivery? r = q.delivery? r := by
    intro hne
    cases r with
    | offer s a => exact absurd rfl (hne s a)
    | _ => cases hclosed : q.closedBy <;> simp [delivery?, forget, hclosed]
  cases r with
  | close source => exact Or.inl (q.not_mem_line_close source p)
  | offer s a =>
    cases htakers : q.takers with
    | nil => simp [Queue.line, htakers] at hp
    | cons t takers =>
      rw [Queue.line, htakers] at hp
      by_cases hne : t = p
      · -- the element is handed over to the one at the place, who stands nowhere else
        subst hne
        rw [places, hitems, htakers, List.map_nil, List.nil_append, List.cons_append,
          List.nodup_cons, List.mem_append, not_or] at hplaces
        refine Or.inl fun line hline => ?_
        simp only [serveOpen, htakers] at hline
        cases line with
        | takers => exact hplaces.1.1 hline
        | watchers => exact hplaces.1.2 hline
        | offerers => simp [Queue.line, blocked_of_items, hitems] at hline
      · refine Or.inr ⟨?_, ?_, ?_⟩
        · simp only [serveOpen, htakers]
          exact (List.mem_cons.mp hp).resolve_left (Ne.symm hne)
        · simp [serveOpen, forget, htakers, hne]
        · simp [delivery?, forget, htakers, hne]
  | take t =>
    have hne : t ≠ p := by simpa [Request.concerns, Request.asker?] using hother
    refine Or.inr ⟨?_, ?_, hdelivery (by simp)⟩
    · simp only [serveOpen, hitems]
      exact List.mem_append_left _ hp
    · simp [serveOpen, forget, hitems, hne]
  | poll =>
    refine Or.inr ⟨?_, ?_, hdelivery (by simp)⟩
    · simp only [serveOpen, hitems]
      exact hp
    · simp [serveOpen, forget, hitems]
  | watch s => exact Or.inr ⟨hp, rfl, hdelivery (by simp)⟩
  | leave line ticket s =>
    have hne : s ≠ p := by simpa [Request.concerns] using hother
    cases line with
    | watchers | offerers => exact Or.inr ⟨hp, rfl, hdelivery (by simp)⟩
    | takers =>
      refine Or.inr ⟨List.mem_filter.mpr ⟨hp, decide_eq_true hne.symm⟩, ?_, hdelivery (by simp)⟩
      simp [serveOpen, forget, List.filter_filter, Bool.and_comm]

/-- When the first element has been taken, an offerer that was blocked has got its room or is
blocked still. -/
theorem pop_of_offerer (h : q.Regular) (hplaces : q.places.Nodup) (hp : p ∈ q.line .offerers)
    {item : σ × α} {items : List (σ × α)} (hitems : q.items = item :: items) :
    p ∉ ({ q with items } : Queue α σ).line .offerers ∨
      (p ∈ ({ q with items } : Queue α σ).line .offerers ∧ item.1 ≠ p ∧
        (q.forget .offerers p).admitted = q.admitted) := by
  have hkeys := nodup_items hplaces
  have hpop := blocked_pop h.room hitems
  cases hblocked : q.blocked with
  | nil => simp [Queue.line, hblocked] at hp
  | cons first rest =>
    have hsub : (first :: rest).Sublist q.items := by
      rw [← q.stored_append_blocked, hblocked]
      exact List.sublist_append_right _ _
    have hfirst : first.1 ∉ rest.map Prod.fst :=
      (List.nodup_cons.mp (hkeys.sublist (hsub.map Prod.fst))).1
    rw [hblocked, List.tail_cons] at hpop
    have hforget := blocked_forget hplaces hp
    rw [Queue.line, hblocked, List.map_cons, List.mem_cons] at hp
    rw [Queue.line, hpop]
    by_cases heq : p = first.1
    · exact Or.inl (heq ▸ hfirst)
    · have hrest := hp.resolve_left heq
      refine Or.inr ⟨hrest, ?_, ?_⟩
      · -- what is blocked after the first element is not the first element
        rintro rfl
        rw [hitems, List.map_cons, List.nodup_cons] at hkeys
        obtain ⟨other, hother, hfst⟩ := List.mem_map.mp hrest
        rw [← hpop] at hother
        exact hkeys.1 (List.mem_map.mpr ⟨other, mem_items_of_blocked hother, hfst⟩)
      · simp [admitted, hforget, hblocked, Ne.symm heq]

theorem ignores_of_offerer (h : q.Regular) (hplaces : q.places.Nodup) (hallows : q.Allows r)
    (hother : r.concerns p = false) (hp : p ∈ q.line .offerers) :
    (∀ line, p ∉ (q.serveOpen r).2.line line) ∨ q.Ignores r .offerers p := by
  have hblocked : q.blocked ≠ [] := by
    obtain ⟨item, hitem, -⟩ := List.mem_map.mp hp
    exact List.ne_nil_of_mem hitem
  obtain ⟨n, hcapacity, hstored, hlength⟩ := length_stored hblocked
  have htakers : q.takers = [] := by
    by_contra hne
    simp [h.idle hne] at hlength
  have hwatchers : p ∉ q.watchers := by
    intro hmem
    obtain ⟨item, hitem, rfl⟩ := List.mem_map.mp hp
    rw [places, List.append_assoc] at hplaces
    refine (List.nodup_append.mp hplaces).2.2 _ ?_ _ (List.mem_append_right _ hmem) rfl
    exact List.mem_map_of_mem (mem_items_of_blocked hitem)
  -- only taking an element looks at the first one
  have hdelivery : (∀ item items, q.items = item :: items → item.1 ≠ p) →
      (q.forget .offerers p).delivery? r = q.delivery? r := by
    intro hfirst
    have hhead : (q.forget .offerers p).items.head? = q.items.head? := by
      cases hitems : q.items with
      | nil => simp [forget, hitems]
      | cons item items => simp [forget, hitems, hfirst item items hitems]
    cases hclosed : q.closedBy with
    | some source => simp [delivery?, closedBy_forget, hclosed]
    | none =>
      cases r with
      | offer s a =>
        simp only [delivery?, closedBy_forget, hclosed]
        rfl
      | _ => simp [delivery?, closedBy_forget, hclosed, hhead]
  cases r with
  | close source => exact Or.inl (q.not_mem_line_close source p)
  | offer s a =>
    have hne : s ≠ p := by simpa [Request.concerns, Request.asker?] using hother
    have hfull : q.fits q.items.length = false := by
      simp only [fits, hcapacity, decide_eq_false_iff_not]
      omega
    have hfull' : (q.forget .offerers p).fits (q.forget .offerers p).items.length = false := by
      have hcapacity' : (q.forget .offerers p).capacity = some n := hcapacity
      simp only [fits, hcapacity', items_forget hplaces hp, List.length_append,
        decide_eq_false_iff_not]
      omega
    have htakers' : (q.forget .offerers p).takers = [] := htakers
    refine Or.inr ⟨?_, ?_, ?_⟩
    · have hpush := q.blocked_push (s, a)
      rw [hfull] at hpush
      simp only [serveOpen, htakers, Queue.line] at hpush ⊢
      rw [hpush]
      exact (List.map_append ▸ List.mem_append_left _ hp)
    · simp only [serveOpen, htakers, htakers', hfull, hfull']
      simp [forget, hne]
    · cases hclosed : q.closedBy <;> simp [delivery?, forget, hclosed]
  | take _ | poll =>
    cases hitems : q.items with
    | nil => simp [hitems] at hlength
    | cons item items =>
      rcases pop_of_offerer h hplaces hp hitems with hgone | ⟨hstays, hne, hadmitted⟩
      · -- the offerer at the place has got its room
        refine Or.inl fun line hline => ?_
        simp only [serveOpen, hitems] at hline
        cases line with
        | takers => simp [Queue.line, htakers] at hline
        | watchers => exact hwatchers hline
        | offerers => exact hgone hline
      · have hitems' : (q.forget .offerers p).items = item :: items.filter (·.1 ≠ p) := by
          simp [forget, hitems, hne]
        refine Or.inr ⟨?_, ?_, hdelivery fun item' items' heq => ?_⟩
        · simp only [serveOpen, hitems]
          exact hstays
        · simp only [serveOpen, hitems, hitems', hadmitted]
          rfl
        · rw [hitems] at heq
          exact (List.cons.inj heq).1 ▸ hne
  | watch s =>
    refine Or.inr ⟨hp, rfl, ?_⟩
    cases hclosed : q.closedBy <;> simp [delivery?, forget, hclosed]
  | leave line ticket s =>
    have hne : s ≠ p := by simpa [Request.concerns] using hother
    have hsame : (q.forget .offerers p).delivery? (.leave line ticket s) =
        q.delivery? (.leave line ticket s) := by
      cases hclosed : q.closedBy <;> simp [delivery?, forget, hclosed]
    cases line with
    | takers | watchers => exact Or.inr ⟨hp, rfl, hsame⟩
    | offerers =>
      refine Or.inr ⟨?_, ?_, hsame⟩
      · obtain ⟨item, hitem, rfl⟩ := List.mem_map.mp hp
        simp only [serveOpen, Queue.line]
        rw [blocked_forget hplaces hallows]
        exact List.mem_map_of_mem (List.mem_filter.mpr ⟨hitem, decide_eq_true hne.symm⟩)
      · simp [serveOpen, forget, List.filter_filter, Bool.and_comm]

end Ignores

/-- Where somebody stands in a line, a request made for another place serves that one, or makes
no difference to it. -/
theorem ignores_of_line {q : Queue α σ} (h : q.Regular) (hplaces : q.places.Nodup)
    {r : Request α σ} {p : σ} (hallows : q.Allows r) (hother : r.concerns p = false) {line : Line}
    (hp : p ∈ q.line line) :
    (∀ line, p ∉ (q.serveOpen r).2.line line) ∨ q.Ignores r line p := by
  cases line with
  | takers => exact ignores_of_taker h hplaces hother hp
  | offerers => exact ignores_of_offerer h hplaces hallows hother hp
  | watchers => exact ignores_of_watcher hother hp

/-- Two lists that serve requests alike, and end alike. -/
structure Agrees (q q' : Queue α σ) (rs rs' : List (Request α σ)) : Prop where
  after : q'.after rs' = q.after rs
  answers : q'.answers rs' = q.answers rs
  delivered : q'.delivered rs' = q.delivered rs

theorem Agrees.cons {q q' : Queue α σ} {r : Request α σ} {rs rs' : List (Request α σ)}
    (hserve : (q'.serve r).1 = (q.serve r).1) (hdelivery : q'.delivery? r = q.delivery? r)
    (h : Agrees (q.serve r).2 (q'.serve r).2 rs rs') : Agrees q q' (r :: rs) (r :: rs') where
  after := h.after
  answers := by rw [Queue.answers, Queue.answers, hserve, h.answers]
  delivered := by rw [Queue.delivered, Queue.delivered, hdelivery, h.delivered]

/-- Nobody leaves twice. -/
theorem without_eq_self {q : Queue α σ} (h : q.Regular) {rs : List (Request α σ)}
    (hallowed : q.Allowed rs) (hdistinct : q.Distinct rs) {p : σ} (hp : ∀ line, p ∉ q.line line)
    (hasks : p ∉ askers rs) : without p rs = rs := by
  refine List.filter_eq_self.mpr fun r hr => ?_
  have hask : r.asker? ≠ some p := fun heq => hasks (List.mem_filterMap.mpr ⟨r, hr, heq⟩)
  cases r with
  | leave line ticket s =>
    have hne : s ≠ p := by
      rintro rfl
      exact not_mem_leave h hallowed hdistinct hp hasks line ticket hr
    simp [Request.concerns, hne]
  | _ => simp [Request.concerns, hask]

omit [DecidableEq σ] in
/-- Nobody stands in two lines. -/
theorem line_unique {q : Queue α σ} (hplaces : q.places.Nodup) {line line' : Line} {p : σ}
    (hp : p ∈ q.line line) (hp' : p ∈ q.line line') : line = line' := by
  have hoff : ∀ {p}, p ∈ q.line .offerers → p ∈ q.items.map Prod.fst := by
    intro p hp
    obtain ⟨item, hitem, rfl⟩ := List.mem_map.mp hp
    exact List.mem_map_of_mem (mem_items_of_blocked hitem)
  rw [places, List.nodup_append, List.nodup_append] at hplaces
  obtain ⟨⟨-, -, htakers⟩, -, hwatchers⟩ := hplaces
  cases line <;> cases line' <;> first
    | rfl
    | exact absurd rfl (htakers _ (hoff hp) _ hp')
    | exact absurd rfl (htakers _ (hoff hp') _ hp)
    | exact absurd rfl (hwatchers _ (List.mem_append_left _ (hoff hp)) _ hp')
    | exact absurd rfl (hwatchers _ (List.mem_append_left _ (hoff hp')) _ hp)
    | exact absurd rfl (hwatchers _ (List.mem_append_right _ hp) _ hp')
    | exact absurd rfl (hwatchers _ (List.mem_append_right _ hp') _ hp)

theorem not_mem_line_forget {q : Queue α σ} (h : q.Regular) (hplaces : q.places.Nodup)
    {line : Line} {p : σ} (hp : p ∈ q.line line) : ∀ line', p ∉ (q.forget line p).line line' := by
  intro line' hp'
  have hserve : (q.serve (.leave line 0 p)).2 = q.forget line p := by
    rw [serve_of_open (closedBy_of_line h hp)]
    rfl
  have hallows : q.Allows (.leave line 0 p) := hp
  rw [← hserve] at hp'
  have hold := (line_serve h hplaces hallows hp').resolve_right (by simp [Request.asker?])
  rw [hserve] at hp'
  obtain rfl := line_unique hplaces hp hold
  cases line with
  | takers | watchers => simpa using (List.mem_filter.mp hp').2
  | offerers =>
    rw [Queue.line, blocked_forget hplaces hp] at hp'
    obtain ⟨item, hitem, rfl⟩ := List.mem_map.mp hp'
    simpa using (List.mem_filter.mp hitem).2

/-- Who stands in a line and is going to leave it makes no difference. -/
theorem agrees_of_line {q : Queue α σ} (h : q.Regular) {rs : List (Request α σ)}
    (hallowed : q.Allowed rs) (hdistinct : q.Distinct rs) {line line' : Line} {ticket : Nat}
    {p : σ} (hp : p ∈ q.line line) (hleave : .leave line' ticket p ∈ rs) :
    Agrees q (q.forget line p) rs (without p rs) := by
  induction rs generalizing q with
  | nil => cases hleave
  | cons r rs ih =>
    have hplaces := hdistinct.nodup_places
    have hopen := closedBy_of_line h hp
    have hopen' : (q.forget line p).closedBy = none := (q.closedBy_forget line p).trans hopen
    have hknown : p ∉ askers (r :: rs) := fun hmem =>
      (List.nodup_append.mp hdistinct).2.2 _ (mem_places_of_line hp) _ hmem rfl
    have hasks : p ∉ askers rs := fun hmem => by
      obtain ⟨r', hr', heq⟩ := List.mem_filterMap.mp hmem
      exact hknown (List.mem_filterMap.mpr ⟨r', List.mem_cons_of_mem _ hr', heq⟩)
    cases hconcerns : r.concerns p with
    | true =>
      -- the one at the place leaves now, and is not heard of again
      have hwithout : without p (r :: rs) = without p rs := by
        simp [without, hconcerns]
      obtain ⟨line₀, ticket', rfl⟩ := (Request.concerns_iff.mp hconcerns).resolve_left fun hask =>
        hknown (List.mem_filterMap.mpr ⟨r, List.mem_cons_self, hask⟩)
      obtain rfl := line_unique hplaces hp hallowed.1
      have hserve : q.serve (.leave line ticket' p) = ([], q.forget line p) := serve_of_open hopen _
      have hdelivery : q.delivery? (.leave line ticket' p) = none := by
        simp [delivery?, hopen]
      have hself : without p rs = rs := by
        have hrest := hallowed.2
        have hdistinct' := hdistinct.serve
        have hregular' := h.serve (.leave line ticket' p)
        rw [hserve] at hrest hdistinct' hregular'
        exact without_eq_self hregular' hrest hdistinct' (not_mem_line_forget h hplaces hp) hasks
      rw [hwithout, hself]
      refine ⟨?_, ?_, ?_⟩
      · rw [after, hserve]
      · rw [answers, hserve, List.nil_append]
      · rw [delivered, hserve, hdelivery, Option.toList_none, List.nil_append]
    | false =>
      have hwithout : without p (r :: rs) = r :: without p rs := by
        simp [without, hconcerns]
      have hleave' : .leave line' ticket p ∈ rs := by
        refine (List.mem_cons.mp hleave).resolve_left ?_
        rintro rfl
        simp [Request.concerns] at hconcerns
      rw [hwithout]
      rcases ignores_of_line h hplaces hallowed.1 hconcerns hp with hgone | hignores
      · refine absurd hleave' (not_mem_leave (h.serve r) hallowed.2 hdistinct.serve ?_ hasks _ _)
        rwa [serve_of_open hopen]
      · have hnext := ih (h.serve r) hallowed.2 hdistinct.serve
          (by rw [serve_of_open hopen]; exact hignores.stands) hleave'
        rw [serve_of_open hopen] at hnext
        refine .cons ?_ hignores.delivery ?_
        · rw [serve_of_open hopen', serve_of_open hopen, hignores.serve]
        · rwa [serve_of_open hopen', serve_of_open hopen, hignores.serve]

/-- Who comes to stand in a line is told nothing yet, and nothing else changes. -/
theorem forget_of_joins {q : Queue α σ} (h : q.Regular) {r : Request α σ} {p : σ}
    (hp : p ∉ q.places) (hask : r.asker? = some p) {line : Line}
    (hjoins : p ∈ (q.serve r).2.line line) :
    (q.serve r).1 = [] ∧ q.delivery? r = none ∧ (q.serve r).2.forget line p = q := by
  have hold : ∀ line, p ∉ q.line line := fun _ hline => hp (mem_places_of_line hline)
  have hitems : p ∉ q.items.map Prod.fst := fun hmem =>
    hp (List.mem_append_left _ (List.mem_append_left _ hmem))
  have hfilter : ∀ {l : List σ}, p ∉ l → (l ++ [p]).filter (· ≠ p) = l := by
    intro l hl
    rw [List.filter_append, List.filter_eq_self.mpr fun s hs => decide_eq_true ?_]
    · simp
    · exact fun heq => hl (heq ▸ hs)
  cases hclosed : q.closedBy with
  | some source =>
    rw [serve_of_closed hclosed] at hjoins
    exact absurd hjoins (hold line)
  | none =>
    rw [serve_of_open hclosed] at hjoins ⊢
    cases r with
    | poll | leave _ _ _ | close _ => cases hask
    | watch s =>
      obtain rfl := Option.some.inj hask
      cases line with
      | takers => exact absurd hjoins (hold .takers)
      | offerers => exact absurd hjoins (hold .offerers)
      | watchers =>
        exact ⟨rfl, by simp [delivery?, hclosed],
          congrArg (fun watchers => { q with watchers }) (hfilter (hold .watchers))⟩
    | take t =>
      obtain rfl := Option.some.inj hask
      cases hempty : q.items with
      | cons item items =>
        -- an element is there, so nobody joins a line
        simp only [serveOpen, hempty] at hjoins
        cases line with
        | takers => exact absurd hjoins (hold .takers)
        | watchers => exact absurd hjoins (hold .watchers)
        | offerers =>
          rw [Queue.line, blocked_pop h.room hempty, List.map_tail] at hjoins
          exact absurd (List.mem_of_mem_tail hjoins) (hold .offerers)
      | nil =>
        have hserve : q.serveOpen (.take t) = ([], { q with takers := q.takers ++ [t] }) := by
          simp only [serveOpen, hempty]
        rw [hserve] at hjoins ⊢
        cases line with
        | offerers => exact absurd hjoins (hold .offerers)
        | watchers => exact absurd hjoins (hold .watchers)
        | takers =>
          exact ⟨rfl, by simp [delivery?, hclosed, hempty],
            congrArg (fun takers => { q with takers }) (hfilter (hold .takers))⟩
    | offer s a =>
      obtain rfl := Option.some.inj hask
      cases htakers : q.takers with
      | cons t takers =>
        -- the element is handed over, so nobody joins a line
        simp only [serveOpen, htakers] at hjoins
        cases line with
        | takers =>
          refine absurd ?_ (hold .takers)
          rw [Queue.line, htakers]
          exact List.mem_cons_of_mem t hjoins
        | watchers => exact absurd hjoins (hold .watchers)
        | offerers => exact absurd hjoins (hold .offerers)
      | nil =>
        have hserve : q.serveOpen (.offer s a) =
            (if q.fits q.items.length then [(s, .done)] else [],
              { q with items := q.items ++ [(s, a)] }) := by
          simp only [serveOpen, htakers]
        rw [hserve] at hjoins ⊢
        cases line with
        | takers => exact absurd hjoins (hold .takers)
        | watchers => exact absurd hjoins (hold .watchers)
        | offerers =>
          cases hfits : q.fits q.items.length with
          | true =>
            rw [Queue.line, blocked_push, hfits] at hjoins
            exact absurd hjoins (hold .offerers)
          | false =>
            have hitems' : (q.items ++ [(s, a)]).filter (·.1 ≠ s) = q.items := by
              rw [List.filter_append, List.filter_eq_self.mpr fun item hitem => decide_eq_true ?_]
              · simp
              · exact fun heq => hitems (heq ▸ List.mem_map_of_mem hitem)
            exact ⟨rfl, by simp [delivery?, hclosed, htakers],
              congrArg (fun items => { q with items }) hitems'⟩

/-- **Whoever leaves a line might as well never have joined it.** -/
theorem agrees_without {q : Queue α σ} (h : q.Regular) {rs : List (Request α σ)}
    (hallowed : q.Allowed rs) (hdistinct : q.Distinct rs) {p : σ} (hp : p ∉ q.places)
    {line : Line} {ticket : Nat} (hleave : .leave line ticket p ∈ rs) :
    Agrees q q rs (without p rs) := by
  induction rs generalizing q with
  | nil => cases hleave
  | cons r rs ih =>
    cases hconcerns : r.concerns p with
    | true =>
      have hwithout : without p (r :: rs) = without p rs := by
        simp [without, hconcerns]
      rcases Request.concerns_iff.mp hconcerns with hask | ⟨line', ticket', rfl⟩
      · have hleave' : .leave line ticket p ∈ rs := by
          refine (List.mem_cons.mp hleave).resolve_left ?_
          rintro rfl
          cases hask
        have hasks : p ∉ askers rs := by
          have hnodup := (List.nodup_append.mp hdistinct).2.1
          rw [askers, List.filterMap_cons_some hask, List.nodup_cons] at hnodup
          exact hnodup.1
        by_cases hjoins : ∃ line', p ∈ (q.serve r).2.line line'
        · obtain ⟨line', hline'⟩ := hjoins
          obtain ⟨hanswers, hdelivery, hforget⟩ := forget_of_joins h hp hask hline'
          have hrest := agrees_of_line (h.serve r) hallowed.2 hdistinct.serve hline' hleave'
          rw [hforget] at hrest
          rw [hwithout]
          refine ⟨hrest.after, ?_, ?_⟩
          · rw [hrest.answers, answers, hanswers, List.nil_append]
          · rw [hrest.delivered, delivered, hdelivery, Option.toList_none, List.nil_append]
        · rw [not_exists] at hjoins
          exact absurd hleave'
            (not_mem_leave (h.serve r) hallowed.2 hdistinct.serve hjoins hasks _ _)
      · exact absurd (mem_places_of_line hallowed.1) hp
    | false =>
      have hwithout : without p (r :: rs) = r :: without p rs := by
        simp [without, hconcerns]
      have hleave' : .leave line ticket p ∈ rs := by
        refine (List.mem_cons.mp hleave).resolve_left ?_
        rintro rfl
        simp [Request.concerns] at hconcerns
      have hp' : p ∉ (q.serve r).2.places := by
        have hask : p ∉ r.asker?.toList := by
          intro hmem
          rw [Request.concerns_iff.mpr (Or.inl (Option.mem_toList.mp hmem))] at hconcerns
          cases hconcerns
        have hcount := q.count_places_serve r p
        rw [List.count_eq_zero_of_not_mem hp, List.count_eq_zero_of_not_mem hask] at hcount
        exact List.count_eq_zero.mp (Nat.le_zero.mp hcount)
      rw [hwithout]
      exact .cons rfl rfl (ih (h.serve r) hallowed.2 hdistinct.serve hp' hleave')

end Queue

end Fibers
