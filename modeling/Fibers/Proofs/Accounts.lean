import Fibers.Proofs.Acquisition

/-!
# Accounts of acquisitions and releases

What has been acquired in the course of an acquisition has been released again, or is held in the
end, or has been handed to code that panicked.  That is read off the ways in which a resource is
acquired: each of them hands on what its parts hold, or releases it.  By the same token what has
been acquired inside of something else is released before it.

## Main definitions

* `Hold.inside`, `Took.Owes` — what is to be released before what.
* `Story.Settles` — the code that releases a part has been called and carried out.

## Main results

* `Resource.Acquires.perm`, `Resource.Uses.perm` — **the account is balanced.**
* `Resource.Acquires.owes`, `Resource.Uses.ordered` — **what is inside is released first.**
* `Resource.Uses.settles` — what has been acquired has been taken care of.
* `Resource.Uses.tells` — the failure tells of every panic.
-/

namespace Fibers

variable {ε : ErrorType} {f g l r : FiberId} {st st' st'' : Story} {x : Exit Value Value}
  {hold inner outer left right : Hold} {p : ReleaseId × ReleaseId}

/-! ### What has happened in a story -/

@[simp] theorem reservedIn_nil : reservedIn [] = [] := rfl

@[simp] theorem calledIn_nil : calledIn [] = [] := rfl

@[simp] theorem reservedIn_append (st st' : Story) :
    reservedIn (st ++ st') = reservedIn st ++ reservedIn st' := List.filterMap_append ..

@[simp] theorem calledIn_append (st st' : Story) :
    calledIn (st ++ st') = calledIn st ++ calledIn st' := List.filterMap_append ..

@[simp] theorem reservedIn_ran (f : FiberId) (i : Instruction) (o : Outcome) (st : Story) :
    reservedIn ((f, .ran i o) :: st) = reservedIn st := rfl

@[simp] theorem calledIn_ran (f : FiberId) (i : Instruction) (o : Outcome) (st : Story) :
    calledIn ((f, .ran i o) :: st) = calledIn st := rfl

@[simp] theorem reservedIn_reserved (f : FiberId) (v : Value) (id : ReleaseId)
    (release : Exit Value Value → Action Instruction) (st : Story) :
    reservedIn ((f, .reserved v id release) :: st) = id :: reservedIn st := rfl

@[simp] theorem calledIn_reserved (f : FiberId) (v : Value) (id : ReleaseId)
    (release : Exit Value Value → Action Instruction) (st : Story) :
    calledIn ((f, .reserved v id release) :: st) = calledIn st := rfl

@[simp] theorem reservedIn_started (f c : FiberId) (st : Story) :
    reservedIn ((f, .started c) :: st) = reservedIn st := rfl

@[simp] theorem calledIn_started (f c : FiberId) (st : Story) :
    calledIn ((f, .started c) :: st) = calledIn st := rfl

@[simp] theorem reservedIn_fork (f l r : FiberId) (st st' : Story) :
    reservedIn (Story.fork f l r st st') = reservedIn st ++ reservedIn st' := by
  simp [Story.fork]

@[simp] theorem calledIn_fork (f l r : FiberId) (st st' : Story) :
    calledIn (Story.fork f l r st st') = calledIn st ++ calledIn st' := by
  simp [Story.fork]

@[simp] theorem Hold.reservedIn_calls (hold : Hold) (f : FiberId) (x : Exit Value Value) :
    reservedIn (hold.calls f x) = [] := by
  simp [reservedIn, calls, Episode.reserved?]

@[simp] theorem Hold.calledIn_calls (hold : Hold) (f : FiberId) (x : Exit Value Value) :
    calledIn (hold.calls f x) = hold.first := by
  simp only [calledIn, calls, List.filterMap_map]
  exact List.filterMap_some

/-! ### What a release does -/

namespace Hold

@[simp] theorem ids_single (id : ReleaseId) (build : Exit Value Value → Action Instruction) :
    (single id build).ids = [id] := rfl

@[simp] theorem ids_nested (id : ReleaseId) (type : ErrorType) (inner outer : Hold) :
    (nested id type inner outer).ids = outer.ids ++ inner.ids := by
  simp [ids, leaves]

@[simp] theorem ids_both (id : ReleaseId) (type : ErrorType) (left right : Hold) :
    (both id type left right).ids = left.ids ++ right.ids := by
  simp [ids, leaves]

@[simp] theorem ids_within (id : ReleaseId) (environment : Value → Action Value)
    (calm : ∀ v, (environment v).Calm) (inner : Hold) :
    (within id environment calm inner).ids = inner.ids := rfl

/-- What is to be released after what: the outer parts after the inner ones. -/
def inside : Hold → List (ReleaseId × ReleaseId)
  | .single _ _ => []
  | .nested _ _ inner outer => outer.inside ++ (inner.inside ++ outer.ids.product inner.ids)
  | .both _ _ left right => left.inside ++ right.inside
  | .within _ _ _ inner => inner.inside

theorem Runs.reservedIn (h : Runs x f hold st) : Fibers.reservedIn st = [] := by
  induction h with
  | single _ | panicked _ => rfl
  | nested _ _ ihi iho => simp [ihi, iho]
  | both _ _ ihl ihr => simp [ihl, ihr]
  | within _ ih => exact ih

/-- What has been built calls every part that has not been called at once. -/
theorem Runs.perm (h : Runs x f hold st) : (hold.first ++ calledIn st).Perm hold.ids := by
  induction h with
  | single _ | panicked _ => exact List.Perm.refl _
  | @nested f id type inner outer st st' _ _ ihi iho =>
    rw [ids_nested, calledIn_append, calledIn_append, calledIn_calls, ← List.append_assoc]
    exact (ihi.append iho).trans List.perm_append_comm
  | @both f l r id type left right st st' _ _ ihl ihr =>
    rw [ids_both, calledIn_started, calledIn_append, calledIn_started]
    refine List.Perm.trans ?_ (ihl.append ihr)
    change ((left.first ++ right.first) ++ (calledIn st ++ calledIn st')).Perm _
    rw [List.append_assoc, List.append_assoc]
    refine List.Perm.append_left _ ?_
    rw [← List.append_assoc, ← List.append_assoc]
    exact List.perm_append_comm.append_right _
  | within _ ih => exact ih

/-- Two that are called one after the other, in parts of what is called. -/
theorem pair_sublist {α : Type} {as bs : List α} {a b : α} (ha : a ∈ as) (hb : b ∈ bs) :
    [a, b].Sublist (as ++ bs) :=
  (List.singleton_sublist.mpr ha).append (List.singleton_sublist.mpr hb)

/-- What has been built calls what is inside first. -/
theorem Runs.ordered (h : Runs x f hold st) (hp : p ∈ hold.inside) :
    [p.2, p.1].Sublist (hold.first ++ calledIn st) := by
  induction h with
  | single _ | panicked _ => cases hp
  | @nested f id type inner outer st st' hinner houter ihi iho =>
    rw [calledIn_append, calledIn_append, calledIn_calls, ← List.append_assoc]
    rcases List.mem_append.mp hp with hp | hp
    · exact (iho hp).trans (List.sublist_append_right _ _)
    rcases List.mem_append.mp hp with hp | hp
    · exact (ihi hp).trans (List.sublist_append_left _ _)
    · obtain ⟨ha, hb⟩ := List.pair_mem_product.mp hp
      exact pair_sublist (hinner.perm.mem_iff.mpr hb) (houter.perm.mem_iff.mpr ha)
  | @both f l r id type left right st st' _ _ ihl ihr =>
    rw [calledIn_started, calledIn_append, calledIn_started]
    change [p.2, p.1].Sublist ((left.first ++ right.first) ++ _)
    rcases List.mem_append.mp hp with hp | hp
    · exact (ihl hp).trans ((List.sublist_append_left _ _).append (List.sublist_append_left _ _))
    · exact (ihr hp).trans ((List.sublist_append_right _ _).append (List.sublist_append_right _ _))
  | within _ ih => exact ih hp

variable (h : hold.Releases x f st)
include h

theorem Releases.reservedIn : Fibers.reservedIn st = [] := by
  obtain ⟨st', hruns, rfl⟩ := h
  rw [reservedIn_append, reservedIn_calls, hruns.reservedIn]
  rfl

/-- **A release calls every part once.** -/
theorem Releases.perm : (calledIn st).Perm hold.ids := by
  obtain ⟨st', hruns, rfl⟩ := h
  rw [calledIn_append, calledIn_calls]
  exact hruns.perm

/-- What is inside is called first. -/
theorem Releases.ordered (hp : p ∈ hold.inside) : [p.2, p.1].Sublist (calledIn st) := by
  obtain ⟨st', hruns, rfl⟩ := h
  rw [calledIn_append, calledIn_calls]
  exact hruns.ordered hp

end Hold

/-! ### The account of an acquisition -/

namespace Took

/-- What has to be released. -/
def ids : Took → List ReleaseId
  | .got _ hold => hold.ids
  | .failed _ => []

/-- What is to be released after what. -/
def inside : Took → List (ReleaseId × ReleaseId)
  | .got _ hold => hold.inside
  | .failed _ => []

/-- What has been acquired inside of something else has been released before it, or at least before
the end, or will be. -/
def Owes (took : Took) (st : Story) (p : ReleaseId × ReleaseId) : Prop :=
  [p.2, p.1].Sublist (calledIn st) ∨ (p.2 ∈ calledIn st ∧ p.1 ∈ took.ids) ∨ p ∈ took.inside

end Took

/-- What has been handed to code that panicked. -/
def lostIds (lost : List (Defect × Hold)) : List ReleaseId := lost.flatMap fun q => q.2.ids

@[simp] theorem lostIds_nil : lostIds [] = [] := rfl

@[simp] theorem lostIds_append (lost lost' : List (Defect × Hold)) :
    lostIds (lost ++ lost') = lostIds lost ++ lostIds lost' := List.flatMap_append ..

@[simp] theorem lostIds_singleton (d : Defect) (hold : Hold) : lostIds [(d, hold)] = hold.ids :=
  List.flatMap_singleton ..

@[simp] theorem lostIds_pair (d d' : Defect) (hold hold' : Hold) :
    lostIds [(d, hold), (d', hold')] = hold.ids ++ hold'.ids := by
  simp [lostIds]

namespace Resource

variable {m : Resource ε} {took : Took} {lost lost' : List (Defect × Hold)}
  {inside inside' : List (ReleaseId × ReleaseId)}

/-- **What has been acquired has been released again, is held in the end, or has been handed to code
that panicked.** -/
theorem Acquires.perm (h : m.Acquires f took st lost inside) :
    (reservedIn st).Perm (calledIn st ++ (took.ids ++ lostIds lost)) := by
  induction h with
  | acquired => exact List.Perm.refl _
  | refused | fail | unbuilt _ => exact List.Perm.refl _
  | built _ _ ih => exact ih
  | mapped _ _ ih => exact ih
  | unmapped _ _ ih =>
    rw [lostIds_append, lostIds_singleton]
    exact ih.trans (List.perm_append_comm.append_left _)
  | mapRefused _ ih | chainRefused _ ih | provideRefused _ ih => exact ih
  | chained _ _ ih ih' | paired _ _ _ ih ih' =>
    simp only [reservedIn_append, calledIn_append, reservedIn_fork, calledIn_fork, lostIds_append,
      Took.ids, Hold.ids_nested, Hold.ids_both] at *
    grind
  | unchained _ _ hreleases ih ih' | rightRefused _ _ hreleases ih ih'
  | leftRefused _ _ hreleases ih ih' =>
    have hnone := hreleases.reservedIn
    have hcalled := hreleases.perm
    simp only [reservedIn_append, calledIn_append, reservedIn_fork, calledIn_fork, lostIds_append,
      Took.ids, hnone] at *
    grind
  | unpaired _ _ _ ih ih' | bothRefused _ _ ih ih' =>
    simp only [reservedIn_fork, calledIn_fork, lostIds_append, Took.ids, lostIds_pair] at *
    grind
  | provided _ ih => exact ih

/-! ### What is released before what -/

/-- A release settles what is owed. -/
theorem ordered_of_owes {v : Value} (h : (Took.got v hold).Owes st p)
    (hreleases : hold.Releases x f st') : [p.2, p.1].Sublist (calledIn st ++ calledIn st') := by
  rcases h with hdone | ⟨hinner, houter⟩ | hlater
  · exact hdone.trans (List.sublist_append_left _ _)
  · exact Hold.pair_sublist hinner (hreleases.perm.mem_iff.mpr houter)
  · exact (hreleases.ordered hlater).trans (List.sublist_append_right _ _)

/-- What is owed is owed when more has happened, and more is held. -/
theorem owes_mono {took' : Took} (h : took.Owes st p)
    (hcalled : (calledIn st).Sublist (calledIn st')) (hids : took.ids ⊆ took'.ids)
    (hinside : took.inside ⊆ took'.inside) : took'.Owes st' p :=
  h.imp (fun hdone => hdone.trans hcalled) <|
    Or.imp (fun hpair => ⟨hcalled.subset hpair.1, hids hpair.2⟩) fun hlater => hinside hlater

/-- Nothing is owed by an acquisition that has failed. -/
theorem ordered_of_failed {h : Halt Failure} (hp : (Took.failed h).Owes st p) :
    [p.2, p.1].Sublist (calledIn st) := by
  rcases hp with hdone | ⟨-, hnone⟩ | hnone
  · exact hdone
  · cases hnone
  · cases hnone

/-- What has been acquired inside of something that is held. -/
theorem owes_product (h : m.Acquires f took st lost inside)
    (hlost : lost = []) (hp : p ∈ outer.ids.product (reservedIn st)) :
    p.1 ∈ outer.ids ∧ (p.2 ∈ calledIn st ∨ p.2 ∈ took.ids) := by
  obtain ⟨houter, hreserved⟩ := List.pair_mem_product.mp hp
  have hmem := h.perm.mem_iff.mp hreserved
  rw [hlost, lostIds_nil, List.append_nil] at hmem
  exact ⟨houter, List.mem_append.mp hmem⟩

/-- **What has been acquired inside of something else is released before it**, if nothing has been
handed to code that panicked. -/
theorem Acquires.owes (h : m.Acquires f took st lost inside) (hlost : lost = []) (hp : p ∈ inside) :
    took.Owes st p := by
  induction h with
  | acquired | refused | fail | unbuilt _ => cases hp
  | built _ _ ih | mapRefused _ ih | chainRefused _ ih | provideRefused _ ih => exact ih hlost hp
  | mapped _ _ ih => exact ih hlost hp
  | provided _ ih => exact ih hlost hp
  | unmapped _ _ _ | unpaired _ _ _ _ _ => simp at hlost
  | @chained f m g v v' id outer inner st st' lost lost' inside inside' _ hinner ih ih' =>
    obtain ⟨rfl, rfl⟩ := List.append_eq_nil_iff.mp hlost
    rcases List.mem_append.mp hp with hp | hp
    · exact owes_mono (ih rfl hp) (by simp) (by simp [Took.ids])
        (by simp [Took.inside, Hold.inside])
    rcases List.mem_append.mp hp with hp | hp
    · exact owes_mono (ih' rfl hp) (by simp) (by simp [Took.ids])
        (List.subset_append_of_subset_right _ (List.subset_append_left _ _))
    · obtain ⟨houter, hcalled | hheld⟩ := owes_product hinner rfl hp
      · exact Or.inr (Or.inl ⟨by simp [hcalled], by simp [Took.ids, houter]⟩)
      · exact Or.inr (Or.inr (List.mem_append_right _ (List.mem_append_right _
          (List.pair_mem_product.mpr ⟨houter, hheld⟩))))
  | @unchained f m g v h y outer st st' st'' lost lost' inside inside' _ hinner hreleases ih ih' =>
    obtain ⟨rfl, rfl⟩ := List.append_eq_nil_iff.mp hlost
    refine Or.inl ?_
    rw [calledIn_append, calledIn_append]
    rcases List.mem_append.mp hp with hp | hp
    · refine (ordered_of_owes (ih rfl hp) hreleases).trans ?_
      exact List.Sublist.append_left (List.sublist_append_right _ _) _
    rcases List.mem_append.mp hp with hp | hp
    · exact (ordered_of_failed (ih' rfl hp)).trans
        ((List.sublist_append_left _ _).trans (List.sublist_append_right _ _))
    · obtain ⟨houter, hcalled | hnone⟩ := owes_product hinner rfl hp
      · exact (Hold.pair_sublist hcalled (hreleases.perm.mem_iff.mpr houter)).trans
          (List.sublist_append_right _ _)
      · cases hnone
  | @paired f l r a b g v v' u w id left right st st' lost lost' inside inside' _ _ _ ih ih' =>
    obtain ⟨rfl, rfl⟩ := List.append_eq_nil_iff.mp hlost
    rcases List.mem_append.mp hp with hp | hp
    · exact owes_mono (ih rfl hp) (by simp) (by simp [Took.ids])
        (by simp [Took.inside, Hold.inside])
    · exact owes_mono (ih' rfl hp) (by simp) (by simp [Took.ids])
        (by simp [Took.inside, Hold.inside])
  | @rightRefused f l r a b g v h y left st st' st'' lost lost' inside inside' _ _ hreleases ih
      ih' =>
    obtain ⟨rfl, rfl⟩ := List.append_eq_nil_iff.mp hlost
    refine Or.inl ?_
    rw [calledIn_append, calledIn_fork]
    rcases List.mem_append.mp hp with hp | hp
    · exact (ordered_of_owes (ih rfl hp) hreleases).trans
        ((List.sublist_append_left _ _).append_right _)
    · exact (ordered_of_failed (ih' rfl hp)).trans
        ((List.sublist_append_right _ _).trans (List.sublist_append_left _ _))
  | @leftRefused f l r a b g v h y right st st' st'' lost lost' inside inside' _ _ hreleases ih
      ih' =>
    obtain ⟨rfl, rfl⟩ := List.append_eq_nil_iff.mp hlost
    refine Or.inl ?_
    rw [calledIn_append, calledIn_fork]
    rcases List.mem_append.mp hp with hp | hp
    · exact (ordered_of_failed (ih rfl hp)).trans
        ((List.sublist_append_left _ _).trans (List.sublist_append_left _ _))
    · exact (ordered_of_owes (ih' rfl hp) hreleases).trans
        ((List.sublist_append_right _ _).append_right _)
  | @bothRefused f l r a b g h h' st st' lost lost' inside inside' _ _ ih ih' =>
    obtain ⟨rfl, rfl⟩ := List.append_eq_nil_iff.mp hlost
    refine Or.inl ?_
    rw [calledIn_fork]
    rcases List.mem_append.mp hp with hp | hp
    · exact (ordered_of_failed (ih rfl hp)).trans (List.sublist_append_left _ _)
    · exact (ordered_of_failed (ih' rfl hp)).trans (List.sublist_append_right _ _)

/-! ### The account of a use -/

section Uses

variable {k : Value → Action (Effect ε)} {allowed : Bool} {o : Outcome}

/-- **What has been acquired for a use has been released, or has been handed to code that
panicked.** -/
theorem Uses.perm (h : m.Uses k allowed f o st lost inside) :
    (reservedIn st).Perm (calledIn st ++ lostIds lost) := by
  cases h with
  | stopped _ => exact List.Perm.refl _
  | refused hacquires => exact hacquires.perm
  | @used v w e o' y hold st st' _ _ hacquires _ hreleases =>
    have hperm := hacquires.perm
    have hcalled := hreleases.perm
    rw [reservedIn_append, calledIn_append]
    change (reservedIn st ++ reservedIn st').Perm (calledIn st ++ calledIn st' ++ lostIds lost)
    rw [hreleases.reservedIn, List.append_nil]
    simp only [Took.ids] at hperm
    grind

/-- **What has been acquired inside of something else has been released before it.** -/
theorem Uses.ordered (h : m.Uses k allowed f o st lost inside) (hlost : lost = [])
    (hp : p ∈ inside) : [p.2, p.1].Sublist (calledIn st) := by
  cases h with
  | stopped _ => cases hp
  | refused hacquires => exact ordered_of_failed (hacquires.owes hlost hp)
  | @used v w e o' y hold st st' _ _ hacquires _ hreleases =>
    rw [calledIn_append]
    change [p.2, p.1].Sublist (calledIn st ++ calledIn st')
    exact ordered_of_owes (hacquires.owes hlost hp) hreleases

end Uses

end Resource

/-! ### What becomes of what has been acquired -/

/-- What the code of a release builds for an exit has been carried out, unless the code has
panicked. -/
def Story.CarriesOut (st : Story) (build : Exit Value Value → Action Instruction)
    (x : Exit Value Value) : Prop :=
  (∃ w i g o, ((build x).run w).1 = .ok i ∧ (g, .ran i o) ∈ st) ∨
    ∃ w d, ((build x).run w).1 = .error d

/-- A part has been released: its code has been called, and what that has built has been carried
out. -/
def Story.Settles (st : Story)
    (part : ReleaseId × (Exit Value Value → Action Instruction)) : Prop :=
  ∃ x, (∃ g, (g, .called part.1 x) ∈ st) ∧ st.CarriesOut part.2 x

namespace Story

variable {build : Exit Value Value → Action Instruction}
  {part : ReleaseId × (Exit Value Value → Action Instruction)}

theorem CarriesOut.mono (h : st.CarriesOut build x) (hsub : st ⊆ st') : st'.CarriesOut build x :=
  h.imp_left fun ⟨w, i, g, o, hi, hmem⟩ => ⟨w, i, g, o, hi, hsub hmem⟩

theorem Settles.mono (h : st.Settles part) (hsub : st ⊆ st') : st'.Settles part :=
  let ⟨x, ⟨g, hcalled⟩, hcarried⟩ := h
  ⟨x, ⟨g, hsub hcalled⟩, hcarried.mono hsub⟩

theorem subset_fork_left (f l r : FiberId) (st st' : Story) : st ⊆ Story.fork f l r st st' :=
  fun _ h => List.mem_cons_of_mem _ (List.mem_append_left _ h)

theorem subset_fork_right (f l r : FiberId) (st st' : Story) : st' ⊆ Story.fork f l r st st' :=
  fun _ h => List.mem_cons_of_mem _ (List.mem_append_right _ (List.mem_cons_of_mem _ h))

end Story

namespace Hold

variable {part : ReleaseId × (Exit Value Value → Action Instruction)}

/-- What has been built for a release takes care of every part. -/
theorem Runs.settles (h : Runs x f hold st) (hpart : part ∈ hold.leaves) :
    (part.1 ∈ hold.first ∨ ∃ g, (g, .called part.1 x) ∈ st) ∧ st.CarriesOut part.2 x := by
  induction h with
  | @single f id build w i o hi =>
    obtain rfl := List.mem_singleton.mp hpart
    exact ⟨Or.inl (List.mem_singleton_self _), Or.inl ⟨w, i, f, o, hi, List.mem_singleton_self _⟩⟩
  | @panicked f id build w d hd =>
    obtain rfl := List.mem_singleton.mp hpart
    exact ⟨Or.inl (List.mem_singleton_self _), Or.inr ⟨w, d, hd⟩⟩
  | @nested f id type inner outer st st' _ _ ihi iho =>
    rcases List.mem_append.mp hpart with hpart | hpart
    · obtain ⟨hcalled, hcarried⟩ := iho hpart
      refine ⟨Or.inr ?_, hcarried.mono fun _ h => by simp [h]⟩
      rcases hcalled with hfirst | ⟨g, hcalled⟩
      · exact ⟨f, List.mem_append_right _ (List.mem_append_left _ (List.mem_map_of_mem hfirst))⟩
      · exact ⟨g, by simp [hcalled]⟩
    · obtain ⟨hcalled, hcarried⟩ := ihi hpart
      exact ⟨hcalled.imp_right fun ⟨g, hcalled⟩ => ⟨g, by simp [hcalled]⟩,
        hcarried.mono fun _ h => by simp [h]⟩
  | @both f l r id type left right st st' _ _ ihl ihr =>
    rcases List.mem_append.mp hpart with hpart | hpart
    · obtain ⟨hcalled, hcarried⟩ := ihl hpart
      exact ⟨hcalled.imp (List.mem_append_left _) fun ⟨g, hcalled⟩ => ⟨g, by simp [hcalled]⟩,
        hcarried.mono fun _ h => by simp [h]⟩
    · obtain ⟨hcalled, hcarried⟩ := ihr hpart
      exact ⟨hcalled.imp (List.mem_append_right _) fun ⟨g, hcalled⟩ => ⟨g, by simp [hcalled]⟩,
        hcarried.mono fun _ h => by simp [h]⟩
  | within _ ih => exact ih hpart

/-- **A release takes care of every part.** -/
theorem Releases.settles (h : hold.Releases x f st) (hpart : part ∈ hold.leaves) :
    st.Settles part := by
  obtain ⟨st', hruns, rfl⟩ := h
  obtain ⟨hcalled, hcarried⟩ := hruns.settles hpart
  refine ⟨x, ?_, hcarried.mono (List.subset_append_right _ _)⟩
  rcases hcalled with hfirst | ⟨g, hcalled⟩
  · exact ⟨f, List.mem_append_left _ (List.mem_map_of_mem hfirst)⟩
  · exact ⟨g, List.mem_append_right _ hcalled⟩

end Hold

/-- The parts that have to be released. -/
def Took.leaves : Took → List (ReleaseId × (Exit Value Value → Action Instruction))
  | .got _ hold => hold.leaves
  | .failed _ => []

namespace Resource

variable {m : Resource ε} {took : Took} {lost lost' : List (Defect × Hold)}
  {inside inside' : List (ReleaseId × ReleaseId)}
  {part : ReleaseId × (Exit Value Value → Action Instruction)}

/-- A part has been released, is held in the end, or has been handed to code that panicked. -/
def Accounted (took : Took) (st : Story) (lost : List (Defect × Hold))
    (part : ReleaseId × (Exit Value Value → Action Instruction)) : Prop :=
  st.Settles part ∨ part ∈ took.leaves ∨ ∃ q ∈ lost, part ∈ q.2.leaves

theorem Accounted.mono {took' : Took} (h : Accounted took st lost part) (hsub : st ⊆ st')
    (hleaves : took.leaves ⊆ took'.leaves) (hlost : lost ⊆ lost') :
    Accounted took' st' lost' part :=
  h.imp (fun hdone => hdone.mono hsub) <|
    Or.imp (fun hheld => hleaves hheld) fun ⟨q, hq, hpart⟩ => ⟨q, hlost hq, hpart⟩

/-- A release takes care of what has been held. -/
theorem Accounted.released {v : Value} {took' : Took} (h : Accounted (.got v hold) st lost part)
    (hreleases : hold.Releases x f st'') (hsub : st ⊆ st') (hsub' : st'' ⊆ st')
    (hlost : lost ⊆ lost') : Accounted took' st' lost' part := by
  rcases h with hdone | hheld | ⟨q, hq, hpart⟩
  · exact Or.inl (hdone.mono hsub)
  · exact Or.inl ((hreleases.settles hheld).mono hsub')
  · exact Or.inr (Or.inr ⟨q, hlost hq, hpart⟩)

/-- **What has been acquired has been released, is held in the end, or has been handed to code that
panicked.** -/
theorem Acquires.accounted {v : Value} {id : ReleaseId}
    {build : Exit Value Value → Action Instruction} (h : m.Acquires f took st lost inside)
    (hmem : (g, .reserved v id build) ∈ st) : Accounted took st lost (id, build) := by
  -- what is reserved by two that have been started is reserved by one of them
  have hfork : ∀ {f l r : FiberId} {st st' : Story},
      (g, .reserved v id build) ∈ Story.fork f l r st st' →
        (g, .reserved v id build) ∈ st ∨ (g, .reserved v id build) ∈ st' := by
    intro f l r st st' hmem
    simpa [Story.fork] using hmem
  -- and nothing is reserved in a release
  have hnone : ∀ {hold : Hold} {x f st}, hold.Releases x f st →
      (g, .reserved v id build) ∉ st := by
    intro hold x f st hreleases hmem
    have hid : id ∈ reservedIn st := List.mem_filterMap.mpr ⟨_, hmem, rfl⟩
    rw [hreleases.reservedIn] at hid
    cases hid
  induction h with
  | @acquired f acquire release v' id' =>
    rcases List.mem_cons.mp hmem with heq | hmem
    · cases heq
    · obtain ⟨-, heq⟩ := Prod.mk.inj (List.mem_singleton.mp hmem)
      obtain ⟨-, rfl, rfl⟩ := Episode.reserved.inj heq
      exact Or.inr (Or.inl (List.mem_singleton_self _))
  | refused => cases List.mem_singleton.mp hmem
  | fail | unbuilt _ => cases hmem
  | built _ _ ih | provided _ ih => exact ih hmem
  | mapped _ _ ih => exact ih hmem
  | mapRefused _ ih | chainRefused _ ih | provideRefused _ ih => exact ih hmem
  | @unmapped f m k v' w d hold st lost inside _ _ ih =>
    rcases ih hmem with hdone | hheld | ⟨q, hq, hpart⟩
    · exact Or.inl hdone
    · exact Or.inr (Or.inr ⟨_, List.mem_append_right _ (List.mem_singleton_self _), hheld⟩)
    · exact Or.inr (Or.inr ⟨q, List.mem_append_left _ hq, hpart⟩)
  | chained _ _ ih ih' =>
    rcases List.mem_append.mp hmem with hmem | hmem
    · exact (ih hmem).mono (List.subset_append_left _ _) (List.subset_append_left _ _)
        (List.subset_append_left _ _)
    · exact (ih' hmem).mono (List.subset_append_right _ _) (List.subset_append_right _ _)
        (List.subset_append_right _ _)
  | unchained _ _ hreleases ih ih' =>
    rcases List.mem_append.mp hmem with hmem | hmem
    · exact (ih hmem).released hreleases (List.subset_append_left _ _)
        (List.subset_append_of_subset_right _ (List.subset_append_right _ _))
        (List.subset_append_left _ _)
    rcases List.mem_append.mp hmem with hmem | hmem
    · exact (ih' hmem).mono
        (List.subset_append_of_subset_right _ (List.subset_append_left _ _))
        (List.nil_subset _) (List.subset_append_right _ _)
    · exact absurd hmem (hnone hreleases)
  | paired _ _ _ ih ih' =>
    rcases hfork hmem with hmem | hmem
    · exact (ih hmem).mono (Story.subset_fork_left ..) (List.subset_append_left _ _)
        (List.subset_append_left _ _)
    · exact (ih' hmem).mono (Story.subset_fork_right ..) (List.subset_append_right _ _)
        (List.subset_append_right _ _)
  | @unpaired f l r a b k v₁ v₂ w d left right st st' lost lost' inside inside' _ _ _ ih ih' =>
    have hlost : ∀ {v : Value} {hold : Hold} {st₀ : Story}, (d, hold) ∈ [(d, left), (d, right)] →
        ∀ {lost₀ : List (Defect × Hold)}, lost₀ ⊆ lost ++ lost' →
        Accounted (.got v hold) st₀ lost₀ (id, build) → st₀ ⊆ Story.fork f l r st st' →
        Accounted (.failed (.of (.die d))) (Story.fork f l r st st')
          (lost ++ lost' ++ [(d, left), (d, right)]) (id, build) := by
      intro v hold st₀ hhold lost₀ hsub haccounted hst
      rcases haccounted with hdone | hheld | ⟨q, hq, hpart⟩
      · exact Or.inl (hdone.mono hst)
      · exact Or.inr (Or.inr ⟨_, List.mem_append_right _ hhold, hheld⟩)
      · exact Or.inr (Or.inr ⟨q, List.mem_append_left _ (hsub hq), hpart⟩)
    rcases hfork hmem with hmem | hmem
    · exact hlost (by simp) (List.subset_append_left _ _) (ih hmem) (Story.subset_fork_left ..)
    · exact hlost (by simp) (List.subset_append_right _ _) (ih' hmem) (Story.subset_fork_right ..)
  | rightRefused _ _ hreleases ih ih' =>
    rcases List.mem_append.mp hmem with hmem | hmem
    · rcases hfork hmem with hmem | hmem
      · exact (ih hmem).released hreleases
          (List.subset_append_of_subset_left _ (Story.subset_fork_left ..))
          (List.subset_append_right _ _) (List.subset_append_left _ _)
      · exact (ih' hmem).mono (List.subset_append_of_subset_left _ (Story.subset_fork_right ..))
          (List.nil_subset _) (List.subset_append_right _ _)
    · exact absurd hmem (hnone hreleases)
  | leftRefused _ _ hreleases ih ih' =>
    rcases List.mem_append.mp hmem with hmem | hmem
    · rcases hfork hmem with hmem | hmem
      · exact (ih hmem).mono (List.subset_append_of_subset_left _ (Story.subset_fork_left ..))
          (List.nil_subset _) (List.subset_append_left _ _)
      · exact (ih' hmem).released hreleases
          (List.subset_append_of_subset_left _ (Story.subset_fork_right ..))
          (List.subset_append_right _ _) (List.subset_append_right _ _)
    · exact absurd hmem (hnone hreleases)
  | bothRefused _ _ ih ih' =>
    rcases hfork hmem with hmem | hmem
    · exact (ih hmem).mono (Story.subset_fork_left ..) (List.nil_subset _)
        (List.subset_append_left _ _)
    · exact (ih' hmem).mono (Story.subset_fork_right ..) (List.nil_subset _)
        (List.subset_append_right _ _)

/-- Nothing is held by an acquisition that has failed. -/
theorem Accounted.of_failed {h : Halt Failure} (haccounted : Accounted (.failed h) st lost part) :
    st.Settles part ∨ ∃ q ∈ lost, part ∈ q.2.leaves :=
  haccounted.imp_right fun h => h.resolve_left nofun

/-- What has been acquired, and released after something else, has been taken care of. -/
theorem Acquires.settles_released {v v' : Value} {i : Instruction} {o : Outcome} {id : ReleaseId}
    {build : Exit Value Value → Action Instruction} (h : m.Acquires f (.got v' hold) st lost inside)
    (hreleases : hold.Releases x f st')
    (hmem : (g, .reserved v id build) ∈ st ++ (f, .ran i o) :: st') :
    Story.Settles (st ++ (f, .ran i o) :: st') (id, build) ∨
      ∃ q ∈ lost, (id, build) ∈ q.2.leaves := by
  rcases List.mem_append.mp hmem with hmem | hmem
  · have hreleased : Accounted (.failed (.of .empty)) (st ++ (f, .ran i o) :: st') lost (id, build) :=
      (h.accounted hmem).released hreleases (List.subset_append_left _ _)
        (fun _ h => List.mem_append_right _ (List.mem_cons_of_mem _ h)) (List.Subset.refl _)
    exact hreleased.of_failed
  · -- neither what comes in between nor the release reserves anything
    have hid : id ∈ reservedIn st' :=
      List.mem_filterMap.mpr ⟨_, (List.mem_cons.mp hmem).resolve_left (by simp), rfl⟩
    rw [hreleases.reservedIn] at hid
    cases hid

/-- **What has been acquired for a use has been released, or has been handed to code that
panicked.** -/
theorem Uses.settles {k : Value → Action (Effect ε)} {allowed : Bool} {o : Outcome} {v : Value}
    {id : ReleaseId} {build : Exit Value Value → Action Instruction}
    (h : m.Uses k allowed f o st lost inside) (hmem : (g, .reserved v id build) ∈ st) :
    st.Settles (id, build) ∨ ∃ q ∈ lost, (id, build) ∈ q.2.leaves := by
  cases h with
  | stopped _ => cases hmem
  | refused hacquires => exact (hacquires.accounted hmem).of_failed
  | used hacquires _ hreleases => exact hacquires.settles_released hreleases hmem

end Resource

/-! ### What a failure tells -/

namespace Halt

variable {ε' : Type} {d : Defect}

/-- Defects are left where they are. -/
theorem die_mem_flatMap {h : Halt ε'} {ε'' : Type} {k : ε' → Cause ε''} (hd : .die d ∈ h.leaves) :
    .die d ∈ (h.flatMap k).leaves := by
  obtain ⟨c, hc, hmem⟩ := List.mem_flatMap.mp hd
  refine List.mem_flatMap.mpr ⟨c.flatMap k, ?_, ?_⟩
  · exact List.mem_map_of_mem hc
  · rw [Cause.leaves_flatMap]
    exact List.mem_flatMap.mpr ⟨_, hmem, List.mem_singleton_self _⟩

/-- A failure with something beside it tells of the same defects. -/
theorem die_mem_beside {h : Halt Failure} (hd : .die d ∈ h.leaves) (y : Exit Value Value) :
    .die d ∈ (h.beside ε y).leaves := by
  cases y with
  | done _ => exact die_mem_flatMap (die_mem_flatMap hd)
  | halt cleanup =>
    refine die_mem_flatMap ?_
    rw [leaves_append]
    exact List.mem_append_left _ (die_mem_flatMap hd)

theorem isInterruptedOnly_fail (e : ε') : (Cause.fail e).isInterruptedOnly = false := by
  simp [Cause.isInterruptedOnly, Cause.leaves, Leaf.isInterrupt, Leaf.interruptor?]

theorem isInterruptedOnly_die (d : Defect) :
    (Cause.die d : Cause ε').isInterruptedOnly = false := by
  simp [Cause.isInterruptedOnly, Cause.leaves, Leaf.isInterrupt, Leaf.interruptor?]

/-- Whether a cause is made of cancellations alone does not depend on what is failed with. -/
theorem isInterruptedOnly_flatMap {ε'' : Type} {k : ε' → Cause ε''}
    (hk : ∀ e, ∃ leaf, (k e).leaves = [leaf] ∧ leaf.isInterrupt = false) (c : Cause ε') :
    (c.flatMap k).isInterruptedOnly = c.isInterruptedOnly := by
  have hone : ∀ leaf : Leaf ε', ∃ leaf', Cause.substituted k leaf = [leaf'] ∧
      leaf'.isInterrupt = leaf.isInterrupt := by
    rintro (e | d | source)
    · exact hk e
    · exact ⟨_, rfl, rfl⟩
    · exact ⟨_, rfl, rfl⟩
  choose next hnext hsame using hone
  have hleaves : (c.flatMap k).leaves = c.leaves.map next := by
    rw [Cause.leaves_flatMap, List.map_eq_flatMap]
    exact List.flatMap_congr fun leaf _ => hnext leaf
  simp only [Cause.isInterruptedOnly, Cause.visited_eq_leaves, hleaves, List.any_map, List.all_map]
  congr 2 <;> funext leaf <;> exact hsame leaf

theorem isInterruptedOnly_untag (h : Halt Failure) :
    (h.untag ε).cause.isInterruptedOnly = h.cause.isInterruptedOnly := by
  refine isInterruptedOnly_flatMap (fun e => ?_) h.cause
  by_cases heq : e.type = ε
  · exact ⟨.fail e.value, by rw [if_pos heq]; rfl, rfl⟩
  · exact ⟨.die (.mismatch "failure" ε.name), by rw [if_neg heq]; rfl, rfl⟩

theorem isInterruptedOnly_tag (h : Halt Value) :
    (h.tag ε).cause.isInterruptedOnly = h.cause.isInterruptedOnly :=
  isInterruptedOnly_flatMap (fun _ => ⟨_, rfl, rfl⟩) h.cause

/-- What is put beside a failure leaves its primary cause. -/
theorem cause_append (h other : Halt ε') : (h.append other).cause = h.cause := by
  unfold append withRemaining
  split <;> rfl

theorem isInterruptedOnly_beside (h : Halt Failure) (y : Exit Value Value) :
    (h.beside ε y).cause.isInterruptedOnly = h.cause.isInterruptedOnly := by
  cases y with
  | done _ => exact (isInterruptedOnly_tag _).trans (isInterruptedOnly_untag h)
  | halt cleanup =>
    exact (isInterruptedOnly_tag _).trans
      ((congrArg _ (cause_append _ _)).trans (@isInterruptedOnly_untag ε h))

/-- One failure is kept beside another one that is not made of cancellations alone. -/
theorem die_mem_keepSibling {h h' : Halt Failure} (honly : h'.cause.isInterruptedOnly = false)
    (hd : .die d ∈ h.leaves ∨ .die d ∈ h'.leaves) :
    .die d ∈ (((h.untag ε).keepSibling (.halt (h'.untag ε))).tag ε).leaves := by
  refine die_mem_flatMap ?_
  simp only [keepSibling, isInterruptedOnly_untag, honly, Bool.false_eq_true, if_false,
    leaves_append]
  exact List.mem_append.mpr (hd.imp die_mem_flatMap die_mem_flatMap)

theorem isInterruptedOnly_keepSibling (h h' : Halt Failure) :
    (((h.untag ε).keepSibling (.halt (h'.untag ε))).tag ε).cause.isInterruptedOnly =
      h.cause.isInterruptedOnly := by
  refine (isInterruptedOnly_tag _).trans ((congrArg _ ?_).trans (@isInterruptedOnly_untag ε h))
  simp only [keepSibling]
  split
  · rfl
  · exact cause_append _ _

end Halt

/-- No code that has been carried out has failed with cancellations alone. -/
def Story.Firm (st : Story) : Prop :=
  ∀ f i h, (f, .ran i (.halt h)) ∈ st → h.cause.isInterruptedOnly = false

theorem Story.Firm.of_subset (h : st'.Firm) (hsub : st ⊆ st') : st.Firm :=
  fun f i failure hmem => h f i failure (hsub hmem)

/-- A failed acquisition tells of every panic, and no other has had one. -/
def Took.Tells (lost : List (Defect × Hold)) : Took → Prop
  | .got _ _ => lost = []
  | .failed h => h.cause.isInterruptedOnly = false ∧ ∀ q ∈ lost, .die q.1 ∈ h.leaves

namespace Resource

variable {m : Resource ε} {took : Took} {lost : List (Defect × Hold)}
  {inside : List (ReleaseId × ReleaseId)}

/-- **The failure of an acquisition tells of every panic.** -/
theorem Acquires.tells (h : m.Acquires f took st lost inside) (hfirm : st.Firm) :
    took.Tells lost := by
  induction h with
  | acquired => rfl
  | refused => exact ⟨hfirm _ _ _ (List.mem_singleton_self _), nofun⟩
  | fail => exact ⟨(Halt.isInterruptedOnly_tag _).trans (Halt.isInterruptedOnly_fail _), nofun⟩
  | unbuilt _ => exact ⟨Halt.isInterruptedOnly_die _, nofun⟩
  | built _ _ ih | provided _ ih => exact ih hfirm
  | mapped _ _ ih => exact ih hfirm
  | mapRefused _ ih | chainRefused _ ih | provideRefused _ ih => exact ih hfirm
  | unmapped _ _ ih =>
    obtain rfl : _ = [] := ih hfirm
    refine ⟨Halt.isInterruptedOnly_die _, fun q hq => ?_⟩
    obtain rfl := List.mem_singleton.mp hq
    exact List.mem_singleton_self _
  | chained _ _ ih ih' =>
    obtain rfl : _ = [] := ih (hfirm.of_subset (List.subset_append_left _ _))
    exact ih' (hfirm.of_subset (List.subset_append_right _ _))
  | @unchained f m k v h y outer st st' st'' lost lost' inside inside' _ _ _ ih ih' =>
    obtain rfl : lost = [] := ih (hfirm.of_subset (List.subset_append_left _ _))
    obtain ⟨honly, hdies⟩ := ih' (hfirm.of_subset
      (List.subset_append_of_subset_right _ (List.subset_append_left _ _)))
    exact ⟨(h.isInterruptedOnly_beside y).trans honly,
      fun q hq => Halt.die_mem_beside (hdies q hq) y⟩
  | paired _ _ _ ih ih' =>
    obtain rfl : _ = [] := ih (hfirm.of_subset (Story.subset_fork_left ..))
    exact ih' (hfirm.of_subset (Story.subset_fork_right ..))
  | unpaired _ _ _ ih ih' =>
    obtain rfl : _ = [] := ih (hfirm.of_subset (Story.subset_fork_left ..))
    obtain rfl : _ = [] := ih' (hfirm.of_subset (Story.subset_fork_right ..))
    refine ⟨Halt.isInterruptedOnly_die _, fun q hq => ?_⟩
    rcases List.mem_pair.mp hq with rfl | rfl <;> exact List.mem_singleton_self _
  | @rightRefused f l r a b k v h y left st st' st'' lost lost' inside inside' _ _ _ ih ih' =>
    have hfork := hfirm.of_subset (List.subset_append_left _ _)
    obtain rfl : lost = [] := ih (hfork.of_subset (Story.subset_fork_left ..))
    obtain ⟨honly, hdies⟩ := ih' (hfork.of_subset (Story.subset_fork_right ..))
    exact ⟨(h.isInterruptedOnly_beside y).trans honly,
      fun q hq => Halt.die_mem_beside (hdies q hq) y⟩
  | @leftRefused f l r a b k v h y right st st' st'' lost lost' inside inside' _ _ _ ih ih' =>
    have hfork := hfirm.of_subset (List.subset_append_left _ _)
    obtain ⟨honly, hdies⟩ := ih (hfork.of_subset (Story.subset_fork_left ..))
    obtain rfl : lost' = [] := ih' (hfork.of_subset (Story.subset_fork_right ..))
    refine ⟨(h.isInterruptedOnly_beside y).trans honly, fun q hq => ?_⟩
    rw [List.append_nil] at hq
    exact Halt.die_mem_beside (hdies q hq) y
  | @bothRefused f l r a b k h h' st st' lost lost' inside inside' _ _ ih ih' =>
    obtain ⟨honly, hdies⟩ := ih (hfirm.of_subset (Story.subset_fork_left ..))
    obtain ⟨honly', hdies'⟩ := ih' (hfirm.of_subset (Story.subset_fork_right ..))
    refine ⟨(Halt.isInterruptedOnly_keepSibling h h').trans honly, fun q hq => ?_⟩
    exact Halt.die_mem_keepSibling honly' ((List.mem_append.mp hq).imp (hdies q) (hdies' q))

/-- **The failure of a use tells of every panic.** -/
theorem Uses.tells {k : Value → Action (Effect ε)} {allowed : Bool} {o : Outcome}
    (h : m.Uses k allowed f o st lost inside) (hfirm : st.Firm) {q : Defect × Hold}
    (hq : q ∈ lost) : ∃ failure, o = .halt failure ∧ .die q.1 ∈ failure.leaves := by
  cases h with
  | stopped _ => cases hq
  | refused hacquires => exact ⟨_, rfl, (hacquires.tells hfirm).2 q hq⟩
  | used hacquires _ _ =>
    obtain rfl : lost = [] := hacquires.tells (hfirm.of_subset (List.subset_append_left _ _))
    cases hq

end Resource

end Fibers
