/-!
# Logs

A log says what happened to a state, one thing after the other.

## Main definitions

* `Log step s es s'` — the events `es` lead from `s` to `s'`, each by a step.

## Main results

* `Log.append`, `Log.split` — logs in a row.
* `Log.split_at` — a log up to some event, the event, and the rest.
-/

namespace Fibers

variable {σ ε : Type} {step : σ → ε → σ → Prop}

/-- What happened to a state, in order. -/
inductive Log (step : σ → ε → σ → Prop) (s : σ) : List ε → σ → Prop
  | rest : Log step s [] s
  | add {es : List ε} {e : ε} {s' s'' : σ} (h : Log step s es s') (h' : step s' e s'') :
    Log step s (es ++ [e]) s''

namespace Log

variable {s s' s'' : σ} {e : ε} {es es' : List ε}

theorem one (h : step s e s') : Log step s [e] s' := rest.add h

theorem append (h : Log step s es s') (h' : Log step s' es' s'') : Log step s (es ++ es') s'' := by
  induction h' with
  | rest => simpa using h
  | add _ hlast ih =>
    rw [← List.append_assoc]
    exact ih.add hlast

/-- A log in two parts. -/
theorem split (h : Log step s (es ++ es') s') : ∃ m, Log step s es m ∧ Log step m es' s' := by
  generalize hall : es ++ es' = all at h
  induction h generalizing es' with
  | rest =>
    obtain ⟨rfl, rfl⟩ := List.append_eq_nil_iff.mp hall
    exact ⟨s, rest, rest⟩
  | @add init e m m' h hlast ih =>
    rcases List.eq_nil_or_concat es' with rfl | ⟨es', e', rfl⟩
    · rw [List.append_nil] at hall
      subst hall
      exact ⟨m', h.add hlast, rest⟩
    · rw [List.concat_eq_append, ← List.append_assoc] at hall
      obtain ⟨hinit, he⟩ := List.append_inj' hall rfl
      obtain rfl := List.singleton_inj.mp he
      obtain ⟨n, hn, hn'⟩ := ih hinit
      rw [List.concat_eq_append]
      exact ⟨n, hn, hn'.add hlast⟩

theorem eq_of_nil (h : Log step s [] s') : s' = s := by
  generalize hnil : [] = es at h
  cases h with
  | rest => rfl
  | add => exact absurd hnil.symm (by simp)

/-- The step that a log of one event is about. -/
theorem step_of_one (h : Log step s [e] s') : step s e s' := by
  generalize hall : [e] = all at h
  cases h with
  | rest => exact absurd hall (by simp)
  | @add init e' m _ hinit hlast =>
    have hsplit : [] ++ [e] = init ++ [e'] := hall
    obtain ⟨rfl, he⟩ := List.append_inj' hsplit rfl
    obtain rfl := List.singleton_inj.mp he
    rwa [← hinit.eq_of_nil]

/-- A log up to an event, the event, and the rest. -/
theorem split_at (h : Log step s (es ++ e :: es') s') :
    ∃ m m', Log step s es m ∧ step m e m' ∧ Log step m' es' s' := by
  rw [List.append_cons] at h
  obtain ⟨m', hbefore, hafter⟩ := h.split
  obtain ⟨m, hinit, hone⟩ := hbefore.split
  exact ⟨m, m', hinit, hone.step_of_one, hafter⟩

end Log

end Fibers
