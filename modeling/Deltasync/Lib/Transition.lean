import Mathlib.Data.List.Induction

/-!
# Runs of a partial transition function

A component is a function `step : σ → ε → Option σ`: the event `ε` says which
of the things that may happen next does happen, and `none` means that it is
not enabled.  A run is a list of events; a safety property is an invariant of
every step of it.
-/

namespace Transition

variable {σ ε : Type*}

/-- The state after the events of a run, `none` if one of them is not enabled. -/
def run (step : σ → ε → Option σ) : σ → List ε → Option σ
  | s, [] => some s
  | s, e :: es => (step s e).bind fun s' => run step s' es

variable {step : σ → ε → Option σ}

@[simp] theorem run_nil (s : σ) : run step s [] = some s := rfl

theorem run_cons (s : σ) (e : ε) (es : List ε) :
    run step s (e :: es) = (step s e).bind fun s' => run step s' es := rfl

theorem run_singleton {s t : σ} {e : ε} (h : step s e = some t) : run step s [e] = some t := by
  rw [run_cons, h]
  rfl

theorem run_append (s : σ) (es es' : List ε) :
    run step s (es ++ es') = (run step s es).bind fun s' => run step s' es' := by
  induction es generalizing s with
  | nil => rfl
  | cons e es ih =>
    simp only [List.cons_append, run_cons, Option.bind_assoc]
    congr 1
    funext s'
    exact ih s'

theorem run_concat_eq_some {s t : σ} {es : List ε} {e : ε} :
    run step s (es ++ [e]) = some t ↔ ∃ u, run step s es = some u ∧ step u e = some t := by
  rw [run_append, Option.bind_eq_some_iff]
  simp [run_cons]

/-- Induction along a run, the property being free to speak of the events so far. -/
theorem run_induction {s : σ} {P : List ε → σ → Prop} (h0 : P [] s)
    (hstep : ∀ es u e t, run step s es = some u → P es u → step u e = some t → P (es ++ [e]) t)
    {es : List ε} {t : σ} (h : run step s es = some t) : P es t := by
  induction es using List.reverseRecOn generalizing t with
  | nil =>
    obtain rfl : s = t := by simpa using h
    exact h0
  | append_singleton es e ih =>
    obtain ⟨u, hu, ht⟩ := run_concat_eq_some.mp h
    exact hstep es u e t hu (ih hu) ht

/-- No event of a kind in a run that is one longer. -/
theorem forall_not_mem_concat {ι : Type*} {f : ι → ε} {es : List ε} {e : ε} :
    (∀ i, f i ∉ es ++ [e]) ↔ (∀ i, f i ∉ es) ∧ ∀ i, e ≠ f i := by
  simp only [List.mem_append, List.mem_singleton, not_or, forall_and]
  exact and_congr_right fun _ => forall_congr' fun i => not_congr eq_comm

/-- A predicate that every step preserves holds at the end of every run. -/
theorem run_invariant {I : σ → Prop} (hstep : ∀ s e t, I s → step s e = some t → I t)
    {s t : σ} {es : List ε} (h0 : I s) (h : run step s es = some t) : I t :=
  run_induction (P := fun _ t => I t) h0 (fun _ u e t _ ih ht => hstep u e t ih ht) h

/-- The steps of a part of a system are steps of the whole. -/
theorem run_lift {τ δ : Type*} {g : τ → δ → Option τ} (lift : τ → σ) (event : δ → ε)
    {ds : List δ} (hstep : ∀ d ∈ ds, ∀ t t', g t d = some t' →
      step (lift t) (event d) = some (lift t'))
    {t t' : τ} (h : run g t ds = some t') : run step (lift t) (ds.map event) = some (lift t') := by
  induction ds generalizing t with
  | nil => exact congrArg some (congrArg lift (Option.some.inj h))
  | cons d ds ih =>
    rw [run_cons, Option.bind_eq_some_iff] at h
    obtain ⟨u, hu, hrun⟩ := h
    rw [List.map_cons, run_cons, hstep d List.mem_cons_self t u hu, Option.bind_some]
    exact ih (fun d hd => hstep d (List.mem_cons_of_mem _ hd)) hrun

/-- When a system can follow every step of another one, it can follow every run of it. -/
theorem run_simulation {τ δ : Type*} {g : τ → δ → Option τ} {R : σ → τ → Prop}
    (hstep : ∀ s e s' u, R s u → step s e = some s' → ∃ es u', run g u es = some u' ∧ R s' u')
    {s t : σ} {u : τ} {es : List ε} (h0 : R s u) (h : run step s es = some t) :
    ∃ es' v, run g u es' = some v ∧ R t v := by
  refine run_invariant (I := fun t => ∃ es' v, run g u es' = some v ∧ R t v) ?_ ⟨[], u, rfl, h0⟩ h
  rintro s e s' ⟨es₁, v, hv, hR⟩ hs
  obtain ⟨es₂, v', hv', hR'⟩ := hstep s e s' v hR hs
  refine ⟨es₁ ++ es₂, v', ?_, hR'⟩
  rw [run_append, hv]
  exact hv'

/-- Under an invariant, a goal towards which some step always makes progress can be reached. -/
theorem exists_run_of_lt {I G : σ → Prop} (m : σ → ℕ)
    (hstep : ∀ s e t, I s → step s e = some t → I t)
    (hprog : ∀ s, I s → ¬ G s → ∃ e t, step s e = some t ∧ m t < m s) {s : σ} (h : I s) :
    ∃ es t, run step s es = some t ∧ I t ∧ G t := by
  induction hm : m s using Nat.strongRecOn generalizing s with
  | ind n ih =>
    by_cases hgoal : G s
    · exact ⟨[], s, rfl, h, hgoal⟩
    · obtain ⟨e, t, ht, hlt⟩ := hprog s h hgoal
      obtain ⟨es, u, hu, hIu, hgu⟩ := ih (m t) (by omega) (hstep s e t h ht) rfl
      exact ⟨e :: es, u, by rw [run_cons, ht]; exact hu, hIu, hgu⟩

/-- The same system with only the steps that meet a condition on the state before them
and on the event. -/
def restrict (ok : σ → ε → Bool) (step : σ → ε → Option σ) (s : σ) (e : ε) : Option σ :=
  if ok s e then step s e else none

theorem restrict_eq_some {ok : σ → ε → Bool} {s t : σ} {e : ε} :
    restrict ok step s e = some t ↔ ok s e = true ∧ step s e = some t := by
  simp [restrict]

/-- A condition on the steps may be weakened. -/
theorem run_restrict_mono {ok ok' : σ → ε → Bool} (himp : ∀ s e, ok s e = true → ok' s e = true)
    {s t : σ} {es : List ε} (h : run (restrict ok step) s es = some t) :
    run (restrict ok' step) s es = some t := by
  induction es generalizing s with
  | nil => exact h
  | cons e es ih =>
    rw [run_cons, Option.bind_eq_some_iff] at h ⊢
    obtain ⟨u, hu, hrun⟩ := h
    obtain ⟨hok, hstep⟩ := restrict_eq_some.mp hu
    exact ⟨u, restrict_eq_some.mpr ⟨himp s e hok, hstep⟩, ih hrun⟩

/-- A run that meets a condition is a run. -/
theorem run_of_restrict {ok : σ → ε → Bool} {s t : σ} {es : List ε}
    (h : run (restrict ok step) s es = some t) : run step s es = some t := by
  induction es generalizing s with
  | nil => exact h
  | cons e es ih =>
    rw [run_cons, Option.bind_eq_some_iff] at h ⊢
    obtain ⟨u, hu, hrun⟩ := h
    exact ⟨u, (restrict_eq_some.mp hu).2, ih hrun⟩

/-- Every event of a run has met the condition. -/
theorem ok_of_mem_restrict {ok : σ → ε → Bool} {s t : σ} {es : List ε} {e : ε}
    (h : run (restrict ok step) s es = some t) (he : e ∈ es) : ∃ u, ok u e = true := by
  induction es generalizing s with
  | nil => cases he
  | cons e' es ih =>
    rw [run_cons, Option.bind_eq_some_iff] at h
    obtain ⟨u, hu, hrun⟩ := h
    rcases List.mem_cons.mp he with rfl | he
    · exact ⟨s, (restrict_eq_some.mp hu).1⟩
    · exact ih hrun he

/-! ## Steps that commute -/

/-- No event is enabled. -/
def Ended (step : σ → ε → Option σ) (s : σ) : Prop := ∀ e, step s e = none

/-- Two events that are enabled stay so when the other one happens, and lead to one state. -/
def Commutes (step : σ → ε → Option σ) : Prop :=
  ∀ s e e' t t', step s e = some t → step s e' = some t' →
    e = e' ∨ ∃ u, step t e' = some u ∧ step t' e = some u

/-- A step away from a run that ends is a step of the way. -/
theorem Commutes.strip (hc : Commutes step) {t : σ} (ht : Ended step t) {es : List ε} {s u : σ}
    (h : run step s es = some t) {e : ε} (hs : step s e = some u) :
    ∃ rest, run step u rest = some t ∧ es.length = rest.length + 1 := by
  induction es generalizing s u with
  | nil =>
    obtain rfl : s = t := by simpa using h
    rw [ht e] at hs
    cases hs
  | cons e' es ih =>
    rw [run_cons, Option.bind_eq_some_iff] at h
    obtain ⟨v, hv, hrun⟩ := h
    rcases hc s e e' u v hs hv with rfl | ⟨w, huw, hvw⟩
    · obtain rfl : u = v := Option.some.inj (hs.symm.trans hv)
      exact ⟨es, hrun, rfl⟩
    · obtain ⟨rest, hrest, hlen⟩ := ih hrun hvw
      refine ⟨e' :: rest, ?_, by rw [List.length_cons, List.length_cons, hlen]⟩
      rw [run_cons, huw]
      exact hrest

/-- All runs that end have one end. -/
theorem Commutes.eq_of_ended (hc : Commutes step) {s t u : σ} (ht : Ended step t)
    (hu : Ended step u) {es es' : List ε} (h : run step s es = some t)
    (h' : run step s es' = some u) : u = t := by
  induction es' generalizing s es with
  | nil =>
    obtain rfl : s = u := by simpa using h'
    cases es with
    | nil => simpa using h
    | cons e es =>
      rw [run_cons, hu e] at h
      cases h
  | cons e es' ih =>
    rw [run_cons, Option.bind_eq_some_iff] at h'
    obtain ⟨v, hv, hrun⟩ := h'
    obtain ⟨rest, hrest, -⟩ := hc.strip ht h hv
    exact ih hrest hrun

end Transition
