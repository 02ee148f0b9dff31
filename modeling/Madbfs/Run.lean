/-
Runs of a machine with a partial step function.  A guard says which steps a
run may take; it sees the state before the step, the event and the state after
it.  An invariant that every guarded step keeps holds in every state that a
guarded run reaches.
-/
import Mathlib.Data.List.Basic

namespace Madbfs

universe u v

variable {σ : Type u} {ε : Type v} {step : σ → ε → Option σ}
  {guard guard' : σ → ε → σ → Prop}

/-- The runs whose steps all satisfy the guard. -/
inductive Runs (step : σ → ε → Option σ) (guard : σ → ε → σ → Prop) :
    σ → List ε → σ → Prop
  | nil (s : σ) : Runs step guard s [] s
  | cons {s s₁ t : σ} {event : ε} {events : List ε}
      (hstep : step s event = some s₁) (hguard : guard s event s₁)
      (hrest : Runs step guard s₁ events t) :
      Runs step guard s (event :: events) t

theorem Runs.preserves {I : σ → Prop}
    (hkeep : ∀ {s t : σ} {event : ε}, step s event = some t →
      guard s event t → I s → I t)
    {s t : σ} {events : List ε} (hruns : Runs step guard s events t)
    (hs : I s) : I t := by
  induction hruns with
  | nil s => exact hs
  | cons hstep hguard hrest ih => exact ih (hkeep hstep hguard hs)

/-- A run whose steps satisfy another guard too. -/
theorem Runs.weaken {s t : σ} {events : List ε}
    (hruns : Runs step guard s events t)
    (hguard : ∀ event ∈ events, ∀ s t, guard s event t → guard' s event t) :
    Runs step guard' s events t := by
  induction hruns with
  | nil s => exact .nil s
  | cons hstep hholds hrest ih =>
      refine .cons hstep (hguard _ List.mem_cons_self _ _ hholds) ?_
      exact ih fun event hmem => hguard event (List.mem_cons_of_mem _ hmem)

/-- What the guard says about the events alone. -/
theorem Runs.forall_mem {P : ε → Prop} {s t : σ} {events : List ε}
    (hruns : Runs step guard s events t)
    (hguard : ∀ {s t : σ} {event : ε}, guard s event t → P event) :
    ∀ event ∈ events, P event := by
  induction hruns with
  | nil s =>
      intro event hmem
      cases hmem
  | cons hstep hholds hrest ih =>
      intro event hmem
      rcases List.mem_cons.mp hmem with rfl | hmem
      · exact hguard hholds
      · exact ih event hmem

theorem Runs.append {s t u : σ} {left right : List ε}
    (hleft : Runs step guard s left t) (hright : Runs step guard t right u) :
    Runs step guard s (left ++ right) u := by
  induction hleft with
  | nil s => exact hright
  | cons hstep hguard hrest ih => exact .cons hstep hguard (ih hright)

/-- If all the events can be taken one after another, that is a run, as soon as
the guard holds at each of them. -/
theorem Runs.of_foldlM {s t : σ} {events : List ε}
    (hall : events.foldlM step s = some t)
    (hguards : ∀ before event after u v, events = before ++ event :: after →
      before.foldlM step s = some u → step u event = some v →
      guard u event v) : Runs step guard s events t := by
  induction events generalizing s with
  | nil =>
      cases hall
      exact .nil _
  | cons event rest ih =>
      rw [List.foldlM_cons] at hall
      obtain ⟨s₁, hstep, hrest⟩ := Option.bind_eq_some_iff.mp hall
      refine .cons hstep (hguards [] event rest s s₁ rfl rfl hstep)
        (ih hrest ?_)
      intro before e after u v hsplit hbefore
      refine hguards (event :: before) e after u v (by rw [hsplit]; rfl) ?_
      rw [List.foldlM_cons, hstep]
      exact hbefore

/-- A run splits where its events do. -/
theorem Runs.split {s u : σ} {left right : List ε}
    (hruns : Runs step guard s (left ++ right) u) :
    ∃ t, Runs step guard s left t ∧ Runs step guard t right u := by
  induction left generalizing s with
  | nil => exact ⟨s, .nil s, hruns⟩
  | cons event left ih =>
      cases hruns with
      | cons hstep hguard hrest =>
          obtain ⟨t, hleft, hright⟩ := ih hrest
          exact ⟨t, .cons hstep hguard hleft, hright⟩

/-- A measure that every guarded step lowers bounds the length of a run. -/
theorem Runs.length_le {I : σ → Prop} {measure : σ → Nat}
    (hkeep : ∀ {s t : σ} {event : ε}, step s event = some t →
      guard s event t → I s → I t)
    (hlower : ∀ {s t : σ} {event : ε}, step s event = some t →
      guard s event t → I s → measure t < measure s)
    {s t : σ} {events : List ε} (hruns : Runs step guard s events t)
    (hs : I s) : events.length ≤ measure s := by
  induction hruns with
  | nil s => exact Nat.zero_le _
  | cons hstep hguard hrest ih =>
      have htail := ih (hkeep hstep hguard hs)
      have hhead := hlower hstep hguard hs
      rw [List.length_cons]
      omega

end Madbfs
