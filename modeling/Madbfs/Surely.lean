/-
Programs that do not go wrong.  Where `Sat` says what every outcome satisfies,
if there is one, `Surely` says that there is one, too.
-/
import Madbfs.Program

namespace Madbfs

namespace Program

variable {ε σ α β : Type}

/-- A program whose error is taken as a value ends as it would without. -/
theorem outcome_cases {x : Program ε σ α} {s s' : σ}
    {r : Except ε (Except ε α)} (hrun : outcome x s = some (r, s')) :
    ∃ q, r = .ok q ∧ x s = some (q, s') := by
  obtain ⟨⟨q, t⟩, hx, heq⟩ := Option.map_eq_some_iff.mp hrun
  cases heq
  exact ⟨q, rfl, hx⟩

/-- The program does not go wrong from `s`, and its outcome satisfies `Q`. -/
def Surely (x : Program ε σ α) (s : σ) (Q : Except ε α → σ → Prop) : Prop :=
  ∃ r s', x s = some (r, s') ∧ Q r s'

section Surely

variable {x : Program ε σ α} {f : α → Program ε σ β} {s s₁ : σ}
  {Q : Except ε α → σ → Prop} {R : Except ε β → σ → Prop}

theorem Surely.mono {Q' : Except ε α → σ → Prop} (h : x.Surely s Q)
    (hQ : ∀ r s', Q r s' → Q' r s') : x.Surely s Q' := by
  obtain ⟨r, s', hrun, hr⟩ := h
  exact ⟨r, s', hrun, hQ r s' hr⟩

/-- A program that does not go wrong has no other outcome. -/
theorem Surely.sat (h : x.Surely s Q) : x.Sat s Q := by
  obtain ⟨r, s', hrun, hr⟩ := h
  intro r' s'' hrun'
  cases hrun.symm.trans hrun'
  exact hr

theorem Surely.pure {a : α} (h : Q (.ok a) s) :
    (Pure.pure a : Program ε σ α).Surely s Q :=
  ⟨_, s, rfl, h⟩

theorem Surely.fail {err : ε} (h : Q (.error err) s) :
    (fail err : Program ε σ α).Surely s Q :=
  ⟨_, s, rfl, h⟩

theorem Surely.bind (hx : x.Surely s Q)
    (hf : ∀ a s₁, x s = some (.ok a, s₁) → Q (.ok a) s₁ → (f a).Surely s₁ R)
    (herr : ∀ err s₁, x s = some (.error err, s₁) → Q (.error err) s₁ →
      R (.error err) s₁) :
    (x >>= f).Surely s R := by
  obtain ⟨r, s₁, hrun, hr⟩ := hx
  cases r with
  | error err => exact ⟨_, s₁, bind_of_error hrun, herr err s₁ hrun hr⟩
  | ok a =>
      obtain ⟨r, s', hrest, hr'⟩ := hf a s₁ hrun hr
      exact ⟨r, s', (bind_of_ok hrun).trans hrest, hr'⟩

theorem Surely.bind_of_ok {a : α} (hx : x s = some (.ok a, s₁))
    (hf : (f a).Surely s₁ R) : (x >>= f).Surely s R := by
  obtain ⟨r, s', hrest, hr⟩ := hf
  exact ⟨r, s', (Program.bind_of_ok hx).trans hrest, hr⟩

theorem Surely.outcome {Q : Except ε (Except ε α) → σ → Prop}
    (hx : x.Surely s fun r s' => Q (.ok r) s') : x.outcome.Surely s Q := by
  obtain ⟨r, s', hrun, hr⟩ := hx
  exact ⟨.ok r, s', Option.map_eq_some_iff.mpr ⟨_, hrun, rfl⟩, hr⟩

theorem Surely.bind_require {c : Bool} {err : ε} {f : Unit → Program ε σ β}
    (hf : c = true → (f ()).Surely s R) (herr : R (.error err) s) :
    (Program.require c err >>= f).Surely s R := by
  cases c with
  | true => exact bind_of_ok rfl (hf rfl)
  | false => exact ⟨_, s, rfl, herr⟩

theorem Surely.bind_ofExcept {e : Except ε α}
    (hf : ∀ a, e = .ok a → (f a).Surely s R)
    (herr : ∀ err, e = .error err → R (.error err) s) :
    (Program.ofExcept e >>= f).Surely s R := by
  cases e with
  | ok a => exact bind_of_ok rfl (hf a rfl)
  | error err => exact ⟨_, s, rfl, herr err rfl⟩

theorem Surely.when {c : Bool} {y : Program ε σ Unit}
    {Q : Except ε Unit → σ → Prop} (hy : c = true → y.Surely s Q)
    (hskip : c = false → Q (.ok ()) s) : (when c y).Surely s Q := by
  cases c with
  | true => exact hy rfl
  | false => exact Surely.pure (hskip rfl)

/-- A loop whose rounds do not go wrong, and do not fail. -/
theorem Surely.forEach {g : α → Program ε σ Unit} {I : σ → Prop} {l : List α}
    (hround : ∀ a ∈ l, ∀ s, I s → (g a).Surely s fun r s' => r = .ok () ∧ I s')
    (hs : I s) : (forEach g l).Surely s fun r s' => r = .ok () ∧ I s' := by
  induction l generalizing s with
  | nil => exact Surely.pure ⟨rfl, hs⟩
  | cons a rest ih =>
      refine Surely.bind (hround a List.mem_cons_self s hs) ?_ ?_
      · intro _ s₁ _ hs₁
        exact ih (fun b hb => hround b (List.mem_cons_of_mem a hb)) hs₁.2
      · rintro err s₁ - ⟨herr, -⟩
        cases herr

end Surely

end Program

end Madbfs
