/-
Programs over a state.  A program ends with a value or with an error, which
leaves the state as it is at that point, or it goes wrong and has no outcome.
`Sat` says what every outcome satisfies; its rules follow the program.
-/
import Mathlib.Tactic.Basic

namespace Madbfs

/-- A program with errors in `ε` over states in `σ`. -/
def Program (ε σ α : Type) : Type :=
  σ → Option (Except ε α × σ)

namespace Program

variable {ε σ α β : Type}

instance : Monad (Program ε σ) where
  pure a := fun s => some (.ok a, s)
  bind x f := fun s =>
    match x s with
    | none => none
    | some (.error err, s') => some (.error err, s')
    | some (.ok a, s') => f a s'

def fail (err : ε) : Program ε σ α :=
  fun s => some (.error err, s)

/-- The program goes wrong: an exhausted precondition, a null or a dangling
pointer. -/
def wrong : Program ε σ α :=
  fun _ => none

def state : Program ε σ σ :=
  fun s => some (.ok s, s)

def change (f : σ → σ) : Program ε σ Unit :=
  fun s => some (.ok (), f s)

def require (c : Bool) (err : ε) : Program ε σ Unit :=
  if c then pure () else fail err

def when (c : Bool) (x : Program ε σ Unit) : Program ε σ Unit :=
  if c then x else pure ()

def ofExcept : Except ε α → Program ε σ α
  | .ok a => pure a
  | .error err => fail err

/-- The outcome of a program, whose error is taken as a value. -/
def outcome (x : Program ε σ α) : Program ε σ (Except ε α) :=
  fun s => (x s).map fun p => (.ok p.1, p.2)

/-- A program that runs when a scope is left, whether by a value or by an
error. -/
def defer (cleanup : Program ε σ Unit) (body : Program ε σ α) :
    Program ε σ α := do
  let r ← body.outcome
  let _ ← cleanup.outcome
  ofExcept r

/-- A loop over a list. -/
def forEach (f : α → Program ε σ Unit) : List α → Program ε σ Unit
  | [] => pure ()
  | a :: rest => do
      f a
      forEach f rest

@[simp] theorem pure_apply (a : α) (s : σ) :
    (pure a : Program ε σ α) s = some (.ok a, s) :=
  rfl

@[simp] theorem fail_apply (err : ε) (s : σ) :
    (fail err : Program ε σ α) s = some (.error err, s) :=
  rfl

@[simp] theorem wrong_apply (s : σ) : (wrong : Program ε σ α) s = none :=
  rfl

@[simp] theorem state_apply (s : σ) :
    (state : Program ε σ σ) s = some (.ok s, s) :=
  rfl

@[simp] theorem change_apply (f : σ → σ) (s : σ) :
    (change f : Program ε σ Unit) s = some (.ok (), f s) :=
  rfl

theorem bind_apply (x : Program ε σ α) (f : α → Program ε σ β) (s : σ) :
    (x >>= f) s = match x s with
      | none => none
      | some (.error err, s') => some (.error err, s')
      | some (.ok a, s') => f a s' :=
  rfl

theorem bind_of_ok {x : Program ε σ α} {f : α → Program ε σ β} {s s' : σ}
    {a : α} (hx : x s = some (.ok a, s')) : (x >>= f) s = f a s' := by
  rw [bind_apply, hx]

theorem bind_of_error {x : Program ε σ α} {f : α → Program ε σ β} {s s' : σ}
    {err : ε} (hx : x s = some (.error err, s')) :
    (x >>= f) s = some (.error err, s') := by
  rw [bind_apply, hx]

/-- What an outcome of a sequence says about its parts. -/
theorem bind_cases {x : Program ε σ α} {f : α → Program ε σ β} {s s' : σ}
    {r : Except ε β} (h : (x >>= f) s = some (r, s')) :
    (∃ err, x s = some (.error err, s') ∧ r = .error err) ∨
      ∃ a s₁, x s = some (.ok a, s₁) ∧ f a s₁ = some (r, s') := by
  rw [bind_apply] at h
  split at h
  · cases h
  · next err t hx =>
    cases h
    exact .inl ⟨err, hx, rfl⟩
  · next a t hx => exact .inr ⟨a, t, hx, h⟩

theorem bind_assoc {γ : Type} (x : Program ε σ α) (f : α → Program ε σ β)
    (g : β → Program ε σ γ) : x >>= f >>= g = x >>= fun a => f a >>= g := by
  funext s
  simp only [bind_apply]
  cases x s with
  | none => rfl
  | some p =>
      obtain ⟨r, s'⟩ := p
      cases r <;> rfl

/-- Every outcome of the program from `s` satisfies `Q`. -/
def Sat (x : Program ε σ α) (s : σ) (Q : Except ε α → σ → Prop) : Prop :=
  ∀ r s', x s = some (r, s') → Q r s'

/-- What every value of the program satisfies, and what holds after an
error. -/
def post (Q : α → σ → Prop) (E : σ → Prop) : Except ε α → σ → Prop
  | .ok a, s => Q a s
  | .error _, s => E s

section Rules

variable {x : Program ε σ α} {f : α → Program ε σ β} {s : σ}
  {Q : Except ε α → σ → Prop} {R : Except ε β → σ → Prop}

theorem Sat.mono {Q' : Except ε α → σ → Prop} (h : x.Sat s Q)
    (hQ : ∀ r s', Q r s' → Q' r s') : x.Sat s Q' :=
  fun r s' hrun => hQ r s' (h r s' hrun)

theorem Sat.pure {a : α} (h : Q (.ok a) s) :
    (Pure.pure a : Program ε σ α).Sat s Q := by
  intro r s' hrun
  cases hrun
  exact h

theorem Sat.fail {err : ε} (h : Q (.error err) s) :
    (fail err : Program ε σ α).Sat s Q := by
  intro r s' hrun
  cases hrun
  exact h

theorem Sat.wrong : (wrong : Program ε σ α).Sat s Q := by
  intro r s' hrun
  cases hrun

theorem Sat.bind
    (h : x.Sat s (post (fun a s₁ => (f a).Sat s₁ R) fun s₁ =>
      ∀ err, R (.error err) s₁)) : (x >>= f).Sat s R := by
  intro r s' hrun
  rcases bind_cases hrun with ⟨err, hx, rfl⟩ | ⟨a, s₁, hx, hf⟩
  · exact h _ _ hx err
  · exact h _ _ hx r s' hf

theorem Sat.change {g : σ → σ} {Q : Except ε Unit → σ → Prop}
    (h : Q (.ok ()) (g s)) : (change g).Sat s Q := by
  intro r s' hrun
  cases hrun
  exact h

theorem Sat.outcome {Q : Except ε (Except ε α) → σ → Prop}
    (h : x.Sat s fun r s' => Q (.ok r) s') : x.outcome.Sat s Q := by
  intro r s' hrun
  obtain ⟨p, hp, heq⟩ := Option.map_eq_some_iff.mp hrun
  cases heq
  exact h _ _ hp

/-- What is left behind by a scope with a cleanup. -/
theorem defer_cases {cleanup : Program ε σ Unit} {s' : σ} {r : Except ε α}
    (hrun : defer cleanup x s = some (r, s')) :
    ∃ s₁ u, x s = some (r, s₁) ∧ cleanup s₁ = some (u, s') := by
  rcases bind_cases hrun with ⟨err, hbody, -⟩ | ⟨r₁, s₁, hscope, hrest⟩
  · obtain ⟨p, -, heq⟩ := Option.map_eq_some_iff.mp hbody
    cases heq
  obtain ⟨p, hbody, heq⟩ := Option.map_eq_some_iff.mp hscope
  cases heq
  rcases bind_cases hrest with ⟨err, hleave, -⟩ | ⟨u, s₂, hleave, hr⟩
  · obtain ⟨p, -, heq⟩ := Option.map_eq_some_iff.mp hleave
    cases heq
  obtain ⟨q, hcleanup, heq⟩ := Option.map_eq_some_iff.mp hleave
  cases heq
  obtain ⟨r₁, s₁⟩ := p
  cases r₁ with
  | ok a =>
      cases hr
      exact ⟨_, _, hbody, hcleanup⟩
  | error err =>
      cases hr
      exact ⟨_, _, hbody, hcleanup⟩

/-- A loop whose rounds do not fail, with an invariant they keep. -/
theorem forEach_cases {g : α → Program ε σ Unit} {I : σ → Prop} {l : List α}
    (hround : ∀ a ∈ l, ∀ s r s', I s → g a s = some (r, s') →
      r = .ok () ∧ I s')
    (hs : I s) {r : Except ε Unit} {s' : σ}
    (hrun : forEach g l s = some (r, s')) : r = .ok () ∧ I s' := by
  induction l generalizing s with
  | nil =>
      cases hrun
      exact ⟨rfl, hs⟩
  | cons a rest ih =>
      rcases bind_cases hrun with ⟨err, hhead, -⟩ | ⟨u, s₁, hhead, htail⟩
      · cases (hround a List.mem_cons_self s _ _ hs hhead).1
      · have hs₁ := (hround a List.mem_cons_self s _ _ hs hhead).2
        exact ih (fun b hb => hround b (List.mem_cons_of_mem a hb)) hs₁ htail

/-- A loop whose rounds succeed, with an invariant that knows what is left. -/
theorem forEach_run {g : α → Program ε σ Unit} {I : List α → σ → Prop}
    {l : List α}
    (hround : ∀ a rest s, (a :: rest) <:+ l → I (a :: rest) s →
      ∃ s', g a s = some (.ok (), s') ∧ I rest s')
    (hs : I l s) : ∃ s', forEach g l s = some (.ok (), s') ∧ I [] s' := by
  induction l generalizing s with
  | nil => exact ⟨s, rfl, hs⟩
  | cons a rest ih =>
      obtain ⟨s₁, hhead, hs₁⟩ := hround a rest s (List.suffix_refl _) hs
      obtain ⟨s', htail, hs'⟩ := ih (fun b more s hmore =>
        hround b more s (hmore.trans (List.suffix_cons a rest))) hs₁
      exact ⟨s', (bind_of_ok hhead).trans htail, hs'⟩

/-- Loops whose rounds do the same. -/
theorem forEach_congr {f g : α → Program ε σ Unit} {I : List α → σ → Prop}
    {l : List α}
    (hround : ∀ a rest s, (a :: rest) <:+ l → I (a :: rest) s →
      f a s = g a s ∧ ∃ s', g a s = some (.ok (), s') ∧ I rest s')
    (hs : I l s) : forEach f l s = forEach g l s := by
  induction l generalizing s with
  | nil => rfl
  | cons a rest ih =>
      obtain ⟨heq, s₁, hhead, hs₁⟩ := hround a rest s (List.suffix_refl _) hs
      have hrest := ih (fun b more s hmore =>
        hround b more s (hmore.trans (List.suffix_cons a rest))) hs₁
      rw [forEach, forEach, bind_of_ok (heq.trans hhead), bind_of_ok hhead,
        hrest]

end Rules

/-- A property of programs that goes through sequences. -/
structure Sequential (P : (α : Type) → Program ε σ α → Prop) : Prop where
  pure : ∀ {α : Type} (a : α), P α (Pure.pure a)
  bind : ∀ {α β : Type} {x : Program ε σ α} {f : α → Program ε σ β},
    P α x → (∀ a, P β (f a)) → P β (x >>= f)
  outcome : ∀ {α : Type} {x : Program ε σ α}, P α x → P (Except ε α) x.outcome

/-- A property that every failure has too, and so goes through scopes. -/
structure Closed (P : (α : Type) → Program ε σ α → Prop) : Prop
    extends Sequential P where
  fail : ∀ {α : Type} (err : ε), P α (fail err)

section Closed

variable {P : (α : Type) → Program ε σ α → Prop} (h : Closed P)

include h

theorem Closed.require (c : Bool) (err : ε) : P Unit (require c err) := by
  cases c with
  | true => exact h.pure ()
  | false => exact h.fail err

theorem Closed.ofExcept (e : Except ε α) : P α (ofExcept e) := by
  cases e with
  | ok a => exact h.pure a
  | error err => exact h.fail err

theorem Closed.defer {cleanup : Program ε σ Unit} {x : Program ε σ α}
    (hcleanup : P Unit cleanup) (hx : P α x) : P α (defer cleanup x) := by
  apply h.bind (h.outcome hx)
  intro r
  apply h.bind (h.outcome hcleanup)
  intro _
  exact h.ofExcept r

end Closed

/-- The program has an outcome, wherever it starts. -/
def Total (x : Program ε σ α) : Prop :=
  ∀ s, ∃ p, x s = some p

theorem total_closed : Closed fun _ (x : Program ε σ _) => Total x where
  pure a s := ⟨(.ok a, s), rfl⟩
  fail err s := ⟨(.error err, s), rfl⟩
  bind := by
    intro α β x f hx hf s
    obtain ⟨⟨r, s₁⟩, hrun⟩ := hx s
    cases r with
    | error err => exact ⟨_, bind_of_error hrun⟩
    | ok a =>
        obtain ⟨p, hrest⟩ := hf a s₁
        exact ⟨p, (bind_of_ok hrun).trans hrest⟩
  outcome := by
    intro α x hx s
    obtain ⟨p, hrun⟩ := hx s
    exact ⟨_, Option.map_eq_some_iff.mpr ⟨p, hrun, rfl⟩⟩

/-- What the program ends with, wherever it starts. -/
def Ends (Q : Except ε α → Prop) (x : Program ε σ α) : Prop :=
  ∀ s, x.Sat s fun r _ => Q r

section Ends

variable {x : Program ε σ α} {f : α → Program ε σ β}
  {Q : Except ε α → Prop} {R : Except ε β → Prop}

theorem Ends.pure {a : α} (h : Q (.ok a)) :
    Ends Q (Pure.pure a : Program ε σ α) :=
  fun _ => Sat.pure h

theorem Ends.fail {err : ε} (h : Q (.error err)) :
    Ends Q (fail err : Program ε σ α) :=
  fun _ => Sat.fail h

theorem Ends.bind (hx : Ends Q x) (herr : ∀ err, Q (.error err) →
    R (.error err)) (hf : ∀ a, Q (.ok a) → Ends R (f a)) :
    Ends R (x >>= f) := by
  intro s r s' hrun
  rcases bind_cases hrun with ⟨err, hrunx, rfl⟩ | ⟨a, s₁, hrunx, hrunf⟩
  · exact herr err (hx s _ _ hrunx)
  · exact hf a (hx s _ _ hrunx) s₁ r s' hrunf

theorem Ends.bind_state {f : σ → Program ε σ β} (h : ∀ s, Ends R (f s)) :
    Ends R (state >>= f) :=
  fun s => h s s

theorem Ends.bind_change {g : σ → σ} {f : Unit → Program ε σ β}
    (h : Ends R (f ())) : Ends R (change g >>= f) :=
  fun s => h (g s)

theorem Ends.outcome {Q : Except ε α → Prop} {x : Program ε σ α}
    (hx : Ends Q x) : Ends (fun r => ∃ r', r = .ok r' ∧ Q r') x.outcome :=
  fun s => Sat.outcome ((hx s).mono fun r _ h => ⟨r, rfl, h⟩)

/-- The cleanup has no say in how a scope ends. -/
theorem Ends.defer {cleanup : Program ε σ Unit} (hx : Ends Q x) :
    Ends Q (defer cleanup x) := by
  intro s r s' hrun
  obtain ⟨s₁, u, hbody, -⟩ := defer_cases hrun
  exact hx s r s₁ hbody

end Ends

/-- From states that are related, the program has the same outcomes and leaves
related states. -/
def Respects (R : σ → σ → Prop) (x : Program ε σ α) : Prop :=
  ∀ s t, R s t → ∀ r s', x s = some (r, s') →
    ∃ t', x t = some (r, t') ∧ R s' t'

theorem respects_closed (R : σ → σ → Prop) :
    Closed fun _ (x : Program ε σ _) => Respects R x where
  pure := by
    intro α a s t hst r s' hrun
    cases hrun
    exact ⟨t, rfl, hst⟩
  fail := by
    intro α err s t hst r s' hrun
    cases hrun
    exact ⟨t, rfl, hst⟩
  bind := by
    intro α β x f hx hf s t hst r s' hrun
    rcases bind_cases hrun with ⟨err, hrunx, rfl⟩ | ⟨a, s₁, hrunx, hrunf⟩
    · obtain ⟨t', hrun', hst'⟩ := hx s t hst _ _ hrunx
      exact ⟨t', bind_of_error hrun', hst'⟩
    · obtain ⟨t₁, hrun', hst₁⟩ := hx s t hst _ _ hrunx
      obtain ⟨t', hrest, hst'⟩ := hf a s₁ t₁ hst₁ _ _ hrunf
      exact ⟨t', (bind_of_ok hrun').trans hrest, hst'⟩
  outcome := by
    intro α x hx s t hst r s' hrun
    obtain ⟨p, hp, heq⟩ := Option.map_eq_some_iff.mp hrun
    cases heq
    obtain ⟨t', hrun', hst'⟩ := hx s t hst _ _ hp
    exact ⟨t', Option.map_eq_some_iff.mpr ⟨_, hrun', rfl⟩, hst'⟩

end Program

/-- A way of changing the state, given by a relation that is closed under
sequences, with an invariant it keeps. -/
structure Discipline (σ : Type) where
  holds : σ → Prop
  rel : σ → σ → Prop
  refl : ∀ s, rel s s
  trans : ∀ {s t u}, rel s t → rel t u → rel s u
  keeps : ∀ {s t}, rel s t → holds s → holds t

namespace Program

variable {ε σ α β : Type}

/-- Where the invariant holds, the program changes the state in this way only,
and every value it returns satisfies `Q`. -/
def Obeys (d : Discipline σ) (x : Program ε σ α) (s : σ)
    (Q : α → σ → Prop) : Prop :=
  d.holds s → x.Sat s fun r s' => d.rel s s' ∧ ∀ a, r = .ok a → Q a s'

section Rules

variable {d : Discipline σ} {x : Program ε σ α} {f : α → Program ε σ β} {s : σ}
  {Q : α → σ → Prop} {R : β → σ → Prop}

theorem Obeys.mono {Q' : α → σ → Prop} (h : x.Obeys d s Q)
    (hQ : ∀ a s', d.holds s' → Q a s' → Q' a s') : x.Obeys d s Q' := by
  intro hs r s' hrun
  obtain ⟨hrel, hval⟩ := h hs r s' hrun
  exact ⟨hrel, fun a ha => hQ a s' (d.keeps hrel hs) (hval a ha)⟩

theorem Obeys.pure {a : α} (h : d.holds s → Q a s) :
    (Pure.pure a : Program ε σ α).Obeys d s Q := by
  intro hs
  refine Sat.pure ⟨d.refl s, fun b hb => ?_⟩
  cases hb
  exact h hs

theorem Obeys.fail {err : ε} : (fail err : Program ε σ α).Obeys d s Q := by
  intro hs
  exact Sat.fail ⟨d.refl s, fun b hb => by cases hb⟩

theorem Obeys.wrong : (wrong : Program ε σ α).Obeys d s Q :=
  fun _ => Sat.wrong

theorem Obeys.bind (hx : x.Obeys d s Q)
    (hf : ∀ a s₁, d.holds s₁ → d.rel s s₁ → Q a s₁ → (f a).Obeys d s₁ R) :
    (x >>= f).Obeys d s R := by
  intro hs r s' hrun
  rcases bind_cases hrun with ⟨err, hrunx, rfl⟩ | ⟨a, s₁, hrunx, hrunf⟩
  · exact ⟨(hx hs _ _ hrunx).1, fun b hb => by cases hb⟩
  · obtain ⟨hrel, hval⟩ := hx hs _ _ hrunx
    have hs₁ := d.keeps hrel hs
    obtain ⟨hrel', hval'⟩ := hf a s₁ hs₁ hrel (hval a rfl) hs₁ r s' hrunf
    exact ⟨d.trans hrel hrel', hval'⟩

theorem Obeys.bind_state {f : σ → Program ε σ β} (h : (f s).Obeys d s R) :
    (state >>= f).Obeys d s R :=
  fun hs r s' hrun => h hs r s' hrun

theorem Obeys.bind_require {c : Bool} {err : ε} {f : Unit → Program ε σ β}
    (h : c = true → (f ()).Obeys d s R) :
    (Program.require c err >>= f).Obeys d s R := by
  cases c with
  | true => exact fun hs r s' hrun => h rfl hs r s' hrun
  | false => exact fun hs r s' hrun => Obeys.fail hs r s' hrun

theorem Obeys.bind_ofExcept {e : Except ε α}
    (h : ∀ a, e = .ok a → (f a).Obeys d s R) :
    (Program.ofExcept e >>= f).Obeys d s R := by
  cases e with
  | ok a => exact fun hs r s' hrun => h a rfl hs r s' hrun
  | error err => exact fun hs r s' hrun => Obeys.fail hs r s' hrun

theorem Obeys.change {g : σ → σ} {Q : Unit → σ → Prop}
    (hrel : d.holds s → d.rel s (g s)) (h : d.holds s → Q () (g s)) :
    (change g : Program ε σ Unit).Obeys d s Q := by
  intro hs
  exact Sat.change ⟨hrel hs, fun a ha => h hs⟩

theorem Obeys.when {c : Bool} {y : Program ε σ Unit} {Q : Unit → σ → Prop}
    (hy : c = true → y.Obeys d s Q) (hskip : d.holds s → c = false → Q () s) :
    (when c y).Obeys d s Q := by
  cases c with
  | true => exact hy rfl
  | false => exact Obeys.pure fun hs => hskip hs rfl

theorem Obeys.ofExcept {e : Except ε α} (h : d.holds s → ∀ a, e = .ok a →
    Q a s) : (ofExcept e : Program ε σ α).Obeys d s Q := by
  cases e with
  | ok a => exact Obeys.pure fun hs => h hs a rfl
  | error err => exact Obeys.fail

theorem Obeys.outcome {Q : Except ε α → σ → Prop}
    (hx : x.Obeys d s fun a s' => Q (.ok a) s')
    (herr : ∀ err s', d.holds s' → d.rel s s' → Q (.error err) s') :
    x.outcome.Obeys d s Q := by
  intro hs
  refine Sat.outcome ((hx hs).mono fun r s' h => ⟨h.1, fun a ha => ?_⟩)
  cases ha
  cases r with
  | ok a => exact h.2 a rfl
  | error err => exact herr err s' (d.keeps h.1 hs) h.1

/-- The rule of a loop, with an invariant of its own. -/
theorem Obeys.forEach {g : α → Program ε σ Unit} {J : σ → Prop} {l : List α}
    (hround : ∀ a ∈ l, ∀ s, d.holds s → J s →
      (g a).Obeys d s fun _ s' => J s')
    (hs : J s) : (forEach g l).Obeys d s fun _ s' => J s' := by
  induction l generalizing s with
  | nil => exact Obeys.pure fun _ => hs
  | cons a rest ih =>
      intro hholds
      refine Obeys.bind (hround a List.mem_cons_self s hholds hs) ?_ hholds
      intro _ s₁ _ _ hs₁
      exact ih (fun b hb => hround b (List.mem_cons_of_mem a hb)) hs₁

/-- A discipline is kept by what is built from programs that keep it. -/
theorem obeys_closed (d : Discipline σ) : Closed fun _ (x : Program ε σ _) =>
    ∀ s, x.Obeys d s fun _ _ => True where
  pure _ _ := Obeys.pure fun _ => trivial
  fail _ _ := Obeys.fail
  bind hx hf s := (hx s).bind fun a s₁ _ _ _ => hf a s₁
  outcome hx s := ((hx s).mono fun _ _ _ _ => trivial).outcome
    fun _ _ _ _ => trivial

end Rules

end Program

end Madbfs
