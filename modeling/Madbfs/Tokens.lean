/-
The tokens of a list: its maximal non-empty runs without delimiters, each given
by where it starts and how long it is.  Which positions are tokens is said
without regard to how they are found; a list of all tokens from a position on is
built up from the last one to the first.
-/
import Mathlib.Data.List.Basic
import Mathlib.Data.List.Perm.Basic
import Mathlib.Tactic.ByContra

namespace Madbfs

universe u

variable {α : Type u} {p : α → Bool} {l : List α}

/-- A maximal run without delimiters: there is one, or the end of the list, on
both sides of it. -/
structure IsToken (p : α → Bool) (l : List α) (start len : Nat) : Prop where
  pos : 0 < len
  free : ∀ k < len, ∃ x, l[start + k]? = some x ∧ p x = false
  left : ∀ k x, k + 1 = start → l[k]? = some x → p x = true
  right : ∀ x, l[start + len]? = some x → p x = true

/-- No run goes on over this position. -/
def Cut (p : α → Bool) (l : List α) (idx : Nat) : Prop :=
  ∀ k x, k + 1 = idx → l[k]? = some x → p x = true

/-- The tokens from a position on, in order. -/
structure TokensFrom (p : α → Bool) (l : List α) (idx : Nat)
    (spans : List (Nat × Nat)) : Prop where
  sorted : spans.Pairwise fun left right => left.1 + left.2 < right.1
  mem_iff : ∀ span, span ∈ spans ↔ idx ≤ span.1 ∧ IsToken p l span.1 span.2

theorem cut_zero : Cut p l 0 :=
  fun _ _ h => absurd h (Nat.succ_ne_zero _)

theorem IsToken.le_length {start len : Nat} (h : IsToken p l start len) :
    start + len ≤ l.length := by
  have hpos := h.pos
  obtain ⟨x, hx, -⟩ := h.free (len - 1) (by omega)
  have hlt := (List.getElem?_eq_some_iff.mp hx).1
  omega

/-- A token is determined by where it starts. -/
theorem IsToken.len_unique {start len len' : Nat} (h : IsToken p l start len)
    (h' : IsToken p l start len') : len = len' := by
  have hle : ∀ {a b : Nat}, IsToken p l start a → IsToken p l start b →
      a ≤ b := by
    intro a b ha hb
    by_contra hlt
    obtain ⟨x, hx, hfree⟩ := ha.free b (by omega)
    rw [hb.right x hx] at hfree
    cases hfree
  exact Nat.le_antisymm (hle h h') (hle h' h)

/-- No token starts inside another one, or right behind it. -/
theorem IsToken.apart {start len start' len' : Nat}
    (h : IsToken p l start len) (h' : IsToken p l start' len')
    (hlt : start < start') : start + len < start' := by
  by_contra hle
  by_cases hend : start' = start + len
  · obtain ⟨x, hx, hfree⟩ := h'.free 0 h'.pos
    rw [Nat.add_zero, hend] at hx
    rw [h.right x hx] at hfree
    cases hfree
  · obtain ⟨x, hx, hfree⟩ := h.free (start' - 1 - start) (by omega)
    have hat : start + (start' - 1 - start) = start' - 1 := by omega
    rw [hat] at hx
    rw [h'.left (start' - 1) x (by omega) hx] at hfree
    cases hfree

/-- The tokens of a list from a position on are those of the rest of the list
from there. -/
theorem isToken_drop {m start len : Nat} (hcut : Cut p l m) :
    IsToken p (l.drop m) start len ↔ IsToken p l (m + start) len := by
  constructor
  · intro h
    refine ⟨h.pos, ?_, ?_, ?_⟩
    · intro k hk
      have hfree := h.free k hk
      rw [List.getElem?_drop, ← Nat.add_assoc] at hfree
      exact hfree
    · intro k x hk hx
      by_cases hstart : start = 0
      · exact hcut k x (by omega) hx
      · apply h.left (start - 1) x (by omega)
        rw [List.getElem?_drop, show m + (start - 1) = k by omega]
        exact hx
    · intro x hx
      apply h.right x
      rw [List.getElem?_drop, ← Nat.add_assoc]
      exact hx
  · intro h
    refine ⟨h.pos, ?_, ?_, ?_⟩
    · intro k hk
      rw [List.getElem?_drop, ← Nat.add_assoc]
      exact h.free k hk
    · intro k x hk hx
      rw [List.getElem?_drop] at hx
      exact h.left (m + k) x (by omega) hx
    · intro x hx
      rw [List.getElem?_drop, ← Nat.add_assoc] at hx
      exact h.right x hx

namespace TokensFrom

variable {idx : Nat} {spans spans' : List (Nat × Nat)}

theorem nil (hle : l.length ≤ idx) : TokensFrom p l idx [] := by
  refine ⟨.nil, fun span => ?_⟩
  simp only [List.not_mem_nil, false_iff]
  rintro ⟨hidx, htoken⟩
  have hpos := htoken.pos
  have hlength := htoken.le_length
  omega

/-- Delimiters before the tokens. -/
theorem of_delims {m : Nat} (h : TokensFrom p l m spans) (hle : idx ≤ m)
    (hdelims : ∀ k x, idx ≤ k → k < m → l[k]? = some x → p x = true) :
    TokensFrom p l idx spans := by
  refine ⟨h.sorted, fun span => ?_⟩
  rw [h.mem_iff]
  constructor
  · rintro ⟨hm, htoken⟩
    exact ⟨Nat.le_trans hle hm, htoken⟩
  · rintro ⟨hidx, htoken⟩
    refine ⟨?_, htoken⟩
    by_contra hlt
    obtain ⟨x, hx, hfree⟩ := htoken.free 0 htoken.pos
    rw [Nat.add_zero] at hx
    rw [hdelims span.1 x hidx (by omega) hx] at hfree
    cases hfree

/-- A token before the others. -/
theorem cons {len : Nat} (htoken : IsToken p l idx len)
    (h : TokensFrom p l (idx + len) spans) :
    TokensFrom p l idx ((idx, len) :: spans) := by
  have hpos := htoken.pos
  refine ⟨.cons ?_ h.sorted, fun span => ?_⟩
  · intro span hspan
    obtain ⟨hle, htoken'⟩ := (h.mem_iff span).mp hspan
    exact htoken.apart htoken' (by omega)
  · rw [List.mem_cons, h.mem_iff]
    constructor
    · rintro (rfl | ⟨hle, htoken'⟩)
      · exact ⟨Nat.le_refl idx, htoken⟩
      · exact ⟨by omega, htoken'⟩
    · rintro ⟨hle, htoken'⟩
      by_cases hstart : span.1 = idx
      · left
        rw [hstart] at htoken'
        exact Prod.ext hstart (htoken'.len_unique htoken)
      · have hlt := htoken.apart htoken' (by omega)
        exact .inr ⟨by omega, htoken'⟩

theorem unique (h : TokensFrom p l idx spans) (h' : TokensFrom p l idx spans') :
    spans = spans' := by
  have hnodup : ∀ {spans}, TokensFrom p l idx spans → spans.Nodup := by
    intro spans h
    apply h.sorted.imp
    rintro left right hlt rfl
    omega
  have hperm : spans.Perm spans' := by
    rw [List.perm_ext_iff_of_nodup (hnodup h) (hnodup h')]
    intro span
    rw [h.mem_iff, h'.mem_iff]
  apply hperm.eq_of_pairwise _ h.sorted h'.sorted
  intro left right _ _ hlt hlt'
  omega

theorem raise {m : Nat} (h : TokensFrom p l idx spans) (hle : idx ≤ m)
    (hstarts : ∀ span ∈ spans, m ≤ span.1) : TokensFrom p l m spans := by
  refine ⟨h.sorted, fun span => ⟨fun hspan => ?_, fun hspan => ?_⟩⟩
  · exact ⟨hstarts span hspan, ((h.mem_iff span).mp hspan).2⟩
  · exact (h.mem_iff span).mpr ⟨Nat.le_trans hle hspan.1, hspan.2⟩

/-- The tokens that are left when some are taken off in front. -/
theorem drop {m : Nat} (hcut : Cut p l m) (h : TokensFrom p l m spans) :
    TokensFrom p (l.drop m) 0
      (spans.map fun span => (span.1 - m, span.2)) := by
  have hle : ∀ span ∈ spans, m ≤ span.1 :=
    fun span hspan => ((h.mem_iff span).mp hspan).1
  refine ⟨?_, fun span => ?_⟩
  · rw [List.pairwise_map]
    apply h.sorted.imp_of_mem
    intro left right hleft hright hlt
    have hl := hle left hleft
    have hr := hle right hright
    dsimp only
    omega
  · rw [List.mem_map]
    constructor
    · rintro ⟨span, hspan, rfl⟩
      obtain ⟨hm, htoken⟩ := (h.mem_iff span).mp hspan
      refine ⟨Nat.zero_le _, (isToken_drop hcut).mpr ?_⟩
      rw [Nat.add_sub_cancel' hm]
      exact htoken
    · rintro ⟨-, htoken⟩
      refine ⟨(m + span.1, span.2), (h.mem_iff _).mpr ⟨Nat.le_add_right _ _,
        (isToken_drop hcut).mp htoken⟩, ?_⟩
      dsimp only
      rw [Nat.add_sub_cancel_left]

end TokensFrom

end Madbfs
