/-
The order of recent use.  From a list of accesses, the latest one first, every
key is kept where it was accessed last; of these keys a store keeps a bounded
number.  Touching a key, which moves it to the front and cuts the list, keeps
exactly that.
-/
import Mathlib.Data.List.Nodup
import Mathlib.Data.List.TakeDrop

namespace Madbfs

namespace Recency

universe u

variable {κ : Type u} [DecidableEq κ]

/-- The keys that were accessed, by their last access.  The list of accesses
has the latest one first. -/
def recency (accesses : List κ) : List κ :=
  accesses.eraseDups

/-- An access of a store that keeps a number of keys. -/
def touch (bound : Nat) (key : κ) (keys : List κ) : List κ :=
  (key :: keys.erase key).take bound

theorem eraseDups_filter (p : κ → Bool) (l : List κ) :
    (l.filter p).eraseDups = l.eraseDups.filter p := by
  induction hn : l.length using Nat.strongRecOn generalizing l with
  | ind n ih =>
      cases l with
      | nil => rfl
      | cons a l =>
          have hshorter : (l.filter fun b => !b == a).length < n := by
            have hle := List.length_filter_le (fun b => !b == a) l
            rw [← hn, List.length_cons]
            omega
          have hrest := ih _ hshorter _ rfl
          by_cases hp : p a = true
          · rw [List.filter_cons_of_pos hp, List.eraseDups_cons,
              List.eraseDups_cons, List.filter_cons_of_pos hp, ← hrest,
              List.filter_filter, List.filter_filter]
            simp only [Bool.and_comm]
          · have hsame : l.filter p = (l.filter fun b => !b == a).filter p := by
              rw [List.filter_filter]
              apply List.filter_congr
              intro b _
              by_cases hb : b = a
              · rw [hb]
                simpa using hp
              · simp [hb]
            rw [List.filter_cons_of_neg hp, List.eraseDups_cons,
              List.filter_cons_of_neg hp, ← hrest, hsame]

theorem nodup_eraseDups (l : List κ) : l.eraseDups.Nodup := by
  induction l with
  | nil => exact List.nodup_nil
  | cons a l ih =>
      rw [List.eraseDups_cons, eraseDups_filter, List.nodup_cons]
      refine ⟨fun hmem => ?_, ih.filter _⟩
      simp at hmem

theorem recency_cons (key : κ) (accesses : List κ) :
    recency (key :: accesses) = key :: (recency accesses).erase key := by
  rw [recency, recency, List.eraseDups_cons, eraseDups_filter,
    (nodup_eraseDups accesses).erase_eq_filter]
  rfl

/-- What is cut off a list does not come back when a key leaves it. -/
theorem take_erase_take {keys : List κ} (hnodup : keys.Nodup) (key : κ)
    (bound : Nat) :
    ((keys.take (bound + 1)).erase key).take bound =
      (keys.erase key).take bound := by
  induction keys generalizing bound with
  | nil => rfl
  | cons first keys ih =>
      rw [List.nodup_cons] at hnodup
      rw [List.take_succ_cons]
      by_cases hfirst : first = key
      · subst hfirst
        rw [List.erase_cons_head, List.erase_cons_head, List.take_take,
          Nat.min_self]
      · have hne : (first == key) = false := beq_eq_false_iff_ne.mpr hfirst
        rw [List.erase_cons_tail (by simpa using hne),
          List.erase_cons_tail (by simpa using hne)]
        cases bound with
        | zero => rfl
        | succ bound =>
            rw [List.take_succ_cons, List.take_succ_cons, ih hnodup.2]

/-- Touching a key keeps the keys that were accessed last. -/
theorem touch_recency (bound : Nat) (key : κ) (accesses : List κ) :
    touch bound key ((recency accesses).take bound) =
      (recency (key :: accesses)).take bound := by
  cases bound with
  | zero => rfl
  | succ bound =>
      have hnodup : (recency accesses).Nodup := nodup_eraseDups accesses
      rw [touch, recency_cons, List.take_succ_cons, List.take_succ_cons,
        take_erase_take hnodup]

end Recency

end Madbfs
