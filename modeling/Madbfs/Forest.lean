/-
Graphs in which a node has one predecessor at most.  A walk with a stack visits
every node below the one it starts from, within as many rounds as there are
nodes, and the nodes on the way down to a node are all different.
-/
import Mathlib.Data.Finset.Card
import Mathlib.Logic.Relation

namespace Madbfs

namespace Forest

variable {α : Type} {next : α → List α}

/-- The walk: a node is taken off the stack, and its successors are put
there. -/
def visit (next : α → List α) : Nat → List α → List α
  | 0, _ => []
  | _, [] => []
  | fuel + 1, a :: stack => a :: visit next fuel (next a ++ stack)

/-- The second node is reached from the first one. -/
def Below (next : α → List α) : α → α → Prop :=
  Relation.ReflTransGen fun a b => b ∈ next a

/-- A node is the successor of one node at most, and once. -/
structure IsForest (next : α → List α) : Prop where
  nodup : ∀ a, (next a).Nodup
  unique : ∀ {a a' b}, b ∈ next a → b ∈ next a' → a' = a

/-- What is visited lies below the stack. -/
theorem below_of_mem_visit {fuel : Nat} {stack : List α} {b : α}
    (hmem : b ∈ visit next fuel stack) : ∃ a ∈ stack, Below next a b := by
  induction fuel generalizing stack with
  | zero => exact absurd hmem List.not_mem_nil
  | succ fuel ih =>
      cases stack with
      | nil => exact absurd hmem List.not_mem_nil
      | cons a stack =>
          rw [visit, List.mem_cons] at hmem
          rcases hmem with rfl | hmem
          · exact ⟨b, List.mem_cons_self, .refl⟩
          obtain ⟨c, hc, hbelow⟩ := ih hmem
          rcases List.mem_append.mp hc with hnext | hstack
          · exact ⟨a, List.mem_cons_self, .head hnext hbelow⟩
          · exact ⟨c, List.mem_cons_of_mem a hstack, hbelow⟩

/-- What is visited was on the stack, or it is a successor of what is visited. -/
theorem pred_of_mem_visit {fuel : Nat} {stack : List α} {b : α}
    (hmem : b ∈ visit next fuel stack) :
    b ∈ stack ∨ ∃ a ∈ visit next fuel stack, b ∈ next a := by
  induction fuel generalizing stack with
  | zero => exact absurd hmem List.not_mem_nil
  | succ fuel ih =>
      cases stack with
      | nil => exact absurd hmem List.not_mem_nil
      | cons a stack =>
          rw [visit, List.mem_cons] at hmem
          rcases hmem with rfl | hmem
          · exact .inl List.mem_cons_self
          rcases ih hmem with hstack | ⟨c, hc, hnext⟩
          · rcases List.mem_append.mp hstack with hnext | hold
            · exact .inr ⟨a, List.mem_cons_self, hnext⟩
            · exact .inl (List.mem_cons_of_mem a hold)
          · exact .inr ⟨c, List.mem_cons_of_mem a hc, hnext⟩

/-- The nodes that are left, while the walk is on: they are closed under
successors, and none of them leads to the stack. -/
structure Remains (next : α → List α) (rest : Finset α) (stack : List α) :
    Prop where
  closed : ∀ a ∈ rest, ∀ b ∈ next a, b ∈ rest
  nodup : stack.Nodup
  subset : ∀ a ∈ stack, a ∈ rest
  apart : ∀ a ∈ rest, ∀ b ∈ next a, b ∉ stack

theorem Remains.step [DecidableEq α] (hforest : IsForest next)
    {rest : Finset α} {a : α} {stack : List α}
    (h : Remains next rest (a :: stack)) :
    Remains next (rest.erase a) (next a ++ stack) := by
  have ha : a ∈ rest := h.subset a List.mem_cons_self
  have hstack : ∀ b ∈ stack, b ∈ rest := fun b hb =>
    h.subset b (List.mem_cons_of_mem a hb)
  have hne : ∀ c ∈ rest, ∀ b ∈ next c, b ≠ a := by
    rintro c hc b hb rfl
    exact h.apart c hc b hb List.mem_cons_self
  constructor
  · intro c hc b hb
    have hrest := Finset.mem_of_mem_erase hc
    exact Finset.mem_erase.mpr ⟨hne c hrest b hb, h.closed c hrest b hb⟩
  · rw [List.nodup_append]
    refine ⟨hforest.nodup a, (List.nodup_cons.mp h.nodup).2, ?_⟩
    rintro b hb c hc rfl
    exact h.apart a ha b hb (List.mem_cons_of_mem a hc)
  · intro b hb
    rcases List.mem_append.mp hb with hnext | hold
    · exact Finset.mem_erase.mpr ⟨hne a ha b hnext, h.closed a ha b hnext⟩
    · refine Finset.mem_erase.mpr ⟨?_, hstack b hold⟩
      rintro rfl
      exact (List.nodup_cons.mp h.nodup).1 hold
  · intro c hc b hb hmem
    rcases List.mem_append.mp hmem with hnext | hold
    · exact Finset.ne_of_mem_erase hc (hforest.unique hnext hb)
    · exact h.apart c (Finset.mem_of_mem_erase hc) b hb
        (List.mem_cons_of_mem a hold)

/-- The walk visits all nodes below its stack. -/
theorem mem_visit [DecidableEq α] (hforest : IsForest next) {fuel : Nat}
    {rest : Finset α} {stack : List α} (h : Remains next rest stack)
    (hfuel : rest.card ≤ fuel) {a b : α} (ha : a ∈ stack)
    (hbelow : Below next a b) : b ∈ visit next fuel stack := by
  induction fuel generalizing rest stack a with
  | zero =>
      rw [Nat.le_zero, Finset.card_eq_zero] at hfuel
      subst hfuel
      exact absurd (h.subset a ha) (Finset.notMem_empty a)
  | succ fuel ih =>
      cases stack with
      | nil => exact absurd ha List.not_mem_nil
      | cons c stack =>
          rw [visit, List.mem_cons]
          have hstep := h.step hforest
          have hless : (rest.erase c).card ≤ fuel := by
            rw [Finset.card_erase_of_mem (h.subset c List.mem_cons_self)]
            omega
          rcases List.mem_cons.mp ha with rfl | hold
          · rcases Relation.ReflTransGen.cases_head hbelow with
              rfl | ⟨d, hd, hbelow'⟩
            · exact .inl rfl
            · exact .inr (ih hstep hless (List.mem_append_left _ hd) hbelow')
          · exact .inr (ih hstep hless (List.mem_append_right _ hold) hbelow)

/-- Two nodes above a third one lie above one another. -/
theorem Below.total (hforest : IsForest next) {a b c : α}
    (ha : Below next a c) (hb : Below next b c) :
    Below next a b ∨ Below next b a := by
  induction ha with
  | refl => exact .inr hb
  | @tail p c hap hpc ih =>
      rcases Relation.ReflTransGen.cases_tail hb with rfl | ⟨q, hbq, hqc⟩
      · exact .inl (.tail hap hpc)
      · rw [hforest.unique hpc hqc] at hbq
        exact ih hbq

/-- The nodes on the way from `r` down to the first one of the list. -/
inductive Lineage (next : α → List α) (r : α) : List α → Prop
  | root : Lineage next r [r]
  | child {a b : α} {up : List α} (hb : b ∈ next a)
      (hup : Lineage next r (a :: up)) : Lineage next r (b :: a :: up)

/-- A node on the way has its predecessor further up. -/
theorem Lineage.pred {r b : α} {line : List α} (h : Lineage next r line)
    (hmem : b ∈ line) (hne : b ≠ r) : ∃ a ∈ line.tail, b ∈ next a := by
  induction h with
  | root => exact absurd (List.mem_singleton.mp hmem) hne
  | @child a c up hc hup ih =>
      rcases List.mem_cons.mp hmem with rfl | hold
      · exact ⟨a, List.mem_cons_self, hc⟩
      · obtain ⟨d, hd, hnext⟩ := ih hold
        exact ⟨d, List.mem_of_mem_tail hd, hnext⟩

/-- No node is met twice on the way from a node without a predecessor. -/
theorem Lineage.nodup (hforest : IsForest next) {r : α}
    (hroot : ∀ a, r ∉ next a) {line : List α} (h : Lineage next r line) :
    line.Nodup := by
  induction h with
  | root => exact List.nodup_singleton r
  | @child a b up hb hup ih =>
      refine List.nodup_cons.mpr ⟨fun hmem => ?_, ih⟩
      have hne : b ≠ r := by
        rintro rfl
        exact hroot a hb
      obtain ⟨c, hc, hnext⟩ := hup.pred hmem hne
      rw [hforest.unique hb hnext] at hc
      exact (List.nodup_cons.mp ih).1 hc

end Forest

end Madbfs
