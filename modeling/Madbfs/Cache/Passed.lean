/-
The loop of `flush`.  It visits the pages of a file in the order of the page
table and leaves those it has passed clean, so one that returns without an
error after no page behind it became dirty leaves no dirty page of the file.
-/
import Madbfs.Cache.WorldSound

namespace Madbfs

theorem LookupEntry.mem_indices {entry : LookupEntry} {index : Nat} :
    index ∈ entry.indices ↔ (entry.pages.lookup index).isSome := by
  rw [LookupEntry.indices, List.mem_insertionSort, ← AList.mem_keys,
    AList.lookup_isSome]

theorem LookupEntry.indices_sorted (entry : LookupEntry) :
    entry.indices.Pairwise (· < ·) := by
  have hle := List.pairwise_insertionSort (· ≤ ·) entry.pages.keys
  have hnodup : entry.indices.Nodup :=
    (List.perm_insertionSort (· ≤ ·) entry.pages.keys).nodup_iff.mpr
      entry.pages.keys_nodup
  exact (hle.and hnodup).imp fun h => Nat.lt_of_le_of_ne h.1 h.2

namespace Cache

/-- The entry of the file is marked dirty. -/
def Flagged (c : Cache) (id : Id) : Prop :=
  ∃ entry, c.lookup id = some entry ∧ entry.dirty = true

/-- There is no dirty page in this slot. -/
def CleanAt (c : Cache) (key : PageKey) : Prop :=
  ∀ addr, c.slot key = some addr → (c.heap addr).dirty = false

section

variable {c c' : Cache} {id : Id}

/-- One round of the loop of `flush` over a page that it does not wait for
leaves that page clean. -/
theorem flushLoop_round (id : Id) (index : Nat) (rest : List Nat)
    (c : Cache) :
    (flushLoop id (index :: rest) c).2 = .crash ∨
    (∃ addr fd pc, flushLoop id (index :: rest) c =
      (c, .await (.flushing index addr fd pc))) ∨
    ∃ c₁, flushLoop id (index :: rest) c = flushLoop id rest c₁ ∧
      c₁.CleanAt ⟨id, index⟩ ∧ (∀ key, c.CleanAt key → c₁.CleanAt key) ∧
      c₁.lru = c.lru ∧ c₁.table = c.table := by
  rw [flushLoop]
  split
  · exact .inl rfl
  · next entry hentry =>
      split
      · exact .inl rfl
      · next addr hpage =>
          have hslot : c.slot ⟨id, index⟩ = some addr := by
            simp [slot, hentry, hpage]
          split
          · exact .inl rfl
          · split
            · split
              · exact .inl rfl
              · next fd hfd =>
                  unfold flushAt
                  split
                  · next fut hfut => exact .inr (.inl ⟨addr, fd, _, rfl⟩)
                  · unfold flushAtLoop
                    split
                    · exact .inr (.inl ⟨addr, fd, _, rfl⟩)
                    · refine .inr (.inr ⟨c.setDirty addr false, rfl, ?_, ?_,
                        rfl, rfl⟩)
                      · intro addr' hslot'
                        obtain rfl := Option.some.inj (hslot.symm.trans hslot')
                        rw [setDirty_heap, if_pos rfl]
                        rfl
                      · intro key hclean addr' hslot'
                        rw [setDirty_heap]
                        split_ifs
                        · rfl
                        · exact hclean addr' hslot'
            · next hclean =>
                refine .inr (.inr ⟨c, rfl, ?_, fun _ h => h, rfl, rfl⟩)
                intro addr' hslot'
                obtain rfl := Option.some.inj (hslot.symm.trans hslot')
                simpa using hclean

theorem flushLoop_cleanAt {key : PageKey} (indices : List Nat)
    (hclean : c.CleanAt key) (hflow : (flushLoop id indices c).2 ≠ .crash) :
    (flushLoop id indices c).1.CleanAt key := by
  induction indices generalizing c with
  | nil =>
      intro addr hslot
      unfold flushLoop at hslot ⊢
      rw [slot_modifyEntry c id _ (by intro entry; rfl)] at hslot
      rw [modifyEntry_heap]
      exact hclean addr hslot
  | cons index rest ih =>
      rcases flushLoop_round id index rest c with
        hcrash | ⟨addr, fd, pc, heq⟩ | ⟨c₁, heq, -, hkeep, -⟩
      · exact absurd hcrash hflow
      · rw [heq]
        exact hclean
      · rw [heq] at hflow ⊢
        exact ih (hkeep key hclean) hflow

/-- The pages that the loop of `flush` has passed are clean. -/
theorem flushLoop_clean {indices : List Nat}
    (hsorted : indices.Pairwise (· < ·))
    (hflow : (flushLoop id indices c).2 ≠ .crash) {index : Nat}
    (hindex : index ∈ indices)
    (hpassed : ∀ index' addr fd pc, (flushLoop id indices c).2 =
      .await (.flushing index' addr fd pc) → index < index') :
    (flushLoop id indices c).1.CleanAt ⟨id, index⟩ := by
  induction indices generalizing c with
  | nil => cases hindex
  | cons head rest ih =>
      rcases flushLoop_round id head rest c with
        hcrash | ⟨addr, fd, pc, heq⟩ | ⟨c₁, heq, hclean, -⟩
      · exact absurd hcrash hflow
      · have hlt := hpassed head addr fd pc (congrArg Prod.snd heq)
        rcases List.mem_cons.mp hindex with rfl | hrest
        · exact absurd hlt (Nat.lt_irrefl _)
        · have hgt := List.rel_of_pairwise_cons hsorted hrest
          omega
      · rw [heq] at hflow hpassed ⊢
        rcases List.mem_cons.mp hindex with rfl | hrest
        · exact flushLoop_cleanAt rest hclean hflow
        · exact ih (List.Pairwise.of_cons hsorted) hflow hrest hpassed

theorem mem_indices_of_slot {entry : LookupEntry} {index : Nat} {addr : Addr}
    (hentry : c.lookup id = some entry)
    (hslot : c.slot ⟨id, index⟩ = some addr) : index ∈ entry.indices := by
  obtain ⟨entry', hentry', hpage⟩ := lookup_of_slot hslot
  obtain rfl := Option.some.inj (hentry.symm.trans hentry')
  rw [LookupEntry.mem_indices, hpage]
  rfl

theorem FlushEnters.sorted {pc : FlushPc} {reply : Reply} {c₁ : Cache}
    {indices : List Nat} (henter : FlushEnters c id pc reply c₁ indices) :
    indices.Pairwise (· < ·) := by
  cases henter with
  | start entry fd hentry hdirty hfd => exact entry.indices_sorted
  | opened entry fd hentry => exact entry.indices_sorted
  | sent entry index addr fd pc reply hentry hslot hmem htook hsent =>
      exact entry.indices_sorted.filter _

/-- The pages that `flush` has passed when it enters its loop are clean; the
others are on its list. -/
theorem FlushEnters.clean {pc : FlushPc} {reply : Reply} {c₁ : Cache}
    {indices : List Nat} (henter : FlushEnters c id pc reply c₁ indices)
    (hpassed : ∀ index addr fd fpc, pc = .flushing index addr fd fpc →
      ∀ k < index, c.CleanAt ⟨id, k⟩) (k : Nat) :
    c₁.CleanAt ⟨id, k⟩ ∨ k ∈ indices := by
  by_cases hclean : c₁.CleanAt ⟨id, k⟩
  · exact .inl hclean
  · refine .inr ?_
    unfold CleanAt at hclean
    push Not at hclean
    obtain ⟨addr, hslot, hdirty⟩ := hclean
    cases henter with
    | start entry fd hentry hdirty hfd =>
        rw [slot_modifyEntry c id _ (by intro entry; rfl)] at hslot
        exact mem_indices_of_slot hentry hslot
    | opened entry fd hentry =>
        rw [slot_modifyEntry _ id _ (by intro entry; rfl),
          slot_modifyEntry c id _ (by intro entry; rfl)] at hslot
        exact mem_indices_of_slot hentry hslot
    | sent entry index addr' fd pc reply hentry hslot' hmem htook hsent =>
        rw [setDirty_heap] at hdirty
        split_ifs at hdirty with heq
        · exact absurd rfl hdirty
        · rw [List.mem_filter]
          refine ⟨mem_indices_of_slot hentry hslot, ?_⟩
          rcases Nat.lt_trichotomy k index with hlt | rfl | hgt
          · exact absurd (hpassed index addr' fd pc rfl k hlt addr hslot) hdirty
          · exact absurd (Option.some.inj (hslot.symm.trans hslot')) heq
          · exact decide_eq_true hgt

/-- Where `flush` is suspended, the pages before are clean; when it returns
without an error, all pages are, or the entry was not marked dirty. -/
theorem FlushStep.clean {pc : FlushPc} {reply : Reply}
    {flow : Flow FlushPc (Except Errc Unit)}
    (hstep : FlushStep c id pc reply c' flow) (hflow : flow ≠ .crash)
    (hpassed : ∀ index addr fd fpc, pc = .flushing index addr fd fpc →
      ∀ k < index, c.CleanAt ⟨id, k⟩) :
    (∀ index addr fd fpc, flow = .await (.flushing index addr fd fpc) →
      ∀ k < index, c'.CleanAt ⟨id, k⟩) ∧
    (flow = .done (.ok ()) →
      (c' = c ∧ ¬ c.Flagged id) ∨ ∀ k, c'.CleanAt ⟨id, k⟩) := by
  cases hstep with
  | crash => exact absurd rfl hflow
  | nothing hclean =>
      refine ⟨fun _ _ _ _ h => (by cases h), fun _ => .inl ⟨rfl, ?_⟩⟩
      rintro ⟨entry, hentry, hdirty⟩
      rw [hclean entry hentry] at hdirty
      cases hdirty
  | «open» entry hentry hdirty hfd =>
      exact ⟨fun _ _ _ _ h => (by cases h), fun h => (by cases h)⟩
  | openFail err =>
      exact ⟨fun _ _ _ _ h => (by cases h), fun h => (by cases h)⟩
  | send index addr fd pc reply hslot hmem htook hmore =>
      refine ⟨?_, fun h => (by cases h)⟩
      rintro index' addr' fd' fpc h
      obtain ⟨rfl, -⟩ := FlushPc.flushing.inj (Flow.await.inj h)
      exact hpassed index addr fd pc rfl
  | refused index addr fd pc reply err hrefused =>
      exact ⟨fun _ _ _ _ h => (by cases h), fun h => (by cases h)⟩
  | loop pc reply c₁ indices henter hruns =>
      have hclean := henter.clean hpassed
      have hall : ∀ k, (∀ index addr fd fpc, (flushLoop id indices c₁).2 =
          .await (.flushing index addr fd fpc) → k < index) →
          (flushLoop id indices c₁).1.CleanAt ⟨id, k⟩ := by
        intro k hlt
        rcases hclean k with hk | hk
        · exact flushLoop_cleanAt indices hk hflow
        · exact flushLoop_clean henter.sorted hflow hk hlt
      refine ⟨?_, fun hdone => .inr fun k => hall k ?_⟩
      · intro index addr fd fpc heq k hlt
        refine hall k ?_
        intro index' addr' fd' fpc' heq'
        rw [heq] at heq'
        obtain ⟨rfl, -⟩ := FlushPc.flushing.inj (Flow.await.inj heq')
        exact hlt
      · intro index addr fd fpc heq
        rw [hdone] at heq
        cases heq

end

end Cache

end Madbfs
