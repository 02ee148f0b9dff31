/-
The operations on whole files keep the list of pages and the page tables in
step, also when the device fails: `flush`, `truncate` as long as it grows over
no cached page, the invalidations and the closing of descriptors.
-/
import Madbfs.Cache.Capacity

namespace Madbfs

open Bytes

namespace Cache

/-- The layout, and a list that is at most `n` pages too long. -/
structure Tidy (c : Cache) (held : Multiset Addr) (n : Nat) : Prop where
  layout : Layout c held
  length_le : c.lru.length ≤ c.maxPages + n

/-- No page of the file is cached that `truncate` would create a second
time. -/
def Ungrown (c : Cache) (id : Id) (oldSize newSize : Nat) : Prop :=
  ∀ index addr, c.slot ⟨id, index⟩ = some addr →
    ¬ (usub (numPages oldSize c.pageSize) 1 < index ∧
      index < max (numPages oldSize c.pageSize)
        (numPages newSize c.pageSize))

section

variable {c c' : Cache} {held : Multiset Addr} {n : Nat} {id : Id}
  {reply : Reply}

theorem Tidy.congr (htidy : Tidy c held n) (hlru : c'.lru = c.lru)
    (hheap : c'.heap = c.heap) (hslot : ∀ key, c'.slot key = c.slot key)
    (hnext : c'.nextAddr = c.nextAddr) (hmax : c'.maxPages = c.maxPages) :
    Tidy c' held n where
  layout := htidy.layout.congr (by rw [live, live, hlru])
    (fun addr => by rw [hheap]) hslot hnext
  length_le := by
    rw [hlru, hmax]
    exact htidy.length_le

theorem Tidy.modifyEntry (htidy : Tidy c held n) (id : Id)
    {f : LookupEntry → LookupEntry}
    (hpages : ∀ entry, (f entry).pages = entry.pages) :
    Tidy (c.modifyEntry id f) held n :=
  htidy.congr (by simp) (by simp) (c.slot_modifyEntry id f hpages) (by simp)
    (by simp)

/-- `flush` leaves the list alone. -/
theorem FlushStep.lru_eq {pc : FlushPc}
    {flow : Flow FlushPc (Except Errc Unit)}
    (hstep : FlushStep c id pc reply c' flow) (hflow : flow ≠ .crash) :
    c'.lru = c.lru := by
  cases hstep with
  | crash => exact absurd rfl hflow
  | nothing hclean => rfl
  | «open» entry hentry hdirty hfd => rfl
  | openFail err => rfl
  | send index addr fd pc reply hslot hmem htook hmore => rfl
  | refused index addr fd pc reply err hrefused => exact modifyEntry_lru c _ _
  | loop pc reply c₁ indices henter hruns =>
      have hlru : c₁.lru = c.lru := by
        cases henter with
        | start entry fd hentry hdirty hfd => exact modifyEntry_lru c _ _
        | opened entry fd hentry =>
            rw [modifyEntry_lru, modifyEntry_lru]
        | sent entry index addr fd pc reply hentry hslot hmem htook hsent =>
            rfl
      have hframe := flushLoop_frame id indices c₁
      rw [← hlru]
      generalize flushLoop id indices c₁ = x at hframe hflow ⊢
      obtain ⟨c₂, pc' | res | _⟩ := x
      · exact hframe.1
      · exact hframe
      · exact absurd rfl hflow

theorem flushResume_tidy (htidy : Tidy c held n) {pc : FlushPc}
    {x : Cache × Flow FlushPc (Except Errc Unit)}
    (hx : c.flushResume id pc reply = some x) :
    Flow.Ensures x (fun c' _ => Tidy c' held n)
      (fun c' _ => Tidy c' held n) := by
  have hstep := flushResume_step hx
  have hkeep : x.2 ≠ .crash → Tidy x.1 held n := by
    intro hflow
    have hallow : FlushAllowed (layoutGrant fun _ => False) c id pc reply := by
      unfold FlushAllowed
      split
      · trivial
      · exact fun _ _ _ _ => trivial
      · trivial
    refine ⟨?_, ?_⟩
    · rcases hstep.acts held hallow hflow with hacts | ⟨c₁, hacts, -, heq⟩
      · exact Layout.acts hacts htidy.layout
      · rw [heq]
        exact (Layout.acts hacts htidy.layout).modifyEntry id fun _ => rfl
    · have hmax : x.1.maxPages = c.maxPages := by
        rcases hstep.acts held hallow hflow with
          hacts | ⟨c₁, hacts, -, heq⟩
        · exact hacts.maxPages_eq
        · rw [heq, modifyEntry_maxPages]
          exact hacts.maxPages_eq
      rw [hstep.lru_eq hflow, hmax]
      exact htidy.length_le
  obtain ⟨c', pc' | res | _⟩ := x
  · exact hkeep fun h => by cases h
  · exact hkeep fun h => by cases h
  · trivial

theorem flushStart_tidy (htidy : Tidy c held n) (id : Id) :
    Flow.Ensures (c.flushStart id) (fun c' _ => Tidy c' held n)
      (fun c' _ => Tidy c' held n) :=
  flushResume_tidy htidy (rfl : c.flushResume id .start .go = some _)

/-- A page that leaves the list and the table. -/
theorem Tidy.erase (htidy : Tidy c held n) {addr : Addr}
    (hmem : addr ∈ c.lru) :
    Tidy ((c.eraseLru addr).erasePage (c.heap addr).key) held n where
  layout := by
    have hheld : Layout (c.eraseLru addr) (addr ::ₘ held) := by
      refine htidy.layout.congr ?_ (fun _ => rfl) (fun _ => rfl) rfl
      have hperm := Multiset.coe_eq_coe.mpr (List.perm_cons_erase hmem)
      rw [← Multiset.cons_coe] at hperm
      simp only [live, eraseLru]
      rw [hperm, Multiset.cons_add, Multiset.add_cons]
    exact hheld.drop
  length_le := by
    have hle := htidy.length_le
    have hlength := List.length_erase_of_mem hmem
    simp only [erasePage_lru, erasePage_maxPages, eraseLru]
    omega

/-- One round of the loop of `truncate` that creates no page. -/
theorem truncatePage_tidy (htidy : Tidy c held n) {index oldSize newSize : Nat}
    {addr : Addr} (hslot : c.slot ⟨id, index⟩ = some addr)
    (hungrown : c.Ungrown id oldSize newSize) :
    Flow.Ensures (c.truncatePage ⟨id, index⟩ addr oldSize newSize)
      (fun _ _ => False)
      (fun c' _ => Tidy c' held n ∧ c'.Ungrown id oldSize newSize) := by
  have hgrow := hungrown index addr hslot
  have hkey := (htidy.layout.live_of_slot _ _ hslot).2
  unfold truncatePage
  dsimp only
  generalize (if index = usub (numPages newSize c.pageSize) 1 then
    usub newSize 1 % c.pageSize + 1 else c.pageSize) = size
  generalize usub (numPages oldSize c.pageSize) 1 = last at hgrow ⊢
  split_ifs with hout hshrink hmem hlt hmem
  · exact ⟨htidy, hungrown⟩
  · refine ⟨?_, ?_⟩
    · have herase := htidy.erase hmem
      rw [hkey] at herase
      exact herase
    · intro index' addr' hslot'
      rw [slot_erasePage] at hslot'
      split_ifs at hslot' with heq
      rw [erasePage_pageSize]
      exact hungrown index' addr' hslot'
  · trivial
  · exact absurd ⟨hlt, by omega⟩ hgrow
  · refine ⟨⟨?_, htidy.length_le⟩, hungrown⟩
    exact htidy.layout.modifyPage (by rfl)
  · trivial

theorem truncateLoop_tidy (indices : List Nat) {oldSize newSize : Nat}
    (htidy : Tidy c held n) (hungrown : c.Ungrown id oldSize newSize) :
    Flow.Ensures (truncateLoop id oldSize newSize indices c)
      (fun _ _ => False) (fun c' _ => Tidy c' held n) := by
  induction indices generalizing c with
  | nil => exact htidy
  | cons index rest ih =>
      unfold truncateLoop
      split
      · trivial
      · next addr hslot =>
          refine Flow.Ensures.andThen
            ((truncatePage_tidy htidy hslot hungrown).mono
              (fun _ _ h => h) fun c' _ h => ?_)
          exact (ih h.1 h.2).mono (fun _ _ h => h) fun _ _ h => h

theorem truncatePages_tidy {oldSize newSize : Nat}
    {first : Option (Nat × Addr)} (htidy : Tidy c held n)
    (hungrown : c.Ungrown id oldSize newSize) :
    Flow.Ensures (c.truncatePages id oldSize newSize first)
      (fun _ _ => False) (fun c' _ => Tidy c' held n) := by
  unfold truncatePages
  split
  · exact htidy
  · split
    · split
      · trivial
      · exact truncateLoop_tidy _ htidy hungrown
    · trivial

/-- An eviction leaves no page that was not there. -/
theorem Ungrown.acts {oldSize newSize : Nat} {s t : Cache × Multiset Addr}
    (hungrown : s.1.Ungrown id oldSize newSize)
    (hacts : Acts (layoutGrant fun _ => False) s t) :
    t.1.Ungrown id oldSize newSize := by
  intro index addr hslot
  rw [hacts.keepsData.pageSize]
  rcases hacts.slot_subset (fun _ _ h => h)
    hslot with hold | ⟨page, hfalse, -⟩
  · exact hungrown index addr hold
  · exact hfalse.elim

/-- What is known of a suspended or finished eviction that runs alone. -/
theorem evict_tidy {oldSize newSize size : Nat} (hlayout : Layout c 0)
    (hle : c.lru.length - size ≤ c.maxPages)
    (hungrown : c.Ungrown id oldSize newSize) :
    Flow.Ensures (evict size c)
      (fun c' pc => Tidy c' {pc.page} pc.rest ∧
        c'.Ungrown id oldSize newSize)
      (fun c' _ => Tidy c' 0 0 ∧ c'.Ungrown id oldSize newSize) := by
  have hruns := evict_evictRuns size c 0
  have hlength := evict_shorter size c
  generalize evict size c = x at hruns hlength
  obtain ⟨c', pc | _ | _⟩ := x
  · have hacts := hruns.1.acts (layoutGrant fun _ => False)
    have hmax : c'.maxPages = c.maxPages := hacts.maxPages_eq
    have hshort := hlength.2
    refine ⟨⟨Layout.acts hacts hlayout, ?_⟩, hungrown.acts hacts⟩
    omega
  · have hacts := hruns.acts (layoutGrant fun _ => False)
    have hmax : c'.maxPages = c.maxPages := hacts.maxPages_eq
    have hshort : c'.lru.length = _ := hlength
    refine ⟨⟨Layout.acts hacts hlayout, ?_⟩, hungrown.acts hacts⟩
    omega
  · trivial

theorem evictResume_tidy {oldSize newSize : Nat} {pc : EvictPc}
    {x : Cache × Flow EvictPc Unit} (hx : c.evictResume pc reply = some x)
    (htidy : Tidy c {pc.page} pc.rest) (hopens : EvictOpens pc reply)
    (hungrown : c.Ungrown id oldSize newSize) :
    Flow.Ensures x
      (fun c' pc' => Tidy c' {pc'.page} pc'.rest ∧
        c'.Ungrown id oldSize newSize)
      (fun c' _ => Tidy c' 0 0 ∧ c'.Ungrown id oldSize newSize) := by
  have hlength := evictResume_shorter hx
  have hle := htidy.length_le
  have hallow : EvictAllowed (layoutGrant fun _ => False) c pc reply :=
    evictAllowed_of_opens hopens
  rcases evictResume_cases 0 hx with
    ⟨addr, fd, rest, fpc, rfl, -, -, rfl⟩ | ⟨c₁, start, hbegin, hruns⟩
  · exact ⟨⟨htidy.layout, hle⟩, hungrown⟩
  · have hfirst := hbegin.acts hallow
    obtain ⟨c', pc' | _ | _⟩ := x
    · have hacts : Acts _ _ _ := hfirst.trans
        (hruns.1.acts (layoutGrant fun _ => False))
      have hmax : c'.maxPages = c.maxPages := hacts.maxPages_eq
      have hshort : c'.lru.length + _ = _ := hlength
      refine ⟨⟨Layout.acts hacts htidy.layout, ?_⟩, hungrown.acts hacts⟩
      omega
    · have hacts : Acts _ _ _ := hfirst.trans
        (hruns.acts (layoutGrant fun _ => False))
      have hmax : c'.maxPages = c.maxPages := hacts.maxPages_eq
      have hshort : c'.lru.length = _ := hlength
      refine ⟨⟨Layout.acts hacts htidy.layout, ?_⟩, hungrown.acts hacts⟩
      omega
    · trivial

end

end Cache

namespace TruncatePc

def held : TruncatePc → Multiset Addr
  | .start => 0
  | .evicting _ pc => {pc.page}

def rest : TruncatePc → Nat
  | .start => 0
  | .evicting _ pc => pc.rest

end TruncatePc

namespace Cache

section

variable {c c' : Cache} {id : Id} {reply : Reply}

theorem truncateResume_tidy {oldSize newSize : Nat} {pc : TruncatePc}
    {x : Cache × Flow TruncatePc Unit}
    (hx : c.truncateResume id oldSize newSize pc reply = some x)
    (htidy : Tidy c pc.held pc.rest)
    (hopens : ∀ first epc, pc = .evicting first epc → EvictOpens epc reply)
    (hungrown : c.Ungrown id oldSize newSize) :
    Flow.Ensures x
      (fun c' pc' => Tidy c' pc'.held pc'.rest ∧
        c'.Ungrown id oldSize newSize)
      (fun c' _ => Tidy c' 0 0) := by
  have hpages : ∀ (c' : Cache) first, Tidy c' 0 0 →
      c'.Ungrown id oldSize newSize →
      Flow.Ensures (c'.truncatePages id oldSize newSize first)
        (fun c' pc' => Tidy c' pc'.held pc'.rest ∧
          c'.Ungrown id oldSize newSize) (fun c' _ => Tidy c' 0 0) := by
    intro c' first htidy' hungrown'
    exact (truncatePages_tidy htidy' hungrown').mono (fun _ _ h => h.elim)
      fun _ _ h => h
  unfold truncateResume at hx
  split at hx
  · obtain rfl := Option.some.inj hx
    have hle := htidy.length_le
    unfold truncateStart
    split
    · exact htidy
    · next entry hentry =>
        dsimp only
        refine Flow.Ensures.andThen ((evict_tidy htidy.layout (by
          simp only [TruncatePc.rest] at hle
          omega) hungrown).mono (fun _ _ h => h) fun c' _ h => ?_)
        exact hpages c' _ h.1 h.2
  · next first epc =>
      obtain ⟨y, hy, rfl⟩ := Option.map_eq_some_iff.mp hx
      refine Flow.Ensures.andThen ((evictResume_tidy hy htidy
        (hopens first epc rfl) hungrown).mono (fun _ _ h => h)
        fun c' _ h => ?_)
      exact hpages c' _ h.1 h.2
  · cases hx

theorem mem_addrs {entry : LookupEntry} {addr : Addr} :
    addr ∈ entry.addrs ↔ ∃ index, entry.pages.lookup index = some addr := by
  unfold LookupEntry.addrs
  rw [List.mem_filterMap]
  constructor
  · rintro ⟨index, -, hpage⟩
    exact ⟨index, hpage⟩
  · rintro ⟨index, hpage⟩
    exact ⟨index, LookupEntry.mem_indices.mpr (by rw [hpage]; rfl), hpage⟩

theorem slot_eraseEntry (c : Cache) (id : Id) (key : PageKey) :
    (c.eraseEntry id).slot key = if key.id = id then none else c.slot key := by
  unfold slot lookup eraseEntry
  split_ifs with hid
  · rw [hid, AList.lookup_erase]
    rfl
  · rw [AList.lookup_erase_ne hid]

/-- The entry leaves the table and its pages leave the list. -/
theorem extract_tidy (htidy : Tidy c 0 0) (id : Id) :
    Flow.Ensures (c.extract id) (fun _ _ => False)
      (fun c' _ => Tidy c' 0 0) := by
  unfold extract
  split
  · exact htidy
  · next entry hentry =>
      dsimp only
      split
      · have hnodup : c.lru.Nodup := by
          have h := htidy.layout.nodup
          rw [live, Multiset.add_zero, Multiset.coe_nodup] at h
          exact h
        have hlru : entry.addrs.foldl List.erase c.lru =
            c.lru.diff entry.addrs := (List.diff_eq_foldl _ _).symm
        have hmem : ∀ addr, addr ∈ c.lru.diff entry.addrs ↔
            addr ∈ c.lru ∧ (c.heap addr).key.id ≠ id := by
          intro addr
          rw [hnodup.mem_sdiff_iff, mem_addrs]
          refine and_congr_right fun hin => not_congr ?_
          have hslot := htidy.layout.slot_of_live addr
            (mem_live_of_mem_lru hin)
          constructor
          · rintro ⟨index, hpage⟩
            have hkey := (htidy.layout.live_of_slot ⟨id, index⟩ addr (by
              simp [slot, hentry, hpage])).2
            rw [hkey]
          · rintro rfl
            refine ⟨(c.heap addr).key.index, ?_⟩
            simpa [slot, hentry] using hslot
        have hlive : ∀ addr, addr ∈ live { c with
            table := c.table.erase id
            lru := entry.addrs.foldl List.erase c.lru } 0 ↔
            addr ∈ c.lru ∧ (c.heap addr).key.id ≠ id := by
          intro addr
          rw [mem_live, ← hmem addr, ← hlru]
          simp
        have hslots : ∀ key, slot { c with
            table := c.table.erase id
            lru := entry.addrs.foldl List.erase c.lru } key =
            if key.id = id then none else c.slot key :=
          slot_eraseEntry c id
        refine ⟨⟨?_, ?_, ?_, ?_⟩, ?_⟩
        · rw [live, Multiset.add_zero, Multiset.coe_nodup]
          change (entry.addrs.foldl List.erase c.lru).Nodup
          rw [hlru]
          exact hnodup.diff
        · intro addr hin
          obtain ⟨hold, hid⟩ := (hlive addr).mp hin
          rw [hslots, if_neg hid]
          exact htidy.layout.slot_of_live addr (mem_live_of_mem_lru hold)
        · intro key addr hslot
          rw [hslots] at hslot
          split_ifs at hslot with hid
          obtain ⟨hold, hkey⟩ := htidy.layout.live_of_slot key addr hslot
          refine ⟨(hlive addr).mpr ⟨?_, ?_⟩, hkey⟩
          · simpa [mem_live] using hold
          · rw [hkey]
            exact hid
        · intro addr hin
          exact htidy.layout.lt_next addr
            (mem_live_of_mem_lru ((hlive addr).mp hin).1)
        · refine Nat.le_trans ?_ htidy.length_le
          change (entry.addrs.foldl List.erase c.lru).length ≤ _
          rw [hlru]
          exact (List.diff_sublist _ _).length_le
      · trivial

theorem invalidateOneResume_tidy {shouldFlush : Bool} {pc : FlushPc}
    {x : Cache × Flow FlushPc Unit}
    (hx : c.invalidateOneResume id shouldFlush pc reply = some x)
    (htidy : Tidy c 0 0) :
    Flow.Ensures x (fun c' _ => Tidy c' 0 0) (fun c' _ => Tidy c' 0 0) := by
  have hextract : ∀ c' : Cache, Tidy c' 0 0 →
      Flow.Ensures (c'.extract id) (fun c' _ => Tidy c' 0 0)
        (fun c' _ => Tidy c' 0 0) := fun c' h =>
    (extract_tidy h id).mono (fun _ _ h => h.elim) fun _ _ h => h
  unfold invalidateOneResume at hx
  split at hx
  · obtain ⟨y, hy, rfl⟩ := Option.map_eq_some_iff.mp hx
    exact Flow.Ensures.andThen ((flushResume_tidy htidy hy).mono
      (fun _ _ h => h) fun c' _ h => hextract c' h)
  · split at hx
    · obtain rfl := Option.some.inj hx
      exact hextract c htidy
    · cases hx

theorem Tidy.dropFds (htidy : Tidy c 0 0) : Tidy c.dropFds 0 0 := by
  unfold Cache.dropFds
  generalize c.table.keys = ids
  induction ids generalizing c with
  | nil => exact htidy
  | cons id rest ih => exact ih (htidy.modifyEntry id fun _ => rfl)

theorem shutdownClose_tidy (htidy : Tidy c 0 0) (after : After)
    (fds : List Fd) :
    Flow.Ensures (c.shutdownClose after fds) (fun c' _ => Tidy c' 0 0)
      (fun c' _ => Tidy c' 0 0) := by
  cases fds with
  | nil =>
      have hempty : ∀ c' : Cache, c'.lru = [] → c'.table = ∅ →
          Tidy c' 0 0 := by
        intro c' hlru htable
        have hlive : ∀ addr, addr ∉ c'.live 0 := by
          intro addr hmem
          rw [mem_live, hlru] at hmem
          simp at hmem
        refine ⟨⟨?_, fun addr h => absurd h (hlive addr), ?_,
          fun addr h => absurd h (hlive addr)⟩, ?_⟩
        · rw [live, hlru]
          exact Multiset.nodup_zero
        · intro key addr hslot
          simp [slot, lookup, htable] at hslot
        · rw [hlru]
          exact Nat.zero_le _
      cases after <;> exact hempty _ rfl rfl
  | cons fd rest => exact htidy

theorem shutdownLoop_tidy (htidy : Tidy c 0 0) (after : After)
    (ids : List Id) :
    Flow.Ensures (shutdownLoop after ids c) (fun c' _ => Tidy c' 0 0)
      (fun c' _ => Tidy c' 0 0) := by
  induction ids generalizing c with
  | nil => exact shutdownClose_tidy htidy.dropFds after _
  | cons id rest ih =>
      exact Flow.Ensures.andThen ((flushStart_tidy htidy id).mono
        (fun _ _ h => h) fun c' _ h => ih h)

theorem shutdownResume_tidy {after : After} {pc : ShutdownPc}
    {x : Cache × Flow ShutdownPc Unit}
    (hx : c.shutdownResume after pc reply = some x) (htidy : Tidy c 0 0) :
    Flow.Ensures x (fun c' _ => Tidy c' 0 0) (fun c' _ => Tidy c' 0 0) := by
  unfold shutdownResume at hx
  split at hx
  · obtain rfl := Option.some.inj hx
    have hqueue : Tidy { c with readQueue := ∅ } 0 0 :=
      htidy.congr rfl rfl (fun _ => rfl) rfl rfl
    exact shutdownLoop_tidy hqueue after _
  · obtain ⟨y, hy, rfl⟩ := Option.map_eq_some_iff.mp hx
    exact Flow.Ensures.andThen ((flushResume_tidy htidy hy).mono
      (fun _ _ h => h) fun c' _ h => shutdownLoop_tidy h after _)
  · obtain rfl := Option.some.inj hx
    exact shutdownClose_tidy htidy after _
  · cases hx

theorem Tidy.takeStale (htidy : Tidy c 0 0) (mark : Id × FdKind) :
    Tidy (c.takeStale mark).1 0 0 := by
  obtain ⟨id, kind⟩ := mark
  unfold Cache.takeStale
  dsimp only
  split
  · exact htidy
  · cases kind with
    | read =>
        dsimp only
        split
        · exact htidy.modifyEntry id fun _ => rfl
        · exact htidy
    | write =>
        dsimp only
        split
        · exact htidy.modifyEntry id fun _ => rfl
        · exact htidy

theorem Tidy.takeStales (htidy : Tidy c 0 0) (marks : List (Id × FdKind)) :
    Tidy (takeStales marks c).1 0 0 := by
  induction marks generalizing c with
  | nil => exact htidy
  | cons mark rest ih => exact ih (htidy.takeStale mark)

/-- An entry that is dropped has no pages. -/
theorem Tidy.dropFree (htidy : Tidy c 0 0) : Tidy c.dropFree 0 0 := by
  have hfree : ∀ id ∈ c.table.keys.filter fun id =>
      (c.lookup id).any LookupEntry.isFree, ∀ key : PageKey, key.id = id →
      c.slot key = none := by
    rintro id hmem key rfl
    have hany := (List.mem_filter.mp hmem).2
    unfold slot
    cases hentry : c.lookup key.id with
    | none => rfl
    | some entry =>
        rw [hentry] at hany
        simp only [Option.any_some, LookupEntry.isFree, Bool.and_eq_true,
          List.isEmpty_iff] at hany
        have hkeys : entry.pages.keys = [] := by tauto
        have hnot : key.index ∉ entry.pages := by
          rw [AList.mem_keys, hkeys]
          exact List.not_mem_nil
        exact AList.lookup_eq_none.mpr hnot
  unfold Cache.dropFree
  generalize (c.table.keys.filter fun id =>
    (c.lookup id).any LookupEntry.isFree) = ids at hfree
  induction ids generalizing c with
  | nil => exact htidy
  | cons id rest ih =>
      have hslot : ∀ key, (c.eraseEntry id).slot key = c.slot key := by
        intro key
        rw [slot_eraseEntry]
        split_ifs with hid
        · exact (hfree id List.mem_cons_self key hid).symm
        · rfl
      refine ih (htidy.congr rfl rfl hslot rfl rfl) ?_
      intro id' hmem key hid
      rw [hslot]
      exact hfree id' (List.mem_cons_of_mem _ hmem) key hid

theorem cleanStaleFdsResume_tidy {pc : ClosePc}
    {x : Cache × Flow ClosePc Unit}
    (hx : c.cleanStaleFdsResume pc reply = some x) (htidy : Tidy c 0 0) :
    Flow.Ensures x (fun c' _ => Tidy c' 0 0) (fun c' _ => Tidy c' 0 0) := by
  have hclose : ∀ (c' : Cache) fds, Tidy c' 0 0 →
      Flow.Ensures (c'.cleanClose fds) (fun c' _ => Tidy c' 0 0)
        (fun c' _ => Tidy c' 0 0) := by
    intro c' fds h
    cases fds with
    | nil => exact h.dropFree
    | cons fd rest => exact h
  unfold cleanStaleFdsResume at hx
  split at hx
  · obtain rfl := Option.some.inj hx
    exact hclose _ _ ((htidy.takeStales c.staleFds).congr rfl rfl
      (fun _ => rfl) rfl rfl)
  · obtain rfl := Option.some.inj hx
    exact hclose _ _ htidy
  · cases hx

/-- A new entry has no pages. -/
theorem Tidy.newLookup (htidy : Tidy c 0 0) (id : Id) (path : Path) :
    Tidy (c.newLookup id path) 0 0 := by
  unfold Cache.newLookup
  split
  · exact htidy
  · next hnone =>
      refine htidy.congr rfl rfl (fun key => ?_) rfl rfl
      change (AList.lookup key.id (c.table.insert id _)).bind _ = _
      by_cases hid : key.id = id
      · subst hid
        rw [AList.lookup_insert, slot, hnone]
        exact AList.lookup_eq_none.mpr (AList.notMem_empty _)
      · rw [AList.lookup_insert_ne hid]
        rfl

theorem Tidy.staleFds (htidy : Tidy c 0 0) (marks : List (Id × FdKind)) :
    Tidy { c with staleFds := marks } 0 0 :=
  htidy.congr rfl rfl (fun _ => rfl) rfl rfl

theorem Tidy.hintOpen (htidy : Tidy c 0 0) (id : Id) (path : Path)
    (mode : OpenMode) : Tidy (c.hintOpen id path mode).1 0 0 := by
  have hnew := htidy.newLookup id path
  unfold Cache.hintOpen
  dsimp only
  split
  · exact hnew
  · next entry hentry =>
      split
      · exact hnew
      · have hcount := hnew.modifyEntry id (f := fun entry' => { entry' with
          reader := entry.reader + mode.reads.toNat
          writer := entry.writer + mode.writes.toNat }) fun _ => rfl
        dsimp only
        split_ifs
        · exact (hcount.staleFds _).staleFds _
        · exact hcount.staleFds _
        · exact hcount.staleFds _
        · exact hcount

theorem Tidy.hintClose (htidy : Tidy c 0 0) (id : Id) (mode : OpenMode) :
    Tidy (c.hintClose id mode).1 0 0 := by
  unfold Cache.hintClose
  split
  · exact htidy
  · next entry hentry =>
      split
      · exact htidy
      · have hcount := htidy.modifyEntry id (f := fun entry' => { entry' with
          reader := entry.reader - mode.reads.toNat
          writer := entry.writer - mode.writes.toNat }) fun _ => rfl
        dsimp only
        split_ifs
        · exact (hcount.staleFds _).staleFds _
        · exact hcount.staleFds _
        · exact hcount.staleFds _
        · exact hcount

end

end Cache

end Madbfs
