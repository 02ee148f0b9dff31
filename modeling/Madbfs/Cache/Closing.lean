/-
The operations that take descriptors out of the table.  `clean_stale_fds` and
`shutdown` collect them to be closed; `invalidate_one`, the removal of free
entries and the end of `shutdown` remove entries as they are, and whatever
descriptors these still hold are dropped.
-/
import Madbfs.Cache.Descriptors

namespace Madbfs

/-- The slot of a kind. -/
def LookupEntry.fdOf (entry : LookupEntry) : FdKind → Option Fd
  | .read => entry.readFd
  | .write => entry.writeFd

namespace Cache

variable {c c' : Cache} {id : Id}

theorem held_eraseEntry {entry : LookupEntry}
    (hentry : c.lookup id = some entry) :
    c.held = (entryFds entry : Multiset Fd) + (c.eraseEntry id).held := by
  have hperm := (AList.entries_erase_cons hentry).flatMap_right
    fun e => entryFds e.2
  rw [List.flatMap_cons] at hperm
  rw [held, held, Multiset.coe_add]
  exact Multiset.coe_eq_coe.mpr hperm

/-- An update of an entry moves the descriptors of this entry only. -/
theorem held_modifyEntry {entry : LookupEntry}
    (hentry : c.lookup id = some entry) (f : LookupEntry → LookupEntry) :
    (c.modifyEntry id f).held + (entryFds entry : Multiset Fd) =
      c.held + (entryFds (f entry) : Multiset Fd) := by
  have hinsert : (c.modifyEntry id f).held =
      (entryFds (f entry) : Multiset Fd) + (c.eraseEntry id).held := by
    simp only [modifyEntry, hentry]
    rw [held, held, Multiset.coe_add, allFds, AList.entries_insert,
      List.flatMap_cons]
    rfl
  rw [hinsert, held_eraseEntry hentry]
  ac_rfl

/-- The slots of the file hold no descriptor. -/
def Bare (c : Cache) (id : Id) : Prop :=
  ∀ fds, c.slots id = some fds → fds = []

theorem Bare.entryFds_eq (hbare : c.Bare id) {entry : LookupEntry}
    (hentry : c.lookup id = some entry) : entryFds entry = [] := by
  apply hbare
  rw [slots, hentry]
  rfl

theorem held_eq_zero (hbare : ∀ id, c.Bare id) : c.held = 0 := by
  apply Multiset.eq_zero_of_forall_notMem
  intro fd hfd
  obtain ⟨id, fds, hslots, hmem⟩ := mem_held.mp hfd
  rw [hbare id fds hslots] at hmem
  exact absurd hmem List.not_mem_nil

/-- `invalidate_one` drops what the slots of its file hold. -/
theorem extract_held (c : Cache) (id : Id) :
    ∃ dropped, (c.extract id).1.held + dropped = c.held ∧
      (c.Bare id → dropped = 0) := by
  unfold extract
  split
  · exact ⟨0, add_zero _, fun _ => rfl⟩
  · next entry hentry =>
    dsimp only
    split_ifs
    · refine ⟨entryFds entry, ?_, fun hbare => ?_⟩
      · rw [held_eraseEntry hentry, add_comm]
        rfl
      · rw [hbare.entryFds_eq hentry]
        rfl
    · exact ⟨0, add_zero _, fun _ => rfl⟩

theorem extract_done (c : Cache) (id : Id) (pc : FlushPc) :
    (c.extract id).2 ≠ .await pc := by
  unfold extract
  dsimp only
  split
  · nofun
  · split_ifs <;> nofun

theorem store_of_ne {target : Option (Id × FdKind)} {reply : Reply}
    (hreply : ∀ fd, reply ≠ .opened (.ok fd)) : c.store target reply = c := by
  unfold store
  split
  · exact absurd rfl (hreply _)
  · rfl

theorem invalidateOneResume_held {shouldFlush : Bool} {pc : FlushPc}
    {reply : Reply} {x : Cache × Flow FlushPc Unit}
    (hresume : c.invalidateOneResume id shouldFlush pc reply = some x) :
    ∃ dropped, x.1.held + dropped = (c.store (pc.target id) reply).held ∧
      (c.Bare id ∧ (∀ fd, reply ≠ .opened (.ok fd)) → dropped = 0) := by
  unfold invalidateOneResume at hresume
  split_ifs at hresume
  · obtain ⟨y, hy, rfl⟩ := Option.map_eq_some_iff.mp hresume
    have hslots := (flushResume_carries hy).slots
    obtain ⟨c₁, pc₁ | value | _⟩ := y
    · exact ⟨0, (add_zero _).trans (held_congr hslots), fun _ => rfl⟩
    · obtain ⟨dropped, hheld, hzero⟩ := c₁.extract_held id
      refine ⟨dropped, hheld.trans (held_congr hslots), fun h => hzero ?_⟩
      intro fds hfds
      rw [hslots, store_of_ne h.2] at hfds
      exact h.1 fds hfds
    · exact ⟨0, (add_zero _).trans (held_congr hslots), fun _ => rfl⟩
  · split at hresume
    · cases hresume
      obtain ⟨dropped, hheld, hzero⟩ := c.extract_held id
      exact ⟨dropped, hheld, fun h => hzero h.1⟩
    · cases hresume

theorem invalidateOneResume_hand {shouldFlush : Bool} {pc : FlushPc}
    {reply : Reply} {x : Cache × Flow FlushPc Unit}
    (hresume : c.invalidateOneResume id shouldFlush pc reply = some x)
    (pc' : FlushPc) (heq : x.2 = .await pc') : ∀ fd ∈ pc'.fds,
      fd ∈ pc.fds ++ reply.fds ∨ fd ∈ (c.store (pc.target id) reply).held := by
  unfold invalidateOneResume at hresume
  split_ifs at hresume
  · obtain ⟨y, hy, rfl⟩ := Option.map_eq_some_iff.mp hresume
    have hflush := flushResume_carries hy
    obtain ⟨c₁, pc₁ | value | _⟩ := y
    · cases heq
      exact hflush.hand pc₁ rfl
    · exact absurd heq (c₁.extract_done id pc')
    · cases heq
  · split at hresume
    · cases hresume
      exact absurd heq (c.extract_done id pc')
    · cases hresume

theorem slots_foldl_drop (ids : List Id) (c : Cache) (id : Id) :
    (ids.foldl (fun c id => c.modifyEntry id fun entry =>
      setWriteFd none (setReadFd none entry)) c).slots id =
      if id ∈ ids then (c.slots id).map fun _ => [] else c.slots id := by
  induction ids generalizing c with
  | nil => rfl
  | cons head tail ih =>
      rw [List.foldl_cons, ih, slots_modifyEntry_apply]
      by_cases hhead : id = head
      · subst hhead
        rw [if_pos rfl, if_pos List.mem_cons_self, slots]
        split_ifs
        all_goals
          cases c.lookup id <;> rfl
      · rw [if_neg hhead]
        simp only [List.mem_cons, hhead, false_or]

theorem held_dropFds (c : Cache) : c.dropFds.held = 0 := by
  apply held_eq_zero
  intro id fds hslots
  rw [dropFds, slots_foldl_drop] at hslots
  split_ifs at hslots with hmem
  · obtain ⟨_, _, hnil⟩ := Option.map_eq_some_iff.mp hslots
    exact hnil.symm
  · obtain ⟨entry, hentry, -⟩ := Option.map_eq_some_iff.mp hslots
    exact absurd (AList.lookup_isSome.mp (by
      change (c.lookup id).isSome
      rw [hentry]
      rfl)) hmem

end Cache

/-- The descriptors an operation is about to close, the one that it waits for
included. -/
def ShutdownPc.closes : ShutdownPc → List Fd
  | .closing fd rest => fd :: rest
  | _ => []

/-- The descriptors that are taken out and not passed to `close` yet. -/
def ShutdownPc.pending : ShutdownPc → List Fd
  | .closing _ rest => rest
  | _ => []

def ClosePc.pending : ClosePc → List Fd
  | .start => []
  | .closing _ rest => rest

namespace Cache

/-- The descriptors to be closed where an operation is suspended. -/
def closesOf {π α : Type} (closes : π → List Fd) : Flow π α → Multiset Fd
  | .await pc => closes pc
  | .done _ => 0
  | .crash => 0

/-- A nested `co_await` whose callee closes nothing. -/
theorem andThen_held {π ρ α β : Type} {closes : ρ → List Fd}
    {x : Cache × Flow π α} {wrap : π → ρ}
    {rest : Cache → α → Cache × Flow ρ β}
    (hwrap : ∀ pc, closes (wrap pc) = [])
    (hrest : ∀ c value,
      (rest c value).1.held + closesOf closes (rest c value).2 = c.held) :
    (Flow.andThen x wrap rest).1.held +
      closesOf closes (Flow.andThen x wrap rest).2 = x.1.held := by
  obtain ⟨c₁, pc | value | _⟩ := x
  · rw [Flow.andThen, closesOf, hwrap]
    exact add_zero _
  · exact hrest c₁ value
  · exact add_zero _

section Shutdown

variable {c : Cache} {after : After}

theorem shutdownClose_held (c : Cache) (after : After) (fds : List Fd) :
    ∃ dropped, (c.shutdownClose after fds).1.held +
        closesOf ShutdownPc.closes (c.shutdownClose after fds).2 + dropped =
      c.held + fds ∧ (fds ≠ [] ∨ c.held = 0 → dropped = 0) := by
  cases fds with
  | nil =>
      refine ⟨c.held, ?_, fun h => h.resolve_left (fun hne => hne rfl)⟩
      have hempty : (c.shutdownEnd after).1.held = 0 := by
        cases after <;> rfl
      rw [shutdownClose, hempty, zero_add, Multiset.coe_nil, add_zero]
      exact zero_add _
  | cons fd rest => exact ⟨0, add_zero _, fun _ => rfl⟩

theorem shutdownLoop_held (ids : List Id) (c : Cache) :
    (shutdownLoop after ids c).1.held +
      closesOf ShutdownPc.closes (shutdownLoop after ids c).2 = c.held := by
  induction ids generalizing c with
  | nil =>
      rw [shutdownLoop]
      obtain ⟨dropped, hheld, hzero⟩ :=
        shutdownClose_held c.dropFds after c.allFds
      rw [hzero (.inr c.held_dropFds), add_zero, c.held_dropFds,
        zero_add] at hheld
      exact hheld
  | cons id rest ih =>
      rw [shutdownLoop]
      rw [andThen_held (fun _ => rfl) fun c _ => ih c]
      exact held_congr (c.flushStart_slots id)

theorem shutdownResume_held {pc : ShutdownPc} {reply : Reply}
    {x : Cache × Flow ShutdownPc Unit}
    (hresume : c.shutdownResume after pc reply = some x) :
    ∃ dropped, x.1.held + closesOf ShutdownPc.closes x.2 + dropped =
        (c.store pc.target reply).held + pc.pending ∧
      ((∀ fd, pc = .closing fd [] → c.held = 0) → dropped = 0) := by
  unfold shutdownResume at hresume
  split at hresume
  · cases hresume
    refine ⟨0, ?_, fun _ => rfl⟩
    rw [shutdownLoop_held, add_zero]
    exact (add_zero _).symm
  · next id rest pc =>
    obtain ⟨y, hy, rfl⟩ := Option.map_eq_some_iff.mp hresume
    refine ⟨0, ?_, fun _ => rfl⟩
    rw [andThen_held (fun _ => rfl) fun c _ => shutdownLoop_held rest c,
      held_congr (flushResume_carries hy).slots]
    rfl
  · next fd rest _ =>
    cases hresume
    obtain ⟨dropped, hheld, hzero⟩ := shutdownClose_held c after rest
    refine ⟨dropped, hheld, fun hempty => hzero ?_⟩
    by_cases hrest : rest = []
    · subst hrest
      exact .inr (hempty fd rfl)
    · exact .inl hrest
  · cases hresume

theorem shutdownLoop_hand {own : List Fd} (ids : List Id) {c₁ : Cache}
    (hslots : c₁.slots = c.slots) (pc : ShutdownPc)
    (heq : (shutdownLoop after ids c₁).2 = .await pc) :
    ∀ fd ∈ pc.fds, fd ∈ own ∨ fd ∈ c.held := by
  induction ids generalizing c₁ with
  | nil =>
      intro fd hfd
      apply Or.inr
      rw [← held_congr hslots]
      rw [shutdownLoop] at heq
      cases hall : c₁.allFds with
      | nil =>
          rw [hall] at heq
          cases heq
      | cons head tail =>
          rw [hall] at heq
          cases heq
          rw [held, hall]
          exact hfd
  | cons id rest ih =>
      rw [shutdownLoop] at heq
      have hflush := (@flushStart_carries c₁ id own)
      generalize c₁.flushStart id = y at heq hflush
      obtain ⟨c₂, pc' | value | _⟩ := y
      · cases heq
        rw [← held_congr hslots]
        exact hflush.hand pc' rfl
      · exact ih (hflush.slots.trans hslots) heq
      · cases heq

theorem shutdownResume_hand {pc : ShutdownPc} {reply : Reply}
    {x : Cache × Flow ShutdownPc Unit}
    (hresume : c.shutdownResume after pc reply = some x) (pc' : ShutdownPc)
    (heq : x.2 = .await pc') : ∀ fd ∈ pc'.fds,
      fd ∈ pc.fds ++ reply.fds ∨ fd ∈ (c.store pc.target reply).held := by
  unfold shutdownResume at hresume
  split at hresume
  · cases hresume
    refine shutdownLoop_hand _ ?_ pc' heq
    rfl
  · next id rest pc =>
    obtain ⟨y, hy, rfl⟩ := Option.map_eq_some_iff.mp hresume
    have hflush := flushResume_carries hy
    obtain ⟨c₂, pc₂ | value | _⟩ := y
    · cases heq
      exact hflush.hand pc₂ rfl
    · exact shutdownLoop_hand rest hflush.slots pc' heq
    · cases heq
  · next fd rest _ =>
    cases hresume
    cases rest with
    | nil => cases heq
    | cons head tail =>
        cases heq
        intro fd' hfd'
        exact .inl (List.mem_append_left _ (List.mem_cons_of_mem fd hfd'))
  · cases hresume

end Shutdown

section Clean

variable {c : Cache}

/-- `clean_stale_fds` takes a descriptor for this mark. -/
def Ripe (c : Cache) : Id × FdKind → Prop
  | (id, kind) => ∃ entry, c.lookup id = some entry ∧
      match kind with
      | .read => entry.readInflight = 0 ∧ entry.readFd.isSome
      | .write => entry.writeInflight = 0 ∧ entry.writeFd.isSome

theorem takeStale_held (c : Cache) (mark : Id × FdKind) :
    (c.takeStale mark).1.held + ((c.takeStale mark).2.1.toList : Multiset Fd) =
      c.held := by
  obtain ⟨id, kind⟩ := mark
  unfold takeStale
  dsimp only
  split
  · exact add_zero _
  · next entry hentry =>
    cases kind with
    | read =>
        dsimp only
        split_ifs
        · have hmove := held_modifyEntry hentry (setReadFd none)
          simp only [entryFds, setReadFd, ← Multiset.coe_add] at hmove
          apply add_right_cancel (b := (entry.writeFd.toList : Multiset Fd))
          rw [add_assoc, hmove]
          simp
        · exact add_zero _
    | write =>
        dsimp only
        split_ifs
        · have hmove := held_modifyEntry hentry (setWriteFd none)
          simp only [entryFds, setWriteFd, ← Multiset.coe_add] at hmove
          apply add_right_cancel (b := (entry.readFd.toList : Multiset Fd))
          rw [add_assoc, add_comm (entry.writeFd.toList : Multiset Fd), hmove]
          simp
        · exact add_zero _

theorem takeStales_held (marks : List (Id × FdKind)) (c : Cache) :
    (takeStales marks c).1.held + ((takeStales marks c).2.1 : Multiset Fd) =
      c.held := by
  induction marks generalizing c with
  | nil => exact add_zero _
  | cons mark rest ih =>
      simp only [takeStales, ← Multiset.coe_add]
      rw [add_comm (((c.takeStale mark).2.1).toList : Multiset Fd), ← add_assoc,
        ih]
      exact c.takeStale_held mark

theorem lookup_modifyEntry_self {id : Id} {f : LookupEntry → LookupEntry}
    (hf : ∀ entry, c.lookup id = some entry → f entry = entry) :
    (c.modifyEntry id f).lookup = c.lookup := by
  funext id'
  rw [lookup_modifyEntry]
  split_ifs with heq
  · subst heq
    cases hentry : c.lookup id' with
    | none => rfl
    | some entry => exact congrArg some (hf entry hentry)
  · rfl

/-- A mark for which nothing is taken leaves the table alone. -/
theorem takeStale_none {mark : Id × FdKind}
    (hnone : (c.takeStale mark).2.1 = none) :
    (c.takeStale mark).1.lookup = c.lookup ∧ ¬ c.Ripe mark := by
  obtain ⟨id, kind⟩ := mark
  unfold takeStale at hnone ⊢
  dsimp only at hnone ⊢
  cases hentry : c.lookup id with
  | none =>
      refine ⟨rfl, ?_⟩
      rintro ⟨entry, hsome, -⟩
      cases hentry.symm.trans hsome
  | some entry =>
      rw [hentry] at hnone
      have hself : ∀ f : LookupEntry → LookupEntry, f entry = entry →
          (c.modifyEntry id f).lookup = c.lookup := by
        intro f hf
        apply lookup_modifyEntry_self
        intro other hother
        cases hentry.symm.trans hother
        exact hf
      cases kind with
      | read =>
          dsimp only at hnone ⊢
          split_ifs at hnone ⊢ with hidle
          · refine ⟨hself _ ?_, ?_⟩
            · rw [setReadFd, ← hnone]
            · rintro ⟨other, hother, -, hsome⟩
              cases hentry.symm.trans hother
              exact Option.not_isSome_iff_eq_none.mpr hnone hsome
          · refine ⟨rfl, ?_⟩
            rintro ⟨other, hother, hzero, -⟩
            cases hentry.symm.trans hother
            exact hidle hzero
      | write =>
          dsimp only at hnone ⊢
          split_ifs at hnone ⊢ with hidle
          · refine ⟨hself _ ?_, ?_⟩
            · rw [setWriteFd, ← hnone]
            · rintro ⟨other, hother, -, hsome⟩
              cases hentry.symm.trans hother
              exact Option.not_isSome_iff_eq_none.mpr hnone hsome
          · refine ⟨rfl, ?_⟩
            rintro ⟨other, hother, hzero, -⟩
            cases hentry.symm.trans hother
            exact hidle hzero

theorem Ripe.congr {c' : Cache} (hlookup : c'.lookup = c.lookup)
    {mark : Id × FdKind} (hripe : c.Ripe mark) : c'.Ripe mark := by
  obtain ⟨entry, hentry, hkind⟩ := hripe
  refine ⟨entry, ?_, hkind⟩
  rw [hlookup]
  exact hentry

/-- If nothing is taken at all, no mark was ripe. -/
theorem takeStales_nil (marks : List (Id × FdKind)) (c : Cache)
    (hnil : (takeStales marks c).2.1 = []) :
    (takeStales marks c).1.lookup = c.lookup ∧ ∀ mark ∈ marks, ¬ c.Ripe mark := by
  induction marks generalizing c with
  | nil => exact ⟨rfl, nofun⟩
  | cons mark rest ih =>
      simp only [takeStales, List.append_eq_nil_iff] at hnil ⊢
      obtain ⟨hhead, hripe⟩ :=
        takeStale_none (Option.toList_eq_nil_iff.mp hnil.1)
      obtain ⟨htail, hrest⟩ := ih _ hnil.2
      refine ⟨htail.trans hhead, fun other hother => ?_⟩
      rcases List.mem_cons.mp hother with rfl | hmem
      · exact hripe
      · exact fun h => hrest other hmem (h.congr hhead)

/-- The entries that `clean_stale_fds` removes hold no descriptor. -/
def FreeBare (c : Cache) : Prop :=
  ∀ id, (c.lookup id).any LookupEntry.isFree → c.Bare id

theorem slots_eraseEntry (c : Cache) (id id' : Id) :
    (c.eraseEntry id).slots id' = if id' = id then none else c.slots id' := by
  simp only [slots, lookup, eraseEntry]
  split_ifs with heq
  · rw [heq, AList.lookup_erase]
    rfl
  · rw [AList.lookup_erase_ne heq]

theorem eraseEntry_held (c : Cache) (id : Id) :
    ∃ dropped, (c.eraseEntry id).held + dropped = c.held ∧
      (c.Bare id → dropped = 0) := by
  cases hentry : c.lookup id with
  | none =>
      refine ⟨0, ?_, fun _ => rfl⟩
      rw [add_zero]
      apply held_congr
      funext id'
      rw [slots_eraseEntry]
      split_ifs with heq
      · rw [heq, slots, hentry]
        rfl
      · rfl
  | some entry =>
      refine ⟨entryFds entry, ?_, fun hbare => ?_⟩
      · rw [held_eraseEntry hentry, add_comm]
      · rw [hbare.entryFds_eq hentry]
        rfl

theorem foldl_eraseEntry_held (ids : List Id) (c : Cache) :
    ∃ dropped, (ids.foldl eraseEntry c).held + dropped = c.held ∧
      ((∀ id ∈ ids, c.Bare id) → dropped = 0) := by
  induction ids generalizing c with
  | nil => exact ⟨0, add_zero _, fun _ => rfl⟩
  | cons head tail ih =>
      obtain ⟨first, hfirst, hfirst₀⟩ := c.eraseEntry_held head
      obtain ⟨others, hothers, hothers₀⟩ := ih (c.eraseEntry head)
      refine ⟨others + first, ?_, fun hbare => ?_⟩
      · rw [List.foldl_cons, ← add_assoc, hothers, hfirst]
      · rw [hfirst₀ (hbare head List.mem_cons_self), add_zero]
        apply hothers₀
        intro id hid fds hslots
        rw [slots_eraseEntry] at hslots
        split_ifs at hslots
        exact hbare id (List.mem_cons_of_mem head hid) fds hslots

theorem dropFree_held (c : Cache) :
    ∃ dropped, c.dropFree.held + dropped = c.held ∧
      (c.FreeBare → dropped = 0) := by
  obtain ⟨dropped, hheld, hzero⟩ := foldl_eraseEntry_held
    (c.table.keys.filter fun id => (c.lookup id).any LookupEntry.isFree) c
  refine ⟨dropped, hheld, fun hfree => hzero fun id hid => ?_⟩
  exact hfree id (List.mem_filter.mp hid).2

/-- Nothing is left to close only if the free entries hold no descriptor. -/
def CleanCareful (c : Cache) : ClosePc → Prop
  | .start => (∀ mark ∈ c.staleFds, ¬ c.Ripe mark) → c.FreeBare
  | .closing _ rest => rest = [] → c.FreeBare

theorem cleanClose_held (c : Cache) (fds : List Fd) :
    ∃ dropped, (c.cleanClose fds).1.held +
        closesOf ClosePc.fds (c.cleanClose fds).2 + dropped = c.held + fds ∧
      ((fds = [] → c.FreeBare) → dropped = 0) := by
  cases fds with
  | nil =>
      obtain ⟨dropped, hheld, hzero⟩ := c.dropFree_held
      refine ⟨dropped, ?_, fun hfree => hzero (hfree rfl)⟩
      rw [Multiset.coe_nil, add_zero, ← hheld]
      exact congrArg (· + dropped) (add_zero _)
  | cons fd rest => exact ⟨0, add_zero _, fun _ => rfl⟩

theorem cleanStaleFdsResume_held {pc : ClosePc} {reply : Reply}
    {x : Cache × Flow ClosePc Unit}
    (hresume : c.cleanStaleFdsResume pc reply = some x) :
    ∃ dropped, x.1.held + closesOf ClosePc.fds x.2 + dropped =
        c.held + pc.pending ∧ (c.CleanCareful pc → dropped = 0) := by
  unfold cleanStaleFdsResume at hresume
  split at hresume
  · cases hresume
    obtain ⟨dropped, hheld, hzero⟩ := cleanClose_held
      { (takeStales c.staleFds c).1 with
        staleFds := (takeStales c.staleFds c).2.2 }
      (takeStales c.staleFds c).2.1
    refine ⟨dropped, hheld.trans ?_, fun hcareful => hzero fun hnil => ?_⟩
    · exact (takeStales_held c.staleFds c).trans (add_zero _).symm
    · obtain ⟨hlookup, hripe⟩ := takeStales_nil c.staleFds c hnil
      intro id hfree fds hslots
      change ((takeStales c.staleFds c).1.lookup id).any _ at hfree
      change ((takeStales c.staleFds c).1.lookup id).map _ = _ at hslots
      rw [hlookup] at hfree hslots
      exact hcareful hripe id hfree fds hslots
  · next fd rest _ =>
    cases hresume
    exact c.cleanClose_held rest
  · cases hresume

theorem cleanClose_hand {fds : List Fd} {pc : ClosePc}
    (heq : (c.cleanClose fds).2 = .await pc) : pc.fds = fds := by
  cases fds with
  | nil => cases heq
  | cons fd rest =>
      cases heq
      rfl

theorem cleanStaleFdsResume_hand {pc : ClosePc} {reply : Reply}
    {x : Cache × Flow ClosePc Unit}
    (hresume : c.cleanStaleFdsResume pc reply = some x) (pc' : ClosePc)
    (heq : x.2 = .await pc') :
    ∀ fd ∈ pc'.fds, fd ∈ pc.fds ∨ fd ∈ c.held := by
  unfold cleanStaleFdsResume at hresume
  split at hresume
  · cases hresume
    intro fd hfd
    rw [cleanClose_hand heq] at hfd
    apply Or.inr
    rw [← takeStales_held c.staleFds c, Multiset.mem_add]
    exact .inr hfd
  · cases hresume
    intro fd hfd
    rw [cleanClose_hand heq] at hfd
    exact .inl (List.mem_cons_of_mem _ hfd)
  · cases hresume

end Clean

section Calls

theorem newLookup_held (c : Cache) (id : Id) (path : Path) :
    (c.newLookup id path).held = c.held := by
  unfold newLookup
  cases hentry : c.lookup id with
  | some entry => rfl
  | none =>
      obtain ⟨dropped, hheld, hzero⟩ := c.eraseEntry_held id
      have hbare : c.Bare id := by
        intro fds hslots
        rw [slots, hentry] at hslots
        cases hslots
      rw [hzero hbare, add_zero] at hheld
      rw [← hheld]
      simp only [held, allFds, AList.entries_insert, List.flatMap_cons]
      rfl

theorem hintOpen_held (c : Cache) (id : Id) (path : Path) (mode : OpenMode) :
    (c.hintOpen id path mode).1.held = c.held := by
  rw [← c.newLookup_held id path]
  unfold hintOpen
  dsimp only
  split
  · rfl
  · split_ifs
    · rfl
    all_goals
      apply held_congr
      exact slots_modifyEntry _ id _ fun _ => rfl

theorem hintClose_held (c : Cache) (id : Id) (mode : OpenMode) :
    (c.hintClose id mode).1.held = c.held := by
  unfold hintClose
  dsimp only
  split
  · rfl
  · split_ifs
    · rfl
    all_goals
      apply held_congr
      exact slots_modifyEntry _ id _ fun _ => rfl

/-- A descriptor that is stored into an empty slot joins the others. -/
theorem store_held {c : Cache} {id : Id} {kind : FdKind} {fd : Fd}
    {entry : LookupEntry} (hentry : c.lookup id = some entry)
    (hempty : entry.fdOf kind = none) :
    (c.store (some (id, kind)) (.opened (.ok fd))).held = fd ::ₘ c.held := by
  have hmove := held_modifyEntry hentry (setFd kind (some fd))
  have hfds : (entryFds (setFd kind (some fd) entry) : Multiset Fd) =
      fd ::ₘ (entryFds entry : Multiset Fd) := by
    cases kind with
    | read =>
        change entry.readFd = none at hempty
        simp [entryFds, setFd, setReadFd, hempty]
    | write =>
        change entry.writeFd = none at hempty
        simp only [entryFds, setFd, setWriteFd, hempty]
        rw [← Multiset.coe_add, ← Multiset.coe_add, add_comm]
        simp
  rw [hfds, Multiset.add_cons, ← Multiset.cons_add] at hmove
  exact add_right_cancel hmove

/-- Apart from the reply, nothing comes into the slots. -/
theorem mem_held_store {c : Cache} {target : Option (Id × FdKind)}
    {reply : Reply} {fd : Fd} (hfd : fd ∈ (c.store target reply).held) :
    fd ∈ c.held ∨ fd ∈ reply.fds := by
  unfold store at hfd
  split at hfd
  · next id kind fd' =>
    obtain ⟨id', fds, hslots, hmem⟩ := mem_held.mp hfd
    rw [slots_modifyEntry_apply] at hslots
    split_ifs at hslots with heq
    · obtain ⟨entry, hentry, rfl⟩ := Option.map_eq_some_iff.mp hslots
      by_cases hnew : fd = fd'
      · exact .inr (List.mem_singleton.mpr hnew)
      · refine .inl (mem_held_of_entry hentry ?_)
        cases kind <;>
          simp [entryFds, setFd, setReadFd, setWriteFd] at hmem <;>
          grind
    · exact .inl (mem_held.mpr ⟨id', fds, hslots, hmem⟩)
  · exact .inl hfd

end Calls

end Cache

namespace Task

variable {c c' : Cache} {task task' : Task} {reply : Reply}

/-- The descriptors a suspended task holds. -/
def fds : Task → List Fd
  | .readAt _ pc => pc.fds
  | .writeAt _ _ pc => pc.fds
  | .flush _ pc => pc.fds
  | .truncate _ _ _ pc => pc.fds
  | .invalidateOne _ _ pc => pc.fds
  | .shutdown _ pc => pc.fds
  | .cleanStaleFds pc => pc.fds
  | _ => []

/-- The slot for the descriptor that a suspended task waits for. -/
def target (c : Cache) : Task → Option (Id × FdKind)
  | .readAt r pc => pc.target c r
  | .writeAt _ _ pc => pc.target c
  | .flush id pc => pc.target id
  | .truncate _ _ _ pc => pc.target c
  | .invalidateOne id _ pc => pc.target id
  | .shutdown _ pc => pc.target
  | _ => none

def closes : Task → List Fd
  | .shutdown _ pc => pc.closes
  | .cleanStaleFds pc => pc.fds
  | _ => []

def pending : Task → List Fd
  | .shutdown _ pc => pc.pending
  | .cleanStaleFds pc => pc.pending
  | _ => []

theorem pending_subset_fds (task : Task) : task.pending ⊆ task.fds := by
  intro fd hfd
  cases task with
  | shutdown after pc =>
      cases pc with
      | closing fd' rest => exact List.mem_cons_of_mem fd' hfd
      | _ => exact absurd hfd List.not_mem_nil
  | cleanStaleFds pc =>
      cases pc with
      | start => exact absurd hfd List.not_mem_nil
      | closing fd' rest => exact List.mem_cons_of_mem fd' hfd
  | _ => exact absurd hfd List.not_mem_nil

/-- Where a resumption of a task could drop descriptors: the entry that
`invalidate_one` removes, the free entries at the end of `clean_stale_fds`, the
table at the end of `shutdown`. -/
def Sparing (c : Cache) (reply : Reply) : Task → Prop
  | .invalidateOne id _ _ => c.Bare id ∧ ∀ fd, reply ≠ .opened (.ok fd)
  | .shutdown _ pc => ∀ fd, pc = .closing fd [] → c.held = 0
  | .cleanStaleFds pc => c.CleanCareful pc
  | _ => True

/-- What a coroutine holds where it is suspended next. -/
theorem ofFlow_cases {π α : Type} {await : π → Task} {done : α → Task}
    {x : Cache × Flow π α} (hflow : ofFlow await done x = (c', task')) :
    x.1 = c' ∧ ((∃ pc, x.2 = .await pc ∧ task' = await pc) ∨
      (∃ value, x.2 = .done value ∧ task' = done value) ∨
      (x.2 = .crash ∧ task' = .crashed)) := by
  obtain ⟨c₁, pc | value | _⟩ := x <;> cases hflow
  · exact ⟨rfl, .inl ⟨pc, rfl, rfl⟩⟩
  · exact ⟨rfl, .inr (.inl ⟨value, rfl, rfl⟩)⟩
  · exact ⟨rfl, .inr (.inr ⟨rfl, rfl⟩)⟩

/-- What a resumption of a task does to the descriptors. -/
structure Passes (c : Cache) (task : Task) (reply : Reply) (c' : Cache)
    (task' : Task) : Prop where
  held : ∃ dropped, c'.held + task'.closes + dropped =
      (c.store (task.target c) reply).held + task.pending ∧
    (task.Sparing c reply → dropped = 0)
  hand : ∀ fd ∈ task'.fds, fd ∈ task.fds ++ reply.fds ∨
    fd ∈ (c.store (task.target c) reply).held

/-- A task that only stores the descriptor of its reply. -/
theorem Passes.of_carries {π α : Type} {fds : π → List Fd} {await : π → Task}
    {done : α → Task} {x : Cache × Flow π α}
    (hx : Cache.Carries fds (task.fds ++ reply.fds)
      (c.store (task.target c) reply) x)
    (hflow : ofFlow await done x = (c', task')) (hrest : task.pending = [])
    (hawait : ∀ pc, (await pc).fds = fds pc ∧ (await pc).closes = [])
    (hdone : ∀ value, (done value).fds = [] ∧ (done value).closes = []) :
    Passes c task reply c' task' := by
  obtain ⟨rfl, hcases⟩ := ofFlow_cases hflow
  have hheld := Cache.held_congr hx.slots
  rcases hcases with ⟨pc, hpc, rfl⟩ | ⟨value, -, rfl⟩ | ⟨-, rfl⟩
  · refine ⟨⟨0, ?_, fun _ => rfl⟩, fun fd hfd => ?_⟩
    · rw [(hawait pc).2, hrest, hheld, add_zero]
    · rw [(hawait pc).1] at hfd
      exact hx.hand pc hpc fd hfd
  · refine ⟨⟨0, ?_, fun _ => rfl⟩, fun fd hfd => ?_⟩
    · rw [(hdone value).2, hrest, hheld, add_zero]
    · rw [(hdone value).1] at hfd
      exact absurd hfd List.not_mem_nil
  · refine ⟨⟨0, ?_, fun _ => rfl⟩, nofun⟩
    rw [hrest, hheld, add_zero]
    rfl

theorem resume_passes (hresume : task.resume c reply = some (c', task')) :
    Passes c task reply c' task' := by
  unfold resume at hresume
  split at hresume
  · obtain ⟨x, hx, hflow⟩ := Option.map_eq_some_iff.mp hresume
    exact .of_carries (Cache.readAtResume_carries hx) hflow rfl
      (fun _ => ⟨rfl, rfl⟩) fun _ => ⟨rfl, rfl⟩
  · obtain ⟨x, hx, hflow⟩ := Option.map_eq_some_iff.mp hresume
    exact .of_carries (Cache.writeAtResume_carries hx) hflow rfl
      (fun _ => ⟨rfl, rfl⟩) fun _ => ⟨rfl, rfl⟩
  · obtain ⟨x, hx, hflow⟩ := Option.map_eq_some_iff.mp hresume
    exact .of_carries (Cache.flushResume_carries hx) hflow rfl
      (fun _ => ⟨rfl, rfl⟩) fun _ => ⟨rfl, rfl⟩
  · obtain ⟨x, hx, hflow⟩ := Option.map_eq_some_iff.mp hresume
    exact .of_carries (Cache.truncateResume_carries hx) hflow rfl
      (fun _ => ⟨rfl, rfl⟩) fun _ => ⟨rfl, rfl⟩
  · next id shouldFlush pc =>
    obtain ⟨x, hx, hflow⟩ := Option.map_eq_some_iff.mp hresume
    obtain ⟨dropped, hheld, hzero⟩ := Cache.invalidateOneResume_held hx
    obtain ⟨rfl, hcases⟩ := ofFlow_cases hflow
    have hcloses : task'.closes = [] := by
      rcases hcases with ⟨pc, -, rfl⟩ | ⟨value, -, rfl⟩ | ⟨-, rfl⟩ <;> rfl
    refine ⟨⟨dropped, ?_, hzero⟩, fun fd hfd => ?_⟩
    · rw [hcloses, Multiset.coe_nil, add_zero, hheld]
      exact (add_zero _).symm
    · rcases hcases with ⟨pc', hpc', rfl⟩ | ⟨value, -, rfl⟩ | ⟨-, rfl⟩
      · exact Cache.invalidateOneResume_hand hx pc' hpc' fd hfd
      · exact absurd hfd List.not_mem_nil
      · exact absurd hfd List.not_mem_nil
  · obtain ⟨x, hx, hflow⟩ := Option.map_eq_some_iff.mp hresume
    obtain ⟨dropped, hheld, hzero⟩ := Cache.shutdownResume_held hx
    obtain ⟨rfl, hcases⟩ := ofFlow_cases hflow
    rcases hcases with ⟨pc', hpc', rfl⟩ | ⟨value, hvalue, rfl⟩ | ⟨hcrash, rfl⟩
    · rw [hpc'] at hheld
      exact ⟨⟨dropped, hheld, hzero⟩, Cache.shutdownResume_hand hx pc' hpc'⟩
    · rw [hvalue] at hheld
      exact ⟨⟨dropped, hheld, hzero⟩, nofun⟩
    · rw [hcrash] at hheld
      exact ⟨⟨dropped, hheld, hzero⟩, nofun⟩
  · obtain ⟨x, hx, hflow⟩ := Option.map_eq_some_iff.mp hresume
    obtain ⟨dropped, hheld, hzero⟩ := Cache.cleanStaleFdsResume_held hx
    obtain ⟨rfl, hcases⟩ := ofFlow_cases hflow
    rcases hcases with ⟨pc', hpc', rfl⟩ | ⟨value, hvalue, rfl⟩ | ⟨hcrash, rfl⟩
    · rw [hpc'] at hheld
      refine ⟨⟨dropped, hheld, hzero⟩, fun fd hfd => ?_⟩
      exact (Cache.cleanStaleFdsResume_hand hx pc' hpc' fd hfd).imp_left
        (List.mem_append_left _)
    · rw [hvalue] at hheld
      exact ⟨⟨dropped, hheld, hzero⟩, nofun⟩
    · rw [hcrash] at hheld
      exact ⟨⟨dropped, hheld, hzero⟩, nofun⟩
  · cases hresume

/-- A call leaves the slots alone. -/
theorem start_held (c : Cache) (call : Call) :
    (call.start c).1.held = c.held := by
  cases call with
  | hintOpen id path mode => exact c.hintOpen_held id path mode
  | hintClose id mode => exact c.hintClose_held id mode
  | write id input offset =>
      simp only [Call.start]
      split
      · rfl
      · exact Cache.held_congr
          (c.slots_modifyEntry id (Cache.setEntryDirty true) fun _ => rfl)
  | rename id path =>
      exact Cache.held_congr (c.slots_modifyEntry id _ fun _ => rfl)
  | read id len offset =>
      simp only [Call.start]
      split <;> rfl
  | _ => rfl

/-- The tasks a call starts hold nothing. -/
theorem start_hand (c : Cache) (call : Call) :
    ∀ task ∈ (call.start c).2, task.fds = [] ∧ task.pending = [] := by
  cases call with
  | read id len offset =>
      intro task htask
      simp only [Call.start] at htask
      split at htask
      · rw [List.mem_singleton.mp htask]
        exact ⟨rfl, rfl⟩
      · obtain ⟨r, -, rfl⟩ := List.mem_map.mp htask
        exact ⟨rfl, rfl⟩
  | write id input offset =>
      intro task htask
      simp only [Call.start] at htask
      split at htask
      · rw [List.mem_singleton.mp htask]
        exact ⟨rfl, rfl⟩
      · obtain ⟨r, -, rfl⟩ := List.mem_map.mp htask
        exact ⟨rfl, rfl⟩
  | _ =>
      intro task htask
      rw [List.mem_singleton.mp htask]
      exact ⟨rfl, rfl⟩

end Task

end Madbfs
