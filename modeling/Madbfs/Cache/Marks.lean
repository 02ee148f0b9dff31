/-
The marks on stale descriptors.  `hint_close` marks the descriptors of a file
that nobody has open any more, `hint_open` cancels the marks of a file that is
opened again, and `clean_stale_fds` takes the marked descriptors out of their
slots where no request is under way.
-/
import Madbfs.Cache.Inflight

namespace Madbfs

namespace Cache

variable {c : Cache}

/-- The descriptor in a slot of an entry. -/
def fdSlot (c : Cache) (use : Id × FdKind) : Option Fd :=
  (c.lookup use.1).bind fun entry => entry.fdOf use.2

/-- `clean_stale_fds` takes this descriptor out of its slot. -/
def Takes (c : Cache) (use : Id × FdKind) (fd : Fd) : Prop :=
  c.fdSlot use = some fd ∧ (takeStales c.staleFds c).1.fdSlot use = none

theorem takeStale_cases (c : Cache) (use : Id × FdKind) :
    ((c.takeStale use).1 = c ∧ (c.takeStale use).2.1 = none) ∨
      c.inflight use = 0 ∧ (c.takeStale use).2.1 = c.fdSlot use ∧
      (c.takeStale use).1 = c.modifyEntry use.1 (setFd use.2 none) := by
  obtain ⟨id, kind⟩ := use
  unfold takeStale fdSlot
  dsimp only
  cases hentry : c.lookup id with
  | none => exact .inl ⟨rfl, rfl⟩
  | some entry =>
      cases kind with
      | read =>
          dsimp only
          split_ifs with hidle
          · refine .inr ⟨?_, rfl, rfl⟩
            rw [inflight, hentry]
            exact hidle
          · exact .inl ⟨rfl, rfl⟩
      | write =>
          dsimp only
          split_ifs with hidle
          · refine .inr ⟨?_, rfl, rfl⟩
            rw [inflight, hentry]
            exact hidle
          · exact .inl ⟨rfl, rfl⟩

theorem fdOf_setFd_none (entry : LookupEntry) (kind kind' : FdKind) :
    (setFd kind none entry).fdOf kind' =
      if kind = kind' then none else entry.fdOf kind' := by
  cases kind <;> cases kind' <;> rfl

theorem fdSlot_setFd_none (c : Cache) (mark use : Id × FdKind) :
    (c.modifyEntry mark.1 (setFd mark.2 none)).fdSlot use =
      if mark = use then none else c.fdSlot use := by
  obtain ⟨id, kind⟩ := mark
  obtain ⟨id', kind'⟩ := use
  rw [fdSlot, fdSlot, lookup_modifyEntry]
  by_cases hid : id' = id
  · subst hid
    rw [if_pos rfl]
    cases c.lookup id' with
    | none => simp
    | some entry =>
        simp only [Option.map_some, Option.bind_some, fdOf_setFd_none,
          Prod.mk.injEq, true_and]
  · rw [if_neg hid, if_neg fun heq => hid (congrArg Prod.fst heq).symm]

theorem openers_setFd (kind : FdKind) (fd : Option Fd) (entry : LookupEntry)
    (k : FdKind) : (setFd kind fd entry).openers k = entry.openers k := by
  cases kind <;> rfl

theorem inflight_setFd (kind : FdKind) (fd : Option Fd) (entry : LookupEntry)
    (k : FdKind) : (setFd kind fd entry).inflight k = entry.inflight k := by
  cases kind <;> rfl

theorem takeStale_shift (c : Cache) (use : Id × FdKind)
    (uses : Multiset (Id × FdKind)) :
    Shift (c, uses) ((c.takeStale use).1, uses) := by
  rcases takeStale_cases c use with ⟨heq, -⟩ | ⟨-, -, heq⟩
  · rw [heq]
    exact .refl _
  · rw [heq]
    exact shift_entry c use.1 _ (openers_setFd use.2 none)
      (inflight_setFd use.2 none) uses

theorem takeStale_inflight (c : Cache) (use : Id × FdKind) :
    (c.takeStale use).1.inflight = c.inflight := by
  rcases takeStale_cases c use with ⟨heq, -⟩ | ⟨-, -, heq⟩
  · rw [heq]
  · rw [heq]
    funext other
    have hmoved := inflight_modifyEntry c use.1 (f := setFd use.2 none)
      (n := fun _ => 0) (fun entry k => by
        rw [inflight_setFd, Int.add_zero]) other
    simpa using hmoved

/-- A slot is emptied only by its own mark, and if nothing is under way. -/
theorem takeStale_fdSlot (c : Cache) (mark use : Id × FdKind) :
    (c.takeStale mark).1.fdSlot use = c.fdSlot use ∨
      mark = use ∧ c.inflight use = 0 ∧
        (c.takeStale mark).1.fdSlot use = none := by
  rcases takeStale_cases c mark with ⟨heq, -⟩ | ⟨hidle, -, heq⟩
  · exact .inl (by rw [heq])
  · rw [heq, fdSlot_setFd_none]
    split_ifs with hsame
    · exact .inr ⟨hsame, hsame ▸ hidle, rfl⟩
    · exact .inl rfl

/-- The descriptor that is taken was in the slot of the mark. -/
theorem takeStale_some {use : Id × FdKind} {fd : Fd}
    (hfd : (c.takeStale use).2.1 = some fd) :
    c.fdSlot use = some fd ∧ (c.takeStale use).1.fdSlot use = none := by
  rcases takeStale_cases c use with ⟨-, hnone⟩ | ⟨-, hslot, heq⟩
  · rw [hnone] at hfd
    cases hfd
  · refine ⟨hslot.symm.trans hfd, ?_⟩
    rw [heq, fdSlot_setFd_none, if_pos rfl]

theorem takeStales_shift (marks : List (Id × FdKind)) (c : Cache)
    (uses : Multiset (Id × FdKind)) :
    Shift (c, uses) ((takeStales marks c).1, uses) := by
  induction marks generalizing c with
  | nil => exact .refl _
  | cons mark rest ih => exact (takeStale_shift c mark uses).trans (ih _)

/-- The slots that the loop over the marks empties. -/
theorem takeStales_fdSlot (marks : List (Id × FdKind)) (c : Cache)
    (use : Id × FdKind) :
    (takeStales marks c).1.fdSlot use = c.fdSlot use ∨
      use ∈ marks ∧ c.inflight use = 0 ∧
        (takeStales marks c).1.fdSlot use = none := by
  induction marks generalizing c with
  | nil => exact .inl rfl
  | cons mark rest ih =>
      rcases ih (c.takeStale mark).1 with hsame | ⟨hmem, hidle, hnone⟩
      · rcases takeStale_fdSlot c mark use with hhead | ⟨rfl, hidle, hnone⟩
        · exact .inl (hsame.trans hhead)
        · exact .inr ⟨List.mem_cons_self, hidle, hsame.trans hnone⟩
      · rw [takeStale_inflight] at hidle
        exact .inr ⟨List.mem_cons_of_mem mark hmem, hidle, hnone⟩

/-- Every descriptor on the list to be closed was taken out of a slot. -/
theorem takeStales_takes (marks : List (Id × FdKind)) (c : Cache) {fd : Fd}
    (hmem : fd ∈ (takeStales marks c).2.1) :
    ∃ use, c.fdSlot use = some fd ∧
      (takeStales marks c).1.fdSlot use = none := by
  induction marks generalizing c with
  | nil => exact absurd hmem List.not_mem_nil
  | cons mark rest ih =>
      rcases List.mem_append.mp hmem with hhead | htail
      · obtain ⟨hslot, hnone⟩ := takeStale_some (Option.mem_toList.mp hhead)
        refine ⟨mark, hslot, ?_⟩
        rcases takeStales_fdSlot rest (c.takeStale mark).1 mark with
          hsame | ⟨-, -, hafter⟩
        · exact hsame.trans hnone
        · exact hafter
      · obtain ⟨use, hslot, hnone⟩ := ih (c.takeStale mark).1 htail
        refine ⟨use, ?_, hnone⟩
        rcases takeStale_fdSlot c mark use with hsame | ⟨-, -, hempty⟩
        · exact hsame.symm.trans hslot
        · rw [hempty] at hslot
          cases hslot

theorem takeStales_marks (marks : List (Id × FdKind)) (c : Cache) :
    (takeStales marks c).2.2 ⊆ marks := by
  induction marks generalizing c with
  | nil => exact List.Subset.refl _
  | cons mark rest ih =>
      simp only [takeStales]
      split
      · exact List.cons_subset_cons mark (ih _)
      · exact List.subset_cons_of_subset mark (ih _)

theorem openers_eraseEntry (c : Cache) (id : Id) (use : Id × FdKind) :
    (c.eraseEntry id).openers use =
      if use.1 = id then 0 else c.openers use := by
  rw [openers, openers, lookup, eraseEntry]
  split_ifs with heq
  · rw [heq, AList.lookup_erase]
    rfl
  · rw [AList.lookup_erase_ne heq]
    rfl

theorem inflight_eraseEntry (c : Cache) (id : Id) (use : Id × FdKind) :
    (c.eraseEntry id).inflight use =
      if use.1 = id then 0 else c.inflight use := by
  rw [inflight, inflight, lookup, eraseEntry]
  split_ifs with heq
  · rw [heq, AList.lookup_erase]
    rfl
  · rw [AList.lookup_erase_ne heq]
    rfl

theorem isFree_counters {entry : LookupEntry} (hfree : entry.isFree = true)
    (kind : FdKind) : entry.openers kind = 0 ∧ entry.inflight kind = 0 := by
  simp only [LookupEntry.isFree, Bool.and_eq_true, beq_iff_eq] at hfree
  obtain ⟨⟨⟨⟨⟨-, hreader⟩, hwriter⟩, hread⟩, hwrite⟩, -⟩ := hfree
  cases kind
  · exact ⟨hreader, hread⟩
  · exact ⟨hwriter, hwrite⟩

/-- The entry of the file is free if there is one. -/
def FreeAt (c : Cache) (id : Id) : Prop :=
  ∀ entry, c.lookup id = some entry → entry.isFree = true

theorem FreeAt.counters {id : Id} (hfree : c.FreeAt id) (kind : FdKind) :
    c.openers (id, kind) = 0 ∧ c.inflight (id, kind) = 0 := by
  rw [openers, inflight]
  cases hentry : c.lookup id with
  | none => exact ⟨rfl, rfl⟩
  | some entry => exact isFree_counters (hfree entry hentry) kind

theorem eraseEntry_shift {id : Id} (hfree : c.FreeAt id)
    (uses : Multiset (Id × FdKind)) :
    Shift (c, uses) (c.eraseEntry id, uses) := by
  refine ⟨⟨?_, List.Subset.refl _, Nat.le_refl _, fun _ _ => rfl, fun h => h,
    fun use => ?_⟩, fun _ h => h⟩
  · funext use
    obtain ⟨id', kind⟩ := use
    rw [openers_eraseEntry]
    split_ifs with heq
    · rw [show id' = id from heq, (hfree.counters kind).1]
    · rfl
  · obtain ⟨id', kind⟩ := use
    rw [inflight_eraseEntry]
    split_ifs with heq
    · rw [show id' = id from heq, (hfree.counters kind).2]
    · exact Int.le_refl _

theorem foldl_eraseEntry_shift (ids : List Id) {c : Cache}
    (hfree : ∀ id ∈ ids, c.FreeAt id) (uses : Multiset (Id × FdKind)) :
    Shift (c, uses) (ids.foldl eraseEntry c, uses) := by
  induction ids generalizing c with
  | nil => exact .refl _
  | cons id rest ih =>
      have hhead := hfree id List.mem_cons_self
      refine (eraseEntry_shift hhead uses).trans (ih fun id' hmem entry h => ?_)
      by_cases heq : id' = id
      · subst heq
        rw [lookup, eraseEntry, AList.lookup_erase] at h
        cases h
      · rw [lookup, eraseEntry, AList.lookup_erase_ne heq] at h
        exact hfree id' (List.mem_cons_of_mem id hmem) entry h

theorem dropFree_shift (c : Cache) (uses : Multiset (Id × FdKind)) :
    Shift (c, uses) (c.dropFree, uses) := by
  apply foldl_eraseEntry_shift
  intro id hmem entry hentry
  have hfree := (List.mem_filter.mp hmem).2
  rw [hentry] at hfree
  exact hfree

theorem cleanClose_shift (c : Cache) (fds : List Fd) :
    Shift (c, 0) ((c.cleanClose fds).1, 0) := by
  cases fds with
  | nil => exact dropFree_shift c 0
  | cons fd rest => exact .refl _

theorem cleanStaleFdsResume_shift {pc : ClosePc} {reply : Reply}
    {x : Cache × Flow ClosePc Unit}
    (hx : c.cleanStaleFdsResume pc reply = some x) :
    Shift (c, 0) (x.1, 0) := by
  unfold cleanStaleFdsResume at hx
  split at hx
  · obtain rfl := Option.some.inj hx
    have htaken := takeStales_shift c.staleFds c 0
    have hmarked : Shift (c, 0) ({ (takeStales c.staleFds c).1 with
        staleFds := (takeStales c.staleFds c).2.2 }, 0) :=
      ⟨⟨htaken.openers, takeStales_marks c.staleFds c, htaken.next, htaken.key,
        htaken.listed, htaken.inflight⟩, htaken.queue⟩
    exact hmarked.trans (cleanClose_shift _ _)
  · obtain rfl := Option.some.inj hx
    exact cleanClose_shift c _
  · cases hx

/-- The first round of `clean_stale_fds` closes what it has taken. -/
theorem cleanStaleFdsResume_closing {reply : Reply} {fd : Fd}
    {rest : List Fd} {x : Cache × Flow ClosePc Unit}
    (hx : c.cleanStaleFdsResume .start reply = some x)
    (hawait : x.2 = .await (.closing fd rest)) :
    fd :: rest = (takeStales c.staleFds c).2.1 := by
  cases reply with
  | go =>
      obtain rfl := Option.some.inj hx
      exact cleanClose_hand hawait
  | _ => cases hx

section Hints

theorem newLookup_shift (c : Cache) (id : Id) (path : Path) :
    Shift (c, 0) (c.newLookup id path, 0) := by
  unfold newLookup
  split
  · exact .refl _
  · next hentry =>
      have hfree : c.FreeAt id := fun entry h => by
        rw [hentry] at h
        cases h
      have hsame : ∀ id', id' ≠ id →
          (c.table.insert id (LookupEntry.create path)).lookup id' =
            c.table.lookup id' := fun id' hne => AList.lookup_insert_ne hne
      refine ⟨⟨?_, List.Subset.refl _, Nat.le_refl _, fun _ _ => rfl,
        fun h => h, fun use => ?_⟩, fun _ h => h⟩
      · funext ⟨id', kind⟩
        by_cases heq : id' = id
        · subst heq
          rw [(hfree.counters kind).1, openers, lookup, AList.lookup_insert]
          cases kind <;> rfl
        · rw [openers, openers, lookup, hsame id' heq]
          rfl
      · obtain ⟨id', kind⟩ := use
        by_cases heq : id' = id
        · subst heq
          rw [(hfree.counters kind).2, inflight, lookup, AList.lookup_insert]
          cases kind <;> exact Int.le_refl _
        · rw [inflight, inflight, lookup, lookup, hsame id' heq]

/-- The marks say that nobody has the file open. -/
def Unopened (c : Cache) : Prop :=
  ∀ use ∈ c.staleFds, c.openers use = 0

theorem Unopened.tally {s t : Cache × Multiset (Id × FdKind)}
    (hunopened : s.1.Unopened) (htally : Tally s t) : t.1.Unopened := by
  intro use hmem
  rw [htally.openers]
  exact hunopened use (htally.stale hmem)

def counts (reader writer : Nat) : FdKind → Nat
  | .read => reader
  | .write => writer

/-- The open counts of one file change, and with them the marks. -/
def Recounts (c : Cache) (id : Id) (c' : Cache) : Prop :=
  ∃ (count : FdKind → Nat) (marks : List (Id × FdKind)),
    c' = { c.modifyEntry id fun entry =>
        { entry with reader := count .read, writer := count .write } with
      staleFds := marks } ∧
    ∀ use ∈ marks, if use.1 = id then count use.2 = 0 else use ∈ c.staleFds

theorem Recounts.unopened {id : Id} {c' : Cache}
    (hrecounts : c.Recounts id c') (hunopened : c.Unopened) :
    c'.Unopened := by
  obtain ⟨count, marks, rfl, hmarks⟩ := hrecounts
  intro use hmem
  have hmark := hmarks use hmem
  change ((((c.modifyEntry id _).lookup use.1).map _).getD 0) = 0
  rw [lookup_modifyEntry]
  split_ifs at hmark ⊢ with heq
  · cases c.lookup id with
    | none => rfl
    | some entry =>
        obtain ⟨id', kind⟩ := use
        cases kind <;> exact hmark
  · exact hunopened use hmark

/-- The running requests and the pages are left alone. -/
theorem Recounts.shift {id : Id} {c' : Cache} (hrecounts : c.Recounts id c') :
    c'.inflight = c.inflight ∧ c'.lru = c.lru ∧ c'.heap = c.heap ∧
      c'.nextAddr = c.nextAddr ∧ c'.readQueue = c.readQueue := by
  obtain ⟨count, marks, rfl, -⟩ := hrecounts
  refine ⟨?_, modifyEntry_lru _ _ _, modifyEntry_heap _ _ _,
    modifyEntry_nextAddr _ _ _, modifyEntry_readQueue _ _ _⟩
  funext use
  have hmoved := inflight_modifyEntry c id (n := fun _ => 0)
    (f := fun entry =>
      { entry with reader := count .read, writer := count .write })
    (fun entry kind => by cases kind <;> exact (Int.add_zero _).symm) use
  rw [ite_self, Int.add_zero] at hmoved
  exact hmoved

theorem cancelStale_eq (c : Cache) (id : Id) (kind : FdKind) (p : Prop)
    [Decidable p] :
    (if p then c.cancelStale id kind else c) = { c with
      staleFds := c.staleFds.filter fun use => ¬ (p ∧ use = (id, kind)) } := by
  by_cases hp : p
  · simp [hp, cancelStale]
  · simp [hp]

theorem markStale_eq (c : Cache) (id : Id) (kind : FdKind) (p : Prop)
    [Decidable p] :
    (if p then c.markStale id kind else c) = { c with
      staleFds := c.staleFds ++ if p then [(id, kind)] else [] } := by
  by_cases hp : p
  · simp [hp, markStale]
  · simp [hp]

theorem hintOpen_recounts (c : Cache) (id : Id) (path : Path)
    (mode : OpenMode) (hunopened : c.Unopened) :
    (c.hintOpen id path mode).1 = c.newLookup id path ∨
      (c.newLookup id path).Recounts id (c.hintOpen id path mode).1 := by
  have hnew := hunopened.tally (newLookup_shift c id path).toTally
  unfold hintOpen
  generalize c.newLookup id path = c₁ at hnew
  dsimp only at hnew ⊢
  split
  · exact .inl rfl
  · next entry hentry =>
      split
      · exact .inl rfl
      · right
        dsimp only
        rw [cancelStale_eq, cancelStale_eq]
        refine ⟨counts (entry.reader + mode.reads.toNat)
          (entry.writer + mode.writes.toNat), _, rfl, ?_⟩
        intro use hmem
        simp only [List.mem_filter, modifyEntry_staleFds,
          decide_eq_true_eq] at hmem
        obtain ⟨⟨hold, hread⟩, hwrite⟩ := hmem
        split_ifs with heq
        · obtain ⟨id', kind⟩ := use
          obtain rfl : id' = id := heq
          have hzero := hnew (id', kind) hold
          rw [openers, hentry] at hzero
          cases kind with
          | read =>
              have hreader : entry.reader = 0 := hzero
              dsimp only
              by_contra hne
              exact hread ⟨⟨hreader, Nat.pos_of_ne_zero hne⟩, rfl⟩
          | write =>
              have hwriter : entry.writer = 0 := hzero
              dsimp only
              by_contra hne
              exact hwrite ⟨⟨hwriter, Nat.pos_of_ne_zero hne⟩, rfl⟩
        · exact hold

theorem hintClose_recounts (c : Cache) (id : Id) (mode : OpenMode)
    (hunopened : c.Unopened) :
    (c.hintClose id mode).1 = c ∨ c.Recounts id (c.hintClose id mode).1 := by
  unfold hintClose
  split
  · exact .inl rfl
  · next entry hentry =>
      split
      · exact .inl rfl
      · right
        dsimp only
        rw [markStale_eq, markStale_eq]
        refine ⟨counts (entry.reader - mode.reads.toNat)
          (entry.writer - mode.writes.toNat), _, rfl, ?_⟩
        intro use hmem
        simp only [List.mem_append, modifyEntry_staleFds,
          List.mem_ite_nil_right, List.mem_singleton] at hmem
        rcases hmem with (hold | ⟨⟨hreader, -⟩, rfl⟩) | ⟨⟨hwriter, -⟩, rfl⟩
        · split_ifs with heq
          · obtain ⟨id', kind⟩ := use
            obtain rfl : id' = id := heq
            have hzero := hunopened (id', kind) hold
            rw [openers, hentry] at hzero
            cases kind with
            | read =>
                have hreader : entry.reader = 0 := hzero
                exact (congrArg (· - _) hreader).trans (Nat.zero_sub _)
            | write =>
                have hwriter : entry.writer = 0 := hzero
                exact (congrArg (· - _) hwriter).trans (Nat.zero_sub _)
          · exact hold
        · rw [if_pos rfl]
          exact hreader
        · rw [if_pos rfl]
          exact hwriter

end Hints

end Cache

end Madbfs
