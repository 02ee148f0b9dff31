/-
The descriptors of the device that the cache holds.  They stand in the slots
of the table and in the hands of suspended operations.  An operation that is
resumed stores at most the descriptor its reply brings; apart from that it
leaves the slots alone and holds only what it held or has read from a slot.
-/
import Mathlib.Data.Multiset.Bind
import Madbfs.Cache.Engine

namespace Madbfs

/-- An association list is the entry of a key together with the rest. -/
theorem AList.entries_erase_cons {α : Type} [DecidableEq α] {β : α → Type}
    {s : AList β} {a : α} {b : β a} (hlookup : s.lookup a = some b) :
    s.entries.Perm (⟨a, b⟩ :: (s.erase a).entries) := by
  have hmem : a ∈ s.entries.keys := by
    apply List.mem_keys_of_mem (s := ⟨a, b⟩)
    exact AList.mem_lookup_iff.mp hlookup
  obtain ⟨b', left, right, -, hsplit, herase⟩ := List.exists_of_kerase hmem
  have hentry : s.lookup a = some b' := by
    apply AList.mem_lookup_iff.mpr
    rw [hsplit]
    simp
  have hsame : b' = b := Option.some.inj (hentry.symm.trans hlookup)
  subst hsame
  change s.entries.Perm (⟨a, b'⟩ :: s.entries.kerase a)
  rw [herase]
  conv_lhs => rw [hsplit]
  exact List.perm_middle

/-- A sum over a list of which one element is replaced. -/
theorem sum_map_set {α M : Type} [AddCommMonoid M] (f : α → M) {l : List α}
    {i : Nat} {a : α} (ha : l[i]? = some a) (b : α) :
    ((l.set i b).map f).sum + f a = (l.map f).sum + f b := by
  induction l generalizing i with
  | nil => cases ha
  | cons head tail ih =>
      cases i with
      | zero =>
          cases ha
          change f b + (tail.map f).sum + f a = f a + (tail.map f).sum + f b
          ac_rfl
      | succ i =>
          change f head + ((tail.set i b).map f).sum + f a =
            f head + (tail.map f).sum + f b
          rw [add_assoc, ih ha, add_assoc]

namespace Cache

/-- The descriptors in the slots of a file. -/
def slots (c : Cache) (id : Id) : Option (List Fd) :=
  (c.lookup id).map entryFds

/-- The descriptors in the slots of the table. -/
def held (c : Cache) : Multiset Fd :=
  (c.allFds : Multiset Fd)

/-- A table by files and their descriptors. -/
def fdTable (c : Cache) : List (Sigma fun _ : Id => List Fd) :=
  c.table.entries.map fun e => ⟨e.1, entryFds e.2⟩

theorem nodupKeys_fdTable (c : Cache) : c.fdTable.NodupKeys := by
  have hkeys : c.fdTable.keys = c.table.entries.keys := by
    simp [fdTable, List.keys]
  rw [List.NodupKeys, hkeys]
  exact c.table.nodupKeys

theorem mem_fdTable {c : Cache} {id : Id} {fds : List Fd} :
    (⟨id, fds⟩ : Sigma fun _ : Id => List Fd) ∈ c.fdTable ↔
      c.slots id = some fds := by
  rw [slots, Option.map_eq_some_iff, fdTable, List.mem_map]
  constructor
  · rintro ⟨⟨id', entry⟩, hmem, heq⟩
    cases heq
    exact ⟨entry, AList.mem_lookup_iff.mpr hmem, rfl⟩
  · rintro ⟨entry, hentry, rfl⟩
    exact ⟨⟨id, entry⟩, AList.mem_lookup_iff.mp hentry, rfl⟩

theorem held_eq (c : Cache) :
    c.held = (c.fdTable.flatMap Sigma.snd : List Fd) := by
  rw [held, allFds, fdTable, List.flatMap_map]

variable {c c' : Cache}

/-- The slots of the files determine those of the table. -/
theorem held_congr (hslots : c.slots = c'.slots) : c.held = c'.held := by
  have hperm : c.fdTable.Perm c'.fdTable := by
    apply List.lookup_ext c.nodupKeys_fdTable c'.nodupKeys_fdTable
    intro id fds
    rw [List.mem_dlookup_iff c.nodupKeys_fdTable,
      List.mem_dlookup_iff c'.nodupKeys_fdTable, mem_fdTable, mem_fdTable,
      hslots]
  rw [held_eq, held_eq]
  exact Multiset.coe_eq_coe.mpr (hperm.flatMap_right _)

theorem mem_held {fd : Fd} :
    fd ∈ c.held ↔ ∃ id fds, c.slots id = some fds ∧ fd ∈ fds := by
  rw [held_eq, Multiset.mem_coe, List.mem_flatMap]
  constructor
  · rintro ⟨⟨id, fds⟩, hmem, hfd⟩
    exact ⟨id, fds, mem_fdTable.mp hmem, hfd⟩
  · rintro ⟨id, fds, hslots, hfd⟩
    exact ⟨⟨id, fds⟩, mem_fdTable.mpr hslots, hfd⟩

theorem slots_modifyEntry_apply (c : Cache) (id id' : Id)
    (f : LookupEntry → LookupEntry) :
    (c.modifyEntry id f).slots id' =
      if id' = id then (c.lookup id).map fun entry => entryFds (f entry)
      else c.slots id' := by
  simp only [slots, lookup_modifyEntry]
  split_ifs
  · rw [Option.map_map]
    rfl
  · rfl

/-- An update that keeps the descriptors of every entry. -/
theorem slots_modifyEntry (c : Cache) (id : Id)
    (f : LookupEntry → LookupEntry)
    (hfds : ∀ entry, entryFds (f entry) = entryFds entry) :
    (c.modifyEntry id f).slots = c.slots := by
  funext id'
  rw [slots_modifyEntry_apply]
  split_ifs with heq
  · rw [heq, slots]
    exact congrArg (fun g => (c.lookup id).map g) (funext hfds)
  · rfl

theorem slots_addReadInflight (c : Cache) (id : Id) (n : Int) :
    (c.modifyEntry id (addReadInflight n)).slots = c.slots :=
  c.slots_modifyEntry id _ fun _ => rfl

theorem slots_addWriteInflight (c : Cache) (id : Id) (n : Int) :
    (c.modifyEntry id (addWriteInflight n)).slots = c.slots :=
  c.slots_modifyEntry id _ fun _ => rfl

theorem mem_held_of_entry {id : Id} {entry : LookupEntry} {fd : Fd}
    (hentry : c.lookup id = some entry)
    (hfd : entry.readFd = some fd ∨ entry.writeFd = some fd) :
    fd ∈ c.held := by
  refine mem_held.mpr ⟨id, entryFds entry, ?_, ?_⟩
  · rw [slots, hentry]
    rfl
  · simpa [entryFds] using hfd

theorem slots_erasePage (c : Cache) (key : PageKey) :
    (c.erasePage key).slots = c.slots :=
  c.slots_modifyEntry key.id _ fun _ => rfl

theorem slots_emplaceFront (c : Cache) (page : Page) :
    (c.emplaceFront page).slots = c.slots := by
  refine (slots_modifyEntry _ page.key.id _ fun entry => ?_).trans rfl
  unfold emplaceIndex
  split <;> rfl

end Cache

/-- The descriptor a reply brings. -/
def Reply.fds : Reply → List Fd
  | .opened (.ok fd) => [fd]
  | _ => []

/-- The descriptors an operation holds where it is suspended. -/
def EvictPc.fds : EvictPc → List Fd
  | .opening _ _ => []
  | .flushing _ fd _ _ => [fd]

def ReadAtPc.fds : ReadAtPc → List Fd
  | .fetching fd _ => [fd]
  | .evicting _ pc => pc.fds
  | _ => []

def WriteAtPc.fds : WriteAtPc → List Fd
  | .evicting _ pc => pc.fds
  | _ => []

def FlushPc.fds : FlushPc → List Fd
  | .flushing _ _ fd _ => [fd]
  | _ => []

def TruncatePc.fds : TruncatePc → List Fd
  | .start => []
  | .evicting _ pc => pc.fds

def ShutdownPc.fds : ShutdownPc → List Fd
  | .start => []
  | .flushing _ _ pc => pc.fds
  | .closing fd rest => fd :: rest

def ClosePc.fds : ClosePc → List Fd
  | .start => []
  | .closing fd rest => fd :: rest

/-- The slot for the descriptor that a suspended operation waits for. -/
def EvictPc.target (c : Cache) : EvictPc → Option (Id × FdKind)
  | .opening addr _ => some ((c.heap addr).key.id, .write)
  | .flushing _ _ _ _ => none

def ReadAtPc.target (c : Cache) (r : Range) :
    ReadAtPc → Option (Id × FdKind)
  | .opening => some (r.id, .read)
  | .evicting _ pc => pc.target c
  | _ => none

def WriteAtPc.target (c : Cache) : WriteAtPc → Option (Id × FdKind)
  | .evicting _ pc => pc.target c
  | _ => none

def FlushPc.target (id : Id) : FlushPc → Option (Id × FdKind)
  | .opening => some (id, .write)
  | _ => none

def TruncatePc.target (c : Cache) : TruncatePc → Option (Id × FdKind)
  | .start => none
  | .evicting _ pc => pc.target c

def ShutdownPc.target : ShutdownPc → Option (Id × FdKind)
  | .flushing id _ pc => pc.target id
  | _ => none

namespace Cache

def setFd : FdKind → Option Fd → LookupEntry → LookupEntry
  | .read => setReadFd
  | .write => setWriteFd

/-- The cache once the descriptor of a reply is stored. -/
def store (c : Cache) : Option (Id × FdKind) → Reply → Cache
  | some (id, kind), .opened (.ok fd) =>
      c.modifyEntry id (setFd kind (some fd))
  | _, _ => c

/-- The text up to the next suspension point leaves the slots alone, and where
it suspends it holds descriptors that it owned or that stand in a slot. -/
structure Carries {π α : Type} (fds : π → List Fd) (own : List Fd)
    (c : Cache) (x : Cache × Flow π α) : Prop where
  slots : x.1.slots = c.slots
  hand : ∀ pc, x.2 = .await pc → ∀ fd ∈ fds pc, fd ∈ own ∨ fd ∈ c.held

section Rules

variable {π ρ α β : Type} {fds : π → List Fd} {fds' : ρ → List Fd}
  {own : List Fd} {c c₁ : Cache}

theorem Carries.done (hslots : c₁.slots = c.slots) (value : α) :
    Carries fds own c (c₁, .done value) :=
  ⟨hslots, nofun⟩

theorem Carries.crash (hslots : c₁.slots = c.slots) :
    Carries fds own c ((c₁, .crash) : Cache × Flow π α) :=
  ⟨hslots, nofun⟩

theorem Carries.await (hslots : c₁.slots = c.slots) {pc : π}
    (hhand : ∀ fd ∈ fds pc, fd ∈ own ∨ fd ∈ c.held) :
    Carries fds own c ((c₁, .await pc) : Cache × Flow π α) := by
  refine ⟨hslots, fun pc' heq => ?_⟩
  cases heq
  exact hhand

/-- The rule for a nested `co_await`. -/
theorem Carries.andThen {x : Cache × Flow π α} {wrap : π → ρ}
    {rest : Cache → α → Cache × Flow ρ β} (hslots : x.1.slots = c.slots)
    (hhand : ∀ pc, x.2 = .await pc →
      ∀ fd ∈ fds' (wrap pc), fd ∈ own ∨ fd ∈ c.held)
    (hrest : ∀ c₁ value, c₁.slots = c.slots →
      Carries fds' own c (rest c₁ value)) :
    Carries fds' own c (Flow.andThen x wrap rest) := by
  obtain ⟨c₁, pc | value | _⟩ := x
  · exact .await hslots (hhand pc rfl)
  · exact hrest c₁ value hslots
  · exact .crash hslots

/-- The same rule where the callee holds what the caller does. -/
theorem Carries.nested {x : Cache × Flow π α} {wrap : π → ρ}
    {rest : Cache → α → Cache × Flow ρ β} (hx : Carries fds own c x)
    (hwrap : ∀ pc, fds' (wrap pc) = fds pc)
    (hrest : ∀ c₁ value, c₁.slots = c.slots →
      Carries fds' own c (rest c₁ value)) :
    Carries fds' own c (Flow.andThen x wrap rest) := by
  apply Carries.andThen hx.slots
  · intro pc heq fd hfd
    rw [hwrap] at hfd
    exact hx.hand pc heq fd hfd
  · exact hrest

end Rules

section Pages

variable {c : Cache} {addr : Addr}

theorem slots_flushAtLoop (c : Cache) (addr : Addr) (written : Nat) :
    (c.flushAtLoop addr written).1.slots = c.slots := by
  unfold flushAtLoop
  split <;> rfl

theorem slots_flushAt (c : Cache) (addr : Addr) :
    (c.flushAt addr).1.slots = c.slots := by
  unfold flushAt
  split
  · rfl
  · exact slots_flushAtLoop c addr 0

theorem slots_flushAtResume {pc : FlushAtPc} {reply : Reply}
    {x : Cache × Flow FlushAtPc (Except Errc Unit)}
    (hresume : c.flushAtResume addr pc reply = some x) :
    x.1.slots = c.slots := by
  unfold flushAtResume at hresume
  split at hresume
  · split at hresume
    · cases hresume
    · split_ifs at hresume <;> cases hresume
      · exact slots_flushAtLoop c addr 0
      · rfl
  · cases hresume
    exact slots_flushAtLoop c addr _
  · cases hresume
    rfl
  · cases hresume

theorem slots_evictDone (c : Cache) (addr : Addr) :
    (c.evictDone addr).slots = c.slots :=
  (slots_erasePage _ _).trans (c.slots_addWriteInflight _ _)

theorem evictFlush_carries {own : List Fd}
    {x : Cache × Flow FlushAtPc (Except Errc Unit)} {fd : Fd} {rest : Nat}
    {next : Cache → Cache × Flow EvictPc Unit} (hslots : x.1.slots = c.slots)
    (hfd : fd ∈ own ∨ fd ∈ c.held)
    (hnext : ∀ c₁, c₁.slots = c.slots →
      Carries EvictPc.fds own c (next c₁)) :
    Carries EvictPc.fds own c (evictFlush x addr fd rest next) := by
  apply Carries.andThen hslots
  · intro pc _ fd' hfd'
    rw [List.mem_singleton.mp hfd']
    exact hfd
  · intro c₁ _ hc₁
    exact hnext _ ((slots_evictDone c₁ addr).trans hc₁)

theorem evict_carries (own : List Fd) (size : Nat) {c₁ : Cache}
    (hslots : c₁.slots = c.slots) :
    Carries EvictPc.fds own c (evict size c₁) := by
  induction size generalizing c₁ with
  | zero => exact .done hslots ()
  | succ size ih =>
      rw [evict]
      split
      · exact .done hslots ()
      · next addr hlast =>
        dsimp only
        split
        · exact ih hslots
        · next entry hentry =>
          have hlocked : ({ c₁ with lru := c₁.lru.dropLast }.modifyEntry
              (c₁.heap addr).key.id (addWriteInflight 1)).slots =
              c.slots := by
            rw [slots_addWriteInflight]
            exact hslots
          split_ifs
          · split
            · apply Carries.await hlocked
              exact fun _ hfd => absurd hfd List.not_mem_nil
            · next fd hfd =>
              apply evictFlush_carries ((slots_flushAt _ addr).trans hlocked)
              · apply Or.inr
                rw [← held_congr hslots]
                exact mem_held_of_entry hentry (.inr hfd)
              · exact fun c₂ hc₂ => ih hc₂
          · exact ih ((slots_erasePage _ _).trans hslots)

theorem evictExcess_carries (own : List Fd) {c₁ : Cache}
    (hslots : c₁.slots = c.slots) :
    Carries EvictPc.fds own c c₁.evictExcess := by
  unfold evictExcess
  split_ifs
  · exact evict_carries own _ hslots
  · exact .done hslots ()

theorem evictResume_carries {pc : EvictPc} {reply : Reply}
    {x : Cache × Flow EvictPc Unit}
    (hresume : c.evictResume pc reply = some x) :
    Carries EvictPc.fds (pc.fds ++ reply.fds) (c.store (pc.target c) reply)
      x := by
  unfold evictResume at hresume
  split at hresume
  · next addr rest fd =>
    cases hresume
    apply evictFlush_carries (slots_flushAt _ addr)
    · exact .inl (List.mem_singleton_self fd)
    · exact fun c₁ hc₁ => evict_carries _ rest hc₁
  · cases hresume
    exact evict_carries _ _ (c.slots_addWriteInflight _ _)
  · next _ addr fd rest pc =>
    obtain ⟨y, hy, rfl⟩ := Option.map_eq_some_iff.mp hresume
    apply evictFlush_carries (slots_flushAtResume hy)
    · exact .inl (List.mem_append_left _ (List.mem_singleton_self fd))
    · exact fun c₁ hc₁ => evict_carries _ rest hc₁
  · cases hresume

variable {r : Range}

theorem readAtFinish_carries {own : List Fd} {c₁ : Cache}
    (hslots : c₁.slots = c.slots) :
    Carries ReadAtPc.fds own c (c₁.readAtFinish r addr) := by
  unfold readAtFinish
  split_ifs
  · refine .done ?_ _
    exact (slots_addReadInflight _ _ _).trans hslots
  · exact .crash hslots

theorem readAtError_carries {own : List Fd} {c₁ : Cache} (err : Errc)
    (hslots : c₁.slots = c.slots) :
    Carries ReadAtPc.fds own c (c₁.readAtError r err) :=
  .done ((c₁.slots_addReadInflight _ _).trans hslots) _

theorem readAtFetch_carries {own : List Fd} {fd : Fd} {c₁ : Cache}
    (hslots : c₁.slots = c.slots) (hfd : fd ∈ own ∨ fd ∈ c.held) :
    Carries ReadAtPc.fds own c (c₁.readAtFetch r fd) := by
  rw [readAtFetch]
  refine .await ?_ fun fd' hfd' => ?_
  · exact hslots
  rw [List.mem_singleton.mp hfd']
  exact hfd

theorem readAtLookup_carries {own : List Fd} {c₁ : Cache}
    (hslots : c₁.slots = c.slots) :
    Carries ReadAtPc.fds own c (c₁.readAtLookup r) := by
  unfold readAtLookup
  split
  · exact .crash hslots
  · next entry hentry =>
    split
    · exact readAtFinish_carries hslots
    · split
      · exact .await hslots nofun
      · next fd hfd =>
        apply readAtFetch_carries hslots
        apply Or.inr
        rw [← held_congr hslots]
        exact mem_held_of_entry hentry (.inl hfd)

theorem readAtInsert_carries {own : List Fd} (fut : Fut) (bytes : List Byte) :
    Carries ReadAtPc.fds own c (c.readAtInsert r fut bytes) := by
  have hinsert := c.slots_emplaceFront (c.fetchedPage r.key bytes)
  unfold readAtInsert
  dsimp only
  split
  · exact .crash hinsert
  · next addr hslot =>
    refine .nested (evictExcess_carries own ?_) (fun _ => rfl)
      fun c₁ _ hc₁ => readAtFinish_carries hc₁
    exact hinsert

theorem readAtResume_carries {pc : ReadAtPc} {reply : Reply}
    {x : Cache × Flow ReadAtPc (Except Errc (List Byte))}
    (hresume : c.readAtResume r pc reply = some x) :
    Carries ReadAtPc.fds (pc.fds ++ reply.fds) (c.store (pc.target c r) reply)
      x := by
  unfold readAtResume at hresume
  split at hresume
  · have hcount : (c.modifyEntry r.id (addReadInflight 1)).slots = c.slots :=
      c.slots_addReadInflight r.id 1
    dsimp only at hresume
    split at hresume <;> cases hresume
    · exact .await hcount nofun
    · exact readAtLookup_carries hcount
  · split at hresume
    · cases hresume
    · split_ifs at hresume <;> cases hresume
      · exact readAtLookup_carries rfl
      · exact readAtError_carries _ rfl
  · cases hresume
    exact readAtFetch_carries rfl (.inl (List.mem_singleton_self _))
  · cases hresume
    exact readAtError_carries _ rfl
  · split at hresume <;> cases hresume
    · exact readAtError_carries _ rfl
    · exact readAtInsert_carries _ _
  · cases hresume
    exact readAtError_carries _ rfl
  · obtain ⟨y, hy, rfl⟩ := Option.map_eq_some_iff.mp hresume
    exact .nested (evictResume_carries hy) (fun _ => rfl)
      fun c₁ _ hc₁ => readAtFinish_carries hc₁
  · cases hresume

theorem writeAtFinish_carries {own : List Fd} {input : List Byte}
    {c₁ : Cache} (hslots : c₁.slots = c.slots) :
    Carries WriteAtPc.fds own c (c₁.writeAtFinish r input addr) := by
  unfold writeAtFinish
  dsimp only
  split_ifs
  · refine .done ?_ _
    exact hslots
  · exact .crash hslots

theorem writeAtLookup_carries {own : List Fd} (input : List Byte) :
    Carries WriteAtPc.fds own c (c.writeAtLookup r input) := by
  unfold writeAtLookup
  split
  · exact .crash rfl
  · split
    · exact writeAtFinish_carries rfl
    · have hinsert := c.slots_emplaceFront
        (Page.create r.key (Page.zeroBuf c.pageSize) 0 c.pageSize)
      exact .nested (evictExcess_carries own hinsert) (fun _ => rfl)
        fun c₁ _ hc₁ => writeAtFinish_carries hc₁

theorem writeAtResume_carries {input : List Byte} {pc : WriteAtPc}
    {reply : Reply} {x : Cache × Flow WriteAtPc (Except Errc Nat)}
    (hresume : c.writeAtResume r input pc reply = some x) :
    Carries WriteAtPc.fds (pc.fds ++ reply.fds) (c.store (pc.target c) reply)
      x := by
  unfold writeAtResume at hresume
  split at hresume
  · split at hresume <;> cases hresume
    · exact .await rfl nofun
    · exact writeAtLookup_carries input
  · split at hresume
    · cases hresume
    · split_ifs at hresume <;> cases hresume
      · exact writeAtLookup_carries input
      · exact .done rfl _
  · obtain ⟨y, hy, rfl⟩ := Option.map_eq_some_iff.mp hresume
    exact .nested (evictResume_carries hy) (fun _ => rfl)
      fun c₁ _ hc₁ => writeAtFinish_carries hc₁
  · cases hresume

end Pages

section Files

variable {c : Cache} {id : Id}

theorem flushEnd_carries {own : List Fd} {c₁ : Cache}
    (hslots : c₁.slots = c.slots) (err : Errc) :
    Carries FlushPc.fds own c ((c₁.modifyEntry id (addWriteInflight (-1)),
      .done (.error err)) : Cache × Flow FlushPc (Except Errc Unit)) :=
  .done ((slots_addWriteInflight _ _ _).trans hslots) _

theorem flushLoop_carries {own : List Fd} (indices : List Nat) {c₁ : Cache}
    (hslots : c₁.slots = c.slots) :
    Carries FlushPc.fds own c (flushLoop id indices c₁) := by
  induction indices generalizing c₁ with
  | nil =>
      refine .done ?_ _
      exact (c₁.slots_modifyEntry id (fun entry =>
        addWriteInflight (-1) (setEntryDirty false entry))
        fun _ => rfl).trans hslots
  | cons index rest ih =>
      rw [flushLoop]
      split
      · exact .crash hslots
      · next entry hentry =>
        split
        · exact .crash hslots
        · next addr hpage =>
          split_ifs
          · split
            · exact .crash hslots
            · next fd hfd =>
              have hhand : fd ∈ own ∨ fd ∈ c.held := by
                apply Or.inr
                rw [← held_congr hslots]
                exact mem_held_of_entry hentry (.inr hfd)
              apply Carries.andThen ((slots_flushAt c₁ addr).trans hslots)
              · intro pc _ fd' hfd'
                rw [List.mem_singleton.mp hfd']
                exact hhand
              · intro c₂ res hc₂
                cases res with
                | error err => exact flushEnd_carries hc₂ err
                | ok _ => exact ih hc₂
          · exact ih hslots
          · exact .crash hslots

theorem flushPages_carries {own : List Fd} :
    Carries FlushPc.fds own c (c.flushPages id) := by
  unfold flushPages
  split
  · exact .crash rfl
  · exact flushLoop_carries _ (c.slots_addWriteInflight id 1)

theorem flushStart_carries {own : List Fd} :
    Carries FlushPc.fds own c (c.flushStart id) := by
  unfold flushStart
  split
  · exact .done rfl _
  · split_ifs
    · split
      · exact .await rfl nofun
      · exact flushPages_carries
    · exact .done rfl _

theorem flushStart_slots (c : Cache) (id : Id) :
    (c.flushStart id).1.slots = c.slots :=
  (@flushStart_carries c id []).slots

theorem flushNext_carries {own : List Fd} {index : Nat} {addr : Addr}
    {fd : Fd} {x : Cache × Flow FlushAtPc (Except Errc Unit)}
    (hslots : x.1.slots = c.slots) (hfd : fd ∈ own ∨ fd ∈ c.held) :
    Carries FlushPc.fds own c (flushNext id index x addr fd) := by
  apply Carries.andThen hslots
  · intro pc _ fd' hfd'
    rw [List.mem_singleton.mp hfd']
    exact hfd
  · intro c₁ res hc₁
    cases res with
    | error err => exact flushEnd_carries hc₁ err
    | ok _ =>
        dsimp only
        split
        · exact .crash hc₁
        · exact flushLoop_carries _ hc₁

theorem flushResume_carries {pc : FlushPc} {reply : Reply}
    {x : Cache × Flow FlushPc (Except Errc Unit)}
    (hresume : c.flushResume id pc reply = some x) :
    Carries FlushPc.fds (pc.fds ++ reply.fds) (c.store (pc.target id) reply)
      x := by
  unfold flushResume at hresume
  split at hresume
  · cases hresume
    exact flushStart_carries
  · cases hresume
    exact flushPages_carries
  · cases hresume
    exact .done rfl _
  · split_ifs at hresume
    · obtain ⟨y, hy, rfl⟩ := Option.map_eq_some_iff.mp hresume
      apply flushNext_carries (slots_flushAtResume hy)
      exact .inl (List.mem_append_left _ (List.mem_singleton_self _))
    · cases hresume
      exact .crash rfl
  · cases hresume

variable {oldSize newSize : Nat}

theorem truncatePage_carries {own : List Fd} {key : PageKey} {addr : Addr}
    {c₁ : Cache} (hslots : c₁.slots = c.slots) :
    Carries TruncatePc.fds own c
      (c₁.truncatePage key addr oldSize newSize) := by
  unfold truncatePage
  dsimp only
  split_ifs
  · exact .done hslots _
  · refine .done ?_ _
    exact (slots_erasePage _ _).trans hslots
  · exact .crash hslots
  · refine .done ?_ _
    exact (slots_emplaceFront _ _).trans hslots
  · refine .done ?_ _
    exact hslots
  · refine .done ?_ _
    exact hslots
  · exact .crash hslots

theorem truncateLoop_carries {own : List Fd} (indices : List Nat)
    {c₁ : Cache} (hslots : c₁.slots = c.slots) :
    Carries TruncatePc.fds own c
      (truncateLoop id oldSize newSize indices c₁) := by
  induction indices generalizing c₁ with
  | nil => exact .done hslots _
  | cons index rest ih =>
      rw [truncateLoop]
      split
      · exact .crash hslots
      · exact .nested (truncatePage_carries hslots) (fun _ => rfl)
          fun c₂ _ hc₂ => ih hc₂

theorem truncatePages_carries {own : List Fd} {first : Option (Nat × Addr)}
    {c₁ : Cache} (hslots : c₁.slots = c.slots) :
    Carries TruncatePc.fds own c
      (c₁.truncatePages id oldSize newSize first) := by
  unfold truncatePages
  split
  · exact .done hslots _
  · split_ifs
    · split
      · exact .crash hslots
      · exact truncateLoop_carries _ hslots
    · exact .crash hslots

theorem truncateResume_carries {pc : TruncatePc} {reply : Reply}
    {x : Cache × Flow TruncatePc Unit}
    (hresume : c.truncateResume id oldSize newSize pc reply = some x) :
    Carries TruncatePc.fds (pc.fds ++ reply.fds)
      (c.store (pc.target c) reply) x := by
  unfold truncateResume at hresume
  split at hresume
  · cases hresume
    unfold truncateStart
    split
    · exact .done rfl _
    · exact .nested (evict_carries _ _ rfl) (fun _ => rfl)
        fun c₁ _ hc₁ => truncatePages_carries hc₁
  · obtain ⟨y, hy, rfl⟩ := Option.map_eq_some_iff.mp hresume
    exact .nested (evictResume_carries hy) (fun _ => rfl)
      fun c₁ _ hc₁ => truncatePages_carries hc₁
  · cases hresume

end Files

end Cache

end Madbfs
