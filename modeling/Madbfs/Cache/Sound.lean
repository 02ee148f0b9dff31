/-
Soundness of the cache against the device: descriptors lead to the files they
were opened for, buffers are well formed, and a page that is not dirty holds
what the device holds.  This is kept by everything the page operations do, and
by the device executing their requests.
-/
import Madbfs.Cache.Acts

namespace Madbfs

open Bytes

namespace Cache

/-- The path the cache has for a file. -/
def pathOf (c : Cache) (id : Id) : Option Path :=
  (c.lookup id).map LookupEntry.path

/-- The content of a file on the device. -/
def fileOf (c : Cache) (d : Device) (id : Id) : List Byte :=
  ((c.pathOf id).map d.file).getD []

/-- The position of a byte of a page in its file. -/
def filePos (c : Cache) (page : Page) (pos : Nat) : Nat :=
  page.key.index * c.pageSize + pos

/-- The first `n` bytes of a page are on the device. -/
structure Agrees (c : Cache) (d : Device) (page : Page) (n : Nat) : Prop where
  valueAt_eq : ∀ pos < n, valueAt page.data pos =
    valueAt (c.fileOf d page.key.id) (c.filePos page pos)
  le_length : 0 < n →
    c.filePos page n ≤ (c.fileOf d page.key.id).length

/-- The cache is sound for the files of `S`; of the other files only the
buffers and the descriptors are. -/
structure Sound (S : Id → Prop) (c : Cache) (d : Device)
    (held : Multiset Addr) : Prop where
  layout : Layout c held
  pageSize_pos : 0 < c.pageSize
  pageSize_lt : c.pageSize < 2 ^ 32
  wf : ∀ addr ∈ c.live held, (c.heap addr).WF c.pageSize
  tail : ∀ addr ∈ c.live held, S (c.heap addr).key.id →
    (c.heap addr).ZeroTail
  readFd : ∀ id entry fd, c.lookup id = some entry →
    entry.readFd = some fd → d.fds fd = some entry.path
  writeFd : ∀ id entry fd, c.lookup id = some entry →
    entry.writeFd = some fd → d.fds fd = some entry.path
  path_inj : ∀ id id' path, c.pathOf id = some path →
    c.pathOf id' = some path → id = id'
  agrees : ∀ addr ∈ c.live held, S (c.heap addr).key.id →
    (c.heap addr).dirty = false → Agrees c d (c.heap addr) (c.heap addr).size

section

variable {S : Id → Prop} {c c' : Cache} {d : Device}
  {held held' : Multiset Addr}

theorem pathOf_of_lookup {id : Id} {entry : LookupEntry}
    (hentry : c.lookup id = some entry) : c.pathOf id = some entry.path := by
  rw [pathOf, hentry]
  rfl

theorem fileOf_eq {id : Id} {path : Path} (hpath : c.pathOf id = some path) :
    c.fileOf d id = d.file path := by
  rw [fileOf, hpath]
  rfl

theorem pathOf_modifyEntry (c : Cache) (id : Id)
    {f : LookupEntry → LookupEntry}
    (hpath : ∀ entry, (f entry).path = entry.path) (id' : Id) :
    (c.modifyEntry id f).pathOf id' = c.pathOf id' := by
  simp only [pathOf, lookup_modifyEntry]
  split_ifs with heq
  · subst heq
    cases c.lookup id' with
    | none => rfl
    | some entry => simp [hpath]
  · rfl

/-- Agreement only depends on the bytes and the key of the page, and on the
path of the file. -/
theorem Agrees.congr {page page' : Page} {n : Nat}
    (hagrees : Agrees c d page n) (hdata : page'.data = page.data)
    (hkey : page'.key = page.key) (hpath : ∀ id, c'.pathOf id = c.pathOf id)
    (hsize : c'.pageSize = c.pageSize) : Agrees c' d page' n := by
  have hfile : ∀ id, c'.fileOf d id = c.fileOf d id := by
    intro id
    rw [fileOf, fileOf, hpath]
  have hpos : ∀ pos, c'.filePos page' pos = c.filePos page pos := by
    intro pos
    rw [filePos, filePos, hkey, hsize]
  refine ⟨?_, ?_⟩
  · intro pos hlt
    rw [hdata, hkey, hfile, hpos]
    exact hagrees.valueAt_eq pos hlt
  · intro hn
    rw [hkey, hfile, hpos]
    exact hagrees.le_length hn

theorem Agrees.mono {page : Page} {n m : Nat} (hagrees : Agrees c d page n)
    (hle : m ≤ n) : Agrees c d page m := by
  refine ⟨fun pos hpos => hagrees.valueAt_eq pos (by omega), fun hm => ?_⟩
  have hlength := hagrees.le_length (by omega)
  unfold filePos at hlength ⊢
  omega

/-- The device really has those bytes. -/
theorem Agrees.getElem? {page : Page} {n pos : Nat}
    (hagrees : Agrees c d page n) (hpos : pos < n) :
    (c.fileOf d page.key.id)[c.filePos page pos]? =
      some (valueAt page.data pos) := by
  have hlength := hagrees.le_length (by omega)
  have hlt : c.filePos page pos < (c.fileOf d page.key.id).length := by
    unfold filePos at hlength ⊢
    omega
  rw [hagrees.valueAt_eq pos hpos, getElem?_of_lt hlt]

theorem agrees_zero (c : Cache) (d : Device) (page : Page) :
    Agrees c d page 0 :=
  ⟨fun pos hpos => absurd hpos (Nat.not_lt_zero pos), fun h => absurd h
    (Nat.lt_irrefl 0)⟩

/-- Soundness is kept when pages leave, when dirty marks change on pages that
agree, and when entries keep their paths and have valid descriptors. -/
theorem Sound.congr (hsound : Sound S c d held) (hlayout : Layout c' held')
    (hlive : ∀ addr ∈ c'.live held', addr ∈ c.live held)
    (hdata : ∀ addr, (c'.heap addr).data = (c.heap addr).data)
    (hkey : ∀ addr, (c'.heap addr).key = (c.heap addr).key)
    (hsize : ∀ addr, (c'.heap addr).size = (c.heap addr).size)
    (hpage : ∀ addr, (c'.heap addr).pageSize = (c.heap addr).pageSize)
    (hclean : ∀ addr ∈ c'.live held', S (c.heap addr).key.id →
      (c'.heap addr).dirty = false → (c.heap addr).dirty = false ∨
        Agrees c d (c.heap addr) (c.heap addr).size)
    (hpath : ∀ id, c'.pathOf id = c.pathOf id)
    (hpageSize : c'.pageSize = c.pageSize)
    (hread : ∀ id entry fd, c'.lookup id = some entry →
      entry.readFd = some fd → d.fds fd = some entry.path)
    (hwrite : ∀ id entry fd, c'.lookup id = some entry →
      entry.writeFd = some fd → d.fds fd = some entry.path) :
    Sound S c' d held' where
  layout := hlayout
  pageSize_pos := hpageSize ▸ hsound.pageSize_pos
  pageSize_lt := hpageSize ▸ hsound.pageSize_lt
  wf := by
    intro addr hmem
    have hwf := hsound.wf addr (hlive addr hmem)
    rw [hpageSize]
    exact ⟨(hpage addr).trans hwf.pageSize_eq, by rw [hdata, hwf.length_data],
      by rw [hsize]; exact hwf.size_le, hwf.pageSize_lt⟩
  tail := by
    intro addr hmem hS pos hpos
    rw [hkey] at hS
    rw [hsize] at hpos
    rw [hdata]
    exact hsound.tail addr (hlive addr hmem) hS pos hpos
  readFd := hread
  writeFd := hwrite
  path_inj := by
    intro id id' path h h'
    rw [hpath] at h h'
    exact hsound.path_inj id id' path h h'
  agrees := by
    intro addr hmem hS hdirty
    rw [hkey] at hS
    rw [hsize]
    refine Agrees.congr ?_ (hdata addr) (hkey addr) hpath hpageSize
    rcases hclean addr hmem hS hdirty with hold | hagrees
    · exact hsound.agrees addr (hlive addr hmem) hS hold
    · exact hagrees

/-- An update of one entry, of its counters or of a valid descriptor. -/
theorem Sound.modifyEntry (hsound : Sound S c d held) (id : Id)
    {f : LookupEntry → LookupEntry}
    (hpages : ∀ entry, (f entry).pages = entry.pages)
    (hpath : ∀ entry, (f entry).path = entry.path)
    (hread : ∀ entry fd, c.lookup id = some entry →
      (f entry).readFd = some fd →
      entry.readFd = some fd ∨ d.fds fd = some entry.path)
    (hwrite : ∀ entry fd, c.lookup id = some entry →
      (f entry).writeFd = some fd →
      entry.writeFd = some fd ∨ d.fds fd = some entry.path) :
    Sound S (c.modifyEntry id f) d held := by
  have hentries : ∀ id' entry', (c.modifyEntry id f).lookup id' = some entry' →
      c.lookup id' = some entry' ∨ ∃ entry, c.lookup id' = some entry ∧
        id' = id ∧ entry' = f entry := by
    intro id' entry' hentry'
    rw [lookup_modifyEntry] at hentry'
    split_ifs at hentry' with heq
    · subst heq
      obtain ⟨entry, hentry, rfl⟩ := Option.map_eq_some_iff.mp hentry'
      exact .inr ⟨entry, hentry, rfl, rfl⟩
    · exact .inl hentry'
  refine hsound.congr (hsound.layout.modifyEntry id hpages) ?_
    (by simp) (by simp) (by simp) (by simp) (by simp +contextual)
    (c.pathOf_modifyEntry id hpath) (by simp) ?_ ?_
  · intro addr hmem
    simpa [live] using hmem
  · intro id' entry' fd hentry' hfd
    rcases hentries id' entry' hentry' with hold | ⟨entry, hold, rfl, rfl⟩
    · exact hsound.readFd id' entry' fd hold hfd
    · rw [hpath]
      rcases hread entry fd hold hfd with hfd | hvalid
      · exact hsound.readFd _ entry fd hold hfd
      · exact hvalid
  · intro id' entry' fd hentry' hfd
    rcases hentries id' entry' hentry' with hold | ⟨entry, hold, rfl, rfl⟩
    · exact hsound.writeFd id' entry' fd hold hfd
    · rw [hpath]
      rcases hwrite entry fd hold hfd with hfd | hvalid
      · exact hsound.writeFd _ entry fd hold hfd
      · exact hvalid

theorem setDirty_heap (c : Cache) (addr addr' : Addr) (set : Bool) :
    (c.setDirty addr set).heap addr' =
      if addr' = addr then (c.heap addr').setDirty set else c.heap addr' := by
  by_cases heq : addr' = addr
  · subst heq
    simp [setDirty, modifyPage]
  · simp [setDirty, modifyPage, heq]

/-- A page is marked clean once the device has its bytes. -/
theorem Sound.setClean (hsound : Sound S c d held) {addr : Addr}
    (hagrees : S (c.heap addr).key.id →
      Agrees c d (c.heap addr) (c.heap addr).size) :
    Sound S (c.setDirty addr false) d held := by
  have hsame : ∀ addr', (c.setDirty addr false).heap addr' =
      { c.heap addr' with
        dirty := ((c.setDirty addr false).heap addr').dirty } := by
    intro addr'
    rw [setDirty_heap]
    split_ifs <;> rfl
  refine hsound.congr (hsound.layout.setDirty false) (fun _ h => h)
    (fun addr' => by rw [hsame]) (fun addr' => by rw [hsame])
    (fun addr' => by rw [hsame]) (fun addr' => by rw [hsame]) ?_
    (fun _ => rfl) rfl hsound.readFd hsound.writeFd
  intro addr' hmem hS hdirty
  rw [setDirty_heap] at hdirty
  split_ifs at hdirty with heq
  · subst heq
    exact .inr (hagrees hS)
  · exact .inl hdirty

theorem Sound.drop {addr : Addr} (hsound : Sound S c d (addr ::ₘ held)) :
    Sound S (c.erasePage (c.heap addr).key) d held := by
  refine hsound.congr hsound.layout.drop ?_ (by simp) (by simp) (by simp)
    (by simp) (by simp +contextual) (c.pathOf_modifyEntry _ fun _ => rfl)
    (by simp) ?_ ?_
  · intro addr' hmem
    rw [mem_live, erasePage_lru] at hmem
    rw [mem_live, Multiset.mem_cons]
    tauto
  all_goals
    intro id entry' fd hentry' hfd
    rw [lookup_erasePage] at hentry'
    split_ifs at hentry' with heq
    · subst heq
      obtain ⟨entry, hentry, rfl⟩ := Option.map_eq_some_iff.mp hentry'
      first
        | exact hsound.readFd _ entry fd hentry hfd
        | exact hsound.writeFd _ entry fd hentry hfd
    · first
        | exact hsound.readFd _ entry' fd hentry' hfd
        | exact hsound.writeFd _ entry' fd hentry' hfd

theorem Sound.move {s t : Cache × Multiset Addr} (hmove : Move s t)
    (hsound : Sound S s.1 d s.2) : Sound S t.1 d t.2 := by
  have hlayout := Layout.move hmove hsound.layout
  cases hmove with
  | inflight c held id n =>
      exact hsound.modifyEntry id (fun _ => rfl) (fun _ => rfl)
        (fun _ _ _ h => .inl h) (fun _ _ _ h => .inl h)
  | lose c held rest addr hlru hentry =>
      refine hsound.congr hlayout ?_ (fun _ => rfl) (fun _ => rfl)
        (fun _ => rfl) (fun _ => rfl) (fun _ _ _ h => .inl h) (fun _ => rfl)
        rfl hsound.readFd hsound.writeFd
      intro addr' hmem
      simp only [mem_live] at hmem ⊢
      rcases hmem with hmem | hmem
      · exact .inl (by simp [hlru, hmem])
      · exact .inr hmem
  | pop c held rest addr hlru =>
      refine hsound.congr hlayout ?_ (fun _ => rfl) (fun _ => rfl)
        (fun _ => rfl) (fun _ => rfl) (fun _ _ _ h => .inl h) (fun _ => rfl)
        rfl hsound.readFd hsound.writeFd
      intro addr' hmem
      simp only [mem_live, Multiset.mem_cons] at hmem ⊢
      rcases hmem with hmem | rfl | hmem
      · exact .inl (by simp [hlru, hmem])
      · exact .inl (by simp [hlru])
      · exact .inr hmem
  | drop c held addr hclean => exact hsound.drop
  | clean c held addr hsize =>
      refine hsound.setClean fun _ => ?_
      rw [hsize]
      exact agrees_zero c d _

/-- A new page is sound if it is well formed and holds what the device
holds. -/
structure Insertable (S : Id → Prop) (c : Cache) (d : Device)
    (page : Page) : Prop where
  entry : (c.lookup page.key.id).isSome
  slot : c.slot page.key = none
  wf : page.WF c.pageSize
  tail : page.ZeroTail
  clean : page.dirty = false
  agrees : S page.key.id → Agrees c d page page.size

theorem pathOf_emplaceFront (c : Cache) (page : Page) (id : Id) :
    (c.emplaceFront page).pathOf id = c.pathOf id := by
  refine pathOf_modifyEntry _ _ ?_ id
  intro entry
  unfold emplaceIndex
  split <;> rfl

theorem Sound.insert (hsound : Sound S c d held) {page : Page}
    (hpage : Insertable S c d page) :
    Sound S (c.emplaceFront page) d held := by
  have hlayout := hsound.layout.emplaceFront hpage.entry hpage.slot
  have hold : ∀ addr ∈ c.live held,
      (c.emplaceFront page).heap addr = c.heap addr := by
    intro addr hmem
    rw [emplaceFront_heap, Function.update_of_ne
      (Nat.ne_of_lt (hsound.layout.lt_next addr hmem))]
  have hnew : (c.emplaceFront page).heap c.nextAddr = page := by
    rw [emplaceFront_heap, Function.update_self]
  have hfds : ∀ id entry', (c.emplaceFront page).lookup id = some entry' →
      ∃ entry, c.lookup id = some entry ∧ entry'.path = entry.path ∧
        entry'.readFd = entry.readFd ∧ entry'.writeFd = entry.writeFd := by
    intro id entry' hentry'
    rw [lookup_emplaceFront] at hentry'
    split_ifs at hentry' with heq
    · subst heq
      obtain ⟨entry, hentry, rfl⟩ := Option.map_eq_some_iff.mp hentry'
      refine ⟨entry, hentry, ?_⟩
      unfold emplaceIndex
      split <;> exact ⟨rfl, rfl, rfl⟩
    · exact ⟨entry', hentry', rfl, rfl, rfl⟩
  refine ⟨hlayout, by simpa using hsound.pageSize_pos,
    by simpa using hsound.pageSize_lt, ?_, ?_, ?_, ?_, ?_, ?_⟩
  · intro addr hmem
    rw [live_emplaceFront, Multiset.mem_cons] at hmem
    rw [emplaceFront_pageSize]
    rcases hmem with rfl | hmem
    · rw [hnew]
      exact hpage.wf
    · rw [hold addr hmem]
      exact hsound.wf addr hmem
  · intro addr hmem hS
    rw [live_emplaceFront, Multiset.mem_cons] at hmem
    rcases hmem with rfl | hmem
    · rw [hnew]
      exact hpage.tail
    · rw [hold addr hmem] at hS ⊢
      exact hsound.tail addr hmem hS
  · intro id entry' fd hentry' hfd
    obtain ⟨entry, hentry, hpath, hread, -⟩ := hfds id entry' hentry'
    rw [hpath]
    exact hsound.readFd id entry fd hentry (hread ▸ hfd)
  · intro id entry' fd hentry' hfd
    obtain ⟨entry, hentry, hpath, -, hwrite⟩ := hfds id entry' hentry'
    rw [hpath]
    exact hsound.writeFd id entry fd hentry (hwrite ▸ hfd)
  · intro id id' path hpath hpath'
    rw [pathOf_emplaceFront] at hpath hpath'
    exact hsound.path_inj id id' path hpath hpath'
  · intro addr hmem hS hclean
    rw [live_emplaceFront, Multiset.mem_cons] at hmem
    rcases hmem with rfl | hmem
    · rw [hnew] at hS ⊢
      exact (hpage.agrees hS).congr rfl rfl (pathOf_emplaceFront c page)
        (by simp)
    · rw [hold addr hmem] at hS hclean ⊢
      exact (hsound.agrees addr hmem hS hclean).congr rfl rfl
        (pathOf_emplaceFront c page) (by simp)

/-- What the page operations may do to a sound cache.  `allowed` restricts the
pages that may be inserted further. -/
def soundGrant (S : Id → Prop) (d : Device) (allowed : Page → Prop) :
    Grant where
  fd c id fd := ∀ path, c.pathOf id = some path → d.fds fd = some path
  page c page := Insertable S c d page ∧ allowed page
  sent c addr := S (c.heap addr).key.id →
    Agrees c d (c.heap addr) (c.heap addr).size
  discard := False
  forget _ _ := False

theorem Sound.act {s t : Cache × Multiset Addr} {allowed : Page → Prop}
    (hact : Act (soundGrant S d allowed) s t) (hsound : Sound S s.1 d s.2) :
    Sound S t.1 d t.2 := by
  cases hact with
  | move s t hmove => exact hsound.move hmove
  | count c held id f hf =>
      refine hsound.modifyEntry id hf.pages hf.path ?_ ?_
      · intro entry fd _ hfd
        exact .inl (hf.readFd entry ▸ hfd)
      · intro entry fd _ hfd
        exact .inl (hf.writeFd entry ▸ hfd)
  | readFd c held id fd hfd =>
      refine hsound.modifyEntry id (fun _ => rfl) (fun _ => rfl) ?_
        (fun _ _ _ h => .inl h)
      rintro entry fd' hentry heq
      obtain rfl := Option.some.inj heq
      exact .inr (hfd entry.path (pathOf_of_lookup hentry))
  | writeFd c held id fd hfd =>
      refine hsound.modifyEntry id (fun _ => rfl) (fun _ => rfl)
        (fun _ _ _ h => .inl h) ?_
      rintro entry fd' hentry heq
      obtain rfl := Option.some.inj heq
      exact .inr (hfd entry.path (pathOf_of_lookup hentry))
  | queue c held readQueue promises nextFut =>
      exact hsound.congr
        (hsound.layout.congr rfl (fun _ => rfl) (fun _ => rfl) rfl)
        (fun _ h => h) (fun _ => rfl) (fun _ => rfl) (fun _ => rfl)
        (fun _ => rfl) (fun _ _ _ h => .inl h) (fun _ => rfl) rfl
        hsound.readFd hsound.writeFd
  | insert c held page hpage => exact hsound.insert hpage.1
  | sent c held addr hsent => exact hsound.setClean hsent
  | splice c held addr hmem =>
      refine hsound.congr (hsound.layout.splice hmem) ?_ (fun _ => rfl)
        (fun _ => rfl) (fun _ => rfl) (fun _ => rfl) (fun _ _ _ h => .inl h)
        (fun _ => rfl) rfl hsound.readFd hsound.writeFd
      intro addr' hmem'
      rwa [live_splice hmem] at hmem'
  | discard c held addr hfault => exact hfault.elim
  | forget c held addr hfault => exact hfault.elim

theorem Sound.acts {s t : Cache × Multiset Addr} {allowed : Page → Prop}
    (hacts : Acts (soundGrant S d allowed) s t) (hsound : Sound S s.1 d s.2) :
    Sound S t.1 d t.2 :=
  hacts.preserves (I := fun s => Sound S s.1 d s.2)
    (fun hact h => Sound.act hact h) hsound

/-- The cache after the write into a page. -/
def written (c : Cache) (r : Range) (input : List Byte) (addr : Addr) :
    Cache :=
  (c.splice addr).modifyPage addr fun page =>
    (page.write (slice input (r.bufOffset c.pageSize)
      (r.localSize c.pageSize)) (r.localOffset c.pageSize)).1.setDirty true

/-- A write leaves a sound cache: the page is dirty from now on. -/
theorem Sound.written (hsound : Sound S c d held) (r : Range)
    (input : List Byte) {addr : Addr} (hmem : addr ∈ c.lru) :
    Sound S (c.written r input addr) d held := by
  have hlayout : Layout (c.written r input addr) held :=
    (hsound.layout.splice hmem).modifyPage (Page.write_key _ _ _)
  have hlive : (c.written r input addr).live held = c.live held :=
    live_splice hmem
  have hsame : ∀ addr' ≠ addr,
      (c.written r input addr).heap addr' = c.heap addr' := by
    intro addr' hne
    exact Function.update_of_ne hne _ _
  have hself : (c.written r input addr).heap addr =
      ((c.heap addr).write (slice input (r.bufOffset c.pageSize)
        (r.localSize c.pageSize)) (r.localOffset c.pageSize)).1.setDirty
          true :=
    Function.update_self _ _ _
  refine ⟨hlayout, hsound.pageSize_pos, hsound.pageSize_lt, ?_, ?_,
    hsound.readFd, hsound.writeFd, hsound.path_inj, ?_⟩
  · intro addr' hmem'
    rw [hlive] at hmem'
    have hwf := hsound.wf addr' hmem'
    by_cases heq : addr' = addr
    · subst heq
      rw [hself]
      have hnew := hwf.write (slice input (r.bufOffset c.pageSize)
        (r.localSize c.pageSize)) (r.localOffset c.pageSize)
      exact ⟨hnew.pageSize_eq, hnew.length_data, hnew.size_le,
        hnew.pageSize_lt⟩
    · rw [hsame addr' heq]
      exact hwf
  · intro addr' hmem' hS
    rw [hlive] at hmem'
    by_cases heq : addr' = addr
    · subst heq
      rw [hself] at hS ⊢
      change S (Page.write _ _ _).1.key.id at hS
      rw [Page.write_key] at hS
      exact (hsound.tail addr' hmem' hS).write _ _
    · rw [hsame addr' heq] at hS ⊢
      exact hsound.tail addr' hmem' hS
  · intro addr' hmem' hS hclean
    rw [hlive] at hmem'
    by_cases heq : addr' = addr
    · subst heq
      rw [hself] at hclean
      cases hclean
    · rw [hsame addr' heq] at hS hclean ⊢
      exact (hsound.agrees addr' hmem' hS hclean).congr rfl rfl
        (fun _ => rfl) rfl

end

end Cache

end Madbfs
