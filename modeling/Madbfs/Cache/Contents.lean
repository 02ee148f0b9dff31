/-
The file a client sees through the cache: the byte of a cached page where its
valid size reaches, the byte on the device elsewhere.  Evictions, fetches and
flushes leave this view alone, and a write changes it like a write to a flat
file, but for the bytes that the page did not hold before.
-/
import Madbfs.Cache.Ranges
import Madbfs.Cache.WorldSound

namespace Madbfs

open Bytes

namespace Cache

/-- The byte at a position of a file, as seen through the cache. -/
def contents (c : Cache) (d : Device) (id : Id) (pos : Nat) : Byte :=
  match c.slot ⟨id, pos / c.pageSize⟩ with
  | some addr =>
      if pos % c.pageSize < (c.heap addr).size then
        valueAt (c.heap addr).data (pos % c.pageSize)
      else valueAt (c.fileOf d id) pos
  | none => valueAt (c.fileOf d id) pos

/-- The file on the device and the valid bytes of its pages end before `m`. -/
structure Upper (c : Cache) (d : Device) (id : Id) (m : Nat) : Prop where
  file : (c.fileOf d id).length ≤ m
  page : ∀ index addr, c.slot ⟨id, index⟩ = some addr →
    0 < (c.heap addr).size → index * c.pageSize + (c.heap addr).size ≤ m

/-- Every byte below `n` is valid in its page, or on the device if the page is
not cached.  Pages of `pending` are left out. -/
def Covered (c : Cache) (d : Device) (pending : PageKey → Prop) (id : Id)
    (n : Nat) : Prop :=
  ∀ pos < n, pending ⟨id, pos / c.pageSize⟩ ∨
    match c.slot ⟨id, pos / c.pageSize⟩ with
    | some addr => pos % c.pageSize < (c.heap addr).size
    | none => pos < (c.fileOf d id).length

/-- Two states show the same file, and the second covers it if the first
does. -/
structure SameView (pending : PageKey → Prop) (n : Nat) (d d' : Device)
    (c c' : Cache) (id : Id) : Prop where
  contents : ∀ pos, c'.contents d' id pos = c.contents d id pos
  upper : ∀ m, c'.Upper d' id m ↔ c.Upper d id m
  covered : c.Covered d pending id n → c'.Covered d' pending id n

section

variable {S : Id → Prop} {c c' c₁ : Cache} {d d' d₁ : Device}
  {held held' : Multiset Addr} {id : Id} {pending : PageKey → Prop}
  {n : Nat}

theorem SameView.refl (d : Device) (c : Cache) (id : Id) :
    SameView pending n d d c c id :=
  ⟨fun _ => rfl, fun _ => Iff.rfl, fun h => h⟩

theorem SameView.trans (hleft : SameView pending n d d' c c' id)
    (hright : SameView pending n d' d₁ c' c₁ id) :
    SameView pending n d d₁ c c₁ id :=
  ⟨fun pos => (hright.contents pos).trans (hleft.contents pos),
    fun m => (hright.upper m).trans (hleft.upper m),
    fun h => hright.covered (hleft.covered h)⟩

/-- The view only depends on the slots, the valid bytes and the paths. -/
theorem sameView_of_eq (hslot : ∀ key, c'.slot key = c.slot key)
    (hdata : ∀ addr, (c'.heap addr).data = (c.heap addr).data)
    (hsize : ∀ addr, (c'.heap addr).size = (c.heap addr).size)
    (hpath : ∀ id, c'.pathOf id = c.pathOf id)
    (hpageSize : c'.pageSize = c.pageSize) : SameView pending n d d c c' id := by
  have hfile : c'.fileOf d id = c.fileOf d id := by
    rw [fileOf, fileOf, hpath]
  refine ⟨fun pos => ?_, fun m => ?_, fun h pos hpos => ?_⟩
  · simp only [contents, hslot, hdata, hsize, hfile, hpageSize]
  · constructor <;> intro hupper <;> refine ⟨?_, ?_⟩
    · exact hfile ▸ hupper.file
    · intro index addr
      simpa only [hslot, hsize, hpageSize] using hupper.page index addr
    · exact hfile ▸ hupper.file
    · intro index addr
      simpa only [hslot, hsize, hpageSize] using hupper.page index addr
  · simpa only [hslot, hsize, hfile, hpageSize] using h pos hpos

/-- A page that agrees with the device shows what the device has. -/
theorem contents_of_agrees {addr : Addr} (hsound : Sound S c d held) {pos : Nat}
    (hslot : c.slot ⟨id, pos / c.pageSize⟩ = some addr)
    (hagrees : Agrees c d (c.heap addr) (c.heap addr).size) :
    c.contents d id pos = valueAt (c.fileOf d id) pos := by
  have hkey := (hsound.layout.live_of_slot _ _ hslot).2
  unfold contents
  rw [hslot]
  dsimp only
  split_ifs with hlt
  · rw [hagrees.valueAt_eq _ hlt, filePos, hkey, Nat.div_add_mod']
  · rfl

theorem pathOf_erasePage (c : Cache) (key : PageKey) (id : Id) :
    (c.erasePage key).pathOf id = c.pathOf id :=
  pathOf_modifyEntry c key.id (by intro entry; rfl) id

theorem sameView_drop {addr : Addr}
    (hsound : Sound S c d (addr ::ₘ held)) (hS : S id)
    (hclean : (c.heap addr).dirty = false) :
    SameView pending n d d c (c.erasePage (c.heap addr).key) id := by
  have hlive : addr ∈ c.live (addr ::ₘ held) :=
    mem_live.mpr (.inr (Multiset.mem_cons_self _ _))
  have hslot := hsound.layout.slot_of_live addr hlive
  have hfile : (c.erasePage (c.heap addr).key).fileOf d id =
      c.fileOf d id := by
    rw [fileOf, fileOf, pathOf_erasePage]
  have hagrees : (c.heap addr).key.id = id →
      Agrees c d (c.heap addr) (c.heap addr).size := by
    rintro rfl
    exact hsound.agrees addr hlive hS hclean
  refine ⟨fun pos => ?_, fun m => ?_, fun h pos hpos => ?_⟩
  · by_cases hkey : (⟨id, pos / c.pageSize⟩ : PageKey) = (c.heap addr).key
    · rw [contents_of_agrees hsound (by rw [hkey]; exact hslot)
        (hagrees (congrArg PageKey.id hkey).symm)]
      unfold contents
      rw [slot_erasePage, erasePage_pageSize, if_pos hkey]
      dsimp only
      rw [hfile]
    · unfold contents
      rw [slot_erasePage, erasePage_pageSize, if_neg hkey, erasePage_heap,
        hfile]
  · constructor
    · intro hupper
      refine ⟨hfile ▸ hupper.file, ?_⟩
      intro index addr' hslot' hpos
      by_cases hkey : (⟨id, index⟩ : PageKey) = (c.heap addr).key
      · rw [hkey, hslot] at hslot'
        obtain rfl := Option.some.inj hslot'
        have hlength := (hagrees (congrArg PageKey.id hkey).symm).le_length hpos
        rw [filePos, ← hkey] at hlength
        exact Nat.le_trans hlength (hfile ▸ hupper.file)
      · have hpage := hupper.page index addr' (by
          rw [slot_erasePage, if_neg hkey]
          exact hslot')
        rw [erasePage_heap, erasePage_pageSize] at hpage
        exact hpage hpos
    · intro hupper
      refine ⟨hfile ▸ hupper.file, ?_⟩
      intro index addr' hslot' hpos
      rw [slot_erasePage] at hslot'
      split_ifs at hslot' with hkey
      rw [erasePage_heap] at hpos ⊢
      rw [erasePage_pageSize]
      exact hupper.page index addr' hslot' hpos
  · rw [erasePage_pageSize, slot_erasePage, erasePage_heap, hfile]
    rcases h pos hpos with hpending | hcovered
    · exact .inl hpending
    · refine .inr ?_
      split_ifs with hkey
      · rw [hkey, hslot] at hcovered
        dsimp only at hcovered ⊢
        have hlength := (hagrees (congrArg PageKey.id hkey).symm).le_length
          (by omega)
        rw [filePos, ← hkey] at hlength
        have hdiv := Nat.div_add_mod' pos c.pageSize
        dsimp only at hlength
        omega
      · exact hcovered

/-- An inserted page that agrees with the device shows what was there. -/
theorem sameView_insert {page : Page} (hsound : Sound S c d held) (hS : S id)
    (hpage : Insertable S c d page)
    (hfull : page.key.id = id → pending page.key ∨
      ∀ pos < n, pos / c.pageSize = page.key.index →
        pos % c.pageSize < page.size) :
    SameView pending n d d c (c.emplaceFront page) id := by
  have hfile : (c.emplaceFront page).fileOf d id = c.fileOf d id := by
    rw [fileOf, fileOf, pathOf_emplaceFront]
  have hslot := slot_emplaceFront hpage.entry hpage.slot
  have hnew : (c.emplaceFront page).heap c.nextAddr = page := by
    rw [emplaceFront_heap, Function.update_self]
  have hold : ∀ key addr, c.slot key = some addr →
      (c.emplaceFront page).heap addr = c.heap addr := by
    intro key addr hsome
    have hlt := hsound.layout.lt_next addr
      (hsound.layout.live_of_slot key addr hsome).1
    rw [emplaceFront_heap, Function.update_of_ne (Nat.ne_of_lt hlt)]
  refine ⟨fun pos => ?_, fun m => ?_, fun h pos hpos => ?_⟩
  · unfold contents
    rw [hslot, emplaceFront_pageSize, hfile]
    by_cases hkey : (⟨id, pos / c.pageSize⟩ : PageKey) = page.key
    · rw [if_pos hkey, hkey, hpage.slot]
      dsimp only
      rw [hnew]
      split_ifs with hlt
      · have hid : page.key.id = id := (congrArg PageKey.id hkey).symm
        rw [(hpage.agrees (hid ▸ hS)).valueAt_eq _ hlt, filePos, ← hkey,
          Nat.div_add_mod']
      · rfl
    · rw [if_neg hkey]
      cases hsome : c.slot ⟨id, pos / c.pageSize⟩ with
      | none => rfl
      | some addr =>
          dsimp only
          rw [hold _ addr hsome]
  · constructor
    · intro hupper
      refine ⟨hfile ▸ hupper.file, ?_⟩
      intro index addr hsome hpos
      have hkey : (⟨id, index⟩ : PageKey) ≠ page.key := by
        intro hkey
        rw [hkey, hpage.slot] at hsome
        cases hsome
      have hbound := hupper.page index addr (by
        rw [hslot, if_neg hkey]
        exact hsome)
      rw [hold _ addr hsome, emplaceFront_pageSize] at hbound
      exact hbound hpos
    · intro hupper
      refine ⟨hfile ▸ hupper.file, ?_⟩
      intro index addr hsome hpos
      rw [hslot] at hsome
      rw [emplaceFront_pageSize]
      split_ifs at hsome with hkey
      · obtain rfl := Option.some.inj hsome
        rw [hnew] at hpos ⊢
        have hid : page.key.id = id := (congrArg PageKey.id hkey).symm
        have hlength := (hpage.agrees (hid ▸ hS)).le_length hpos
        rw [filePos, ← hkey] at hlength
        exact Nat.le_trans hlength hupper.file
      · rw [hold _ addr hsome] at hpos ⊢
        exact hupper.page index addr hsome hpos
  · rw [hslot, emplaceFront_pageSize, hfile]
    by_cases hkey : (⟨id, pos / c.pageSize⟩ : PageKey) = page.key
    · have hid : page.key.id = id := (congrArg PageKey.id hkey).symm
      rcases hfull hid with hpending | hbytes
      · exact .inl (hkey ▸ hpending)
      · refine .inr ?_
        rw [if_pos hkey]
        dsimp only
        rw [hnew]
        exact hbytes pos hpos (congrArg PageKey.index hkey)
    · rw [if_neg hkey]
      rcases h pos hpos with hpending | hcovered
      · exact .inl hpending
      · refine .inr ?_
        cases hsome : c.slot ⟨id, pos / c.pageSize⟩ with
        | none =>
            rw [hsome] at hcovered
            exact hcovered
        | some addr =>
            rw [hsome] at hcovered
            dsimp only at hcovered ⊢
            rw [hold _ addr hsome]
            exact hcovered

theorem sameView_setDirty (addr : Addr) (set : Bool) :
    SameView pending n d d c (c.setDirty addr set) id := by
  refine sameView_of_eq (fun _ => rfl) (fun addr' => ?_) (fun addr' => ?_)
    (fun _ => rfl) rfl
  · rw [setDirty_heap]
    split_ifs <;> rfl
  · rw [setDirty_heap]
    split_ifs <;> rfl

theorem sameView_modifyEntry (id' : Id) {f : LookupEntry → LookupEntry}
    (hpages : ∀ entry, (f entry).pages = entry.pages)
    (hpath : ∀ entry, (f entry).path = entry.path) :
    SameView pending n d d c (c.modifyEntry id' f) id :=
  sameView_of_eq (c.slot_modifyEntry id' f hpages) (by simp) (by simp)
    (c.pathOf_modifyEntry id' hpath) (by simp)

/-- What the page operations do without writing leaves the view alone. -/
theorem Act.sameView {s t : Cache × Multiset Addr} {allowed : Page → Prop}
    (hact : Act (soundGrant S d allowed) s t) (hsound : Sound S s.1 d s.2)
    (hS : S id)
    (hfull : ∀ page, allowed page → page.key.id = id → pending page.key ∨
      ∀ pos < n, pos / s.1.pageSize = page.key.index →
        pos % s.1.pageSize < page.size) :
    SameView pending n d d s.1 t.1 id := by
  cases hact with
  | move s t hmove =>
      cases hmove with
      | inflight c held id' m =>
          exact sameView_modifyEntry id' (fun _ => rfl) (fun _ => rfl)
      | lose c held rest addr hlru hentry =>
          exact sameView_of_eq (fun _ => rfl) (fun _ => rfl) (fun _ => rfl)
            (fun _ => rfl) rfl
      | pop c held rest addr hlru =>
          exact sameView_of_eq (fun _ => rfl) (fun _ => rfl) (fun _ => rfl)
            (fun _ => rfl) rfl
      | drop c held addr hclean => exact sameView_drop hsound hS hclean
      | clean c held addr hsize => exact sameView_setDirty addr false
  | count c held id' f hf => exact sameView_modifyEntry id' hf.pages hf.path
  | readFd c held id' fd hfd =>
      exact sameView_modifyEntry id' (fun _ => rfl) (fun _ => rfl)
  | writeFd c held id' fd hfd =>
      exact sameView_modifyEntry id' (fun _ => rfl) (fun _ => rfl)
  | queue c held readQueue promises nextFut =>
      exact sameView_of_eq (fun _ => rfl) (fun _ => rfl) (fun _ => rfl)
        (fun _ => rfl) rfl
  | insert c held page hpage =>
      exact sameView_insert hsound hS hpage.1 (hfull page hpage.2)
  | sent c held addr hsent => exact sameView_setDirty addr false
  | splice c held addr hmem =>
      exact sameView_of_eq (fun _ => rfl) (fun _ => rfl) (fun _ => rfl)
        (fun _ => rfl) rfl
  | discard c held addr hfault => exact hfault.elim
  | forget c held addr hfault => exact hfault.elim

theorem Acts.sameView {s t : Cache × Multiset Addr} {allowed : Page → Prop}
    (hacts : Acts (soundGrant S d allowed) s t) (hsound : Sound S s.1 d s.2)
    (hS : S id)
    (hfull : ∀ page, allowed page → page.key.id = id → pending page.key ∨
      ∀ pos < n, pos / s.1.pageSize = page.key.index →
        pos % s.1.pageSize < page.size) :
    SameView pending n d d s.1 t.1 id := by
  refine (hacts.preserves (I := fun t => Sound S t.1 d t.2 ∧
    t.1.pageSize = s.1.pageSize ∧ SameView pending n d d s.1 t.1 id) ?_
    ⟨hsound, rfl, .refl d s.1 id⟩).2.2
  rintro u v hact ⟨hsound, hsize, hview⟩
  refine ⟨hsound.act hact, hact.keepsData.pageSize.trans hsize, ?_⟩
  exact hview.trans (hact.sameView hsound hS (by rwa [hsize]))

/-- The device taking valid bytes of a page leaves the view alone. -/
theorem sameView_sent (hsound : Sound S c d held) {page : Addr}
    (hmem : page ∈ c.live held) {path : Path}
    (hpath : c.pathOf (c.heap page).key.id = some path)
    {written len m : Nat} (hle : written + len ≤ (c.heap page).size)
    (hm : m ≤ len) :
    SameView pending n d
      (c.sentDevice d (c.heap page) path written len m) c c id := by
  have hslot := hsound.layout.slot_of_live page hmem
  have hwf := hsound.wf page hmem
  have hlength := hwf.length_data
  have hsize := hwf.size_le
  have hbytes : ((slice (c.heap page).data written len).take m).length =
      m := by
    rw [List.length_take, length_slice]
    omega
  by_cases hid : c.pathOf id = some path
  · have hkeyid : (c.heap page).key.id = id :=
      hsound.path_inj _ _ path hpath hid
    have hfile : c.fileOf d id = d.file path := fileOf_eq hid
    have hfile' : c.fileOf (c.sentDevice d (c.heap page) path written len m)
        id = overlay (d.file path) (c.filePos (c.heap page) written)
          ((slice (c.heap page).data written len).take m) := by
      rw [fileOf_sentDevice, if_pos hid]
    have hkey : (⟨id, (c.heap page).key.index⟩ : PageKey) =
        (c.heap page).key := hkeyid ▸ rfl
    have hpageSlot : c.slot ⟨id, (c.heap page).key.index⟩ = some page := by
      rw [hkey]
      exact hslot
    refine ⟨fun pos => ?_, fun k => ?_, fun h pos hpos => ?_⟩
    · have hunwritten : (∀ x, pos / c.pageSize = (c.heap page).key.index →
          pos % c.pageSize = x → (c.heap page).size ≤ x) →
          valueAt (c.fileOf (c.sentDevice d (c.heap page) path written len m)
            id) pos = valueAt (c.fileOf d id) pos := by
        intro hout
        rw [hfile', hfile, valueAt_overlay, hbytes, if_neg]
        rintro ⟨hge, hlt⟩
        have hdiv := Nat.div_add_mod' pos c.pageSize
        have hmod := Nat.mod_lt pos hsound.pageSize_pos
        unfold filePos at hge hlt
        have hindex : pos / c.pageSize = (c.heap page).key.index := by
          refine index_eq_of_pos (pos -
            (c.heap page).key.index * c.pageSize) hmod ?_ ?_ <;> omega
        have hbig := hout _ hindex rfl
        rw [hindex] at hdiv
        omega
      unfold contents
      cases hsome : c.slot ⟨id, pos / c.pageSize⟩ with
      | none =>
          dsimp only
          refine hunwritten ?_
          intro x hindex
          rw [hindex, hpageSlot] at hsome
          cases hsome
      | some addr =>
          dsimp only
          split_ifs with hlt
          · rfl
          · refine hunwritten ?_
            rintro x hindex rfl
            rw [hindex, hpageSlot] at hsome
            obtain rfl := Option.some.inj hsome
            omega
    · have hlength' : ∀ k, (c.fileOf (c.sentDevice d (c.heap page) path
          written len m) id).length ≤ k ↔ (c.fileOf d id).length ≤ k ∧
          (0 < m → c.filePos (c.heap page) (written + m) ≤ k) := by
        intro k
        rw [hfile', hfile]
        rcases Nat.eq_zero_or_pos m with hzero | hpos
        · rw [show overlay (d.file path) (c.filePos (c.heap page) written)
            ((slice (c.heap page).data written len).take m) = d.file path by
              simp [overlay, hzero]]
          simp [hzero]
        · rw [length_overlay _ _ (by rw [hbytes]; exact hpos), hbytes]
          unfold filePos
          omega
      constructor
      · intro hupper
        exact ⟨((hlength' k).mp hupper.file).1, hupper.page⟩
      · intro hupper
        refine ⟨(hlength' k).mpr ⟨hupper.file, fun hpos => ?_⟩, hupper.page⟩
        have hbound := hupper.page _ page hpageSlot (by omega)
        unfold filePos
        omega
    · rcases h pos hpos with hpending | hcovered
      · exact .inl hpending
      · refine .inr ?_
        cases hsome : c.slot ⟨id, pos / c.pageSize⟩ with
        | none =>
            rw [hsome] at hcovered
            dsimp only at hcovered ⊢
            rw [hfile']
            rw [hfile] at hcovered
            exact Nat.lt_of_lt_of_le hcovered (length_le_overlay _ _ _)
        | some addr =>
            rw [hsome] at hcovered
            exact hcovered
  · have hfile : c.fileOf (c.sentDevice d (c.heap page) path written len m)
        id = c.fileOf d id := by
      rw [fileOf_sentDevice, if_neg hid]
    refine ⟨fun pos => ?_, fun k => ?_, fun h pos hpos => ?_⟩
    · unfold contents
      rw [hfile]
    · constructor
      · intro hupper
        exact ⟨hfile ▸ hupper.file, hupper.page⟩
      · intro hupper
        exact ⟨hfile.symm ▸ hupper.file, hupper.page⟩
    · rw [hfile]
      exact h pos hpos

/-- A device with the same content for the file shows the same. -/
theorem sameView_device (hsame : c.fileOf d' id = c.fileOf d id) :
    SameView pending n d d' c c id := by
  refine ⟨fun pos => ?_, fun k => ?_, fun h pos hpos => ?_⟩
  · unfold contents
    rw [hsame]
  · constructor
    · intro hupper
      exact ⟨hsame ▸ hupper.file, hupper.page⟩
    · intro hupper
      exact ⟨hsame.symm ▸ hupper.file, hupper.page⟩
  · rw [hsame]
    exact h pos hpos

section Write

variable {r : Range} {input : List Byte} {addr : Addr}

/-- The page after the write of a part that fits. -/
theorem written_page (hsound : Sound S c d held) (hmem : addr ∈ c.lru)
    (hfits : r.Fits c.pageSize) (hlen : input.length = r.len) :
    (c.written r input addr).heap addr = { c.heap addr with
      data := overlay (c.heap addr).data (r.localOffset c.pageSize)
        (slice input (r.bufOffset c.pageSize) (r.localSize c.pageSize))
      size := max (r.localOffset c.pageSize + r.localSize c.pageSize)
        (c.heap addr).size
      dirty := true } ∧
    (slice input (r.bufOffset c.pageSize)
      (r.localSize c.pageSize)).length = r.localSize c.pageSize := by
  have hpart : (slice input (r.bufOffset c.pageSize)
      (r.localSize c.pageSize)).length = r.localSize c.pageSize := by
    have hstart := hfits.start_eq
    have hstop := hfits.stop_le
    unfold Range.stop at hstop
    rw [length_slice]
    omega
  refine ⟨?_, hpart⟩
  have hwrite := Page.write_eq
    (hsound.wf addr (mem_live_of_mem_lru hmem))
    hfits.offset_lt (by rw [hpart]; exact hfits.stop_le_page)
  have hself : (c.written r input addr).heap addr =
      ((c.heap addr).write (slice input (r.bufOffset c.pageSize)
        (r.localSize c.pageSize)) (r.localOffset c.pageSize)).1.setDirty
          true :=
    Function.update_self _ _ _
  rw [hself, hwrite, hpart]
  rfl

theorem written_heap_ne (r : Range) (input : List Byte) {addr' : Addr}
    (hne : addr' ≠ addr) :
    (c.written r input addr).heap addr' = c.heap addr' :=
  Function.update_of_ne hne _ _

/-- A write shows its bytes.  Between the end of what the page held and the
start of the write it shows zeros; everywhere else it shows what was there. -/
theorem contents_written (hsound : Sound S c d held)
    (hslot : c.slot r.key = some addr) (hmem : addr ∈ c.lru)
    (hfits : r.Fits c.pageSize) (hlen : input.length = r.len) {id : Id}
    (hS : S id) (pos : Nat) :
    (c.written r input addr).contents d id pos =
      if id = r.id ∧ r.start c.pageSize ≤ pos ∧ pos < r.stop c.pageSize then
        valueAt input (pos - r.offset)
      else if id = r.id ∧ pos / c.pageSize = r.index ∧
          (c.heap addr).size ≤ pos % c.pageSize ∧
          pos % c.pageSize < r.localOffset c.pageSize then 0
      else c.contents d id pos := by
  obtain ⟨hpage, hpart⟩ := written_page hsound hmem hfits hlen
  have hlive : addr ∈ c.live held := mem_live_of_mem_lru hmem
  have hdiv := Nat.div_add_mod' pos c.pageSize
  have hmod := Nat.mod_lt pos hsound.pageSize_pos
  have hoffset := hfits.offset_lt
  have hle := hfits.stop_le_page
  have hstart := hfits.start_eq
  unfold Range.stop
  unfold Range.start at hstart ⊢
  by_cases hkey : (⟨id, pos / c.pageSize⟩ : PageKey) = r.key
  · have hid : id = r.id := congrArg PageKey.id hkey
    have hindex : pos / c.pageSize = r.index := congrArg PageKey.index hkey
    rw [hindex] at hdiv
    have hnew : (c.written r input addr).contents d id pos =
        if pos % c.pageSize < max (r.localOffset c.pageSize +
            r.localSize c.pageSize) (c.heap addr).size then
          valueAt (overlay (c.heap addr).data (r.localOffset c.pageSize)
            (slice input (r.bufOffset c.pageSize) (r.localSize c.pageSize)))
            (pos % c.pageSize)
        else valueAt (c.fileOf d id) pos := by
      change (match c.slot ⟨id, pos / c.pageSize⟩ with
        | some addr' => _
        | none => _) = _
      rw [hkey, hslot]
      change (if pos % c.pageSize <
        ((c.written r input addr).heap addr).size then _ else _) = _
      rw [hpage]
      rfl
    have hold : c.contents d id pos =
        if pos % c.pageSize < (c.heap addr).size then
          valueAt (c.heap addr).data (pos % c.pageSize)
        else valueAt (c.fileOf d id) pos := by
      unfold contents
      rw [hkey, hslot]
    rw [hnew, hold, valueAt_overlay, hpart]
    by_cases hin : r.localOffset c.pageSize ≤ pos % c.pageSize ∧
        pos % c.pageSize < r.localOffset c.pageSize + r.localSize c.pageSize
    · rw [if_pos (by omega), if_pos hin, if_pos ⟨hid, by omega⟩,
        valueAt_slice, if_pos (by omega)]
      congr 1
      omega
    · rw [if_neg hin, if_neg (by omega :
        ¬ (id = r.id ∧ r.index * c.pageSize + r.localOffset c.pageSize ≤ pos ∧
          pos < r.index * c.pageSize + r.localOffset c.pageSize +
            r.localSize c.pageSize))]
      by_cases hgap : (c.heap addr).size ≤ pos % c.pageSize ∧
          pos % c.pageSize < r.localOffset c.pageSize
      · rw [if_pos (by omega), if_pos ⟨hid, hindex, hgap⟩]
        refine hsound.tail addr hlive ?_ _ hgap.1
        rw [(hsound.layout.live_of_slot _ _ hslot).2]
        change S r.id
        exact hid ▸ hS
      · rw [if_neg (by omega : ¬ (id = r.id ∧ pos / c.pageSize = r.index ∧
          (c.heap addr).size ≤ pos % c.pageSize ∧
          pos % c.pageSize < r.localOffset c.pageSize))]
        by_cases hlt : pos % c.pageSize < (c.heap addr).size
        · rw [if_pos (by omega), if_pos hlt]
        · rw [if_neg (by omega), if_neg hlt]
  · have hother : (c.written r input addr).contents d id pos =
        c.contents d id pos := by
      unfold contents
      change (match c.slot ⟨id, pos / c.pageSize⟩ with
        | some addr' => _
        | none => _) = _
      cases hsome : c.slot ⟨id, pos / c.pageSize⟩ with
      | none => rfl
      | some addr' =>
          have hne : addr' ≠ addr := by
            rintro rfl
            have h1 := (hsound.layout.live_of_slot _ _ hsome).2
            have h2 := (hsound.layout.live_of_slot _ _ hslot).2
            exact hkey (h1.symm.trans h2)
          dsimp only
          rw [written_heap_ne r input hne]
          rfl
    have hout : ¬ (id = r.id ∧ pos / c.pageSize = r.index) := by
      rintro ⟨rfl, hindex⟩
      exact hkey (by rw [hindex]; rfl)
    rw [hother, if_neg, if_neg]
    · rintro ⟨hid, hindex, -⟩
      exact hout ⟨hid, hindex⟩
    · rintro ⟨hid, hge, hlt⟩
      refine hout ⟨hid, ?_⟩
      refine index_eq_of_pos (pos - r.index * c.pageSize) hmod
        ?_ ?_ <;> omega

/-- A write moves the end of the file to where it stops, at least. -/
theorem upper_written (hsound : Sound S c d held)
    (hslot : c.slot r.key = some addr) (hmem : addr ∈ c.lru)
    (hfits : r.Fits c.pageSize) (hlen : input.length = r.len) (id : Id)
    (m : Nat) :
    (c.written r input addr).Upper d id m ↔
      c.Upper d id m ∧ (id = r.id → r.stop c.pageSize ≤ m) := by
  obtain ⟨hpage, -⟩ := written_page hsound hmem hfits hlen
  have hpos := hfits.size_pos
  have hsize : ∀ index addr', c.slot ⟨id, index⟩ = some addr' →
      addr' = addr → index = r.index ∧ id = r.id := by
    rintro index addr' hsome rfl
    have h1 := (hsound.layout.live_of_slot _ _ hsome).2
    have h2 := (hsound.layout.live_of_slot _ _ hslot).2
    have hkey := h1.symm.trans h2
    exact ⟨congrArg PageKey.index hkey, congrArg PageKey.id hkey⟩
  constructor
  · intro hupper
    refine ⟨⟨hupper.file, ?_⟩, ?_⟩
    · intro index addr' hsome hpositive
      have hbound := hupper.page index addr' hsome
      by_cases heq : addr' = addr
      · subst heq
        rw [hpage] at hbound
        have hbound := hbound (by dsimp only; omega)
        change index * c.pageSize + max _ _ ≤ m at hbound
        omega
      · rw [written_heap_ne r input heq] at hbound
        exact hbound hpositive
    · rintro rfl
      have hbound := hupper.page r.index addr hslot
      rw [hpage] at hbound
      have hbound := hbound (by dsimp only; omega)
      change r.index * c.pageSize + max _ _ ≤ m at hbound
      unfold Range.stop Range.start
      omega
  · rintro ⟨hupper, hstop⟩
    refine ⟨hupper.file, ?_⟩
    intro index addr' hsome hpositive
    by_cases heq : addr' = addr
    · obtain ⟨rfl, rfl⟩ := hsize index addr' hsome heq
      subst heq
      rw [hpage] at hpositive ⊢
      have hbound := hupper.page r.index addr' hsome
      have hstop := hstop rfl
      unfold Range.stop Range.start at hstop
      change r.index * c.pageSize + max _ _ ≤ m
      by_cases hzero : 0 < (c.heap addr').size
      · have := hbound hzero
        omega
      · omega
    · rw [written_heap_ne r input heq] at hpositive ⊢
      exact hupper.page index addr' hsome hpositive

/-- After a write that leaves its page covered, the page is not pending. -/
theorem covered_written (hsound : Sound S c d held)
    (hslot : c.slot r.key = some addr) (hmem : addr ∈ c.lru)
    (hfits : r.Fits c.pageSize) (hlen : input.length = r.len)
    {pending' : PageKey → Prop}
    (hpending : ∀ key, pending key → key = r.key ∨ pending' key)
    (hfull : id = r.id → ∀ pos < n, pos / c.pageSize = r.index →
      pos % c.pageSize < max (r.localOffset c.pageSize +
        r.localSize c.pageSize) (c.heap addr).size)
    (hcovered : c.Covered d pending id n) :
    (c.written r input addr).Covered d pending' id n := by
  obtain ⟨hpage, -⟩ := written_page hsound hmem hfits hlen
  intro pos hpos
  change pending' ⟨id, pos / c.pageSize⟩ ∨
    match c.slot ⟨id, pos / c.pageSize⟩ with
    | some addr' => pos % c.pageSize <
        ((c.written r input addr).heap addr').size
    | none => _
  by_cases hkey : (⟨id, pos / c.pageSize⟩ : PageKey) = r.key
  · refine .inr ?_
    rw [hkey, hslot]
    dsimp only
    rw [hpage]
    exact hfull (congrArg PageKey.id hkey) pos hpos
      (congrArg PageKey.index hkey)
  · rcases hcovered pos hpos with hpend | hbytes
    · exact .inl ((hpending _ hpend).resolve_left hkey)
    · refine .inr ?_
      cases hsome : c.slot ⟨id, pos / c.pageSize⟩ with
      | none =>
          rw [hsome] at hbytes
          exact hbytes
      | some addr' =>
          rw [hsome] at hbytes
          dsimp only at hbytes ⊢
          have hne : addr' ≠ addr := by
            rintro rfl
            have h1 := (hsound.layout.live_of_slot _ _ hsome).2
            have h2 := (hsound.layout.live_of_slot _ _ hslot).2
            exact hkey (h1.symm.trans h2)
          rw [written_heap_ne r input hne]
          exact hbytes

end Write

end

end Cache

end Madbfs
