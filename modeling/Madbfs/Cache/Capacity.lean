/-
The list of pages and its bound, also when the device fails.  An eviction may
give up a page that it could not flush, which takes its slot along; then the
layout is kept.  Every insertion is followed by the eviction of what is too
much, so the list is never longer than allowed, but for the pages that running
evictions still have to take.
-/
import Madbfs.Cache.Progress

namespace Madbfs

open Bytes

namespace ReadAtPc

def rest : ReadAtPc → Nat
  | .evicting _ pc => pc.rest
  | _ => 0

end ReadAtPc

namespace WriteAtPc

def rest : WriteAtPc → Nat
  | .evicting _ pc => pc.rest
  | _ => 0

end WriteAtPc

namespace Cache

/-- What keeps the layout: a page that is given up leaves with its slot. -/
def layoutGrant (allowed : Page → Prop) : Grant where
  fd _ _ _ := True
  page c page := (c.lookup page.key.id).isSome ∧ c.slot page.key = none ∧
    allowed page
  sent _ _ := True
  discard := True
  forget _ _ := False

/-- The eviction is not told that it cannot open the file of its page. -/
def EvictOpens : EvictPc → Reply → Prop
  | .opening _ _, .opened (.error _) => False
  | _, _ => True

section

variable {c c' : Cache} {r : Range} {reply : Reply} {allowed : Page → Prop}

theorem Layout.act {s t : Cache × Multiset Addr}
    (hact : Act (layoutGrant allowed) s t) (hlayout : Layout s.1 s.2) :
    Layout t.1 t.2 := by
  cases hact with
  | move s t hmove => exact hlayout.move hmove
  | count c held id f hf => exact hlayout.modifyEntry id hf.pages
  | readFd c held id fd hfd => exact hlayout.modifyEntry id fun _ => rfl
  | writeFd c held id fd hfd => exact hlayout.modifyEntry id fun _ => rfl
  | queue c held readQueue promises nextFut =>
      exact hlayout.congr rfl (fun _ => rfl) (fun _ => rfl) rfl
  | insert c held page hpage => exact hlayout.emplaceFront hpage.1 hpage.2.1
  | sent c held addr hsent => exact hlayout.setDirty false
  | splice c held addr hmem => exact hlayout.splice hmem
  | discard c held addr hfault => exact hlayout.drop
  | forget c held addr hfault => exact hfault.elim

theorem Layout.acts {s t : Cache × Multiset Addr}
    (hacts : Acts (layoutGrant allowed) s t) (hlayout : Layout s.1 s.2) :
    Layout t.1 t.2 :=
  hacts.preserves (I := fun s => Layout s.1 s.2)
    (fun hact h => Layout.act hact h) hlayout

theorem Act.maxPages_eq {G : Grant} {s t : Cache × Multiset Addr}
    (hact : Act G s t) : t.1.maxPages = s.1.maxPages := by
  cases hact with
  | move s t hmove => cases hmove <;> simp [setDirty, modifyPage]
  | splice c held addr hmem => rfl
  | _ => simp [setDirty, modifyPage]

theorem Acts.maxPages_eq {G : Grant} {s t : Cache × Multiset Addr}
    (hacts : Acts G s t) : t.1.maxPages = s.1.maxPages :=
  hacts.preserves (I := fun t => t.1.maxPages = s.1.maxPages)
    (fun hact h => hact.maxPages_eq.trans h) rfl

theorem evictAllowed_of_opens {pc : EvictPc} (hopens : EvictOpens pc reply) :
    EvictAllowed (layoutGrant allowed) c pc reply := by
  unfold EvictAllowed
  split
  · trivial
  · exact hopens
  · exact ⟨fun _ _ => trivial, fun _ => trivial⟩
  · trivial

/-- A resumed eviction takes the pages it still has to take. -/
theorem evictResume_shorter {pc : EvictPc} {x : Cache × Flow EvictPc Unit}
    (hx : c.evictResume pc reply = some x) :
    Flow.Ensures x
      (fun c' pc' => c'.lru.length + pc.rest = c.lru.length + pc'.rest)
      (fun c' _ => c'.lru.length = c.lru.length - pc.rest) := by
  have hnext : ∀ size c', c'.lru.length = c.lru.length →
      Flow.Ensures (evict size c')
        (fun c' pc' => c'.lru.length + size = c.lru.length + pc'.rest)
        (fun c' _ => c'.lru.length = c.lru.length - size) := by
    intro size c' heq
    rw [← heq]
    exact (evict_shorter size c').mono (fun _ _ h => h.2) fun _ _ h => h
  unfold evictResume at hx
  split at hx
  · next addr rest fd =>
      obtain rfl := Option.some.inj hx
      refine Flow.Ensures.andThen ?_
      unfold flushAt
      split
      · simp only [Flow.Ensures, modifyEntry_lru, EvictPc.rest]
      · unfold flushAtLoop
        split
        · simp only [Flow.Ensures, modifyEntry_lru, EvictPc.rest]
        · refine hnext rest _ ?_
          simp [evictDone, setDirty, modifyPage]
  · next addr rest err =>
      obtain rfl := Option.some.inj hx
      exact hnext rest _ (by simp)
  · next addr fd rest fpc =>
      obtain ⟨y, hy, rfl⟩ := Option.map_eq_some_iff.mp hx
      refine Flow.Ensures.andThen ?_
      rcases flushAtResume_cases hy with ⟨htook, rfl⟩ | ⟨hrefused, err, rfl⟩
      · unfold flushAtLoop
        split
        · simp only [Flow.Ensures, EvictPc.rest]
        · refine hnext rest _ ?_
          simp [evictDone, setDirty, modifyPage]
      · refine hnext rest _ ?_
        simp [evictDone]
  · cases hx

theorem readAtLookup_shorter (c : Cache) (r : Range) :
    Flow.Ensures (c.readAtLookup r)
      (fun c' _ => c'.lru.length ≤ c.lru.length)
      (fun c' _ => c'.lru.length ≤ c.lru.length) := by
  unfold readAtLookup
  split
  · trivial
  · split
    · next addr hpage =>
        exact (readAtFinish_work c r addr _).mono (fun _ _ h => h)
          fun c' _ heq => Nat.le_of_eq heq
    · split
      · exact Nat.le_refl _
      · exact Nat.le_refl _

theorem readAtResume_shorter {pc : ReadAtPc}
    {x : Cache × Flow ReadAtPc (Except Errc (List Byte))}
    (hx : c.readAtResume r pc reply = some x) :
    Flow.Ensures x
      (fun c' pc' => c'.lru.length ≤
        max c.maxPages (c.lru.length - pc.rest) + pc'.rest)
      (fun c' _ => c'.lru.length ≤
        max c.maxPages (c.lru.length - pc.rest)) := by
  have hsame : ∀ (c' : Cache) (err : Errc), c'.lru = c.lru → pc.rest = 0 →
      Flow.Ensures (c'.readAtError r err)
        (fun c' pc' => c'.lru.length ≤
          max c.maxPages (c.lru.length - pc.rest) + pc'.rest)
        (fun c' _ => c'.lru.length ≤
          max c.maxPages (c.lru.length - pc.rest)) := by
    intro c' err hlru hrest
    simp only [readAtError, Flow.Ensures, modifyEntry_lru, hlru, hrest]
    omega
  have hlookup : ∀ c' : Cache, c'.lru = c.lru → pc.rest = 0 →
      Flow.Ensures (c'.readAtLookup r)
        (fun c' pc' => c'.lru.length ≤
          max c.maxPages (c.lru.length - pc.rest) + pc'.rest)
        (fun c' _ => c'.lru.length ≤
          max c.maxPages (c.lru.length - pc.rest)) := by
    intro c' hlru hrest
    refine (readAtLookup_shorter c' r).mono (fun c₁ pc' h => ?_)
      fun c₁ _ h => ?_ <;> (rw [hlru] at h; omega)
  unfold readAtResume at hx
  split at hx
  · dsimp only at hx
    split at hx
    · obtain rfl := Option.some.inj hx
      simp only [Flow.Ensures, modifyEntry_lru, ReadAtPc.rest]
      omega
    · obtain rfl := Option.some.inj hx
      exact hlookup _ (modifyEntry_lru c _ _) rfl
  · next fut =>
      split at hx
      · cases hx
      · split at hx
        · obtain rfl := Option.some.inj hx
          exact hlookup c rfl rfl
        · obtain rfl := Option.some.inj hx
          exact hsame c _ rfl rfl
  · next fd =>
      obtain rfl := Option.some.inj hx
      simp only [readAtFetch, Flow.Ensures, ReadAtPc.rest, enqueue,
        modifyEntry_lru]
      omega
  · next err =>
      obtain rfl := Option.some.inj hx
      exact hsame c err rfl rfl
  · next fd fut bytes =>
      split at hx
      · obtain rfl := Option.some.inj hx
        exact hsame _ _ rfl rfl
      · obtain rfl := Option.some.inj hx
        unfold readAtInsert
        dsimp only
        split
        · trivial
        · next addr hslot =>
            refine Flow.Ensures.andThen ((evictExcess_shorter _).mono
              (fun c' pc' h => ?_) fun c' _ h => ?_)
            · simp only [setPromise, dequeue, emplaceFront_maxPages] at h
              simp only [ReadAtPc.rest]
              omega
            · refine (readAtFinish_work c' r addr _).mono (fun _ _ h => h)
                fun c'' _ heq => ?_
              simp only [setPromise, dequeue, emplaceFront_maxPages] at h
              omega
  · next fd fut err =>
      obtain rfl := Option.some.inj hx
      exact hsame _ _ rfl rfl
  · next addr epc =>
      obtain ⟨y, hy, rfl⟩ := Option.map_eq_some_iff.mp hx
      refine Flow.Ensures.andThen ((evictResume_shorter hy).mono
        (fun c' pc' h => ?_) fun c' _ h => ?_)
      · simp only [ReadAtPc.rest]
        omega
      · refine (readAtFinish_work c' r addr _).mono (fun _ _ h => h)
          fun c'' _ heq => ?_
        simp only [ReadAtPc.rest]
        omega
  · cases hx

theorem writeAtLookup_shorter (c : Cache) (r : Range) (input : List Byte) :
    Flow.Ensures (c.writeAtLookup r input)
      (fun c' pc' => c'.lru.length ≤ max c.maxPages c.lru.length + pc'.rest)
      (fun c' _ => c'.lru.length ≤ max c.maxPages c.lru.length) := by
  unfold writeAtLookup
  split
  · trivial
  · split
    · next addr hpage =>
        refine (writeAtFinish_work c r input addr _).mono (fun _ _ h => h)
          fun c' _ heq => ?_
        omega
    · refine Flow.Ensures.andThen ((evictExcess_shorter _).mono
        (fun c' pc' h => ?_) fun c' _ h => ?_)
      · rw [emplaceFront_maxPages] at h
        simp only [WriteAtPc.rest]
        omega
      · refine (writeAtFinish_work c' r input _ _).mono (fun _ _ h => h)
          fun c'' _ heq => ?_
        rw [emplaceFront_maxPages] at h
        omega

theorem writeAtResume_shorter {input : List Byte} {pc : WriteAtPc}
    {x : Cache × Flow WriteAtPc (Except Errc Nat)}
    (hx : c.writeAtResume r input pc reply = some x) :
    Flow.Ensures x
      (fun c' pc' => c'.lru.length ≤
        max c.maxPages (c.lru.length - pc.rest) + pc'.rest)
      (fun c' _ => c'.lru.length ≤
        max c.maxPages (c.lru.length - pc.rest)) := by
  unfold writeAtResume at hx
  split at hx
  · split at hx
    · obtain rfl := Option.some.inj hx
      simp only [Flow.Ensures, WriteAtPc.rest]
      omega
    · obtain rfl := Option.some.inj hx
      exact writeAtLookup_shorter c r input
  · split at hx
    · cases hx
    · split at hx
      · obtain rfl := Option.some.inj hx
        exact writeAtLookup_shorter c r input
      · obtain rfl := Option.some.inj hx
        simp only [Flow.Ensures, WriteAtPc.rest]
        omega
  · next addr epc =>
      obtain ⟨y, hy, rfl⟩ := Option.map_eq_some_iff.mp hx
      refine Flow.Ensures.andThen ((evictResume_shorter hy).mono
        (fun c' pc' h => ?_) fun c' _ h => ?_)
      · simp only [WriteAtPc.rest]
        omega
      · refine (writeAtFinish_work c' r input addr _).mono (fun _ _ h => h)
          fun c'' _ heq => ?_
        simp only [WriteAtPc.rest]
        omega
  · cases hx

end

end Cache

end Madbfs
