/-
The tree and the cache.  While the cache is tidy, which it is whenever none of
its own operations is in progress, an entry can be taken out of it, so an
operation of the tree that drops nodes does not go wrong there.
-/
import Madbfs.Cache.Whole
import Madbfs.Tree.Refresh

namespace Madbfs

namespace Cache

variable {c : Cache} {id : Id}

/-- The pages of a tidy cache are on the list, so the entry can be taken
out. -/
theorem extract_run (htidy : c.Tidy 0 0) (id : Id) :
    ∃ c', c.extract id = (c', .done ()) ∧ c'.Tidy 0 0 ∧
      c'.lookup id = none := by
  have hensures := extract_tidy htidy id
  unfold extract at hensures ⊢
  cases hentry : c.lookup id with
  | none => exact ⟨c, rfl, htidy, hentry⟩
  | some entry =>
      have hlisted : ∀ addr ∈ entry.addrs, addr ∈ c.lru := by
        intro addr haddr
        obtain ⟨index, hpage⟩ := mem_addrs.mp haddr
        have hslot : c.slot ⟨id, index⟩ = some addr := by
          simp [slot, hentry, hpage]
        have hlive := (htidy.layout.live_of_slot _ _ hslot).1
        rw [mem_live] at hlive
        simpa using hlive
      simp only [hentry, if_pos hlisted] at hensures ⊢
      exact ⟨_, rfl, hensures, AList.lookup_erase id c.table⟩

end Cache

namespace FileTree

/-- The cache, if there is one, is tidy. -/
def Caching (s : FileTree) : Prop :=
  ∀ c, s.cache = some c → c.Tidy 0 0

/-- The cache, if there is one, has no entry for the node. -/
def Uncached (s : FileTree) (n : Id) : Prop :=
  ∀ c, s.cache = some c → c.lookup n = none

variable {s s' : FileTree}

theorem Caching.congr (h : s.Caching) (hcache : s'.cache = s.cache) :
    s'.Caching := by
  intro c hc
  rw [hcache] at hc
  exact h c hc

theorem cache_apply {e : Edit} (he : ∀ c, e ≠ .cache c) :
    (s.apply e).cache = s.cache := by
  cases e with
  | cache c => exact absurd rfl (he c)
  | attach dir n =>
      simp only [FileTree.apply, FileTree.attach]
      split <;> rfl
  | _ => rfl

end FileTree

namespace Fs

open Program FileTree

variable {s s' : FileTree} {n : Id}

theorem invalidateOne_run (hcache : s.Caching) (n : Id) :
    ∃ s', invalidateOne n s = some (.ok (), s') ∧
      s' = { s with cache := s'.cache } ∧ s'.Caching ∧ s'.Uncached n := by
  unfold invalidateOne
  rw [bind_of_ok (state_apply s)]
  cases hc : s.cache with
  | none =>
      refine ⟨s, rfl, rfl, hcache, fun c hc' => ?_⟩
      cases hc.symm.trans hc'
  | some c =>
      obtain ⟨c', hextract, htidy, hgone⟩ := Cache.extract_run (hcache c hc) n
      dsimp only
      rw [hextract]
      refine ⟨s.apply (.cache c'), rfl, rfl, fun c'' hc'' => ?_,
        fun c'' hc'' => ?_⟩
      · cases hc''
        exact htidy
      · cases hc''
        exact hgone

theorem invalidate_run (hcache : s.Caching) (n : Id) (file : File) :
    ∃ s', invalidate n file s = some (.ok (), s') ∧
      SameTree (s.apply (.destroy (s.dropped file))) s' ∧ s'.Caching := by
  have hends : ∃ s', invalidate n file s = some (.ok (), s') ∧ s'.Caching := by
    cases file with
    | directory children synced =>
        rw [invalidate, bind_of_ok (state_apply s)]
        obtain ⟨s₁, hrun₁, hs₁⟩ := forEach_run (I := fun _ t => t.Caching)
          (g := fun m => edit (.eraseHandles m))
          (l := children.flatMap fun e => s.walk e.2)
          (fun m _ t _ ht => ⟨_, rfl, ht⟩) hcache
        obtain ⟨s₂, hrun₂, hs₂⟩ := forEach_run (I := fun _ t => t.Caching)
          (g := invalidateOne) (l := children.flatMap fun e => s.walk e.2)
          (fun m _ t _ ht => by
            obtain ⟨t', hrun, -, ht', -⟩ := invalidateOne_run ht m
            exact ⟨t', hrun, ht'⟩) hs₁
        rw [bind_of_ok hrun₁, bind_of_ok hrun₂]
        exact ⟨_, rfl, hs₂⟩
    | regular dirty =>
        rw [invalidate]
        obtain ⟨s₁, hrun, -, hs₁, -⟩ := invalidateOne_run hcache n
        rw [bind_of_ok hrun]
        exact ⟨_, rfl, hs₁⟩
    | link | other | error => exact ⟨s, rfl, hcache⟩
  obtain ⟨s', hrun, hcache'⟩ := hends
  exact ⟨s', hrun, (invalidate_cases hrun).2, hcache'⟩

end Fs

end Madbfs
