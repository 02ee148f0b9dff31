/-
When nodes expire.  While `m_ttl` holds a duration, a node of the tree expires
no later than this duration after the last operation, unless it was put into
the tree by `mknod`, `mkdir` or `symlink`, which leave it with the expiration
it was constructed with.
-/
import Madbfs.Tree.Runs

namespace Madbfs

namespace FileTree

variable {s s' : FileTree} {n : Id} {e : Edit} {ctx : Ctx} {op : Op}
  {env : Env}

/-- Every node of the tree but the root expires within `m_ttl`. -/
def Expiring (s : FileTree) : Prop :=
  ∀ t, s.ttl = some t → ∀ n, s.InTree n → n ≠ s.root →
    ∃ node time, s.nodes n = some node ∧ node.expiration = some time ∧
      time ≤ s.now + t * nanosPerSec

/-- Without `m_ttl`, nodes that were built or refreshed since it was changed,
or since all nodes were marked as expired, do not expire. -/
def Lasting (s : FileTree) : Prop :=
  s.ttl = none → ∀ n ∈ s.renewed, ∀ node, s.nodes n = some node →
    node.expiration = none

/-- `Expiring` while an operation runs: it holds of the nodes the operation
started with, and of the new ones once they have an expiration. -/
def ExpiringIn (ctx : Ctx) (s : FileTree) : Prop :=
  ∀ t, s.ttl = some t → ∀ n node, s.nodes n = some node → ctx.inside n →
    n ≠ s.root → (n.inner ≤ ctx.base → node.expiration.isSome) ∧
      ∀ time, node.expiration = some time → time ≤ s.now + t * nanosPerSec

/-- What operations other than `set_ttl` do about expirations. -/
def Steady (s : FileTree) : Edit → Prop
  | .alloc _ node => node.expiration = none
  | .expireAll _ time => time = some s.now
  | .setTtl _ _ => False
  | _ => True

theorem Plain.steady (h : s.Plain e) : s.Steady e := by
  cases e with
  | alloc n node => exact h.1
  | expireAll ns time => exact absurd h not_false
  | setTtl ttl ns => exact absurd h not_false
  | _ => exact trivial

theorem steady_extra {s₀ : FileTree} (hop : ∀ ttl, op ≠ .setTtl ttl)
    (h : op.extra env s₀ s e) : s.Steady e := by
  cases op with
  | mknod path mode dev =>
      cases e with
      | alloc n node => exact h.1
      | _ => exact absurd h not_false
  | mkdir path mode =>
      cases e with
      | alloc n node => exact h.1
      | _ => exact absurd h not_false
  | expiresAll =>
      cases e with
      | expireAll ns time => exact h.2
      | _ => exact absurd h not_false
  | setTtl ttl => exact absurd rfl (hop ttl)
  | _ => cases e <;> first | exact trivial | exact absurd h not_false

theorem ttl_steady (h : s.Steady e) : (s.apply e).ttl = s.ttl := by
  cases e with
  | setTtl ttl ns => exact absurd h not_false
  | attach dir n =>
      simp only [FileTree.apply, FileTree.attach]
      split <;> rfl
  | _ => rfl

theorem now_apply (s : FileTree) (e : Edit) : s.now ≤ (s.apply e).now := by
  cases e with
  | clock delay => exact Nat.le_add_right _ _
  | attach dir n =>
      simp only [FileTree.apply, FileTree.attach]
      split <;> exact Nat.le_refl _
  | _ => exact Nat.le_refl _

/-- The expiration of a node after a change is the one it had, or one that is
no later than `m_ttl` allows. -/
theorem expiration_steady {t : Nat} {node : Node} (httl : s.ttl = some t)
    (hpermits : s.Permits ctx e) (hsteady : s.Steady e) :
    (s.onNode n node e).expiration = node.expiration ∨
      ∃ time, (s.onNode n node e).expiration = some time ∧
        time ≤ s.now + t * nanosPerSec := by
  cases e with
  | expire m time =>
      simp only [onNode]
      split_ifs
      · refine .inr ⟨s.now + t * nanosPerSec, ?_, Nat.le_refl _⟩
        rw [show time = s.deadline from hpermits, deadline, httl]
        rfl
      · exact .inl rfl
  | expireAll ns time =>
      simp only [onNode]
      split_ifs
      · exact .inr ⟨s.now, hsteady, Nat.le_add_right _ _⟩
      · exact .inl rfl
  | setTtl ttl ns => exact absurd hsteady not_false
  | _ => exact .inl (expiration_onNode rfl)

theorem ExpiringIn.apply (h : s.ExpiringIn ctx) (hbase : ctx.base ≤ s.nextId)
    (hpermits : s.Permits ctx e) (hsteady : s.Steady e) :
    (s.apply e).ExpiringIn ctx := by
  intro t httl n node' hnode' hinside hn
  rw [ttl_steady hsteady] at httl
  rw [root_apply] at hn
  have hnow : s.now + t * nanosPerSec ≤ (s.apply e).now + t * nanosPerSec :=
    Nat.add_le_add_right (now_apply s e) _
  rcases node_apply hnode' with rfl | ⟨node, hnode, rfl⟩
  · have hnever : node'.expiration = none := hsteady
    refine ⟨fun hold => ?_, fun time htime => ?_⟩
    · rw [hpermits.1] at hold
      exact absurd (Nat.le_trans hold hbase) (Nat.not_succ_le_self _)
    · rw [hnever] at htime
      cases htime
  · obtain ⟨hsome, hle⟩ := h t httl n node hnode hinside hn
    rcases expiration_steady httl hpermits hsteady with
      hsame | ⟨time, htime, hbound⟩
    · rw [hsame]
      exact ⟨hsome, fun time htime => Nat.le_trans (hle time htime) hnow⟩
    · rw [htime]
      refine ⟨fun _ => rfl, fun time' htime' => ?_⟩
      cases htime'
      exact Nat.le_trans hbound hnow

theorem Lasting.apply (h : s.Lasting) (hpermits : s.Permits ctx e)
    (hsteady : s.Steady e) : (s.apply e).Lasting := by
  intro httl n hn node' hnode'
  rw [ttl_steady hsteady] at httl
  rcases node_apply hnode' with rfl | ⟨node, hnode, rfl⟩
  · exact hsteady
  · cases e with
    | expire m time =>
        have hnever : time = none := by
          rw [show time = s.deadline from hpermits, deadline, httl]
          rfl
        simp only [onNode]
        split_ifs with hm
        · exact hnever
        · rcases List.mem_cons.mp hn with hnew | hold
          · exact absurd hnew hm
          · exact h httl n hold node hnode
    | expireAll ns time => exact absurd hn List.not_mem_nil
    | setTtl ttl ns => exact absurd hsteady not_false
    | alloc m new =>
        rcases List.mem_cons.mp hn with rfl | hold
        · have heq : some new = some node :=
            (Function.update_self n _ _).symm.trans hnode'
          cases heq
          exact hsteady
        · exact h httl n hold node hnode
    | attach dir m =>
        rw [expiration_onNode rfl]
        refine h httl n ?_ node hnode
        simp only [FileTree.apply, FileTree.attach] at hn
        split at hn <;> exact hn
    | _ =>
        rw [expiration_onNode rfl]
        exact h httl n hn node hnode

theorem ttl_chain (hchain : Chain ctx s s')
    (hextra : ∀ t e, ctx.extra t e → t.Steady e) : s'.ttl = s.ttl := by
  induction hchain with
  | refl s => rfl
  | step hpermits hplain hrest ih =>
      rw [ih, ttl_steady]
      rcases hplain with hplain | hspecial
      · exact hplain.steady
      · exact hextra _ _ hspecial

theorem expiring_chain (hchain : Chain ctx s s')
    (hextra : ∀ t e, ctx.extra t e → t.Steady e) (hgood : s.Good ctx)
    (hexpiring : s.ExpiringIn ctx) (hlasting : s.Lasting) :
    s'.ExpiringIn ctx ∧ s'.Lasting := by
  induction hchain with
  | refl s => exact ⟨hexpiring, hlasting⟩
  | @step s t e hpermits hplain hrest ih =>
      have hsteady : s.Steady e := by
        rcases hplain with hplain | hspecial
        · exact hplain.steady
        · exact hextra s e hspecial
      exact ih (hgood.apply hpermits)
        (hexpiring.apply hgood.base_le hpermits hsteady)
        (hlasting.apply hpermits hsteady)

theorem Expiring.start (h : s.Expiring) (hwf : s.WellFormed) :
    (s.start env).ExpiringIn (op.ctx env s) := by
  intro t httl n node hnode hinside hn
  rcases hinside with hin | hnew
  · obtain ⟨node', time, hnode', htime, hle⟩ := h t httl n hin hn
    cases hnode.symm.trans hnode'
    rw [htime]
    refine ⟨fun _ => rfl, fun time' htime' => ?_⟩
    cases htime'
    exact Nat.le_trans hle (Nat.add_le_add_right (Nat.le_add_right _ _) _)
  · exact absurd (hwf.known hnode) (Nat.not_le_of_lt hnew)

/-- Unless it makes nodes, an operation leaves a tree that expires. -/
theorem ExpiringIn.expiring (h : s.ExpiringIn ctx) (hgood : s.Good ctx)
    (hcreating : s.ttl.isSome → ¬ctx.creating) : s.Expiring := by
  intro t httl n hn hne
  have hinside := hgood.inside_of_inTree hn
  obtain ⟨dir, name, hdir, hmem⟩ := hn.cases.resolve_left hne
  obtain ⟨node, hnode, -⟩ := hgood.wf.listed hmem
  obtain ⟨hold, hle⟩ := h t httl n node hnode hinside hne
  have httl' : s.ttl.isSome := by
    rw [httl]
    rfl
  have hsome : node.expiration.isSome := by
    by_cases hbase : n.inner ≤ ctx.base
    · exact hold hbase
    · rcases hgood.timed with hcreates | htimed
      · exact absurd hcreates (hcreating httl')
      · exact htimed hmem (Nat.lt_of_not_le hbase) httl' node hnode
  obtain ⟨time, htime⟩ := Option.isSome_iff_exists.mp hsome
  exact ⟨node, time, hnode, htime, hle time htime⟩

/-- `set_ttl` gives every node of the tree the new expiration. -/
theorem expiring_setTtl (hwf : s.WellFormed) (ttl : Option Nat) :
    (s.apply (.setTtl ttl (s.walk s.root))).Expiring := by
  intro t httl n hn hne
  have hshape : SameShape s (s.apply (.setTtl ttl (s.walk s.root))) :=
    sameShape_apply rfl
  have hwf' := hwf.congr hshape
  obtain ⟨dir, name, -, hmem⟩ := hn.cases.resolve_left hne
  obtain ⟨node, hnode, -⟩ := hwf'.listed hmem
  have hin : s.InTree n := by
    unfold InTree at hn
    rw [hshape.below] at hn
    exact hn
  rcases node_apply hnode with heq | ⟨old, hold, rfl⟩
  · cases heq
  · refine ⟨_, s.now + t * nanosPerSec, hnode, ?_, Nat.le_refl _⟩
    simp only [onNode, if_pos (hwf.mem_walk_root.mpr hin)]
    rw [deadline, show ttl = some t from httl]
    rfl

theorem setTtl_cases {ttl : Option Nat} {env : Env}
    (hstep : s.step (.setTtl ttl, env) = some s') :
    s' = s.start env ∨
      s' = (s.start env).apply (.setTtl ttl ((s.start env).walk s.root)) := by
  obtain ⟨⟨r, t⟩, hexec, heq⟩ := Option.map_eq_some_iff.mp hstep
  cases heq
  by_cases hsame : (s.start env).ttl != ttl
  · refine .inr ?_
    have hrun : Fs.setTtl ttl (s.start env) = some (.ok (),
        (s.start env).apply (.setTtl ttl ((s.start env).walk s.root))) := by
      unfold Fs.setTtl
      rw [Program.bind_of_ok (Program.state_apply _), Program.when,
        if_pos hsame]
      rfl
    rw [exec, Op.body, Program.bind_of_ok hrun] at hexec
    cases hexec
    rfl
  · refine .inl ?_
    have hrun : Fs.setTtl ttl (s.start env) =
        some (.ok (), s.start env) := by
      unfold Fs.setTtl
      rw [Program.bind_of_ok (Program.state_apply _), Program.when,
        if_neg hsame]
      rfl
    rw [exec, Op.body, Program.bind_of_ok hrun] at hexec
    cases hexec
    rfl

/-- What holds of the expirations between two operations. -/
structure Expirations (s : FileTree) : Prop where
  wf : s.WellFormed
  expiring : s.Expiring
  lasting : s.Lasting

theorem Expirations.step (h : s.Expirations) (hop : op.Proper)
    (henv : env.Proper)
    (hcreates : s.ttl.isSome → ¬op.Creates env (s.start env))
    (hstep : s.step (op, env) = some s') : s'.Expirations := by
  obtain ⟨hchain, hgood⟩ := chain_of_step h.wf hop henv hstep
  by_cases hset : ∃ ttl, op = .setTtl ttl
  · obtain ⟨ttl, rfl⟩ := hset
    refine ⟨hgood.wf, ?_, ?_⟩
    · rcases setTtl_cases hstep with rfl | rfl
      · have hstart : (s.start env).ExpiringIn ((Op.setTtl ttl).ctx env s) :=
          h.expiring.start h.wf
        exact hstart.expiring (good_start h.wf) fun _ => not_false
      · exact expiring_setTtl (s := s.start env)
          (h.wf.congr ⟨rfl, rfl, fun _ => rfl⟩) ttl
    · rcases setTtl_cases hstep with rfl | rfl
      · exact h.lasting
      · exact fun _ n hn => absurd hn List.not_mem_nil
  · have hextra : ∀ t e, (op.ctx env s).extra t e → t.Steady e :=
      fun t e => steady_extra fun ttl heq => hset ⟨ttl, heq⟩
    obtain ⟨hexpiring, hlasting⟩ := expiring_chain hchain hextra
      (good_start h.wf) (h.expiring.start h.wf) h.lasting
    refine ⟨hgood.wf, hexpiring.expiring hgood ?_, hlasting⟩
    rw [ttl_chain hchain hextra]
    exact hcreates

theorem expirations_create (caching : Option (Nat × Nat)) (ttl : Option Nat) :
    (create caching ttl).Expirations where
  wf := wellFormed_create caching ttl
  expiring := by
    intro t _ n hn hne
    obtain ⟨dir, name, -, hmem⟩ := hn.cases.resolve_left hne
    unfold children create at hmem
    simp only at hmem
    split_ifs at hmem
    · exact absurd hmem List.not_mem_nil
    · exact absurd hmem List.not_mem_nil
  lasting := fun _ n hn => absurd hn List.not_mem_nil

/-- While `m_ttl` is set, nothing is put into the tree by `mknod`, `mkdir` or
`symlink`. -/
def Expires (s : FileTree) (event : Op × Env) (t : FileTree) : Prop :=
  Proper s event t ∧
    (s.ttl.isSome → ¬event.1.Creates event.2 (s.start event.2))

theorem expirations_of_runs {caching : Option (Nat × Nat)} {ttl : Option Nat}
    {events : List (Op × Env)}
    (hruns : Runs step Expires (create caching ttl) events s) :
    (∀ t, s.ttl = some t → ∀ n, s.InTree n → n ≠ s.root →
      ∃ node time, s.nodes n = some node ∧ node.expiration = some time ∧
        time ≤ s.now + t * nanosPerSec) ∧
    (s.ttl = none → ∀ n ∈ s.renewed, ∀ node, s.nodes n = some node →
      node.expiration = none) := by
  have h : s.Expirations := by
    refine hruns.preserves ?_ (expirations_create caching ttl)
    rintro s t ⟨op, env⟩ hstep ⟨⟨hop, henv⟩, hcreates⟩ h
    exact h.step hop henv hcreates hstep
  exact ⟨h.expiring, h.lasting⟩

theorem expirations_of_runs_getattr : ∃ (node : Node) (time : Nat),
    node.file = .directory [] false ∧ node.expiration = some time ∧
      time ≤ 30 * nanosPerSec := by
  have hruns : ∃ s node, Runs step Expires (create none (some 30))
      [(.getattr ["d"], .ofMode sIfdir)] s ∧ s.ttl = some 30 ∧ s.now = 0 ∧
      s.root = ⟨1⟩ ∧ s.children s.root = [("d", ⟨2⟩)] ∧
      s.nodes ⟨2⟩ = some node ∧ node.file = .directory [] false := by
    refine ⟨_, _, .cons rfl ⟨⟨?_, Env.proper_ofMode _⟩, fun _ => not_false⟩
      (.nil _), rfl, rfl, rfl, rfl, rfl, rfl⟩
    exact (by decide : ∀ name ∈ ["d"], ValidName name)
  obtain ⟨s, node, hruns, httl, hnow, hroot, hchildren, hnode, hfile⟩ := hruns
  have hmem : ("d", (⟨2⟩ : Id)) ∈ s.children s.root := by
    rw [hchildren]
    exact List.mem_cons_self
  have hin : s.InTree ⟨2⟩ := Below.child InTree.root hmem
  have hne : (⟨2⟩ : Id) ≠ s.root := by
    rw [hroot]
    decide
  obtain ⟨node', time, hnode', htime, hle⟩ :=
    (expirations_of_runs hruns).1 30 httl ⟨2⟩ hin hne
  cases hnode.symm.trans hnode'
  rw [hnow, Nat.zero_add] at hle
  exact ⟨node, time, hfile, htime, hle⟩

/-- A directory that is made through the mount never expires. -/
theorem mkdir_never_expires : ∃ s node,
    Runs step Proper (create none (some 30))
      [(.mkdir ["d"] 0, .ofMode sIfdir)] s ∧ s.ttl = some 30 ∧
    s.InTree ⟨2⟩ ∧ (⟨2⟩ : Id) ≠ s.root ∧ s.nodes ⟨2⟩ = some node ∧
    node.expiration = none := by
  refine ⟨_, _, .cons rfl ⟨⟨by decide, by decide⟩, Env.proper_ofMode _⟩
    (.nil _), rfl, ?_, ?_, rfl, rfl⟩
  · have hmem : ("d", (⟨2⟩ : Id)) ∈ [("d", (⟨2⟩ : Id))] := List.mem_cons_self
    exact Below.child InTree.root hmem
  · exact (by decide : (⟨2⟩ : Id) ≠ ⟨1⟩)

end FileTree

end Madbfs
