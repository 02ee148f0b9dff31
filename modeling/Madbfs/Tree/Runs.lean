/-
Runs of the filesystem, one operation after the other.  Each operation is a
chain of permitted changes, so the tree is well formed in every state a run
reaches.
-/
import Madbfs.Run
import Madbfs.Tree.Reach

namespace Madbfs

variable {op : Op} {env : Env} {s s' : FileTree} {n : Id} {path : Path}

/-- The context of an operation that starts in `s`. -/
def Op.ctx (op : Op) (env : Env) (s : FileTree) : Ctx where
  base := s.nextId
  inside := fun n => s.InTree n ∨ s.nextId < n.inner
  made := fun _ hn => .inr hn
  creating := op.Creates env (s.start env)
  extra := op.extra env (s.start env)

namespace FileTree

/-- A tree that has the shape of the one an operation starts from. -/
theorem WellFormed.good {t : FileTree} (h : s.WellFormed)
    (hshape : SameShape s t) : t.Good (op.ctx env s) where
  wf := h.congr hshape
  base_le := Nat.le_of_eq hshape.nextId.symm
  root := by
    rw [hshape.root]
    exact .inl .root
  below := by
    rintro n hn ⟨name, c⟩ hmem
    rw [hshape.children] at hmem
    rcases hn with hn | hn
    · exact .inl (Below.child hn hmem)
    · obtain ⟨node, hnode, -⟩ := mem_children.mp hmem
      exact absurd (h.known hnode) (Nat.not_le_of_lt hn)
  above := by
    intro n name p hn hlabel
    obtain ⟨node', hnode', hname, hparent⟩ := label_eq_some.mp hlabel
    obtain ⟨node, hnode, heq⟩ := hshape.node hnode'
    simp only [Node.shape, Prod.mk.injEq] at heq
    have hlabel' : s.label n = some (name, some p) :=
      label_eq_some.mpr ⟨node, hnode, heq.2.1.symm.trans hname,
        heq.1.symm.trans hparent⟩
    rcases hn with hn | hn
    · rcases hn.cases with rfl | ⟨dir, key, hdir, hmem⟩
      · cases h.label_root.symm.trans hlabel'
      · cases (h.label hmem).symm.trans hlabel'
        exact .inl hdir
    · exact absurd (h.known hnode) (Nat.not_le_of_lt hn)
  timed := by
    refine .inr fun {dir name n} hmem hn => ?_
    rw [hshape.children] at hmem
    obtain ⟨node, hnode, -⟩ := h.listed hmem
    exact absurd (h.known hnode) (Nat.not_le_of_lt hn)

theorem good_start (h : s.WellFormed) :
    (s.start env).Good (op.ctx env s) :=
  h.good ⟨rfl, rfl, fun _ => rfl⟩

/-- While an operation runs, the tree has the nodes it had and new ones. -/
theorem Good.inside_of_inTree {ctx : Ctx} (h : s.Good ctx) (hn : s.InTree n) :
    ctx.inside n := by
  induction hn with
  | refl => exact h.root
  | tail hdir hmem ih =>
      obtain ⟨name, hchild⟩ := mem_successors.mp hmem
      exact h.below ih _ hchild

end FileTree

namespace Op

open Program FileTree

theorem obeys_return {α : Type} {d : Discipline FileTree} {x : Fs α}
    {f : α → Value} (h : x.Obeys d s fun _ _ => True) :
    (x >>= fun a => pure (f a)).Obeys d s fun _ _ => True :=
  Obeys.bind h fun _ _ _ _ _ => Obeys.pure fun _ => trivial

/-- An operation is a chain of permitted changes. -/
theorem obeys_body (hop : op.Proper) (henv : env.Proper) :
    (op.body env).Obeys (op.ctx env s).discipline (s.start env)
      fun _ _ => True := by
  cases op with
  | readdir path => exact obeys_return (Fs.obeys_readdir henv hop)
  | getattr path => exact obeys_return (Fs.obeys_getattr hop)
  | readlink path => exact obeys_return (Fs.obeys_readlink hop)
  | mknod path mode dev =>
      refine obeys_return (Fs.obeys_mknod hop.1 hop.2
        (fun t stat hmade hstat => ⟨t, stat, hmade, hstat⟩) ?_)
      exact fun _ _ _ t hnever hfile hmade hstat =>
        ⟨hnever, hfile, t, hmade, hstat⟩
  | mkdir path mode =>
      refine obeys_return (Fs.obeys_mkdir hop.1 hop.2
        (fun t stat hmade hstat => ⟨t, stat, hmade, hstat⟩) ?_)
      exact fun _ _ _ t hnever hfile hmade hstat =>
        ⟨hnever, hfile, t, hmade, hstat⟩
  | unlink path => exact obeys_return (Fs.obeys_unlink hop)
  | rmdir path => exact obeys_return (Fs.obeys_rmdir hop)
  | rename source target flags =>
      exact obeys_return (Fs.obeys_rename hop.1 hop.2.1 hop.2.2)
  | utimens path atime mtime =>
      refine obeys_return (Fs.obeys_utimens hop ?_)
      exact fun s₁ _ _ _ hlookup hnodes hstat => ⟨s₁, hlookup, hnodes, hstat⟩
  | truncate path size => exact obeys_return (Fs.obeys_truncate hop)
  | «open» path flags =>
      refine obeys_return (Fs.obeys_open hop ?_)
      exact fun s₁ _ n _ hlookup hhandles hnode =>
        ⟨n, s₁, hlookup, hhandles, hnode⟩
  | read fd len offset => exact obeys_return Fs.obeys_read
  | write fd input offset => exact obeys_return Fs.obeys_write
  | flush fd => exact obeys_return Fs.obeys_flush
  | release fd => exact obeys_return (Fs.obeys_release ⟨rfl, rfl⟩)
  | copyFileRange inPath inFd inOff outPath outFd outOff size =>
      refine obeys_return (Fs.obeys_copyFileRange ?_)
      exact fun s₁ _ inNode _ _ hlookup hnode hstat =>
        ⟨s₁, inNode, hlookup, hnode, hstat⟩
  | symlink path target =>
      exact obeys_return (Fs.obeys_symlink hop.1 hop.2
        fun parent hresolve hroom => ⟨parent, hresolve, hroom⟩)
  | initializeRoot =>
      exact obeys_return (Fs.obeys_initializeRoot fun _ _ hroot => hroot.symm)
  | setTtl ttl => exact obeys_return (Fs.obeys_setTtl rfl ⟨rfl, rfl⟩)
  | expiresAll => exact obeys_return (Fs.obeys_expiresAll rfl ⟨rfl, rfl⟩)
  | shutdown => exact obeys_return Fs.obeys_shutdown

end Op

namespace FileTree

/-- The operations that can come, and the devices that can answer. -/
def Proper (_ : FileTree) (event : Op × Env) (_ : FileTree) : Prop :=
  event.1.Proper ∧ event.2.Proper

/-- What a step is. -/
theorem chain_of_step (h : s.WellFormed) (hop : op.Proper)
    (henv : env.Proper) (hstep : s.step (op, env) = some s') :
    Chain (op.ctx env s) (s.start env) s' ∧ s'.Good (op.ctx env s) := by
  obtain ⟨⟨r, t⟩, hexec, heq⟩ := Option.map_eq_some_iff.mp hstep
  cases heq
  have hgood : (s.start env).Good (op.ctx env s) := good_start h
  obtain ⟨hchain, -⟩ := Op.obeys_body hop henv hgood r t hexec
  exact ⟨hchain, hchain.good hgood⟩

theorem wellFormed_create (caching : Option (Nat × Nat)) (ttl : Option Nat) :
    (create caching ttl).WellFormed := by
  have hchildren : ∀ n, (create caching ttl).children n = [] := by
    intro n
    unfold children create
    simp only
    split_ifs <;> rfl
  constructor
  · exact ⟨Node.create "/" none .empty (.create .directory), rfl, rfl,
      rfl, rfl⟩
  · intro dir name n hmem
    rw [hchildren] at hmem
    exact absurd hmem List.not_mem_nil
  · intro dir
    rw [hchildren]
    exact List.nodup_nil
  · intro n node hnode
    unfold create at hnode
    simp only at hnode
    split_ifs at hnode with hn
    rw [hn]
    exact Nat.le_refl _

theorem wellFormed_of_runs {caching : Option (Nat × Nat)} {ttl : Option Nat}
    {events : List (Op × Env)}
    (hruns : Runs step Proper (create caching ttl) events s) :
    s.WellFormed := by
  refine hruns.preserves ?_ (wellFormed_create caching ttl)
  rintro s t ⟨op, env⟩ hstep ⟨hop, henv⟩ h
  exact (chain_of_step h hop henv hstep).2.wf

/-- In every state a run reaches, children point back to their directories and
are found under their names, and the path that is built for a node of the tree
leads to it. -/
theorem tree_consistent {caching : Option (Nat × Nat)} {ttl : Option Nat}
    {events : List (Op × Env)}
    (hruns : Runs step Proper (create caching ttl) events s) :
    (∀ dir name n, (name, n) ∈ s.children dir →
      (∃ node, s.nodes n = some node ∧ node.name = name ∧
        node.parent = some dir) ∧ s.child dir name = some n) ∧
    (∀ dir, ((s.children dir).map Prod.fst).Nodup) ∧
    ∀ n, s.InTree n → ∃ path, s.buildPath n = some path ∧
      Fs.traverse path s = some (.ok n, s) := by
  have h := wellFormed_of_runs hruns
  refine ⟨fun dir name n hmem => ?_, h.unique, fun n hn => ?_⟩
  · obtain ⟨node, hnode, hname, hparent, -⟩ := h.listed hmem
    exact ⟨⟨node, hnode, hname, hparent⟩, h.child_eq hmem⟩
  · obtain ⟨path, up, hway⟩ := hn.way
    exact ⟨path, hway.buildPath h, Fs.traverse_eq (hway.resolve h)⟩

end FileTree

/-- A device that does what it is asked to, with these stats and lists. -/
def Env.obliging (stat : Path → Except Errc Stat)
    (entries : Path → Except Errc (List (Stat × Name))) : Env where
  answer := fun _ _ req =>
    match req with
    | .stat path => stat path
    | .statdir path => entries path
    | .readlink _ => .ok ""
    | .mknod _ _ _ | .mkdir _ _ | .unlink _ | .rmdir _ | .rename _ _ _
    | .utimens _ _ _ | .truncate _ _ | .close _ => .ok ()
    | .copyFileRange _ _ _ _ size => .ok size
    | .open _ _ => .ok 0
    | .read _ len _ => .ok len
    | .write _ input _ => .ok input.length
  serve := fun _ _ c => (c, .ok 0)
  idle := 0
  delay := fun _ => 0
  system := fun _ => ⟨0, 0⟩

/-- A device on which every file has this mode, and that lists nothing. -/
def Env.ofMode (mode : Nat) : Env :=
  .obliging (fun _ => .ok { Stat.empty with mode := mode }) fun _ => .ok []

theorem Env.proper_ofMode (mode : Nat) : (Env.ofMode mode).Proper := by
  intro t path entries hentries e he
  cases hentries
  exact absurd he List.not_mem_nil

namespace FileTree

theorem tree_consistent_mkdir : ∃ s : FileTree,
    s.children ⟨2⟩ = [("b", ⟨3⟩)] ∧
      ∃ path, s.buildPath ⟨3⟩ = some path ∧
        Fs.traverse path s = some (.ok ⟨3⟩, s) := by
  have hruns : ∃ s, Runs step Proper (create none none)
      [(.mkdir ["a"] 0, .ofMode sIfdir), (.mkdir ["a", "b"] 0, .ofMode sIfdir)]
      s ∧ s.children s.root = [("a", ⟨2⟩)] ∧ s.children ⟨2⟩ = [("b", ⟨3⟩)] :=
    ⟨_, .cons rfl ⟨⟨by decide, by decide⟩, Env.proper_ofMode _⟩
      (.cons rfl ⟨⟨by decide, by decide⟩, Env.proper_ofMode _⟩ (.nil _)),
      rfl, rfl⟩
  obtain ⟨s, hs, hroot, hchildren⟩ := hruns
  refine ⟨s, hchildren, (tree_consistent hs).2.2 ⟨3⟩ ?_⟩
  have ha : ("a", (⟨2⟩ : Id)) ∈ s.children s.root := by
    rw [hroot]
    exact List.mem_cons_self
  have hb : ("b", (⟨3⟩ : Id)) ∈ s.children ⟨2⟩ := by
    rw [hchildren]
    exact List.mem_cons_self
  exact Below.child (Below.child .refl ha) hb

end FileTree

end Madbfs
