/-
What the helpers of the operations do when they do not go wrong, as equations.
-/
import Madbfs.Tree.WellFormed

namespace Madbfs

namespace Fs

open Program FileTree

variable {s s' : FileTree} {n m dir : Id} {name : Name} {node d : Node}
  {env : Env} {α : Type}

@[simp] theorem edit_apply (e : Edit) (s : FileTree) :
    edit e s = some (.ok (), s.apply e) :=
  rfl

theorem deref_apply (hnode : s.nodes n = some node) :
    deref n s = some (.ok node, s) := by
  rw [deref, hnode]

/-- A pointer that was followed was not dangling. -/
theorem bind_deref_cases {f : Node → Fs α} {r : Except Errc α}
    (hrun : (deref n >>= f) s = some (r, s')) :
    ∃ node, s.nodes n = some node ∧ f node s = some (r, s') := by
  cases hnode : s.nodes n with
  | none =>
      rw [bind_apply, deref, hnode] at hrun
      cases hrun
  | some node =>
      rw [bind_of_ok (deref_apply hnode)] at hrun
      exact ⟨node, rfl, hrun⟩

theorem request_apply (env : Env) (req : Req α) (s : FileTree) :
    request env req s = some (env.answer s.tick req, s.apply (.clock (env.delay s.tick))) := by
  unfold request
  rw [bind_apply, state_apply]
  simp only
  rw [bind_apply, edit_apply]
  simp only
  cases env.answer s.tick req <;> rfl

theorem outcome_apply {x : Fs α} {r : Except Errc α}
    (hx : x s = some (r, s')) : x.outcome s = some (.ok r, s') := by
  rw [Program.outcome, hx]
  rfl

theorem expiresAfter_apply (hnode : s.nodes n = some node) :
    expiresAfter n s = some (.ok (), s.apply (.expire n s.deadline)) := by
  rw [expiresAfter, bind_of_ok (deref_apply hnode), bind_of_ok (state_apply s),
    edit_apply]

theorem setStat_apply (hnode : s.nodes n = some node) (stat : Stat) :
    setStat n stat s = some (.ok (), s.apply (.setStat n stat)) := by
  rw [setStat, bind_of_ok (deref_apply hnode), edit_apply]

theorem refreshStat_apply (hnode : s.nodes n = some node)
    (atime mtime : TimeArg) : refreshStat env n atime mtime s =
      some (.ok (), s.apply (.setStat n
        (node.stat.refresh atime mtime (env.system s.tick)))) := by
  rw [refreshStat, bind_of_ok (deref_apply hnode), bind_of_ok (state_apply s),
    edit_apply]

theorem refreshStat_cases {atime mtime : TimeArg} {r : Except Errc Unit}
    (hrun : refreshStat env n atime mtime s = some (r, s')) :
    ∃ node, s.nodes n = some node ∧ r = .ok () ∧ s' = s.apply
      (.setStat n (node.stat.refresh atime mtime (env.system s.tick))) := by
  obtain ⟨node, hnode, -⟩ := bind_deref_cases hrun
  rw [refreshStat_apply hnode] at hrun
  cases hrun
  exact ⟨node, hnode, rfl, rfl⟩

theorem directory_apply {list : List (Name × Id)} {synced : Bool}
    (hd : s.nodes dir = some d) (hfile : d.file = .directory list synced) :
    directory dir s = some (.ok list, s) := by
  rw [directory, bind_of_ok (deref_apply hd), hfile]
  rfl

theorem insert_apply_none {list : List (Name × Id)} {synced o : Bool}
    (hd : s.nodes dir = some d) (hfile : d.file = .directory list synced)
    (hnode : s.nodes n = some node) (hlookup : list.lookup node.name = none) :
    insert dir n o s =
      some (.ok none, s.apply (.attach dir n)) := by
  rw [insert, bind_of_ok (directory_apply hd hfile),
    bind_of_ok (deref_apply hnode), hlookup]
  rfl

theorem insert_apply_some {list : List (Name × Id)} {synced : Bool} {old : Id}
    (hd : s.nodes dir = some d) (hfile : d.file = .directory list synced)
    (hnode : s.nodes n = some node)
    (hlookup : list.lookup node.name = some old) :
    insert dir n true s = some (.ok (some old),
      (s.apply (.detach dir node.name)).apply (.attach dir n)) := by
  rw [insert, bind_of_ok (directory_apply hd hfile),
    bind_of_ok (deref_apply hnode), hlookup]
  rfl

theorem destroy_apply (n : Id) (s : FileTree) :
    destroy n s = some (.ok (), s.apply (.destroy (s.walk n))) :=
  rfl

theorem insert_apply_exists {list : List (Name × Id)} {synced : Bool} {old : Id}
    (hd : s.nodes dir = some d) (hfile : d.file = .directory list synced)
    (hnode : s.nodes n = some node)
    (hlookup : list.lookup node.name = some old) :
    insert dir n false s = some (.error Errc.fileExists,
      s.apply (.destroy (s.walk n))) := by
  rw [insert, bind_of_ok (directory_apply hd hfile),
    bind_of_ok (deref_apply hnode), hlookup]
  rfl

end Fs

end Madbfs
