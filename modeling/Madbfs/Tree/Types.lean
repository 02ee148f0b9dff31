/-
The variant of a node and the type bits of its stat.  They are set in different
places: most changes keep them in line, but `mknod` makes a regular file
whatever it was asked for, and `utimens` and `copy_file_range` take over a stat
without a look at its type.
-/
import Madbfs.Tree.Runs

namespace Madbfs

/-- The variant is the one for the type bits. -/
def Node.Typed (node : Node) : Prop :=
  node.file.isError ∨ node.file.type = some (fileType node.stat.mode)

/-- The type of the file that `mknod` makes with this mode. -/
def createdType (mode : Nat) : FileType :=
  if mode &&& sIfmt = 0 then .regular else fileType mode

/-- A stat right after `mknod` or `mkdir` tells the type of what was made. -/
def Env.Reports (env : Env) : Op → Prop
  | .mknod path mode dev => ∀ t stat,
      env.answer t (.mknod path mode dev) = .ok () →
      env.answer (t + 1) (.stat path) = .ok stat →
      fileType stat.mode = createdType mode
  | .mkdir path mode => ∀ t stat,
      env.answer t (.mkdir path mode) = .ok () →
      env.answer (t + 1) (.stat path) = .ok stat →
      fileType stat.mode = .directory
  | _ => True

namespace FileTree

variable {s s' : FileTree} {n : Id} {e : Edit} {ctx : Ctx}

/-- The nodes other than the root have the variants of their stats. -/
def Typed (s : FileTree) : Prop :=
  ∀ n node, s.nodes n = some node → n ≠ s.root → node.Typed

/-- The change keeps variants and stats in line. -/
def KeepsTypes (s : FileTree) : Edit → Prop
  | .alloc _ node => node.Typed
  | .convert _ stat file =>
      file.isError ∨ file.type = some (fileType stat.mode)
  | .setStat n stat => ∀ node, s.nodes n = some node → n ≠ s.root →
      node.file.isError ∨ fileType stat.mode = fileType node.stat.mode
  | _ => True

theorem Plain.keepsTypes (h : s.Plain e) : s.KeepsTypes e := by
  cases e with
  | alloc n node => exact h.2
  | convert n stat file => exact h
  | setStat n stat => exact fun node hnode _ => .inr (h node hnode)
  | _ => exact trivial

theorem isError_of_type {file file' : File} (htype : file'.type = file.type) :
    file'.isError = file.isError := by
  cases file <;> cases file' <;> first | rfl | cases htype

theorem Node.Typed.congr {node node' : Node} (h : node.Typed)
    (htype : node'.file.type = node.file.type)
    (hstat : node'.stat = node.stat) : node'.Typed := by
  unfold Node.Typed
  rw [isError_of_type htype, htype, hstat]
  exact h

/-- What a change leaves of a node. -/
theorem typed_onNode {node : Node} (hnode : s.nodes n = some node)
    (hn : n ≠ s.root) (h : node.Typed) (hkeeps : s.KeepsTypes e) :
    (s.onNode n node e).Typed := by
  cases e with
  | setStat m stat =>
      simp only [onNode]
      split_ifs with hm
      · subst hm
        rcases hkeeps node hnode hn with herror | htype
        · exact .inl herror
        · rcases h with herror | h
          · exact .inl herror
          · refine .inr ?_
            rw [htype]
            exact h
      · exact h
  | convert m stat file =>
      simp only [onNode]
      split_ifs
      · exact hkeeps
      · exact h
  | attach dir m =>
      simp only [onNode]
      split
      · exact h
      · split_ifs
        · exact Node.Typed.congr h (File.type_setChildren _ _) rfl
        · exact h
  | detach dir name =>
      simp only [onNode]
      split_ifs
      · exact Node.Typed.congr h (File.type_setChildren _ _) rfl
      · exact h
  | setSynced m synced =>
      simp only [onNode]
      split_ifs
      · exact Node.Typed.congr h (File.type_setSynced _ _) rfl
      · exact h
  | setDirty m dirty =>
      simp only [onNode]
      split_ifs
      · exact Node.Typed.congr h (File.type_setDirty _ _) rfl
      · exact h
  | setTarget m target =>
      simp only [onNode]
      split_ifs
      · exact Node.Typed.congr h (File.type_setTarget _ _) rfl
      · exact h
  | setName | setParent | expire | expireAll | setTtl =>
      simp only [onNode]
      split_ifs
      · exact Node.Typed.congr h rfl rfl
      · exact h
  | _ => exact h

theorem Typed.apply (h : s.Typed) (hkeeps : s.KeepsTypes e) :
    (s.apply e).Typed := by
  intro n node' hnode' hn
  rw [root_apply] at hn
  rcases node_apply hnode' with rfl | ⟨node, hnode, rfl⟩
  · exact hkeeps
  · exact typed_onNode hnode hn (h n node hnode hn) hkeeps

theorem Typed.chain (hchain : Chain ctx s s')
    (hextra : ∀ t e, t.root = s.root → ctx.extra t e → t.KeepsTypes e)
    (h : s.Typed) : s'.Typed := by
  induction hchain with
  | refl s => exact h
  | @step s t e hpermits hplain hrest ih =>
      refine ih (fun t e ht => hextra t e (ht.trans (root_apply s _))) ?_
      rcases hplain with hplain | hspecial
      · exact h.apply hplain.keepsTypes
      · exact h.apply (hextra s e rfl hspecial)

/-- The steps on a device that tells the types of what it makes. -/
def Reported (s : FileTree) (event : Op × Env) (t : FileTree) : Prop :=
  Proper s event t ∧ event.2.Reports event.1

/-- The operation does not set a variant or a stat on its own.  A stat that
`utimens` or `copy_file_range` takes over is of the type the node has. -/
def TypeSafe (s : FileTree) (event : Op × Env) : Prop :=
  match event.1 with
  | .mknod _ mode _ => createdType mode = .regular
  | .utimens path _ _ => ∀ n s₁ node stat,
      Fs.traverseOrBuild event.2 path (s.start event.2) = some (.ok n, s₁) →
      s₁.nodes n = some node → n ≠ s.root →
      event.2.answer (s₁.tick + 1) (.stat path) = .ok stat →
      node.file.isError ∨ fileType stat.mode = fileType node.stat.mode
  | .copyFileRange inPath inFd _ outPath outFd _ _ => ∀ inNode n s₁ node stat,
      Fs.copyLookup event.2 inPath inFd outPath outFd (s.start event.2) =
        some (.ok (inNode, n), s₁) →
      s₁.nodes n = some node → n ≠ s.root →
      event.2.answer (s₁.tick + 1) (.stat outPath) = .ok stat →
      node.file.isError ∨ fileType stat.mode = fileType node.stat.mode
  | _ => True

/-- The changes of a single operation keep the types too, if it is safe. -/
theorem keepsTypes_extra {op : Op} {env : Env} {t : FileTree}
    (hsafe : s.TypeSafe (op, env)) (hreports : env.Reports op)
    (hroot : t.root = s.root) (hextra : op.extra env (s.start env) t e) :
    t.KeepsTypes e := by
  cases op with
  | mknod path mode dev =>
      cases e with
      | alloc n node =>
          obtain ⟨-, hfile, i, hmade, hstat⟩ := hextra
          refine .inr ?_
          rw [hfile, hreports i node.stat hmade hstat]
          exact congrArg some (Eq.symm hsafe)
      | _ => cases hextra
  | mkdir path mode =>
      cases e with
      | alloc n node =>
          obtain ⟨-, hfile, i, hmade, hstat⟩ := hextra
          refine .inr ?_
          rw [hfile, hreports i node.stat hmade hstat]
          rfl
      | _ => cases hextra
  | utimens path atime mtime =>
      cases e with
      | setStat n stat =>
          obtain ⟨s₁, hlookup, hnodes, hstat⟩ := hextra
          intro node hnode hn
          rw [hnodes] at hnode
          rw [hroot] at hn
          exact hsafe n s₁ node stat hlookup hnode hn hstat
      | _ => cases hextra
  | copyFileRange inPath inFd inOff outPath outFd outOff size =>
      cases e with
      | setStat n stat =>
          obtain ⟨s₁, inNode, hlookup, hnodes, hstat⟩ := hextra
          intro node hnode hn
          obtain ⟨old, hold, hfile, hmode⟩ := hnodes node hnode
          rw [hroot] at hn
          rw [← hfile, ← hmode]
          exact hsafe inNode n s₁ old stat hlookup hold hn hstat
      | _ => cases hextra
  | initializeRoot =>
      cases e with
      | setStat n stat => exact fun node _ hn => absurd hextra hn
      | _ => cases hextra
  | _ => cases e <;> first | exact trivial | cases hextra

/-- In a run of safe operations the variant of every node but the root is the
one for the type bits of its stat. -/
theorem typed_of_runs {caching : Option (Nat × Nat)} {ttl : Option Nat}
    {events : List (Op × Env)}
    (hruns : Runs step (fun s event t => Reported s event t ∧ s.TypeSafe event)
      (create caching ttl) events s)
    (node : Node) (hnode : s.nodes n = some node) (hn : n ≠ s.root)
    (herror : node.file.isError = false) :
    node.file.type = some (fileType node.stat.mode) := by
  have hboth : s.WellFormed ∧ s.Typed := by
    refine hruns.preserves (I := fun s => s.WellFormed ∧ s.Typed) ?_
      ⟨wellFormed_create caching ttl, ?_⟩
    · rintro s t ⟨op, env⟩ hstep ⟨⟨⟨hop, henv⟩, hreports⟩, hsafe⟩ ⟨hwf, htyped⟩
      obtain ⟨hchain, hgood⟩ := chain_of_step hwf hop henv hstep
      refine ⟨hgood.wf, Typed.chain hchain ?_ htyped⟩
      exact fun u e hu hextra => keepsTypes_extra hsafe hreports hu hextra
    · intro m node hnode hm
      unfold create at hnode hm
      simp only at hnode hm
      rw [if_neg hm] at hnode
      cases hnode
  rcases hboth.2 n node hnode hn with hbad | htype
  · rw [herror] at hbad
    cases hbad
  · exact htype

theorem typed_of_runs_mknod : ∃ node : Node,
    node.file = .regular false ∧
      node.file.type = some (fileType node.stat.mode) := by
  have hruns : ∃ s node, Runs step
      (fun s event t => Reported s event t ∧ s.TypeSafe event)
      (create none none) [(.mknod ["f"] 0o100644 0, .ofMode 0o100644)] s ∧
      s.nodes ⟨2⟩ = some node ∧ s.root = ⟨1⟩ ∧ node.file = .regular false := by
    refine ⟨_, _, .cons rfl ⟨⟨⟨⟨by decide, by decide⟩, Env.proper_ofMode _⟩,
      ?_⟩, ?_⟩ (.nil _), rfl, rfl, rfl⟩
    · intro t stat _ hstat
      cases hstat
      decide
    · exact (by decide : createdType 0o100644 = .regular)
  obtain ⟨s, node, hruns, hnode, hroot, hfile⟩ := hruns
  refine ⟨node, hfile, typed_of_runs hruns node hnode ?_ (by rw [hfile]; rfl)⟩
  rw [hroot]
  decide

/-- A named pipe that is made through the mount is a regular file for the
filesystem, although its stat tells otherwise. -/
theorem mknod_fifo_untyped : ∃ s node,
    Runs step Reported (create none none)
      [(.mknod ["p"] 0o010644 0, .ofMode 0o010644)] s ∧
    s.nodes ⟨2⟩ = some node ∧ (⟨2⟩ : Id) ≠ s.root ∧
    node.file.isError = false ∧
    node.file.type ≠ some (fileType node.stat.mode) := by
  refine ⟨_, _, .cons rfl ⟨⟨⟨by decide, by decide⟩, Env.proper_ofMode _⟩, ?_⟩
    (.nil _), rfl, ?_, rfl, ?_⟩
  · intro t stat _ hstat
    cases hstat
    decide
  · exact (by decide : (⟨2⟩ : Id) ≠ ⟨1⟩)
  · exact (by decide : some FileType.regular ≠ some (fileType 0o010644))

end FileTree

end Madbfs
