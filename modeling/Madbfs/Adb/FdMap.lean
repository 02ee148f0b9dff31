/-
The descriptors of the adb transport.  The device knows none: the handler
numbers them and keeps the path of each.  A rename changes the paths that are
its source; those of files below a renamed directory are left as they were, so
that they no longer lead to the files they were opened on.
-/
import Madbfs.Adb.Command
import Madbfs.Run

namespace Madbfs

namespace Adb

/-- `Handler`: `m_fd_counter` and `m_fd_map`. -/
structure Handler where
  fdCounter : UInt64
  fdMap : UInt64 → Option Str

namespace Handler

def create : Handler :=
  ⟨0, fun _ => none⟩

/-- `handle_req` for `Open`.  `emplace` keeps an entry that is there. -/
def «open» (h : Handler) (path : Str) : UInt64 × Handler :=
  let fd := h.fdCounter + 1
  (fd, {
    fdCounter := fd
    fdMap := match h.fdMap fd with
      | some _ => h.fdMap
      | none => Function.update h.fdMap fd (some path) })

/-- `handle_req` for `Close`. -/
def close (h : Handler) (fd : UInt64) : Except Errc Unit × Handler :=
  match h.fdMap fd with
  | none => (.error Errc.badFileDescriptor, h)
  | some _ => (.ok (), { h with fdMap := Function.update h.fdMap fd none })

/-- The loop over `m_fd_map` after a rename. -/
def renameFds (h : Handler) (source target : Str) : Handler :=
  { h with fdMap := fun fd => (h.fdMap fd).map fun path =>
      if path = source then target else path }

/-- `handle_req` for `Rename`.  `exec` runs a command on the device. -/
def rename (exec : Command → Except Errc Str) (h : Handler)
    (source target : Str) (flags : UInt32) : Except Errc Unit × Handler :=
  if flags = renameExchange then (.error Errc.invalidArgument, h)
  else match exec (renameCommand source target flags) with
    | .error err => (.error err, h)
    | .ok _ => (.ok (), h.renameFds source target)

end Handler

/-- The path lies below a directory. -/
def Below (dir path : Str) : Prop :=
  dir ++ ['/'] <+: path

instance (dir path : Str) : Decidable (Below dir path) :=
  inferInstanceAs (Decidable (_ <+: _))

/-- Where a rename takes a file. -/
def moved (source target path : Str) : Str :=
  if path = source then target
  else if Below source path then target ++ path.drop source.length
  else path

/-- The loop of the handler misses what lies below the source. -/
theorem renamed_eq_moved_iff (source target path : Str) :
    (if path = source then target else path) = moved source target path ↔
      source = target ∨ ¬ Below source path := by
  unfold moved
  by_cases hself : path = source
  · have hnot : ¬ Below source path := by
      rintro ⟨rest, hrest⟩
      have hlength := congrArg List.length hrest
      simp [hself] at hlength
    simp [hself, hself ▸ hnot]
  · rw [if_neg hself, if_neg hself]
    by_cases hbelow : Below source path
    · obtain ⟨rest, rfl⟩ := hbelow
      rw [if_pos ⟨rest, rfl⟩]
      rw [List.append_assoc, List.drop_left]
      constructor
      · intro heq
        exact .inl (List.append_cancel_right heq)
      · rintro (rfl | hnot)
        · rfl
        · exact absurd ⟨rest, by simp⟩ hnot
    · simp [hbelow]

/-- A request about descriptors, or a rename with the answer of the device. -/
inductive FdEvent where
  | open (path : Str)
  | close (fd : UInt64)
  | rename (source target : Str) (flags : UInt32) (answer : Except Errc Str)

/-- The handler, with the current path of the file that each open descriptor
was opened on. -/
structure Tracked where
  handler : Handler
  current : UInt64 → Option Str

namespace Tracked

def create : Tracked :=
  ⟨.create, fun _ => none⟩

def step (s : Tracked) : FdEvent → Option Tracked
  | .open path =>
      let (fd, handler) := s.handler.open path
      some ⟨handler, Function.update s.current fd (some path)⟩
  | .close fd =>
      some ⟨(s.handler.close fd).2, Function.update s.current fd none⟩
  | .rename source target flags answer =>
      match s.handler.rename (fun _ => answer) source target flags with
      | (.error _, handler) => some ⟨handler, s.current⟩
      | (.ok _, handler) => some ⟨handler, fun fd =>
          (s.current fd).map (moved source target)⟩

/-- A new descriptor is not open on another file, and nothing that is open
lies below what is renamed to another path. -/
def Allowed (s : Tracked) (event : FdEvent) (_ : Tracked) : Prop :=
  match event with
  | .open path =>
      ∀ old, s.handler.fdMap (s.handler.fdCounter + 1) = some old → old = path
  | .close _ => True
  | .rename source target flags answer =>
      flags ≠ renameExchange → ∀ out, answer = .ok out →
        source = target ∨
          ∀ fd path, s.handler.fdMap fd = some path → ¬ Below source path

/-- The entry of every descriptor is where its file is. -/
def Follows (s : Tracked) : Prop :=
  s.handler.fdMap = s.current

/-- A rename keeps the entries right exactly when nothing that is open lies
below its source, or the source is the target. -/
theorem renameFds_follows_iff (h : Handler) (source target : Str) :
    (h.renameFds source target).fdMap =
        (fun fd => (h.fdMap fd).map (moved source target)) ↔
      source = target ∨
        ∀ fd path, h.fdMap fd = some path → ¬ Below source path := by
  simp only [Handler.renameFds, funext_iff]
  constructor
  · intro hall
    by_cases hsame : source = target
    · exact .inl hsame
    · refine .inr fun fd path hpath => ?_
      have hfd := hall fd
      rw [hpath, Option.map_some, Option.map_some, Option.some.injEq,
        renamed_eq_moved_iff] at hfd
      exact hfd.resolve_left hsame
  · intro hcond fd
    cases hpath : h.fdMap fd with
    | none => rfl
    | some path =>
        rw [Option.map_some, Option.map_some, Option.some.injEq,
          renamed_eq_moved_iff]
        exact hcond.imp_right fun hall => hall fd path hpath

variable {s s' : Tracked} {event : FdEvent}

theorem open_follows_iff (h : Handler) (path : Str) :
    (h.open path).2.fdMap =
        Function.update h.fdMap (h.fdCounter + 1) (some path) ↔
      ∀ old, h.fdMap (h.fdCounter + 1) = some old → old = path := by
  simp only [Handler.open]
  cases hold : h.fdMap (h.fdCounter + 1) with
  | none => simp
  | some old =>
      have hsame : (h.fdMap = Function.update h.fdMap (h.fdCounter + 1)
          (some path)) ↔ some path = h.fdMap (h.fdCounter + 1) :=
        eq_comm.trans Function.update_eq_self_iff
      rw [hsame, hold]
      simp [eq_comm]

theorem close_follows (h : Handler) (fd : UInt64) :
    (h.close fd).2.fdMap = Function.update h.fdMap fd none := by
  unfold Handler.close
  split
  · next hnone => exact (Function.update_eq_self_iff.mpr hnone.symm).symm
  · rfl

/-- A step keeps the entries right exactly when it is allowed. -/
theorem follows_step_iff (hstep : s.step event = some s')
    (hfollows : s.Follows) : s'.Follows ↔ s.Allowed event s' := by
  unfold Follows at hfollows ⊢
  cases event with
  | «open» path =>
      cases hstep
      rw [← hfollows]
      exact open_follows_iff s.handler path
  | close fd =>
      cases hstep
      rw [← hfollows]
      exact iff_of_true (close_follows s.handler fd) trivial
  | rename source target flags answer =>
      simp only [step, Handler.rename] at hstep
      split_ifs at hstep with hexchange
      · cases hstep
        exact iff_of_true hfollows fun hne => absurd hexchange hne
      · cases answer with
        | error err =>
            cases hstep
            exact iff_of_true hfollows fun _ out hout => by cases hout
        | ok out =>
            cases hstep
            rw [← hfollows]
            have hiff := renameFds_follows_iff s.handler source target
            exact hiff.trans ⟨fun hcond _ _ _ => hcond,
              fun hcond => hcond hexchange out rfl⟩

/-- In a run that never renames a directory above an open file, every entry is
the current path of the file that its descriptor was opened on. -/
theorem follows_of_runs {events : List FdEvent}
    (hruns : Runs step Allowed create events s) : s.Follows :=
  hruns.preserves (I := Follows)
    (fun hstep hallowed hfollows =>
      (follows_step_iff hstep hfollows).mpr hallowed) rfl

/-- A file that is renamed while it is open. -/
theorem follows_of_runs_renamed : ∃ s,
    Runs step Allowed create
      [.open "/a".toList, .rename "/a".toList "/b".toList 0 (.ok [])] s ∧
    s.handler.fdMap 1 = some "/b".toList ∧ s.Follows := by
  have hruns : Runs step Allowed create
      [.open "/a".toList, .rename "/a".toList "/b".toList 0 (.ok [])]
      ⟨⟨1, fun fd => (Function.update (fun _ => none) 1 (some "/a".toList)
          fd).map fun path => if path = "/a".toList then "/b".toList else path⟩,
        fun fd => (Function.update (fun _ => none) 1 (some "/a".toList)
          fd).map (moved "/a".toList "/b".toList)⟩ := by
    refine .cons rfl (fun old hold => by cases hold) (.cons rfl ?_ (.nil _))
    refine fun _ out _ => .inr fun fd path hpath => ?_
    change Function.update (fun _ => none) 1 (some "/a".toList) fd = _ at hpath
    rw [Function.update_apply] at hpath
    split_ifs at hpath
    rw [← Option.some.inj hpath]
    decide
  exact ⟨_, hruns, rfl, follows_of_runs hruns⟩

/-- A file whose directory is renamed while it is open. -/
theorem directory_rename_is_missed : ∃ s,
    Runs step (fun _ _ _ => True) create
      [.open "/a/f".toList, .rename "/a".toList "/b".toList 0 (.ok [])] s ∧
    s.handler.fdMap 1 = some "/a/f".toList ∧
    s.current 1 = some "/b/f".toList :=
  ⟨_, .cons rfl trivial (.cons rfl trivial (.nil _)), rfl, rfl⟩

end Tracked

end Adb

end Madbfs
