/-
The nodes of the file tree.  A node is known by its id, and so are its parent
and its children.  A directory holds its children in a set whose keys are
their names; the order of the list below stands for the order in which the set
is iterated, which the code does not rely on.
-/
import Madbfs.Common

namespace Madbfs

structure Timespec where
  sec : Int
  nsec : Int
deriving Repr, DecidableEq

/-- `Stat`. -/
structure Stat where
  links : Nat
  size : Int
  mtime : Timespec
  atime : Timespec
  ctime : Timespec
  mode : Nat
  uid : Nat
  gid : Nat
deriving Repr, DecidableEq

/-- `Stat{}`. -/
def Stat.empty : Stat where
  links := 1
  size := 0
  mtime := ⟨0, 0⟩
  atime := ⟨0, 0⟩
  ctime := ⟨0, 0⟩
  mode := 0
  uid := 0
  gid := 0

/-- The tolerance of `detect_modification`, in seconds. -/
def toleranceSec : Int := 2

/-- `detect_modification`. -/
def detectModification (host remote : Stat) : Bool :=
  toleranceSec < remote.mtime.sec - host.mtime.sec

def sIfmt : Nat := 0o170000
def sIfreg : Nat := 0o100000
def sIfdir : Nat := 0o040000
def sIflnk : Nat := 0o120000

/-- The file types the code tells apart. -/
inductive FileType where
  | regular
  | directory
  | link
  | other
deriving Repr, DecidableEq

/-- The type bits of a mode. -/
def fileType (mode : Nat) : FileType :=
  if mode &&& sIfmt = sIfreg then .regular
  else if mode &&& sIfmt = sIfdir then .directory
  else if mode &&& sIfmt = sIflnk then .link
  else .other

/-- `File`, the variants of a node. -/
inductive File where
  | regular (dirty : Bool)
  | directory (children : List (Name × Id)) (synced : Bool)
  | link (target : Option String)
  | other
  | error (err : Errc)
deriving Repr, DecidableEq

namespace File

/-- The value the code constructs for a file of this type. -/
def create : FileType → File
  | .regular => .regular false
  | .directory => .directory [] false
  | .link => .link none
  | .other => .other

/-- The file type of a variant; an `Error` has none. -/
def type : File → Option FileType
  | .regular _ => some .regular
  | .directory _ _ => some .directory
  | .link _ => some .link
  | .other => some .other
  | .error _ => none

def children : File → List (Name × Id)
  | .directory children _ => children
  | _ => []

def isError : File → Bool
  | .error _ => true
  | _ => false

def isDirectory : File → Bool
  | .directory _ _ => true
  | _ => false

/-- `Node::as_regular`, with the flag `dirty`. -/
def asRegular : File → Except Errc Bool
  | .regular dirty => .ok dirty
  | .directory _ _ => .error Errc.isADirectory
  | .link _ => .error Errc.tooManySymbolicLinkLevels
  | .other => .error Errc.operationNotSupported
  | .error err => .error err

/-- `Node::as_directory`, with the children. -/
def asDirectory : File → Except Errc (List (Name × Id))
  | .directory children _ => .ok children
  | .error err => .error err
  | _ => .error Errc.notADirectory

/-- `Node::as_link`, with the target. -/
def asLink : File → Except Errc (Option String)
  | .link target => .ok target
  | .error err => .error err
  | _ => .error Errc.invalidArgument

/-- `Node::has_synced`. -/
def hasSynced : File → Bool
  | .directory _ synced => synced
  | _ => true

/-- `Node::set_synced`. -/
def setSynced (synced : Bool) : File → File
  | .directory children _ => .directory children synced
  | file => file

def setChildren (children : List (Name × Id)) : File → File
  | .directory _ synced => .directory children synced
  | file => file

def setDirty (dirty : Bool) : File → File
  | .regular _ => .regular dirty
  | file => file

def setTarget (target : String) : File → File
  | .link _ => .link (some target)
  | file => file

@[simp] theorem type_create (type : FileType) :
    (create type).type = some type := by
  cases type <;> rfl

@[simp] theorem children_create (type : FileType) :
    (create type).children = [] := by
  cases type <;> rfl

theorem asDirectory_eq_ok {file : File} {list : List (Name × Id)}
    (h : file.asDirectory = .ok list) :
    ∃ synced, file = .directory list synced := by
  cases file <;> cases h
  exact ⟨_, rfl⟩

@[simp] theorem children_setSynced (synced : Bool) (file : File) :
    (file.setSynced synced).children = file.children := by
  cases file <;> rfl

@[simp] theorem type_setSynced (synced : Bool) (file : File) :
    (file.setSynced synced).type = file.type := by
  cases file <;> rfl

@[simp] theorem children_setDirty (dirty : Bool) (file : File) :
    (file.setDirty dirty).children = file.children := by
  cases file <;> rfl

@[simp] theorem type_setDirty (dirty : Bool) (file : File) :
    (file.setDirty dirty).type = file.type := by
  cases file <;> rfl

@[simp] theorem children_setTarget (target : String) (file : File) :
    (file.setTarget target).children = file.children := by
  cases file <;> rfl

@[simp] theorem type_setTarget (target : String) (file : File) :
    (file.setTarget target).type = file.type := by
  cases file <;> rfl

@[simp] theorem type_setChildren (children : List (Name × Id)) (file : File) :
    (file.setChildren children).type = file.type := by
  cases file <;> rfl

theorem children_setChildren {file : File} (hdir : file.isDirectory)
    (children : List (Name × Id)) :
    (file.setChildren children).children = children := by
  cases file with
  | directory old synced => rfl
  | _ => cases hdir

end File

/-- `Node`.  An expiration that is none is `Timepoint::max()`. -/
structure Node where
  parent : Option Id
  name : Name
  stat : Stat
  expiration : Option Nat
  file : File
deriving Repr, DecidableEq

namespace Node

/-- `Node::Node`. -/
def create (name : Name) (parent : Option Id) (stat : Stat) (file : File) :
    Node where
  parent := parent
  name := name
  stat := stat
  expiration := none
  file := file

/-- `Node::expired`, at a time of the steady clock. -/
def expired (node : Node) (now : Nat) : Bool :=
  match node.file, node.expiration with
  | .regular true, _ => false
  | _, none => false
  | _, some expiration => expiration < now

/-- `Directory::find`. -/
def find (node : Node) (name : Name) : Option Id :=
  node.file.children.lookup name

end Node

/-- The special values of a timestamp that `refresh_stat` is called with. -/
inductive TimeArg where
  | now
  | omit
deriving Repr, DecidableEq

/-- `Node::refresh_stat`, at a time of the system clock. -/
def Stat.refresh (stat : Stat) (atime mtime : TimeArg) (time : Timespec) :
    Stat :=
  { stat with
    atime := if atime = .now then time else stat.atime
    mtime := if mtime = .now then time else stat.mtime
    ctime := time }

end Madbfs
