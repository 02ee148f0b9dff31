/-
The state of the filesystem and what an operation may do to it in one go.  The
nodes live in a heap, where a node that is destroyed leaves its place; a
pointer to such a node is dangling, and an operation that follows it goes
wrong.  Assertions are not modelled: a failed one is followed by what the code
does without it.
-/
import Madbfs.Cache.Operations
import Madbfs.FileHandleStore
import Madbfs.Forest
import Madbfs.Node
import Madbfs.Path
import Madbfs.Program

namespace Madbfs

/-- `Filesystem`.  `nextId` counts the ids that were handed out.  `now` is the
time of the steady clock, in nanoseconds, and `tick` counts the requests of
the running operation.  `renewed` only records which nodes were built or
refreshed since `m_ttl` was changed or all nodes were marked as expired. -/
structure FileTree where
  nodes : Id → Option Node
  root : Id
  nextId : Nat
  cache : Option Cache
  handles : FileHandleStore
  ttl : Option Nat
  rootInitialized : Bool
  now : Nat
  tick : Nat
  renewed : List Id

/-- The requests of the connection that the filesystem makes, with the types
of their answers. -/
inductive Req : Type → Type where
  | stat (path : Path) : Req Stat
  | statdir (path : Path) : Req (List (Stat × Name))
  | readlink (path : Path) : Req String
  | mknod (path : Path) (mode dev : Nat) : Req Unit
  | mkdir (path : Path) (mode : Nat) : Req Unit
  | unlink (path : Path) : Req Unit
  | rmdir (path : Path) : Req Unit
  | rename (source target : Path) (flags : Nat) : Req Unit
  | utimens (path : Path) (atime mtime : Timespec) : Req Unit
  | truncate (path : Path) (size : Int) : Req Unit
  | copyFileRange (inPath : Path) (inOff : Int) (outPath : Path)
      (outOff : Int) (size : Nat) : Req Nat
  | open (path : Path) (mode : OpenMode) : Req Nat
  | read (fd len : Nat) (offset : Int) : Req Nat
  | write (fd : Nat) (input : List Byte) (offset : Int) : Req Nat
  | close (fd : Nat) : Req Unit

/-- The operations of the cache that make requests of their own. -/
inductive CacheReq where
  | read (id : Id) (len : Nat) (offset : Int)
  | write (id : Id) (input : List Byte) (offset : Int)
  | flush (id : Id)
  | truncate (id : Id) (oldSize newSize : Int)
  | shutdown
deriving Repr, DecidableEq

/-- What an operation meets: the answers of the device and the outcomes of the
cache, each at its turn, the time that passes before the operation and with
each of its requests, and the system clock. -/
structure Env where
  answer : Nat → {α : Type} → Req α → Except Errc α
  serve : Nat → CacheReq → Cache → Cache × Except Errc Nat
  idle : Nat
  delay : Nat → Nat
  system : Nat → Timespec

namespace FileTree

/-- `Filesystem::Filesystem`, before it has a root stat. -/
def create (caching : Option (Nat × Nat)) (ttl : Option Nat) : FileTree where
  nodes := fun n =>
    if n = ⟨1⟩ then some (Node.create "/" none .empty (.create .directory))
    else none
  root := ⟨1⟩
  nextId := 1
  cache := caching.map fun c => Cache.create c.1 c.2
  handles := []
  ttl := ttl
  rootInitialized := false
  now := 0
  tick := 0
  renewed := []

def nanosPerSec : Nat := 1000000000

/-- The time `expires_after` sets with the value of `m_ttl`. -/
def deadline (s : FileTree) : Option Nat :=
  s.ttl.map fun sec => s.now + sec * nanosPerSec

def modify (s : FileTree) (n : Id) (f : Node → Node) : FileTree :=
  { s with nodes := Function.update s.nodes n ((s.nodes n).map f) }

/-- The children of a node. -/
def children (s : FileTree) (n : Id) : List (Name × Id) :=
  match s.nodes n with
  | some node => node.file.children
  | none => []

/-- What `walk` puts on its stack for a node. -/
def successors (s : FileTree) (n : Id) : List Id :=
  ((s.children n).map Prod.snd).reverse

/-- The nodes `walk` visits.  It has enough rounds for all nodes there are. -/
def walk (s : FileTree) (n : Id) : List Id :=
  Forest.visit s.successors (s.nextId + 1) [n]

/-- `Node::traverse`, when there is such a child. -/
def child (s : FileTree) (n : Id) (name : Name) : Option Id :=
  (s.nodes n).bind fun node => node.find name

/-- The node at a path. -/
def resolve (s : FileTree) (path : Path) : Option Id :=
  path.foldlM s.child s.root

/-- The loop of `build_path` over the parents of a node. -/
def parentNames (s : FileTree) : Nat → Option Id → List Name
  | fuel + 1, some n =>
      match s.nodes n with
      | some node => node.name :: s.parentNames fuel node.parent
      | none => []
  | _, _ => []

/-- `Node::build_path`. -/
def buildPath (s : FileTree) (n : Id) : Option Path :=
  (s.nodes n).bind fun node => Path.finishPath
    (Path.assemble node.name (s.parentNames s.nextId node.parent))

end FileTree

/-- The changes operations are made of. -/
inductive Edit where
  | clock (delay : Nat)
  | alloc (n : Id) (node : Node)
  | detach (dir : Id) (name : Name)
  | attach (dir n : Id)
  | setName (n : Id) (name : Name)
  | setParent (n : Id) (parent : Id)
  | destroy (ns : List Id)
  | convert (n : Id) (stat : Stat) (file : File)
  | setStat (n : Id) (stat : Stat)
  | setSynced (n : Id) (synced : Bool)
  | setDirty (n : Id) (dirty : Bool)
  | setTarget (n : Id) (target : String)
  | expire (n : Id) (time : Option Nat)
  | expireAll (ns : List Id) (time : Option Nat)
  | setTtl (ttl : Option Nat) (ns : List Id)
  | store (handle : FileHandle)
  | release (fd : Nat)
  | eraseHandles (n : Id)
  | cache (c : Cache)
  | markInitialized

namespace FileTree

def expireNodes (s : FileTree) (ns : List Id) (time : Option Nat) : FileTree :=
  { s with nodes := fun n =>
      if n ∈ ns then (s.nodes n).map fun node => { node with expiration := time }
      else s.nodes n }

/-- `Directory::m_children.emplace`: a node is listed under its name. -/
def attach (s : FileTree) (dir n : Id) : FileTree :=
  match s.nodes n with
  | none => s
  | some child => s.modify dir fun node =>
      { node with
        file := node.file.setChildren (node.file.children ++ [(child.name, n)]) }

def apply (s : FileTree) : Edit → FileTree
  | .clock delay => { s with now := s.now + delay, tick := s.tick + 1 }
  | .alloc n node =>
      { s with
        nodes := Function.update s.nodes n (some node)
        nextId := s.nextId + 1
        renewed := n :: s.renewed }
  | .detach dir name => s.modify dir fun node =>
      { node with
        file := node.file.setChildren
          (node.file.children.filter fun e => e.1 ≠ name) }
  | .attach dir n => s.attach dir n
  | .setName n name => s.modify n fun node => { node with name := name }
  | .setParent n parent =>
      s.modify n fun node => { node with parent := some parent }
  | .destroy ns =>
      { s with nodes := fun n => if n ∈ ns then none else s.nodes n }
  | .convert n stat file =>
      s.modify n fun node => { node with stat := stat, file := file }
  | .setStat n stat => s.modify n fun node => { node with stat := stat }
  | .setSynced n synced =>
      s.modify n fun node => { node with file := node.file.setSynced synced }
  | .setDirty n dirty =>
      s.modify n fun node => { node with file := node.file.setDirty dirty }
  | .setTarget n target =>
      s.modify n fun node => { node with file := node.file.setTarget target }
  | .expire n time =>
      { s.modify n fun node => { node with expiration := time } with
        renewed := n :: s.renewed }
  | .expireAll ns time => { s.expireNodes ns time with renewed := [] }
  | .setTtl ttl ns =>
      { s.expireNodes ns ({ s with ttl := ttl }.deadline) with
        ttl := ttl
        renewed := [] }
  | .store handle => { s with handles := (s.handles.store handle).2 }
  | .release fd => { s with handles := (s.handles.release fd).2 }
  | .eraseHandles n => { s with handles := s.handles.erase n }
  | .cache c => { s with cache := some c }
  | .markInitialized => { s with rootInitialized := true }

end FileTree

/-- The programs of the filesystem. -/
abbrev Fs := Program Errc FileTree

namespace Fs

open Program

def edit (e : Edit) : Fs Unit :=
  change fun s => s.apply e

/-- Follow a pointer to a node. -/
def deref (n : Id) : Fs Node := fun s =>
  match s.nodes n with
  | none => none
  | some node => some (.ok node, s)

/-- Make a request and wait for its answer. -/
def request {α : Type} (env : Env) (req : Req α) : Fs α := do
  let s ← state
  edit (.clock (env.delay s.tick))
  ofExcept (env.answer s.tick req)

/-- An operation of the cache that makes requests. -/
def serve (env : Env) (req : CacheReq) (c : Cache) : Fs Nat := do
  let s ← state
  edit (.clock (env.delay s.tick))
  edit (.cache (env.serve s.tick req c).1)
  ofExcept (env.serve s.tick req c).2

/-- `std::make_unique<Node>`. -/
def alloc (name : Name) (parent : Id) (stat : Stat) (file : File) : Fs Id := do
  let s ← state
  let n : Id := ⟨s.nextId + 1⟩
  edit (.alloc n (Node.create name (some parent) stat file))
  return n

/-- The end of the life of a node that nothing owns. -/
def destroy (n : Id) : Fs Unit := do
  let s ← state
  edit (.destroy (s.walk n))

/-- `Node::expires_after` with the value of `m_ttl`. -/
def expiresAfter (n : Id) : Fs Unit := do
  let _ ← deref n
  let s ← state
  edit (.expire n s.deadline)

/-- `Node::set_stat`. -/
def setStat (n : Id) (stat : Stat) : Fs Unit := do
  let _ ← deref n
  edit (.setStat n stat)

/-- `Node::set_size`. -/
def setSize (n : Id) (size : Int) : Fs Unit := do
  let node ← deref n
  edit (.setStat n { node.stat with size := size })

/-- `Node::refresh_stat`. -/
def refreshStat (env : Env) (n : Id) (atime mtime : TimeArg) : Fs Unit := do
  let node ← deref n
  let s ← state
  edit (.setStat n (node.stat.refresh atime mtime (env.system s.tick)))

/-- `Node::set_synced`. -/
def setSynced (n : Id) (synced : Bool) : Fs Unit := do
  let _ ← deref n
  edit (.setSynced n synced)

/-- `Node::as_directory`. -/
def asDirectory (n : Id) : Fs (List (Name × Id)) := do
  let node ← deref n
  ofExcept node.file.asDirectory

/-- A reference to the `Directory` of a node that was one. -/
def directory (n : Id) : Fs (List (Name × Id)) := do
  let node ← deref n
  match node.file with
  | .directory children _ => return children
  | _ => wrong

/-- `Directory::insert`, with the node that was listed under the name. -/
def insert (dir n : Id) (overwrite : Bool) : Fs (Option Id) := do
  let list ← directory dir
  let node ← deref n
  match list.lookup node.name with
  | none => do
      edit (.attach dir n)
      return none
  | some old =>
      if overwrite then do
        edit (.detach dir node.name)
        edit (.attach dir n)
        return some old
      else do
        destroy n
        fail Errc.fileExists

/-- `Directory::extract` and `Directory::erase`. -/
def extract (dir : Id) (name : Name) : Fs (Option Id) := do
  let list ← directory dir
  match list.lookup name with
  | none => return none
  | some n => do
      edit (.detach dir name)
      return some n

/-- `Cache::invalidate_one` without a flush, if there is a cache. -/
def invalidateOne (n : Id) : Fs Unit := do
  let s ← state
  match s.cache with
  | none => return ()
  | some c =>
      match c.extract n with
      | (c, .done ()) => edit (.cache c)
      | _ => wrong

/-- `Cache::rename`, if there is a cache. -/
def cacheRename (n : Id) (path : Path) : Fs Unit := do
  let s ← state
  match s.cache with
  | none => return ()
  | some c => edit (.cache (c.rename n path))

end Fs

end Madbfs
