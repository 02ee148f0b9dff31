/-
The operations of the filesystem.  An operation that starts with a lookup is
split after it, where the nodes it works on are known.
-/
import Madbfs.Tree.Lookup

namespace Madbfs

namespace Fs

open Program

/-- A new entry of `readdir`.  A name the set has already is dropped. -/
def addEntry (dir : Id) (stat : Stat) (name : Name) : Fs Unit := do
  let n ← alloc name dir stat (.create (fileType stat.mode))
  expiresAfter n
  let list ← directory dir
  match list.lookup name with
  | none => edit (.attach dir n)
  | some _ => destroy n

/-- One round of the loop that updates the old entries or adds a new one. -/
def mergeEntry (dir : Id) (stat : Stat) (name : Name) : Fs Unit := do
  let list ← directory dir
  match list.lookup name with
  | none => addEntry dir stat name
  | some n => do
      let node ← deref n
      let s ← state
      when (node.file.isError ||
          (node.expired s.now && detectModification node.stat stat))
        (rebuild n stat (.create (fileType stat.mode)))

/-- One round of the loop that removes the old entries the device does not
have. -/
def pruneEntry (dir : Id) (names : List Name) (e : Name × Id) : Fs Unit := do
  let node ← deref e.2
  when (!names.contains node.name) do
    invalidateOne e.2
    edit (.detach dir e.1)
    destroy e.2

/-- The loop over a directory that has children. -/
def mergeEntries (dir : Id) (entries : List (Stat × Name)) : Fs Unit := do
  forEach (fun e => mergeEntry dir e.1 e.2) entries
  let list ← directory dir
  forEach (pruneEntry dir (entries.map Prod.snd)) list

/-- The loop over a directory that has none. -/
def addEntries (dir : Id) (entries : List (Stat × Name)) : Fs Unit :=
  forEach (fun e => addEntry dir e.1 e.2) entries

/-- The names `readdir` reports. -/
def listed (s : FileTree) (list : List (Name × Id)) : List Name :=
  list.filterMap fun e => (s.nodes e.2).bind fun node =>
    if node.file.isError then none else some node.name

/-- The entries of the device are taken over, in one of two ways. -/
def takeEntries (dir : Id) (entries : List (Stat × Name)) : Fs Unit := do
  let list ← directory dir
  if list.isEmpty then addEntries dir entries else mergeEntries dir entries

/-- `Filesystem::readdir` in the directory it found. -/
def readdirAt (env : Env) (path : Path) (dir : Id) : Fs (List Name) := do
  let node ← deref dir
  when (!node.file.hasSynced) do
    let entries ← request env (.statdir path)
    takeEntries dir entries
    setSynced dir true
  let list ← directory dir
  let s ← state
  return listed s list

/-- `Filesystem::readdir`. -/
def readdir (env : Env) (path : Path) : Fs (List Name) := do
  let dir ← traverseOrBuild env path
  let _ ← asDirectory dir
  readdirAt env path dir

/-- `Filesystem::getattr` on the node it found. -/
def getattrAt (n : Id) : Fs (Id × Stat) := do
  let node ← deref n
  match node.file with
  | .error err => fail err
  | _ => return (n, node.stat)

/-- `Filesystem::getattr`. -/
def getattr (env : Env) (path : Path) : Fs (Id × Stat) := do
  let n ← traverseOrBuild env path
  getattrAt n

/-- `Filesystem::readlink`. -/
def readlink (env : Env) (path : Path) : Fs String := do
  let n ← traverseOrBuild env path
  let node ← deref n
  match ← ofExcept node.file.asLink with
  | some target => return target
  | none => do
      let target ← request env (.readlink path)
      edit (.setTarget n target)
      return target

/-- The start of `mknod` and `mkdir` in the parent: whether there is an error
node to overwrite. -/
def vacancy (parent : Id) (name : Name) : Fs Bool := do
  let list ← asDirectory parent
  match list.lookup name with
  | none => return false
  | some n => do
      let node ← deref n
      require node.file.isError Errc.fileExists
      return true

/-- The request of `mknod` and `mkdir` and what follows. -/
def createAt (env : Env) (req : Req Unit) (file : File) (parent : Id)
    (path : Path) (overwrite : Bool) : Fs Id := do
  match ← (request env req).outcome with
  | .error err => do
      refreshStat env parent .omit .now
      fail err
  | .ok _ => do
      let stat ← request env (.stat path)
      let n ← alloc path.filename parent stat file
      match ← insert parent n overwrite with
      | none => return n
      | some old => do
          destroy old
          return n

/-- `Filesystem::mknod` after its lookups. -/
def mknodAt (env : Env) (parent : Id) (path : Path) (mode dev : Nat)
    (overwrite : Bool) : Fs Id :=
  createAt env (.mknod path mode dev) (.create .regular) parent path overwrite

/-- `Filesystem::mkdir` after its lookups. -/
def mkdirAt (env : Env) (parent : Id) (path : Path) (mode : Nat)
    (overwrite : Bool) : Fs Id :=
  createAt env (.mkdir path mode) (.create .directory) parent path overwrite

/-- `Filesystem::mknod`. -/
def mknod (env : Env) (path : Path) (mode dev : Nat) : Fs Id := do
  let parent ← traverseOrBuild env path.parentPath
  let overwrite ← vacancy parent path.filename
  mknodAt env parent path mode dev overwrite

/-- `Filesystem::mkdir`. -/
def mkdir (env : Env) (path : Path) (mode : Nat) : Fs Id := do
  let parent ← traverseOrBuild env path.parentPath
  let overwrite ← vacancy parent path.filename
  mkdirAt env parent path mode overwrite

/-- `Filesystem::unlink` of a child it found. -/
def unlinkAt (env : Env) (parent n : Id) (path : Path) : Fs Unit := do
  edit (.detach parent path.filename)
  match ← (request env (.unlink path)).outcome with
  | .error err => do
      let _ ← insert parent n true
      refreshStat env parent .omit .now
      fail err
  | .ok _ => do
      edit (.eraseHandles n)
      invalidateOne n
      destroy n

/-- `Filesystem::unlink`. -/
def unlink (env : Env) (path : Path) : Fs Unit := do
  let parent ← traverseOrBuild env path.parentPath
  let n ← traverseNode parent path.filename
  let node ← deref n
  require (!node.file.isDirectory) Errc.isADirectory
  unlinkAt env parent n path

/-- `Filesystem::rmdir` of a directory it found. -/
def rmdirAt (env : Env) (parent : Id) (path : Path) : Fs Unit := do
  request env (.rmdir path)
  refreshStat env parent .omit .now
  match ← extract parent path.filename with
  | none => return ()
  | some n => destroy n

/-- Whether all children are `Error` nodes. -/
def allErrors (s : FileTree) (list : List (Name × Id)) : Bool :=
  list.all fun e => (s.nodes e.2).any fun node => node.file.isError

/-- `Filesystem::rmdir`. -/
def rmdir (env : Env) (path : Path) : Fs Unit := do
  let parent ← traverseOrBuild env path.parentPath
  let target ← traverseNode parent path.filename
  let list ← asDirectory target
  let s ← state
  require (allErrors s list) Errc.directoryNotEmpty
  rmdirAt env parent path

def renameNoreplace : Nat := 1

def renameExchange : Nat := 2

/-- The flag is set. -/
def hasFlag (flags flag : Nat) : Bool :=
  flags &&& flag != 0

/-- The lookup of `to` that the flags of `rename` ask for. -/
def renameCheck (env : Env) (target : Path) (flags : Nat) : Fs Unit :=
  if hasFlag flags renameExchange then do
    let n ← traverseOrBuild env target
    let node ← deref n
    match node.file with
    | .error err => fail err
    | _ => return ()
  else if hasFlag flags renameNoreplace then do
    match ← (traverseOrBuild env target).outcome with
    | .error _ => return ()
    | .ok n => do
        let node ← deref n
        require node.file.isError Errc.fileExists
  else return ()

/-- What `rename` does with a node it takes to a new place. -/
def moveTo (n dir : Id) (path : Path) : Fs Unit := do
  cacheRename n path
  edit (.setName n path.filename)
  edit (.setParent n dir)

/-- The end of `rename`: the node is moved, and the one it replaces changes
places with it or goes.  Without the node the `value()` of `extract` throws,
which the caller sees as an `io_error`. -/
def relink (fromParent toParent : Id) (source target : Path) (flags : Nat) :
    Fs Unit := do
  match ← extract fromParent source.filename with
  | none => fail Errc.ioError
  | some n => do
      moveTo n toParent target
      let overwritten ← insert toParent n true
      if hasFlag flags renameExchange then
        match overwritten with
        | none => wrong
        | some old => do
            moveTo old fromParent source
            let _ ← insert fromParent old false
      else
        match overwritten with
        | none => return ()
        | some old => do
            invalidateOne old
            edit (.eraseHandles old)
            destroy old

/-- `Filesystem::rename` after its lookups. -/
def renameAt (env : Env) (fromParent toParent : Id) (source target : Path)
    (flags : Nat) : Fs Unit := do
  request env (.rename source target flags)
  refreshStat env fromParent .omit .now
  refreshStat env toParent .omit .now
  relink fromParent toParent source target flags

/-- `Node::parent` of a node other than the root. -/
def parentOf (n : Id) : Fs Id := do
  let node ← deref n
  match node.parent with
  | some parent => return parent
  | none => wrong

/-- `Filesystem::rename`. -/
def rename (env : Env) (source target : Path) (flags : Nat) : Fs Unit := do
  require (!source.isEmpty) Errc.operationNotSupported
  let n ← traverseOrBuild env source
  let fromParent ← parentOf n
  let toParent ← traverseOrBuild env target.parentPath
  let _ ← asDirectory toParent
  renameCheck env target flags
  renameAt env fromParent toParent source target flags

/-- `Filesystem::utimens`. -/
def utimens (env : Env) (path : Path) (atime mtime : Timespec) : Fs Unit := do
  let n ← traverseOrBuild env path
  request env (.utimens path atime mtime)
  let stat ← request env (.stat path)
  setStat n stat

/-- `Cache::truncate`, if there is a cache.  Its error is ignored. -/
def truncateCache (env : Env) (n : Id) (oldSize newSize : Int) : Fs Unit := do
  let s ← state
  match s.cache with
  | none => return ()
  | some c => do
      let _ ← (serve env (.truncate n oldSize newSize) c).outcome

/-- `Filesystem::truncate`. -/
def truncate (env : Env) (path : Path) (size : Int) : Fs Unit := do
  let n ← traverseOrBuild env path
  let node ← deref n
  let _ ← ofExcept node.file.asRegular
  request env (.truncate path size)
  truncateCache env n node.stat.size size
  setSize n size
  refreshStat env n .omit .now

/-- `O_ACCMODE & flags`. -/
def accessMode (flags : Nat) : OpenMode :=
  match flags % 4 with
  | 0 => .read
  | 1 => .write
  | 2 => .readWrite
  | _ => .accMode

/-- The end of `open`. -/
def storeHandle (n : Id) (mode : OpenMode) (realFd : Fd) : Fs Nat := do
  let s ← state
  let handle : FileHandle := ⟨some n, mode, realFd⟩
  edit (.store handle)
  return (s.handles.store handle).1

/-- `Filesystem::open` of the node it found. -/
def openAt (env : Env) (n : Id) (path : Path) (flags : Nat) : Fs Nat := do
  let node ← deref n
  let _ ← ofExcept node.file.asRegular
  let s ← state
  match s.cache with
  | some c => do
      edit (.cache (c.hintOpen n path (accessMode flags)).1)
      ofExcept (c.hintOpen n path (accessMode flags)).2
      storeHandle n (accessMode flags) 0
  | none => do
      let realFd ← request env (.open path (accessMode flags))
      storeHandle n (accessMode flags) realFd

/-- `Filesystem::open`. -/
def «open» (env : Env) (path : Path) (flags : Nat) : Fs Nat := do
  let n ← traverseOrBuild env path
  openAt env n path flags

/-- The node of a handle; a null pointer cannot be followed. -/
def handleNode (handle : FileHandle) : Fs Id :=
  match handle.node with
  | some n => return n
  | none => wrong

/-- The handle a lookup in the store returned. -/
def found : Option FileHandle → Fs FileHandle
  | some handle => pure handle
  | none => fail Errc.badFileDescriptor

/-- A read or a write, of the cache if there is one, else on the device. -/
def transfer (env : Env) (cached : CacheReq) (direct : Req Nat) : Fs Nat := do
  let s ← state
  match s.cache with
  | some c => serve env cached c
  | none => request env direct

/-- The transfer of a `read`.  Only the cache is told the id of the node. -/
def readThrough (env : Env) (handle : FileHandle) (len : Nat) (offset : Int) :
    Fs Nat := do
  let s ← state
  match s.cache with
  | some c => do
      let n ← handleNode handle
      let _ ← deref n
      serve env (.read n len offset) c
  | none => request env (.read handle.realFd len offset)

/-- `Filesystem::read`, with the number of bytes. -/
def read (env : Env) (fd len : Nat) (offset : Int) : Fs Nat := do
  let s ← state
  let handle ← found (s.handles.findMode fd .read)
  let count ← readThrough env handle len offset
  let n ← handleNode handle
  refreshStat env n .now .omit
  return count

/-- The variant of an open node; anything but a regular file is a bad
descriptor. -/
def openFile (n : Id) : Fs Bool := do
  let node ← deref n
  match node.file with
  | .regular dirty => return dirty
  | _ => fail Errc.badFileDescriptor

/-- `Filesystem::write`, with the number of bytes. -/
def write (env : Env) (fd : Nat) (input : List Byte) (offset : Int) :
    Fs Nat := do
  let s ← state
  let handle ← found (s.handles.findMode fd .write)
  let n ← handleNode handle
  let _ ← openFile n
  let count ← transfer env (.write n input offset)
    (.write handle.realFd input offset)
  let node ← deref n
  setSize n (max node.stat.size (offset + count))
  refreshStat env n .omit .now
  edit (.setDirty n true)
  return count

/-- The flush of a dirty file through the cache. -/
def flushFile (env : Env) (n : Id) (c : Cache) : Fs Unit := do
  let _ ← serve env (.flush n) c
  refreshStat env n .omit .now
  edit (.setDirty n false)

/-- The end of `flush`.  Without a cache the data is on the device. -/
def flushDirty (env : Env) (n : Id) : Fs Unit := do
  let s ← state
  match s.cache with
  | some c => flushFile env n c
  | none => edit (.setDirty n false)

/-- `Filesystem::flush`. -/
def flush (env : Env) (fd : Nat) : Fs Unit := do
  let s ← state
  let handle ← found (s.handles.find fd)
  let n ← handleNode handle
  let dirty ← openFile n
  when dirty (flushDirty env n)

/-- The end of `release`: `hint_close` of the cache, or the `close` of the
descriptor on the device. -/
def closeFile (env : Env) (n : Id) (handle : FileHandle) : Fs Unit := do
  let s ← state
  match s.cache with
  | some c => do
      edit (.cache (c.hintClose n handle.mode).1)
      ofExcept (c.hintClose n handle.mode).2
  | none => request env (.close handle.realFd)

/-- `Filesystem::release`. -/
def release (env : Env) (fd : Nat) : Fs Unit := do
  let s ← state
  edit (.release fd)
  let handle ← found (s.handles.release fd).1
  let n ← handleNode handle
  let dirty ← openFile n
  when (dirty && s.cache.isSome) (flushDirty env n)
  closeFile env n handle

/-- The start of `copy_file_range`: dirty pages are flushed, and the nodes are
looked up. -/
def copyLookup (env : Env) (inPath : Path) (inFd : Nat) (outPath : Path)
    (outFd : Nat) : Fs (Id × Id) := do
  let _ ← (flush env inFd).outcome
  let _ ← (flush env outFd).outcome
  let inNode ← traverse inPath
  let outNode ← traverse outPath
  return (inNode, outNode)

/-- `Filesystem::copy_file_range`. -/
def copyFileRange (env : Env) (inPath : Path) (inFd : Nat) (inOff : Int)
    (outPath : Path) (outFd : Nat) (outOff : Int) (size : Nat) : Fs Nat := do
  let (inNode, outNode) ← copyLookup env inPath inFd outPath outFd
  let copied ← request env (.copyFileRange inPath inOff outPath outOff size)
  let stat ← request env (.stat outPath)
  refreshStat env inNode .now .omit
  setStat outNode stat
  return copied

def symlinkMode : Nat := 0o120644

/-- The stat `symlink` gives to a link that only exists in the tree. -/
def symlinkStat (time : Timespec) : Stat where
  links := 1
  size := 21
  mtime := time
  atime := time
  ctime := time
  mode := symlinkMode
  uid := 0
  gid := 0

/-- `Filesystem::symlink`. -/
def symlink (env : Env) (path : Path) (target : String) : Fs Unit := do
  let parent ← traverse path.parentPath
  let list ← asDirectory parent
  require (list.lookup path.filename).isNone Errc.fileExists
  let s ← state
  let n ← alloc path.filename parent (symlinkStat (env.system s.tick))
    (.link (some target))
  let _ ← insert parent n false

/-- `Filesystem::initialize_root`. -/
def initializeRoot (env : Env) : Fs Unit := do
  let s ← state
  when (!s.rootInitialized) do
    edit .markInitialized
    let stat ← request env (.stat [])
    setStat s.root stat

/-- `Filesystem::set_ttl`.  The walk starts at the root. -/
def setTtl (ttl : Option Nat) : Fs Unit := do
  let s ← state
  when (s.ttl != ttl) (edit (.setTtl ttl (s.walk s.root)))

/-- `Filesystem::expires_all`. -/
def expiresAll : Fs Unit := do
  let s ← state
  edit (.expireAll (s.walk s.root) (some s.now))

/-- `Filesystem::shutdown`. -/
def shutdown (env : Env) : Fs Unit := do
  let s ← state
  match s.cache with
  | some c => do
      let _ ← (serve env .shutdown c).outcome
  | none => return ()

end Fs

/-- The operations of the filesystem. -/
inductive Op where
  | readdir (path : Path)
  | getattr (path : Path)
  | readlink (path : Path)
  | mknod (path : Path) (mode dev : Nat)
  | mkdir (path : Path) (mode : Nat)
  | unlink (path : Path)
  | rmdir (path : Path)
  | rename (source target : Path) (flags : Nat)
  | utimens (path : Path) (atime mtime : Timespec)
  | truncate (path : Path) (size : Int)
  | open (path : Path) (flags : Nat)
  | read (fd len : Nat) (offset : Int)
  | write (fd : Nat) (input : List Byte) (offset : Int)
  | flush (fd : Nat)
  | release (fd : Nat)
  | copyFileRange (inPath : Path) (inFd : Nat) (inOff : Int) (outPath : Path)
      (outFd : Nat) (outOff : Int) (size : Nat)
  | symlink (path : Path) (target : String)
  | initializeRoot
  | setTtl (ttl : Option Nat)
  | expiresAll
  | shutdown
deriving Repr, DecidableEq

/-- What the operations return. -/
inductive Value where
  | done
  | names (names : List Name)
  | attr (id : Id) (stat : Stat)
  | target (target : String)
  | node (n : Id)
  | fd (fd : Nat)
  | count (count : Nat)
deriving Repr, DecidableEq

namespace Op

open Fs

def body (env : Env) : Op → Fs Value
  | .readdir path => do return .names (← Fs.readdir env path)
  | .getattr path => do
      let (n, stat) ← Fs.getattr env path
      return .attr n stat
  | .readlink path => do return .target (← Fs.readlink env path)
  | .mknod path mode dev => do return .node (← Fs.mknod env path mode dev)
  | .mkdir path mode => do return .node (← Fs.mkdir env path mode)
  | .unlink path => do Fs.unlink env path; return .done
  | .rmdir path => do Fs.rmdir env path; return .done
  | .rename source target flags => do
      Fs.rename env source target flags
      return .done
  | .utimens path atime mtime => do Fs.utimens env path atime mtime; return .done
  | .truncate path size => do Fs.truncate env path size; return .done
  | .open path flags => do return .fd (← Fs.open env path flags)
  | .read fd len offset => do return .count (← Fs.read env fd len offset)
  | .write fd input offset => do return .count (← Fs.write env fd input offset)
  | .flush fd => do Fs.flush env fd; return .done
  | .release fd => do Fs.release env fd; return .done
  | .copyFileRange inPath inFd inOff outPath outFd outOff size => do
      return .count (← Fs.copyFileRange env inPath inFd inOff outPath outFd
        outOff size)
  | .symlink path target => do Fs.symlink env path target; return .done
  | .initializeRoot => do Fs.initializeRoot env; return .done
  | .setTtl ttl => do Fs.setTtl ttl; return .done
  | .expiresAll => do Fs.expiresAll; return .done
  | .shutdown => do Fs.shutdown env; return .done

end Op

namespace FileTree

/-- The state at the start of an operation. -/
def start (env : Env) (s : FileTree) : FileTree :=
  { s with now := s.now + env.idle, tick := 0 }

/-- An operation that is run alone, with its result. -/
def exec (s : FileTree) (op : Op) (env : Env) :
    Option (Except Errc Value × FileTree) :=
  op.body env (s.start env)

/-- Operations one after the other.  There is no state after one that has gone
wrong. -/
def step (s : FileTree) (event : Op × Env) : Option FileTree :=
  (s.exec event.1 event.2).map Prod.snd

end FileTree

end Madbfs
