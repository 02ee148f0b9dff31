/-
How the filesystem finds the node at a path: nodes it does not know yet are
built from the answers of the device, and nodes that have expired are brought
up to date.
-/
import Madbfs.FileTree

namespace Madbfs

namespace Fs

open Program

/-- `should_cache_error`. -/
def shouldCacheError (err : Errc) : Bool :=
  err != Errc.notConnected && err != Errc.timedOut &&
    err != Errc.resourceUnavailableTryAgain

/-- `Node::build`. -/
def nodeBuild (parent : Id) (name : Name) (stat : Stat) (file : File) :
    Fs Id := do
  let n ← alloc name parent stat file
  let node ← deref parent
  match node.file.asDirectory with
  | .error err => do
      destroy n
      fail err
  | .ok _ => do
      let _ ← insert parent n false
      return n

def buildThenExpire (parent : Id) (name : Name) (stat : Stat) (file : File) :
    Fs Id := do
  let n ← nodeBuild parent name stat file
  expiresAfter n
  return n

/-- The end of `build` and `build_directory` when there is no stat. -/
def buildError (parent : Id) (name : Name) (err : Errc) : Fs Id := do
  when (shouldCacheError err) do
    let _ ← (buildThenExpire parent name .empty (.error err)).outcome
  fail err

/-- `Filesystem::build`. -/
def build (env : Env) (parent : Id) (path : Path) : Fs Id := do
  match ← (request env (.stat path)).outcome with
  | .error err => buildError parent path.filename err
  | .ok stat =>
      buildThenExpire parent path.filename stat (.create (fileType stat.mode))

/-- `Filesystem::build_directory`. -/
def buildDirectory (env : Env) (parent : Id) (path : Path) : Fs Id := do
  match ← (request env (.stat path)).outcome with
  | .error err => buildError parent path.filename err
  | .ok stat =>
      if fileType stat.mode = .directory then
        buildThenExpire parent path.filename stat (.create .directory)
      else fail Errc.notADirectory

/-- `Node::traverse`. -/
def traverseNode (n : Id) (name : Name) : Fs Id := do
  let list ← asDirectory n
  match list.lookup name with
  | some c => return c
  | none => fail Errc.noSuchFileOrDirectory

/-- The loop of `Filesystem::traverse`. -/
def traverseFrom : Id → Path → Fs Id
  | current, [] => pure current
  | current, name :: rest => do
      let next ← traverseNode current name
      traverseFrom next rest

/-- `Filesystem::traverse`. -/
def traverse (path : Path) : Fs Id := do
  let s ← state
  traverseFrom s.root path

/-- The last part of `mutate_and_invalidate`, on the value the node had. -/
def invalidate (n : Id) : File → Fs Unit
  | .directory children _ => do
      let s ← state
      let nodes := children.flatMap fun e => s.walk e.2
      forEach (fun m => edit (.eraseHandles m)) nodes
      forEach invalidateOne nodes
      edit (.eraseHandles n)
      -- The old value is destroyed with the end of the function.
      edit (.destroy nodes)
  | .regular _ => do
      invalidateOne n
      edit (.eraseHandles n)
  | _ => pure ()

/-- `Filesystem::mutate_and_invalidate`. -/
def mutateAndInvalidate (n : Id) (file : File) : Fs Unit := do
  let node ← deref n
  edit (.convert n node.stat file)
  invalidate n node.file

/-- What `update` and `readdir` do with a node that has changed. -/
def rebuild (n : Id) (stat : Stat) (file : File) : Fs Unit := do
  setStat n stat
  mutateAndInvalidate n file
  expiresAfter n

/-- `Filesystem::update`. -/
def update (env : Env) (n : Id) (path : Path) : Fs Unit := do
  let answer ← (request env (.stat path)).outcome
  let node ← deref n
  match answer with
  | .error err => do
      when (shouldCacheError err) do
        mutateAndInvalidate n (.error err)
        expiresAfter n
      fail err
  | .ok stat =>
      if !node.file.isError && !detectModification node.stat stat then
        expiresAfter n
      else if fileType stat.mode = .directory ∧
          fileType node.stat.mode = .directory then do
        -- It was a directory: it is not replaced but scanned again.
        setStat n stat
        setSynced n false
        expiresAfter n
      else rebuild n stat (.create (fileType stat.mode))

/-- One round of `traverse_or_build`: into the child with this name, which is
at this path, or to what `builder` makes of it. -/
def enter (env : Env) (builder : Id → Path → Fs Id) (current : Id)
    (name : Name) (path : Path) : Fs Id := do
  match ← (traverseNode current name).outcome with
  | .ok next => do
      let node ← deref next
      let s ← state
      when (node.expired s.now) (update env next path)
      return next
  | .error _ => builder current path

/-- The loop of `traverse_or_build` over the parents. -/
def descend (env : Env) : Path → Id → Path → Fs (Id × Path)
  | [], current, path => pure (current, path)
  | name :: rest, current, path => do
      let next ← enter env (buildDirectory env) current name (path.extend name)
      descend env rest next (path.extend name)

/-- `Filesystem::traverse_or_build`. -/
def traverseOrBuild (env : Env) (path : Path) : Fs Id := do
  let s ← state
  if path.isEmpty then return s.root
  else do
    let (current, above) ← descend env path.parentPath s.root []
    enter env (build env) current path.filename (above.extend path.filename)

end Fs

end Madbfs
