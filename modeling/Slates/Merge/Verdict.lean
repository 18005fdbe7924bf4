import Slates.Merge.Green

/-!
The verdict (`crates/merge/src/engine.rs`): an increment's ops document is resolved into groups,
each judged against the head and what changed since the base, and filed into accepted effects or
conflict windows.
-/

namespace Slates.Merge

/-! ## The byte splice -/

/-- The `len` bytes at `src` of `bytes`, clamped to its bounds. -/
def spanBytes (bytes : Bytes) (src len : Nat) : Bytes := (bytes.drop src).take len

namespace Op

def touchedRange (op : Op) : Range :=
  match op.kind with
  | .overwrite | .delete | .truncate => ⟨op.offset, op.len⟩
  | _ => ⟨op.offset, 0⟩

/-- The bytes an op draws from the post-state. -/
def added (postState : Bytes) (op : Op) : Bytes :=
  if op.kind.addsContent then spanBytes postState op.src op.len else []

/-- Where the splice reads on after an op it reached at `pos`. -/
def advance (baseLen pos : Nat) (op : Op) : Nat :=
  match op.kind with
  | .delete | .overwrite => pos + op.len
  | .truncate => baseLen
  | _ => pos

end Op

/-- Each op copies the base up to it, adds its bytes and moves on. -/
def applyFrom (base postState : Bytes) : Nat → List Op → Bytes
  | pos, [] => base.drop pos
  | pos, op :: ops =>
    (base.take op.offset).drop pos ++ op.added postState ++
      applyFrom base postState (op.advance base.length (max pos op.offset)) ops

/-- Apply content ops to `base`, drawing added bytes from `postState`. -/
def apply (base : Bytes) (ops : List Op) (postState : Bytes) : Bytes :=
  applyFrom base postState 0 ops

/-- Whether one op fits `baseLen` base bytes and a post-state of `postLen`. -/
def Op.fits (baseLen postLen : Nat) (op : Op) : Bool :=
  op.offset ≤ baseLen &&
  (match op.kind with
    | .delete | .overwrite => op.offset + op.len ≤ baseLen
    | .truncate => op.offset + op.len = baseLen
    | .extend => op.offset = baseLen
    | _ => true) &&
  (!op.kind.addsContent || op.src + op.len ≤ postLen)

def fitsBase (ops : List Op) (baseLen postLen : Nat) : Bool := ops.all (Op.fits baseLen postLen)

/-- An insert of a whole file's bytes, which are supplied directly. -/
def insertWhole (len : Nat) : Op := ⟨.insert, 0, 0, 0, len, 0⟩

/-- Read an IPC payload exactly: a clamped range is never valid metadata. -/
def specialPayload (doc : OpsDoc) (post : Bytes) (op : Op) : Except DocDecodeError SpecialNode :=
  if (doc.paths.path op.path).isNone then .error .badPath
  else if op.src + op.len ≤ post.length then SpecialNode.decode (spanBytes post op.src op.len)
  else .error .truncated

/-! ## Resolution -/

/-- An increment's declared changes, grouped by dimension and path. -/
structure Resolved where
  content : PathMap (List Op)
  creates : PathSet
  specials : PathMap SpecialNode
  invalid : PathSet
  unlinks : PathSet
  mkdirs : PathSet
  rmdirs : PathSet
  modes : PathMap UInt32
  symlinks : PathMap String
  hardlinks : PathMap Path
  renames : PathMap Path
  xattrSets : List (Path × String × Bytes)
  xattrRemoves : List (Path × String)

namespace Resolved

def empty : Resolved := ⟨∅, ∅, ∅, ∅, ∅, ∅, ∅, ∅, ∅, ∅, ∅, [], []⟩

def cleared (r : Resolved) : PathSet :=
  (r.unlinks.insertMany r.rmdirs.toList).insertMany (r.renames.toList.map Prod.snd)

/-- Whether the increment itself brings `path` into being. -/
def establishes (r : Resolved) (path : Path) : Bool :=
  r.creates.contains path || r.mkdirs.contains path || r.renames.contains path ||
    r.specials.contains path

/-- The content ops of files that are neither created nor renamed into. -/
def edits (r : Resolved) : List (Path × List Op) :=
  r.content.toList.filter (fun e => !(r.creates.contains e.1 || r.renames.contains e.1))

/-- Whether another declared change shares the path of an IPC creation. -/
def clashes (r : Resolved) (path : Path) : Bool :=
  r.creates.contains path || r.content.contains path || r.mkdirs.contains path ||
    r.symlinks.contains path || r.hardlinks.contains path || r.renames.contains path ||
    r.unlinks.contains path || r.rmdirs.contains path

end Resolved

/-- A path-table reference's name; an index outside the table is the empty name. -/
def nameOf (doc : OpsDoc) (index : Nat) : Path := (doc.paths.path (asU16 index)).getD ""

def resolveOp (inc : Increment) (r : Resolved) (op : Op) : Resolved :=
  let path := nameOf inc.doc op.path
  match op.kind with
  | .overwrite | .extend | .truncate | .insert | .delete =>
    { r with content := r.content.insert path (r.content.getD path [] ++ [op]) }
  | .mknod =>
    match specialPayload inc.doc inc.postState op with
    | .ok node => { r with specials := r.specials.insert path node }
    | .error _ => { r with invalid := r.invalid.insert path }
  | .create => { r with creates := r.creates.insert path }
  | .unlink => { r with unlinks := r.unlinks.insert path }
  | .mkdir => { r with mkdirs := r.mkdirs.insert path }
  | .rmdir => { r with rmdirs := r.rmdirs.insert path }
  | .setMode => { r with modes := r.modes.insert path (UInt32.ofNat (min op.len u32Max)) }
  | .symlink => { r with symlinks := r.symlinks.insert path (nameOf inc.doc op.src) }
  | .link => { r with hardlinks := r.hardlinks.insert path (nameOf inc.doc op.src) }
  | .rename => { r with renames := r.renames.insert path (nameOf inc.doc op.src) }
  | .setXattr =>
    { r with xattrSets := r.xattrSets ++
        [(path, nameOf inc.doc op.offset, spanBytes inc.postState op.src op.len)] }
  | .removeXattr =>
    { r with xattrRemoves := r.xattrRemoves ++ [(path, nameOf inc.doc op.offset)] }

def resolve (inc : Increment) : Resolved :=
  let r := inc.doc.ops.foldl (resolveOp inc) Resolved.empty
  { r with invalid := r.invalid.insertMany (r.specials.keys.filter r.clashes) }

inductive Effect where
  | special (path : Path) (node : SpecialNode)
  | removeSpecial (path : Path)
  | setContent (path : Path) (bytes : Bytes) (ops : List Op)
  | removeContent (path : Path)
  | makeDir (path : Path)
  | removeDir (path : Path)
  | mode (path : Path) (mode : UInt32)
  | symlink (path : Path) (target : String)
  | removeSymlink (path : Path)
  | hardlink (path target : Path)
  | removeHardlink (path : Path)
  | setXattr (path : Path) (name : String) (value : Bytes)
  | removeXattr (path : Path) (name : String)
  deriving DecidableEq

def Effect.identityKey : Effect → IdentityKey
  | .special path _ | .removeSpecial path => .special path
  | .setContent path _ _ | .removeContent path => .file path
  | .makeDir path | .removeDir path => .dir path
  | .mode path _ => .mode path
  | .symlink path _ | .removeSymlink path => .symlink path
  | .hardlink path _ | .removeHardlink path => .hardlink path
  | .setXattr path name _ | .removeXattr path name => .xattr path name

abbrev Judged := Except ConflictWindow (Option Effect)

def window (path : Path) (conflict : MergeConflictClass) : ConflictWindow :=
  ⟨path, ⟨0, 0⟩, conflict⟩

namespace Green

/-! ## The content dimension -/

/-- The ops each delta in `(base, head]` applied to `path`. -/
def intervening (g : Green) (path : Path) (base : Nat) : List (List Op) :=
  (g.deltas.drop base).filterMap (fun delta => delta[path]?)

/-- Move a file to `dst`: the source must still name something, the destination be free or unchanged
since the base. -/
def mergeRename (g : Green) (dst : Path) (base : Nat) (src : Path) :
    Except ConflictWindow (List Effect) :=
  if src = dst then .ok []
  else if !(g.content.current.contains src || g.symlinks.current.contains src ||
      g.hardlinks.current.contains src) then .error (window dst .renameRename)
  else if g.occupiedByNonfile dst then .error (window dst .typeChanged)
  else if g.content.changedAt dst > base then .error (window dst .renameRename)
  else
    match g.content.current[src]?, g.symlinks.current[src]?, g.hardlinks.current[src]? with
    | some source, _, _ =>
      .ok [.setContent dst source [insertWhole source.length], .removeContent src]
    | none, some target, _ => .ok [.symlink dst target, .removeSymlink src]
    | none, none, some target => .ok [.hardlink dst target, .removeHardlink src]
    | none, none, none => .ok []

def mergeCreate (g : Green) (path : Path) (bytes : Bytes) : Judged :=
  if g.occupiedByNonfile path then .error (window path .typeChanged)
  else
    match g.content.current[path]? with
    | some current => if current = bytes then .ok none else .error (window path .createCreate)
    | none => .ok (some (.setContent path bytes [insertWhole bytes.length]))

def mergeUnlink (g : Green) (path : Path) (base : Nat) : Judged :=
  if g.specials.current.contains path then
    if g.specials.changedAt path > base || g.modes.changedAt path > base ||
        g.xattrs.changed.toList.any (fun e => e.1.1 == path && e.2 > base) ||
        g.hardlinks.current.toList.any (fun e => e.2 == path) then
      .error (window path .deleteModify)
    else .ok (some (.removeSpecial path))
  else if g.content.current.contains path then
    if g.content.changedAt path > base then .error (window path .deleteModify)
    else .ok (some (.removeContent path))
  else if g.symlinks.current.contains path then
    if g.symlinks.changedAt path > base then .error (window path .deleteModify)
    else .ok (some (.removeSymlink path))
  else if g.hardlinks.current.contains path then
    if g.hardlinks.changedAt path > base then .error (window path .deleteModify)
    else .ok (some (.removeHardlink path))
  else .ok none

/-- Whether an edit needs no mapping: the file did not change since the base. -/
def fastPath (g : Green) (base : Nat) (path : Path) : Bool :=
  g.content.current.contains path && g.content.changedAt path ≤ base

/-- Pass one: an op no intervening change touched, at its shifted position. -/
def movedOp (deltas : List (List Op)) (op : Op) : Option Op :=
  match mapRange deltas op.touchedRange with
  | .shifted range => some { op with offset := range.start }
  | .overlaps => none

/-- Pass two: an overlapping overwrite that reproduces what the head holds. A span whose start meets
a change is compared at its base offset. -/
def identicalSpan (deltas : List (List Op)) (current postState : Bytes) (op : Op) : Bool :=
  let start := match mapRange deltas ⟨op.offset, 0⟩ with
    | .shifted head => head.start
    | .overlaps => op.offset
  let agent := spanBytes postState op.src op.len
  start + agent.length ≤ current.length && spanBytes current start agent.length == agent

/-- The deltas an edit of `path` is mapped through. -/
def deltasSince (g : Green) (base : Nat) (path : Path) : List (List Op) :=
  if g.fastPath base path then [] else g.intervening path base

def mergeContent (g : Green) (inc : Increment) (path : Path) (ops : List Op) :
    Except (List ConflictWindow) (Option Effect) :=
  match g.content.current[path]? with
  | none =>
    if g.occupiedByNonfile path then .error [window path .typeChanged]
    else .error [window path .deleteModify]
  | some current =>
    let deltas := g.deltasSince inc.base path
    let mapped := ops.filterMap (movedOp deltas)
    let overlapping := ops.filter (fun op => (movedOp deltas op).isNone)
    match overlapping.find? (fun op => op.kind != .overwrite) with
    | some op =>
      -- a length-changing op overlapped: whole-file identity decides the path
      if apply ((g.contentAt path inc.base).getD []) ops inc.postState = current then .ok none
      else .error [⟨path, op.touchedRange, .overlap⟩]
    | none =>
      let differing := overlapping.filter (fun op => !identicalSpan deltas current inc.postState op)
      if differing ≠ [] then .error (differing.map (fun op => ⟨path, op.touchedRange, .overlap⟩))
      else if mapped = [] then .ok none
      else .ok (some (.setContent path (apply current mapped inc.postState) mapped))

/-! ## Directories and metadata -/

def mergeMkdir (g : Green) (path : Path) : Judged :=
  if g.content.current.contains path || g.symlinks.current.contains path ||
      g.hardlinks.current.contains path || g.specials.current.contains path then
    .error (window path .typeChanged)
  else if g.dirs.current.contains path then .ok none
  else .ok (some (.makeDir path))

/-- Whether something under `stem` survives `cleared`. -/
def hasLiveChild (g : Green) (stem : String) (cleared : PathSet) : Bool :=
  let live (path : Path) : Bool := stem.toList.isPrefixOf path.toList && !cleared.contains path
  g.content.current.keys.any live || g.dirs.current.keys.any live ||
    g.symlinks.current.keys.any live || g.hardlinks.current.keys.any live ||
    g.specials.current.keys.any live

def mergeRmdir (g : Green) (path : Path) (cleared : PathSet) : Judged :=
  if g.content.current.contains path || g.symlinks.current.contains path ||
      g.hardlinks.current.contains path || g.specials.current.contains path then
    .error (window path .typeChanged)
  else if !g.dirs.current.contains path then .ok none
  else if g.hasLiveChild (path ++ "/") cleared then .error (window path .deleteModify)
  else .ok (some (.removeDir path))

/-- Whether the name changed between an IPC node and another kind since the base. -/
def specialKindChanged (g : Green) (path : Path) (base : Nat) : Bool :=
  let current := (g.specials.current[path]?).map (·.kind)
  if current.isNone && !g.content.current.contains path && !g.dirs.current.contains path &&
      !g.symlinks.current.contains path && !g.hardlinks.current.contains path then false
  else (g.specials.valueAt path base).map (·.kind) != current

/-- Whether metadata has nothing to apply to. -/
def metadataMissing (g : Green) (path : Path) (established : Bool) : Bool :=
  !g.content.current.contains path && !g.dirs.current.contains path &&
    !g.specials.current.contains path && !established

def mergeSetmode (g : Green) (path : Path) (base : Nat) (mode : UInt32) (established : Bool) :
    Judged :=
  if g.metadataMissing path established then .error (window path .deleteModify)
  else if !established && g.specialKindChanged path base then .error (window path .typeChanged)
  else if g.modes.changedAt path > base then
    if g.modes.current[path]? = some mode then .ok none else .error (window path .metaMeta)
  else .ok (some (.mode path mode))

def mergeSymlink (g : Green) (path : Path) (base : Nat) (target : String) : Judged :=
  if g.content.current.contains path || g.dirs.current.contains path ||
      g.hardlinks.current.contains path || g.specials.current.contains path then
    .error (window path .typeChanged)
  else if g.symlinks.changedAt path > base then
    if g.symlinks.current[path]? = some target then .ok none
    else .error (window path .createCreate)
  else .ok (some (.symlink path target))

def mergeHardlink (g : Green) (path : Path) (base : Nat) (target : Path) : Judged :=
  if g.content.current.contains path || g.dirs.current.contains path ||
      g.symlinks.current.contains path || g.specials.current.contains path then
    .error (window path .typeChanged)
  else if g.hardlinks.changedAt path > base then
    if g.hardlinks.current[path]? = some target then .ok none
    else .error (window path .createCreate)
  else .ok (some (.hardlink path target))

def mergeSetXattr (g : Green) (path : Path) (name : String) (base : Nat) (value : Bytes)
    (established : Bool) : Judged :=
  if g.metadataMissing path established then .error (window path .deleteModify)
  else if !established && g.specialKindChanged path base then .error (window path .typeChanged)
  else if g.xattrs.changedAt (path, name) > base then
    if g.xattrs.current[(path, name)]? = some value then .ok none
    else .error (window path .metaMeta)
  else .ok (some (.setXattr path name value))

def mergeRemoveXattr (g : Green) (path : Path) (name : String) (base : Nat) : Judged :=
  if g.specialKindChanged path base then .error (window path .typeChanged)
  else if !g.xattrs.current.contains (path, name) then .ok none
  else if g.xattrs.changedAt (path, name) > base then .error (window path .metaMeta)
  else .ok (some (.removeXattr path name))

/-- An IPC creation compares the complete captured metadata. -/
def mergeSpecial (g : Green) (path : Path) (base : Nat) (node : SpecialNode) : Judged :=
  if g.content.current.contains path || g.dirs.current.contains path ||
      g.symlinks.current.contains path || g.hardlinks.current.contains path then
    .error (window path .typeChanged)
  else if (g.specials.current[path]?).any (·.kind != node.kind) then
    .error (window path .typeChanged)
  else if g.specials.current[path]? = some node then .ok none
  else if g.specials.changedAt path > base then .error (window path .createCreate)
  else .ok (some (.special path node))

/-! ## The decision -/

/-- The length a path's ops edit at the base: none if created, the source's if renamed into. -/
def editedLen (g : Green) (inc : Increment) (r : Resolved) (path : Path) : Nat :=
  if r.creates.contains path then 0
  else ((g.contentAt (r.renames.getD path path) inc.base).map List.length).getD 0

def unfitContent (g : Green) (inc : Increment) (r : Resolved) : List Path :=
  (r.content.toList.filter fun e =>
    !fitsBase e.2 (g.editedLen inc r e.1) inc.postState.length).map Prod.fst

/-- What one declared change adds to the effects or to the windows. -/
abbrev Judgement := Except (List ConflictWindow) (List Effect)

def single : Judged → Judgement
  | .ok effect => .ok effect.toList
  | .error w => .error [w]

/-- Renames, creates, unlinks and edits, in the order they are decided. -/
def decideContent (g : Green) (inc : Increment) (r : Resolved) : List Judgement :=
  r.renames.toList.map (fun e => (g.mergeRename e.1 inc.base e.2).mapError ([·])) ++
  r.creates.toList.map (fun path =>
    single (g.mergeCreate path (apply [] (r.content.getD path []) inc.postState))) ++
  r.unlinks.toList.map (fun path => single (g.mergeUnlink path inc.base)) ++
  r.edits.map (fun e => (g.mergeContent inc e.1 e.2).map Option.toList)

def decideDirectories (g : Green) (r : Resolved) : List Judgement :=
  r.mkdirs.toList.map (fun path => single (g.mergeMkdir path)) ++
  r.rmdirs.toList.map (fun path => single (g.mergeRmdir path r.cleared))

def decideMetadata (g : Green) (inc : Increment) (r : Resolved) : List Judgement :=
  r.modes.toList.map (fun e =>
    single (g.mergeSetmode e.1 inc.base e.2 (r.establishes e.1))) ++
  r.symlinks.toList.map (fun e => single (g.mergeSymlink e.1 inc.base e.2)) ++
  r.hardlinks.toList.map (fun e => single (g.mergeHardlink e.1 inc.base e.2)) ++
  r.xattrSets.map (fun e =>
    single (g.mergeSetXattr e.1 e.2.1 inc.base e.2.2 (r.establishes e.1))) ++
  r.xattrRemoves.map (fun e => single (g.mergeRemoveXattr e.1 e.2 inc.base))

/-- The windows an increment has before any dimension is judged. -/
def refusals (g : Green) (inc : Increment) (r : Resolved) : List ConflictWindow :=
  (r.invalid.toList ++ g.unfitContent inc r).map (window · .typeChanged)

/-- Every dimension's judgements, in the order the verdict takes them. -/
def judgements (g : Green) (inc : Increment) (r : Resolved) : List Judgement :=
  r.specials.toList.map (fun e => single (g.mergeSpecial e.1 inc.base e.2)) ++
  g.decideContent inc r ++ g.decideDirectories r ++ g.decideMetadata inc r

structure Verdicts where
  effects : List Effect
  windows : List ConflictWindow

def Verdicts.file (v : Verdicts) : Judgement → Verdicts
  | .ok effects => { v with effects := v.effects ++ effects }
  | .error windows => { v with windows := v.windows ++ windows }

def decide (g : Green) (inc : Increment) (r : Resolved) : Judgement :=
  let v := (g.judgements inc r).foldl Verdicts.file ⟨[], g.refusals inc r⟩
  if v.windows = [] then .ok v.effects else .error v.windows

def fastPathCount (g : Green) (inc : Increment) (r : Resolved) : Nat :=
  r.edits.countP (fun e => g.fastPath inc.base e.1)

end Green

end Slates.Merge
