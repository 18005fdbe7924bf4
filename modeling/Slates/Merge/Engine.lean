import Slates.Merge.Verdict

/-!
The merge engine's operations (`crates/merge/src/engine.rs`): commit, `submit` with its idempotency
record and rejected-result cache, `rebase`, folding, and the running identity.
-/

namespace Slates.Merge

/-! ## Commit -/

namespace Green

def markDirty (g : Green) (key : IdentityKey) : Green :=
  { g with identityDirty := g.identityDirty.insert key }

/-- Set an IPC node; the value it supersedes is retained history. -/
def commitSpecial (g : Green) (path : Path) (node : SpecialNode) (version : Nat) : Green :=
  { g with
    historyBytes :=
      g.historyBytes + (if g.specials.current.contains path then specialNodeBytes else 0)
    specials := g.specials.set path node version }

/-- Remove an attribute that goes with its node. -/
def dropXattr (version : Nat) (g : Green) (key : Path × String) : Green :=
  { g.markDirty (.xattr key.1 key.2) with xattrs := g.xattrs.clear key version }

/-- Remove an IPC node with its mode and attributes, whose keys are marked here. -/
def removeSpecial (g : Green) (path : Path) (version : Nat) : Green :=
  let g := { g with
    historyBytes :=
      g.historyBytes + (if g.specials.current.contains path then specialNodeBytes else 0) }
  let g := if g.modes.current.contains path then
      { g.markDirty (.mode path) with modes := g.modes.clear path version }
    else g
  let g := (g.xattrs.current.keys.filter (fun key => key.1 == path)).foldl (dropXattr version) g
  { g with specials := g.specials.clear path version }

def commitEffect (version : Nat) (g : Green) (effect : Effect) : Green :=
  let g := g.markDirty effect.identityKey
  match effect with
  | .special path node => g.commitSpecial path node version
  | .removeSpecial path => g.removeSpecial path version
  | .setContent _ _ _ => g
  | .removeContent _ => g
  | .makeDir path => { g with dirs := g.dirs.set path () version }
  | .removeDir path => { g with dirs := g.dirs.clear path version }
  | .mode path mode => { g with modes := g.modes.set path mode version }
  | .symlink path target => { g with symlinks := g.symlinks.set path target version }
  | .removeSymlink path => { g with symlinks := g.symlinks.clear path version }
  | .hardlink path target => { g with hardlinks := g.hardlinks.set path target version }
  | .removeHardlink path => { g with hardlinks := g.hardlinks.clear path version }
  | .setXattr path name value => { g with xattrs := g.xattrs.set (path, name) value version }
  | .removeXattr path name => { g with xattrs := g.xattrs.clear (path, name) version }

end Green

def Effect.removedContent : Effect → Option Path
  | .removeContent path => some path
  | _ => none

/-- The file an effect sets, its bytes and its delta. -/
def Effect.contentSet : Effect → Option (Path × Bytes × List Op)
  | .setContent path bytes ops => some (path, bytes, ops)
  | _ => none

namespace Green

/-- The bytes a superseded file adds to the retained history. -/
def supersededLen (g : Green) (path : Path) : Nat :=
  ((g.content.current[path]?).map List.length).getD 0

def commitRemove (version : Nat) (g : Green) (path : Path) : Green :=
  { g with
    historyBytes := g.historyBytes + g.supersededLen path
    content := g.content.clear path version }

def commitSet (version : Nat) (g : Green) (entry : Path × Bytes × List Op) : Green :=
  { g with
    historyBytes := g.historyBytes + g.supersededLen entry.1
    content := g.content.set entry.1 entry.2.1 version }

def deltaOf (effects : List Effect) : PathMap (List Op) :=
  (effects.filterMap Effect.contentSet).foldl (fun delta e => delta.insert e.1 e.2.2) ∅

/-- Content removals are staged before sets, so that a rename's source removal never deletes a file
the same increment puts there. -/
def commit (g : Green) (effects : List Effect) (version : Nat) : Green :=
  let g := effects.foldl (commitEffect version) g
  let g := (effects.filterMap Effect.removedContent).foldl (commitRemove version) g
  let g := (effects.filterMap Effect.contentSet).foldl (commitSet version) g
  { g with deltas := g.deltas ++ [deltaOf effects] }

end Green

/-! ## The rejected-result cache -/

def windowBytes (w : ConflictWindow) : Nat := w.path.utf8ByteSize + 16 + 1

def rejectedEntryBytes (windows : List ConflictWindow) : Nat := 32 + (windows.map windowBytes).sum

namespace RejectedCache

/-- Drop one entry, with its bytes. -/
def drop (cache : RejectedCache) (id : Digest) : RejectedCache :=
  match cache.entries[id]? with
  | some windows =>
    { cache with
      entries := cache.entries.erase id
      bytes := cache.bytes - rejectedEntryBytes windows
      evicted := cache.evicted + 1 }
  | none => cache

/-- Evict oldest-first while `needed` more bytes do not fit. -/
def evict (needed : Nat) : List Digest → RejectedCache → RejectedCache
  | [], cache => { cache with order := [] }
  | oldest :: rest, cache =>
    if cache.bytes + needed > cache.budget then evict needed rest (cache.drop oldest)
    else { cache with order := oldest :: rest }

def retain (cache : RejectedCache) (id : Digest) (windows : List ConflictWindow) : RejectedCache :=
  let needed := rejectedEntryBytes windows
  if needed > cache.budget then { cache with evicted := cache.evicted + 1 }
  else
    let cache := evict needed cache.order cache
    { cache with
      entries := cache.entries.insert id windows
      order := cache.order ++ [id]
      bytes := cache.bytes + needed }

def setBudget (cache : RejectedCache) (bytes : Nat) : RejectedCache :=
  evict 0 cache.order { cache with budget := bytes }

def forget (cache : RejectedCache) (id : Digest) : RejectedCache :=
  if cache.entries.contains id then
    { cache.drop id with order := cache.order.filter (· != id) }
  else cache

end RejectedCache

/-! ## Submit and rebase -/

inductive Outcome where
  | accepted (version : Nat)
  | conflict (windows : List ConflictWindow)
  deriving DecidableEq, Repr

/-- The work's new base, what it changes over the head, and its journal in head coordinates. -/
inductive Rebased where
  | rebased (version : Nat) (changed : PathMap (Option Bytes)) (journal : List VolumeOp)
  | conflict (windows : List ConflictWindow)

namespace Green

def countHits (g : Green) (inc : Increment) (r : Resolved) : Green :=
  { g with fastPathHits := g.fastPathHits + g.fastPathCount inc r }

/-- Submit an increment: idempotent by identity, and all of it or nothing. -/
def submit (g : Green) (inc : Increment) : Green × Outcome :=
  match g.accepted[inc.id]? with
  | some version => (g, .accepted version)
  | none =>
    match g.rejected.entries[inc.id]? with
    | some windows => (g, .conflict windows)
    | none =>
      let r := resolve inc
      let counted := g.countHits inc r
      match g.decide inc r with
      | .ok effects =>
        let version := g.head + 1
        ({ counted.commit effects version with accepted := g.accepted.insert inc.id version },
          .accepted version)
      | .error windows =>
        ({ counted with rejected := g.rejected.retain inc.id windows }, .conflict windows)

def contentVolumeOp (path : Path) (op : Op) : Option VolumeOp :=
  match op.kind with
  | .overwrite => some (.overwrite path op.offset op.len)
  | .insert => some (.insert path op.offset op.len)
  | .extend => some (.extend path op.offset op.len)
  | .delete => some (.delete path op.offset op.len)
  | .truncate => some (.truncate path op.len)
  | _ => none

def restate (g : Green) : Effect → List VolumeOp
  | .special path node =>
    (if g.specials.current.contains path then [.unlink path] else []) ++
      [.mknod path node ((g.mode path).getD 0)]
  | .removeSpecial path => [.unlink path]
  | .setContent path _ ops =>
    (if g.content.current.contains path then [] else [.create path]) ++
      ops.filterMap (contentVolumeOp path)
  | .removeContent path => [.unlink path]
  | .makeDir path => [.mkdir path]
  | .removeDir path => [.rmdir path]
  | .mode path mode => [.setMode path mode]
  | .symlink path target => [.symlink path target]
  | .removeSymlink path | .removeHardlink path => [.unlink path]
  | .hardlink path target => [.link path target]
  | .setXattr path name value => [.setXattr path name value]
  | .removeXattr path name => [.removeXattr path name]

def recordChanged (changed : PathMap (Option Bytes)) : Effect → PathMap (Option Bytes)
  | .setContent path bytes _ => changed.insert path (some bytes)
  | .removeContent path => changed.insert path none
  | _ => changed

/-- Restate a clean rebase's effects: only what differs from the head is the work's own. -/
def rebasedFrom (g : Green) (effects : List Effect) (version : Nat) : Rebased :=
  .rebased version
    (pick (fun path after => if after = g.content.current[path]? then none else some after)
      (effects.foldl recordChanged ∅))
    (effects.flatMap g.restate)

/-- Judge as `submit` would, commit nothing. The counter `decide` moves is put back. -/
def rebase (g : Green) (inc : Increment) : Green × Rebased :=
  let version := g.head
  let r := resolve inc
  let before := g.fastPathHits
  let restored := { g.countHits inc r with fastPathHits := before }
  match g.decide inc r with
  | .error windows => (restored, .conflict windows)
  | .ok effects => (restored, restored.rebasedFrom effects version)

/-! ## The running identity -/

/-- A key's entry at version `since`, and at the head. -/
def entriesOf (g : Green) (key : IdentityKey) (since : Nat) : Option Bytes × Option Bytes :=
  match key with
  | .file path =>
    ((g.content.valueAt path since).map (fileEntry path),
      (g.content.current[path]?).map (fileEntry path))
  | .special path =>
    ((g.specials.valueAt path since).map (specialEntry path),
      (g.specials.current[path]?).map (specialEntry path))
  | .dir path =>
    ((g.dirs.valueAt path since).map (fun _ => dirEntry path),
      (g.dirs.current[path]?).map (fun _ => dirEntry path))
  | .mode path =>
    ((g.modes.valueAt path since).map (modeEntry path),
      (g.modes.current[path]?).map (modeEntry path))
  | .symlink path =>
    ((g.symlinks.valueAt path since).map (symlinkEntry path),
      (g.symlinks.current[path]?).map (symlinkEntry path))
  | .hardlink path =>
    ((g.hardlinks.valueAt path since).map (hardlinkEntry path),
      (g.hardlinks.current[path]?).map (hardlinkEntry path))
  | .xattr path name =>
    ((g.xattrs.valueAt (path, name) since).map (xattrEntry path name),
      (g.xattrs.current[(path, name)]?).map (xattrEntry path name))

/-- Replace a key's old entry in the sum by its new one. -/
def foldKey (h : Blake3) (g : Green) (sum : SetHash) (key : IdentityKey) : SetHash :=
  let (old, new) := g.entriesOf key g.identityVersion
  let sum := match old with | some entry => SetHash.remove h sum entry | none => sum
  match new with | some entry => SetHash.add h sum entry | none => sum

/-- Bring the set hash from `identityVersion` to the head. -/
def foldIdentity (h : Blake3) (g : Green) : Green :=
  { g with
    identity := g.identityDirty.toList.foldl (g.foldKey h) g.identity
    identityDirty := ∅
    identityVersion := g.head }

def headIdentity (h : Blake3) (g : Green) : Green × Digest :=
  let g := g.foldIdentity h
  (g, h.digest g.identity)

/-! ## Folding -/

def contentCost (value : Option Bytes) : Nat := (value.map List.length).getD 0

def specialCost (value : Option SpecialNode) : Nat := if value.isSome then specialNodeBytes else 0

/-- The bytes of history that no version from `floor` on reads. -/
def releasedBelow (g : Green) (floor : Nat) : Nat :=
  g.content.releasedBelow floor contentCost + g.specials.releasedBelow floor specialCost

/-- Every history folded below `floor`. -/
def folded (g : Green) (floor : Nat) : Green :=
  { g with
    foldedBelow := floor
    content := g.content.foldBelow floor
    specials := g.specials.foldBelow floor
    modes := g.modes.foldBelow floor
    symlinks := g.symlinks.foldBelow floor
    hardlinks := g.hardlinks.foldBelow floor
    xattrs := g.xattrs.foldBelow floor
    dirs := g.dirs.foldBelow floor
    historyBytes := g.historyBytes - g.releasedBelow floor }

/-- Fold every history below `floor`; the bytes released. The identity is brought to the head first
when the floor passes it. -/
def foldHistoryBefore (h : Blake3) (g : Green) (floor : Nat) : Green × Nat :=
  if floor ≤ g.foldedBelow then (g, 0)
  else
    let g := if g.identityVersion < floor then g.foldIdentity h else g
    (g.folded floor, g.releasedBelow floor)

/-- The budget loop, `steps` versions at most: the floor rises while the retained history is over
budget. -/
def foldSteps (h : Blake3) (budget : Nat) : Nat → Green → Green × Nat
  | 0, g => (g, 0)
  | steps + 1, g =>
    if g.historyBytes > budget then
      let (next, released) := g.foldHistoryBefore h (g.foldedBelow + 1)
      let (last, more) := foldSteps h budget steps next
      (last, released + more)
    else (g, 0)

/-- Fold oldest-first, as far as the budget needs, never past `reachableFloor`. -/
def foldHistoryToBudget (h : Blake3) (g : Green) (reachableFloor budget : Nat) : Green × Nat :=
  foldSteps h budget (reachableFloor - g.foldedBelow) g

end Green

/-! ## Runs -/

/-- Every operation that takes a green by `&mut`. -/
inductive Command where
  | submit (inc : Increment)
  | rebase (inc : Increment)
  | headIdentity
  | foldHistoryBefore (floor : Nat)
  | foldHistoryToBudget (reachableFloor budget : Nat)
  | setRejectedBudget (bytes : Nat)
  | forgetRejected (id : Digest)
  deriving DecidableEq

namespace Green

def step (h : Blake3) (g : Green) : Command → Green
  | .submit inc => (g.submit inc).1
  | .rebase inc => (g.rebase inc).1
  | .headIdentity => (g.headIdentity h).1
  | .foldHistoryBefore floor => (g.foldHistoryBefore h floor).1
  | .foldHistoryToBudget floor budget => (g.foldHistoryToBudget h floor budget).1
  | .setRejectedBudget bytes => { g with rejected := g.rejected.setBudget bytes }
  | .forgetRejected id => { g with rejected := g.rejected.forget id }

def run (h : Blake3) (g : Green) (commands : List Command) : Green :=
  commands.foldl (step h) g

end Green

end Slates.Merge
