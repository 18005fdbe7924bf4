import Slates.Library.Versioned
import Slates.Merge.Identity
import Slates.Merge.Volume

/-!
The state of a green volume (`crates/merge/src/engine.rs`) and what can be read of it: the head,
earlier versions, the deriver's base and the identity recount.
-/

open Std (ExtTreeMap ExtTreeSet)

namespace Slates.Merge

/-- The conflict classes of a verdict (`verdict.rs`). -/
inductive MergeConflictClass where
  | overlap | anchoredInDelete | samePositionDiffering | renameRename | createCreate
  | deleteModify | modifyDelete | typeChanged | metaMeta
  deriving DecidableEq, Repr

structure ConflictWindow where
  path : Path
  range : Range
  conflict : MergeConflictClass
  deriving DecidableEq, Repr

/-- An increment: the ops document, and the post-state its sources index into. -/
structure Increment where
  id : Digest
  base : Nat
  doc : OpsDoc
  postState : Bytes
  evidence : List Digest
  deriving DecidableEq

/-- The windows of refused increments, the oldest evicted past a byte budget. -/
structure RejectedCache where
  entries : ExtTreeMap Digest (List ConflictWindow)
  order : List Digest
  bytes : Nat
  budget : Nat
  evicted : Nat

/-- A green volume. `dirs` keeps a last-changed index that nothing reads; the source has none. -/
structure Green where
  /-- The set hash of every entry at `identityVersion`. -/
  identity : SetHash
  identityVersion : Nat
  /-- The keys a commit after `identityVersion` changed. -/
  identityDirty : ExtTreeSet IdentityKey
  content : Versioned Path Bytes
  specials : Versioned Path SpecialNode
  dirs : Versioned Path Unit
  modes : Versioned Path UInt32
  symlinks : Versioned Path String
  hardlinks : Versioned Path Path
  xattrs : Versioned (Path × String) Bytes
  /-- Each version's content ops by path. -/
  deltas : List (PathMap (List Op))
  accepted : ExtTreeMap Digest Nat
  rejected : RejectedCache
  historyBytes : Nat
  foldedBelow : Nat
  fastPathHits : Nat

/-- What a complete immutable base gives, version 0 of a green (`origin.rs`). -/
structure Origin where
  files : List (Path × Bytes)
  dirs : List Path
  modes : List (Path × UInt32)
  symlinks : List (Path × String)
  hardlinks : List (Path × Path)
  specials : List (Path × SpecialNode)
  xattrs : List (Path × String × Bytes)

namespace Green

def new : Green where
  identity := fun _ => 0
  identityVersion := 0
  identityDirty := ∅
  content := .empty
  specials := .empty
  dirs := .empty
  modes := .empty
  symlinks := .empty
  hardlinks := .empty
  xattrs := .empty
  deltas := []
  accepted := ∅
  rejected := ⟨∅, [], 0, 0, 0⟩
  historyBytes := 0
  foldedBelow := 0
  fastPathHits := 0

def currentEntries (g : Green) : List Bytes :=
  g.specials.current.toList.map (fun e => specialEntry e.1 e.2) ++
  g.content.current.toList.map (fun e => fileEntry e.1 e.2) ++
  g.dirs.current.toList.map (fun e => dirEntry e.1) ++
  g.modes.current.toList.map (fun e => modeEntry e.1 e.2) ++
  g.symlinks.current.toList.map (fun e => symlinkEntry e.1 e.2) ++
  g.hardlinks.current.toList.map (fun e => hardlinkEntry e.1 e.2) ++
  g.xattrs.current.toList.map (fun e => xattrEntry e.1.1 e.1.2 e.2)

def recount (h : Blake3) (g : Green) : SetHash :=
  g.currentEntries.foldl (SetHash.add h) (fun _ => 0)

def headIdentityFromScratch (h : Blake3) (g : Green) : Digest := h.digest (g.recount h)

/-- A green whose version 0 is `origin`. A repeated key's last declared entry wins. -/
def withOrigin (h : Blake3) (origin : Origin) : Green :=
  let g := { new with
    specials := .seed (.ofList origin.specials)
    content := .seed (.ofList origin.files)
    dirs := .seed (.ofList (origin.dirs.map (·, ())))
    modes := .seed (.ofList origin.modes)
    symlinks := .seed (.ofList origin.symlinks)
    hardlinks := .seed (.ofList origin.hardlinks)
    xattrs := .seed (ExtTreeMap.ofList
      (origin.xattrs.map (fun e : Path × String × Bytes => ((e.1, e.2.1), e.2.2)))) }
  { g with identity := g.recount h }

/-- The head version: the number of committed deltas. -/
def head (g : Green) : Nat := g.deltas.length

/-! ## Reading the head -/

/-- Whether a non-file holds `path`. -/
def occupiedByNonfile (g : Green) (path : Path) : Bool :=
  g.dirs.current.contains path || g.symlinks.current.contains path ||
    g.hardlinks.current.contains path || g.specials.current.contains path

/-- An IPC alias shares its primary node's metadata. -/
def metadataPath (g : Green) (path : Path) : Path :=
  match g.hardlinks.current[path]? with
  | some target => if g.specials.current.contains target then target else path
  | none => path

def mode (g : Green) (path : Path) : Option UInt32 := g.modes.current[g.metadataPath path]?

/-- The tables of one version as a deriver base. -/
def baseOf (files : PathMap Bytes) (specials : PathMap SpecialNode) (dirs : PathMap Unit)
    (modes : PathMap UInt32) (symlinks : PathMap String) (hardlinks : PathMap Path)
    (xattrs : AttrMap Bytes) : Base where
  files := files.toList.map (fun e => (e.1, e.2.length))
  specials := specials.toList
  dirs := dirs.keys
  modes := modes.toList
  symlinks := symlinks.toList
  xattrs := xattrs.toList.map (fun e => (e.1.1, e.1.2, e.2))
  hardlinks := hardlinks.toList

def currentBase (g : Green) : Base :=
  baseOf g.content.current g.specials.current g.dirs.current g.modes.current g.symlinks.current
    g.hardlinks.current g.xattrs.current

/-! ## Reading an earlier version -/

def contentAt (g : Green) (path : Path) (version : Nat) : Option Bytes :=
  g.content.valueAt path version

/-- Every file at `version` with its bytes, in path order. -/
def filesAt (g : Green) (version : Nat) : List (Path × Bytes) :=
  (g.content.snapshot g.head version).toList

/-- The state at `version` as a deriver base. -/
def baseAt (g : Green) (version : Nat) : Base :=
  if version ≥ g.head then g.currentBase
  else
    baseOf (g.content.valuesAt version) (g.specials.valuesAt version) (g.dirs.valuesAt version)
      (g.modes.valuesAt version) (g.symlinks.valuesAt version) (g.hardlinks.valuesAt version)
      (g.xattrs.valuesAt version)

def namedBy (journal : List VolumeOp) : PathSet :=
  ExtTreeSet.ofList (journal.flatMap VolumeOp.names)

/-- The base of `version` that composing `journal` reads: the entries at the paths it names, and the
hard links aimed at them. -/
def baseFor (g : Green) (version : Nat) (journal : List VolumeOp) : Base :=
  let named := namedBy journal
  let entries {V : Type} (m : Versioned Path V) : List (Path × V) :=
    named.toList.filterMap fun path => ((m.snapshot g.head version)[path]?).map (path, ·)
  { files := (entries g.content).map (fun e => (e.1, e.2.length))
    specials := entries g.specials
    dirs := (entries g.dirs).map Prod.fst
    modes := entries g.modes
    symlinks := entries g.symlinks
    xattrs := named.toList.flatMap fun path =>
      ((g.xattrs.snapshot g.head version).toList.filter (fun e => e.1.1 == path)).map
        (fun e => (e.1.1, e.1.2, e.2))
    hardlinks := (g.hardlinks.snapshot g.head version).toList.filter
      (fun e => named.contains e.1 || named.contains e.2) }

def touchedBetween (g : Green) (since upto : Nat) : PathSet :=
  ExtTreeSet.ofList (
    g.content.keysTouched since upto ++ g.specials.keysTouched since upto ++
    g.dirs.keysTouched since upto ++ g.modes.keysTouched since upto ++
    g.symlinks.keysTouched since upto ++ g.hardlinks.keysTouched since upto ++
    (g.xattrs.keysTouched since upto).map Prod.fst)

/-- Add an alias aimed, at either version, at an IPC node that changed. The set grows as aliases
join it, in path order. -/
def addAlias (g : Green) (since upto : Nat) (changed : PathSet) (link : Path) : PathSet :=
  if [g.hardlinks.valueAt link since, g.hardlinks.valueAt link upto].any
      (·.any fun target => g.specials.history.contains target && changed.contains target)
  then changed.insert link else changed

/-- What an attachment that moves from `since` to `upto` must invalidate. -/
def changedBetween (g : Green) (since upto : Nat) : List Path :=
  (g.hardlinks.history.keys.foldl (g.addAlias since upto) (g.touchedBetween since upto)).toList

end Green

end Slates.Merge
