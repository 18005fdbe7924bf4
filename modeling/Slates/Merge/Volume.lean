import Slates.Merge.Derive

/-!
The whole-volume deriver (`crates/merge/src/increment.rs`, and the IPC part of `special.rs`): a
journal of declared operations composes, against the base, into one canonical ops document.
-/

namespace Slates.Merge

/-- One declared operation of a journal, in current-file coordinates; a rename goes from `source` to
`dest`. -/
inductive VolumeOp where
  | overwrite (path : Path) (offset len : Nat)
  | extend (path : Path) (offset len : Nat)
  | truncate (path : Path) (len : Nat)
  | insert (path : Path) (offset len : Nat)
  | delete (path : Path) (offset len : Nat)
  | create (path : Path)
  | mknod (path : Path) (node : SpecialNode) (mode : UInt32)
  | unlink (path : Path)
  | rename (source dest : Path)
  | mkdir (path : Path)
  | rmdir (path : Path)
  | setMode (path : Path) (mode : UInt32)
  | symlink (path : Path) (target : String)
  | setXattr (path : Path) (name : String) (value : Bytes)
  | removeXattr (path : Path) (name : String)
  | link (path target : Path)
  deriving DecidableEq

namespace VolumeOp

def content : VolumeOp → Option ContentOp
  | .overwrite _ offset len => some (.overwrite offset len)
  | .extend _ offset len => some (.extend offset len)
  | .truncate _ len => some (.truncate len)
  | .insert _ offset len => some (.insert offset len)
  | .delete _ offset len => some (.delete offset len)
  | _ => none

/-- Every path the operation names. A symlink's target is a string the link holds. -/
def names : VolumeOp → List Path
  | .overwrite path _ _ | .extend path _ _ | .truncate path _ | .insert path _ _
  | .delete path _ _ | .create path | .mknod path _ _ | .unlink path | .mkdir path
  | .rmdir path | .setMode path _ | .symlink path _ | .setXattr path _ _
  | .removeXattr path _ => [path]
  | .rename source dest => [source, dest]
  | .link path target => [path, target]

def isDirectory : VolumeOp → Bool
  | .mkdir _ | .rmdir _ => true
  | _ => false

def isSymlink : VolumeOp → Bool
  | .symlink _ _ => true
  | _ => false

def isLink : VolumeOp → Bool
  | .link _ _ => true
  | _ => false

def isMknod : VolumeOp → Bool
  | .mknod _ _ _ => true
  | _ => false

/-- The file path a content, create or unlink operation targets. -/
def singlePath : VolumeOp → Option Path
  | .overwrite path _ _ | .extend path _ _ | .truncate path _ | .insert path _ _
  | .delete path _ _ | .create path | .unlink path => some path
  | _ => none

end VolumeOp

inductive DeriveError where
  | contentOnMissing (path : Path)
  | createOverExisting (path : Path)
  | unlinkMissing (path : Path)
  | renameMissingSource (path : Path)
  | unsupported (path : Path)
  | mkdirOverExisting (path : Path)
  | rmdirMissing (path : Path)
  | pathIsFileAndDirectory (path : Path)
  | setModeMissing (path : Path)
  | symlinkOverExisting (path : Path)
  | pathKindConflict (path : Path)
  | xattrMissing (path : Path)
  | linkOverExisting (path : Path)
  deriving DecidableEq, Repr

/-- The base the deriver composes against: the files' lengths, and every other table. -/
structure Base where
  files : List (Path × Nat)
  specials : List (Path × SpecialNode)
  dirs : List Path
  modes : List (Path × UInt32)
  symlinks : List (Path × String)
  xattrs : List (Path × String × Bytes)
  hardlinks : List (Path × Path)
  deriving DecidableEq

/-- The first entry a table holds for `path`. -/
def lookup {V : Type} (table : List (Path × V)) (path : Path) : Option V :=
  (table.find? (fun entry => entry.1 == path)).map Prod.snd

namespace Base

def modeOf (base : Base) (path : Path) : Option UInt32 := lookup base.modes path
def lenOf (base : Base) (path : Path) : Option Nat := lookup base.files path

def xattr (base : Base) (path : Path) (name : String) : Option Bytes :=
  (base.xattrs.find? (fun entry => entry.1 == path && entry.2.1 == name)).map (·.2.2)

def isFile (base : Base) (path : Path) : Bool := base.files.any (·.1 == path)
def isDir (base : Base) (path : Path) : Bool := base.dirs.any (· == path)
def isSymlink (base : Base) (path : Path) : Bool := base.symlinks.any (·.1 == path)
def isHardlink (base : Base) (path : Path) : Bool := base.hardlinks.any (·.1 == path)

end Base

/-! ## Files as entities -/

structure Entity where
  /-- The base path it came from, `none` when it was created this increment. -/
  origin : Option Path
  baseLen : Nat
  content : List ContentOp
  live : Bool
  finalPath : Path
  /-- Killed by a rename over it, so no unlink is emitted for it. -/
  clobbered : Bool
  deriving DecidableEq, Repr

def liveIndex (entities : List Entity) (path : Path) : Option Nat :=
  entities.findIdx? (fun e => e.live && e.finalPath == path)

/-- Whether the base file at `path` already became an entity. -/
def consumed (entities : List Entity) (path : Path) : Bool :=
  entities.any (fun e => e.origin == some path)

/-- Make an untouched base file an entity; its index. -/
def materializeBase (entities : List Entity) (base : Base) (path : Path) :
    Option (List Entity × Nat) :=
  if consumed entities path then none
  else (base.lenOf path).map fun baseLen =>
    (entities ++ [⟨some path, baseLen, [], true, path, false⟩], entities.length)

/-- The live entity at `path`, an untouched base file included. -/
def locate (entities : List Entity) (base : Base) (path : Path) : Option (List Entity × Nat) :=
  match liveIndex entities path with
  | some index => some (entities, index)
  | none => materializeBase entities base path

def applyCreate (entities : List Entity) (base : Base) (path : Path) :
    Except DeriveError (List Entity) :=
  if (liveIndex entities path).isSome then .error (.createOverExisting path)
  else
    -- an in-place unlink of this base path: the recreation replaces the base content
    match entities.findIdx? (fun e =>
        !e.live && !e.clobbered && e.finalPath == path && e.origin == some path) with
    | some index =>
      let baseLen := ((entities[index]?).map (·.baseLen)).getD 0
      .ok (entities.modify index (fun e => { e with clobbered := true }) ++
        [⟨some path, baseLen, [.truncate 0], true, path, false⟩])
    | none =>
      if (base.lenOf path).isSome then
        if consumed entities path then .error (.unsupported path)
        else .error (.createOverExisting path)
      else .ok (entities ++ [⟨none, 0, [], true, path, false⟩])

def applyUnlink (entities : List Entity) (base : Base) (path : Path) :
    Except DeriveError (List Entity) :=
  match locate entities base path with
  | none => .error (.unlinkMissing path)
  | some (entities, index) =>
    .ok (entities.modify index (fun e => { e with live := false, content := [] }))

/-- What a rename replaces: a live entity, an untouched base file, or nothing. -/
def resolveRenameTarget (entities : List Entity) (base : Base) (dest : Path) :
    Except DeriveError (List Entity × Option Nat) :=
  match liveIndex entities dest with
  | some index => .ok (entities, some index)
  | none =>
    if (base.lenOf dest).isSome then
      if consumed entities dest then .error (.unsupported dest)
      else
        match materializeBase entities base dest with
        | some (entities, index) => .ok (entities, some index)
        | none => .ok (entities, none)
    else .ok (entities, none)

/-- The moved entity of a rename over `target`: a new file over a base file at its own path is
rooted at the destination's base. -/
def reroot (target : Entity) (dest : Path) (moved : Entity) : Entity :=
  if target.origin = some dest ∧ moved.origin = none then
    { moved with
      origin := some dest, baseLen := target.baseLen, content := .truncate 0 :: moved.content }
  else moved

def applyRename (entities : List Entity) (base : Base) (source dest : Path) :
    Except DeriveError (List Entity) :=
  if source = dest then .ok entities
  else
    match locate entities base source with
    | none => .error (.renameMissingSource source)
    | some (entities, moved) =>
      match resolveRenameTarget entities base dest with
      | .error e => .error e
      | .ok (entities, none) =>
        .ok (entities.modify moved (fun e => { e with finalPath := dest }))
      | .ok (entities, some target) =>
        match entities[target]? with
        | none => .error (.renameMissingSource source)
        | some replaced =>
          .ok ((entities.modify target (fun e => { e with live := false, clobbered := true }))
            |>.modify moved (fun e => { reroot replaced dest e with finalPath := dest }))

/-- Apply one file operation to the entities; metadata operations pass through. -/
def applyOp (entities : List Entity) (base : Base) (op : VolumeOp) :
    Except DeriveError (List Entity) :=
  match op.content with
  | some content =>
    let path := op.singlePath.getD ""
    match locate entities base path with
    | none => .error (.contentOnMissing path)
    | some (entities, index) =>
      .ok (entities.modify index (fun e => { e with content := e.content ++ [content] }))
  | none =>
    match op with
    | .create path => applyCreate entities base path
    | .unlink path => applyUnlink entities base path
    | .rename source dest => applyRename entities base source dest
    | _ => .ok entities

/-! ## Directories, links, modes and attributes -/

inductive DirectoryEmission where
  | made (path : Path)
  | removed (path : Path)
  deriving DecidableEq, Repr

def directoryStep (base : Base) (present : PathMap Bool) (op : VolumeOp) :
    Except DeriveError (PathMap Bool) :=
  match op with
  | .mkdir path =>
    if present.getD path (base.isDir path) then .error (.mkdirOverExisting path)
    else .ok (present.insert path true)
  | .rmdir path =>
    if present.getD path (base.isDir path) then .ok (present.insert path false)
    else .error (.rmdirMissing path)
  | _ => .ok present

def composeDirectories (base : Base) (journal : List VolumeOp) :
    Except DeriveError (List DirectoryEmission) := do
  let present ← journal.foldlM (directoryStep base) ∅
  return present.toList.filterMap fun (path, here) =>
    if here && !base.isDir path then some (.made path)
    else if !here && base.isDir path then some (.removed path)
    else none

def presentDirectories (base : Base) (journal : List VolumeOp) : PathSet :=
  journal.foldl
    (fun present op =>
      match op with
      | .mkdir path => present.insert path
      | .rmdir path => present.erase path
      | _ => present)
    (Std.ExtTreeSet.ofList base.dirs)

inductive LinkEmission where
  | made (path : Path) (target : String)
  | removed (path : Path)
  deriving DecidableEq, Repr

/-- The link a `Symlink` operation makes. -/
def VolumeOp.symlinkMade : VolumeOp → Option (Path × String)
  | .symlink path target => some (path, target)
  | _ => none

/-- The link a `Link` operation makes. -/
def VolumeOp.hardlinkMade : VolumeOp → Option (Path × String)
  | .link path target => some (path, target)
  | _ => none

/-- The paths taken as links of one kind: the base's and those it makes. -/
def linkPaths (table : List (Path × String)) (made : VolumeOp → Option (Path × String))
    (journal : List VolumeOp) : PathSet :=
  Std.ExtTreeSet.ofList (table.map Prod.fst ++ journal.filterMap (fun op => (made op).map Prod.fst))

def symlinkPaths (base : Base) (journal : List VolumeOp) : PathSet :=
  linkPaths base.symlinks VolumeOp.symlinkMade journal

def hardlinkPaths (base : Base) (journal : List VolumeOp) : PathSet :=
  linkPaths base.hardlinks VolumeOp.hardlinkMade journal

/-- Whether a link is here, and its target. -/
def linkHere (table : List (Path × String)) (state : PathMap (Bool × String)) (path : Path) :
    Bool × String :=
  state.getD path
    (match lookup table path with | some target => (true, target) | none => (false, ""))

def linkStep (table : List (Path × String)) (made : VolumeOp → Option (Path × String))
    (overExisting : Path → DeriveError) (paths : PathSet)
    (state : PathMap (Bool × String)) (op : VolumeOp) :
    Except DeriveError (PathMap (Bool × String)) :=
  match made op with
  | some (path, target) =>
    if (linkHere table state path).1 then .error (overExisting path)
    else .ok (state.insert path (true, target))
  | none =>
    match op with
    | .unlink path =>
      if paths.contains path then
        if (linkHere table state path).1 then
          .ok (state.insert path (false, (linkHere table state path).2))
        else .error (.unlinkMissing path)
      else .ok state
    | _ => .ok state

/-- One link's net change against the base. -/
def linkEmission (table : List (Path × String)) (path : Path) (here : Bool × String) :
    Option LinkEmission :=
  if here.1 then if lookup table path = some here.2 then none else some (.made path here.2)
  else if (lookup table path).isSome then some (.removed path) else none

/-- Compose the operations on links of one kind (`compose_symlinks`, `compose_hardlinks`). -/
def composeLinks (table : List (Path × String)) (made : VolumeOp → Option (Path × String))
    (overExisting : Path → DeriveError) (journal : List VolumeOp) (paths : PathSet) :
    Except DeriveError (List LinkEmission) := do
  let state ← journal.foldlM (linkStep table made overExisting paths) ∅
  return state.toList.filterMap fun (path, here) => linkEmission table path here

def composeSymlinks (base : Base) (journal : List VolumeOp) (paths : PathSet) :
    Except DeriveError (List LinkEmission) :=
  composeLinks base.symlinks VolumeOp.symlinkMade .symlinkOverExisting journal paths

def composeHardlinks (base : Base) (journal : List VolumeOp) (paths : PathSet) :
    Except DeriveError (List LinkEmission) :=
  composeLinks base.hardlinks VolumeOp.hardlinkMade .linkOverExisting journal paths

/-- Refuse metadata on a path renamed away or present nowhere at seal. -/
def checkPresent (missing : Path → DeriveError) (survivors renamedAway presentDirs : PathSet)
    (path : Path) : Except DeriveError Unit :=
  if renamedAway.contains path then .error (.unsupported path)
  else if !survivors.contains path && !presentDirs.contains path then .error (missing path)
  else .ok ()

/-- The last mode set on each path; an IPC creation that did not survive sets none. -/
def finalModes (journal : List VolumeOp) (survivors : PathSet) : PathMap UInt32 :=
  journal.foldl
    (fun modes op =>
      match op with
      | .setMode path mode => modes.insert path mode
      | .mknod path _ mode => if survivors.contains path then modes.insert path mode else modes
      | _ => modes)
    ∅

def composeModes (base : Base) (journal : List VolumeOp)
    (survivors renamedAway presentDirs : PathSet) : Except DeriveError (List (Path × UInt32)) := do
  let modes := (finalModes journal survivors).toList
  modes.forM fun entry =>
    checkPresent .setModeMissing survivors renamedAway presentDirs entry.1
  return modes.filter fun (path, mode) => base.modeOf path != some mode

inductive XattrEmission where
  | set (path : Path) (name : String) (value : Bytes)
  | removed (path : Path) (name : String)
  deriving DecidableEq, Repr

/-- The final state of each attribute an operation names, `none` when removed. -/
def finalXattrs (journal : List VolumeOp) : AttrMap (Option Bytes) :=
  journal.foldl
    (fun state op =>
      match op with
      | .setXattr path name value => state.insert (path, name) (some value)
      | .removeXattr path name => state.insert (path, name) none
      | _ => state)
    ∅

def xattrEmission (base : Base) (path : Path) (name : String) : Option Bytes → Option XattrEmission
  | some value => if base.xattr path name = some value then none else some (.set path name value)
  | none => if (base.xattr path name).isSome then some (.removed path name) else none

def composeXattrs (base : Base) (journal : List VolumeOp)
    (survivors renamedAway presentDirs : PathSet) : Except DeriveError (List XattrEmission) := do
  let state := (finalXattrs journal).toList
  state.forM fun entry =>
    checkPresent .xattrMissing survivors renamedAway presentDirs entry.1.1
  return state.filterMap fun ((path, name), value) => xattrEmission base path name value

/-! ## IPC nodes -/

/-- The paths it speaks of, those that hold a node at seal, and the net changes. -/
structure Composition where
  paths : PathSet
  survivors : PathSet
  changes : PathMap (Option SpecialNode)

namespace Composition

def step (base : Base) (paths : PathSet) (present : PathMap SpecialNode) (op : VolumeOp) :
    Except DeriveError (PathMap SpecialNode) :=
  match op with
  | .mknod path node _ =>
    if present.contains path then .error (.createOverExisting path)
    else .ok (present.insert path node)
  | .unlink path =>
    if paths.contains path then
      -- the primary name of an aliased node cannot go
      if base.hardlinks.any (fun entry => entry.2 == path) then .error (.unsupported path)
      else if present.contains path then .ok (present.erase path)
      else .error (.unlinkMissing path)
    else .ok present
  | _ => .ok present

def pathsOf (base : Base) (journal : List VolumeOp) : PathSet :=
  Std.ExtTreeSet.ofList (base.specials.map Prod.fst ++
    journal.filterMap (fun op => match op with | .mknod path _ _ => some path | _ => none))

def of (base : Base) (journal : List VolumeOp) : Except DeriveError Composition := do
  let initial : PathMap SpecialNode := Std.ExtTreeMap.ofList base.specials
  let paths := pathsOf base journal
  let present ← journal.foldlM (step base paths) initial
  return {
    paths := paths
    survivors := Std.ExtTreeSet.ofList present.keys
    changes := Std.ExtTreeMap.ofList (paths.toList.filterMap fun path =>
      if present[path]? = initial[path]? then none else some (path, present[path]?)) }

def payloadStart (doc : OpsDoc) : Nat :=
  (doc.ops.filter (fun op => op.kind.addsContent || op.kind == .setXattr)).foldl
    (fun top op => max top (op.src + op.len)) 0

def emitOne (acc : OpsDoc × Nat) (change : Path × Option SpecialNode) : OpsDoc × Nat :=
  let (doc, offset) := acc
  let (paths, path) := doc.paths.intern change.1
  let doc := { doc with paths := paths }
  match change.2 with
  | some _ => (doc.push ⟨.mknod, 0, path, 0, encodedBytes, offset⟩, offset + encodedBytes)
  | none => (doc.push ⟨.unlink, 0, path, 0, 0, u64Max⟩, offset)

def emit (composition : Composition) (doc : OpsDoc) : OpsDoc :=
  (composition.changes.toList.foldl emitOne (doc, payloadStart doc)).1.canonicalize

end Composition

/-! ## One kind per path within an increment -/

def unlinksNonfile (symPaths linkPaths specialPaths : PathSet) (path : Path) : Bool :=
  symPaths.contains path || linkPaths.contains path || specialPaths.contains path

/-- The paths an operation uses as files. -/
def filePathsOf (symPaths linkPaths specialPaths : PathSet) : VolumeOp → List Path
  | .rename source dest => [source, dest]
  | .unlink path => if unlinksNonfile symPaths linkPaths specialPaths path then [] else [path]
  | op => op.singlePath.toList

def dirPathsOf : VolumeOp → List Path
  | .mkdir path | .rmdir path => [path]
  | _ => []

def refuseAny (paths : PathSet) (error : Path → DeriveError) (bad : Path → Bool) :
    Except DeriveError Unit :=
  paths.toList.forM fun path => if bad path then .error (error path) else .ok ()

def checkNoFileDirectoryCollision (base : Base) (journal : List VolumeOp) :
    Except DeriveError Unit := do
  let specials ← Composition.of base journal
  let files : PathSet := Std.ExtTreeSet.ofList (journal.flatMap
    (filePathsOf (symlinkPaths base journal) (hardlinkPaths base journal) specials.paths))
  let dirs : PathSet := Std.ExtTreeSet.ofList (journal.flatMap dirPathsOf)
  let symIntent : PathSet := linkPaths [] VolumeOp.symlinkMade journal
  let linkIntent : PathSet := linkPaths [] VolumeOp.hardlinkMade journal
  refuseAny specials.paths .pathKindConflict fun path =>
    files.contains path || dirs.contains path || symIntent.contains path ||
      linkIntent.contains path || base.isFile path || base.isDir path || base.isSymlink path ||
      base.isHardlink path
  refuseAny files .pathIsFileAndDirectory fun path =>
    dirs.contains path || base.isDir path || base.isSymlink path || base.isHardlink path
  refuseAny dirs .pathIsFileAndDirectory fun path =>
    files.contains path || base.isFile path || base.isSymlink path
  refuseAny symIntent .pathKindConflict fun path =>
    files.contains path || dirs.contains path || linkIntent.contains path ||
      base.isFile path || base.isDir path || base.isHardlink path
  refuseAny linkIntent .pathKindConflict fun path =>
    files.contains path || dirs.contains path || base.isFile path || base.isDir path ||
      base.isSymlink path

/-! ## The document -/

/-- One file's declared change and the bytes it lays out in the post-state. -/
structure Emission where
  finalPath : Path
  /-- The rename source. -/
  source : Option Path
  created : Bool
  ops : List Op
  finalLen : Nat
  deriving DecidableEq, Repr

def emissionOf (e : Entity) : Option Emission :=
  let (ops, finalLen) := Derive.composeContentSized e.baseLen e.content
  let renamed := e.origin.any (· != e.finalPath)
  if e.origin.isSome && !renamed && ops.isEmpty then none
  else some ⟨e.finalPath, if renamed then e.origin else none, e.origin.isNone, ops, finalLen⟩

/-- The surviving files' emissions, and the base paths to unlink. -/
def classify (entities : List Entity) : List Emission × List Path :=
  let survivors : PathSet :=
    Std.ExtTreeSet.ofList ((entities.filter (·.live)).map (·.finalPath))
  let gone := (entities.filter (fun e => !e.live)).filterMap (·.origin)
  ((entities.filter (·.live)).filterMap emissionOf,
    (Std.ExtTreeSet.ofList (gone.filter (fun origin => !survivors.contains origin))).toList)

def DirectoryEmission.path : DirectoryEmission → Path
  | .made path | .removed path => path

def LinkEmission.names : LinkEmission → List String
  | .made path target => [path, target]
  | .removed path => [path]

def XattrEmission.names : XattrEmission → List String
  | .set path name _ | .removed path name => [path, name]

def documentNames (emissions : List Emission) (removed : List Path)
    (directories : List DirectoryEmission) (modes : List (Path × UInt32))
    (symlinks : List LinkEmission) (xattrs : List XattrEmission)
    (hardlinks : List LinkEmission) : List String :=
  (Std.ExtTreeSet.ofList (
    emissions.flatMap (fun e => e.finalPath :: e.source.toList) ++ removed ++
    directories.map (·.path) ++ modes.map Prod.fst ++ symlinks.flatMap (·.names) ++
    xattrs.flatMap (·.names) ++ hardlinks.flatMap (·.names))).toList

/-- A name's index in the sorted table, saturated. -/
def indexOf (names : List String) (name : String) : Nat :=
  match names.findIdx? (· == name) with
  | some position => asU16 position
  | none => u16Max

def namespaceOp (kind : OpKind) (path : Nat) : Op := ⟨kind, 0, path, 0, 0, u64Max⟩
def renameOp (destination source : Nat) : Op := ⟨.rename, 0, destination, 0, 0, source⟩
def symlinkOp (link target : Nat) : Op := ⟨.symlink, 0, link, 0, 0, target⟩
def linkOp (link target : Nat) : Op := ⟨.link, 0, link, 0, 0, target⟩
def setModeOp (path : Nat) (mode : UInt32) : Op := ⟨.setMode, 0, path, 0, mode.toNat, u64Max⟩
def setXattrOp (path name valueOffset valueLen : Nat) : Op :=
  ⟨.setXattr, 0, path, name, valueLen, valueOffset⟩
def removeXattrOp (path name : Nat) : Op := ⟨.removeXattr, 0, path, name, 0, u64Max⟩

/-- A file's content ops at its path index, their sources moved into its region. -/
def placeContent (index regionOffset : Nat) (op : Op) : Op :=
  if op.kind.addsContent then { op with path := index, src := op.src + regionOffset }
  else { op with path := index }

def emissionOps (names : List String) (regionOffset : Nat) (e : Emission) : List Op :=
  let destination := indexOf names e.finalPath
  (match e.source with
    | some source => [renameOp destination (indexOf names source)]
    | none => if e.created then [namespaceOp .create destination] else []) ++
  e.ops.map (placeContent destination regionOffset)

/-- The emissions' regions one after the other; the ops and the offset past them. -/
def layEmissions (names : List String) : Nat → List Emission → List Op × Nat
  | offset, [] => ([], offset)
  | offset, e :: rest =>
    let (ops, last) := layEmissions names (offset + e.finalLen) rest
    (emissionOps names offset e ++ ops, last)

/-- Lay the attribute values out after the files. -/
def layXattrs (names : List String) : Nat → List XattrEmission → List Op
  | _, [] => []
  | offset, .set path name value :: rest =>
    setXattrOp (indexOf names path) (indexOf names name) offset value.length ::
      layXattrs names (offset + value.length) rest
  | offset, .removed path name :: rest =>
    removeXattrOp (indexOf names path) (indexOf names name) :: layXattrs names offset rest

def directoryOp (names : List String) : DirectoryEmission → Op
  | .made path => namespaceOp .mkdir (indexOf names path)
  | .removed path => namespaceOp .rmdir (indexOf names path)

def linkEmissionOp (names : List String) (makeOp : Nat → Nat → Op) : LinkEmission → Op
  | .made path target => makeOp (indexOf names path) (indexOf names target)
  | .removed path => namespaceOp .unlink (indexOf names path)

def emitNamespace (names : List String) (removed : List Path)
    (directories : List DirectoryEmission) (modes : List (Path × UInt32))
    (symlinks hardlinks : List LinkEmission) : List Op :=
  removed.map (fun origin => namespaceOp .unlink (indexOf names origin)) ++
  directories.map (directoryOp names) ++
  modes.map (fun entry => setModeOp (indexOf names entry.1) entry.2) ++
  symlinks.map (linkEmissionOp names symlinkOp) ++
  hardlinks.map (linkEmissionOp names linkOp)

/-- Emit the document of the sealed entities and the composed dimensions. -/
def sealDocument (entities : List Entity) (directories : List DirectoryEmission)
    (modes : List (Path × UInt32)) (symlinks : List LinkEmission)
    (xattrs : List XattrEmission) (hardlinks : List LinkEmission) : OpsDoc :=
  let (emissions, removed) := classify entities
  let names := documentNames emissions removed directories modes symlinks xattrs hardlinks
  let table := names.foldl (fun t name => (t.intern name).1) (PathTable.mk [])
  -- sorted final-path order is the post-state's region layout
  let (ops, regionEnd) := layEmissions names 0
    (emissions.insertionSort (fun a b => a.finalPath ≤ b.finalPath))
  OpsDoc.canonicalize ⟨table, ops ++ layXattrs names regionEnd xattrs ++
    emitNamespace names removed directories modes symlinks hardlinks⟩

/-- The operations the entity replay reads: not the unlink of a link or an IPC node. -/
def isFileOp (symPaths linkPaths specialPaths : PathSet) (op : VolumeOp) : Bool :=
  match op with
  | .unlink path => !unlinksNonfile symPaths linkPaths specialPaths path
  | _ => !(op.isDirectory || op.isSymlink || op.isLink || op.isMknod)

/-- The files present at seal, IPC nodes included. -/
def survivorsOf (base : Base) (entities : List Entity) (specials : PathSet) : PathSet :=
  Std.ExtTreeSet.ofList ((entities.filter (·.live)).map (·.finalPath) ++
    (base.files.map Prod.fst).filter (fun path => !consumed entities path) ++ specials.toList)

def renamedAwayOf (entities : List Entity) : PathSet :=
  Std.ExtTreeSet.ofList ((entities.filter (·.live)).filterMap fun e =>
    if e.origin.any (· != e.finalPath) then e.origin else none)

def composeVolume (base : Base) (journal : List VolumeOp) : Except DeriveError OpsDoc := do
  let specials ← Composition.of base journal
  checkNoFileDirectoryCollision base journal
  let directories ← composeDirectories base journal
  let symPaths := symlinkPaths base journal
  let symlinks ← composeSymlinks base journal symPaths
  let linkPaths := hardlinkPaths base journal
  let hardlinks ← composeHardlinks base journal linkPaths
  let entities ← (journal.filter (isFileOp symPaths linkPaths specials.paths)).foldlM
    (fun entities op => applyOp entities base op) []
  let survivors := survivorsOf base entities specials.survivors
  let renamedAway := renamedAwayOf entities
  let presentDirs := presentDirectories base journal
  let modes ← composeModes base journal survivors renamedAway presentDirs
  let xattrs ← composeXattrs base journal survivors renamedAway presentDirs
  return specials.emit (sealDocument entities directories modes symlinks xattrs hardlinks)

end Slates.Merge
