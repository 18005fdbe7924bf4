import Slates.Merge.Engine

/-!
What a commit does, dimension by dimension: `writeAll` of the effects' writes; modes and attributes
also go with a removed IPC node.
-/

open Std (ExtTreeMap)

namespace Slates.Merge

namespace Effect

def specialWrite : Effect → Option (Path × Option SpecialNode)
  | .special path node => some (path, some node)
  | .removeSpecial path => some (path, none)
  | _ => none

def dirWrite : Effect → Option (Path × Option Unit)
  | .makeDir path => some (path, some ())
  | .removeDir path => some (path, none)
  | _ => none

def symlinkWrite : Effect → Option (Path × Option String)
  | .symlink path target => some (path, some target)
  | .removeSymlink path => some (path, none)
  | _ => none

def hardlinkWrite : Effect → Option (Path × Option Path)
  | .hardlink path target => some (path, some target)
  | .removeHardlink path => some (path, none)
  | _ => none

def contentWrite : Effect → Option (Path × Option Bytes)
  | .setContent path bytes _ => some (path, some bytes)
  | .removeContent path => some (path, none)
  | _ => none

/-- An effect on the modes: an IPC node's mode goes with it. -/
def onModes (version : Nat) (modes : Versioned Path UInt32) : Effect → Versioned Path UInt32
  | .mode path value => modes.set path value version
  | .removeSpecial path =>
    if modes.current.contains path then modes.clear path version else modes
  | _ => modes

def dropAttrs (version : Nat) (path : Path) (xattrs : Versioned (Path × String) Bytes) :
    Versioned (Path × String) Bytes :=
  xattrs.writeAll version
    ((xattrs.current.keys.filter (fun key => key.1 == path)).map (fun key => (key, none)))

/-- An effect on the attributes: an IPC node's go with it. -/
def onXattrs (version : Nat) (xattrs : Versioned (Path × String) Bytes) :
    Effect → Versioned (Path × String) Bytes
  | .setXattr path name value => xattrs.set (path, name) value version
  | .removeXattr path name => xattrs.clear (path, name) version
  | .removeSpecial path => dropAttrs version path xattrs
  | _ => xattrs

section Membership

variable {effects : List Effect} {path : Path}

theorem mem_filterMap_iff {α : Type} {f : Effect → Option α} {a : α} {writer : Effect}
    (h : ∀ e, f e = some a ↔ e = writer) : a ∈ effects.filterMap f ↔ writer ∈ effects := by
  simp only [List.mem_filterMap, h, exists_eq_right]

theorem some_mem_specialWrite {node : SpecialNode} :
    (path, some node) ∈ effects.filterMap specialWrite ↔ .special path node ∈ effects :=
  mem_filterMap_iff fun e => by cases e <;> simp [specialWrite]

theorem none_mem_specialWrite :
    (path, none) ∈ effects.filterMap specialWrite ↔ .removeSpecial path ∈ effects :=
  mem_filterMap_iff fun e => by cases e <;> simp [specialWrite]

theorem some_mem_symlinkWrite {target : String} :
    (path, some target) ∈ effects.filterMap symlinkWrite ↔ .symlink path target ∈ effects :=
  mem_filterMap_iff fun e => by cases e <;> simp [symlinkWrite]

theorem none_mem_symlinkWrite :
    (path, none) ∈ effects.filterMap symlinkWrite ↔ .removeSymlink path ∈ effects :=
  mem_filterMap_iff fun e => by cases e <;> simp [symlinkWrite]

theorem some_mem_hardlinkWrite {target : Path} :
    (path, some target) ∈ effects.filterMap hardlinkWrite ↔ .hardlink path target ∈ effects :=
  mem_filterMap_iff fun e => by cases e <;> simp [hardlinkWrite]

theorem none_mem_hardlinkWrite :
    (path, none) ∈ effects.filterMap hardlinkWrite ↔ .removeHardlink path ∈ effects :=
  mem_filterMap_iff fun e => by cases e <;> simp [hardlinkWrite]

theorem some_mem_dirWrite {u : Unit} :
    (path, some u) ∈ effects.filterMap dirWrite ↔ .makeDir path ∈ effects :=
  mem_filterMap_iff fun e => by cases e <;> simp [dirWrite]

theorem none_mem_dirWrite : (path, none) ∈ effects.filterMap dirWrite ↔ .removeDir path ∈ effects :=
  mem_filterMap_iff fun e => by cases e <;> simp [dirWrite]

end Membership

end Effect

namespace Green

/-- The keys an effect marks dirty, beside its own. -/
def alsoMarked (g : Green) : Effect → List IdentityKey
  | .removeSpecial path =>
    (if g.modes.current.contains path then [.mode path] else []) ++
      (g.xattrs.current.keys.filter (fun key => key.1 == path)).map
        (fun key => .xattr key.1 key.2)
  | _ => []

theorem foldl_dropXattr (version : Nat) (keys : List (Path × String)) (g : Green) :
    keys.foldl (dropXattr version) g =
      { g with
        identityDirty := (keys.map (fun key => IdentityKey.xattr key.1 key.2)).foldl
          (fun dirty key => dirty.insert key) g.identityDirty
        xattrs := g.xattrs.writeAll version (keys.map (fun key => (key, none))) } := by
  induction keys generalizing g with
  | nil => rfl
  | cons key keys ih => rw [List.foldl_cons, ih]; rfl

theorem commitEffect_eq (version : Nat) (g : Green) (e : Effect) :
    ∃ bytes, commitEffect version g e =
      { g with
        identityDirty := (e.identityKey :: g.alsoMarked e).foldl
          (fun dirty key => dirty.insert key) g.identityDirty
        specials := g.specials.writeAll version e.specialWrite.toList
        dirs := g.dirs.writeAll version e.dirWrite.toList
        symlinks := g.symlinks.writeAll version e.symlinkWrite.toList
        hardlinks := g.hardlinks.writeAll version e.hardlinkWrite.toList
        modes := e.onModes version g.modes
        xattrs := e.onXattrs version g.xattrs
        historyBytes := bytes } := by
  refine ⟨(commitEffect version g e).historyBytes, ?_⟩
  cases e with
  | removeSpecial path =>
    simp only [commitEffect, removeSpecial, alsoMarked, Effect.onModes, Effect.onXattrs]
    by_cases h : g.modes.current.contains path
    · simp only [markDirty, h, if_true, foldl_dropXattr, Effect.dropAttrs, List.foldl_cons,
        List.foldl_append, List.foldl_nil]
      rfl
    · simp only [markDirty, h, foldl_dropXattr, Effect.dropAttrs, List.foldl_cons,
        List.nil_append, Bool.false_eq_true, if_false]
      rfl
  | _ => rfl

theorem foldl_commitEffect (version : Nat) (effects : List Effect) (g : Green) :
    ∃ dirty bytes, effects.foldl (commitEffect version) g =
      { g with
        identityDirty := dirty
        specials := g.specials.writeAll version (effects.filterMap Effect.specialWrite)
        dirs := g.dirs.writeAll version (effects.filterMap Effect.dirWrite)
        symlinks := g.symlinks.writeAll version (effects.filterMap Effect.symlinkWrite)
        hardlinks := g.hardlinks.writeAll version (effects.filterMap Effect.hardlinkWrite)
        modes := effects.foldl (Effect.onModes version) g.modes
        xattrs := effects.foldl (Effect.onXattrs version) g.xattrs
        historyBytes := bytes } := by
  induction effects using List.reverseRecOn with
  | nil => exact ⟨_, _, rfl⟩
  | append_singleton effects e ih =>
    have hone {V : Type} (f : Effect → Option V) : [e].filterMap f = (f e).toList := by
      cases h : f e <;> simp [h]
    obtain ⟨dirty, bytes, ih⟩ := ih
    obtain ⟨bytes', he⟩ := commitEffect_eq version (effects.foldl (commitEffect version) g) e
    simp only [List.foldl_concat, List.filterMap_append, Versioned.writeAll_append, hone]
    rw [he, ih]
    exact ⟨_, _, rfl⟩

theorem foldl_content {E : Type} {step : Green → E → Green} {w : E → Path × Option Bytes}
    (version : Nat) (hstep : ∀ g e, ∃ bytes, step g e =
      { g with content := g.content.writeAll version [w e], historyBytes := bytes })
    (events : List E) (g : Green) : ∃ bytes, events.foldl step g =
      { g with content := g.content.writeAll version (events.map w), historyBytes := bytes } := by
  induction events using List.reverseRecOn with
  | nil => exact ⟨_, rfl⟩
  | append_singleton events e ih =>
    obtain ⟨bytes, ih⟩ := ih
    obtain ⟨bytes', he⟩ := hstep (events.foldl step g) e
    rw [List.foldl_concat, List.map_append, List.map_singleton, Versioned.writeAll_append, he, ih]
    exact ⟨bytes', rfl⟩

/-- The content writes of a commit: the removals, then the sets. -/
def contentWrites (effects : List Effect) : List (Path × Option Bytes) :=
  (effects.filterMap Effect.removedContent).map (·, none) ++
    (effects.filterMap Effect.contentSet).map (fun e => (e.1, some e.2.1))

/-- **A commit, field by field**, the dirty keys and the byte count apart. -/
theorem commit_eq (g : Green) (effects : List Effect) (version : Nat) :
    ∃ bytes, g.commit effects version =
      { g with
        identityDirty := (effects.foldl (commitEffect version) g).identityDirty
        content := g.content.writeAll version (contentWrites effects)
        specials := g.specials.writeAll version (effects.filterMap Effect.specialWrite)
        dirs := g.dirs.writeAll version (effects.filterMap Effect.dirWrite)
        symlinks := g.symlinks.writeAll version (effects.filterMap Effect.symlinkWrite)
        hardlinks := g.hardlinks.writeAll version (effects.filterMap Effect.hardlinkWrite)
        modes := effects.foldl (Effect.onModes version) g.modes
        xattrs := effects.foldl (Effect.onXattrs version) g.xattrs
        deltas := g.deltas ++ [deltaOf effects]
        historyBytes := bytes } := by
  obtain ⟨dirty, bytes, he⟩ := foldl_commitEffect version effects g
  obtain ⟨bytes', hr⟩ := foldl_content (w := (·, none)) version
    (fun g path => ⟨_, (rfl : commitRemove version g path = _)⟩)
    (effects.filterMap Effect.removedContent)
    (effects.foldl (commitEffect version) g)
  obtain ⟨bytes'', hs⟩ := foldl_content (w := fun e => (e.1, some e.2.1)) version
    (fun g e => ⟨_, (rfl : commitSet version g e = _)⟩) (effects.filterMap Effect.contentSet)
    ((effects.filterMap Effect.removedContent).foldl (commitRemove version)
      (effects.foldl (commitEffect version) g))
  refine ⟨bytes'', ?_⟩
  unfold commit contentWrites
  dsimp only
  rw [hs, hr, he, Versioned.writeAll_append]

section Fields

variable (g : Green) (effects : List Effect) (version : Nat)

@[simp] theorem commit_content : (g.commit effects version).content =
    g.content.writeAll version (contentWrites effects) := by
  obtain ⟨_, h⟩ := commit_eq g effects version; rw [h]

@[simp] theorem commit_specials : (g.commit effects version).specials =
    g.specials.writeAll version (effects.filterMap Effect.specialWrite) := by
  obtain ⟨_, h⟩ := commit_eq g effects version; rw [h]

@[simp] theorem commit_dirs : (g.commit effects version).dirs =
    g.dirs.writeAll version (effects.filterMap Effect.dirWrite) := by
  obtain ⟨_, h⟩ := commit_eq g effects version; rw [h]

@[simp] theorem commit_symlinks : (g.commit effects version).symlinks =
    g.symlinks.writeAll version (effects.filterMap Effect.symlinkWrite) := by
  obtain ⟨_, h⟩ := commit_eq g effects version; rw [h]

@[simp] theorem commit_hardlinks : (g.commit effects version).hardlinks =
    g.hardlinks.writeAll version (effects.filterMap Effect.hardlinkWrite) := by
  obtain ⟨_, h⟩ := commit_eq g effects version; rw [h]

@[simp] theorem commit_modes : (g.commit effects version).modes =
    effects.foldl (Effect.onModes version) g.modes := by
  obtain ⟨_, h⟩ := commit_eq g effects version; rw [h]

@[simp] theorem commit_xattrs : (g.commit effects version).xattrs =
    effects.foldl (Effect.onXattrs version) g.xattrs := by
  obtain ⟨_, h⟩ := commit_eq g effects version; rw [h]

@[simp] theorem commit_deltas :
    (g.commit effects version).deltas = g.deltas ++ [deltaOf effects] := by
  obtain ⟨_, h⟩ := commit_eq g effects version; rw [h]

end Fields

open Versioned (changesOf)

/-! ## Removals first -/

section Staged

variable {V : Type}

/-- The removals of a sequence of writes, then its sets. -/
def staged (writes : List (Option V)) : List (Option V) :=
  writes.filter Option.isNone ++ writes.filter Option.isSome

variable {writes : List (Option V)}

theorem mem_staged {w : Option V} : w ∈ staged writes ↔ w ∈ writes := by
  cases w <;> simp [staged]

theorem getLast?_staged_of_mem {v : V} (h : some v ∈ writes) :
    ∃ w, (staged writes).getLast? = some (some w) := by
  have hne : writes.filter Option.isSome ≠ [] :=
    List.ne_nil_of_mem (List.mem_filter.mpr ⟨h, rfl⟩)
  rw [staged, List.getLast?_append_of_ne_nil _ hne, List.getLast?_eq_getLast_of_ne_nil hne]
  have hs := (List.mem_filter.mp (List.getLast_mem hne)).2
  obtain ⟨w, hw⟩ := Option.isSome_iff_exists.mp hs
  exact ⟨w, by rw [hw]⟩

theorem staged_of_forall_none (h : ∀ v, some v ∉ writes) : staged writes = writes := by
  have hnone : ∀ w ∈ writes, w = none := fun w hw => by
    cases w with
    | none => rfl
    | some v => exact absurd hw (h v)
  rw [staged, List.filter_eq_self.mpr (fun w hw => by simp [hnone w hw]),
    List.filter_eq_nil_iff.mpr (fun w hw => by simp [hnone w hw]), List.append_nil]

theorem getLast?_staged_of_getLast? {v : V} (h : writes.getLast? = some (some v)) :
    (staged writes).getLast? = some (some v) := by
  obtain ⟨init, rfl⟩ := List.getLast?_eq_some_iff.mp h
  simp [staged]

theorem getLast?_staged_iff (writes : List (Option V)) (held : Option V) :
    writes.getLast?.getD held = (staged writes).getLast?.getD held ↔
      ¬ ((∃ v, some v ∈ writes) ∧ writes.getLast? = some none) := by
  constructor
  · rintro heq ⟨⟨v, hv⟩, hlast⟩
    obtain ⟨w, hw⟩ := getLast?_staged_of_mem hv
    simp [hlast, hw] at heq
  · intro h
    by_cases hs : ∃ v, some v ∈ writes
    · obtain ⟨v, hv⟩ := hs
      cases hlast : writes.getLast? with
      | none => simp [List.getLast?_eq_none_iff.mp hlast] at hv
      | some last =>
        cases last with
        | none => exact absurd ⟨⟨v, hv⟩, hlast⟩ h
        | some w => rw [getLast?_staged_of_getLast? hlast]
    · rw [staged_of_forall_none (fun v hv => hs ⟨v, hv⟩)]

end Staged

/-! ### The writes of one path -/

/-- The content writes of `path`, in the order of the effects. -/
def contentChanges (effects : List Effect) (path : Path) : List (Option Bytes) :=
  changesOf (effects.filterMap Effect.contentWrite) path

theorem contentChanges_append (older newer : List Effect) (path : Path) :
    contentChanges (older ++ newer) path =
      contentChanges older path ++ contentChanges newer path := by
  simp [contentChanges, Versioned.changesOf_append]

theorem some_mem_contentChanges {effects : List Effect} {path : Path} {bytes : Bytes} :
    some bytes ∈ contentChanges effects path ↔ ∃ ops, .setContent path bytes ops ∈ effects := by
  rw [contentChanges, Versioned.mem_changesOf, List.mem_filterMap]
  constructor
  · rintro ⟨e, he, hw⟩
    cases e <;> simp [Effect.contentWrite] at hw
    obtain ⟨rfl, rfl⟩ := hw
    exact ⟨_, he⟩
  · rintro ⟨ops, he⟩
    exact ⟨_, he, rfl⟩

theorem none_mem_contentChanges {effects : List Effect} {path : Path} :
    none ∈ contentChanges effects path ↔ .removeContent path ∈ effects := by
  rw [contentChanges, Versioned.mem_changesOf, List.mem_filterMap]
  constructor
  · rintro ⟨e, he, hw⟩
    cases e <;> simp [Effect.contentWrite] at hw
    exact hw ▸ he
  · intro he
    exact ⟨_, he, rfl⟩

private theorem changesOf_removedContent (effects : List Effect) (path : Path) :
    changesOf ((effects.filterMap Effect.removedContent).map (·, (none : Option Bytes))) path =
      (contentChanges effects path).filter Option.isNone := by
  simp only [changesOf, contentChanges, List.map_filterMap, List.filterMap_filterMap,
    List.filter_filterMap]
  congr 1
  funext e
  cases e <;> simp [Effect.removedContent, Effect.contentWrite]
  all_goals split_ifs <;> rfl

private theorem changesOf_contentSet (effects : List Effect) (path : Path) :
    changesOf ((effects.filterMap Effect.contentSet).map (fun e => (e.1, some e.2.1))) path =
      (contentChanges effects path).filter Option.isSome := by
  simp only [changesOf, contentChanges, List.map_filterMap, List.filterMap_filterMap,
    List.filter_filterMap]
  congr 1
  funext e
  cases e <;> simp [Effect.contentSet, Effect.contentWrite]
  all_goals split_ifs <;> rfl

theorem changesOf_contentWrites (effects : List Effect) (path : Path) :
    changesOf (contentWrites effects) path = staged (contentChanges effects path) := by
  rw [contentWrites, Versioned.changesOf_append, changesOf_removedContent, changesOf_contentSet,
    staged]

/-- What the effects set `path` to, with the ops they record. -/
def contentSets (effects : List Effect) (path : Path) : List (Bytes × List Op) :=
  (effects.filterMap Effect.contentSet).filterMap (fun s => if s.1 = path then some s.2 else none)

theorem mem_contentSets {effects : List Effect} {path : Path} {bytes : Bytes} {ops : List Op} :
    (bytes, ops) ∈ contentSets effects path ↔ .setContent path bytes ops ∈ effects := by
  simp only [contentSets, List.mem_filterMap]
  constructor
  · rintro ⟨⟨path', bytes', ops'⟩, ⟨e, he, hs⟩, hp⟩
    cases e <;> simp [Effect.contentSet] at hs
    obtain ⟨rfl, rfl, rfl⟩ := hs
    obtain ⟨rfl, rfl, rfl⟩ : _ = path ∧ _ = bytes ∧ _ = ops := by simpa using hp
    exact he
  · intro he
    exact ⟨(path, bytes, ops), ⟨_, he, rfl⟩, by simp⟩

private theorem filter_contentChanges (effects : List Effect) (path : Path) :
    (contentChanges effects path).filter Option.isSome =
      (contentSets effects path).map (fun s => some s.1) := by
  rw [← changesOf_contentSet]
  simp only [changesOf, contentSets, List.map_filterMap, List.filterMap_filterMap]
  congr 1
  funext e
  cases e <;> simp [Effect.contentSet]

theorem current_contentWrites (effects : List Effect) (path : Path) (m : Versioned Path Bytes)
    (version : Nat) :
    (m.writeAll version (contentWrites effects)).current[path]? =
      match (contentSets effects path).getLast? with
      | some s => some s.1
      | none => if .removeContent path ∈ effects then none else m.current[path]? := by
  rw [Versioned.current_writeAll, changesOf_contentWrites, staged, filter_contentChanges,
    List.getLast?_append, List.getLast?_map]
  cases (contentSets effects path).getLast? with
  | some s => rfl
  | none =>
    have hnone : ∀ w ∈ (contentChanges effects path).filter Option.isNone, w = none :=
      fun w hw => by simpa using (List.mem_filter.mp hw).2
    by_cases hr : .removeContent path ∈ effects
    · have hmem : none ∈ (contentChanges effects path).filter Option.isNone :=
        List.mem_filter.mpr ⟨none_mem_contentChanges.mpr hr, rfl⟩
      have hlast := List.getLast?_eq_getLast_of_ne_nil (List.ne_nil_of_mem hmem)
      simp [hlast, hnone _ (List.getLast_mem (List.ne_nil_of_mem hmem)), hr]
    · have hnil : (contentChanges effects path).filter Option.isNone = [] := by
        refine List.eq_nil_iff_forall_not_mem.mpr fun w hw => hr ?_
        have hw' := hnone w hw
        subst hw'
        exact none_mem_contentChanges.mp (List.mem_filter.mp hw).1
      simp [hnil, hr]

theorem getElem?_deltaOf (effects : List Effect) (path : Path) :
    (deltaOf effects)[path]? = ((contentSets effects path).getLast?).map Prod.snd := by
  have hfold : ∀ sets : List (Path × Bytes × List Op),
      (sets.foldl (fun delta e => delta.insert e.1 e.2.2) (∅ : PathMap (List Op)))[path]? =
        ((sets.filterMap (fun s => if s.1 = path then some s.2 else none)).getLast?).map
          Prod.snd := by
    intro sets
    induction sets using List.reverseRecOn with
    | nil => rfl
    | append_singleton sets s ih =>
      rw [List.foldl_concat, ExtTreeMap.getElem?_insert, List.filterMap_append]
      by_cases h : s.1 = path
      · simp [h]
      · simp [h, ih]
  exact hfold _

end Green

end Slates.Merge
