import Slates.Library.Outcome
import Slates.Merge.Runs

/-!
What an accepted increment makes of each key: a declared value wins over one a rename moves there,
and that over a removal.
-/

open Std (ExtTreeMap ExtTreeSet)

namespace Slates.Merge

namespace Green

variable {g : Green} {inc : Increment} {path : Path}

/-! ## IPC nodes and directories -/

def SpecialSet (g : Green) (inc : Increment) (path : Path) (node : SpecialNode) : Prop :=
  (resolve inc).specials[path]? = some node ∧ g.specials.current[path]? ≠ some node

def SpecialGone (g : Green) (inc : Increment) (path : Path) : Prop :=
  path ∈ (resolve inc).unlinks ∧ path ∈ g.specials.current

theorem Accepts.special_not_unlinked (ha : g.Accepts inc (resolve inc)) {node : SpecialNode}
    (hs : (resolve inc).specials[path]? = some node) : path ∉ (resolve inc).unlinks := by
  intro hu
  refine ha.valid path ?_
  -- `resolve` refuses an IPC node that clashes
  have hkey : path ∈ (resolve inc).specials.keys := ExtTreeMap.mem_keys.mpr (mem_of_getElem? hs)
  have hclash : (resolve inc).clashes path = true := by
    simp [Resolved.clashes, ExtTreeSet.contains_iff_mem.mpr hu]
  unfold resolve at hkey hclash ⊢
  rw [ExtTreeSet.mem_insertMany_list]
  exact .inr (List.contains_iff_mem.mpr (List.mem_filter.mpr ⟨hkey, hclash⟩))

theorem wrote_specials (ha : g.Accepts inc (resolve inc)) :
    g.specials.Wrote (g.committed inc).specials (g.head + 1) path (fun _ => False)
      (g.SpecialSet inc path) (g.SpecialGone inc path) := by
  rw [committed_specials, ← List.append_nil (List.filterMap ..)]
  refine Versioned.wrote_writeAll_of_iff (by simp) (by simp) (fun node => ?_) ?_ nofun
    (fun _ _ hv hw => Option.some.inj (hw.1.symm.trans hv.1))
    fun _ hv hg => ha.special_not_unlinked hv.1 hg.1
  · rw [Effect.some_mem_specialWrite, special_mem ha, SpecialSet]
  · rw [Effect.none_mem_specialWrite, removeSpecial_mem ha, SpecialGone]

def DirMade (g : Green) (inc : Increment) (path : Path) : Prop :=
  path ∈ (resolve inc).mkdirs ∧ path ∉ g.dirs.current

def DirGone (g : Green) (inc : Increment) (path : Path) : Prop :=
  path ∈ (resolve inc).rmdirs ∧ path ∈ g.dirs.current

theorem wrote_dirs (ha : g.Accepts inc (resolve inc)) :
    g.dirs.Wrote (g.committed inc).dirs (g.head + 1) path (fun _ => False)
      (fun _ => g.DirMade inc path) (g.DirGone inc path) := by
  rw [committed_dirs, ← List.append_nil (List.filterMap ..)]
  refine Versioned.wrote_writeAll_of_iff (by simp) (by simp) (fun u => ?_) ?_ nofun
    (fun _ _ _ _ => rfl) fun _ hv hg => hv.2 hg.2
  · rw [Effect.some_mem_dirWrite, makeDir_mem ha, DirMade]
  · rw [Effect.none_mem_dirWrite, removeDir_mem ha, DirGone]

/-! ## Links -/

theorem filterMap_symlinkWrite (g : Green) (inc : Increment) (r : Resolved) :
    (g.acceptedEffects inc r).filterMap Effect.symlinkWrite =
      (g.renameEffects inc r ++ g.unlinkEffects inc r).filterMap Effect.symlinkWrite ++
        (g.symlinkEffects inc r).filterMap Effect.symlinkWrite := by
  have hdim : ∀ e : Effect, e.dim ≠ .symlink → e.symlinkWrite = none := by
    intro e he
    cases e <;> simp_all [Effect.dim, Effect.symlinkWrite]
  rw [filterMap_acceptedEffects hdim]
  simp [keepIf]

theorem filterMap_hardlinkWrite (g : Green) (inc : Increment) (r : Resolved) :
    (g.acceptedEffects inc r).filterMap Effect.hardlinkWrite =
      (g.renameEffects inc r ++ g.unlinkEffects inc r).filterMap Effect.hardlinkWrite ++
        (g.hardlinkEffects inc r).filterMap Effect.hardlinkWrite := by
  have hdim : ∀ e : Effect, e.dim ≠ .hardlink → e.hardlinkWrite = none := by
    intro e he
    cases e <;> simp_all [Effect.dim, Effect.hardlinkWrite]
  rw [filterMap_acceptedEffects hdim]
  simp [keepIf]

/-- A path renamed away, or unlinked while it names no IPC node. -/
def Leaving (g : Green) (inc : Increment) (path : Path) : Prop :=
  (∃ dst, Renamed (resolve inc) dst path) ∨
    (path ∈ (resolve inc).unlinks ∧ path ∉ g.specials.current)

def SymlinkSet (g : Green) (inc : Increment) (path : Path) (target : String) : Prop :=
  (resolve inc).symlinks[path]? = some target ∧ g.symlinks.changedAt path ≤ inc.base

def SymlinkMoved (g : Green) (inc : Increment) (path : Path) (target : String) : Prop :=
  ∃ src, Renamed (resolve inc) path src ∧ src ∉ g.content.current ∧
    g.symlinks.current[src]? = some target

def SymlinkGone (g : Green) (inc : Increment) (path : Path) : Prop :=
  path ∈ g.symlinks.current ∧ path ∉ g.content.current ∧ g.Leaving inc path

theorem wrote_symlinks (ha : g.Accepts inc (resolve inc)) :
    g.symlinks.Wrote (g.committed inc).symlinks (g.head + 1) path (g.SymlinkSet inc path)
      (g.SymlinkMoved inc path) (g.SymlinkGone inc path) := by
  rw [committed_symlinks, filterMap_symlinkWrite]
  refine Versioned.wrote_writeAll_of_iff (fun target => ?_) ?_ (fun target => ?_) ?_
    (fun _ _ hv hw => Option.some.inj (hw.1.symm.trans hv.1)) ?_
    -- what a rename moves to, no symlink leaves
    fun _ ⟨_, hr, _⟩ hg => (ha.renamed_free hr).symlinks hg.1
  · rw [Effect.some_mem_symlinkWrite, symlink_mem_declared ha, SymlinkSet]
  · rw [Effect.none_mem_symlinkWrite, mem_symlinkEffects]
    rintro ⟨path', target, -, h⟩
    obtain ⟨-, ⟨-, -, hn⟩ | ⟨-, he⟩⟩ := mergeSymlink_ok h
    · cases hn
    · cases he
  · rw [Effect.some_mem_symlinkWrite, List.mem_append, symlink_mem_rename ha, mem_unlink ha,
      SymlinkMoved, or_iff_left]
    rintro ⟨_, _, h⟩
    cases h
  · rw [Effect.none_mem_symlinkWrite, List.mem_append, removeSymlink_mem_rename ha,
      removeSymlink_mem_unlink ha, SymlinkGone, Leaving]
    tauto
  · rintro v w ⟨src, hr, -, hs⟩ ⟨src', hr', -, hs'⟩
    rw [hr.unique hr', hs] at hs'
    exact (Option.some.inj hs').symm

def HardlinkSet (g : Green) (inc : Increment) (path target : Path) : Prop :=
  (resolve inc).hardlinks[path]? = some target ∧ g.hardlinks.changedAt path ≤ inc.base

def HardlinkMoved (g : Green) (inc : Increment) (path target : Path) : Prop :=
  ∃ src, Renamed (resolve inc) path src ∧ src ∉ g.content.current ∧ src ∉ g.symlinks.current ∧
    g.hardlinks.current[src]? = some target

def HardlinkGone (g : Green) (inc : Increment) (path : Path) : Prop :=
  path ∈ g.hardlinks.current ∧ path ∉ g.content.current ∧ path ∉ g.symlinks.current ∧
    g.Leaving inc path

theorem wrote_hardlinks (ha : g.Accepts inc (resolve inc)) :
    g.hardlinks.Wrote (g.committed inc).hardlinks (g.head + 1) path (g.HardlinkSet inc path)
      (g.HardlinkMoved inc path) (g.HardlinkGone inc path) := by
  rw [committed_hardlinks, filterMap_hardlinkWrite]
  refine Versioned.wrote_writeAll_of_iff (fun target => ?_) ?_ (fun target => ?_) ?_
    (fun _ _ hv hw => Option.some.inj (hw.1.symm.trans hv.1)) ?_
    fun _ ⟨_, hr, _⟩ hg => (ha.renamed_free hr).hardlinks hg.1
  · rw [Effect.some_mem_hardlinkWrite, hardlink_mem_declared ha, HardlinkSet]
  · rw [Effect.none_mem_hardlinkWrite, mem_hardlinkEffects]
    rintro ⟨path', target, -, h⟩
    obtain ⟨-, ⟨-, -, hn⟩ | ⟨-, he⟩⟩ := mergeHardlink_ok h
    · cases hn
    · cases he
  · rw [Effect.some_mem_hardlinkWrite, List.mem_append, hardlink_mem_rename ha, mem_unlink ha,
      HardlinkMoved, or_iff_left]
    rintro ⟨_, _, h⟩
    cases h
  · rw [Effect.none_mem_hardlinkWrite, List.mem_append, removeHardlink_mem_rename ha,
      removeHardlink_mem_unlink ha, HardlinkGone, Leaving]
    tauto
  · rintro v w ⟨src, hr, -, -, hs⟩ ⟨src', hr', -, -, hs'⟩
    rw [hr.unique hr', hs] at hs'
    exact (Option.some.inj hs').symm

/-! ## Files -/

def FileDeclared (g : Green) (inc : Increment) (path : Path) (bytes : Bytes) : Prop :=
  (path ∈ (resolve inc).creates ∧ path ∉ g.content.current ∧
      bytes = createdBytes inc (resolve inc) path) ∨
    ∃ declared ops, (path, declared) ∈ (resolve inc).edits ∧
      g.mergeContent inc path declared = .ok (some (.setContent path bytes ops))

def FileMoved (g : Green) (inc : Increment) (path : Path) (bytes : Bytes) : Prop :=
  ∃ src, Renamed (resolve inc) path src ∧ g.content.current[src]? = some bytes

def FileGone (g : Green) (inc : Increment) (path : Path) : Prop :=
  path ∈ g.content.current ∧ g.Leaving inc path

theorem FileDeclared.unique {bytes bytes' : Bytes} (h : g.FileDeclared inc path bytes)
    (h' : g.FileDeclared inc path bytes') : bytes' = bytes := by
  rcases h with ⟨hc, -, rfl⟩ | ⟨declared, ops, hm, hj⟩ <;>
    rcases h' with ⟨hc', -, rfl⟩ | ⟨declared', ops', hm', hj'⟩
  · rfl
  · exact absurd hc (Resolved.mem_edits.mp hm').2.1
  · exact absurd hc' (Resolved.mem_edits.mp hm).2.1
  · have hsame := (Resolved.mem_edits.mp hm).1
    rw [(Resolved.mem_edits.mp hm').1] at hsame
    cases hsame
    rw [hj] at hj'
    cases hj'
    rfl

theorem FileMoved.unique {bytes bytes' : Bytes} (h : g.FileMoved inc path bytes)
    (h' : g.FileMoved inc path bytes') : bytes' = bytes := by
  obtain ⟨src, hr, hs⟩ := h
  obtain ⟨src', hr', hs'⟩ := h'
  rw [hr.unique hr', hs] at hs'
  exact (Option.some.inj hs').symm

theorem contentWrites_eq (g : Green) (inc : Increment) (r : Resolved) :
    contentWrites (g.acceptedEffects inc r) =
      (((g.acceptedEffects inc r).filterMap Effect.removedContent).map (·, none) ++
        ((g.renameEffects inc r).filterMap Effect.contentSet).map (fun e => (e.1, some e.2.1))) ++
      ((g.createEffects inc r ++ g.editEffects inc r).filterMap Effect.contentSet).map
        (fun e => (e.1, some e.2.1)) := by
  have hdim : ∀ e : Effect, e.dim ≠ .content → e.contentSet = none := by
    intro e he
    cases e <;> simp_all [Effect.dim, Effect.contentSet]
  have hunlink : (g.unlinkEffects inc r).filterMap Effect.contentSet = [] := by
    rw [List.filterMap_eq_nil_iff]
    intro e he
    obtain ⟨path, -, h⟩ := mem_unlinkEffects.mp he
    cases mergeUnlink_ok h <;> rfl
  rw [contentWrites, filterMap_acceptedEffects hdim]
  simp [keepIf, hunlink]

variable {effects : List Effect} {w : Option Bytes} {r : Resolved} {e : Effect}
  {key : Path × String}

theorem mem_map_contentSet :
    (path, w) ∈ (effects.filterMap Effect.contentSet).map (fun e => (e.1, some e.2.1)) ↔
      ∃ bytes ops, w = some bytes ∧ .setContent path bytes ops ∈ effects := by
  simp only [List.mem_map, List.mem_filterMap, Prod.exists, Prod.mk.injEq]
  constructor
  · rintro ⟨path', bytes, ops, ⟨e, he, hs⟩, rfl, rfl⟩
    cases e <;> simp [Effect.contentSet] at hs
    obtain ⟨rfl, rfl, rfl⟩ := hs
    exact ⟨_, _, rfl, he⟩
  · rintro ⟨bytes, ops, rfl, he⟩
    exact ⟨path, bytes, ops, ⟨_, he, rfl⟩, rfl, rfl⟩

theorem wrote_content (ha : g.Accepts inc (resolve inc)) :
    g.content.Wrote (g.committed inc).content (g.head + 1) path (g.FileDeclared inc path)
      (g.FileMoved inc path) (g.FileGone inc path) := by
  have hdeclared : ∀ bytes, (path, some bytes) ∈
      ((g.createEffects inc (resolve inc) ++ g.editEffects inc (resolve inc)).filterMap
        Effect.contentSet).map (fun e => (e.1, some e.2.1)) ↔ g.FileDeclared inc path bytes := by
    intro bytes
    rw [mem_map_contentSet]
    simp only [Option.some.injEq, setContent_mem_declared ha]
    constructor
    · rintro ⟨_, ops, rfl, ⟨hc, hfree, hbytes, -⟩ | ⟨declared, hm, h⟩⟩
      · exact .inl ⟨hc, hfree, hbytes⟩
      · exact .inr ⟨declared, ops, hm, h⟩
    · rintro (⟨hc, hfree, hbytes⟩ | ⟨declared, ops, hm, h⟩)
      · exact ⟨bytes, _, rfl, .inl ⟨hc, hfree, hbytes, rfl⟩⟩
      · exact ⟨bytes, ops, rfl, .inr ⟨declared, hm, h⟩⟩
  have hmoved : ∀ w, (path, w) ∈
      ((g.renameEffects inc (resolve inc)).filterMap Effect.contentSet).map
        (fun e => (e.1, some e.2.1)) ↔ ∃ bytes, w = some bytes ∧ g.FileMoved inc path bytes := by
    intro w
    rw [mem_map_contentSet]
    simp only [setContent_mem_rename ha, FileMoved]
    constructor
    · rintro ⟨bytes, ops, rfl, src, hr, hs, -⟩
      exact ⟨bytes, rfl, src, hr, hs⟩
    · rintro ⟨bytes, rfl, src, hr, hs⟩
      exact ⟨bytes, _, rfl, src, hr, hs, rfl⟩
  have hgone : ∀ w, (path, w) ∈ ((g.acceptedEffects inc (resolve inc)).filterMap
      Effect.removedContent).map (fun p => (p, (none : Option Bytes))) ↔
        w = none ∧ g.FileGone inc path := by
    intro w
    have hmem : path ∈ (g.acceptedEffects inc (resolve inc)).filterMap Effect.removedContent ↔
        .removeContent path ∈ g.acceptedEffects inc (resolve inc) := by
      rw [List.mem_filterMap]
      constructor
      · rintro ⟨e, he, hs⟩
        cases e <;> simp [Effect.removedContent] at hs
        exact hs ▸ he
      · exact fun he => ⟨_, he, rfl⟩
    rw [FileGone, Leaving, ← removeContent_mem ha, ← hmem]
    simp only [List.mem_map, Prod.mk.injEq]
    constructor
    · rintro ⟨p, hp, rfl, rfl⟩
      exact ⟨rfl, hp⟩
    · rintro ⟨rfl, hp⟩
      exact ⟨path, hp, rfl, rfl⟩
  rw [committed_content, contentWrites_eq]
  refine (Versioned.wrote_writeAll_of_mem g.content _ ?_ ?_ ?_).congr hdeclared ?_ fun _ _ => ?_
  · rw [mem_map_contentSet]
    rintro ⟨_, _, h, -⟩
    cases h
  · exact fun v w hv hw => ((hdeclared v).mp hv).unique ((hdeclared w).mp hw)
  · -- what a rename moves here comes after the removals
    intro v hv
    rw [Versioned.changesOf_append, List.getLast?_append]
    have hv' := (List.mem_append.mp hv).resolve_left fun h => by
      simpa using ((hgone _).mp h).1
    rw [Versioned.getLast?_changesOf hv']
    · rfl
    · intro w hw
      obtain ⟨bytes, hb, hmv⟩ := (hmoved _).mp hv'
      obtain ⟨bytes', rfl, hmv'⟩ := (hmoved w).mp hw
      rw [hb, hmv.unique hmv']
  · intro v
    rw [List.mem_append, hgone, hmoved]
    simp
  · rw [List.mem_append, hgone, hmoved]
    simp

/-! ## Modes -/

def ModeSet (g : Green) (inc : Increment) (path : Path) (mode : UInt32) : Prop :=
  (resolve inc).modes[path]? = some mode ∧ g.modes.changedAt path ≤ inc.base

/-- An IPC node's mode goes with it. -/
def ModeGone (g : Green) (inc : Increment) (path : Path) : Prop :=
  g.SpecialGone inc path ∧ path ∈ g.modes.current

theorem foldl_onModes (version : Nat) (modes : Versioned Path UInt32)
    (h : ∀ e ∈ effects, e.dim ≠ .mode) :
    ∃ writes, effects.foldl (Effect.onModes version) modes = modes.writeAll version writes ∧
      ∀ p w, (p, w) ∈ writes ↔ w = none ∧ .removeSpecial p ∈ effects ∧ p ∈ modes.current := by
  simpa only [exists_eq_right] using
    Versioned.foldl_takes (fun e p => e = Effect.removeSpecial p) modes fun e he m => by
      have hdim := h e he
      cases e with
      | mode path value => exact absurd rfl hdim
      | removeSpecial path =>
        by_cases hin : path ∈ m.current
        · refine ⟨[(path, none)], if_pos (ExtTreeMap.contains_iff_mem.mpr hin), fun p w => ?_⟩
          grind
        · refine ⟨[], if_neg (mt ExtTreeMap.contains_iff_mem.mp hin), fun p w => ?_⟩
          grind
      | _ => exact ⟨[], rfl, by simp⟩

def modeWrite : Effect → Option (Path × Option UInt32)
  | .mode path value => some (path, some value)
  | _ => none

theorem foldl_onModes_declared (version : Nat) (modes : Versioned Path UInt32)
    (h : ∀ e ∈ effects, e.dim ≠ .special) :
    effects.foldl (Effect.onModes version) modes =
      modes.writeAll version (effects.filterMap modeWrite) := by
  refine Versioned.foldl_eq_writeAll modes fun e he m => ?_
  have hdim := h e he
  cases e with
  | removeSpecial path => exact absurd rfl hdim
  | _ => rfl

def placeEffects (g : Green) (inc : Increment) (r : Resolved) : List Effect :=
  g.specialEffects inc r ++ g.renameEffects inc r ++ g.createEffects inc r ++
    g.unlinkEffects inc r ++ g.editEffects inc r ++ g.mkdirEffects r ++ g.rmdirEffects r

def metaEffects (g : Green) (inc : Increment) (r : Resolved) : List Effect :=
  g.modeEffects inc r ++ g.symlinkEffects inc r ++ g.hardlinkEffects inc r ++
    g.xattrSetEffects inc r ++ g.xattrRemoveEffects inc r

theorem acceptedEffects_eq (g : Green) (inc : Increment) (r : Resolved) :
    g.acceptedEffects inc r = g.placeEffects inc r ++ g.metaEffects inc r := by
  simp only [acceptedEffects, placeEffects, metaEffects, List.append_assoc]

theorem dim_unlinkEffects (he : e ∈ g.unlinkEffects inc r) :
    e.dim = .special ∨ e.dim = .content ∨ e.dim = .symlink ∨ e.dim = .hardlink := by
  obtain ⟨path, -, h⟩ := mem_unlinkEffects.mp he
  cases mergeUnlink_ok h <;> simp [Effect.dim]

theorem dim_placeEffects (he : e ∈ g.placeEffects inc r) : e.dim ≠ .mode ∧ e.dim ≠ .xattr := by
  simp only [placeEffects, List.mem_append] at he
  rcases he with (((((h | h) | h) | h) | h) | h) | h
  · simp [dim_specialEffects h]
  · rcases dim_renameEffects h with h | h | h <;> simp [h]
  · simp [dim_createEffects h]
  · rcases dim_unlinkEffects h with h | h | h | h <;> simp [h]
  · simp [dim_editEffects h]
  · simp [dim_mkdirEffects h]
  · simp [dim_rmdirEffects h]

theorem dim_metaEffects (he : e ∈ g.metaEffects inc r) : e.dim ≠ .special := by
  simp only [metaEffects, List.mem_append] at he
  rcases he with (((h | h) | h) | h) | h
  · simp [dim_modeEffects h]
  · simp [dim_symlinkEffects h]
  · simp [dim_hardlinkEffects h]
  · simp [dim_xattrSetEffects h]
  · simp [dim_xattrRemoveEffects h]

theorem removeSpecial_mem_place (ha : g.Accepts inc (resolve inc)) :
    .removeSpecial path ∈ g.placeEffects inc (resolve inc) ↔ g.SpecialGone inc path := by
  rw [SpecialGone, ← removeSpecial_mem ha, acceptedEffects_eq, List.mem_append, or_iff_left]
  exact fun h => dim_metaEffects h rfl

theorem mode_mem_meta (ha : g.Accepts inc (resolve inc)) {mode : UInt32} :
    .mode path mode ∈ g.metaEffects inc (resolve inc) ↔ g.ModeSet inc path mode := by
  have hpart : .mode path mode ∈ g.metaEffects inc (resolve inc) ↔
      .mode path mode ∈ g.modeEffects inc (resolve inc) := by
    simp only [metaEffects, List.mem_append]
    constructor
    · rintro ((((h | h) | h) | h) | h)
      · exact h
      · cases dim_symlinkEffects h
      · cases dim_hardlinkEffects h
      · cases dim_xattrSetEffects h
      · cases dim_xattrRemoveEffects h
    · exact fun h => .inl (.inl (.inl (.inl h)))
  rw [hpart, mem_modeEffects, ModeSet]
  constructor
  · rintro ⟨path', mode', hm, h⟩
    obtain ⟨-, ⟨-, -, hn⟩ | ⟨hle, he⟩⟩ := mergeSetmode_ok h
    · cases hn
    · cases he
      exact ⟨hm, hle⟩
  · rintro ⟨hm, hle⟩
    obtain ⟨e, h⟩ := ha.modes path mode hm
    refine ⟨path, mode, hm, ?_⟩
    obtain ⟨-, ⟨hlt, -, -⟩ | ⟨-, he⟩⟩ := mergeSetmode_ok h
    · omega
    · rw [h, he]

theorem wrote_modes (ha : g.Accepts inc (resolve inc)) :
    g.modes.Wrote (g.committed inc).modes (g.head + 1) path (g.ModeSet inc path)
      (fun _ => False) (g.ModeGone inc path) := by
  obtain ⟨writes, heq, hmem⟩ := foldl_onModes (g.head + 1) g.modes
    fun e (he : e ∈ g.placeEffects inc (resolve inc)) => (dim_placeEffects he).1
  have hset : ∀ w, (path, w) ∈ (g.metaEffects inc (resolve inc)).filterMap modeWrite ↔
      ∃ mode, w = some mode ∧ g.ModeSet inc path mode := by
    intro w
    simp only [List.mem_filterMap, ← mode_mem_meta ha]
    constructor
    · rintro ⟨e, he, hs⟩
      cases e <;> simp [modeWrite] at hs
      obtain ⟨rfl, rfl⟩ := hs
      exact ⟨_, rfl, he⟩
    · rintro ⟨mode, rfl, he⟩
      exact ⟨_, he, rfl⟩
  rw [committed_modes, acceptedEffects_eq, List.foldl_append, heq,
    foldl_onModes_declared _ _ fun e he => dim_metaEffects he, ← Versioned.writeAll_append]
  refine (Versioned.wrote_writeAll_of_mem g.modes _ ?_ ?_ ?_).congr (fun v => ?_) (fun v => ?_)
    fun _ _ => ?_
  · rw [hset]
    simp
  · intro v w hv hw
    obtain ⟨v', hv', hs⟩ := (hset _).mp hv
    obtain ⟨w', hw', hs'⟩ := (hset _).mp hw
    cases hv'
    cases hw'
    have := hs.1
    rw [hs'.1] at this
    exact Option.some.inj this
  · intro v hv
    rw [hmem] at hv
    simp at hv
  · rw [hset]
    simp
  · rw [hmem]
    simp
  · rw [hmem, removeSpecial_mem_place ha, ModeGone]
    simp

/-! ## Attributes -/

def lastXattr (r : Resolved) (key : Path × String) : Option Bytes :=
  (r.xattrSets.filterMap fun e => if (e.1, e.2.1) = key then some e.2.2 else none).getLast?

def XattrDropped (g : Green) (inc : Increment) (key : Path × String) : Prop :=
  key ∈ (resolve inc).xattrRemoves ∧ key ∈ g.xattrs.current

def XattrSet (g : Green) (inc : Increment) (key : Path × String) (value : Bytes) : Prop :=
  lastXattr (resolve inc) key = some value ∧ g.xattrs.changedAt key ≤ inc.base ∧
    ¬ g.XattrDropped inc key

/-- Removed, or gone with its IPC node. -/
def XattrGone (g : Green) (inc : Increment) (key : Path × String) : Prop :=
  g.XattrDropped inc key ∨ (g.SpecialGone inc key.1 ∧ key ∈ g.xattrs.current)

theorem mem_dropAttrs {xattrs : Versioned (Path × String) Bytes} :
    (key, w) ∈ (xattrs.current.keys.filter (fun k => k.1 == path)).map
        (fun k => (k, (none : Option Bytes))) ↔ w = none ∧ key.1 = path ∧ key ∈ xattrs.current := by
  simp only [List.mem_map, List.mem_filter, ExtTreeMap.mem_keys, beq_iff_eq, Prod.mk.injEq]
  constructor
  · rintro ⟨k, ⟨hk, hp⟩, rfl, rfl⟩
    exact ⟨rfl, hp, hk⟩
  · rintro ⟨rfl, hp, hk⟩
    exact ⟨key, ⟨hk, hp⟩, rfl, rfl⟩

theorem foldl_onXattrs (version : Nat) (xattrs : Versioned (Path × String) Bytes)
    (h : ∀ e ∈ effects, e.dim ≠ .xattr) :
    ∃ writes, effects.foldl (Effect.onXattrs version) xattrs = xattrs.writeAll version writes ∧
      ∀ key w, (key, w) ∈ writes ↔
        w = none ∧ .removeSpecial key.1 ∈ effects ∧ key ∈ xattrs.current := by
  simpa only [exists_eq_right] using
    Versioned.foldl_takes (fun e key => e = Effect.removeSpecial key.1) xattrs fun e he m => by
      have hdim := h e he
      cases e with
      | setXattr path name value => exact absurd rfl hdim
      | removeXattr path name => exact absurd rfl hdim
      | removeSpecial path =>
        refine ⟨_, rfl, fun key w => ?_⟩
        rw [mem_dropAttrs, Effect.removeSpecial.injEq, eq_comm (b := key.1)]
      | _ => exact ⟨[], rfl, by simp⟩

def xattrWrite : Effect → Option ((Path × String) × Option Bytes)
  | .setXattr path name value => some ((path, name), some value)
  | .removeXattr path name => some ((path, name), none)
  | _ => none

theorem foldl_onXattrs_declared (version : Nat) (xattrs : Versioned (Path × String) Bytes)
    (h : ∀ e ∈ effects, e.dim ≠ .special) :
    effects.foldl (Effect.onXattrs version) xattrs =
      xattrs.writeAll version (effects.filterMap xattrWrite) := by
  refine Versioned.foldl_eq_writeAll xattrs fun e he m => ?_
  have hdim := h e he
  cases e with
  | removeSpecial path => exact absurd rfl hdim
  | _ => rfl

theorem filterMap_xattrWrite (g : Green) (inc : Increment) (r : Resolved) :
    (g.metaEffects inc r).filterMap xattrWrite =
      (g.xattrSetEffects inc r).filterMap xattrWrite ++
        (g.xattrRemoveEffects inc r).filterMap xattrWrite := by
  have hnil : ∀ {part : List Effect}, (∀ e ∈ part, e.dim ≠ .xattr) →
      part.filterMap xattrWrite = [] := by
    intro part hpart
    rw [List.filterMap_eq_nil_iff]
    intro e he
    have := hpart e he
    cases e <;> simp_all [Effect.dim, xattrWrite]
  rw [metaEffects, List.filterMap_append, List.filterMap_append, List.filterMap_append,
    List.filterMap_append, hnil fun e he => by simp [dim_modeEffects he],
    hnil fun e he => by simp [dim_symlinkEffects he],
    hnil fun e he => by simp [dim_hardlinkEffects he]]
  simp

theorem changesOf_xattrSets (ha : g.Accepts inc (resolve inc)) (key : Path × String) :
    Versioned.changesOf ((g.xattrSetEffects inc (resolve inc)).filterMap xattrWrite) key =
      if g.xattrs.changedAt key ≤ inc.base then
        (resolve inc).xattrSets.filterMap
          (fun e => if (e.1, e.2.1) = key then some (some e.2.2) else none)
      else [] := by
  have hall := ha.xattrSets
  rw [xattrSetEffects]
  generalize hr : resolve inc = r at hall ⊢
  generalize r.xattrSets = sets at hall ⊢
  induction sets with
  | nil => simp
  | cons e sets ih =>
    obtain ⟨path, name, value⟩ := e
    have ih' := ih fun e he => hall e (List.mem_cons_of_mem _ he)
    obtain ⟨effect, heff⟩ := hall _ (List.mem_cons_self ..)
    rw [List.flatMap_cons, List.filterMap_append, Versioned.changesOf_append, ih', heff]
    by_cases hkey : (path, name) = key
    · subst hkey
      obtain ⟨-, ⟨hlt, -, rfl⟩ | ⟨hle, rfl⟩⟩ := mergeSetXattr_ok heff
      · simp [okOne, Nat.not_le.mpr hlt]
      · simp [okOne, hle, xattrWrite, Versioned.changesOf]
    · obtain ⟨-, ⟨-, -, rfl⟩ | ⟨-, rfl⟩⟩ := mergeSetXattr_ok heff
      · simp [okOne, hkey]
      · simp [okOne, hkey, xattrWrite, Versioned.changesOf]

theorem mem_xattrRemoves (ha : g.Accepts inc (resolve inc)) :
    (key, w) ∈ (g.xattrRemoveEffects inc (resolve inc)).filterMap xattrWrite ↔
      w = none ∧ g.XattrDropped inc key := by
  simp only [List.mem_filterMap, mem_xattrRemoveEffects, XattrDropped]
  constructor
  · rintro ⟨e, ⟨path, name, hm, h⟩, hw⟩
    obtain ⟨-, ⟨-, hn⟩ | ⟨hin, -, he⟩⟩ := mergeRemoveXattr_ok h
    · cases hn
    · cases he
      cases hw
      exact ⟨rfl, hm, hin⟩
  · rintro ⟨rfl, hm, hin⟩
    obtain ⟨path, name⟩ := key
    obtain ⟨e, h⟩ := ha.xattrRemoves _ hm
    refine ⟨.removeXattr path name, ⟨path, name, hm, ?_⟩, rfl⟩
    obtain ⟨-, ⟨hno, -⟩ | ⟨-, -, he⟩⟩ := mergeRemoveXattr_ok h
    · exact absurd hin hno
    · rw [h, he]

theorem getLast?_xattrSets (ha : g.Accepts inc (resolve inc)) (key : Path × String) :
    (Versioned.changesOf
      ((g.xattrSetEffects inc (resolve inc)).filterMap xattrWrite) key).getLast? =
      if g.xattrs.changedAt key ≤ inc.base then (lastXattr (resolve inc) key).map some
      else none := by
  have hmap : ∀ sets : List (Path × String × Bytes),
      sets.filterMap (fun e => if (e.1, e.2.1) = key then some (some e.2.2) else none) =
        (sets.filterMap fun e => if (e.1, e.2.1) = key then some e.2.2 else none).map some := by
    intro sets
    rw [List.map_filterMap]
    congr 1
    funext e
    split_ifs <;> rfl
  rw [changesOf_xattrSets ha]
  split_ifs
  · rw [hmap, List.getLast?_map, lastXattr]
  · rfl

theorem wrote_xattrs (ha : g.Accepts inc (resolve inc)) :
    g.xattrs.Wrote (g.committed inc).xattrs (g.head + 1) key (g.XattrSet inc key)
      (fun _ => False) (g.XattrGone inc key) := by
  obtain ⟨writes, heq, hmem⟩ := foldl_onXattrs (g.head + 1) g.xattrs
    fun e (he : e ∈ g.placeEffects inc (resolve inc)) => (dim_placeEffects he).2
  have hremoves : ∀ {w}, (key, w) ∈
      (g.xattrRemoveEffects inc (resolve inc)).filterMap xattrWrite ↔
        w = none ∧ g.XattrDropped inc key := mem_xattrRemoves ha
  rw [committed_xattrs, acceptedEffects_eq, List.foldl_append, heq,
    foldl_onXattrs_declared _ _ fun e he => dim_metaEffects he, ← Versioned.writeAll_append,
    filterMap_xattrWrite]
  by_cases hdrop : g.XattrDropped inc key
  · -- the removal comes last
    have hlast : (Versioned.changesOf (writes ++
        ((g.xattrSetEffects inc (resolve inc)).filterMap xattrWrite ++
          (g.xattrRemoveEffects inc (resolve inc)).filterMap xattrWrite)) key).getLast? =
        some none := by
      rw [Versioned.changesOf_append, Versioned.changesOf_append, List.getLast?_append,
        List.getLast?_append,
        Versioned.getLast?_changesOf (hremoves.mpr ⟨rfl, hdrop⟩) fun w hw => (hremoves.mp hw).1]
      rfl
    rw [← List.append_nil (writes ++ _)]
    refine (Versioned.wrote_writeAll g.xattrs _ (by simp)).congr (fun v => ?_) (fun v => ?_)
      fun _ _ => ?_
    · simp [XattrSet, hdrop]
    · rw [hlast]
      simp
    · rw [hlast]
      simp [XattrGone, hdrop]
  · have hnone : Versioned.changesOf
        ((g.xattrRemoveEffects inc (resolve inc)).filterMap xattrWrite) key = [] :=
      Versioned.changesOf_eq_nil.mpr fun w hw => hdrop (hremoves.mp hw).2
    have hgone : ∀ w, (key, w) ∈ writes ↔
        w = none ∧ g.SpecialGone inc key.1 ∧ key ∈ g.xattrs.current := fun w => by
      rw [hmem, removeSpecial_mem_place ha]
    refine (Versioned.wrote_writeAll g.xattrs _ ?_).congr (fun v => ?_) (fun v => ?_) fun _ _ => ?_
    · intro hin
      rcases List.mem_append.mp hin with hin | hin
      · have := (Versioned.mem_changesOf _ _ _).mpr hin
        rw [changesOf_xattrSets ha] at this
        split_ifs at this
        · simp at this
        · cases this
      · exact hdrop (hremoves.mp hin).2
    · rw [Versioned.changesOf_append, hnone, List.append_nil, getLast?_xattrSets ha, XattrSet]
      by_cases hle : g.xattrs.changedAt key ≤ inc.base <;> simp [hle, hdrop]
    · simp only [iff_false]
      intro hlast
      have := (hgone _).mp ((Versioned.mem_changesOf _ _ _).mp (List.mem_of_getLast? hlast))
      simp at this
    · rw [XattrGone, or_iff_right hdrop]
      constructor
      · intro hlast
        exact ((hgone _).mp ((Versioned.mem_changesOf _ _ _).mp (List.mem_of_getLast? hlast))).2
      · intro h
        exact Versioned.getLast?_changesOf ((hgone _).mpr ⟨rfl, h⟩) fun w hw => ((hgone w).mp hw).1

end Green

end Slates.Merge
