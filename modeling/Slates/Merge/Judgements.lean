import Slates.Merge.Decision

/-!
What each acceptable judgement says: one inversion lemma per merge rule, so that no later proof
opens a rule again.
-/

open Std (ExtTreeMap)

namespace Slates.Merge

namespace Green

variable {g : Green} {base : Nat} {path : Path}

/-- Nothing but a file may stand at `path`. -/
structure FreeOfNonfile (g : Green) (path : Path) : Prop where
  dirs : path ∉ g.dirs.current
  symlinks : path ∉ g.symlinks.current
  hardlinks : path ∉ g.hardlinks.current
  specials : path ∉ g.specials.current

theorem freeOfNonfile_iff : g.FreeOfNonfile path ↔ g.occupiedByNonfile path = false := by
  rw [occupiedByNonfile, ← Bool.not_eq_true]
  simp only [Bool.or_eq_true, ExtTreeMap.contains_iff_mem, not_or]
  constructor
  · rintro ⟨h1, h2, h3, h4⟩
    exact ⟨⟨⟨h1, h2⟩, h3⟩, h4⟩
  · rintro ⟨⟨⟨h1, h2⟩, h3⟩, h4⟩
    exact ⟨h1, h2, h3, h4⟩

/-- The destination is free of non-files and its file, if any, unchanged since the base. -/
structure Movable (g : Green) (dst src : Path) (base : Nat) : Prop where
  ne : src ≠ dst
  free : g.FreeOfNonfile dst
  unchanged : g.content.changedAt dst ≤ base

inductive Moves (g : Green) (dst src : Path) (base : Nat) : List Effect → Prop
  | itself : src = dst → Moves g dst src base []
  | file (bytes : Bytes) : g.Movable dst src base → g.content.current[src]? = some bytes →
      Moves g dst src base [.setContent dst bytes [insertWhole bytes.length], .removeContent src]
  | symlink (target : String) : g.Movable dst src base → src ∉ g.content.current →
      g.symlinks.current[src]? = some target →
      Moves g dst src base [.symlink dst target, .removeSymlink src]
  | hardlink (target : Path) : g.Movable dst src base → src ∉ g.content.current →
      src ∉ g.symlinks.current → g.hardlinks.current[src]? = some target →
      Moves g dst src base [.hardlink dst target, .removeHardlink src]

theorem Moves.free {dst src : Path} {base : Nat} {effects : List Effect}
    (h : g.Moves dst src base effects) (hne : src ≠ dst) : g.FreeOfNonfile dst := by
  cases h with
  | itself heq => exact absurd heq hne
  | file _ hm _ => exact hm.free
  | symlink _ hm _ _ => exact hm.free
  | hardlink _ hm _ _ _ => exact hm.free

theorem mergeRename_ok {dst src : Path} {effects : List Effect}
    (h : g.mergeRename dst base src = .ok effects) : g.Moves dst src base effects := by
  unfold mergeRename at h
  split at h
  · rename_i heq
    cases h
    exact .itself heq
  rename_i hne
  split at h
  · cases h
  rename_i hsource
  split at h
  · cases h
  rename_i hocc
  split at h
  · cases h
  rename_i hchanged
  have hm : g.Movable dst src base :=
    ⟨hne, freeOfNonfile_iff.mpr (by simpa using hocc), Nat.le_of_not_lt hchanged⟩
  split at h
  · rename_i hc
    cases h
    exact .file _ hm hc
  · rename_i hc hs
    cases h
    exact .symlink _ hm (by simpa using hc) hs
  · rename_i hc hs hl
    cases h
    exact .hardlink _ hm (by simpa using hc) (by simpa using hs) hl
  · rename_i hc hs hl
    simp only [getElem?_eq_none_iff] at hc hs hl
    simp [hc, hs, hl] at hsource

variable {e : Option Effect}

theorem mergeCreate_ok {bytes : Bytes} (h : g.mergeCreate path bytes = .ok e) :
    g.FreeOfNonfile path ∧
      ((g.content.current[path]? = some bytes ∧ e = none) ∨
        (path ∉ g.content.current ∧
          e = some (.setContent path bytes [insertWhole bytes.length]))) := by
  unfold mergeCreate at h
  split at h
  · cases h
  rename_i hocc
  refine ⟨freeOfNonfile_iff.mpr (by simpa using hocc), ?_⟩
  split at h
  · rename_i current hc
    split at h
    · rename_i heq
      cases h
      exact Or.inl ⟨heq ▸ hc, rfl⟩
    · cases h
  · rename_i hc
    cases h
    exact Or.inr ⟨by simpa using hc, rfl⟩

inductive Unlinks (g : Green) (path : Path) (base : Nat) : Option Effect → Prop
  | special : path ∈ g.specials.current → g.specials.changedAt path ≤ base →
      g.modes.changedAt path ≤ base →
      (∀ e ∈ g.xattrs.changed.toList, e.1.1 = path → e.2 ≤ base) →
      (∀ e ∈ g.hardlinks.current.toList, e.2 ≠ path) →
      Unlinks g path base (some (.removeSpecial path))
  | file : path ∉ g.specials.current → path ∈ g.content.current →
      g.content.changedAt path ≤ base → Unlinks g path base (some (.removeContent path))
  | symlink : path ∉ g.specials.current → path ∉ g.content.current → path ∈ g.symlinks.current →
      g.symlinks.changedAt path ≤ base → Unlinks g path base (some (.removeSymlink path))
  | hardlink : path ∉ g.specials.current → path ∉ g.content.current →
      path ∉ g.symlinks.current → path ∈ g.hardlinks.current →
      g.hardlinks.changedAt path ≤ base → Unlinks g path base (some (.removeHardlink path))
  | nothing : path ∉ g.specials.current → path ∉ g.content.current → path ∉ g.symlinks.current →
      path ∉ g.hardlinks.current → Unlinks g path base none

theorem mergeUnlink_ok (h : g.mergeUnlink path base = .ok e) : g.Unlinks path base e := by
  unfold mergeUnlink at h
  simp only [ExtTreeMap.contains_iff_mem] at h
  split at h
  · rename_i hs
    split at h
    · cases h
    · rename_i hc
      cases h
      simp only [Bool.or_eq_true, decide_eq_true_eq, List.any_eq_true, Bool.and_eq_true,
        beq_iff_eq, not_or, not_exists, not_and, not_lt] at hc
      obtain ⟨⟨⟨h1, h2⟩, h3⟩, h4⟩ := hc
      exact .special hs h1 h2 h3 h4
  rename_i hs
  split at h
  · rename_i hc
    split at h
    · cases h
    · rename_i hle
      cases h
      exact .file hs hc (Nat.le_of_not_lt hle)
  rename_i hc
  split at h
  · rename_i hl
    split at h
    · cases h
    · rename_i hle
      cases h
      exact .symlink hs hc hl (Nat.le_of_not_lt hle)
  rename_i hl
  split at h
  · rename_i hk
    split at h
    · cases h
    · rename_i hle
      cases h
      exact .hardlink hs hc hl hk (Nat.le_of_not_lt hle)
  · rename_i hk
    cases h
    exact .nothing hs hc hl hk

/-- No file, link or IPC node stands at `path`. -/
structure FreeOfNondir (g : Green) (path : Path) : Prop where
  content : path ∉ g.content.current
  symlinks : path ∉ g.symlinks.current
  hardlinks : path ∉ g.hardlinks.current
  specials : path ∉ g.specials.current

private theorem freeOfNondir_of (h : ¬ (g.content.current.contains path ||
    g.symlinks.current.contains path || g.hardlinks.current.contains path ||
    g.specials.current.contains path) = true) : g.FreeOfNondir path := by
  simp only [Bool.or_eq_true, ExtTreeMap.contains_iff_mem, not_or] at h
  obtain ⟨⟨⟨h1, h2⟩, h3⟩, h4⟩ := h
  exact ⟨h1, h2, h3, h4⟩

theorem mergeMkdir_ok (h : g.mergeMkdir path = .ok e) :
    g.FreeOfNondir path ∧
      ((path ∈ g.dirs.current ∧ e = none) ∨
        (path ∉ g.dirs.current ∧ e = some (.makeDir path))) := by
  unfold mergeMkdir at h
  split at h
  · cases h
  rename_i hfree
  refine ⟨freeOfNondir_of hfree, ?_⟩
  split at h
  · rename_i hd
    cases h
    exact Or.inl ⟨by simpa using hd, rfl⟩
  · rename_i hd
    cases h
    exact Or.inr ⟨by simpa using hd, rfl⟩

theorem mergeRmdir_ok {cleared : PathSet} (h : g.mergeRmdir path cleared = .ok e) :
    g.FreeOfNondir path ∧
      ((path ∉ g.dirs.current ∧ e = none) ∨
        (path ∈ g.dirs.current ∧ g.hasLiveChild (path ++ "/") cleared = false ∧
          e = some (.removeDir path))) := by
  unfold mergeRmdir at h
  split at h
  · cases h
  rename_i hfree
  refine ⟨freeOfNondir_of hfree, ?_⟩
  simp only [Bool.not_eq_true', ← Bool.not_eq_true, ExtTreeMap.contains_iff_mem] at h
  split at h
  · rename_i hd
    cases h
    exact Or.inl ⟨hd, rfl⟩
  rename_i hd
  split at h
  · cases h
  · rename_i hc
    cases h
    exact Or.inr ⟨not_not.mp hd, by simpa using hc, rfl⟩

/-- Metadata has something to apply to, of the kind it was declared for. -/
structure Applies (g : Green) (path : Path) (base : Nat) (established : Bool) : Prop where
  present : g.metadataMissing path established = false
  kind : established = true ∨ g.specialKindChanged path base = false

private theorem unchanged_ok {changed : Nat} {same : Prop} [Decidable same] {w : ConflictWindow}
    {effect : Effect}
    (h : (if changed > base then if same then .ok none else .error w
      else .ok (some effect) : Judged) = .ok e) :
    (base < changed ∧ same ∧ e = none) ∨ (changed ≤ base ∧ e = some effect) := by
  split at h
  · rename_i hc
    split at h
    · rename_i hm
      cases h
      exact Or.inl ⟨hc, hm, rfl⟩
    · cases h
  · rename_i hc
    cases h
    exact Or.inr ⟨Nat.le_of_not_lt hc, rfl⟩

theorem mergeSetmode_ok {mode : UInt32} {established : Bool}
    (h : g.mergeSetmode path base mode established = .ok e) :
    g.Applies path base established ∧
      ((base < g.modes.changedAt path ∧ g.modes.current[path]? = some mode ∧ e = none) ∨
        (g.modes.changedAt path ≤ base ∧ e = some (.mode path mode))) := by
  unfold mergeSetmode at h
  split at h
  · cases h
  rename_i hp
  split at h
  · cases h
  rename_i hk
  refine ⟨⟨by simpa using hp, ?_⟩, unchanged_ok h⟩
  cases established with
  | true => exact Or.inl rfl
  | false => exact Or.inr (by simpa using hk)

theorem mergeSetXattr_ok {name : String} {value : Bytes} {established : Bool}
    (h : g.mergeSetXattr path name base value established = .ok e) :
    g.Applies path base established ∧
      ((base < g.xattrs.changedAt (path, name) ∧
          g.xattrs.current[(path, name)]? = some value ∧ e = none) ∨
        (g.xattrs.changedAt (path, name) ≤ base ∧ e = some (.setXattr path name value))) := by
  unfold mergeSetXattr at h
  split at h
  · cases h
  rename_i hp
  split at h
  · cases h
  rename_i hk
  refine ⟨⟨by simpa using hp, ?_⟩, unchanged_ok h⟩
  cases established with
  | true => exact Or.inl rfl
  | false => exact Or.inr (by simpa using hk)

theorem mergeRemoveXattr_ok {name : String} (h : g.mergeRemoveXattr path name base = .ok e) :
    g.specialKindChanged path base = false ∧
      (((path, name) ∉ g.xattrs.current ∧ e = none) ∨
        ((path, name) ∈ g.xattrs.current ∧ g.xattrs.changedAt (path, name) ≤ base ∧
          e = some (.removeXattr path name))) := by
  unfold mergeRemoveXattr at h
  split at h
  · cases h
  rename_i hk
  refine ⟨by simpa using hk, ?_⟩
  simp only [Bool.not_eq_true', ← Bool.not_eq_true, ExtTreeMap.contains_iff_mem] at h
  split at h
  · rename_i hx
    cases h
    exact Or.inl ⟨hx, rfl⟩
  rename_i hx
  split at h
  · cases h
  · rename_i hc
    cases h
    exact Or.inr ⟨not_not.mp hx, Nat.le_of_not_lt hc, rfl⟩

/-- Nothing but a symbolic link may stand at `path`. -/
structure FreeOfNonsymlink (g : Green) (path : Path) : Prop where
  content : path ∉ g.content.current
  dirs : path ∉ g.dirs.current
  hardlinks : path ∉ g.hardlinks.current
  specials : path ∉ g.specials.current

theorem mergeSymlink_ok {target : String} (h : g.mergeSymlink path base target = .ok e) :
    g.FreeOfNonsymlink path ∧
      ((base < g.symlinks.changedAt path ∧ g.symlinks.current[path]? = some target ∧ e = none) ∨
        (g.symlinks.changedAt path ≤ base ∧ e = some (.symlink path target))) := by
  unfold mergeSymlink at h
  split at h
  · cases h
  rename_i hfree
  simp only [Bool.or_eq_true, ExtTreeMap.contains_iff_mem, not_or] at hfree
  obtain ⟨⟨⟨h1, h2⟩, h3⟩, h4⟩ := hfree
  exact ⟨⟨h1, h2, h3, h4⟩, unchanged_ok h⟩

/-- Nothing but a hard link may stand at `path`. -/
structure FreeOfNonhardlink (g : Green) (path : Path) : Prop where
  content : path ∉ g.content.current
  dirs : path ∉ g.dirs.current
  symlinks : path ∉ g.symlinks.current
  specials : path ∉ g.specials.current

theorem mergeHardlink_ok {target : Path} (h : g.mergeHardlink path base target = .ok e) :
    g.FreeOfNonhardlink path ∧
      ((base < g.hardlinks.changedAt path ∧ g.hardlinks.current[path]? = some target ∧
          e = none) ∨
        (g.hardlinks.changedAt path ≤ base ∧ e = some (.hardlink path target))) := by
  unfold mergeHardlink at h
  split at h
  · cases h
  rename_i hfree
  simp only [Bool.or_eq_true, ExtTreeMap.contains_iff_mem, not_or] at hfree
  obtain ⟨⟨⟨h1, h2⟩, h3⟩, h4⟩ := hfree
  exact ⟨⟨h1, h2, h3, h4⟩, unchanged_ok h⟩

/-- Nothing but an IPC node may stand at `path`. -/
structure FreeOfNonspecial (g : Green) (path : Path) : Prop where
  content : path ∉ g.content.current
  dirs : path ∉ g.dirs.current
  symlinks : path ∉ g.symlinks.current
  hardlinks : path ∉ g.hardlinks.current

theorem mergeSpecial_ok {node : SpecialNode} (h : g.mergeSpecial path base node = .ok e) :
    g.FreeOfNonspecial path ∧
      (∀ current, g.specials.current[path]? = some current → current.kind = node.kind) ∧
      ((g.specials.current[path]? = some node ∧ e = none) ∨
        (g.specials.current[path]? ≠ some node ∧ g.specials.changedAt path ≤ base ∧
          e = some (.special path node))) := by
  unfold mergeSpecial at h
  split at h
  · cases h
  rename_i hfree
  simp only [Bool.or_eq_true, ExtTreeMap.contains_iff_mem, not_or] at hfree
  obtain ⟨⟨⟨h1, h2⟩, h3⟩, h4⟩ := hfree
  refine ⟨⟨h1, h2, h3, h4⟩, ?_⟩
  split at h
  · cases h
  rename_i hkind
  refine ⟨fun current hc => by simpa [hc] using hkind, ?_⟩
  split at h
  · rename_i hc
    cases h
    exact Or.inl ⟨hc, rfl⟩
  rename_i hc
  split at h
  · cases h
  · rename_i hle
    cases h
    exact Or.inr ⟨hc, Nat.le_of_not_lt hle, rfl⟩

/-- An accepted edit's mapped ops are spliced into the head's content, or the head already holds
what it asks for. -/
inductive Edits (g : Green) (inc : Increment) (path : Path) (ops : List Op) :
    Option Effect → Prop
  | spliced (current : Bytes) (deltas : List (List Op)) :
      g.content.current[path]? = some current → deltas = g.deltasSince inc.base path →
      (∀ op ∈ ops, movedOp deltas op = none →
        op.kind = .overwrite ∧ identicalSpan deltas current inc.postState op = true) →
      ops.filterMap (movedOp deltas) ≠ [] →
      Edits g inc path ops (some (.setContent path
        (apply current (ops.filterMap (movedOp deltas)) inc.postState)
        (ops.filterMap (movedOp deltas))))
  /-- Every op is an overwrite the head already holds. -/
  | held (current : Bytes) (deltas : List (List Op)) :
      g.content.current[path]? = some current → deltas = g.deltasSince inc.base path →
      (∀ op ∈ ops, movedOp deltas op = none ∧
        op.kind = .overwrite ∧ identicalSpan deltas current inc.postState op = true) →
      Edits g inc path ops none
  /-- A length-changing op overlapped, and the whole file is what the edit asks for. -/
  | identical (current : Bytes) (op : Op) :
      g.content.current[path]? = some current → op ∈ ops →
      movedOp (g.deltasSince inc.base path) op = none → op.kind ≠ .overwrite →
      apply ((g.contentAt path inc.base).getD []) ops inc.postState = current →
      Edits g inc path ops none

theorem mergeContent_ok {inc : Increment} {ops : List Op}
    (h : g.mergeContent inc path ops = .ok e) :
    g.Edits inc path ops e := by
  unfold mergeContent at h
  split at h
  · split at h <;> cases h
  rename_i current hcurrent
  dsimp only at h
  split at h
  · rename_i op hfind
    have hmem := List.mem_of_find?_eq_some hfind
    have hkind := List.find?_some hfind
    rw [List.mem_filter] at hmem
    split at h
    · rename_i heq
      cases h
      exact .identical current op hcurrent hmem.1 (by simpa using hmem.2) (by simpa using hkind)
        heq
    · cases h
  rename_i hfind
  split at h
  · cases h
  rename_i hdiff
  -- the overlapping ops are overwrites, and none differs from the head
  have hheld : ∀ op ∈ ops, movedOp (g.deltasSince inc.base path) op = none →
      op.kind = .overwrite ∧
        identicalSpan (g.deltasSince inc.base path) current inc.postState op = true := by
    intro op hop hnone
    have hmem : op ∈ ops.filter
        (fun op => (movedOp (g.deltasSince inc.base path) op).isNone) :=
      List.mem_filter.mpr ⟨hop, by simp [hnone]⟩
    have hkind := List.find?_eq_none.mp hfind op hmem
    simp only [ne_eq, Decidable.not_not] at hdiff
    have hsame := List.filter_eq_nil_iff.mp hdiff op hmem
    exact ⟨by simpa using hkind, by simpa using hsame⟩
  split at h
  · rename_i hmapped
    cases h
    refine .held current _ hcurrent rfl fun op hop => ?_
    have hnone := List.filterMap_eq_nil_iff.mp hmapped op hop
    exact ⟨hnone, hheld op hop hnone⟩
  · rename_i hmapped
    cases h
    exact .spliced current _ hcurrent rfl hheld hmapped

end Green

end Slates.Merge
