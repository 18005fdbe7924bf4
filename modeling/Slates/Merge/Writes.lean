import Slates.Merge.Judgements

/-!
What a document resolves to, and the effects of an accepting decision, by what they write: which
declared change each effect comes from, and which effects write each dimension.
-/

open Std (ExtTreeMap ExtTreeSet)

namespace Slates.Merge

/-! ## Resolution -/

theorem Resolved.mem_edits {r : Resolved} {path : Path} {ops : List Op} :
    (path, ops) ∈ r.edits ↔ r.content[path]? = some ops ∧ path ∉ r.creates ∧ path ∉ r.renames := by
  rw [Resolved.edits, List.mem_filter, ExtTreeMap.mem_toList_iff_getElem?_eq_some,
    Bool.not_eq_true', ← Bool.not_eq_true, Bool.or_eq_true, not_or, ExtTreeSet.contains_iff_mem,
    ExtTreeMap.contains_iff_mem]

/-- The content ops of `path`, in document order. -/
def contentOps (inc : Increment) (ops : List Op) (path : Path) : List Op :=
  ops.filter (fun op => op.kind.isContent && nameOf inc.doc op.path == path)

section Content

variable (inc : Increment) (path : Path)

private theorem resolveOp_content (r : Resolved) (op : Op) :
    (resolveOp inc r op).content =
      if op.kind.isContent then
        r.content.insert (nameOf inc.doc op.path)
          (r.content.getD (nameOf inc.doc op.path) [] ++ [op])
      else r.content := by
  unfold resolveOp
  cases h : op.kind <;> simp [OpKind.isContent]
  -- an IPC payload may be invalid
  split <;> rfl

theorem foldl_resolveOp_content (ops : List Op) (r : Resolved) :
    (ops.foldl (resolveOp inc) r).content[path]? =
      if contentOps inc ops path = [] then r.content[path]?
      else some (r.content.getD path [] ++ contentOps inc ops path) := by
  induction ops using List.reverseRecOn with
  | nil => rfl
  | append_singleton ops op ih =>
    have hops : contentOps inc (ops ++ [op]) path = contentOps inc ops path ++
        (if op.kind.isContent = true ∧ nameOf inc.doc op.path = path then [op] else []) := by
      simp [contentOps, List.filter_singleton]
    rw [List.foldl_concat, resolveOp_content, hops]
    by_cases hk : op.kind.isContent = true
    · rw [if_pos hk, ExtTreeMap.getElem?_insert]
      by_cases hp : nameOf inc.doc op.path = path
      · have hcur : (ops.foldl (resolveOp inc) r).content.getD path [] =
            r.content.getD path [] ++ contentOps inc ops path := by
          rw [ExtTreeMap.getD_eq_getD_getElem?, ih, ExtTreeMap.getD_eq_getD_getElem?]
          by_cases hn : contentOps inc ops path = [] <;> simp [hn]
        simp [hk, hp, hcur]
      · simp [hp, ih]
    · simp [hk, ih]

theorem resolve_content : (resolve inc).content[path]? =
    if contentOps inc inc.doc.ops path = [] then none
    else some (contentOps inc inc.doc.ops path) := by
  have h := foldl_resolveOp_content inc path inc.doc.ops Resolved.empty
  have hempty : Resolved.empty.content = ∅ := rfl
  rw [resolve]
  dsimp only
  rw [h, hempty]
  simp

variable {inc path}

theorem eq_contentOps {ops : List Op} (h : (resolve inc).content[path]? = some ops) :
    ops = contentOps inc inc.doc.ops path := by
  rw [resolve_content] at h
  split at h
  · cases h
  · exact (Option.some.inj h).symm

theorem isContent_of_mem {ops : List Op} (h : (resolve inc).content[path]? = some ops) {op : Op}
    (hop : op ∈ ops) : op.kind.isContent = true := by
  rw [eq_contentOps h] at hop
  have := (List.mem_filter.mp hop).2
  simp only [Bool.and_eq_true] at this
  exact this.1

end Content

/-! ## Effects -/

inductive Dim where
  | special | content | dir | mode | symlink | hardlink | xattr
  deriving DecidableEq

def Effect.dim : Effect → Dim
  | .special _ _ | .removeSpecial _ => .special
  | .setContent _ _ _ | .removeContent _ => .content
  | .makeDir _ | .removeDir _ => .dir
  | .mode _ _ => .mode
  | .symlink _ _ | .removeSymlink _ => .symlink
  | .hardlink _ _ | .removeHardlink _ => .hardlink
  | .setXattr _ _ _ | .removeXattr _ _ => .xattr

namespace Green

theorem mem_okOne {j : Judged} {e : Effect} : e ∈ okOne j ↔ j = .ok (some e) := by
  cases j with
  | ok effect => simp [okOne]
  | error w => simp [okOne]

section Parts

variable {g : Green} {inc : Increment} {r : Resolved} {e : Effect}

private theorem mem_flatMap_toList {V : Type} {m : PathMap V} {f : Path × V → List Effect} :
    e ∈ m.toList.flatMap f ↔ ∃ path v, m[path]? = some v ∧ e ∈ f (path, v) := by
  simp only [List.mem_flatMap, Prod.exists, ExtTreeMap.mem_toList_iff_getElem?_eq_some]

private theorem mem_flatMap_set {s : PathSet} {f : Path → List Effect} :
    e ∈ s.toList.flatMap f ↔ ∃ path ∈ s, e ∈ f path := by
  simp only [List.mem_flatMap, ExtTreeSet.mem_toList]

theorem mem_specialEffects : e ∈ g.specialEffects inc r ↔
    ∃ path node, r.specials[path]? = some node ∧
      g.mergeSpecial path inc.base node = .ok (some e) := by
  simp only [specialEffects, mem_flatMap_toList, mem_okOne]

theorem mem_okEffects_rename {j : Except ConflictWindow (List Effect)} :
    e ∈ okEffects (j.mapError ([·])) ↔ ∃ effects, j = .ok effects ∧ e ∈ effects := by
  cases j <;> simp [Except.mapError, okEffects]

theorem mem_renameEffects : e ∈ g.renameEffects inc r ↔
    ∃ dst src effects, r.renames[dst]? = some src ∧
      g.mergeRename dst inc.base src = .ok effects ∧ e ∈ effects := by
  simp only [renameEffects, mem_flatMap_toList, mem_okEffects_rename, exists_and_left]

theorem mem_createEffects : e ∈ g.createEffects inc r ↔
    ∃ path ∈ r.creates, g.mergeCreate path (createdBytes inc r path) = .ok (some e) := by
  simp only [createEffects, mem_flatMap_set, mem_okOne]

theorem mem_unlinkEffects : e ∈ g.unlinkEffects inc r ↔
    ∃ path ∈ r.unlinks, g.mergeUnlink path inc.base = .ok (some e) := by
  simp only [unlinkEffects, mem_flatMap_set, mem_okOne]

theorem mem_editEffects : e ∈ g.editEffects inc r ↔
    ∃ path ops, (path, ops) ∈ r.edits ∧ g.mergeContent inc path ops = .ok (some e) := by
  simp only [editEffects, List.mem_flatMap, Prod.exists]
  constructor
  · rintro ⟨path, ops, hm, he⟩
    cases h : g.mergeContent inc path ops with
    | ok effect =>
      refine ⟨path, ops, hm, ?_⟩
      simp only [h, Except.map, okEffects, Option.mem_toList] at he
      rw [h, he]
    | error w => simp [h, Except.map, okEffects] at he
  · rintro ⟨path, ops, hm, h⟩
    exact ⟨path, ops, hm, by simp [h, Except.map, okEffects]⟩

theorem mem_mkdirEffects : e ∈ g.mkdirEffects r ↔
    ∃ path ∈ r.mkdirs, g.mergeMkdir path = .ok (some e) := by
  simp only [mkdirEffects, mem_flatMap_set, mem_okOne]

theorem mem_rmdirEffects : e ∈ g.rmdirEffects r ↔
    ∃ path ∈ r.rmdirs, g.mergeRmdir path r.cleared = .ok (some e) := by
  simp only [rmdirEffects, mem_flatMap_set, mem_okOne]

theorem mem_modeEffects : e ∈ g.modeEffects inc r ↔
    ∃ path mode, r.modes[path]? = some mode ∧
      g.mergeSetmode path inc.base mode (r.establishes path) = .ok (some e) := by
  simp only [modeEffects, mem_flatMap_toList, mem_okOne]

theorem mem_symlinkEffects : e ∈ g.symlinkEffects inc r ↔
    ∃ path target, r.symlinks[path]? = some target ∧
      g.mergeSymlink path inc.base target = .ok (some e) := by
  simp only [symlinkEffects, mem_flatMap_toList, mem_okOne]

theorem mem_hardlinkEffects : e ∈ g.hardlinkEffects inc r ↔
    ∃ path target, r.hardlinks[path]? = some target ∧
      g.mergeHardlink path inc.base target = .ok (some e) := by
  simp only [hardlinkEffects, mem_flatMap_toList, mem_okOne]

theorem mem_xattrSetEffects : e ∈ g.xattrSetEffects inc r ↔
    ∃ path name value, (path, name, value) ∈ r.xattrSets ∧
      g.mergeSetXattr path name inc.base value (r.establishes path) = .ok (some e) := by
  simp only [xattrSetEffects, List.mem_flatMap, Prod.exists, mem_okOne]

theorem mem_xattrRemoveEffects : e ∈ g.xattrRemoveEffects inc r ↔
    ∃ path name, (path, name) ∈ r.xattrRemoves ∧
      g.mergeRemoveXattr path name inc.base = .ok (some e) := by
  simp only [xattrRemoveEffects, List.mem_flatMap, Prod.exists, mem_okOne]

/-! ## The dimension of each part -/

theorem dim_specialEffects (he : e ∈ g.specialEffects inc r) : e.dim = .special := by
  obtain ⟨path, node, -, h⟩ := mem_specialEffects.mp he
  obtain ⟨-, -, ⟨-, hn⟩ | ⟨-, -, hs⟩⟩ := mergeSpecial_ok h
  · cases hn
  · cases hs; rfl

theorem dim_createEffects (he : e ∈ g.createEffects inc r) : e.dim = .content := by
  obtain ⟨path, -, h⟩ := mem_createEffects.mp he
  obtain ⟨-, ⟨-, hn⟩ | ⟨-, hs⟩⟩ := mergeCreate_ok h
  · cases hn
  · cases hs; rfl

theorem dim_editEffects (he : e ∈ g.editEffects inc r) : e.dim = .content := by
  obtain ⟨path, ops, -, h⟩ := mem_editEffects.mp he
  cases mergeContent_ok h
  rfl

theorem dim_mkdirEffects (he : e ∈ g.mkdirEffects r) : e.dim = .dir := by
  obtain ⟨path, -, h⟩ := mem_mkdirEffects.mp he
  obtain ⟨-, ⟨-, hn⟩ | ⟨-, hs⟩⟩ := mergeMkdir_ok h
  · cases hn
  · cases hs; rfl

theorem dim_rmdirEffects (he : e ∈ g.rmdirEffects r) : e.dim = .dir := by
  obtain ⟨path, -, h⟩ := mem_rmdirEffects.mp he
  obtain ⟨-, ⟨-, hn⟩ | ⟨-, -, hs⟩⟩ := mergeRmdir_ok h
  · cases hn
  · cases hs; rfl

theorem dim_modeEffects (he : e ∈ g.modeEffects inc r) : e.dim = .mode := by
  obtain ⟨path, mode, -, h⟩ := mem_modeEffects.mp he
  obtain ⟨-, ⟨-, -, hn⟩ | ⟨-, hs⟩⟩ := mergeSetmode_ok h
  · cases hn
  · cases hs; rfl

theorem dim_symlinkEffects (he : e ∈ g.symlinkEffects inc r) : e.dim = .symlink := by
  obtain ⟨path, target, -, h⟩ := mem_symlinkEffects.mp he
  obtain ⟨-, ⟨-, -, hn⟩ | ⟨-, hs⟩⟩ := mergeSymlink_ok h
  · cases hn
  · cases hs; rfl

theorem dim_hardlinkEffects (he : e ∈ g.hardlinkEffects inc r) : e.dim = .hardlink := by
  obtain ⟨path, target, -, h⟩ := mem_hardlinkEffects.mp he
  obtain ⟨-, ⟨-, -, hn⟩ | ⟨-, hs⟩⟩ := mergeHardlink_ok h
  · cases hn
  · cases hs; rfl

theorem dim_xattrSetEffects (he : e ∈ g.xattrSetEffects inc r) : e.dim = .xattr := by
  obtain ⟨path, name, value, -, h⟩ := mem_xattrSetEffects.mp he
  obtain ⟨-, ⟨-, -, hn⟩ | ⟨-, hs⟩⟩ := mergeSetXattr_ok h
  · cases hn
  · cases hs; rfl

theorem dim_xattrRemoveEffects (he : e ∈ g.xattrRemoveEffects inc r) : e.dim = .xattr := by
  obtain ⟨path, name, -, h⟩ := mem_xattrRemoveEffects.mp he
  obtain ⟨-, ⟨-, hn⟩ | ⟨-, -, hs⟩⟩ := mergeRemoveXattr_ok h
  · cases hn
  · cases hs; rfl

/-! ## Where an effect of each dimension comes from -/

def declaredEffects (g : Green) (inc : Increment) (r : Resolved) : Dim → List Effect
  | .special => g.specialEffects inc r
  | .content => g.createEffects inc r ++ g.editEffects inc r
  | .dir => g.mkdirEffects r ++ g.rmdirEffects r
  | .mode => g.modeEffects inc r
  | .symlink => g.symlinkEffects inc r
  | .hardlink => g.hardlinkEffects inc r
  | .xattr => g.xattrSetEffects inc r ++ g.xattrRemoveEffects inc r

theorem mem_acceptedEffects : e ∈ g.acceptedEffects inc r ↔
    e ∈ g.renameEffects inc r ∨ e ∈ g.unlinkEffects inc r ∨
      e ∈ g.declaredEffects inc r e.dim := by
  simp only [acceptedEffects, List.mem_append]
  constructor
  · rintro (((((((((((h | h) | h) | h) | h) | h) | h) | h) | h) | h) | h) | h)
    · simp [dim_specialEffects h, declaredEffects, h]
    · exact .inl h
    · simp [dim_createEffects h, declaredEffects, h]
    · exact .inr (.inl h)
    · simp [dim_editEffects h, declaredEffects, h]
    · simp [dim_mkdirEffects h, declaredEffects, h]
    · simp [dim_rmdirEffects h, declaredEffects, h]
    · simp [dim_modeEffects h, declaredEffects, h]
    · simp [dim_symlinkEffects h, declaredEffects, h]
    · simp [dim_hardlinkEffects h, declaredEffects, h]
    · simp [dim_xattrSetEffects h, declaredEffects, h]
    · simp [dim_xattrRemoveEffects h, declaredEffects, h]
  · rintro (h | h | h)
    · simp [h]
    · simp [h]
    · cases hd : e.dim <;> rw [hd] at h <;>
        simp only [declaredEffects, List.mem_append] at h <;> tauto

/-- A part that may write a dimension, kept only when it does. -/
def keepIf (d d' : Dim) (part : List Effect) : List Effect := if d' = d then part else []

theorem filterMap_keepIf {V : Type} {f : Effect → Option V} {d d' : Dim} {part : List Effect}
    (hf : ∀ e, e.dim ≠ d → f e = none) (hp : ∀ e ∈ part, e.dim = d') :
    part.filterMap f = (keepIf d d' part).filterMap f := by
  by_cases h : d' = d
  · rw [keepIf, if_pos h]
  · rw [keepIf, if_neg h, List.filterMap_nil, List.filterMap_eq_nil_iff]
    exact fun e he => hf e (by rw [hp e he]; exact h)

theorem filterMap_acceptedEffects {V : Type} {f : Effect → Option V} {d : Dim}
    (hf : ∀ e, e.dim ≠ d → f e = none) :
    (g.acceptedEffects inc r).filterMap f =
      (keepIf d .special (g.specialEffects inc r) ++ g.renameEffects inc r ++
      keepIf d .content (g.createEffects inc r) ++ g.unlinkEffects inc r ++
      keepIf d .content (g.editEffects inc r) ++ keepIf d .dir (g.mkdirEffects r) ++
      keepIf d .dir (g.rmdirEffects r) ++ keepIf d .mode (g.modeEffects inc r) ++
      keepIf d .symlink (g.symlinkEffects inc r) ++ keepIf d .hardlink (g.hardlinkEffects inc r) ++
      keepIf d .xattr (g.xattrSetEffects inc r) ++
      keepIf d .xattr (g.xattrRemoveEffects inc r)).filterMap f := by
  simp only [acceptedEffects, List.filterMap_append]
  rw [filterMap_keepIf hf fun _ => dim_specialEffects,
    filterMap_keepIf hf fun _ => dim_createEffects,
    filterMap_keepIf hf fun _ => dim_editEffects, filterMap_keepIf hf fun _ => dim_mkdirEffects,
    filterMap_keepIf hf fun _ => dim_rmdirEffects, filterMap_keepIf hf fun _ => dim_modeEffects,
    filterMap_keepIf hf fun _ => dim_symlinkEffects,
    filterMap_keepIf hf fun _ => dim_hardlinkEffects,
    filterMap_keepIf hf fun _ => dim_xattrSetEffects,
    filterMap_keepIf hf fun _ => dim_xattrRemoveEffects]

end Parts

/-! ## Each effect's source -/

section Sources

variable {g : Green} {inc : Increment} {r : Resolved} {path : Path}

theorem Accepts.moves (ha : g.Accepts inc r) {dst src : Path} (hr : r.renames[dst]? = some src) :
    ∃ effects, g.mergeRename dst inc.base src = .ok effects ∧ g.Moves dst src inc.base effects :=
  let ⟨effects, h⟩ := ha.renames dst src hr
  ⟨effects, h, mergeRename_ok h⟩

theorem Accepts.unlinked (ha : g.Accepts inc r) (hu : path ∈ r.unlinks) :
    ∃ e, g.mergeUnlink path inc.base = .ok e ∧ g.Unlinks path inc.base e :=
  let ⟨e, h⟩ := ha.unlinks path hu
  ⟨e, h, mergeUnlink_ok h⟩

/-- A rename of `src` to another name. -/
def Renamed (r : Resolved) (dst src : Path) : Prop := r.renames[dst]? = some src ∧ src ≠ dst

theorem Accepts.renamed_free (ha : g.Accepts inc r) {src : Path} (hr : Renamed r path src) :
    g.FreeOfNonfile path := by
  obtain ⟨effects, -, hm⟩ := ha.moves hr.1
  exact hm.free hr.2

theorem Renamed.unique {src src' : Path} (h : Renamed r path src) (h' : Renamed r path src') :
    src' = src := by
  have heq := h'.1
  rw [h.1] at heq
  exact (Option.some.inj heq).symm

/-- What a rename of `src` to another name `dst` writes, by what `src` names. -/
@[mk_iff]
inductive Rewrites (g : Green) (dst src : Path) : Effect → Prop
  | setContent (bytes : Bytes) : g.content.current[src]? = some bytes →
      Rewrites g dst src (.setContent dst bytes [insertWhole bytes.length])
  | removeContent : src ∈ g.content.current → Rewrites g dst src (.removeContent src)
  | symlink (target : String) : src ∉ g.content.current → g.symlinks.current[src]? = some target →
      Rewrites g dst src (.symlink dst target)
  | removeSymlink : src ∉ g.content.current → src ∈ g.symlinks.current →
      Rewrites g dst src (.removeSymlink src)
  | hardlink (target : Path) : src ∉ g.content.current → src ∉ g.symlinks.current →
      g.hardlinks.current[src]? = some target → Rewrites g dst src (.hardlink dst target)
  | removeHardlink : src ∉ g.content.current → src ∉ g.symlinks.current →
      src ∈ g.hardlinks.current → Rewrites g dst src (.removeHardlink src)

section

variable (ha : g.Accepts inc r)

include ha

theorem mem_rename {e : Effect} :
    e ∈ g.renameEffects inc r ↔ ∃ dst src, Renamed r dst src ∧ g.Rewrites dst src e := by
  rw [mem_renameEffects]
  constructor
  · rintro ⟨dst, src, effects, hr, h, he⟩
    refine ⟨dst, src, ?_⟩
    cases mergeRename_ok h with
    | itself heq => cases he
    | file bytes hm hc =>
      rcases List.mem_pair.mp he with rfl | rfl
      · exact ⟨⟨hr, hm.ne⟩, .setContent bytes hc⟩
      · exact ⟨⟨hr, hm.ne⟩, .removeContent (mem_of_getElem? hc)⟩
    | symlink target hm hn hs =>
      rcases List.mem_pair.mp he with rfl | rfl
      · exact ⟨⟨hr, hm.ne⟩, .symlink target hn hs⟩
      · exact ⟨⟨hr, hm.ne⟩, .removeSymlink hn (mem_of_getElem? hs)⟩
    | hardlink target hm hn hs hl =>
      rcases List.mem_pair.mp he with rfl | rfl
      · exact ⟨⟨hr, hm.ne⟩, .hardlink target hn hs hl⟩
      · exact ⟨⟨hr, hm.ne⟩, .removeHardlink hn hs (mem_of_getElem? hl)⟩
  · rintro ⟨dst, src, ⟨hr, hne⟩, hw⟩
    obtain ⟨effects, h, hm⟩ := ha.moves hr
    refine ⟨dst, src, effects, hr, h, ?_⟩
    -- what `src` names decides which constructors meet
    cases hm <;> cases hw <;> grind [mem_of_getElem?]

theorem setContent_mem_rename {bytes : Bytes} {ops : List Op} :
    .setContent path bytes ops ∈ g.renameEffects inc r ↔
      ∃ src, Renamed r path src ∧ g.content.current[src]? = some bytes ∧
        ops = [insertWhole bytes.length] := by
  simp only [mem_rename ha, rewrites_iff]
  grind

theorem removeContent_mem_rename :
    .removeContent path ∈ g.renameEffects inc r ↔
      path ∈ g.content.current ∧ ∃ dst, Renamed r dst path := by
  simp only [mem_rename ha, rewrites_iff]
  grind

theorem symlink_mem_rename {target : String} :
    .symlink path target ∈ g.renameEffects inc r ↔
      ∃ src, Renamed r path src ∧ src ∉ g.content.current ∧
        g.symlinks.current[src]? = some target := by
  simp only [mem_rename ha, rewrites_iff]
  grind

theorem removeSymlink_mem_rename :
    .removeSymlink path ∈ g.renameEffects inc r ↔
      path ∉ g.content.current ∧ path ∈ g.symlinks.current ∧ ∃ dst, Renamed r dst path := by
  simp only [mem_rename ha, rewrites_iff]
  grind

theorem hardlink_mem_rename {target : Path} :
    .hardlink path target ∈ g.renameEffects inc r ↔
      ∃ src, Renamed r path src ∧ src ∉ g.content.current ∧ src ∉ g.symlinks.current ∧
        g.hardlinks.current[src]? = some target := by
  simp only [mem_rename ha, rewrites_iff]
  grind

theorem removeHardlink_mem_rename :
    .removeHardlink path ∈ g.renameEffects inc r ↔
      path ∉ g.content.current ∧ path ∉ g.symlinks.current ∧ path ∈ g.hardlinks.current ∧
        ∃ dst, Renamed r dst path := by
  simp only [mem_rename ha, rewrites_iff]
  grind

/-! ### Unlinks -/

theorem mem_unlink {e : Effect} :
    e ∈ g.unlinkEffects inc r ↔
      ∃ path ∈ r.unlinks, g.Unlinks path inc.base (some e) := by
  rw [mem_unlinkEffects]
  constructor
  · rintro ⟨path, hu, h⟩
    exact ⟨path, hu, mergeUnlink_ok h⟩
  · rintro ⟨path, hu, hs⟩
    obtain ⟨e', h, hs'⟩ := ha.unlinked hu
    refine ⟨path, hu, ?_⟩
    rw [h]
    -- what the path names decides the effect
    cases hs <;> cases hs' <;> first | rfl | contradiction

theorem removeContent_mem_unlink :
    .removeContent path ∈ g.unlinkEffects inc r ↔
      path ∈ r.unlinks ∧ path ∈ g.content.current ∧ path ∉ g.specials.current := by
  rw [mem_unlink ha]
  constructor
  · rintro ⟨path', hu, h⟩
    cases h with
    | file hs hc _ => exact ⟨hu, hc, hs⟩
  · rintro ⟨hu, hc, hs⟩
    obtain ⟨e, -, h⟩ := ha.unlinked hu
    cases h with
    | file hs hc hle => exact ⟨path, hu, .file hs hc hle⟩
    | _ => contradiction

theorem removeSymlink_mem_unlink :
    .removeSymlink path ∈ g.unlinkEffects inc r ↔
      path ∈ r.unlinks ∧ path ∈ g.symlinks.current ∧ path ∉ g.specials.current ∧
        path ∉ g.content.current := by
  rw [mem_unlink ha]
  constructor
  · rintro ⟨path', hu, h⟩
    cases h with
    | symlink hs hc hl _ => exact ⟨hu, hl, hs, hc⟩
  · rintro ⟨hu, hl, hs, hc⟩
    obtain ⟨e, -, h⟩ := ha.unlinked hu
    cases h with
    | symlink hs hc hl hle => exact ⟨path, hu, .symlink hs hc hl hle⟩
    | _ => contradiction

theorem removeHardlink_mem_unlink :
    .removeHardlink path ∈ g.unlinkEffects inc r ↔
      path ∈ r.unlinks ∧ path ∈ g.hardlinks.current ∧ path ∉ g.specials.current ∧
        path ∉ g.content.current ∧ path ∉ g.symlinks.current := by
  rw [mem_unlink ha]
  constructor
  · rintro ⟨path', hu, h⟩
    cases h with
    | hardlink hs hc hl hk _ => exact ⟨hu, hk, hs, hc, hl⟩
  · rintro ⟨hu, hk, hs, hc, hl⟩
    obtain ⟨e, -, h⟩ := ha.unlinked hu
    cases h with
    | hardlink hs hc hl hk hle => exact ⟨path, hu, .hardlink hs hc hl hk hle⟩
    | _ => contradiction

theorem removeSpecial_mem_unlink :
    .removeSpecial path ∈ g.unlinkEffects inc r ↔
      path ∈ r.unlinks ∧ path ∈ g.specials.current := by
  rw [mem_unlink ha]
  constructor
  · rintro ⟨path', hu, h⟩
    cases h with
    | special hs _ _ _ _ => exact ⟨hu, hs⟩
  · rintro ⟨hu, hs⟩
    obtain ⟨e, -, h⟩ := ha.unlinked hu
    cases h with
    | special hs h1 h2 h3 h4 => exact ⟨path, hu, .special hs h1 h2 h3 h4⟩
    | _ => contradiction

/-! ### Every effect -/

theorem setContent_mem_declared {bytes : Bytes} {ops : List Op} :
    .setContent path bytes ops ∈ g.createEffects inc r ++ g.editEffects inc r ↔
      (path ∈ r.creates ∧ path ∉ g.content.current ∧ bytes = createdBytes inc r path ∧
        ops = [insertWhole bytes.length]) ∨
      (∃ declared, (path, declared) ∈ r.edits ∧
        g.mergeContent inc path declared = .ok (some (.setContent path bytes ops))) := by
  simp only [List.mem_append, mem_createEffects, mem_editEffects]
  constructor
  · rintro (⟨path', hc, h⟩ | ⟨path', declared, hm, h⟩)
    · obtain ⟨-, ⟨-, hn⟩ | ⟨hfree, hs⟩⟩ := mergeCreate_ok h
      · cases hn
      · cases hs
        exact .inl ⟨hc, hfree, rfl, rfl⟩
    · cases mergeContent_ok h
      exact .inr ⟨declared, hm, h⟩
  · rintro (⟨hc, hfree, rfl, rfl⟩ | ⟨declared, hm, h⟩)
    · obtain ⟨e, h⟩ := ha.creates path hc
      refine .inl ⟨path, hc, ?_⟩
      obtain ⟨-, ⟨hcur, -⟩ | ⟨-, hs⟩⟩ := mergeCreate_ok h
      · exact absurd (mem_of_getElem? hcur) hfree
      · rw [h, hs]
    · exact .inr ⟨path, declared, hm, h⟩

theorem setContent_mem {bytes : Bytes} {ops : List Op} :
    .setContent path bytes ops ∈ g.acceptedEffects inc r ↔
      (∃ src, Renamed r path src ∧ g.content.current[src]? = some bytes ∧
        ops = [insertWhole bytes.length]) ∨
      (path ∈ r.creates ∧ path ∉ g.content.current ∧ bytes = createdBytes inc r path ∧
        ops = [insertWhole bytes.length]) ∨
      (∃ declared, (path, declared) ∈ r.edits ∧
        g.mergeContent inc path declared = .ok (some (.setContent path bytes ops))) := by
  have hunlink : .setContent path bytes ops ∉ g.unlinkEffects inc r := by
    rw [mem_unlink ha]
    rintro ⟨_, _, h⟩
    cases h
  rw [mem_acceptedEffects, setContent_mem_rename ha, or_iff_right hunlink]
  exact or_congr_right (setContent_mem_declared ha)

theorem removeContent_mem :
    .removeContent path ∈ g.acceptedEffects inc r ↔
      path ∈ g.content.current ∧
        ((∃ dst, Renamed r dst path) ∨ (path ∈ r.unlinks ∧ path ∉ g.specials.current)) := by
  rw [mem_acceptedEffects, removeContent_mem_rename ha, removeContent_mem_unlink ha]
  have hnone : .removeContent path ∉ g.declaredEffects inc r .content := by
    simp only [declaredEffects, List.mem_append, mem_createEffects, mem_editEffects]
    rintro (⟨path', -, h⟩ | ⟨path', declared, -, h⟩)
    · obtain ⟨-, ⟨-, hn⟩ | ⟨-, hs⟩⟩ := mergeCreate_ok h
      · cases hn
      · cases hs
    · cases mergeContent_ok h
  simp only [Effect.dim, hnone, or_false]
  tauto

theorem symlink_mem_declared {target : String} :
    .symlink path target ∈ g.symlinkEffects inc r ↔
      r.symlinks[path]? = some target ∧ g.symlinks.changedAt path ≤ inc.base := by
  rw [mem_symlinkEffects]
  constructor
  · rintro ⟨path', target', hs, h⟩
    obtain ⟨-, ⟨-, -, hn⟩ | ⟨hle, he⟩⟩ := mergeSymlink_ok h
    · cases hn
    · cases he
      exact ⟨hs, hle⟩
  · rintro ⟨hs, hle⟩
    obtain ⟨e, h⟩ := ha.symlinks path target hs
    refine ⟨path, target, hs, ?_⟩
    obtain ⟨-, ⟨hlt, -, -⟩ | ⟨-, he⟩⟩ := mergeSymlink_ok h
    · omega
    · rw [h, he]

theorem hardlink_mem_declared {target : Path} :
    .hardlink path target ∈ g.hardlinkEffects inc r ↔
      r.hardlinks[path]? = some target ∧ g.hardlinks.changedAt path ≤ inc.base := by
  rw [mem_hardlinkEffects]
  constructor
  · rintro ⟨path', target', hs, h⟩
    obtain ⟨-, ⟨-, -, hn⟩ | ⟨hle, he⟩⟩ := mergeHardlink_ok h
    · cases hn
    · cases he
      exact ⟨hs, hle⟩
  · rintro ⟨hs, hle⟩
    obtain ⟨e, h⟩ := ha.hardlinks path target hs
    refine ⟨path, target, hs, ?_⟩
    obtain ⟨-, ⟨hlt, -, -⟩ | ⟨-, he⟩⟩ := mergeHardlink_ok h
    · omega
    · rw [h, he]

end

theorem dim_renameEffects {e : Effect} (he : e ∈ g.renameEffects inc r) :
    e.dim = .content ∨ e.dim = .symlink ∨ e.dim = .hardlink := by
  obtain ⟨dst, src, effects, -, h, he⟩ := mem_renameEffects.mp he
  cases mergeRename_ok h <;> simp at he <;> rcases he with rfl | rfl <;> simp [Effect.dim]

theorem special_mem (ha : g.Accepts inc r) {node : SpecialNode} :
    .special path node ∈ g.acceptedEffects inc r ↔
      r.specials[path]? = some node ∧ g.specials.current[path]? ≠ some node := by
  have hren : .special path node ∉ g.renameEffects inc r := fun he => by
    simpa [Effect.dim] using dim_renameEffects he
  rw [mem_acceptedEffects, mem_unlink ha]
  simp only [hren, false_or, Effect.dim, declaredEffects, mem_specialEffects]
  constructor
  · rintro (⟨_, _, h⟩ | ⟨path', node', hs, h⟩)
    · cases h
    · obtain ⟨-, -, ⟨-, hn⟩ | ⟨hne, -, he⟩⟩ := mergeSpecial_ok h
      · cases hn
      · cases he
        exact ⟨hs, hne⟩
  · rintro ⟨hs, hne⟩
    obtain ⟨e, h⟩ := ha.specials path node hs
    refine .inr ⟨path, node, hs, ?_⟩
    obtain ⟨-, -, ⟨heq, -⟩ | ⟨-, -, he⟩⟩ := mergeSpecial_ok h
    · exact absurd heq hne
    · rw [h, he]

theorem removeSpecial_mem (ha : g.Accepts inc r) :
    .removeSpecial path ∈ g.acceptedEffects inc r ↔
      path ∈ r.unlinks ∧ path ∈ g.specials.current := by
  have hren : .removeSpecial path ∉ g.renameEffects inc r := fun he => by
    simpa [Effect.dim] using dim_renameEffects he
  have hnone : .removeSpecial path ∉ g.declaredEffects inc r .special := by
    simp only [declaredEffects, mem_specialEffects]
    rintro ⟨path', node, -, h⟩
    obtain ⟨-, -, ⟨-, hn⟩ | ⟨-, -, he⟩⟩ := mergeSpecial_ok h
    · cases hn
    · cases he
  rw [mem_acceptedEffects, removeSpecial_mem_unlink ha]
  simp only [Effect.dim, hren, hnone, or_false, false_or]

theorem dirEffect_mem (ha : g.Accepts inc r) {e : Effect} (hdim : e.dim = .dir) :
    e ∈ g.acceptedEffects inc r ↔
      (∃ path ∈ r.mkdirs, path ∉ g.dirs.current ∧ e = .makeDir path) ∨
        ∃ path ∈ r.rmdirs, path ∈ g.dirs.current ∧ e = .removeDir path := by
  have hren : e ∉ g.renameEffects inc r := fun he => by
    simpa [hdim] using dim_renameEffects he
  have hunlink : e ∉ g.unlinkEffects inc r := by
    rw [mem_unlink ha]
    rintro ⟨_, _, h⟩
    cases h <;> cases hdim
  rw [mem_acceptedEffects, hdim, or_iff_right hren, or_iff_right hunlink, declaredEffects,
    List.mem_append, mem_mkdirEffects, mem_rmdirEffects]
  refine or_congr ⟨?_, ?_⟩ ⟨?_, ?_⟩
  · rintro ⟨path, hm, h⟩
    obtain ⟨-, ⟨-, hn⟩ | ⟨hfree, he⟩⟩ := mergeMkdir_ok h
    · cases hn
    · exact ⟨path, hm, hfree, Option.some.inj he⟩
  · rintro ⟨path, hm, hfree, rfl⟩
    obtain ⟨e, h⟩ := ha.mkdirs path hm
    obtain ⟨-, ⟨hd, -⟩ | ⟨-, rfl⟩⟩ := mergeMkdir_ok h
    · exact absurd hd hfree
    · exact ⟨path, hm, h⟩
  · rintro ⟨path, hm, h⟩
    obtain ⟨-, ⟨-, hn⟩ | ⟨hd, -, he⟩⟩ := mergeRmdir_ok h
    · cases hn
    · exact ⟨path, hm, hd, Option.some.inj he⟩
  · rintro ⟨path, hm, hd, rfl⟩
    obtain ⟨e, h⟩ := ha.rmdirs path hm
    obtain ⟨-, ⟨hfree, -⟩ | ⟨-, -, rfl⟩⟩ := mergeRmdir_ok h
    · exact absurd hd hfree
    · exact ⟨path, hm, h⟩

theorem makeDir_mem (ha : g.Accepts inc r) :
    .makeDir path ∈ g.acceptedEffects inc r ↔ path ∈ r.mkdirs ∧ path ∉ g.dirs.current := by
  rw [dirEffect_mem ha (e := .makeDir path) rfl]
  simp

theorem removeDir_mem (ha : g.Accepts inc r) :
    .removeDir path ∈ g.acceptedEffects inc r ↔ path ∈ r.rmdirs ∧ path ∈ g.dirs.current := by
  rw [dirEffect_mem ha (e := .removeDir path) rfl]
  simp

end Sources

end Green

end Slates.Merge
