import Slates.Merge.Writes

/-!
A rebase against the submit it stands for. `submit` stages content removals before sets;
`rebasedFrom` takes the effects in the order they were decided. The files agree exactly when no file
renamed over another is then removed from there.
-/

open Std (ExtTreeMap)

namespace Slates.Merge

namespace Green

open Versioned (changesOf)

/-! ## The two readings of one list of effects -/

/-- The head's files with `changed` laid over them. -/
def overlay (files : PathMap Bytes) (changed : PathMap (Option Bytes)) (path : Path) :
    Option Bytes :=
  (changed[path]?).getD files[path]?

private theorem foldl_insert_writes (writes : List (Path × Option Bytes))
    (changed : PathMap (Option Bytes)) (path : Path) :
    (writes.foldl (fun changed w => changed.insert w.1 w.2) changed)[path]? =
      ((changesOf writes path).getLast?).or changed[path]? := by
  induction writes using List.reverseRecOn with
  | nil => simp
  | append_singleton writes w ih =>
    rw [List.foldl_concat, Versioned.changesOf_snoc, ExtTreeMap.getElem?_insert]
    by_cases h : w.1 = path
    · simp [h]
    · simp [h, ih]

theorem foldl_recordChanged (effects : List Effect) (path : Path) :
    (effects.foldl recordChanged ∅)[path]? = (contentChanges effects path).getLast? := by
  have hstep : ∀ changed e, recordChanged changed e =
      match e.contentWrite with
      | some w => changed.insert w.1 w.2
      | none => changed := by
    intro changed e
    cases e <;> rfl
  have hfold : effects.foldl recordChanged ∅ =
      (effects.filterMap Effect.contentWrite).foldl
        (fun changed w => changed.insert w.1 w.2) ∅ := by
    rw [List.foldl_filterMap]
    congr 1
    funext changed e
    rw [hstep]
    cases e.contentWrite <;> rfl
  rw [hfold, foldl_insert_writes, contentChanges]
  simp

theorem overlay_changed (g : Green) (effects : List Effect) (path : Path) :
    overlay g.content.current
        (pick (fun path after => if after = g.content.current[path]? then none else some after)
          (effects.foldl recordChanged ∅)) path =
      ((contentChanges effects path).getLast?).getD g.content.current[path]? := by
  rw [overlay, getElem?_pick, foldl_recordChanged]
  cases h : (contentChanges effects path).getLast? with
  | none => simp
  | some after =>
    by_cases heq : after = g.content.current[path]? <;> simp [heq]

/-! ## Where the two readings differ -/

/-- A file was renamed over the file at `path`, and the effects that follow remove it from there. -/
def ReplacedThenRemoved (g : Green) (r : Resolved) (path : Path) : Prop :=
  ∃ src, Renamed r path src ∧ src ∈ g.content.current ∧ path ∈ g.content.current ∧
    (path ∈ r.unlinks ∨ ∃ dst, path < dst ∧ r.renames[dst]? = some path)

section Differ

variable {g : Green} {inc : Increment} {r : Resolved} {path : Path}

theorem contentChanges_accepted :
    contentChanges (g.acceptedEffects inc r) path =
      contentChanges (g.renameEffects inc r) path ++ contentChanges (g.createEffects inc r) path ++
      contentChanges (g.unlinkEffects inc r) path ++ contentChanges (g.editEffects inc r) path := by
  have hf : ∀ e : Effect, e.dim ≠ .content → e.contentWrite = none := by
    intro e he
    cases e <;> simp_all [Effect.dim, Effect.contentWrite]
  rw [contentChanges, filterMap_acceptedEffects hf]
  simp [keepIf, contentChanges, Versioned.changesOf_append]

theorem contentChanges_unlink_eq_none (ha : g.Accepts inc r) {w : Option Bytes}
    (hw : w ∈ contentChanges (g.unlinkEffects inc r) path) : w = none := by
  cases w with
  | none => rfl
  | some bytes =>
    obtain ⟨ops, he⟩ := some_mem_contentChanges.mp hw
    obtain ⟨path', -, h⟩ := (mem_unlink ha).mp he
    cases h

theorem contentChanges_create {w : Option Bytes}
    (hw : w ∈ contentChanges (g.createEffects inc r) path) :
    w ≠ none ∧ path ∉ g.content.current := by
  cases w with
  | none =>
    obtain ⟨path', -, h⟩ := mem_createEffects.mp (none_mem_contentChanges.mp hw)
    obtain ⟨-, ⟨-, hn⟩ | ⟨-, hs⟩⟩ := mergeCreate_ok h
    · cases hn
    · cases hs
  | some bytes =>
    obtain ⟨ops, he⟩ := some_mem_contentChanges.mp hw
    obtain ⟨path', -, h⟩ := mem_createEffects.mp he
    obtain ⟨-, ⟨-, hn⟩ | ⟨hfree, hs⟩⟩ := mergeCreate_ok h
    · cases hn
    · cases hs
      exact ⟨by simp, hfree⟩

theorem contentChanges_edit {w : Option Bytes}
    (hw : w ∈ contentChanges (g.editEffects inc r) path) :
    w ≠ none ∧ path ∉ r.renames := by
  cases w with
  | none =>
    obtain ⟨path', ops, -, h⟩ := mem_editEffects.mp (none_mem_contentChanges.mp hw)
    cases mergeContent_ok h
  | some bytes =>
    obtain ⟨ops, he⟩ := some_mem_contentChanges.mp hw
    obtain ⟨path', ops', hm, h⟩ := mem_editEffects.mp he
    cases mergeContent_ok h
    exact ⟨by simp, (Resolved.mem_edits.mp hm).2.2⟩

/-- The effects of one declared rename. -/
private def renameOf (g : Green) (inc : Increment) (e : Path × Path) : List Effect :=
  okEffects ((g.mergeRename e.1 inc.base e.2).mapError ([·]))

theorem contentChanges_rename_split (ha : g.Accepts inc r) {src : Path} {bytes : Bytes}
    (hr : Renamed r path src) (hsrc : g.content.current[src]? = some bytes) :
    ∃ before after,
      contentChanges (g.renameEffects inc r) path = before ++ some bytes :: after ∧
      (∀ w ∈ after, w = none) ∧
      (none ∈ after ↔ path ∈ g.content.current ∧
        ∃ dst, path < dst ∧ r.renames[dst]? = some path) := by
  obtain ⟨l, l', hl, hafter⟩ := toList_split hr.1
  have hmid : contentChanges (renameOf g inc (path, src)) path = [some bytes] := by
    obtain ⟨effects, h, hm⟩ := ha.moves hr.1
    rw [renameOf, h]
    cases hm with
    | itself heq => exact absurd heq hr.2
    | file bytes' _ hc =>
      rw [hsrc] at hc
      cases hc
      simp [Except.mapError, okEffects, contentChanges, changesOf, Effect.contentWrite, hr.2]
    | symlink _ _ hn _ => exact absurd (mem_of_getElem? hsrc) hn
    | hardlink _ _ hn _ _ => exact absurd (mem_of_getElem? hsrc) hn
  refine ⟨contentChanges (l.flatMap (renameOf g inc)) path,
    contentChanges (l'.flatMap (renameOf g inc)) path, ?_, ?_, ?_⟩
  · rw [← List.singleton_append, ← hmid, ← contentChanges_append, ← contentChanges_append,
      ← List.flatMap_cons, ← List.flatMap_append, ← hl]
    rfl
  · intro w hw
    cases w with
    | none => rfl
    | some bytes' =>
      obtain ⟨ops, he⟩ := some_mem_contentChanges.mp hw
      obtain ⟨⟨dst, src'⟩, hmem, he⟩ := List.mem_flatMap.mp he
      obtain ⟨effects, h, he⟩ := mem_okEffects_rename.mp he
      have hlt := ((hafter _ _).mp hmem).2
      cases mergeRename_ok h with
      | file _ _ _ =>
        simp only [List.mem_cons, Effect.setContent.injEq, reduceCtorEq, List.not_mem_nil,
          or_false] at he
        rw [← he.1, Std.ReflOrd.compare_self] at hlt
        cases hlt
      | _ => simp at he
  · rw [none_mem_contentChanges]
    constructor
    · intro he
      obtain ⟨⟨dst, src'⟩, hmem, he⟩ := List.mem_flatMap.mp he
      obtain ⟨effects, h, he⟩ := mem_okEffects_rename.mp he
      obtain ⟨hren, hlt⟩ := (hafter _ _).mp hmem
      cases mergeRename_ok h with
      | file _ _ hc =>
        simp only [List.mem_cons, Effect.removeContent.injEq, reduceCtorEq, List.not_mem_nil,
          or_false, false_or] at he
        subst he
        exact ⟨mem_of_getElem? hc, dst, compare_lt_iff_lt.mp hlt, hren⟩
      | _ => simp at he
    · rintro ⟨hc, dst, hlt, hren⟩
      obtain ⟨effects, h, hm⟩ := ha.moves hren
      refine List.mem_flatMap.mpr ⟨(dst, path),
        (hafter _ _).mpr ⟨hren, compare_lt_iff_lt.mpr hlt⟩,
          mem_okEffects_rename.mpr ⟨effects, h, ?_⟩⟩
      cases hm with
      | itself heq => exact absurd heq hlt.ne
      | file _ _ _ => simp
      | symlink _ _ hn _ => exact absurd hc hn
      | hardlink _ _ hn _ _ => exact absurd hc hn

/-- **Where the order of the effects shows.** -/
theorem set_then_removed_iff (ha : g.Accepts inc r) :
    ((∃ bytes, some bytes ∈ contentChanges (g.acceptedEffects inc r) path) ∧
        (contentChanges (g.acceptedEffects inc r) path).getLast? = some none) ↔
      g.ReplacedThenRemoved r path := by
  have hunlink : none ∈ contentChanges (g.unlinkEffects inc r) path ↔
      path ∈ r.unlinks ∧ path ∈ g.content.current ∧ path ∉ g.specials.current := by
    rw [none_mem_contentChanges, removeContent_mem_unlink ha]
  constructor
  · rintro ⟨⟨bytes, hset⟩, hlast⟩
    rw [contentChanges_accepted] at hset hlast
    -- an edit or a create would come last, as a set
    have hedit : contentChanges (g.editEffects inc r) path = [] := by
      by_contra hne
      rw [List.getLast?_append_of_ne_nil _ hne] at hlast
      exact (contentChanges_edit (List.mem_of_getLast? hlast)).1 rfl
    rw [hedit, List.append_nil] at hset hlast
    have hcreate : contentChanges (g.createEffects inc r) path = [] := by
      by_contra hne
      obtain ⟨w, hw⟩ := List.exists_mem_of_ne_nil _ hne
      have hun : contentChanges (g.unlinkEffects inc r) path = [] := by
        by_contra hne'
        obtain ⟨w', hw'⟩ := List.exists_mem_of_ne_nil _ hne'
        have hnone := contentChanges_unlink_eq_none ha hw'
        exact (contentChanges_create hw).2 (hunlink.mp (hnone ▸ hw')).2.1
      rw [hun, List.append_nil, List.getLast?_append_of_ne_nil _ hne] at hlast
      exact (contentChanges_create (List.mem_of_getLast? hlast)).1 rfl
    rw [hcreate, List.append_nil] at hset hlast
    -- so the set is a rename's
    rcases List.mem_append.mp hset with hset | hset
    · obtain ⟨ops, he⟩ := some_mem_contentChanges.mp hset
      obtain ⟨src, hr, hsrc, -⟩ := (setContent_mem_rename ha).mp he
      obtain ⟨before, after, hsplit, hnone, hafter⟩ := contentChanges_rename_split ha hr hsrc
      by_cases hun : contentChanges (g.unlinkEffects inc r) path = []
      · rw [hun, List.append_nil, hsplit] at hlast
        have hne : after ≠ [] := by
          rintro rfl
          simp at hlast
        obtain ⟨w, hw⟩ := List.exists_mem_of_ne_nil _ hne
        obtain ⟨hc, hdst⟩ := hafter.mp (hnone w hw ▸ hw)
        exact ⟨src, hr, mem_of_getElem? hsrc, hc, Or.inr hdst⟩
      · obtain ⟨w, hw⟩ := List.exists_mem_of_ne_nil _ hun
        obtain ⟨hu, hc, -⟩ := hunlink.mp (contentChanges_unlink_eq_none ha hw ▸ hw)
        exact ⟨src, hr, mem_of_getElem? hsrc, hc, Or.inl hu⟩
    · cases contentChanges_unlink_eq_none ha hset
  · rintro ⟨src, hr, hsrc, hc, hremoved⟩
    obtain ⟨bytes, hbytes⟩ := exists_getElem? hsrc
    obtain ⟨before, after, hsplit, hnone, hafter⟩ := contentChanges_rename_split ha hr hbytes
    have hcreate : contentChanges (g.createEffects inc r) path = [] :=
      List.eq_nil_iff_forall_not_mem.mpr fun w hw => (contentChanges_create hw).2 hc
    have hedit : contentChanges (g.editEffects inc r) path = [] :=
      List.eq_nil_iff_forall_not_mem.mpr fun w hw =>
        (contentChanges_edit hw).2 (mem_of_getElem? hr.1)
    rw [contentChanges_accepted, hcreate, hedit, hsplit, List.append_nil, List.append_nil,
      List.append_assoc, List.cons_append]
    refine ⟨⟨bytes, by simp⟩, ?_⟩
    -- the rest is not empty and only removes
    have hrest : none ∈ after ++ contentChanges (g.unlinkEffects inc r) path := by
      rw [List.mem_append]
      rcases hremoved with hu | hdst
      · right
        exact hunlink.mpr ⟨hu, hc, (ha.renamed_free hr).specials⟩
      · exact Or.inl (hafter.mpr ⟨hc, hdst⟩)
    have hne := List.ne_nil_of_mem hrest
    rw [List.getLast?_append_of_ne_nil _ (List.cons_ne_nil _ _), List.getLast?_cons,
      List.getLast?_eq_getLast_of_ne_nil hne]
    have hall : ∀ w ∈ after ++ contentChanges (g.unlinkEffects inc r) path, w = none := by
      intro w hw
      rcases List.mem_append.mp hw with hw | hw
      · exact hnone w hw
      · exact contentChanges_unlink_eq_none ha hw
    simp [hall _ (List.getLast_mem hne)]

end Differ

/-! ## Rebase and submit -/

/-- What a rebase promises against a submit of the same increment. -/
structure RebaseMatchesSubmit (g : Green) (inc : Increment) : Prop where
  verdict : (∃ version changed journal, (g.rebase inc).2 = .rebased version changed journal) ↔
    ∃ version, (g.submit inc).2 = .accepted version
  unchanged : (g.rebase inc).1 = g
  files : ∀ version changed journal, (g.rebase inc).2 = .rebased version changed journal →
    ∀ path, overlay g.content.current changed path = (g.submit inc).1.content.current[path]?

theorem submit_accepted_iff {g : Green} {inc : Increment} (hf : g.Fresh inc) :
    (∃ version, (g.submit inc).2 = .accepted version) ↔ g.Accepts inc (resolve inc) := by
  by_cases ha : g.Accepts inc (resolve inc)
  · rw [submit_of_accepts hf ha]
    simp [ha]
  · obtain ⟨windows, h⟩ := submit_of_not_accepts hf ha
    rw [h]
    simp [ha]

theorem rebase_of_accepts {g : Green} {inc : Increment} (ha : g.Accepts inc (resolve inc)) :
    g.rebase inc = (g, g.rebasedFrom (g.acceptedEffects inc (resolve inc)) g.head) := by
  have hd := (decide_eq_ok_iff g inc (resolve inc) _).mpr ⟨ha, rfl⟩
  unfold rebase
  simp only [hd]
  rfl

theorem rebase_of_not_accepts {g : Green} {inc : Increment} (ha : ¬ g.Accepts inc (resolve inc)) :
    ∃ windows, g.rebase inc = (g, .conflict windows) := by
  obtain ⟨windows, hd⟩ := decide_error_of_not_accepts ha
  refine ⟨windows, ?_⟩
  unfold rebase
  simp only [hd]
  rfl

theorem overlay_eq_submit_iff {g : Green} {inc : Increment} (hf : g.Fresh inc)
    (ha : g.Accepts inc (resolve inc)) (path : Path) :
    overlay g.content.current
        (pick (fun path after => if after = g.content.current[path]? then none else some after)
          ((g.acceptedEffects inc (resolve inc)).foldl recordChanged ∅)) path =
      (g.submit inc).1.content.current[path]? ↔
      ¬ g.ReplacedThenRemoved (resolve inc) path := by
  rw [overlay_changed, submit_of_accepts hf ha]
  simp only [commit_content, Versioned.current_writeAll, changesOf_contentWrites]
  rw [← set_then_removed_iff ha]
  exact getLast?_staged_iff _ _

/-- **A rebase is the submit** exactly when no file renamed over another is then removed from there
by the same increment. -/
theorem rebase_matches_submit_iff (g : Green) (inc : Increment) (hf : g.Fresh inc) :
    g.RebaseMatchesSubmit inc ↔
      (g.Accepts inc (resolve inc) → ∀ path, ¬ g.ReplacedThenRemoved (resolve inc) path) := by
  by_cases ha : g.Accepts inc (resolve inc)
  · have hr := rebase_of_accepts ha
    constructor
    · intro h _ path
      have hfiles := h.files g.head _ _ (by rw [hr]; rfl) path
      exact (overlay_eq_submit_iff hf ha path).mp hfiles
    · intro h
      refine ⟨?_, by rw [hr], ?_⟩
      · rw [submit_accepted_iff hf, hr]
        exact ⟨fun _ => ha, fun _ => ⟨_, _, _, rfl⟩⟩
      · intro version changed journal heq path
        rw [hr] at heq
        cases heq
        exact (overlay_eq_submit_iff hf ha path).mpr (h ha path)
  · obtain ⟨windows, hr⟩ := rebase_of_not_accepts ha
    constructor
    · exact fun _ hacc => absurd hacc ha
    · intro _
      refine ⟨?_, by rw [hr], ?_⟩
      · rw [submit_accepted_iff hf, hr]
        simp [ha]
      · intro version changed journal heq
        rw [hr] at heq
        cases heq

/-- A green that holds the files `a` and `b`. -/
def twoFiles : Green := withOrigin .zero ⟨[("a", [1]), ("b", [2])], [], [], [], [], [], []⟩

/-- One increment that renames `b` to `c`. -/
def renameOnce : Increment :=
  ⟨0, 0, ⟨⟨["b", "c"]⟩, [⟨.rename, 0, 1, 0, 0, 0⟩]⟩, [], []⟩

/-- One increment that renames `a` to `b` and `b` to `c`. -/
def renameChain : Increment :=
  ⟨0, 0, ⟨⟨["a", "b", "c"]⟩, [⟨.rename, 0, 1, 0, 0, 0⟩, ⟨.rename, 0, 2, 0, 0, 1⟩]⟩, [], []⟩

theorem rebase_matches_submit_renameOnce :
    twoFiles.Fresh renameOnce ∧ twoFiles.RebaseMatchesSubmit renameOnce := by
  have hf : twoFiles.Fresh renameOnce := ⟨by decide, by decide⟩
  refine ⟨hf, (rebase_matches_submit_iff _ _ hf).mpr ?_⟩
  rintro - path ⟨src, ⟨hr, -⟩, -, hc, -⟩
  have hren : (resolve renameOnce).renames = (∅ : PathMap Path).insert "c" "b" := by rfl
  rw [hren, ExtTreeMap.getElem?_insert] at hr
  have hpath : "c" = path := (by simpa using hr : "c" = path ∧ "b" = src).1
  subst hpath
  revert hc
  decide

/-- The submit leaves `a`'s bytes at `b`; the rebase says `b` is gone. -/
theorem rebase_drops_chained_rename : ¬ twoFiles.RebaseMatchesSubmit renameChain := by
  intro h
  have hb := h.files 0 _ _ rfl "b"
  revert hb
  decide

end Green

end Slates.Merge
