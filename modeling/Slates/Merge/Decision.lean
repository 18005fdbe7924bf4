import Slates.Merge.Effects

/-!
What a decision is: it accepts when every declared change is judged acceptable (`Accepts`), and its
effects are then `acceptedEffects` (`decide_eq_ok_iff`).
-/

open Std (ExtTreeMap ExtTreeSet)

namespace Slates.Merge

namespace Green

def okEffects : Judgement → List Effect
  | .ok effects => effects
  | .error _ => []

def errWindows : Judgement → List ConflictWindow
  | .ok _ => []
  | .error windows => windows

theorem foldl_file (js : List Judgement) (v : Verdicts) :
    js.foldl Verdicts.file v =
      ⟨v.effects ++ js.flatMap okEffects, v.windows ++ js.flatMap errWindows⟩ := by
  induction js generalizing v with
  | nil => simp
  | cons j js ih =>
    rw [List.foldl_cons, ih]
    cases j <;> simp [Verdicts.file, okEffects, errWindows]

def okOne : Judged → List Effect
  | .ok effect => effect.toList
  | .error _ => []

@[simp] theorem okEffects_single (j : Judged) : okEffects (single j) = okOne j := by
  cases j <;> rfl

/-! ## The effects, dimension by dimension -/

section Parts

variable (g : Green) (inc : Increment) (r : Resolved)

def specialEffects : List Effect :=
  r.specials.toList.flatMap (fun e => okOne (g.mergeSpecial e.1 inc.base e.2))

def renameEffects : List Effect :=
  r.renames.toList.flatMap
    (fun e => okEffects ((g.mergeRename e.1 inc.base e.2).mapError ([·])))

def createdBytes (path : Path) : Bytes := apply [] (r.content.getD path []) inc.postState

def createEffects : List Effect :=
  r.creates.toList.flatMap (fun path => okOne (g.mergeCreate path (createdBytes inc r path)))

def unlinkEffects : List Effect :=
  r.unlinks.toList.flatMap (fun path => okOne (g.mergeUnlink path inc.base))

def editEffects : List Effect :=
  r.edits.flatMap (fun e => okEffects ((g.mergeContent inc e.1 e.2).map Option.toList))

def mkdirEffects : List Effect := r.mkdirs.toList.flatMap (fun path => okOne (g.mergeMkdir path))

def rmdirEffects : List Effect :=
  r.rmdirs.toList.flatMap (fun path => okOne (g.mergeRmdir path r.cleared))

def modeEffects : List Effect :=
  r.modes.toList.flatMap
    (fun e => okOne (g.mergeSetmode e.1 inc.base e.2 (r.establishes e.1)))

def symlinkEffects : List Effect :=
  r.symlinks.toList.flatMap (fun e => okOne (g.mergeSymlink e.1 inc.base e.2))

def hardlinkEffects : List Effect :=
  r.hardlinks.toList.flatMap (fun e => okOne (g.mergeHardlink e.1 inc.base e.2))

def xattrSetEffects : List Effect :=
  r.xattrSets.flatMap
    (fun e => okOne (g.mergeSetXattr e.1 e.2.1 inc.base e.2.2 (r.establishes e.1)))

def xattrRemoveEffects : List Effect :=
  r.xattrRemoves.flatMap (fun e => okOne (g.mergeRemoveXattr e.1 e.2 inc.base))

def acceptedEffects : List Effect :=
  g.specialEffects inc r ++ g.renameEffects inc r ++ g.createEffects inc r ++
  g.unlinkEffects inc r ++ g.editEffects inc r ++ g.mkdirEffects r ++ g.rmdirEffects r ++
  g.modeEffects inc r ++ g.symlinkEffects inc r ++ g.hardlinkEffects inc r ++
  g.xattrSetEffects inc r ++ g.xattrRemoveEffects inc r

theorem flatMap_judgements : (g.judgements inc r).flatMap okEffects = g.acceptedEffects inc r := by
  simp only [judgements, decideContent, decideDirectories, decideMetadata, acceptedEffects,
    specialEffects, renameEffects, createEffects, unlinkEffects, editEffects, mkdirEffects,
    rmdirEffects, modeEffects, symlinkEffects, hardlinkEffects, xattrSetEffects,
    xattrRemoveEffects, createdBytes, List.flatMap_append, List.flatMap_map, okEffects_single,
    List.append_assoc]

end Parts

/-! ## When a decision accepts -/

/-- A change of one path is judged acceptable. -/
def Accepted {α β : Type} (judged : Except α β) : Prop := ∃ b, judged = .ok b

theorem accepted_iff_errWindows_single (j : Judged) : Accepted j ↔ errWindows (single j) = [] := by
  cases j <;> simp [Accepted, single, errWindows]

structure Accepts (g : Green) (inc : Increment) (r : Resolved) : Prop where
  valid : ∀ path, path ∉ r.invalid
  fits : ∀ path ops, r.content[path]? = some ops →
    fitsBase ops (g.editedLen inc r path) inc.postState.length = true
  specials : ∀ path node, r.specials[path]? = some node →
    Accepted (g.mergeSpecial path inc.base node)
  renames : ∀ dst src, r.renames[dst]? = some src → Accepted (g.mergeRename dst inc.base src)
  creates : ∀ path ∈ r.creates, Accepted (g.mergeCreate path (createdBytes inc r path))
  unlinks : ∀ path ∈ r.unlinks, Accepted (g.mergeUnlink path inc.base)
  edits : ∀ path ops, (path, ops) ∈ r.edits → Accepted (g.mergeContent inc path ops)
  mkdirs : ∀ path ∈ r.mkdirs, Accepted (g.mergeMkdir path)
  rmdirs : ∀ path ∈ r.rmdirs, Accepted (g.mergeRmdir path r.cleared)
  modes : ∀ path mode, r.modes[path]? = some mode →
    Accepted (g.mergeSetmode path inc.base mode (r.establishes path))
  symlinks : ∀ path target, r.symlinks[path]? = some target →
    Accepted (g.mergeSymlink path inc.base target)
  hardlinks : ∀ path target, r.hardlinks[path]? = some target →
    Accepted (g.mergeHardlink path inc.base target)
  xattrSets : ∀ e ∈ r.xattrSets,
    Accepted (g.mergeSetXattr e.1 e.2.1 inc.base e.2.2 (r.establishes e.1))
  xattrRemoves : ∀ e ∈ r.xattrRemoves, Accepted (g.mergeRemoveXattr e.1 e.2 inc.base)

theorem accepted_iff_errWindows_rename (j : Except ConflictWindow (List Effect)) :
    Accepted j ↔ errWindows (j.mapError ([·])) = [] := by
  cases j <;> simp [Accepted, Except.mapError, errWindows]

theorem mergeContent_ne_error_nil (g : Green) (inc : Increment) (path : Path) (ops : List Op) :
    g.mergeContent inc path ops ≠ .error [] := by
  unfold mergeContent
  split
  · split <;> simp
  · dsimp only
    split
    · split <;> simp
    · split
      · rename_i hdiff
        simpa using hdiff
      · split <;> simp

theorem accepted_iff_errWindows_content (g : Green) (inc : Increment) (path : Path)
    (ops : List Op) :
    Accepted (g.mergeContent inc path ops) ↔
      errWindows ((g.mergeContent inc path ops).map Option.toList) = [] := by
  have hne := mergeContent_ne_error_nil g inc path ops
  cases h : g.mergeContent inc path ops with
  | ok effect => simp [Accepted, Except.map, errWindows]
  | error windows =>
    rw [h] at hne
    simpa [Accepted, Except.map, errWindows] using hne

theorem refusals_eq_nil_iff (g : Green) (inc : Increment) (r : Resolved) :
    g.refusals inc r = [] ↔ (∀ path, path ∉ r.invalid) ∧
      ∀ path ops, r.content[path]? = some ops →
        fitsBase ops (g.editedLen inc r path) inc.postState.length = true := by
  rw [refusals, List.map_eq_nil_iff, List.append_eq_nil_iff, unfitContent, List.map_eq_nil_iff,
    List.filter_eq_nil_iff]
  constructor
  · rintro ⟨hvalid, hfit⟩
    refine ⟨fun path hp => ?_, fun path ops hops => ?_⟩
    · rw [← ExtTreeSet.mem_toList, hvalid] at hp
      cases hp
    · simpa using hfit (path, ops) (ExtTreeMap.mem_toList_iff_getElem?_eq_some.mpr hops)
  · rintro ⟨hvalid, hfit⟩
    refine ⟨List.eq_nil_iff_forall_not_mem.mpr fun path hp => ?_, fun e he => ?_⟩
    · exact hvalid path (ExtTreeSet.mem_toList.mp hp)
    · simp [hfit e.1 e.2 (ExtTreeMap.mem_toList_iff_getElem?_eq_some.mp he)]

private theorem forall_mem_toList {V : Type} {m : PathMap V} {P : Path × V → Prop} :
    (∀ e ∈ m.toList, P e) ↔ ∀ path v, m[path]? = some v → P (path, v) := by
  constructor
  · exact fun h path v hv => h (path, v) (ExtTreeMap.mem_toList_iff_getElem?_eq_some.mpr hv)
  · exact fun h e he => h e.1 e.2 (ExtTreeMap.mem_toList_iff_getElem?_eq_some.mp he)

private theorem forall_mem_set_toList {s : PathSet} {P : Path → Prop} :
    (∀ path ∈ s.toList, P path) ↔ ∀ path ∈ s, P path := by
  simp only [ExtTreeSet.mem_toList]

theorem accepts_iff (g : Green) (inc : Increment) (r : Resolved) :
    g.Accepts inc r ↔
      g.refusals inc r = [] ∧ (g.judgements inc r).flatMap errWindows = [] := by
  rw [refusals_eq_nil_iff]
  simp only [judgements, decideContent, decideDirectories, decideMetadata, List.flatMap_append,
    List.append_eq_nil_iff, List.flatMap_map, List.flatMap_eq_nil_iff,
    ← accepted_iff_errWindows_single, ← accepted_iff_errWindows_rename,
    ← accepted_iff_errWindows_content, forall_mem_toList, forall_mem_set_toList]
  constructor
  · intro h
    exact ⟨⟨h.valid, h.fits⟩, ⟨⟨h.specials, ⟨⟨h.renames, h.creates⟩, h.unlinks⟩,
      fun e he => h.edits e.1 e.2 he⟩, h.mkdirs, h.rmdirs⟩,
      ⟨⟨⟨h.modes, h.symlinks⟩, h.hardlinks⟩, h.xattrSets⟩, h.xattrRemoves⟩
  · rintro ⟨⟨hvalid, hfits⟩, ⟨⟨hspecials, ⟨⟨hrenames, hcreates⟩, hunlinks⟩, hedits⟩,
      hmkdirs, hrmdirs⟩, ⟨⟨⟨hmodes, hsymlinks⟩, hhardlinks⟩, hsets⟩, hremoves⟩
    exact ⟨hvalid, hfits, hspecials, hrenames, hcreates, hunlinks,
      fun path ops he => hedits (path, ops) he, hmkdirs, hrmdirs, hmodes, hsymlinks, hhardlinks,
      hsets, hremoves⟩

/-- **A decision accepts exactly when every change is acceptable.** -/
theorem decide_eq_ok_iff (g : Green) (inc : Increment) (r : Resolved) (effects : List Effect) :
    g.decide inc r = .ok effects ↔ g.Accepts inc r ∧ effects = g.acceptedEffects inc r := by
  rw [accepts_iff, decide, foldl_file, flatMap_judgements]
  simp only [List.nil_append, List.append_eq_nil_iff]
  split
  · rename_i h
    simp [h, eq_comm]
  · rename_i h
    simp only [h, false_and, reduceCtorEq]

/-! ## Submit and rebase through the decision -/

/-- An increment no earlier submit answered. -/
structure Fresh (g : Green) (inc : Increment) : Prop where
  accepted : g.accepted[inc.id]? = none
  rejected : g.rejected.entries[inc.id]? = none

theorem submit_of_accepts {g : Green} {inc : Increment} (hf : g.Fresh inc)
    (ha : g.Accepts inc (resolve inc)) :
    g.submit inc =
      ({ (g.countHits inc (resolve inc)).commit (g.acceptedEffects inc (resolve inc)) (g.head + 1)
          with accepted := g.accepted.insert inc.id (g.head + 1) },
        .accepted (g.head + 1)) := by
  have hd := (decide_eq_ok_iff g inc (resolve inc) _).mpr ⟨ha, rfl⟩
  unfold submit
  simp only [hf.accepted, hf.rejected, hd]

theorem decide_error_of_not_accepts {g : Green} {inc : Increment} {r : Resolved}
    (ha : ¬ g.Accepts inc r) : ∃ windows, g.decide inc r = .error windows := by
  cases hd : g.decide inc r with
  | ok effects => exact absurd ((decide_eq_ok_iff g inc r effects).mp hd).1 ha
  | error windows => exact ⟨windows, rfl⟩

theorem submit_of_not_accepts {g : Green} {inc : Increment} (hf : g.Fresh inc)
    (ha : ¬ g.Accepts inc (resolve inc)) :
    ∃ windows, g.submit inc =
      ({ g.countHits inc (resolve inc) with rejected := g.rejected.retain inc.id windows },
        .conflict windows) := by
  obtain ⟨windows, hd⟩ := decide_error_of_not_accepts ha
  refine ⟨windows, ?_⟩
  unfold submit
  simp only [hf.accepted, hf.rejected, hd]

end Green

end Slates.Merge
