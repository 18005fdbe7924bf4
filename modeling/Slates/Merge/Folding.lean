import Slates.Merge.RunningIdentity

/-!
Folding is invisible at and above its floor: greens that agree from a floor on (`SameFrom`) read,
judge and commit alike there (`foldInvisible_run`).
-/

open Std (ExtTreeMap)

namespace Slates.Merge

namespace Green

/-- Two greens that no read at or above `floor` tells apart. What they retain below it, and their
identity's version, may differ. -/
structure SameFrom (floor : Nat) (g g' : Green) : Prop where
  content : Versioned.AgreeFrom floor g.content g'.content
  specials : Versioned.AgreeFrom floor g.specials g'.specials
  dirs : Versioned.AgreeFrom floor g.dirs g'.dirs
  modes : Versioned.AgreeFrom floor g.modes g'.modes
  symlinks : Versioned.AgreeFrom floor g.symlinks g'.symlinks
  hardlinks : Versioned.AgreeFrom floor g.hardlinks g'.hardlinks
  xattrs : Versioned.AgreeFrom floor g.xattrs g'.xattrs
  deltas : g.deltas = g'.deltas
  accepted : g.accepted = g'.accepted
  rejected : g.rejected = g'.rejected
  fastPathHits : g.fastPathHits = g'.fastPathHits

namespace SameFrom

variable {floor : Nat} {g g' : Green} {inc : Increment}

theorem refl (floor : Nat) (g : Green) : SameFrom floor g g :=
  ⟨.refl _ _, .refl _ _, .refl _ _, .refl _ _, .refl _ _, .refl _ _, .refl _ _, rfl, rfl, rfl, rfl⟩

/-! ## Reads -/

theorem head (h : SameFrom floor g g') : g.head = g'.head := by
  rw [Green.head, Green.head, h.deltas]

variable {version : Nat}

theorem contentAt (h : SameFrom floor g g') (hv : floor ≤ version) (path : Path) :
    g.contentAt path version = g'.contentAt path version :=
  h.content.value path version hv

private theorem snapshot_eq {K V : Type} [Ord K] [Std.TransOrd K] [Std.LawfulEqOrd K]
    [DecidableEq K] {m m' : Versioned K V} (h : Versioned.AgreeFrom floor m m')
    (hv : floor ≤ version) (head : Nat) : m.snapshot head version = m'.snapshot head version := by
  rw [Versioned.snapshot, Versioned.snapshot, h.current, h.valuesAt_eq hv]

section

variable (h : SameFrom floor g g')

include h

theorem filesAt (hv : floor ≤ version) : g.filesAt version = g'.filesAt version := by
  rw [Green.filesAt, Green.filesAt, h.head, snapshot_eq h.content hv]

theorem baseAt (hv : floor ≤ version) : g.baseAt version = g'.baseAt version := by
  unfold Green.baseAt currentBase
  rw [h.head, h.content.current, h.specials.current, h.dirs.current, h.modes.current,
    h.symlinks.current, h.hardlinks.current, h.xattrs.current, h.content.valuesAt_eq hv,
    h.specials.valuesAt_eq hv, h.dirs.valuesAt_eq hv, h.modes.valuesAt_eq hv,
    h.symlinks.valuesAt_eq hv, h.hardlinks.valuesAt_eq hv, h.xattrs.valuesAt_eq hv]

theorem baseFor (hv : floor ≤ version) (journal : List VolumeOp) :
    g.baseFor version journal = g'.baseFor version journal := by
  unfold Green.baseFor
  simp only [h.head, snapshot_eq h.content hv, snapshot_eq h.specials hv, snapshot_eq h.dirs hv,
    snapshot_eq h.modes hv, snapshot_eq h.symlinks hv, snapshot_eq h.hardlinks hv,
    snapshot_eq h.xattrs hv]

theorem changedBetween {since upto : Nat} (hs : floor ≤ since)
    (hu : floor ≤ upto) : g.changedBetween since upto = g'.changedBetween since upto := by
  have htouched : g.touchedBetween since upto = g'.touchedBetween since upto := by
    unfold touchedBetween
    rw [h.content.keysTouched_eq hs, h.specials.keysTouched_eq hs, h.dirs.keysTouched_eq hs,
      h.modes.keysTouched_eq hs, h.symlinks.keysTouched_eq hs, h.hardlinks.keysTouched_eq hs,
      h.xattrs.keysTouched_eq hs]
  have hcontains : ∀ target, g.specials.history.contains target =
      g'.specials.history.contains target := by
    intro target
    rw [Bool.eq_iff_iff, ExtTreeMap.contains_iff_mem, ExtTreeMap.contains_iff_mem]
    exact h.specials.keys target
  have halias : g.addAlias since upto = g'.addAlias since upto := by
    funext changed link
    unfold addAlias
    simp only [h.hardlinks.value link since hs, h.hardlinks.value link upto hu, hcontains]
  unfold Green.changedBetween
  rw [htouched, halias, h.hardlinks.keys_eq]

/-! ## Judgements -/

theorem occupiedByNonfile : g.occupiedByNonfile = g'.occupiedByNonfile := by
  funext path
  simp only [Green.occupiedByNonfile, h.dirs.current, h.symlinks.current, h.hardlinks.current,
    h.specials.current]

theorem specialKindChanged (hb : floor ≤ inc.base) (path : Path) :
    g.specialKindChanged path inc.base = g'.specialKindChanged path inc.base := by
  simp only [Green.specialKindChanged, h.specials.current, h.content.current, h.dirs.current,
    h.symlinks.current, h.hardlinks.current, h.specials.value path inc.base hb]

theorem metadataMissing : g.metadataMissing = g'.metadataMissing := by
  funext path established
  simp only [Green.metadataMissing, h.content.current, h.dirs.current, h.specials.current]

theorem fastPath : g.fastPath = g'.fastPath := by
  funext base path
  simp only [Green.fastPath, h.content.current, h.content.changedAt_eq]

theorem decideContent (hb : floor ≤ inc.base) (r : Resolved) :
    g.decideContent inc r = g'.decideContent inc r := by
  have hrename : g.mergeRename = g'.mergeRename := by
    funext dst base src
    simp only [mergeRename, h.occupiedByNonfile, h.content.current, h.symlinks.current,
      h.hardlinks.current, h.content.changedAt_eq]
  have hcreate : g.mergeCreate = g'.mergeCreate := by
    funext path bytes
    simp only [mergeCreate, h.occupiedByNonfile, h.content.current]
  have hunlink : g.mergeUnlink = g'.mergeUnlink := by
    funext path base
    simp only [mergeUnlink, h.specials.current, h.content.current, h.symlinks.current,
      h.hardlinks.current, h.specials.changedAt_eq, h.modes.changedAt_eq, h.xattrs.changed,
      h.content.changedAt_eq, h.symlinks.changedAt_eq, h.hardlinks.changedAt_eq]
  have hcontent : ∀ path ops, g.mergeContent inc path ops = g'.mergeContent inc path ops := by
    intro path ops
    have hdeltas : g.deltasSince inc.base path = g'.deltasSince inc.base path := by
      simp only [deltasSince, intervening, h.fastPath, h.deltas]
    unfold mergeContent
    rw [h.content.current, h.occupiedByNonfile, hdeltas, h.contentAt hb]
  simp only [Green.decideContent, hrename, hcreate, hunlink, hcontent]

theorem decideDirectories (r : Resolved) : g.decideDirectories r = g'.decideDirectories r := by
  have hmkdir : g.mergeMkdir = g'.mergeMkdir := by
    funext path
    simp only [mergeMkdir, h.content.current, h.dirs.current, h.symlinks.current,
      h.hardlinks.current, h.specials.current]
  have hchild : g.hasLiveChild = g'.hasLiveChild := by
    funext stem cleared
    simp only [hasLiveChild, h.content.current, h.dirs.current, h.symlinks.current,
      h.hardlinks.current, h.specials.current]
  have hrmdir : g.mergeRmdir = g'.mergeRmdir := by
    funext path cleared
    simp only [mergeRmdir, hchild, h.content.current, h.dirs.current, h.symlinks.current,
      h.hardlinks.current, h.specials.current]
  rw [Green.decideDirectories, Green.decideDirectories, hmkdir, hrmdir]

theorem decideMetadata (hb : floor ≤ inc.base) (r : Resolved) :
    g.decideMetadata inc r = g'.decideMetadata inc r := by
  simp only [Green.decideMetadata, mergeSetmode, mergeSymlink, mergeHardlink, mergeSetXattr,
    mergeRemoveXattr, h.metadataMissing, h.specialKindChanged hb, h.content.current,
    h.dirs.current, h.symlinks.current, h.hardlinks.current, h.specials.current,
    h.modes.current, h.xattrs.current, h.modes.changedAt_eq, h.symlinks.changedAt_eq,
    h.hardlinks.changedAt_eq, h.xattrs.changedAt_eq]

theorem decide (hb : floor ≤ inc.base) (r : Resolved) : g.decide inc r = g'.decide inc r := by
  have hspecial : g.mergeSpecial = g'.mergeSpecial := by
    funext path base node
    simp only [mergeSpecial, h.content.current, h.dirs.current, h.symlinks.current,
      h.hardlinks.current, h.specials.current, h.specials.changedAt_eq]
  have hunfit : g.unfitContent inc r = g'.unfitContent inc r := by
    simp only [unfitContent, editedLen, h.contentAt hb]
  have hjudgements : g.judgements inc r = g'.judgements inc r := by
    rw [judgements, judgements, hspecial, h.decideContent hb, h.decideDirectories,
      h.decideMetadata hb]
  unfold Green.decide refusals
  rw [hjudgements, hunfit]

end

/-! ## Commits -/

theorem onModes (version : Nat) {m m' : Versioned Path UInt32}
    (h : Versioned.AgreeFrom floor m m') (e : Effect) :
    Versioned.AgreeFrom floor (e.onModes version m) (e.onModes version m') := by
  cases e with
  | mode path value => exact h.write path (some value) version
  | removeSpecial path =>
    simp only [Effect.onModes, h.current]
    split
    · exact h.write path none version
    · exact h
  | _ => exact h

theorem onXattrs (version : Nat) {m m' : Versioned (Path × String) Bytes}
    (h : Versioned.AgreeFrom floor m m') (e : Effect) :
    Versioned.AgreeFrom floor (e.onXattrs version m) (e.onXattrs version m') := by
  cases e with
  | setXattr path name value => exact h.write (path, name) (some value) version
  | removeXattr path name => exact h.write (path, name) none version
  | removeSpecial path =>
    simp only [Effect.onXattrs, Effect.dropAttrs, h.current]
    exact h.writeAll version _
  | _ => exact h

private theorem foldl_agree {K V : Type} [Ord K] [Std.TransOrd K] [Std.LawfulEqOrd K]
    [DecidableEq K] {f : Versioned K V → Effect → Versioned K V}
    (hf : ∀ m m' e, Versioned.AgreeFrom floor m m' → Versioned.AgreeFrom floor (f m e) (f m' e))
    (effects : List Effect) {m m' : Versioned K V} (h : Versioned.AgreeFrom floor m m') :
    Versioned.AgreeFrom floor (effects.foldl f m) (effects.foldl f m') := by
  induction effects generalizing m m' with
  | nil => exact h
  | cons e effects ih => exact ih (hf m m' e h)

theorem commit (h : SameFrom floor g g') (effects : List Effect) (version : Nat) :
    SameFrom floor (g.commit effects version) (g'.commit effects version) := by
  obtain ⟨bytes, he⟩ := commit_eq g effects version
  obtain ⟨bytes', he'⟩ := commit_eq g' effects version
  rw [he, he']
  exact ⟨h.content.writeAll version _, h.specials.writeAll version _, h.dirs.writeAll version _,
    foldl_agree (fun _ _ e hm => onModes version hm e) effects h.modes,
    h.symlinks.writeAll version _, h.hardlinks.writeAll version _,
    foldl_agree (fun _ _ e hm => onXattrs version hm e) effects h.xattrs,
    congrArg (· ++ [deltaOf effects]) h.deltas, h.accepted, h.rejected, h.fastPathHits⟩

theorem countHits (h : SameFrom floor g g') (inc : Increment) (r : Resolved) :
    SameFrom floor (g.countHits inc r) (g'.countHits inc r) :=
  ⟨h.content, h.specials, h.dirs, h.modes, h.symlinks, h.hardlinks, h.xattrs, h.deltas,
    h.accepted, h.rejected, by
      simp only [Green.countHits, fastPathCount, h.fastPath, h.fastPathHits]⟩

/-- **One submit** with a base at or above the floor. -/
theorem submit (h : SameFrom floor g g') (hb : floor ≤ inc.base) :
    SameFrom floor (g.submit inc).1 (g'.submit inc).1 ∧ (g.submit inc).2 = (g'.submit inc).2 := by
  unfold Green.submit
  rw [h.accepted, h.rejected]
  cases g'.accepted[inc.id]? with
  | some version => exact ⟨h, rfl⟩
  | none =>
    cases g'.rejected.entries[inc.id]? with
    | some windows => exact ⟨h, rfl⟩
    | none =>
      dsimp only
      rw [h.decide hb, h.head]
      have hcounted := h.countHits inc (resolve inc)
      cases g'.decide inc (resolve inc) with
      | ok effects =>
        refine ⟨?_, rfl⟩
        have hc := hcounted.commit effects (g'.head + 1)
        exact ⟨hc.content, hc.specials, hc.dirs, hc.modes, hc.symlinks, hc.hardlinks, hc.xattrs,
          hc.deltas, rfl, hc.rejected, hc.fastPathHits⟩
      | error windows =>
        refine ⟨?_, rfl⟩
        exact ⟨hcounted.content, hcounted.specials, hcounted.dirs, hcounted.modes,
          hcounted.symlinks, hcounted.hardlinks, hcounted.xattrs, hcounted.deltas,
          hcounted.accepted, rfl, hcounted.fastPathHits⟩

end SameFrom

/-! ## The fold -/

theorem sameFrom_foldHistoryBefore (h : Blake3) (g : Green) (floor : Nat) :
    SameFrom floor g (g.foldHistoryBefore h floor).1 := by
  have hfold {K V : Type} [Ord K] [Std.TransOrd K] [Std.LawfulEqOrd K] [DecidableEq K]
      (m : Versioned K V) : Versioned.AgreeFrom floor m (m.foldBelow floor) :=
    Versioned.agreeFrom_foldBelow m floor floor le_rfl
  rw [foldHistoryBefore_fst]
  split
  · exact .refl floor g
  · split <;>
      exact ⟨hfold _, hfold _, hfold _, hfold _, hfold _, hfold _, hfold _, rfl, rfl, rfl, rfl⟩

theorem foldHistoryBefore_idem (h : Blake3) (g : Green) (floor : Nat) :
    (g.foldHistoryBefore h floor).1.foldHistoryBefore h floor =
      ((g.foldHistoryBefore h floor).1, 0) := by
  have hfolded : floor ≤ (g.foldHistoryBefore h floor).1.foldedBelow := by
    rw [foldHistoryBefore_fst]
    split
    · assumption
    · split <;> exact le_rfl
  rw [foldHistoryBefore, if_pos hfolded]

/-- What a fold must not change: reads at versions from the floor on, and submits with a base there,
with the green they leave. -/
structure FoldInvisible (h : Blake3) (g : Green) (floor : Nat) : Prop where
  contentAt : ∀ path version, floor ≤ version →
    (g.foldHistoryBefore h floor).1.contentAt path version = g.contentAt path version
  filesAt : ∀ version, floor ≤ version →
    (g.foldHistoryBefore h floor).1.filesAt version = g.filesAt version
  baseAt : ∀ version, floor ≤ version →
    (g.foldHistoryBefore h floor).1.baseAt version = g.baseAt version
  baseFor : ∀ version journal, floor ≤ version →
    (g.foldHistoryBefore h floor).1.baseFor version journal = g.baseFor version journal
  changedBetween : ∀ since upto, floor ≤ since → floor ≤ upto →
    (g.foldHistoryBefore h floor).1.changedBetween since upto = g.changedBetween since upto
  outcome : ∀ inc : Increment, floor ≤ inc.base →
    ((g.foldHistoryBefore h floor).1.submit inc).2 = (g.submit inc).2
  state : ∀ inc : Increment, floor ≤ inc.base →
    SameFrom floor (g.submit inc).1 ((g.foldHistoryBefore h floor).1.submit inc).1
  identity : ∀ inc : Increment, floor ≤ inc.base →
    (((g.foldHistoryBefore h floor).1.submit inc).1.headIdentity h).2 =
      ((g.submit inc).1.headIdentity h).2
  idempotent : (g.foldHistoryBefore h floor).1.foldHistoryBefore h floor =
    ((g.foldHistoryBefore h floor).1, 0)

theorem SameFrom.headIdentityFromScratch {floor : Nat} {g g' : Green} (hs : SameFrom floor g g')
    (h : Blake3) : g.headIdentityFromScratch h = g'.headIdentityFromScratch h := by
  unfold Green.headIdentityFromScratch recount currentEntries
  rw [hs.content.current, hs.specials.current, hs.dirs.current, hs.modes.current,
    hs.symlinks.current, hs.hardlinks.current, hs.xattrs.current]

/-- **Folding is invisible at and above the floor**, in every green a run leaves. -/
theorem foldInvisible_run (h : Blake3) (origin : Option Origin) (commands : List Command)
    (floor : Nat) : ((Green.opened h origin).run h commands).FoldInvisible h floor := by
  have hs := sameFrom_foldHistoryBefore h ((Green.opened h origin).run h commands) floor
  refine ⟨fun path _ hv => (hs.contentAt hv path).symm, fun _ hv => (hs.filesAt hv).symm,
    fun _ hv => (hs.baseAt hv).symm, fun _ journal hv => (hs.baseFor hv journal).symm,
    fun _ _ hv hw => (hs.changedBetween hv hw).symm, fun inc hb => (hs.submit hb).2.symm,
    fun inc hb => (hs.submit hb).1, fun inc hb => ?_, foldHistoryBefore_idem h _ floor⟩
  -- both greens are left by runs, so both identities are recounts of one head
  have hfolded := headIdentity_run h origin (commands ++ [.foldHistoryBefore floor, .submit inc])
  have hplain := headIdentity_run h origin (commands ++ [.submit inc])
  simp only [run, List.foldl_append, List.foldl_cons, List.foldl_nil] at hfolded hplain
  exact hfolded.trans (((hs.submit hb).1.headIdentityFromScratch h).symm.trans hplain.symm)

end Green

end Slates.Merge
