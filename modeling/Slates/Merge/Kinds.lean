import Slates.Merge.Outcomes

/-!
One kind per path. Every merge rule checks the head alone, while one increment may declare several
kinds at one path. A step keeps one kind exactly when the increment it commits does.
-/

open Std (ExtTreeMap ExtTreeSet)

namespace Slates.Merge

inductive PathKind where
  | file | dir | symlink | hardlink | special
  deriving DecidableEq

namespace Green

/-- Whether `path` names something of a kind at the head. -/
def Holds (g : Green) (path : Path) : PathKind → Prop
  | .file => path ∈ g.content.current
  | .dir => path ∈ g.dirs.current
  | .symlink => path ∈ g.symlinks.current
  | .hardlink => path ∈ g.hardlinks.current
  | .special => path ∈ g.specials.current

instance (g : Green) (path : Path) : DecidablePred (g.Holds path)
  | .file => inferInstanceAs (Decidable (path ∈ g.content.current))
  | .dir => inferInstanceAs (Decidable (path ∈ g.dirs.current))
  | .symlink => inferInstanceAs (Decidable (path ∈ g.symlinks.current))
  | .hardlink => inferInstanceAs (Decidable (path ∈ g.hardlinks.current))
  | .special => inferInstanceAs (Decidable (path ∈ g.specials.current))

def OneKind (g : Green) : Prop := ∀ path k k', g.Holds path k → g.Holds path k' → k = k'

/-- Whether an increment puts something of a kind at `path`. -/
def Makes (g : Green) (r : Resolved) (path : Path) : PathKind → Prop
  | .file => (path ∈ r.creates ∧ path ∉ g.content.current) ∨
      ∃ src, Renamed r path src ∧ src ∈ g.content.current
  | .dir => path ∈ r.mkdirs
  | .symlink => path ∈ r.symlinks ∨
      ∃ src, Renamed r path src ∧ src ∉ g.content.current ∧ src ∈ g.symlinks.current
  | .hardlink => path ∈ r.hardlinks ∨
      ∃ src, Renamed r path src ∧ src ∉ g.content.current ∧ src ∉ g.symlinks.current ∧
        src ∈ g.hardlinks.current
  | .special => path ∈ r.specials

/-- Whether an increment leaves a file at `path`: one it puts there, or the head's, neither unlinked
nor renamed away. -/
def Leaves (g : Green) (r : Resolved) (path : Path) (k : PathKind) : Prop :=
  g.Makes r path k ∨
    (k = .file ∧ path ∈ g.content.current ∧ path ∉ r.unlinks ∧ ∀ dst, ¬ Renamed r dst path)

/-- An increment that leaves at most one kind at each path. -/
def KindsApart (g : Green) (r : Resolved) : Prop :=
  ∀ path k k', g.Leaves r path k → g.Leaves r path k' → k = k'

section Step

variable {g : Green} {inc : Increment} {path : Path}

variable {k k' : PathKind}

theorem FreeOfNonfile.eq_file (h : g.FreeOfNonfile path) (hh : g.Holds path k) : k = .file := by
  cases k with
  | file => rfl
  | dir => exact absurd hh h.dirs
  | symlink => exact absurd hh h.symlinks
  | hardlink => exact absurd hh h.hardlinks
  | special => exact absurd hh h.specials

theorem FreeOfNondir.eq_dir (h : g.FreeOfNondir path) (hh : g.Holds path k) : k = .dir := by
  cases k with
  | dir => rfl
  | file => exact absurd hh h.content
  | symlink => exact absurd hh h.symlinks
  | hardlink => exact absurd hh h.hardlinks
  | special => exact absurd hh h.specials

theorem FreeOfNonsymlink.eq_symlink (h : g.FreeOfNonsymlink path) (hh : g.Holds path k) :
    k = .symlink := by
  cases k with
  | symlink => rfl
  | file => exact absurd hh h.content
  | dir => exact absurd hh h.dirs
  | hardlink => exact absurd hh h.hardlinks
  | special => exact absurd hh h.specials

theorem FreeOfNonhardlink.eq_hardlink (h : g.FreeOfNonhardlink path) (hh : g.Holds path k) :
    k = .hardlink := by
  cases k with
  | hardlink => rfl
  | file => exact absurd hh h.content
  | dir => exact absurd hh h.dirs
  | symlink => exact absurd hh h.symlinks
  | special => exact absurd hh h.specials

theorem FreeOfNonspecial.eq_special (h : g.FreeOfNonspecial path) (hh : g.Holds path k) :
    k = .special := by
  cases k with
  | special => rfl
  | file => exact absurd hh h.content
  | dir => exact absurd hh h.dirs
  | symlink => exact absurd hh h.symlinks
  | hardlink => exact absurd hh h.hardlinks

theorem Makes.over_file {r : Resolved} (ha : g.Accepts inc r) (hm : g.Makes r path k)
    (hh : g.Holds path k') (hne : k' ≠ k) : k' = .file ∧ path ∈ r.renames := by
  have hren : ∀ {src}, Renamed r path src → k' = .file ∧ path ∈ r.renames := fun hr =>
    ⟨(ha.renamed_free hr).eq_file hh, mem_of_getElem? hr.1⟩
  cases k with
  | file =>
    rcases hm with ⟨hc, -⟩ | ⟨src, hr, -⟩
    · obtain ⟨e, h⟩ := ha.creates path hc
      exact absurd ((mergeCreate_ok h).1.eq_file hh) hne
    · exact hren hr
  | dir =>
    obtain ⟨e, h⟩ := ha.mkdirs path hm
    exact absurd ((mergeMkdir_ok h).1.eq_dir hh) hne
  | symlink =>
    rcases hm with hs | ⟨src, hr, -⟩
    · obtain ⟨target, ht⟩ := exists_getElem? hs
      obtain ⟨e, h⟩ := ha.symlinks path target ht
      exact absurd ((mergeSymlink_ok h).1.eq_symlink hh) hne
    · exact hren hr
  | hardlink =>
    rcases hm with hs | ⟨src, hr, -⟩
    · obtain ⟨target, ht⟩ := exists_getElem? hs
      obtain ⟨e, h⟩ := ha.hardlinks path target ht
      exact absurd ((mergeHardlink_ok h).1.eq_hardlink hh) hne
    · exact hren hr
  | special =>
    obtain ⟨node, hn⟩ := exists_getElem? hm
    obtain ⟨e, h⟩ := ha.specials path node hn
    exact absurd ((mergeSpecial_ok h).1.eq_special hh) hne

section

variable (ha : g.Accepts inc (resolve inc))

include ha

theorem holds_committed (hone : g.OneKind) (hh : (g.committed inc).Holds path k) :
    g.Makes (resolve inc) path k ∨
      (g.Holds path k ∧ (k = .file → path ∈ (resolve inc).renames →
        g.Leaves (resolve inc) path .file)) := by
  cases k with
  | file =>
    rcases (wrote_content ha).mem_iff.mp hh with
      ⟨_, ⟨hc, hn, -⟩ | ⟨declared, _, hm, h⟩⟩ | ⟨_, src, hr, hs⟩ | ⟨hc, hgone⟩
    · exact .inl (.inl ⟨hc, hn⟩)
    · have hcur : path ∈ g.content.current := by
        cases mergeContent_ok h with
        | spliced current _ hc _ _ _ => exact mem_of_getElem? hc
      exact .inr ⟨hcur, fun _ hr => absurd hr (Resolved.mem_edits.mp hm).2.2⟩
    · exact .inl (.inr ⟨src, hr, mem_of_getElem? hs⟩)
    · have hspecial : path ∉ g.specials.current := fun hs => by
        cases hone path .file .special hc hs
      exact .inr ⟨hc, fun _ _ => .inr ⟨rfl, hc, fun hu => hgone ⟨hc, .inr ⟨hu, hspecial⟩⟩,
        fun dst hr => hgone ⟨hc, .inl ⟨dst, hr⟩⟩⟩⟩
  | dir =>
    rcases (wrote_dirs ha).mem_iff.mp hh with ⟨_, hf⟩ | ⟨_, hm, -⟩ | ⟨hd, -⟩
    · cases hf
    · exact .inl hm
    · exact .inr ⟨hd, nofun⟩
  | symlink =>
    rcases (wrote_symlinks ha).mem_iff.mp hh with
      ⟨_, hs, -⟩ | ⟨_, src, hr, hn, hs⟩ | ⟨hs, -⟩
    · exact .inl (.inl (mem_of_getElem? hs))
    · exact .inl (.inr ⟨src, hr, hn, mem_of_getElem? hs⟩)
    · exact .inr ⟨hs, nofun⟩
  | hardlink =>
    rcases (wrote_hardlinks ha).mem_iff.mp hh with
      ⟨_, hs, -⟩ | ⟨_, src, hr, hn, hn', hs⟩ | ⟨hs, -⟩
    · exact .inl (.inl (mem_of_getElem? hs))
    · exact .inl (.inr ⟨src, hr, hn, hn', mem_of_getElem? hs⟩)
    · exact .inr ⟨hs, nofun⟩
  | special =>
    rcases (wrote_specials ha).mem_iff.mp hh with ⟨_, hf⟩ | ⟨_, hs, -⟩ | ⟨hs, -⟩
    · cases hf
    · exact .inl (mem_of_getElem? hs)
    · exact .inr ⟨hs, nofun⟩

theorem Makes.holds_committed (hm : g.Makes (resolve inc) path k)
    (hnew : k ≠ .file → ¬ g.Holds path k) : (g.committed inc).Holds path k := by
  cases k with
  | file =>
    refine (wrote_content ha).mem_iff.mpr ?_
    rcases hm with ⟨hc, hn⟩ | ⟨src, hr, hs⟩
    · exact .inl ⟨_, .inl ⟨hc, hn, rfl⟩⟩
    · obtain ⟨bytes, hs⟩ := exists_getElem? hs
      exact .inr (.inl ⟨bytes, src, hr, hs⟩)
  | dir => exact (wrote_dirs ha).mem_iff.mpr (.inr (.inl ⟨(), hm, hnew (by simp)⟩))
  | symlink =>
    refine (wrote_symlinks ha).mem_iff.mpr ?_
    rcases hm with hs | ⟨src, hr, hc, hs⟩
    · obtain ⟨target, hs⟩ := exists_getElem? hs
      obtain ⟨e, h⟩ := ha.symlinks path target hs
      obtain ⟨-, ⟨-, hcur, -⟩ | ⟨hle, -⟩⟩ := mergeSymlink_ok h
      · exact absurd (mem_of_getElem? hcur) (hnew (by simp))
      · exact .inl ⟨target, hs, hle⟩
    · obtain ⟨target, hs⟩ := exists_getElem? hs
      exact .inr (.inl ⟨target, src, hr, hc, hs⟩)
  | hardlink =>
    refine (wrote_hardlinks ha).mem_iff.mpr ?_
    rcases hm with hs | ⟨src, hr, hc, hl, hs⟩
    · obtain ⟨target, hs⟩ := exists_getElem? hs
      obtain ⟨e, h⟩ := ha.hardlinks path target hs
      obtain ⟨-, ⟨-, hcur, -⟩ | ⟨hle, -⟩⟩ := mergeHardlink_ok h
      · exact absurd (mem_of_getElem? hcur) (hnew (by simp))
      · exact .inl ⟨target, hs, hle⟩
    · obtain ⟨target, hs⟩ := exists_getElem? hs
      exact .inr (.inl ⟨target, src, hr, hc, hl, hs⟩)
  | special =>
    obtain ⟨node, hs⟩ := exists_getElem? hm
    exact (wrote_specials ha).mem_iff.mpr
      (.inr (.inl ⟨node, hs, fun hcur => hnew (by simp) (mem_of_getElem? hcur)⟩))

theorem holds_committed_of_left (hc : path ∈ g.content.current)
    (hu : path ∉ (resolve inc).unlinks) (hr : ∀ dst, ¬ Renamed (resolve inc) dst path) :
    (g.committed inc).Holds path .file := by
  refine (wrote_content ha).mem_iff.mpr (.inr (.inr ⟨hc, ?_⟩))
  rintro ⟨-, ⟨dst, h⟩ | ⟨h, -⟩⟩
  · exact hr dst h
  · exact hu h

theorem Leaves.holds_committed (hone : g.OneKind)
    (hk : g.Leaves (resolve inc) path k) (hk' : g.Leaves (resolve inc) path k') (hne : k ≠ k') :
    (g.committed inc).Holds path k := by
  rcases hk with hm | ⟨rfl, hc, hu, hr⟩
  · refine hm.holds_committed ha fun hfile hh => ?_
    rcases hk' with hm' | ⟨rfl, hc', -⟩
    · exact hfile (hm'.over_file ha hh hne).1
    · exact hne (hone path k .file hh hc')
  · exact holds_committed_of_left ha hc hu hr

/-- **One step.** -/
theorem oneKind_committed_iff (hone : g.OneKind) :
    (g.committed inc).OneKind ↔ g.KindsApart (resolve inc) := by
  constructor
  · intro hafter path k k' hk hk'
    by_contra hne
    exact hne (hafter path k k' (hk.holds_committed ha hone hk' hne)
      (hk'.holds_committed ha hone hk (Ne.symm hne)))
  · -- a made thing meets another kind only as a link over a file that stays
    have hmade : g.KindsApart (resolve inc) → ∀ {path k k'}, g.Makes (resolve inc) path k →
        g.Holds path k' → (k' = .file → path ∈ (resolve inc).renames →
          g.Leaves (resolve inc) path .file) → k = k' := by
      intro hapart path k k' hm hh hleft
      by_contra hne
      obtain ⟨rfl, hr⟩ := hm.over_file ha hh (Ne.symm hne)
      exact hne (hapart path k .file (.inl hm) (hleft rfl hr))
    intro hapart path k k' hh hh'
    rcases holds_committed ha hone hh with hm | ⟨hk, hleft⟩ <;>
      rcases holds_committed ha hone hh' with hm' | ⟨hk', hleft'⟩
    · exact hapart path k k' (.inl hm) (.inl hm')
    · exact hmade hapart hm hk' hleft'
    · exact (hmade hapart hm' hk hleft).symm
    · exact hone path k k' hk hk'

end

end Step

/-! ## Runs -/

theorem OneKind.step {h : Blake3} {g : Green} {c : Command} (hone : g.OneKind)
    (hcommit : ∀ inc, c = .submit inc → g.Commits inc → (g.committed inc).OneKind) :
    (g.step h c).OneKind :=
  step_invariant (fun _ _ _ hp => hp) (fun _ hp => hp)
    (foldHistoryBefore_invariant (fun _ hp => hp) (fun _ _ hp => hp)) hone hcommit

/-- **One kind per path, over runs**: every green a run passes through has one kind per path exactly
when every increment it commits leaves at most one. -/
theorem oneKind_run_iff (h : Blake3) (g : Green) (commands : List Command) (hone : g.OneKind) :
    (∀ n, (g.run h (commands.take n)).OneKind) ↔
      RunMeets (fun g inc => g.Commits inc → g.KindsApart (resolve inc)) h g commands := by
  induction commands generalizing g with
  | nil => simpa [run, RunMeets] using hone
  | cons c cs ih =>
    have hsplit : (∀ n, (g.run h ((c :: cs).take n)).OneKind) ↔
        (g.step h c).OneKind ∧ ∀ n, ((g.step h c).run h (cs.take n)).OneKind := by
      constructor
      · intro hall
        exact ⟨hall 1, fun n => hall (n + 1)⟩
      · rintro ⟨-, hrest⟩ n
        cases n with
        | zero => exact hone
        | succ n => exact hrest n
    rw [hsplit, RunMeets]
    constructor
    · rintro ⟨hstep, hrest⟩
      refine ⟨fun inc heq hc => ?_, (ih _ hstep).mp hrest⟩
      subst heq
      rw [Green.step, submit_of_commits hc] at hstep
      exact (oneKind_committed_iff hc.accepts hone).mp hstep
    · rintro ⟨hapart, hrest⟩
      have hstep : (g.step h c).OneKind := hone.step fun inc heq hc =>
        (oneKind_committed_iff hc.accepts hone).mpr (hapart inc heq hc)
      exact ⟨hstep, (ih _ hstep).mpr hrest⟩

theorem oneKind_new : Green.new.OneKind := by
  intro path k k' hh
  cases k <;> exact absurd hh ExtTreeMap.not_mem_empty

/-- One increment that makes the directory `d`. -/
def makeDirectory : Increment := ⟨0, 0, ⟨⟨["d"]⟩, [⟨.mkdir, 0, 0, 0, 0, 0⟩]⟩, [], []⟩

def makeBoth : Increment :=
  ⟨0, 0, ⟨⟨["d"]⟩, [⟨.create, 0, 0, 0, 0, 0⟩, ⟨.mkdir, 0, 0, 0, 0, 0⟩]⟩, [], []⟩

theorem oneKind_run_makeDirectory : Green.new.OneKind ∧
    ∀ n, (Green.new.run .zero ([.submit makeDirectory].take n)).OneKind := by
  refine ⟨oneKind_new, (oneKind_run_iff .zero .new _ oneKind_new).mpr ⟨?_, trivial⟩⟩
  intro inc heq _
  cases heq
  -- only a directory is left anywhere
  have hdir : ∀ {path k}, Green.new.Leaves (resolve makeDirectory) path k → k = .dir := by
    rintro path k (hm | ⟨-, hc, -⟩)
    · have hr : (resolve makeDirectory).renames = ∅ := rfl
      cases k with
      | dir => rfl
      | file =>
        rcases hm with ⟨hc, -⟩ | ⟨src, hs, -⟩
        · exact absurd hc ExtTreeSet.not_mem_empty
        · simp [Renamed, hr] at hs
      | symlink =>
        rcases hm with hs | ⟨src, hs, -⟩
        · exact absurd hs ExtTreeMap.not_mem_empty
        · simp [Renamed, hr] at hs
      | hardlink =>
        rcases hm with hs | ⟨src, hs, -⟩
        · exact absurd hs ExtTreeMap.not_mem_empty
        · simp [Renamed, hr] at hs
      | special => exact absurd hm ExtTreeMap.not_mem_empty
    · exact absurd hc ExtTreeMap.not_mem_empty
  intro path k k' hk hk'
  rw [hdir hk, hdir hk']

/-- Accepted, it leaves `d` both a file and a directory. -/
theorem makeBoth_mixes_kinds :
    (Green.new.submit makeBoth).2 = .accepted 1 ∧
      ¬ (Green.new.run .zero [.submit makeBoth]).OneKind := by
  refine ⟨by decide, fun hone => ?_⟩
  have hboth := hone "d" .file .dir (by decide) (by decide)
  cases hboth

end Green

end Slates.Merge
