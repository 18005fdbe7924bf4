import Slates.Merge.Parents

/-!
Modes and attributes and the paths they belong to. Removing an IPC node takes its metadata along;
removing a file or a directory, or renaming a file away, leaves it. Where no increment removes a
path that still has some, no metadata outlives its path.
-/

open Std (ExtTreeMap ExtTreeSet)

namespace Slates.Merge

namespace Green

/-- A file, a directory or an IPC node stands at `path`. -/
def Named (g : Green) (path : Path) : Prop :=
  path ∈ g.content.current ∨ path ∈ g.dirs.current ∨ path ∈ g.specials.current

structure MetaNamed (g : Green) : Prop where
  modes : ∀ path ∈ g.modes.current, g.Named path
  xattrs : ∀ key ∈ g.xattrs.current, g.Named key.1

/-- The increment takes away the file, the directory or the IPC node at `path`. -/
def Removes (g : Green) (inc : Increment) (path : Path) : Prop :=
  g.FileGone inc path ∨ g.DirGone inc path ∨ g.SpecialGone inc path

/-- The increment puts a file, a directory or an IPC node at `path`. -/
def Puts (g : Green) (inc : Increment) (path : Path) : Prop :=
  (path ∈ (resolve inc).creates ∧ path ∉ g.content.current) ∨
    (∃ src, Renamed (resolve inc) path src ∧ src ∈ g.content.current) ∨ g.DirMade inc path ∨
    path ∈ (resolve inc).specials

/-- Some metadata of `path` stays, or is set by the increment. -/
def MetaStays (g : Green) (inc : Increment) (path : Path) : Prop :=
  (path ∈ g.modes.current ∧ ¬ g.ModeGone inc path) ∨ (∃ mode, g.ModeSet inc path mode) ∨
    ∃ name, ((path, name) ∈ g.xattrs.current ∧ ¬ g.XattrGone inc (path, name)) ∨
      ∃ value, g.XattrSet inc (path, name) value

/-- What the increment removes for good has no metadata that stays, and it sets none where it only
renames a link to. -/
structure KeepsMeta (g : Green) (inc : Increment) : Prop where
  removed : ∀ path, g.Removes inc path → g.MetaStays inc path → g.Puts inc path
  linked : ∀ path ∈ (resolve inc).renames, g.MetaStays inc path → g.Named path ∨ g.Puts inc path

section Step

variable {g : Green} {inc : Increment} {path : Path}

theorem Puts.committed (ha : g.Accepts inc (resolve inc)) (h : g.Puts inc path) :
    (g.committed inc).Named path := by
  rcases h with hc | ⟨src, hr, hin⟩ | hdir | hs
  · exact .inl ((wrote_content ha).mem_iff.mpr (.inl ⟨_, .inl ⟨hc.1, hc.2, rfl⟩⟩))
  · obtain ⟨bytes, hb⟩ := exists_getElem? hin
    exact .inl ((wrote_content ha).mem_iff.mpr (.inr (.inl ⟨bytes, src, hr, hb⟩)))
  · exact .inr (.inl (DirStays.mem_committed ha (.inl hdir)))
  · -- declared, or already there as declared
    refine .inr (.inr ((wrote_specials ha).mem_iff.mpr (.inr ?_)))
    obtain ⟨node, hnode⟩ := exists_getElem? hs
    by_cases hsame : g.specials.current[path]? = some node
    · exact .inr ⟨mem_of_getElem? hsame, fun hgone => ha.special_not_unlinked hnode hgone.1⟩
    · exact .inl ⟨node, hnode, hsame⟩

theorem Named.committed (ha : g.Accepts inc (resolve inc)) (hnamed : g.Named path)
    (hstays : ¬ g.Removes inc path) : (g.committed inc).Named path := by
  rcases hnamed with hin | hin | hin
  · exact .inl ((wrote_content ha).mem_iff.mpr (.inr (.inr ⟨hin, fun h => hstays (.inl h)⟩)))
  · exact .inr (.inl (DirStays.mem_committed ha (.inr ⟨hin, fun h => hstays (.inr (.inl h))⟩)))
  · refine .inr (.inr ((wrote_specials ha).mem_iff.mpr (.inr (.inr ⟨hin, fun h => ?_⟩))))
    exact hstays (.inr (.inr h))

/-- Metadata is only accepted for what is there, or what the increment declares there. -/
theorem Applies.named
    (happlies : g.Applies path inc.base ((resolve inc).establishes path)) :
    g.Named path ∨ g.Puts inc path ∨ path ∈ (resolve inc).renames := by
  have hpresent := happlies.present
  simp only [metadataMissing, Resolved.establishes, Bool.and_eq_false_iff, Bool.not_eq_false',
    Bool.or_eq_true, ExtTreeMap.contains_iff_mem, ExtTreeSet.contains_iff_mem] at hpresent
  rcases hpresent with ((hin | hin) | hin) | (((hc | hd) | hr) | hs)
  · exact .inl (.inl hin)
  · exact .inl (.inr (.inl hin))
  · exact .inl (.inr (.inr hin))
  · by_cases hin : path ∈ g.content.current
    · exact .inl (.inl hin)
    · exact .inr (.inl (.inl ⟨hc, hin⟩))
  · by_cases hin : path ∈ g.dirs.current
    · exact .inl (.inr (.inl hin))
    · exact .inr (.inl (.inr (.inr (.inl ⟨hd, hin⟩))))
  · exact .inr (.inr hr)
  · exact .inr (.inl (.inr (.inr (.inr hs))))

theorem MetaStays.named (ha : g.Accepts inc (resolve inc)) (hnamed : g.MetaNamed)
    (hstays : g.MetaStays inc path) :
    g.Named path ∨ g.Puts inc path ∨ path ∈ (resolve inc).renames := by
  rcases hstays with ⟨hin, -⟩ | ⟨mode, hset⟩ | ⟨name, ⟨hin, -⟩ | ⟨value, hset⟩⟩
  · exact .inl (hnamed.modes path hin)
  · obtain ⟨e, hok⟩ := ha.modes path mode hset.1
    exact (mergeSetmode_ok hok).1.named
  · exact .inl (hnamed.xattrs (path, name) hin)
  · obtain ⟨e, hmem, heq⟩ := List.mem_filterMap.mp (List.mem_of_getLast? hset.1)
    split at heq
    · rename_i hkey
      cases hkey
      obtain ⟨effect, hok⟩ := ha.xattrSets e hmem
      exact (mergeSetXattr_ok hok).1.named
    · cases heq

/-- **One commit** leaves no metadata without its path. -/
theorem MetaNamed.committed (hnamed : g.MetaNamed) (ha : g.Accepts inc (resolve inc))
    (hkeeps : g.KeepsMeta inc) : (g.committed inc).MetaNamed := by
  have hstep : ∀ path, g.MetaStays inc path → (g.committed inc).Named path := by
    intro path hstays
    have hput : g.Named path ∨ g.Puts inc path := by
      rcases hstays.named ha hnamed with hin | hput | hr
      · exact .inl hin
      · exact .inr hput
      · exact hkeeps.linked path hr hstays
    by_cases hgone : g.Removes inc path
    · exact (hkeeps.removed path hgone hstays).committed ha
    · rcases hput with hin | hput
      · exact hin.committed ha hgone
      · exact hput.committed ha
  refine ⟨fun path hin => hstep path ?_, fun key hin => hstep key.1 ?_⟩
  · rcases (wrote_modes ha).mem_iff.mp hin with hset | ⟨_, h⟩ | hkept
    · exact .inr (.inl hset)
    · exact absurd h id
    · exact .inl hkept
  · rcases (wrote_xattrs ha).mem_iff.mp hin with hset | ⟨_, h⟩ | hkept
    · exact .inr (.inr ⟨key.2, .inr hset⟩)
    · exact absurd h id
    · exact .inr (.inr ⟨key.2, .inl hkept⟩)

end Step

/-- **No metadata outlives its path**, from a green whose metadata is all named, in a run whose
increments remove for good only what has none. -/
theorem metaNamed_run (h : Blake3) (g : Green) (commands : List Command) (hnamed : g.MetaNamed)
    (hmeets : RunMeets (fun g inc => g.Commits inc → g.KeepsMeta inc) h g commands) (n : Nat) :
    (g.run h (commands.take n)).MetaNamed :=
  run_invariant (fun _ _ _ hp => ⟨hp.modes, hp.xattrs⟩) (fun _ hp => ⟨hp.modes, hp.xattrs⟩)
    (foldHistoryBefore_invariant (fun _ hp => ⟨hp.modes, hp.xattrs⟩)
      (fun _ _ hp => ⟨hp.modes, hp.xattrs⟩))
    (fun _ _ hp hkeeps hcommits => hp.committed hcommits.accepts (hkeeps hcommits)) hnamed
    (hmeets.take n)

/-! ## A mode left behind -/

/-- An origin with the file `a` and its mode, and the file `b` without one. -/
def fileWithMode : Origin := ⟨[("a", [1]), ("b", [2])], [], [("a", 0o600)], [], [], [], []⟩

/-- The increment that unlinks `a`. -/
def unlinkA : Increment := ⟨1, 0, ⟨⟨["a"]⟩, [⟨.unlink, 0, 0, 0, 0, u64Max⟩]⟩, [], []⟩

/-- The increment that creates `a` again, empty. -/
def createA : Increment := ⟨2, 1, ⟨⟨["a"]⟩, [⟨.create, 0, 0, 0, 0, u64Max⟩]⟩, [], []⟩

/-- The increment that unlinks `b`. -/
def unlinkB : Increment := ⟨3, 0, ⟨⟨["b"]⟩, [⟨.unlink, 0, 0, 0, 0, u64Max⟩]⟩, [], []⟩

theorem metaNamed_fileWithMode : (opened .zero (some fileWithMode)).MetaNamed where
  modes := by
    intro path hin
    have hcur : (opened .zero (some fileWithMode)).modes.current =
        (∅ : PathMap UInt32).insert "a" 0o600 := rfl
    rw [hcur] at hin
    rw [eq_of_mem_insert_empty hin]
    exact .inl (by decide)
  xattrs := fun key hin => absurd hin ExtTreeMap.not_mem_empty

theorem metaNamed_run_unlinkB : (opened .zero (some fileWithMode)).MetaNamed ∧
    ∀ n, ((opened .zero (some fileWithMode)).run .zero ([.submit unlinkB].take n)).MetaNamed := by
  refine ⟨metaNamed_fileWithMode,
    metaNamed_run .zero _ _ metaNamed_fileWithMode ⟨fun inc heq _ => ?_, trivial⟩⟩
  cases heq
  refine ⟨fun path hgone hstays => absurd hstays ?_,
    fun path hr => absurd hr ExtTreeMap.not_mem_empty⟩
  have hpath : path = "b" := by
    rcases hgone with ⟨-, ⟨dst, hr, -⟩ | ⟨hu, -⟩⟩ | ⟨hd, -⟩ | ⟨-, hs⟩
    · exact absurd (mem_of_getElem? hr) ExtTreeMap.not_mem_empty
    · have hcur : (resolve unlinkB).unlinks = (∅ : PathSet).insert "b" := rfl
      rw [hcur, ExtTreeSet.mem_insert, Std.LawfulEqCmp.compare_eq_iff_eq] at hu
      rcases hu with rfl | hu
      · rfl
      · exact absurd hu ExtTreeSet.not_mem_empty
    · exact absurd hd ExtTreeSet.not_mem_empty
    · exact absurd hs ExtTreeMap.not_mem_empty
  subst hpath
  rintro (⟨hin, -⟩ | ⟨mode, hset, -⟩ | ⟨name, ⟨hin, -⟩ | ⟨value, hset, -⟩⟩)
  · revert hin
    decide
  · cases hset
  · exact absurd hin ExtTreeMap.not_mem_empty
  · cases hset

/-- The unlink leaves the mode of `a`, and the file created there again has it. -/
theorem unlinkA_leaves_mode : (opened .zero (some fileWithMode)).MetaNamed ∧
    composeVolume ((opened .zero (some fileWithMode)).baseAt 0) [.unlink "a"] = .ok unlinkA.doc ∧
    ((opened .zero (some fileWithMode)).submit unlinkA).2 = .accepted 1 ∧
    ¬ ((opened .zero (some fileWithMode)).run .zero [.submit unlinkA]).MetaNamed ∧
    composeVolume (((opened .zero (some fileWithMode)).run .zero [.submit unlinkA]).baseAt 1)
      [.create "a"] = .ok createA.doc ∧
    (((opened .zero (some fileWithMode)).run .zero [.submit unlinkA]).submit createA).2 =
      .accepted 2 ∧
    ((opened .zero (some fileWithMode)).run .zero
      [.submit unlinkA, .submit createA]).modes.current["a"]? = some 0o600 := by
  refine ⟨metaNamed_fileWithMode, rfl, by decide, fun hnamed => ?_, rfl, by decide, by decide⟩
  have ha := hnamed.modes "a" (by decide)
  revert ha
  unfold Named
  decide

/-! ## A mode set on a link -/

/-- The increment that makes `b`, unlinked before, a symlink. -/
def symlinkB : Increment := ⟨4, 1, ⟨⟨["b", "x"]⟩, [⟨.symlink, 0, 0, 0, 0, 1⟩]⟩, [], []⟩

/-- The increment that renames the file `b` to `c` and sets its mode there. -/
def renameB : Increment :=
  ⟨5, 0, ⟨⟨["b", "c"]⟩, [⟨.rename, 0, 1, 0, 0, 0⟩, ⟨.setMode, 0, 1, 0, 0o600, u64Max⟩]⟩, [], []⟩

/-- The rename moves what stands at `b` by then, a symlink, and the mode is set all the same. -/
theorem renamed_symlink_takes_mode :
    composeVolume ((opened .zero (some fileWithMode)).baseAt 0) [.unlink "b"] = .ok unlinkB.doc ∧
    composeVolume (((opened .zero (some fileWithMode)).run .zero [.submit unlinkB]).baseAt 1)
      [.symlink "b" "x"] = .ok symlinkB.doc ∧
    composeVolume ((opened .zero (some fileWithMode)).baseAt 0)
      [.rename "b" "c", .setMode "c" 0o600] = .ok renameB.doc ∧
    (((opened .zero (some fileWithMode)).run .zero
      [.submit unlinkB, .submit symlinkB]).submit renameB).2 = .accepted 3 ∧
    ¬ ((opened .zero (some fileWithMode)).run .zero
      [.submit unlinkB, .submit symlinkB, .submit renameB]).MetaNamed := by
  refine ⟨rfl, rfl, rfl, by decide, fun hnamed => ?_⟩
  have hc := hnamed.modes "c" (by decide)
  revert hc
  unfold Named
  decide

end Green

end Slates.Merge
