import Slates.Merge.Kinds
import Slates.Merge.Outcomes

/-!
Every entry has its parent directory. Removing a directory is refused while something under it
stays, but nothing checks the parent of an entry that is put there: an increment based on a version
that had the directory is accepted after it was removed.
-/

open Std (ExtTreeMap ExtTreeSet)

namespace Slates.Merge

/-- The path up to its last separator; a top-level name has none. -/
def parent (path : Path) : Option Path :=
  match path.toList.reverse.dropWhile (· != '/') with
  | [] => none
  | _ :: stem => some (String.ofList stem.reverse)

theorem isPrefixOf_of_parent {path stem : Path} (h : parent path = some stem) :
    (stem ++ "/").toList.isPrefixOf path.toList = true := by
  unfold parent at h
  split at h
  · cases h
  rename_i c rest hdrop
  cases h
  have hc : c = '/' := by
    have := List.head?_dropWhile_not (fun c => c != '/') path.toList.reverse
    rw [hdrop] at this
    simpa using this
  subst hc
  have hsplit := List.takeWhile_append_dropWhile (p := (· != '/')) (l := path.toList.reverse)
  rw [hdrop] at hsplit
  have hpath := congrArg List.reverse hsplit
  rw [List.reverse_reverse, List.reverse_append, List.reverse_cons] at hpath
  rw [List.isPrefixOf_iff_prefix, ← hpath]
  simp

namespace Green

/-- Something stands at `path`. -/
def Occupied (g : Green) (path : Path) : Prop := ∃ k, g.Holds path k

/-- Everything below the top level has its parent directory. -/
def Rooted (g : Green) : Prop :=
  ∀ path stem, parent path = some stem → g.Occupied path → stem ∈ g.dirs.current

/-- The directory `path` is there after the increment. -/
def DirStays (g : Green) (inc : Increment) (path : Path) : Prop :=
  g.DirMade inc path ∨ (path ∈ g.dirs.current ∧ ¬ g.DirGone inc path)

/-- The increment puts something at `path`. -/
def Brings (r : Resolved) (path : Path) : Prop :=
  path ∈ r.creates ∨ path ∈ r.mkdirs ∨ path ∈ r.symlinks ∨ path ∈ r.hardlinks ∨
    path ∈ r.specials ∨ ∃ src, Renamed r path src

/-- The increment leaves nothing of what stands at `path`. -/
structure Clears (g : Green) (inc : Increment) (path : Path) : Prop where
  file : path ∈ g.content.current → g.FileGone inc path ∧ path ∉ (resolve inc).content
  dir : path ∈ g.dirs.current → g.DirGone inc path
  symlink : path ∈ g.symlinks.current → g.SymlinkGone inc path
  hardlink : path ∈ g.hardlinks.current → g.HardlinkGone inc path
  special : path ∈ g.specials.current → g.SpecialGone inc path

/-- What the increment brings has its parent, and what stands under a directory it removes really
goes when the increment lists it as cleared. -/
structure KeepsParents (g : Green) (inc : Increment) : Prop where
  brings : ∀ path stem, parent path = some stem → Brings (resolve inc) path → g.DirStays inc stem
  clears : ∀ path stem, parent path = some stem → g.DirGone inc stem → g.Occupied path →
    path ∈ (resolve inc).cleared → g.Clears inc path

section Step

variable {g : Green} {inc : Increment} {path : Path}

theorem mem_cleared_of_dirGone (ha : g.Accepts inc (resolve inc)) {stem : Path}
    (hgone : g.DirGone inc stem) (hparent : parent path = some stem) (hocc : g.Occupied path) :
    path ∈ (resolve inc).cleared := by
  obtain ⟨e, h⟩ := ha.rmdirs stem hgone.1
  obtain ⟨-, ⟨hno, -⟩ | ⟨-, hlive, -⟩⟩ := mergeRmdir_ok h
  · exact absurd hgone.2 hno
  by_contra hnot
  have hunder : ((stem ++ "/").toList.isPrefixOf path.toList &&
      !(resolve inc).cleared.contains path) = true := by
    rw [isPrefixOf_of_parent hparent, Bool.true_and, Bool.not_eq_true', ← Bool.not_eq_true,
      ExtTreeSet.contains_iff_mem]
    exact hnot
  have hany : ∀ {V : Type} {m : PathMap V}, path ∈ m → m.keys.any (fun path =>
      (stem ++ "/").toList.isPrefixOf path.toList && !(resolve inc).cleared.contains path) = true :=
    fun hm => List.any_eq_true.mpr ⟨path, ExtTreeMap.mem_keys.mpr hm, hunder⟩
  simp only [hasLiveChild, Bool.or_eq_false_iff] at hlive
  obtain ⟨⟨⟨⟨hfile, hdir⟩, hsymlink⟩, hhardlink⟩, hspecial⟩ := hlive
  obtain ⟨k, hk⟩ := hocc
  cases k with
  | file => exact absurd (hany hk) (by rw [hfile]; simp)
  | dir => exact absurd (hany hk) (by rw [hdir]; simp)
  | symlink => exact absurd (hany hk) (by rw [hsymlink]; simp)
  | hardlink => exact absurd (hany hk) (by rw [hhardlink]; simp)
  | special => exact absurd (hany hk) (by rw [hspecial]; simp)

theorem occupied_committed (ha : g.Accepts inc (resolve inc))
    (hocc : (g.committed inc).Occupied path) :
    Brings (resolve inc) path ∨ (g.Occupied path ∧ ¬ g.Clears inc path) := by
  obtain ⟨k, hk⟩ := hocc
  cases k with
  | file =>
    rcases (wrote_content ha).mem_iff.mp hk with ⟨bytes, hd⟩ | ⟨bytes, src, hr, -⟩ | ⟨hin, hstay⟩
    · rcases hd with ⟨hc, -⟩ | ⟨declared, ops, hm, h⟩
      · exact .inl (.inl hc)
      · -- an edit: the file was there, and the increment has ops for it
        have hin : path ∈ g.content.current := by
          cases mergeContent_ok h with
          | spliced current _ hcur _ _ _ => exact mem_of_getElem? hcur
        refine .inr ⟨⟨.file, hin⟩, fun hclears => (hclears.file hin).2 ?_⟩
        exact mem_of_getElem? (Resolved.mem_edits.mp hm).1
    · exact .inl (.inr (.inr (.inr (.inr (.inr ⟨src, hr⟩)))))
    · exact .inr ⟨⟨.file, hin⟩, fun hclears => hstay (hclears.file hin).1⟩
  | dir =>
    rcases (wrote_dirs ha).mem_iff.mp hk with ⟨_, h⟩ | ⟨_, hmade⟩ | ⟨hin, hstay⟩
    · exact absurd h id
    · exact .inl (.inr (.inl hmade.1))
    · exact .inr ⟨⟨.dir, hin⟩, fun hclears => hstay (hclears.dir hin)⟩
  | symlink =>
    rcases (wrote_symlinks ha).mem_iff.mp hk with ⟨_, hset⟩ | ⟨_, src, hr, -⟩ | ⟨hin, hstay⟩
    · exact .inl (.inr (.inr (.inl (mem_of_getElem? hset.1))))
    · exact .inl (.inr (.inr (.inr (.inr (.inr ⟨src, hr⟩)))))
    · exact .inr ⟨⟨.symlink, hin⟩, fun hclears => hstay (hclears.symlink hin)⟩
  | hardlink =>
    rcases (wrote_hardlinks ha).mem_iff.mp hk with ⟨_, hset⟩ | ⟨_, src, hr, -⟩ | ⟨hin, hstay⟩
    · exact .inl (.inr (.inr (.inr (.inl (mem_of_getElem? hset.1)))))
    · exact .inl (.inr (.inr (.inr (.inr (.inr ⟨src, hr⟩)))))
    · exact .inr ⟨⟨.hardlink, hin⟩, fun hclears => hstay (hclears.hardlink hin)⟩
  | special =>
    rcases (wrote_specials ha).mem_iff.mp hk with ⟨_, h⟩ | ⟨_, hset⟩ | ⟨hin, hstay⟩
    · exact absurd h id
    · exact .inl (.inr (.inr (.inr (.inr (.inl (mem_of_getElem? hset.1))))))
    · exact .inr ⟨⟨.special, hin⟩, fun hclears => hstay (hclears.special hin)⟩

theorem DirStays.mem_committed (ha : g.Accepts inc (resolve inc)) (h : g.DirStays inc path) :
    path ∈ (g.committed inc).dirs.current := by
  refine (wrote_dirs ha).mem_iff.mpr (.inr ?_)
  rcases h with hmade | hstay
  · exact .inl ⟨(), hmade⟩
  · exact .inr hstay

/-- **One commit** keeps every entry's parent. -/
theorem Rooted.committed (hrooted : g.Rooted) (ha : g.Accepts inc (resolve inc))
    (hkeeps : g.KeepsParents inc) : (g.committed inc).Rooted := by
  intro path stem hparent hocc
  refine DirStays.mem_committed ha ?_
  rcases occupied_committed ha hocc with hbrings | ⟨hocc, hnot⟩
  · exact hkeeps.brings path stem hparent hbrings
  · refine .inr ⟨hrooted path stem hparent hocc, fun hgone => hnot ?_⟩
    exact hkeeps.clears path stem hparent hgone hocc (mem_cleared_of_dirGone ha hgone hparent hocc)

end Step

/-- **No orphans**: from a rooted green, a run whose increments keep the parents stays rooted. -/
theorem rooted_run (h : Blake3) (g : Green) (commands : List Command) (hrooted : g.Rooted)
    (hmeets : RunMeets (fun g inc => g.Commits inc → g.KeepsParents inc) h g commands) (n : Nat) :
    (g.run h (commands.take n)).Rooted :=
  run_invariant (fun _ _ _ hp => hp) (fun _ hp => hp)
    (foldHistoryBefore_invariant (fun _ hp => hp) (fun _ _ hp => hp))
    (fun _ _ hp hkeeps hcommits => hp.committed hcommits.accepts (hkeeps hcommits)) hrooted
    (hmeets.take n)

/-! ## A directory removed under a newcomer -/

/-- An origin with the directory `d`. -/
def dirD : Origin := ⟨[], ["d"], [], [], [], [], []⟩

/-- An increment that removes `d`. -/
def removeD : Increment := ⟨1, 0, ⟨⟨["d"]⟩, [⟨.rmdir, 0, 0, 0, 0, 0⟩]⟩, [], []⟩

/-- An increment that creates `d/x`. -/
def createUnderD : Increment := ⟨2, 0, ⟨⟨["d/x"]⟩, [⟨.create, 0, 0, 0, 0, 0⟩]⟩, [], []⟩

theorem rooted_dirD : (opened .zero (some dirD)).Rooted := by
  rintro path stem hparent ⟨k, hk⟩
  cases k with
  | dir =>
    have hcur : (opened .zero (some dirD)).dirs.current = (∅ : PathMap Unit).insert "d" () := rfl
    have hnone : parent "d" = none := by decide
    rw [Holds, hcur] at hk
    rw [eq_of_mem_insert_empty hk, hnone] at hparent
    cases hparent
  | _ => exact absurd hk ExtTreeMap.not_mem_empty

theorem rooted_run_createUnderD : (opened .zero (some dirD)).Rooted ∧
    ∀ n, ((opened .zero (some dirD)).run .zero ([.submit createUnderD].take n)).Rooted := by
  refine ⟨rooted_dirD, rooted_run .zero _ _ rooted_dirD ⟨fun inc heq _ => ?_, trivial⟩⟩
  cases heq
  have hrmdirs : (resolve createUnderD).rmdirs = ∅ := rfl
  have hcreates : (resolve createUnderD).creates = (∅ : PathSet).insert "d/x" := rfl
  have hno : ∀ path, ¬ (opened .zero (some dirD)).DirGone createUnderD path := by
    rintro path ⟨h, -⟩
    rw [hrmdirs] at h
    exact absurd h ExtTreeSet.not_mem_empty
  refine ⟨fun path stem hparent hbrings => ?_, fun _ stem _ h => absurd h (hno stem)⟩
  have hpath : path = "d/x" := by
    rcases hbrings with h | h | h | h | h | ⟨src, h, -⟩
    · rw [hcreates, ExtTreeSet.mem_insert] at h
      rcases h with h | h
      · exact (Std.compare_eq_iff_eq.mp h).symm
      · exact absurd h ExtTreeSet.not_mem_empty
    · exact absurd h ExtTreeSet.not_mem_empty
    · exact absurd h ExtTreeMap.not_mem_empty
    · exact absurd h ExtTreeMap.not_mem_empty
    · exact absurd h ExtTreeMap.not_mem_empty
    · exact absurd (mem_of_getElem? h) ExtTreeMap.not_mem_empty
  subst hpath
  have hstem : stem = "d" := by
    have : parent "d/x" = some "d" := by decide
    rw [this] at hparent
    exact (Option.some.inj hparent).symm
  subst hstem
  exact .inr ⟨by decide, hno "d"⟩

/-- Both keep the rule at their base. After the removal nothing looks for the parent of `d/x`. -/
theorem createUnderD_orphaned : (opened .zero (some dirD)).Rooted ∧
    "d" ∈ (opened .zero (some dirD)).dirs.current ∧
    ((opened .zero (some dirD)).submit removeD).2 = .accepted 1 ∧
    (((opened .zero (some dirD)).run .zero [.submit removeD]).submit createUnderD).2 =
      .accepted 2 ∧
    ¬ ((opened .zero (some dirD)).run .zero [.submit removeD, .submit createUnderD]).Rooted := by
  refine ⟨rooted_dirD, by decide, by decide, by decide, fun hrooted => ?_⟩
  have hd := hrooted "d/x" "d" (by decide) ⟨.file, by decide⟩
  revert hd
  decide

end Green

end Slates.Merge
