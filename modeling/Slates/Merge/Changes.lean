import Slates.Merge.RunningIdentity

/-!
What an attachment must invalidate when it moves between two versions: `changedBetween` names every
path that does not read the same at both.
-/

open Std (ExtTreeMap ExtTreeSet)

namespace Slates.Merge

/-- The tables of a green at one version. -/
structure Tables where
  content : PathMap Bytes
  specials : PathMap SpecialNode
  dirs : PathMap Unit
  modes : PathMap UInt32
  symlinks : PathMap String
  hardlinks : PathMap Path
  xattrs : AttrMap Bytes

namespace Tables

/-- A hard-link alias refers to its primary node. -/
def special (t : Tables) (path : Path) : Option SpecialNode :=
  t.specials[path]?.or (t.hardlinks[path]?.bind (t.specials[·]?))

/-- An IPC alias shares its primary node's metadata. -/
def metadataPath (t : Tables) (path : Path) : Path :=
  match t.hardlinks[path]? with
  | some target => if t.specials.contains target then target else path
  | none => path

def mode (t : Tables) (path : Path) : Option UInt32 := t.modes[t.metadataPath path]?

def xattr (t : Tables) (path : Path) (name : String) : Option Bytes :=
  t.xattrs[(t.metadataPath path, name)]?

/-- The path reads the same in both. -/
structure ReadsSame (a b : Tables) (path : Path) : Prop where
  content : a.content[path]? = b.content[path]?
  special : a.special path = b.special path
  dir : path ∈ a.dirs ↔ path ∈ b.dirs
  mode : a.mode path = b.mode path
  symlink : a.symlinks[path]? = b.symlinks[path]?
  hardlink : a.hardlinks[path]? = b.hardlinks[path]?
  xattr : ∀ name, a.xattr path name = b.xattr path name

/-- Both hold the same at the path itself. -/
structure HoldsSame (a b : Tables) (path : Path) : Prop where
  content : a.content[path]? = b.content[path]?
  special : a.specials[path]? = b.specials[path]?
  dir : a.dirs[path]? = b.dirs[path]?
  mode : a.modes[path]? = b.modes[path]?
  symlink : a.symlinks[path]? = b.symlinks[path]?
  hardlink : a.hardlinks[path]? = b.hardlinks[path]?
  xattr : ∀ name : String, a.xattrs[(path, name)]? = b.xattrs[(path, name)]?

variable {a b : Tables} {path : Path}

theorem metadataPath_cases (t : Tables) (path : Path) : t.metadataPath path = path ∨
    ∃ target, t.hardlinks[path]? = some target ∧ target ∈ t.specials ∧
      t.metadataPath path = target := by
  rw [metadataPath]
  split
  · rename_i target hlink
    split_ifs with hspecial
    · exact .inr ⟨target, hlink, ExtTreeMap.contains_iff_mem.mp hspecial, rfl⟩
    · exact .inl rfl
  · exact .inl rfl

theorem HoldsSame.readsSame (h : a.HoldsSame b path)
    (hspecial : ∀ target, b.hardlinks[path]? = some target →
      a.specials[target]? = b.specials[target]?)
    (htarget : ∀ target, b.hardlinks[path]? = some target → target ∈ b.specials →
      a.HoldsSame b target) : a.ReadsSame b path := by
  have hmeta : a.metadataPath path = b.metadataPath path := by
    rw [metadataPath, metadataPath, h.hardlink]
    cases hlink : b.hardlinks[path]? with
    | none => rfl
    | some target =>
      simp only [ExtTreeMap.contains_eq_isSome_getElem?, hspecial target hlink]
  have hheld : a.HoldsSame b (b.metadataPath path) := by
    rcases b.metadataPath_cases path with heq | ⟨target, hlink, hin, heq⟩
    · exact heq.symm ▸ h
    · exact heq.symm ▸ htarget target hlink hin
  refine ⟨h.content, ?_, ?_, ?_, h.symlink, h.hardlink, fun name => ?_⟩
  · rw [Tables.special, Tables.special, h.special, h.hardlink]
    cases hlink : b.hardlinks[path]? with
    | none => rfl
    | some target => rw [Option.bind_some, Option.bind_some, hspecial target hlink]
  · rw [ExtTreeMap.mem_iff_isSome_getElem?, ExtTreeMap.mem_iff_isSome_getElem?, h.dir]
  · rw [Tables.mode, Tables.mode, hmeta, hheld.mode]
  · rw [Tables.xattr, Tables.xattr, hmeta, hheld.xattr]

end Tables

namespace Green

/-- The tables at a version: the current ones from the head on. -/
def tablesAt (g : Green) (version : Nat) : Tables where
  content := g.content.snapshot g.head version
  specials := g.specials.snapshot g.head version
  dirs := g.dirs.snapshot g.head version
  modes := g.modes.snapshot g.head version
  symlinks := g.symlinks.snapshot g.head version
  hardlinks := g.hardlinks.snapshot g.head version
  xattrs := g.xattrs.snapshot g.head version

variable {g : Green} {since upto : Nat} {path link target : Path}

theorem holdsSame_of_untouched (hc : g.CurrentHead) (hle : since ≤ upto) (hupto : upto ≤ g.head)
    (h : path ∉ g.touchedBetween since upto) :
    (g.tablesAt since).HoldsSame (g.tablesAt upto) path := by
  have hsnapshot : ∀ {K V : Type} [Ord K] [Std.TransOrd K] [Std.LawfulEqOrd K] [DecidableEq K]
      {m : Versioned K V} {k : K}, m.Current g.head → k ∉ m.keysTouched since upto →
      (m.snapshot g.head since)[k]? = (m.snapshot g.head upto)[k]? := by
    intro K V _ _ _ _ m k hm hk
    rw [hm.getElem?_snapshot (hle.trans hupto), hm.getElem?_snapshot hupto,
      Versioned.valueAt_eq_of_untouched hle hk]
  simp only [touchedBetween, ExtTreeSet.mem_ofList, List.contains_iff_mem, List.mem_append,
    List.mem_map,
    not_or, not_exists, not_and] at h
  obtain ⟨⟨⟨⟨⟨⟨hcontent, hspecial⟩, hdir⟩, hmode⟩, hsymlink⟩, hhardlink⟩, hxattr⟩ := h
  exact ⟨hsnapshot hc.content hcontent, hsnapshot hc.specials hspecial, hsnapshot hc.dirs hdir,
    hsnapshot hc.modes hmode, hsnapshot hc.symlinks hsymlink, hsnapshot hc.hardlinks hhardlink,
    fun name => hsnapshot hc.xattrs fun hin => hxattr (path, name) hin rfl⟩

theorem mem_addAlias {changed : PathSet} (h : path ∈ changed) :
    path ∈ g.addAlias since upto changed link := by
  rw [addAlias]
  split_ifs
  · exact ExtTreeSet.mem_insert.mpr (.inr h)
  · exact h

theorem mem_foldl_addAlias {links : List Path} {changed : PathSet} (h : path ∈ changed) :
    path ∈ links.foldl (g.addAlias since upto) changed := by
  induction links generalizing changed with
  | nil => exact h
  | cons link links ih => exact ih (mem_addAlias h)

theorem alias_mem {links : List Path} {changed : PathSet} (hlink : link ∈ links)
    (htarget : g.hardlinks.valueAt link upto = some target) (hkept : target ∈ g.specials.history)
    (hchanged : target ∈ changed) : link ∈ links.foldl (g.addAlias since upto) changed := by
  induction links generalizing changed with
  | nil => cases hlink
  | cons first links ih =>
    rcases List.mem_cons.mp hlink with rfl | hlink
    · rw [List.foldl_cons]
      refine mem_foldl_addAlias ?_
      rw [addAlias, if_pos]
      · exact ExtTreeSet.mem_insert_self
      · simp [htarget, hkept, hchanged]
    · exact ih hlink (mem_addAlias hchanged)

theorem readsSame_of_notMem (hc : g.CurrentHead) (hle : since ≤ upto) (hupto : upto ≤ g.head)
    (h : path ∉ g.changedBetween since upto) :
    (g.tablesAt since).ReadsSame (g.tablesAt upto) path := by
  rw [changedBetween, ExtTreeSet.mem_toList] at h
  have hlinked : ∀ target, (g.tablesAt upto).hardlinks[path]? = some target →
      target ∈ g.specials.history → (g.tablesAt since).HoldsSame (g.tablesAt upto) target := by
    intro target hlink hkept
    refine holdsSame_of_untouched hc hle hupto fun htouched => h ?_
    have hvalue := (hc.hardlinks.getElem?_snapshot hupto path).symm.trans hlink
    refine alias_mem (ExtTreeMap.mem_keys.mpr ?_) hvalue hkept htouched
    obtain ⟨entries, hentries, -⟩ := Option.bind_eq_some_iff.mp hvalue
    exact mem_of_getElem? hentries
  have hkept : ∀ {target version}, version ≤ g.head → target ∉ g.specials.history →
      (g.tablesAt version).specials[target]? = none := by
    intro target version hversion hnot
    refine (hc.specials.getElem?_snapshot hversion target).trans ?_
    rw [Versioned.valueAt, ExtTreeMap.getElem?_eq_none hnot]
    rfl
  refine (holdsSame_of_untouched hc hle hupto fun htouched =>
    h (mem_foldl_addAlias htouched)).readsSame
    (fun target hlink => ?_) fun target hlink hin => hlinked target hlink ?_
  · by_cases hin : target ∈ g.specials.history
    · exact (hlinked target hlink hin).special
    · rw [hkept (hle.trans hupto) hin, hkept hupto hin]
  · by_contra hnot
    rw [ExtTreeMap.mem_iff_isSome_getElem?, hkept hupto hnot] at hin
    cases hin

/-- **Every path that reads differently is named**, between any two versions. -/
theorem changedBetween_complete (h : Blake3) (origin : Option Origin) (commands : List Command)
    (hg : g = (opened h origin).run h commands) (hle : since ≤ upto) (hupto : upto ≤ g.head)
    (hdiffers : ¬ (g.tablesAt since).ReadsSame (g.tablesAt upto) path) :
    path ∈ g.changedBetween since upto := by
  by_contra hnot
  exact hdiffers (readsSame_of_notMem (hg ▸ (Tracked.run h origin commands).current) hle hupto hnot)

/-- A pipe `p` with a mode, and an alias `q` of it. -/
def aliased : Origin :=
  ⟨[], [], [("p", 1)], [], [("q", "p")], [("p", ⟨.fifo, 0, 0, 0, 0, 0, 0⟩)], []⟩

/-- An increment that sets the mode of `p`. -/
def chmodP : Increment := ⟨1, 0, ⟨⟨["p"]⟩, [⟨.setMode, 0, 0, 0, 2, u64Max⟩]⟩, [], []⟩

/-- The alias reads another mode, and is named with its target. -/
theorem changedBetween_complete_alias :
    let g := (opened .zero (some aliased)).run .zero [.submit chmodP]
    (g.tablesAt 0).mode "q" = some 1 ∧ (g.tablesAt 1).mode "q" = some 2 ∧
      "q" ∈ g.changedBetween 0 1 := by
  intro g
  have hbefore : (g.tablesAt 0).mode "q" = some 1 := by decide +kernel
  have hafter : (g.tablesAt 1).mode "q" = some 2 := by decide +kernel
  refine ⟨hbefore, hafter, changedBetween_complete .zero (some aliased) [.submit chmodP] rfl
    (Nat.zero_le 1) (by decide +kernel) fun h => ?_⟩
  have hmode := h.mode
  rw [hbefore, hafter] at hmode
  cases hmode

end Green

end Slates.Merge
