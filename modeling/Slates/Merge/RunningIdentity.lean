import Slates.Library.KeyedSum
import Slates.Merge.Runs

/-!
The running identity is the recount: the sum of the entries at `identityVersion`, with every key
that differs at the head dirty (`Tracked`). A commit writes no key it does not mark (`Marks`), so
the invariant holds in every run (`headIdentity_run`).
-/

open Std (ExtTreeMap ExtTreeSet)

namespace Slates.Merge

namespace Green

/-! ## Entries by key -/

/-- A key's entry at `version`. -/
def entryAt (g : Green) (version : Nat) (key : IdentityKey) : Option Bytes :=
  (g.entriesOf key version).1

def entryNow (g : Green) (key : IdentityKey) : Option Bytes := (g.entriesOf key g.head).2

theorem entriesOf_eq (g : Green) (key : IdentityKey) (version : Nat) :
    g.entriesOf key version = (g.entryAt version key, g.entryNow key) := by
  cases key <;> rfl

def liveEntries (g : Green) : List (IdentityKey × Bytes) :=
  g.specials.current.toList.map (fun e => (.special e.1, specialEntry e.1 e.2)) ++
  g.content.current.toList.map (fun e => (.file e.1, fileEntry e.1 e.2)) ++
  g.dirs.current.toList.map (fun e => (.dir e.1, dirEntry e.1)) ++
  g.modes.current.toList.map (fun e => (.mode e.1, modeEntry e.1 e.2)) ++
  g.symlinks.current.toList.map (fun e => (.symlink e.1, symlinkEntry e.1 e.2)) ++
  g.hardlinks.current.toList.map (fun e => (.hardlink e.1, hardlinkEntry e.1 e.2)) ++
  g.xattrs.current.toList.map (fun e => (.xattr e.1.1 e.1.2, xattrEntry e.1.1 e.1.2 e.2))

theorem currentEntries_eq (g : Green) : g.currentEntries = g.liveEntries.map Prod.snd := by
  simp [currentEntries, liveEntries, Function.comp_def]

private theorem nodup_dimension {K V : Type} [Ord K] [Std.TransOrd K] [Std.LawfulEqOrd K]
    (m : ExtTreeMap K V) {mark : K → IdentityKey} (hmark : Function.Injective mark)
    (entry : K × V → Bytes) :
    ((m.toList.map (fun e => (mark e.1, entry e))).map Prod.fst).Nodup := by
  rw [List.map_map, List.Nodup, List.pairwise_map]
  refine (@ExtTreeMap.distinct_keys_toList _ _ _ m _).imp fun {a b} hab heq => hab ?_
  exact Std.compare_eq_iff_eq.mpr (hmark heq)

private theorem nodup_append_dimension {A : Type} {older : List (IdentityKey × Bytes)} {l : List A}
    {f : A → IdentityKey × Bytes} (hold : (older.map Prod.fst).Nodup)
    (hnew : ((l.map f).map Prod.fst).Nodup) (hne : ∀ e ∈ older, ∀ a, e.1 ≠ (f a).1) :
    ((older ++ l.map f).map Prod.fst).Nodup := by
  rw [List.map_append]
  refine hold.append hnew fun key hk hk' => ?_
  obtain ⟨e, he, rfl⟩ := List.mem_map.mp hk
  rw [List.map_map, List.mem_map] at hk'
  obtain ⟨a, -, ha⟩ := hk'
  exact hne e he a ha.symm

theorem nodup_liveEntries (g : Green) : (g.liveEntries.map Prod.fst).Nodup := by
  have hpair : Function.Injective (fun k : Path × String => IdentityKey.xattr k.1 k.2) := by
    intro a b h
    simp only [IdentityKey.xattr.injEq] at h
    exact Prod.ext h.1 h.2
  unfold liveEntries
  -- one dimension after the other, each under its own constructor
  refine nodup_append_dimension (nodup_append_dimension (nodup_append_dimension
    (nodup_append_dimension (nodup_append_dimension (nodup_append_dimension
      (nodup_dimension _ (fun _ _ => IdentityKey.special.inj) _)
      (nodup_dimension _ (fun _ _ => IdentityKey.file.inj) _) ?_)
      (nodup_dimension _ (fun _ _ => IdentityKey.dir.inj) _) ?_)
      (nodup_dimension _ (fun _ _ => IdentityKey.mode.inj) _) ?_)
      (nodup_dimension _ (fun _ _ => IdentityKey.symlink.inj) _) ?_)
      (nodup_dimension _ (fun _ _ => IdentityKey.hardlink.inj) _) ?_)
      (nodup_dimension _ hpair _) ?_
  all_goals
    intro e he a
    simp only [List.mem_append, List.mem_map] at he
    grind

theorem mem_liveEntries (g : Green) (key : IdentityKey) (bytes : Bytes) :
    (key, bytes) ∈ g.liveEntries ↔ g.entryNow key = some bytes := by
  simp only [liveEntries, List.mem_append, List.mem_map, Prod.mk.injEq, Prod.exists,
    ExtTreeMap.mem_toList_iff_getElem?_eq_some]
  cases key <;> simp [entryNow, entriesOf, Option.map_eq_some_iff]

theorem recount_eq (h : Blake3) (g : Green) : g.recount h = total h.lanes g.entryNow := by
  have hfold : ∀ (entries : List Bytes) (sum : SetHash),
      entries.foldl (SetHash.add h) sum = sum + (entries.map h.lanes).sum := by
    intro entries
    induction entries with
    | nil => intro sum; simp
    | cons entry entries ih =>
      intro sum
      have hadd : SetHash.add h sum entry = sum + h.lanes entry := rfl
      rw [List.foldl_cons, ih, hadd, List.map_cons, List.sum_cons, add_assoc]
  have hzero : (fun _ => 0 : SetHash) = 0 := rfl
  rw [total_eq_sum h.lanes g.nodup_liveEntries g.mem_liveEntries, recount, hfold,
    currentEntries_eq, hzero, zero_add, List.map_map]
  rfl

theorem finite_entryNow (g : Green) : {key | g.entryNow key ≠ none}.Finite := by
  refine (List.finite_toSet (g.liveEntries.map Prod.fst)).subset fun key hk => ?_
  obtain ⟨bytes, hb⟩ := Option.ne_none_iff_exists'.mp hk
  exact List.mem_map.mpr ⟨(key, bytes), (g.mem_liveEntries key bytes).mpr hb, rfl⟩

theorem foldl_foldKey (h : Blake3) (g : Green) (keys : List IdentityKey) (sum : SetHash) :
    keys.foldl (g.foldKey h) sum =
      sum + (keys.map (fun key =>
        change h.lanes (g.entryAt g.identityVersion key) (g.entryNow key))).sum := by
  induction keys generalizing sum with
  | nil => simp
  | cons key keys ih =>
    have hone : g.foldKey h sum key =
        sum + change h.lanes (g.entryAt g.identityVersion key) (g.entryNow key) := by
      unfold foldKey
      rw [entriesOf_eq]
      funext i
      cases g.entryAt g.identityVersion key <;> cases g.entryNow key <;>
        simp [change, SetHash.add, SetHash.remove] <;> abel
    rw [List.foldl_cons, ih, hone, List.map_cons, List.sum_cons, add_assoc]

/-! ## A commit marks what it writes -/

/-- One dimension after changes at `version` whose keys are all marked. -/
def Marked {K V : Type} [Ord K] [Std.TransOrd K] (mark : K → IdentityKey)
    (dirty : ExtTreeSet IdentityKey) (version : Nat) (m m' : Versioned K V) : Prop :=
  ∃ changes, m' = m.writeAll version changes ∧ ∀ c ∈ changes, mark c.1 ∈ dirty

section Marked

variable {K V : Type} [Ord K] [Std.TransOrd K] {mark : K → IdentityKey}
  {dirty dirty' : ExtTreeSet IdentityKey} {version : Nat} {m m' m'' : Versioned K V}

theorem Marked.refl : Marked mark dirty version m m := ⟨[], rfl, nofun⟩

theorem marked_writeAll {changes : List (K × Option V)} (h : ∀ c ∈ changes, mark c.1 ∈ dirty) :
    Marked mark dirty version m (m.writeAll version changes) :=
  ⟨changes, rfl, h⟩

theorem marked_write {k : K} {value : Option V} (h : mark k ∈ dirty) :
    Marked mark dirty version m (m.write k value version) :=
  ⟨[(k, value)], rfl, by simpa using h⟩

variable [Std.LawfulEqOrd K] [DecidableEq K]

section

variable (h : Marked mark dirty version m m')

include h

omit [Std.LawfulEqOrd K] [DecidableEq K] in
theorem Marked.trans (h' : Marked mark dirty' version m' m'')
    (hsub : ∀ key ∈ dirty, key ∈ dirty') : Marked mark dirty' version m m'' := by
  obtain ⟨changes, rfl, hmark⟩ := h
  obtain ⟨changes', rfl, hmark'⟩ := h'
  refine ⟨changes ++ changes', (Versioned.writeAll_append ..).symm, fun c hc => ?_⟩
  rcases List.mem_append.mp hc with hc | hc
  · exact hsub _ (hmark c hc)
  · exact hmark' c hc

theorem Marked.valueAt_of_lt {read : Nat} (hlt : read < version)
    (k : K) : m'.valueAt k read = m.valueAt k read := by
  obtain ⟨changes, rfl, -⟩ := h
  exact Versioned.valueAt_writeAll_of_lt m version changes k hlt

theorem Marked.current_of_clean {k : K} (hk : mark k ∉ dirty) : m'.current[k]? = m.current[k]? := by
  obtain ⟨changes, rfl, hmark⟩ := h
  have hnone : Versioned.changesOf changes k = [] :=
    List.eq_nil_iff_forall_not_mem.mpr fun w hw =>
      hk (hmark (k, w) ((Versioned.mem_changesOf changes k w).mp hw))
  rw [Versioned.current_writeAll, hnone]
  rfl

theorem Marked.current {head : Nat} (hc : m.Current head)
    (hle : head ≤ version) : m'.Current version := by
  obtain ⟨changes, rfl, -⟩ := h
  exact (hc.mono hle).writeAll changes

end

end Marked

structure Marks (version : Nat) (g g' : Green) : Prop where
  identity : g'.identity = g.identity
  identityVersion : g'.identityVersion = g.identityVersion
  dirty : ∀ key ∈ g.identityDirty, key ∈ g'.identityDirty
  specials : Marked .special g'.identityDirty version g.specials g'.specials
  content : Marked .file g'.identityDirty version g.content g'.content
  dirs : Marked .dir g'.identityDirty version g.dirs g'.dirs
  modes : Marked .mode g'.identityDirty version g.modes g'.modes
  symlinks : Marked .symlink g'.identityDirty version g.symlinks g'.symlinks
  hardlinks : Marked .hardlink g'.identityDirty version g.hardlinks g'.hardlinks
  xattrs : Marked (fun k => .xattr k.1 k.2) g'.identityDirty version g.xattrs g'.xattrs

namespace Marks

variable {version : Nat} {g g' g'' : Green}

theorem refl : Marks version g g :=
  ⟨rfl, rfl, fun _ h => h, .refl, .refl, .refl, .refl, .refl, .refl, .refl⟩

theorem trans (h : Marks version g g') (h' : Marks version g' g'') : Marks version g g'' where
  identity := h'.identity.trans h.identity
  identityVersion := h'.identityVersion.trans h.identityVersion
  dirty := fun key hk => h'.dirty key (h.dirty key hk)
  specials := h.specials.trans h'.specials h'.dirty
  content := h.content.trans h'.content h'.dirty
  dirs := h.dirs.trans h'.dirs h'.dirty
  modes := h.modes.trans h'.modes h'.dirty
  symlinks := h.symlinks.trans h'.symlinks h'.dirty
  hardlinks := h.hardlinks.trans h'.hardlinks h'.dirty
  xattrs := h.xattrs.trans h'.xattrs h'.dirty

theorem entryAt_of_lt (h : Marks version g g') {read : Nat} (hlt : read < version) :
    g'.entryAt read = g.entryAt read := by
  funext key
  cases key with
  | file path => simp only [entryAt, entriesOf, h.content.valueAt_of_lt hlt]
  | special path => simp only [entryAt, entriesOf, h.specials.valueAt_of_lt hlt]
  | dir path => simp only [entryAt, entriesOf, h.dirs.valueAt_of_lt hlt]
  | mode path => simp only [entryAt, entriesOf, h.modes.valueAt_of_lt hlt]
  | symlink path => simp only [entryAt, entriesOf, h.symlinks.valueAt_of_lt hlt]
  | hardlink path => simp only [entryAt, entriesOf, h.hardlinks.valueAt_of_lt hlt]
  | xattr path name => simp only [entryAt, entriesOf, h.xattrs.valueAt_of_lt hlt]

theorem entryNow_of_clean (h : Marks version g g') {key : IdentityKey}
    (hk : key ∉ g'.identityDirty) : g'.entryNow key = g.entryNow key := by
  cases key with
  | file path => simp only [entryNow, entriesOf, h.content.current_of_clean hk]
  | special path => simp only [entryNow, entriesOf, h.specials.current_of_clean hk]
  | dir path => simp only [entryNow, entriesOf, h.dirs.current_of_clean hk]
  | mode path => simp only [entryNow, entriesOf, h.modes.current_of_clean hk]
  | symlink path => simp only [entryNow, entriesOf, h.symlinks.current_of_clean hk]
  | hardlink path => simp only [entryNow, entriesOf, h.hardlinks.current_of_clean hk]
  | xattr path name =>
    simp only [entryNow, entriesOf, h.xattrs.current_of_clean (k := (path, name)) hk]

end Marks

theorem mem_foldl_insert {keys : List IdentityKey} {dirty : ExtTreeSet IdentityKey}
    {key : IdentityKey} :
    key ∈ keys.foldl (fun dirty key => dirty.insert key) dirty ↔ key ∈ keys ∨ key ∈ dirty := by
  induction keys generalizing dirty with
  | nil => simp
  | cons a keys ih =>
    rw [List.foldl_cons, ih, ExtTreeSet.mem_insert, Std.compare_eq_iff_eq, List.mem_cons]
    tauto

theorem commitEffect_marks (version : Nat) (g : Green) (e : Effect) :
    Marks version g (commitEffect version g e) := by
  obtain ⟨bytes, he⟩ := commitEffect_eq version g e
  have hmem : ∀ key, key = e.identityKey ∨ key ∈ g.alsoMarked e →
      key ∈ (e.identityKey :: g.alsoMarked e).foldl (fun dirty key => dirty.insert key)
        g.identityDirty := fun key hk =>
    mem_foldl_insert.mpr (.inl (List.mem_cons.mpr hk))
  rw [he]
  refine ⟨rfl, rfl, fun key hk => mem_foldl_insert.mpr (.inr hk), ?_, .refl, ?_, ?modes, ?_, ?_,
    ?xattrs⟩
  all_goals dsimp only
  case modes =>
    cases e with
    | mode path value =>
      rw [Effect.onModes]
      exact marked_write (hmem (.mode path) (.inl rfl))
    | removeSpecial path =>
      by_cases hp : g.modes.current.contains path
      · simp only [Effect.onModes, hp, if_true]
        exact marked_write (hmem _ (.inr (by simp [alsoMarked, hp])))
      · simp only [Effect.onModes, hp]
        exact .refl
    | _ => exact .refl
  case xattrs =>
    cases e with
    | setXattr path name value =>
      rw [Effect.onXattrs]
      refine marked_write ?_
      exact hmem (.xattr path name) (.inl rfl)
    | removeXattr path name =>
      rw [Effect.onXattrs]
      refine marked_write ?_
      exact hmem (.xattr path name) (.inl rfl)
    | removeSpecial path =>
      refine marked_writeAll fun c hc => hmem _ (.inr ?_)
      obtain ⟨key, hkey, rfl⟩ := List.mem_map.mp hc
      exact List.mem_append_right _ (List.mem_map.mpr ⟨key, hkey, rfl⟩)
    | _ => exact .refl
  all_goals
    refine marked_writeAll fun c hc => hmem _ (.inl ?_)
    cases e <;> first
      | exact absurd hc List.not_mem_nil
      | exact congrArg _ (congrArg Prod.fst (List.mem_singleton.mp hc))

theorem foldl_commitEffect_marks (version : Nat) (effects : List Effect) (g : Green) :
    Marks version g (effects.foldl (commitEffect version) g) := by
  induction effects generalizing g with
  | nil => exact .refl
  | cons e effects ih => exact (commitEffect_marks version g e).trans (ih _)

theorem identityKey_mem_foldl (version : Nat) (effects : List Effect) (g : Green) :
    ∀ e ∈ effects, e.identityKey ∈ (effects.foldl (commitEffect version) g).identityDirty := by
  induction effects generalizing g with
  | nil => simp
  | cons e effects ih =>
    intro e' he'
    rcases List.mem_cons.mp he' with rfl | he'
    · obtain ⟨bytes, he⟩ := commitEffect_eq version g e'
      refine (foldl_commitEffect_marks version effects _).dirty _ ?_
      rw [he]
      exact mem_foldl_insert.mpr (.inl (List.mem_cons_self ..))
    · exact ih _ e' he'

theorem commit_marks (g : Green) (effects : List Effect) (version : Nat) :
    Marks version g (g.commit effects version) := by
  have hm := foldl_commitEffect_marks version effects g
  have hkey := identityKey_mem_foldl version effects g
  obtain ⟨dirty, bytes, hfold⟩ := foldl_commitEffect version effects g
  obtain ⟨bytes', he⟩ := commit_eq g effects version
  rw [hfold] at hm hkey
  rw [he, hfold]
  refine ⟨hm.identity, hm.identityVersion, hm.dirty, hm.specials, ?_, hm.dirs, hm.modes,
    hm.symlinks, hm.hardlinks, hm.xattrs⟩
  -- a content write comes from a content effect, which marked the path
  refine marked_writeAll fun c hc => ?_
  rcases List.mem_append.mp hc with hc | hc
  · obtain ⟨path, hp, rfl⟩ := List.mem_map.mp hc
    obtain ⟨e, hmem, hr⟩ := List.mem_filterMap.mp hp
    cases e <;> simp [Effect.removedContent] at hr
    subst hr
    exact hkey _ hmem
  · obtain ⟨entry, hp, rfl⟩ := List.mem_map.mp hc
    obtain ⟨e, hmem, hr⟩ := List.mem_filterMap.mp hp
    cases e <;> simp [Effect.contentSet] at hr
    subst hr
    exact hkey _ hmem

private theorem marks_of_counted {version : Nat} {g g' : Green} {hits : Nat}
    {accepted : ExtTreeMap Digest Nat} (h : Marks version { g with fastPathHits := hits } g') :
    Marks version g { g' with accepted := accepted } :=
  ⟨h.identity, h.identityVersion, h.dirty, h.specials, h.content, h.dirs, h.modes, h.symlinks,
    h.hardlinks, h.xattrs⟩

theorem committed_marks (g : Green) (inc : Increment) : Marks (g.head + 1) g (g.committed inc) :=
  marks_of_counted (commit_marks _ (g.acceptedEffects inc (resolve inc)) (g.head + 1))

/-! ## The invariant -/

structure CurrentHead (g : Green) : Prop where
  specials : g.specials.Current g.head
  content : g.content.Current g.head
  dirs : g.dirs.Current g.head
  modes : g.modes.Current g.head
  symlinks : g.symlinks.Current g.head
  hardlinks : g.hardlinks.Current g.head
  xattrs : g.xattrs.Current g.head

namespace CurrentHead

variable {g : Green}

theorem opened (h : Blake3) (origin : Option Origin) : (Green.opened h origin).CurrentHead := by
  cases origin with
  | none => constructor <;> exact Versioned.current_empty 0
  | some origin => constructor <;> exact Versioned.current_seed _ 0

theorem committed (hc : g.CurrentHead) (inc : Increment) : (g.committed inc).CurrentHead := by
  have hm := committed_marks g inc
  have hle : g.head ≤ g.head + 1 := Nat.le_succ _
  constructor <;> rw [committed_head]
  · exact hm.specials.current hc.specials hle
  · exact hm.content.current hc.content hle
  · exact hm.dirs.current hc.dirs hle
  · exact hm.modes.current hc.modes hle
  · exact hm.symlinks.current hc.symlinks hle
  · exact hm.hardlinks.current hc.hardlinks hle
  · exact hm.xattrs.current hc.xattrs hle

theorem folded (hc : g.CurrentHead) (floor : Nat) : (g.folded floor).CurrentHead :=
  ⟨hc.specials.foldBelow floor, hc.content.foldBelow floor, hc.dirs.foldBelow floor,
    hc.modes.foldBelow floor, hc.symlinks.foldBelow floor, hc.hardlinks.foldBelow floor,
    hc.xattrs.foldBelow floor⟩

theorem foldIdentity (hc : g.CurrentHead) (h : Blake3) : (g.foldIdentity h).CurrentHead :=
  ⟨hc.specials, hc.content, hc.dirs, hc.modes, hc.symlinks, hc.hardlinks, hc.xattrs⟩

theorem quiet (hc : g.CurrentHead) (hits : Nat) (cache : RejectedCache) :
    (g.quiet hits cache).CurrentHead :=
  ⟨hc.specials, hc.content, hc.dirs, hc.modes, hc.symlinks, hc.hardlinks, hc.xattrs⟩

theorem entryAt_head (hc : g.CurrentHead) : g.entryAt g.head = g.entryNow := by
  funext key
  cases key with
  | file path => simp only [entryAt, entryNow, entriesOf, hc.content.value]
  | special path => simp only [entryAt, entryNow, entriesOf, hc.specials.value]
  | dir path => simp only [entryAt, entryNow, entriesOf, hc.dirs.value]
  | mode path => simp only [entryAt, entryNow, entriesOf, hc.modes.value]
  | symlink path => simp only [entryAt, entryNow, entriesOf, hc.symlinks.value]
  | hardlink path => simp only [entryAt, entryNow, entriesOf, hc.hardlinks.value]
  | xattr path name => simp only [entryAt, entryNow, entriesOf, hc.xattrs.value]

end CurrentHead

theorem entryAt_folded (g : Green) {floor version : Nat} (hle : floor ≤ version) :
    (g.folded floor).entryAt version = g.entryAt version := by
  funext key
  cases key <;> simp only [entryAt, entriesOf, folded, Versioned.valueAt_foldBelow _ _ _ _ hle]

theorem entryNow_folded (g : Green) (floor : Nat) : (g.folded floor).entryNow = g.entryNow := by
  funext key
  cases key <;> rfl

/-- The entries at `identityVersion` summed, and what differs at the head dirty. -/
structure Tracked (h : Blake3) (g : Green) : Prop where
  current : g.CurrentHead
  version_le : g.identityVersion ≤ g.head
  clean : ∀ key, key ∉ g.identityDirty → g.entryAt g.identityVersion key = g.entryNow key
  identity : g.identity = total h.lanes (g.entryAt g.identityVersion)

namespace Tracked

variable {h : Blake3} {g : Green}

theorem opened (h : Blake3) (origin : Option Origin) : (Green.opened h origin).Tracked h := by
  have hc := CurrentHead.opened h origin
  have hnow := hc.entryAt_head
  have hversion :
      (Green.opened h origin).identityVersion = 0 ∧ (Green.opened h origin).head = 0 := by
    cases origin <;> exact ⟨rfl, rfl⟩
  have hidentity : (Green.opened h origin).identity = (Green.opened h origin).recount h := by
    cases origin <;> rfl
  rw [hversion.2] at hnow
  refine ⟨hc, by rw [hversion.1]; exact Nat.zero_le _, fun key _ => ?_, ?_⟩
  · rw [hversion.1, hnow]
  · rw [hidentity, recount_eq, hversion.1, hnow]

/-- **A commit** writes no version the identity reads and no key it does not mark. -/
theorem committed (ht : g.Tracked h) (inc : Increment) : (g.committed inc).Tracked h := by
  have hm := committed_marks g inc
  have hlt : g.identityVersion < g.head + 1 := Nat.lt_succ_of_le ht.version_le
  refine ⟨ht.current.committed inc, ?_, ?_, ?_⟩
  · rw [hm.identityVersion, committed_head]
    omega
  · intro key hk
    rw [hm.identityVersion, hm.entryAt_of_lt hlt, hm.entryNow_of_clean hk]
    exact ht.clean key fun hd => hk (hm.dirty key hd)
  · rw [hm.identity, hm.identityVersion, hm.entryAt_of_lt hlt]
    exact ht.identity

theorem foldIdentity_eq (ht : g.Tracked h) : (g.foldIdentity h).identity = g.recount h := by
  have hfold :
      (g.foldIdentity h).identity = g.identityDirty.toList.foldl (g.foldKey h) g.identity :=
    rfl
  have hnodup : g.identityDirty.toList.Nodup := by
    refine (@ExtTreeSet.distinct_toList _ _ g.identityDirty _).imp fun {a b} hab heq => hab ?_
    rw [heq]
    exact Std.ReflOrd.compare_self
  rw [hfold, foldl_foldKey, ht.identity, recount_eq]
  refine total_update h.lanes hnodup (fun key hk => ht.clean key fun hd => hk ?_) g.finite_entryNow
  exact ExtTreeSet.mem_toList.mpr hd

theorem foldIdentity (ht : g.Tracked h) : (g.foldIdentity h).Tracked h where
  current := ht.current.foldIdentity h
  version_le := le_rfl
  clean := fun key _ => congrFun ht.current.entryAt_head key
  identity := by
    rw [ht.foldIdentity_eq, recount_eq, ← ht.current.entryAt_head]
    rfl

theorem folded (ht : g.Tracked h) {floor : Nat}
    (hread : floor ≤ g.identityVersion ∨ g.identityVersion = g.head) :
    (g.folded floor).Tracked h := by
  have hat : (g.folded floor).entryAt g.identityVersion = g.entryAt g.identityVersion := by
    rcases hread with hle | heq
    · exact entryAt_folded g hle
    · rw [heq, ht.current.entryAt_head, ← entryNow_folded g floor]
      exact (ht.current.folded floor).entryAt_head
  refine ⟨ht.current.folded floor, ht.version_le, fun key hk => ?_, ?_⟩
  · rw [entryNow_folded]
    exact (congrFun hat key).trans (ht.clean key hk)
  · exact ht.identity.trans (congrArg (total h.lanes) hat.symm)

theorem foldHistoryBefore (ht : g.Tracked h) (floor : Nat) :
    (g.foldHistoryBefore h floor).1.Tracked h := by
  rw [foldHistoryBefore_fst]
  split
  · exact ht
  · split
    · exact ht.foldIdentity.folded (.inr rfl)
    · exact ht.folded (.inl (by omega))

/-- **The invariant over runs.** -/
theorem run (h : Blake3) (origin : Option Origin) (commands : List Command) :
    ((Green.opened h origin).run h commands).Tracked h :=
  run_invariant
    (fun _ hits cache ht => ⟨ht.current.quiet hits cache, ht.version_le, ht.clean, ht.identity⟩)
    (fun _ ht => ht.foldIdentity) (fun _ floor ht => ht.foldHistoryBefore floor)
    (fun _ inc ht _ _ => ht.committed inc) (Tracked.opened h origin) (runMeets_true h _ commands)

end Tracked

/-- **The running identity is the recount**, in every green a run leaves. -/
theorem headIdentity_run (h : Blake3) (origin : Option Origin) (commands : List Command) :
    (((Green.opened h origin).run h commands).headIdentity h).2 =
      ((Green.opened h origin).run h commands).headIdentityFromScratch h := by
  have ht := Tracked.run h origin commands
  rw [headIdentity, headIdentityFromScratch, ← ht.foldIdentity_eq]

end Green

end Slates.Merge
