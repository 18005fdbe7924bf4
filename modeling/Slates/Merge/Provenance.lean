import Slates.Merge.Deltas

/-!
Which version added each byte. `provenance` tags every byte along a run: an edit keeps the tags of
the bytes it copies and tags those it adds, a created or renamed file is tagged whole. No merge
removes a byte that a version after its base added (`accepted_bytes_kept`), unless a commit was
unsafe for the file.
-/

open Std (ExtTreeMap ExtTreeSet)

namespace Slates.Merge

abbrev Tagged := List (UInt8 × Nat)

def tagWith (version : Nat) (bytes : Bytes) : Tagged := bytes.map (·, version)

@[simp] theorem map_fst_tagWith (version : Nat) (bytes : Bytes) :
    (tagWith version bytes).map Prod.fst = bytes := by
  simp [tagWith, Function.comp_def]

theorem snd_of_mem_tagWith {version : Nat} {bytes : Bytes} {x : UInt8 × Nat}
    (h : x ∈ tagWith version bytes) : x.2 = version := by
  obtain ⟨b, -, rfl⟩ := List.mem_map.mp h
  rfl

theorem map_applyWith {α β : Type} (f : α → β) (added : Op → List α) (base : List α) (pos : Nat)
    (ops : List Op) :
    (applyWith added base pos ops).map f =
      applyWith (fun op => (added op).map f) (base.map f) pos ops := by
  induction ops generalizing pos with
  | nil => simp [applyWith]
  | cons op ops ih => simp [applyWith, ih, List.map_take, List.map_drop]

variable {ops : List Op}

theorem mem_applyWith {α : Type} {added : Op → List α} {base : List α} {pos : Nat}
    {x : α} (h : x ∈ applyWith added base pos ops) : x ∈ base ∨ ∃ op ∈ ops, x ∈ added op := by
  induction ops generalizing pos with
  | nil => exact .inl (List.mem_of_mem_drop h)
  | cons op ops ih =>
    rw [applyWith, List.mem_append, List.mem_append] at h
    rcases h with (h | h) | h
    · exact .inl (List.mem_of_mem_take (List.mem_of_mem_drop h))
    · exact .inr ⟨op, List.mem_cons_self .., h⟩
    · rcases ih h with h | ⟨o, ho, h⟩
      · exact .inl h
      · exact .inr ⟨o, List.mem_cons_of_mem _ ho, h⟩

theorem Evolves.snoc {α : Type} {old mid new : List α} {deltas : List (List Op)}
    (he : Evolves old deltas mid) (hr : Replays mid ops new) :
    Evolves old (deltas ++ [ops]) new := by
  induction he with
  | refl bytes => exact .step hr (.refl _)
  | step hfirst _ ih => exact .step hfirst (ih hr)

namespace Green

/-- A path's last set decides its tags, as it does its bytes. -/
def tagCommit (g : Green) (inc : Increment) (tags : Path → Tagged) : Path → Tagged := fun path =>
  let effects := g.acceptedEffects inc (resolve inc)
  match (contentSets effects path).getLast? with
  | some (bytes, ops) =>
    if (resolve inc).creates.contains path || (resolve inc).renames.contains path then
      tagWith (g.head + 1) bytes
    else applyWith (fun op => tagWith (g.head + 1) (op.added inc.postState)) (tags path) 0 ops
  | none => if .removeContent path ∈ effects then [] else tags path

/-- The tags a run leaves, from an origin tagged 0. -/
def provenance (h : Blake3) (origin : Option Origin) (commands : List Command) : Path → Tagged :=
  ghostRun tagCommit h (opened h origin)
    (fun path => tagWith 0 (((opened h origin).content.current[path]?).getD [])) commands

theorem provenance_submit (h : Blake3) (origin : Option Origin) (commands : List Command)
    (inc : Increment) : provenance h origin (commands ++ [.submit inc]) =
      ghostStep tagCommit ((opened h origin).run h commands) (provenance h origin commands)
        (.submit inc) :=
  ghostRun_append ..

/-- The tags of `path` are those of its bytes, and they came about by its deltas. -/
structure Traced (g : Green) (path : Path) (tags : Tagged) : Prop where
  bytes : tags.map Prod.fst = (g.content.current[path]?).getD []
  tags_le : ∀ x ∈ tags, x.2 ≤ g.content.changedAt path
  since : ∀ version, version ≤ g.head →
    (∀ w, version ≤ w → w ≤ g.head → ∃ bytes, g.contentAt path w = some bytes) →
    ∃ old : Tagged, g.contentAt path version = some (old.map Prod.fst) ∧
      (∀ x ∈ old, x.2 ≤ version) ∧ Evolves old (g.intervening path version) tags

section Commit

variable {g : Green} {inc : Increment} {path : Path} {tags : Path → Tagged}

theorem intervening_committed {version : Nat} (hle : version ≤ g.head) :
    (g.committed inc).intervening path version = g.intervening path version ++
      ((deltaOf (g.acceptedEffects inc (resolve inc)))[path]?).toList := by
  rw [intervening, committed_deltas, List.drop_append_of_le_length hle, List.filterMap_append,
    intervening]
  cases hd : (deltaOf (g.acceptedEffects inc (resolve inc)))[path]? <;>
    simp [hd]

theorem tagCommit_whole (hpath : path ∈ (resolve inc).creates ∨ path ∈ (resolve inc).renames)
    {bytes : Bytes}
    (hlast : (contentSets (g.acceptedEffects inc (resolve inc)) path).getLast? =
      some (bytes, ops)) : g.tagCommit inc tags path = tagWith (g.head + 1) bytes := by
  have hcond : ((resolve inc).creates.contains path ||
      (resolve inc).renames.contains path) = true := by
    rw [Bool.or_eq_true, ExtTreeSet.contains_iff_mem, ExtTreeMap.contains_iff_mem]
    exact hpath
  simp only [tagCommit, hlast, hcond, if_true]

theorem tagCommit_edit {declared : List Op} (hm : (path, declared) ∈ (resolve inc).edits)
    {bytes : Bytes}
    (hlast : (contentSets (g.acceptedEffects inc (resolve inc)) path).getLast? =
      some (bytes, ops)) :
    g.tagCommit inc tags path =
      applyWith (fun op => tagWith (g.head + 1) (op.added inc.postState)) (tags path) 0 ops := by
  obtain ⟨-, hc, hr⟩ := Resolved.mem_edits.mp hm
  have hcond : ((resolve inc).creates.contains path ||
      (resolve inc).renames.contains path) = false := by
    rw [← Bool.not_eq_true, Bool.or_eq_true, ExtTreeSet.contains_iff_mem,
      ExtTreeMap.contains_iff_mem, not_or]
    exact ⟨hc, hr⟩
  simp only [tagCommit, hlast, hcond, Bool.false_eq_true, if_false]

theorem tagCommit_unset
    (hlast : (contentSets (g.acceptedEffects inc (resolve inc)) path).getLast? = none) :
    g.tagCommit inc tags path =
      if .removeContent path ∈ g.acceptedEffects inc (resolve inc) then [] else tags path := by
  simp only [tagCommit, hlast]

theorem bytes_tagCommit (ha : g.Accepts inc (resolve inc))
    (hbytes : (tags path).map Prod.fst = (g.content.current[path]?).getD []) :
    (g.tagCommit inc tags path).map Prod.fst =
      ((g.committed inc).content.current[path]?).getD [] := by
  rw [committed_content, current_contentWrites]
  cases hlast : (contentSets (g.acceptedEffects inc (resolve inc)) path).getLast? with
  | none =>
    rw [tagCommit_unset hlast]
    split
    · rfl
    · exact hbytes
  | some set =>
    obtain ⟨bytes, ops⟩ := set
    cases setOf_getLast ha hlast with
    | whole hpath _ _ =>
      rw [tagCommit_whole hpath hlast, map_fst_tagWith]
      rfl
    | edit declared current hm hcur _ happly =>
      rw [hcur] at hbytes
      have hmap : (fun op : Op => (tagWith (g.head + 1) (op.added inc.postState)).map Prod.fst) =
          Op.added inc.postState := by
        funext op
        rw [map_fst_tagWith]
      rw [tagCommit_edit hm hlast, map_applyWith, hmap, hbytes, ← applyFrom_eq_applyWith, happly]
      rfl

theorem tags_le_tagCommit (ha : g.Accepts inc (resolve inc)) (hc : g.CurrentHead)
    (htags : ∀ x ∈ tags path, x.2 ≤ g.content.changedAt path) :
    ∀ x ∈ g.tagCommit inc tags path, x.2 ≤ (g.committed inc).content.changedAt path := by
  have hold := hc.content.changed_le path
  have hchanged : (g.committed inc).content.changedAt path = g.content.changedAt path ∨
      (g.committed inc).content.changedAt path = g.head + 1 := by
    rw [committed_content, Versioned.changedAt_writeAll]
    split
    · exact .inl rfl
    · exact .inr rfl
  intro x hx
  cases hlast : (contentSets (g.acceptedEffects inc (resolve inc)) path).getLast? with
  | none =>
    rw [tagCommit_unset hlast] at hx
    split at hx
    · cases hx
    · have := htags x hx
      omega
  | some set =>
    obtain ⟨bytes, ops⟩ := set
    have hset : (g.committed inc).content.changedAt path = g.head + 1 := by
      rw [committed_content, Versioned.changedAt_writeAll, if_neg]
      refine List.ne_nil_of_mem (a := some bytes) ?_
      rw [changesOf_contentWrites, mem_staged, some_mem_contentChanges]
      exact ⟨ops, mem_contentSets.mp (List.mem_of_getLast? hlast)⟩
    rw [hset]
    cases setOf_getLast ha hlast with
    | whole hpath _ _ =>
      rw [tagCommit_whole hpath hlast] at hx
      exact (snd_of_mem_tagWith hx).le
    | edit declared current hm _ _ _ =>
      rw [tagCommit_edit hm hlast] at hx
      rcases mem_applyWith hx with hx | ⟨op, -, hx⟩
      · have := htags x hx
        omega
      · exact (snd_of_mem_tagWith hx).le

theorem replays_tagCommit (hc : g.CurrentHead) (hreplay : g.DeltasReplay path)
    (ha : g.Accepts inc (resolve inc)) (hsafe : g.DeltaSafe inc path)
    (ht : g.Traced path (tags path)) {old new : Bytes}
    (hold : g.content.current[path]? = some old)
    (hnew : (g.committed inc).content.current[path]? = some new) :
    Replays (tags path) (((deltaOf (g.acceptedEffects inc (resolve inc)))[path]?).getD [])
      (g.tagCommit inc tags path) := by
  have hbytes := ht.bytes
  rw [hold, Option.getD_some] at hbytes
  rw [committed_content, current_contentWrites] at hnew
  rw [getElem?_deltaOf]
  cases hlast : (contentSets (g.acceptedEffects inc (resolve inc)) path).getLast? with
  | none =>
    simp only [hlast] at hnew
    rw [tagCommit_unset hlast]
    split at hnew
    · cases hnew
    · rename_i hkept
      rw [if_neg hkept]
      exact .refl _
  | some set =>
    obtain ⟨bytes, ops⟩ := set
    have hlen : (tags path).length = old.length := by rw [← hbytes, List.length_map]
    refine (setOf_getLast ha hlast).replays
      (fun op => tagWith (g.head + 1) (op.added inc.postState)) hc hreplay ha hsafe hold hlen
      (fun op => by simp [tagWith]) (fun hpath => ?_) fun declared hm _ => tagCommit_edit hm hlast
    rw [tagCommit_whole hpath hlast, tagWith, List.length_map]

/-- **One commit** keeps the tags traced. -/
theorem Traced.committed (hc : g.CurrentHead) (hreplay : g.DeltasReplay path)
    (ha : g.Accepts inc (resolve inc)) (hsafe : g.DeltaSafe inc path)
    (ht : g.Traced path (tags path)) :
    (g.committed inc).Traced path (g.tagCommit inc tags path) := by
  have hbytes := bytes_tagCommit ha ht.bytes
  have hle := tags_le_tagCommit ha hc ht.tags_le
  have hc' := hc.committed inc
  refine ⟨hbytes, hle, ?_⟩
  intro version hversion hthere
  rw [committed_head] at hversion hthere
  obtain ⟨new, hnew⟩ := hthere (g.head + 1) hversion le_rfl
  have hvalue := hc'.content.value path
  rw [committed_head] at hvalue
  have hcur : (g.committed inc).content.current[path]? = some new := hvalue.symm.trans hnew
  by_cases hlast : version = g.head + 1
  · subst hlast
    refine ⟨g.tagCommit inc tags path, ?_, fun x hx => ?_, ?_⟩
    · rw [hbytes, hcur, hnew]
      rfl
    · have := hc'.content.changed_le path
      rw [committed_head] at this
      exact (hle x hx).trans this
    · have hnil : (g.committed inc).intervening path (g.head + 1) = [] := by
        have hlen : (g.committed inc).deltas.length = g.head + 1 := committed_head g inc
        rw [intervening, List.drop_eq_nil_of_le hlen.le]
        rfl
      rw [hnil]
      exact .refl _
  · have hversion' : version ≤ g.head := by omega
    have hthere' : ∀ w, version ≤ w → w ≤ g.head → ∃ bytes, g.contentAt path w = some bytes := by
      intro w hw hw'
      obtain ⟨bytes, hb⟩ := hthere w hw (by omega)
      exact ⟨bytes, by rw [← hb, contentAt_committed hw']⟩
    obtain ⟨old, hat, htags, he⟩ := ht.since version hversion' hthere'
    obtain ⟨head, hhead⟩ := hthere' g.head hversion' le_rfl
    have hheadcur : g.content.current[path]? = some head := (hc.content.value path).symm.trans hhead
    have hr := replays_tagCommit hc hreplay ha hsafe ht hheadcur hcur
    refine ⟨old, by rw [contentAt_committed hversion', hat], htags, ?_⟩
    rw [intervening_committed hversion']
    cases hd : (deltaOf (g.acceptedEffects inc (resolve inc)))[path]? with
    | none =>
      rw [hd] at hr
      rw [hr.eq_of_nil, Option.toList_none, List.append_nil]
      exact he
    | some ops =>
      rw [hd] at hr
      exact he.snoc hr

end Commit

/-! ## Runs -/

section Runs

variable {h : Blake3} {origin : Option Origin} {path : Path}

theorem Traced.folded {g : Green} {tags : Tagged} (ht : g.Traced path tags) (floor : Nat) :
    (g.folded floor).Traced path tags := by
  refine ⟨ht.bytes, ht.tags_le, ?_⟩
  intro version hversion hthere
  have hback : ∀ w, version ≤ w → w ≤ g.head → ∃ bytes, g.contentAt path w = some bytes := by
    intro w hw hw'
    obtain ⟨bytes, hb⟩ := hthere w hw hw'
    exact ⟨bytes, Versioned.valueAt_of_foldBelow hb⟩
  obtain ⟨old, hat, htags, he⟩ := ht.since version hversion hback
  obtain ⟨bytes, hb⟩ := hthere version le_rfl hversion
  have hsame : g.contentAt path version = some bytes := Versioned.valueAt_of_foldBelow hb
  refine ⟨old, ?_, htags, he⟩
  rw [hb, ← hsame, hat]

theorem traced_opened (h : Blake3) (origin : Option Origin) (path : Path) :
    (opened h origin).Traced path
      (tagWith 0 (((opened h origin).content.current[path]?).getD [])) := by
  refine ⟨map_fst_tagWith .., fun x hx => ?_, ?_⟩
  · rw [snd_of_mem_tagWith hx]
    exact Nat.zero_le _
  · intro version hversion hthere
    have hhead : (opened h origin).head = 0 := by cases origin <;> rfl
    rw [hhead] at hversion hthere
    have hzero : version = 0 := by omega
    subst hzero
    obtain ⟨bytes, hb⟩ := hthere 0 le_rfl le_rfl
    have hvalue := (CurrentHead.opened h origin).content.value path
    rw [hhead] at hvalue
    have hcur : (opened h origin).content.current[path]? = some bytes := hvalue.symm.trans hb
    rw [hcur]
    refine ⟨tagWith 0 bytes, ?_, fun x hx => (snd_of_mem_tagWith hx).le, ?_⟩
    · rw [map_fst_tagWith, hb]
    · have hnil : (opened h origin).intervening path 0 = [] := by
        have hlen : (opened h origin).deltas.length = 0 := hhead
        rw [intervening, List.drop_eq_nil_of_le hlen.le]
        rfl
      rw [hnil]
      exact .refl _

theorem traced_run {commands : List Command}
    (hmeets : RunMeets (fun g inc => g.Commits inc → g.DeltaSafe inc path) h
      (opened h origin) commands) :
    ((opened h origin).run h commands).CurrentHead ∧
      ((opened h origin).run h commands).DeltasReplay path ∧
      ((opened h origin).run h commands).Traced path (provenance h origin commands path) := by
  have hidentity : ∀ (g : Green) (tags : Path → Tagged),
      g.CurrentHead ∧ g.DeltasReplay path ∧ g.Traced path (tags path) →
      (g.foldIdentity h).CurrentHead ∧ (g.foldIdentity h).DeltasReplay path ∧
        (g.foldIdentity h).Traced path (tags path) :=
    fun g tags hp => ⟨hp.1.foldIdentity h, hp.2.1, hp.2.2.bytes, hp.2.2.tags_le, hp.2.2.since⟩
  have hstart : (opened h origin).CurrentHead ∧ (opened h origin).DeltasReplay path :=
    deltasReplay_run (show RunMeets _ h (opened h origin) [] from trivial)
  refine ghost_invariant tagCommit h
    (P := fun g tags => g.CurrentHead ∧ g.DeltasReplay path ∧ g.Traced path (tags path))
    (fun g tags hits cache hp => ⟨hp.1.quiet hits cache, hp.2.1, hp.2.2.bytes, hp.2.2.tags_le,
      hp.2.2.since⟩) hidentity
    (fun g tags => foldHistoryBefore_invariant (fun g => hidentity g tags)
      (fun g floor hp => ⟨hp.1.folded floor, hp.2.1.folded floor, hp.2.2.folded floor⟩) g) ?_
    ⟨hstart.1, hstart.2, traced_opened h origin path⟩ hmeets
  intro g tags inc hp hsafe hcommits
  have ha := hcommits.accepts
  exact ⟨hp.1.committed inc, hp.2.1.committed hp.1 ha (hsafe hcommits),
    hp.2.2.committed hp.1 hp.2.1 ha (hsafe hcommits)⟩

end Runs

/-! ## Accepted bytes -/

/-- Safe for the file at `path`, and not renaming it away while it has ops for it. -/
structure BytesSafe (g : Green) (inc : Increment) (path : Path) : Prop
    extends DeltaSafe g inc path where
  stays : ∀ ops, (resolve inc).content[path]? = some ops → ∀ dst, ¬ Renamed (resolve inc) dst path

section Kept

variable {g : Green} {inc : Increment} {path : Path} {tags : Path → Tagged}

theorem newer_eq_nil (ht : g.Traced path (tags path)) (hle : g.content.changedAt path ≤ inc.base) :
    (tags path).filter (fun b => inc.base < b.2) = [] := by
  refine List.filter_eq_nil_iff.mpr fun x hx => ?_
  have := ht.tags_le x hx
  simp only [decide_eq_true_eq]
  omega

theorem removed_le_base (hc : g.CurrentHead) (ha : g.Accepts inc (resolve inc))
    (ht : g.Traced path (tags path)) {declared : List Op}
    (hm : (path, declared) ∈ (resolve inc).edits)
    (hchanged : inc.base < g.content.changedAt path)
    (hthere : ∀ version, inc.base ≤ version → version ≤ g.head →
      ∃ bytes, g.contentAt path version = some bytes)
    {added : Op → Tagged} {p : Patch (UInt8 × Nat)}
    (hp : p ∈ (declared.filterMap (movedOp (g.deltasSince inc.base path))).map
      (Op.patchWith added)) :
    ∀ x ∈ ((tags path).drop p.offset).take p.len, x.2 ≤ inc.base := by
  have hle := hc.content.changed_le path
  have hslow : g.deltasSince inc.base path = g.intervening path inc.base := by
    have hfast : g.fastPath inc.base path = false := by
      rw [fastPath, Bool.and_eq_false_iff]
      exact .inr (by simpa using hchanged)
    simp [deltasSince, hfast]
  obtain ⟨old, hat, htags, he⟩ := ht.since inc.base (by omega) hthere
  obtain ⟨moved, hmoved, rfl⟩ := List.mem_map.mp hp
  obtain ⟨op, hop, hmap⟩ := List.mem_filterMap.mp hmoved
  rw [hslow] at hmap
  obtain ⟨range, hrange, rfl⟩ := movedOp_eq_some hmap
  have hfits := stop_le_of_fits (ha.edit_fits hm op hop)
  rw [hat, Option.map_some, Option.getD_some, List.length_map] at hfits
  have hwindow := (he.range_mapped hfits hrange).2
  have hpatch : ((tags path).drop range.start).take op.touchedRange.len =
      (old.drop op.touchedRange.start).take op.touchedRange.len := by
    rw [← hwindow, mapRange_len hrange]
  intro x hx
  rw [Op.patchWith, Op.touchedRange_moved] at hx
  rw [hpatch] at hx
  exact htags x (List.mem_of_mem_drop (List.mem_of_mem_take hx))

/-- **One merge** keeps every byte newer than its base. -/
theorem newer_sublist_tagCommit (hc : g.CurrentHead) (hreplay : g.DeltasReplay path)
    (ha : g.Accepts inc (resolve inc)) (hsafe : g.BytesSafe inc path)
    (ht : g.Traced path (tags path))
    (hcontent : (resolve inc).content[path]? = some ops)
    (hthere : ∀ version, inc.base ≤ version → version ≤ g.head →
      ∃ bytes, g.contentAt path version = some bytes) :
    ((tags path).filter (fun b => inc.base < b.2)).Sublist (g.tagCommit inc tags path) := by
  by_cases hchanged : g.content.changedAt path ≤ inc.base
  · rw [newer_eq_nil ht hchanged]
    exact List.nil_sublist _
  have hlt : inc.base < g.content.changedAt path := by omega
  cases hlast : (contentSets (g.acceptedEffects inc (resolve inc)) path).getLast? with
  | none =>
    -- untouched: an unlink needs the file unchanged, and it is not renamed away
    have hkept : .removeContent path ∉ g.acceptedEffects inc (resolve inc) := by
      rw [removeContent_mem ha]
      rintro ⟨hmem, ⟨dst, hr⟩ | ⟨hu, hs⟩⟩
      · exact hsafe.stays ops hcontent dst hr
      · obtain ⟨e, -, hun⟩ := ha.unlinked hu
        cases hun with
        | special h1 _ _ _ _ => exact hs h1
        | file _ _ h3 => exact hchanged h3
        | symlink _ h2 _ _ => exact h2 hmem
        | hardlink _ h2 _ _ _ => exact h2 hmem
        | nothing _ h2 _ _ => exact h2 hmem
    rw [tagCommit_unset hlast, if_neg hkept]
    exact List.filter_sublist
  | some set =>
    obtain ⟨bytes, ops'⟩ := set
    cases setOf_getLast ha hlast with
    | whole _ _ hfrom =>
      rcases hfrom with hfree | ⟨src, hr, -⟩
      · have hnil : tags path = [] := by
          have hbytes := ht.bytes
          rw [ExtTreeMap.getElem?_eq_none hfree] at hbytes
          exact List.map_eq_nil_iff.mp hbytes
        rw [hnil]
        exact List.nil_sublist _
      · -- a rename needs its destination's file unchanged
        obtain ⟨effects, -, hmoves⟩ := ha.moves hr.1
        cases hmoves with
        | itself heq => exact absurd heq hr.2
        | file _ hmov _ => exact absurd hmov.unchanged hchanged
        | symlink _ hmov _ _ => exact absurd hmov.unchanged hchanged
        | hardlink _ hmov _ _ _ => exact absurd hmov.unchanged hchanged
    | edit declared current hm hcur hops _ =>
      have hplaced := placed_of_edit hc hreplay ha hsafe.toDeltaSafe hm hcur
      have hbytes := ht.bytes
      rw [hcur, Option.getD_some] at hbytes
      have hlen : (tags path).length = current.length := by rw [← hbytes, List.length_map]
      obtain ⟨hord, -, hsplice⟩ := replays_of_placed
        (fun op => tagWith (g.head + 1) (op.added inc.postState))
        ha hsafe.toDeltaSafe hm hcur hplaced hlen fun op => by simp [tagWith]
      have hkept : ((tags path).filter (fun b => inc.base < b.2)).Sublist _ :=
        sublist_splice hord fun p hp x hx => by
          have := removed_le_base hc ha ht hm hlt hthere hp x hx
          simp only [decide_eq_false_iff_not]
          omega
      subst hops
      rw [tagCommit_edit hm hlast, hsplice]
      exact hkept.trans List.filter_sublist

end Kept

/-- **Nobody's accepted bytes are overwritten**: along a run whose commits are safe for a file, an
increment with content ops for it leaves, in their order, all the bytes that a version after its
base added. -/
theorem accepted_bytes_kept (h : Blake3) (origin : Option Origin) (commands : List Command)
    (inc : Increment) (path : Path) (ops : List Op)
    (hmeets : RunMeets (fun g inc => g.Commits inc → g.BytesSafe inc path) h (opened h origin)
      (commands ++ [.submit inc]))
    (hcontent : (resolve inc).content[path]? = some ops)
    (hthere : ∀ version, inc.base ≤ version → version ≤ ((opened h origin).run h commands).head →
      ∃ bytes, ((opened h origin).run h commands).contentAt path version = some bytes) :
    (provenance h origin commands path).map Prod.fst =
        (((opened h origin).run h commands).content.current[path]?).getD [] ∧
      (provenance h origin (commands ++ [.submit inc]) path).map Prod.fst =
        ((((opened h origin).run h commands).submit inc).1.content.current[path]?).getD [] ∧
      ((provenance h origin commands path).filter (fun b => inc.base < b.2)).Sublist
        (provenance h origin (commands ++ [.submit inc]) path) := by
  have hdelta := hmeets.imp fun g inc hsafe hc => (hsafe hc).toDeltaSafe
  obtain ⟨hc, hreplay, ht⟩ := traced_run hdelta.of_append.1
  have hafter := (traced_run hdelta).2.2.bytes
  rw [run_append] at hafter
  refine ⟨ht.bytes, hafter, ?_⟩
  rw [provenance_submit]
  by_cases hcommits : ((opened h origin).run h commands).Commits inc
  · rw [ghostStep_of_commits _ hcommits]
    have hsafe := hmeets.of_append.2.1 inc rfl hcommits
    exact newer_sublist_tagCommit hc hreplay hcommits.accepts hsafe ht hcontent hthere
  · rw [ghostStep_of_not_commits _ hcommits]
    exact List.filter_sublist

/-! ## An append and a truncate -/

/-- An origin with the file `a`. -/
def fileA : Origin := ⟨[("a", [1, 2, 3])], [], [], [], [], [], []⟩

/-- An increment that appends a byte to `a`. -/
def appendToA : Increment := ⟨1, 0, ⟨⟨["a"]⟩, [⟨.extend, 0, 0, 3, 1, 0⟩]⟩, [9], []⟩

/-- An increment that inserts a byte at the front of `a`. -/
def insertAtFront : Increment := ⟨2, 0, ⟨⟨["a"]⟩, [⟨.insert, 0, 0, 0, 1, 0⟩]⟩, [7], []⟩

/-- An increment that cuts `a` to its first byte. -/
def truncateA : Increment := ⟨3, 0, ⟨⟨["a"]⟩, [⟨.truncate, 0, 0, 1, 2, u64Max⟩]⟩, [], []⟩

theorem accepted_bytes_kept_insertAtFront :
    (provenance .zero (some fileA) [.submit appendToA] "a").filter (fun b => 0 < b.2) = [(9, 1)] ∧
      ((provenance .zero (some fileA) [.submit appendToA] "a").filter
        (fun b => insertAtFront.base < b.2)).Sublist
        (provenance .zero (some fileA) ([.submit appendToA] ++ [.submit insertAtFront]) "a") := by
  have hrenames : (resolve appendToA).renames = ∅ ∧ (resolve insertAtFront).renames = ∅ :=
    ⟨rfl, rfl⟩
  have hthere : ∀ version, version ≤ 1 → ∃ bytes,
      ((opened .zero (some fileA)).run .zero [.submit appendToA]).contentAt "a" version =
        some bytes := by
    intro version hle
    obtain rfl | rfl : version = 0 ∨ version = 1 := by omega
    · exact ⟨[1, 2, 3], by decide⟩
    · exact ⟨[1, 2, 3, 9], by decide⟩
  have hmeets : RunMeets (fun g inc => g.Commits inc → g.BytesSafe inc "a") .zero
      (opened .zero (some fileA)) ([.submit appendToA] ++ [.submit insertAtFront]) := by
    refine ⟨fun inc heq _ => ?_, fun inc heq _ => ?_, trivial⟩
    · cases heq
      refine ⟨deltaSafe_of_edit (by rfl) hrenames.1 (by decide) (fun version hle => ?_) "a", ?_⟩
      · obtain rfl : version = 0 := Nat.le_zero.mp hle
        exact ⟨[1, 2, 3], by decide⟩
      · rintro ops - dst ⟨hr, -⟩
        simp [hrenames.1] at hr
    · cases heq
      refine ⟨deltaSafe_of_edit (by rfl) hrenames.2 (by decide)
        (fun version hle => hthere version hle) "a", ?_⟩
      rintro ops - dst ⟨hr, -⟩
      simp [hrenames.2] at hr
  exact ⟨by decide, (accepted_bytes_kept .zero (some fileA) [.submit appendToA] insertAtFront "a" _
    hmeets rfl fun version _ => hthere version).2.2⟩

/-- The truncate's base has three bytes. The append's byte came after it, and goes. -/
theorem truncateA_drops_append :
    (((opened .zero (some fileA)).run .zero [.submit appendToA]).submit truncateA).2 = .accepted 2 ∧
      ((opened .zero (some fileA)).run .zero [.submit appendToA]).contentAt "a" 0 =
        some [1, 2, 3] ∧
      ((opened .zero (some fileA)).run .zero [.submit appendToA]).contentAt "a" 1 =
        some [1, 2, 3, 9] ∧
      ((opened .zero (some fileA)).run .zero
        [.submit appendToA, .submit truncateA]).contentAt "a" 2 = some [1] ∧
      ¬ ((provenance .zero (some fileA) [.submit appendToA] "a").filter
        (fun b => truncateA.base < b.2)).Sublist
        (provenance .zero (some fileA) ([.submit appendToA] ++ [.submit truncateA]) "a") := by
  refine ⟨by decide, by decide, by decide, by decide, by decide⟩

end Green

end Slates.Merge
