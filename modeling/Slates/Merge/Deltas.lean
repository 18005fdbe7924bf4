import Slates.Merge.Positions
import Slates.Merge.RunningIdentity

/-!
Recorded deltas. A version's ops on a path should say how its file became the next one (`Replays`).
An accepted increment records such ops unless it renames a file over another's bytes, declares ops
out of order, truncates a file that grew at its end, or edits a path whose file was made again since
its base.
-/

open Std (ExtTreeMap ExtTreeSet)

namespace Slates.Merge

namespace Green

/-- The ops that version `version + 1` records for `path`; none, no change. -/
def recordedOps (g : Green) (version : Nat) (path : Path) : List Op :=
  ((g.deltas[version]?).bind (·[path]?)).getD []

/-- Every delta recorded for `path` replays. -/
def DeltasReplay (g : Green) (path : Path) : Prop :=
  ∀ version old new, version < g.head → g.contentAt path version = some old →
    g.contentAt path (version + 1) = some new → Replays old (g.recordedOps version path) new

/-- An increment whose change of the file at `path` records what it does. -/
structure DeltaSafe (g : Green) (inc : Increment) (path : Path) : Prop where
  /-- A file is renamed over no bytes. -/
  renames : ∀ src, Renamed (resolve inc) path src → src ∈ g.content.current →
    ∀ bytes, g.content.current[path]? = some bytes → bytes = []
  /-- The ops of an edit are in order and apart. -/
  ordered : ∀ ops, (path, ops) ∈ (resolve inc).edits →
    ops.Pairwise (fun a b => a.touchedRange.stop ≤ b.offset)
  /-- A truncate, mapped to the head, ends where the head's file does. -/
  truncates : ∀ ops op moved current, (path, ops) ∈ (resolve inc).edits → op ∈ ops →
    op.kind = .truncate → movedOp (g.deltasSince inc.base path) op = some moved →
    g.content.current[path]? = some current → moved.offset + moved.len = current.length
  /-- An edited file that the base had was there ever since. -/
  continuous : ∀ ops, (path, ops) ∈ (resolve inc).edits →
    (∃ bytes, g.contentAt path inc.base = some bytes) →
    ∀ version, inc.base ≤ version → version ≤ g.head →
      ∃ bytes, g.contentAt path version = some bytes

section Edit

variable {g : Green} {inc : Increment} {path : Path} {ops : List Op} {current : Bytes}

variable {old : Bytes} {deltas : List (List Op)}

theorem evolves_intervening (hreplay : g.DeltasReplay path) {base : Nat} (hle : base ≤ g.head)
    (hthere : ∀ version, base ≤ version → version ≤ g.head →
      ∃ bytes, g.contentAt path version = some bytes)
    (hold : g.contentAt path base = some old) (hcur : g.contentAt path g.head = some current) :
    Evolves old (g.intervening path base) current := by
  -- from the head downwards
  obtain ⟨k, hk⟩ : ∃ k, g.head = base + k := ⟨g.head - base, by omega⟩
  induction k generalizing base old with
  | zero =>
    have hnil : g.intervening path base = [] := by
      rw [intervening, List.drop_eq_nil_of_le (by rw [← head]; omega)]
      rfl
    have hsame : base = g.head := by omega
    rw [hsame, hcur] at hold
    cases hold
    rw [hnil]
    exact .refl _
  | succ k ih =>
    have hlt : base < g.deltas.length := by rw [← head]; omega
    obtain ⟨mid, hmid⟩ := hthere (base + 1) (by omega) (by omega)
    have hr := hreplay base old mid (by omega) hold hmid
    have hrest := ih (by omega) (fun v hv hv' => hthere v (by omega) hv') hmid (by omega)
    have hstep : g.intervening path base =
        (g.deltas[base][path]?).toList ++ g.intervening path (base + 1) := by
      rw [intervening, List.drop_eq_getElem_cons hlt, List.filterMap_cons, intervening]
      cases g.deltas[base][path]? <;> rfl
    have hops : g.recordedOps base path = (g.deltas[base][path]?).getD [] := by
      rw [recordedOps, List.getElem?_eq_getElem hlt]
      rfl
    rw [hops] at hr
    rw [hstep]
    cases hd : g.deltas[base][path]? with
    | none =>
      rw [hd] at hr
      have heq := hr.eq_of_nil
      subst heq
      exact hrest
    | some ops =>
      rw [hd] at hr
      exact .step hr hrest

theorem movedOp_eq_some {op moved : Op} (h : movedOp deltas op = some moved) :
    ∃ range, mapRange deltas op.touchedRange = .shifted range ∧
      moved = { op with offset := range.start } := by
  unfold movedOp at h
  split at h
  · rename_i range hrange
    cases h
    exact ⟨range, hrange, rfl⟩
  · cases h

theorem mapRange_origin {range : Range} (h : mapRange deltas ⟨0, 0⟩ = .shifted range) :
    range = ⟨0, 0⟩ := by
  have hshift : ∀ (ops : List Op) (shift shift' : Int),
      shiftThrough ⟨0, 0⟩ ops shift = some shift' → shift' = shift := by
    intro ops
    induction ops with
    | nil => intro shift shift' hs; exact (Option.some.inj hs).symm
    | cons op ops ih =>
      intro shift shift' hs
      rw [shiftThrough] at hs
      split at hs
      · exact ih shift shift' hs
      · rename_i offset oldLen newLen _
        split at hs
        · cases hs
        rename_i hover
        obtain ⟨-, htie⟩ := Range.not_overlaps_iff.mp (by simpa using hover)
        split at hs
        · rename_i hbefore
          have hzero : offset + oldLen ≤ 0 := hbefore
          exact absurd ⟨by simp; omega, rfl, by simp; omega⟩ htie
        · rw [if_pos (by simp [Range.stop])] at hs
          exact (Option.some.inj hs).symm
  induction deltas with
  | nil => exact (Mapped.shifted.inj h).symm
  | cons ops deltas ih =>
    rw [mapRange] at h
    split at h
    · rename_i next hnext
      unfold mapThroughOne at hnext
      split at hnext
      · cases hnext
      · rename_i shift hs
        rw [hshift _ _ _ hs] at hnext
        cases hnext
        exact ih h
    · cases h

/-- Where the mapped ops of an edit stand in the head's file. -/
structure Placed (g : Green) (inc : Increment) (path : Path) (ops : List Op) (current : Bytes) :
    Prop where
  inside : ∀ op ∈ ops, ∀ moved, movedOp (g.deltasSince inc.base path) op = some moved →
    moved.touchedRange.stop ≤ current.length
  ordered : ∀ a ∈ ops, ∀ b ∈ ops, a.touchedRange.stop ≤ b.offset → ∀ a' b',
    movedOp (g.deltasSince inc.base path) a = some a' →
    movedOp (g.deltasSince inc.base path) b = some b' → a'.touchedRange.stop ≤ b'.offset

theorem placed_of_evolves (he : Evolves old (g.deltasSince inc.base path) current)
    (hfits : ∀ op ∈ ops, op.touchedRange.stop ≤ old.length) : g.Placed inc path ops current where
  inside := by
    intro op hop moved hmoved
    obtain ⟨range, hrange, rfl⟩ := movedOp_eq_some hmoved
    rw [Op.touchedRange_moved, ← mapRange_len hrange]
    exact (he.range_mapped (hfits op hop) hrange).1
  ordered := by
    intro a _ b _ hab a' b' ha' hb'
    obtain ⟨ra, hra, rfl⟩ := movedOp_eq_some ha'
    obtain ⟨rb, hrb, rfl⟩ := movedOp_eq_some hb'
    rw [← Op.touchedRange_start b] at hab
    have := he.mapped_mono hab hra hrb
    rw [Op.touchedRange_moved, ← mapRange_len hra]
    exact this

theorem placed_of_absent (hfits : ∀ op ∈ ops, op.touchedRange = ⟨0, 0⟩) :
    g.Placed inc path ops current := by
  have hmoved : ∀ op ∈ ops, ∀ moved, movedOp (g.deltasSince inc.base path) op = some moved →
      moved.offset = 0 ∧ moved.touchedRange = ⟨0, 0⟩ := by
    intro op hop moved hmoved
    obtain ⟨range, hrange, rfl⟩ := movedOp_eq_some hmoved
    rw [hfits op hop] at hrange
    rw [Op.touchedRange_moved, mapRange_origin hrange, hfits op hop]
    exact ⟨rfl, rfl⟩
  refine ⟨fun op hop moved h => ?_, fun a ha b hb _ a' b' ha' hb' => ?_⟩
  · rw [(hmoved op hop moved h).2]
    exact Nat.zero_le _
  · rw [(hmoved a ha a' ha').2, (hmoved b hb b' hb').1]
    exact le_rfl

theorem stop_le_of_fits {baseLen postLen : Nat} {op : Op} (h : op.fits baseLen postLen = true) :
    op.touchedRange.stop ≤ baseLen := by
  unfold Op.fits at h
  simp only [Bool.and_eq_true, decide_eq_true_eq] at h
  obtain ⟨⟨hoffset, hkind⟩, -⟩ := h
  cases hk : op.kind <;> simp [hk] at hkind <;> simp [Op.touchedRange, Range.stop, hk] <;> omega

theorem src_le_of_fits {baseLen postLen : Nat} {op : Op} (h : op.fits baseLen postLen = true)
    (ha : op.kind.addsContent = true) : op.src + op.len ≤ postLen := by
  unfold Op.fits at h
  simp only [Bool.and_eq_true, Bool.or_eq_true, ha, decide_eq_true_eq] at h
  simpa using h.2

theorem Accepts.edit_fits (ha : g.Accepts inc (resolve inc))
    (hm : (path, ops) ∈ (resolve inc).edits) :
    ∀ op ∈ ops, op.fits (((g.contentAt path inc.base).map List.length).getD 0)
      inc.postState.length = true := by
  obtain ⟨hcontent, hcreate, hrename⟩ := Resolved.mem_edits.mp hm
  have hfits := ha.fits path ops hcontent
  have hlen : g.editedLen inc (resolve inc) path =
      ((g.contentAt path inc.base).map List.length).getD 0 := by
    have hc : (resolve inc).creates.contains path = false := by
      rw [← Bool.not_eq_true, ExtTreeSet.contains_iff_mem]
      exact hcreate
    have hr : (resolve inc).renames.getD path path = path := by
      rw [ExtTreeMap.getD_eq_getD_getElem?, ExtTreeMap.getElem?_eq_none hrename]
      rfl
    rw [editedLen, hc, hr]
    rfl
  rw [hlen] at hfits
  exact List.all_eq_true.mp hfits

theorem evolves_deltasSince (hc : g.CurrentHead) (hreplay : g.DeltasReplay path)
    (hcur : g.content.current[path]? = some current) (hold : g.contentAt path inc.base = some old)
    (hthere : ∀ version, inc.base ≤ version → version ≤ g.head →
      ∃ bytes, g.contentAt path version = some bytes) :
    Evolves old (g.deltasSince inc.base path) current := by
  have hhead : g.contentAt path g.head = some current := (hc.content.value path).trans hcur
  have hmem : g.content.current.contains path = true := by
    rw [ExtTreeMap.contains_iff_mem]
    exact mem_of_getElem? hcur
  unfold deltasSince
  split
  · rename_i hfast
    simp only [fastPath, hmem, Bool.true_and, decide_eq_true_eq] at hfast
    have hsame : g.contentAt path inc.base = some current :=
      (hc.content.valueAt_of_changed_le hfast).trans hcur
    rw [hsame] at hold
    cases hold
    exact .refl _
  · rename_i hslow
    simp only [fastPath, hmem, Bool.true_and, decide_eq_true_eq] at hslow
    have hle := hc.content.changed_le path
    exact evolves_intervening hreplay (by omega) hthere hold hhead

theorem placed_of_edit (hc : g.CurrentHead) (hreplay : g.DeltasReplay path)
    (ha : g.Accepts inc (resolve inc)) (hsafe : g.DeltaSafe inc path)
    (hm : (path, ops) ∈ (resolve inc).edits) (hcur : g.content.current[path]? = some current) :
    g.Placed inc path ops current := by
  have hfits := ha.edit_fits hm
  cases hold : g.contentAt path inc.base with
  | none =>
    rw [hold] at hfits
    refine placed_of_absent fun op hop => ?_
    have hstop := stop_le_of_fits (hfits op hop)
    simp only [Option.map_none, Option.getD_none, Range.stop] at hstop
    rcases hrange : op.touchedRange with ⟨start, len⟩
    rw [hrange] at hstop
    simp only at hstop
    congr 1 <;> omega
  | some old =>
    have he := evolves_deltasSince hc hreplay hcur hold (hsafe.continuous ops hm ⟨old, hold⟩)
    rw [hold] at hfits
    exact placed_of_evolves he fun op hop => stop_le_of_fits (hfits op hop)

/-- **An edit records what it does.** -/
theorem replays_of_placed {α : Type} (added : Op → List α) {base : List α}
    (ha : g.Accepts inc (resolve inc)) (hsafe : g.DeltaSafe inc path)
    (hm : (path, ops) ∈ (resolve inc).edits) (hcur : g.content.current[path]? = some current)
    (hplaced : g.Placed inc path ops current) (hbase : base.length = current.length)
    (hadded : ∀ op, (added op).length = (op.added inc.postState).length) :
    let mapped := ops.filterMap (movedOp (g.deltasSince inc.base path))
    InOrder base.length 0 (mapped.map (Op.patchWith added)) ∧
      Records mapped (mapped.map (Op.patchWith added)) ∧
      applyWith added base 0 mapped = splice base 0 (mapped.map (Op.patchWith added)) := by
  intro mapped
  have hfits := ha.edit_fits hm
  have hcontent := (Resolved.mem_edits.mp hm).1
  have hsource :
      ∀ moved ∈ mapped, ∃ op ∈ ops, movedOp (g.deltasSince inc.base path) op = some moved :=
    fun moved hmoved => List.mem_filterMap.mp hmoved
  have hord : InOrder base.length 0 (mapped.map (Op.patchWith added)) := by
    rw [inOrder_iff]
    refine ⟨?_, ?_, Nat.zero_le _⟩
    · rw [List.pairwise_map, List.pairwise_filterMap]
      refine (hsafe.ordered ops hm).imp_of_mem fun {a b} hma hmb hab a' ha' b' hb' => ?_
      rw [Op.patchWith_stop]
      exact hplaced.ordered a hma b hmb hab a' b' ha' hb'
    · intro p hp
      obtain ⟨moved, hmem, rfl⟩ := List.mem_map.mp hp
      obtain ⟨op, hop, hmoved⟩ := hsource moved hmem
      rw [Op.patchWith_stop, hbase]
      exact ⟨Nat.zero_le _, hplaced.inside op hop moved hmoved⟩
  refine ⟨hord, ?_, applyWith_eq_splice hord fun moved hmem hk => ?_⟩
  · rw [Records, List.map_map]
    refine List.map_congr_left fun moved hmem => ?_
    obtain ⟨op, hop, hmoved⟩ := hsource moved hmem
    obtain ⟨range, -, rfl⟩ := movedOp_eq_some hmoved
    have hk := isContent_of_mem hcontent hop
    have hlen := length_added (src_le_of_fits (hfits op hop))
    exact effectOf_patchWith hk ((hadded _).trans hlen)
  · obtain ⟨op, hop, hmoved⟩ := hsource moved hmem
    have hkind : op.kind = .truncate := by
      obtain ⟨range, -, rfl⟩ := movedOp_eq_some hmoved
      exact hk
    rw [hbase]
    exact hsafe.truncates ops op moved current hm hop hkind hmoved hcur

end Edit

/-! ## Commits and runs -/

section Commit

variable {g : Green} {inc : Increment} {path : Path}

inductive SetOf (g : Green) (inc : Increment) (path : Path) (bytes : Bytes) (ops : List Op) : Prop
  /-- Made or renamed there. -/
  | whole (hpath : path ∈ (resolve inc).creates ∨ path ∈ (resolve inc).renames) :
      ops = [insertWhole bytes.length] →
      (path ∉ g.content.current ∨ ∃ src, Renamed (resolve inc) path src ∧ src ∈ g.content.current) →
      SetOf g inc path bytes ops
  /-- Edited in place. -/
  | edit (declared : List Op) (current : Bytes) : (path, declared) ∈ (resolve inc).edits →
      g.content.current[path]? = some current →
      ops = declared.filterMap (movedOp (g.deltasSince inc.base path)) →
      bytes = apply current ops inc.postState → SetOf g inc path bytes ops

theorem setOf_getLast (ha : g.Accepts inc (resolve inc)) {bytes : Bytes} {ops : List Op}
    (hlast : (contentSets (g.acceptedEffects inc (resolve inc)) path).getLast? =
      some (bytes, ops)) :
    SetOf g inc path bytes ops := by
  have hmem := mem_contentSets.mp (List.mem_of_getLast? hlast)
  rcases (setContent_mem ha).mp hmem with ⟨src, hr, hsrc, rfl⟩ | ⟨hc, hfree, rfl, rfl⟩ |
    ⟨declared, hm, h⟩
  · exact .whole (.inr (mem_of_getElem? hr.1)) rfl (.inr ⟨src, hr, mem_of_getElem? hsrc⟩)
  · exact .whole (.inl hc) rfl (.inl hfree)
  · cases mergeContent_ok h with
    | spliced current deltas hcur hdeltas _ _ =>
      subst hdeltas
      exact .edit declared current hm hcur rfl rfl

/-- **A set records what it does**, to the bytes or to anything kept with them. -/
theorem SetOf.replays {α : Type} (added : Op → List α) {base new : List α} {bytes old : Bytes}
    (h : SetOf g inc path bytes ops) (hc : g.CurrentHead) (hreplay : g.DeltasReplay path)
    (ha : g.Accepts inc (resolve inc)) (hsafe : g.DeltaSafe inc path)
    (hold : g.content.current[path]? = some old) (hbase : base.length = old.length)
    (hadded : ∀ op, (added op).length = (op.added inc.postState).length)
    (hwhole : path ∈ (resolve inc).creates ∨ path ∈ (resolve inc).renames →
      new.length = bytes.length)
    (hedit : ∀ declared, (path, declared) ∈ (resolve inc).edits →
      bytes = apply old ops inc.postState → new = applyWith added base 0 ops) :
    Replays base ops new := by
  cases h with
  | whole hpath hops hfrom =>
    -- renamed over no bytes, the whole file is an insert
    subst hops
    rcases hfrom with hfree | ⟨src, hr, hsrc⟩
    · exact absurd (mem_of_getElem? hold) hfree
    · have hempty := hsafe.renames src hr hsrc old hold
      subst hempty
      obtain rfl : base = [] := List.length_eq_zero_iff.mp hbase
      refine ⟨[⟨0, 0, new⟩], ?_, ⟨le_rfl, le_rfl⟩, ?_⟩
      · simp [Records, insertWhole, effectOf, hwhole hpath]
      · simp [splice, Patch.stop]
  | edit declared current hm hcur hops hbytes =>
    rw [hold] at hcur
    cases hcur
    have hplaced := placed_of_edit hc hreplay ha hsafe hm hold
    obtain ⟨hord, hrec, hsplice⟩ :=
      replays_of_placed added ha hsafe hm hold hplaced hbase hadded
    rw [hedit declared hm hbytes]
    subst hops
    exact ⟨_, hrec, hord, hsplice.symm⟩

theorem replays_committed (hc : g.CurrentHead) (hreplay : g.DeltasReplay path)
    (ha : g.Accepts inc (resolve inc)) (hsafe : g.DeltaSafe inc path) {old new : Bytes}
    (hold : g.content.current[path]? = some old)
    (hnew : (g.committed inc).content.current[path]? = some new) :
    Replays old (((deltaOf (g.acceptedEffects inc (resolve inc)))[path]?).getD []) new := by
  rw [committed_content, current_contentWrites] at hnew
  rw [getElem?_deltaOf]
  cases hlast : (contentSets (g.acceptedEffects inc (resolve inc)) path).getLast? with
  | none =>
    simp only [hlast] at hnew
    split at hnew
    · cases hnew
    · rw [hold] at hnew
      cases hnew
      exact .refl old
  | some set =>
    obtain ⟨bytes, ops⟩ := set
    simp only [hlast, Option.some.injEq] at hnew
    subst hnew
    exact (setOf_getLast ha hlast).replays (Op.added inc.postState) hc hreplay ha hsafe hold rfl
      (fun _ => rfl) (fun _ => rfl) fun _ _ hbytes => hbytes.trans (applyFrom_eq_applyWith ..)

theorem contentAt_committed {version : Nat} (hle : version ≤ g.head) :
    (g.committed inc).contentAt path version = g.contentAt path version := by
  rw [contentAt, committed_content, contentAt]
  exact Versioned.valueAt_writeAll_of_lt _ _ _ _ (Nat.lt_succ_of_le hle)

/-- **One commit** keeps every recorded delta sound. -/
theorem DeltasReplay.committed (hc : g.CurrentHead) (hreplay : g.DeltasReplay path)
    (ha : g.Accepts inc (resolve inc)) (hsafe : g.DeltaSafe inc path) :
    (g.committed inc).DeltasReplay path := by
  intro version old new hlt hold hnew
  rw [committed_head] at hlt
  have hlen : g.deltas.length = g.head := rfl
  by_cases hhead : version = g.head
  · subst hhead
    rw [contentAt_committed le_rfl, contentAt, hc.content.value] at hold
    have hnow := (hc.committed inc).content.value path
    rw [committed_head] at hnow
    rw [contentAt, hnow] at hnew
    have hops : (g.committed inc).recordedOps g.head path =
        ((deltaOf (g.acceptedEffects inc (resolve inc)))[path]?).getD [] := by
      rw [recordedOps, committed_deltas, List.getElem?_append_right (by omega), hlen, Nat.sub_self]
      rfl
    rw [hops]
    exact replays_committed hc hreplay ha hsafe hold hnew
  · have hops : (g.committed inc).recordedOps version path = g.recordedOps version path := by
      rw [recordedOps, committed_deltas, List.getElem?_append_left (by omega), recordedOps]
    rw [hops]
    rw [contentAt_committed (by omega)] at hold
    rw [contentAt_committed (by omega)] at hnew
    exact hreplay version old new (by omega) hold hnew

theorem DeltasReplay.folded (hreplay : g.DeltasReplay path) (floor : Nat) :
    (g.folded floor).DeltasReplay path := by
  intro version old new hlt hold hnew
  exact hreplay version old new hlt (Versioned.valueAt_of_foldBelow hold)
    (Versioned.valueAt_of_foldBelow hnew)

end Commit

theorem deltasReplay_run {h : Blake3} {origin : Option Origin} {commands : List Command}
    {path : Path} (hmeets : RunMeets (fun g inc => g.Commits inc → g.DeltaSafe inc path) h
      (opened h origin) commands) :
    ((opened h origin).run h commands).CurrentHead ∧
      ((opened h origin).run h commands).DeltasReplay path := by
  have hstart : (opened h origin).DeltasReplay path := by
    intro version old new hlt
    have hhead : (opened h origin).head = 0 := by cases origin <;> rfl
    omega
  have hidentity : ∀ g : Green, g.CurrentHead ∧ g.DeltasReplay path →
      (g.foldIdentity h).CurrentHead ∧ (g.foldIdentity h).DeltasReplay path :=
    fun g hp => ⟨hp.1.foldIdentity h, hp.2⟩
  refine run_invariant (fun g hits cache hp => ⟨hp.1.quiet hits cache, hp.2⟩) hidentity
    (foldHistoryBefore_invariant hidentity
      (fun g floor hp => ⟨hp.1.folded floor, hp.2.folded floor⟩)) ?_
    ⟨.opened h origin, hstart⟩ hmeets
  intro g inc hp hsafe hcommits
  exact ⟨hp.1.committed inc,
    hp.2.committed hp.1 hcommits.accepts (hsafe hcommits)⟩

def DeltasSound (g : Green) : Prop :=
  ∀ version path old new, version < g.head → g.contentAt path version = some old →
    g.contentAt path (version + 1) = some new → DeltaSound old (g.recordedOps version path) new

/-- **Recorded deltas are sound** in every run whose commits are all safe. -/
theorem deltas_sound_run (h : Blake3) (origin : Option Origin) (commands : List Command)
    (hmeets : RunMeets (fun g inc => g.Commits inc → ∀ path, g.DeltaSafe inc path) h
      (opened h origin) commands)
    (n : Nat) : ((opened h origin).run h (commands.take n)).DeltasSound := by
  intro version path old new hlt hold hnew
  have hpath := (hmeets.take n).imp fun g inc hsafe hcommits => hsafe hcommits path
  exact Replays.sound ((deltasReplay_run hpath).2 version old new hlt hold hnew)

/-- An origin with the files `a` and `b`. -/
def filesAB : Origin := ⟨[("a", [1]), ("b", [2])], [], [], [], [], [], []⟩

/-- One increment that inserts a byte at the front of `a`. -/
def insertInA : Increment := ⟨0, 0, ⟨⟨["a"]⟩, [⟨.insert, 0, 0, 0, 1, 0⟩]⟩, [9], []⟩

/-- One increment that renames `a` over `b`. -/
def renameOverB : Increment := ⟨0, 0, ⟨⟨["a", "b"]⟩, [⟨.rename, 0, 1, 0, 0, 0⟩]⟩, [], []⟩

theorem deltaSafe_of_edit {g : Green} {inc : Increment} {edited : Path} {op : Op}
    (hedits : (resolve inc).edits = [(edited, [op])]) (hrenames : (resolve inc).renames = ∅)
    (hkind : op.kind ≠ .truncate)
    (hthere : ∀ version, version ≤ g.head → ∃ bytes, g.contentAt edited version = some bytes)
    (path : Path) : g.DeltaSafe inc path := by
  have hsole : ∀ ops, (path, ops) ∈ (resolve inc).edits → path = edited ∧ ops = [op] := by
    intro ops hm
    simpa [hedits] using hm
  refine ⟨?_, ?_, ?_, ?_⟩
  · rintro src ⟨hr, -⟩
    simp [hrenames] at hr
  · intro ops hm
    rw [(hsole ops hm).2]
    exact List.pairwise_singleton ..
  · intro ops other moved current hm hop hk
    rw [(hsole ops hm).2] at hop
    rw [List.mem_singleton.mp hop] at hk
    exact absurd hk hkind
  · intro ops hm _ version _ hle
    rw [(hsole ops hm).1]
    exact hthere version hle

theorem deltas_sound_insertInA :
    RunMeets (fun g inc => g.Commits inc → ∀ path, g.DeltaSafe inc path) .zero
        (opened .zero (some filesAB)) [.submit insertInA] ∧
      ∀ n, ((opened .zero (some filesAB)).run .zero
        ([.submit insertInA].take n)).DeltasSound := by
  have hmeets : RunMeets (fun g inc => g.Commits inc → ∀ path, g.DeltaSafe inc path) .zero
      (opened .zero (some filesAB)) [.submit insertInA] := by
    refine ⟨fun inc heq _ path => ?_, trivial⟩
    cases heq
    refine deltaSafe_of_edit (by rfl) (by rfl) (by decide) (fun version hle => ?_) path
    obtain rfl : version = 0 := Nat.le_zero.mp hle
    exact ⟨[1], by decide⟩
  exact ⟨hmeets, deltas_sound_run .zero (some filesAB) _ hmeets⟩

/-- The rename of `a` over `b` records an insert, nothing of what was at `b`. -/
theorem renameOverB_delta_unsound :
    ((opened .zero (some filesAB)).submit renameOverB).2 = .accepted 1 ∧
      ¬ ((opened .zero (some filesAB)).run .zero [.submit renameOverB]).DeltasSound := by
  refine ⟨by decide, fun hsound => ?_⟩
  have hb := (hsound 0 "b" [2] [1] (by decide) (by decide) (by decide)).length
  revert hb
  decide

end Green

end Slates.Merge
