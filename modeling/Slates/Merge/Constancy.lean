import Slates.Merge.Recovery

/-!
What never changes once a green has answered: a version reads the same while it is kept, an
acceptance is for ever, and every version is the doing of one increment.
-/

namespace Slates.Merge

namespace Green

variable {h : Blake3} {g : Green} {version : Nat}

@[simp] theorem committed_accepted (g : Green) (inc : Increment) :
    (g.committed inc).accepted = g.accepted.insert inc.id (g.head + 1) := rfl

/-! ## Versions -/

/-- `later` is past `g`, and reads `version` as `g` does unless it was folded away. -/
structure Recalls (g : Green) (version : Nat) (later : Green) : Prop where
  head_le : g.head ≤ later.head
  content : later.foldedBelow ≤ version →
    ∀ path, later.contentAt path version = g.contentAt path version
  entries : later.foldedBelow ≤ version → later.entryAt version = g.entryAt version

theorem Recalls.committed {later : Green} (hr : g.Recalls version later) (hle : version ≤ g.head)
    (inc : Increment) : g.Recalls version (later.committed inc) := by
  have hlt : version < later.head + 1 := Nat.lt_succ_of_le (hle.trans hr.head_le)
  have hm := committed_marks later inc
  constructor
  · rw [committed_head]
    exact hr.head_le.trans (Nat.le_succ _)
  · intro hkept path
    rw [committed_foldedBelow] at hkept
    exact (hm.content.valueAt_of_lt hlt path).trans (hr.content hkept path)
  · intro hkept
    rw [committed_foldedBelow] at hkept
    exact (hm.entryAt_of_lt hlt).trans (hr.entries hkept)

theorem Recalls.folded {later : Green} (hr : g.Recalls version later) {floor : Nat}
    (hlt : later.foldedBelow < floor) : g.Recalls version (later.folded floor) where
  head_le := hr.head_le
  content hkept path := by
    have hkept : floor ≤ version := hkept
    rw [← hr.content (hlt.le.trans hkept) path]
    exact Versioned.valueAt_foldBelow _ _ _ _ hkept
  entries hkept := by
    have hkept : floor ≤ version := hkept
    rw [entryAt_folded later hkept, hr.entries (hlt.le.trans hkept)]

theorem Recalls.foldHistoryBefore {later : Green} (hr : g.Recalls version later) (h : Blake3)
    (floor : Nat) : g.Recalls version (later.foldHistoryBefore h floor).1 := by
  rw [foldHistoryBefore_fst]
  split_ifs with hdone hbehind
  · exact hr
  · have hbrought : g.Recalls version (later.foldIdentity h) := ⟨hr.head_le, hr.content, hr.entries⟩
    exact hbrought.folded (not_le.mp hdone)
  · exact hr.folded (not_le.mp hdone)

/-- **A version never changes**: one a green had reads as it did, in every dimension, until a fold
forgets it. -/
theorem version_never_changes (h : Blake3) (g : Green) (commands : List Command)
    (hread : version ≤ g.head) (hkept : (g.run h commands).foldedBelow ≤ version) :
    (∀ path, (g.run h commands).contentAt path version = g.contentAt path version) ∧
      (g.run h commands).entryAt version = g.entryAt version := by
  have hr : g.Recalls version (g.run h commands) :=
    run_invariant (fun _ _ _ hr => ⟨hr.head_le, hr.content, hr.entries⟩)
      (fun _ hr => ⟨hr.head_le, hr.content, hr.entries⟩)
      (fun _ floor hr => hr.foldHistoryBefore h floor) (fun _ inc hr _ _ => hr.committed hread inc)
      ⟨le_rfl, fun _ _ => rfl, fun _ => rfl⟩ (runMeets_true h g commands)
  exact ⟨hr.content hkept, hr.entries hkept⟩

def createdA : Green := ((opened .zero none).submit (createFile 1 "a" 1)).1

theorem version_never_changes_createdA :
    (createdA.run .zero disputedA).head = 2 ∧
      (createdA.run .zero disputedA).contentAt "a" 1 = createdA.contentAt "a" 1 :=
  ⟨by rfl, (version_never_changes .zero createdA disputedA (by decide) (by decide)).1 "a"⟩

/-! ## Answers -/

theorem accepted_run {id : Digest} (haccepted : g.accepted[id]? = some version)
    (commands : List Command) : (g.run h commands).accepted[id]? = some version := by
  refine run_invariant (P := fun g => g.accepted[id]? = some version) (fun _ _ _ ha => ha)
    (fun _ ha => ha) (foldHistoryBefore_invariant (fun _ ha => ha) fun _ _ ha => ha)
    (fun g inc ha _ hc => ?_) haccepted (runMeets_true h g commands)
  have hne : inc.id ≠ id := by
    rintro rfl
    rw [hc.fresh.1] at ha
    cases ha
  rw [committed_accepted, Std.ExtTreeMap.getElem?_insert, if_neg (by simpa using hne)]
  exact ha

/-- **An acceptance is for ever**: the increment is answered with the same version again, and
changes nothing. -/
theorem accepted_for_ever (h : Blake3) (g : Green) (inc again : Increment) (hid : again.id = inc.id)
    (commands : List Command) (haccepted : (g.submit inc).2 = .accepted version) :
    ((g.submit inc).1.run h commands).submit again =
      ((g.submit inc).1.run h commands, .accepted version) := by
  have hnow : (g.submit inc).1.accepted[again.id]? = some version := by
    rw [hid]
    rcases submit_outcome g inc with ⟨v, hv, hs⟩ | ⟨-, hs⟩ | ⟨hits, cache, windows, hs⟩
    · rw [hs] at haccepted ⊢
      cases haccepted
      exact hv
    · rw [hs] at haccepted ⊢
      cases haccepted
      simp
    · rw [hs] at haccepted
      cases haccepted
  have hlater := accepted_run (h := h) hnow commands
  generalize (g.submit inc).1.run h commands = later at hlater
  simp [submit, hlater]

theorem accepted_for_ever_createdA :
    (createdA.run .zero disputedA).submit (createFile 1 "a" 2) =
      (createdA.run .zero disputedA, .accepted 1) :=
  accepted_for_ever .zero (opened .zero none) (createFile 1 "a" 1)
    (createFile 1 "a" 2) rfl disputedA
    (by rfl)

/-- The increments accepted, and the versions they made, one each. -/
structure Authored (g : Green) : Prop where
  within : ∀ {id : Digest} {v : Nat}, g.accepted[id]? = some v → 0 < v ∧ v ≤ g.head
  made : ∀ v, 0 < v → v ≤ g.head → ∃ id : Digest, g.accepted[id]? = some v
  once : ∀ {id id' : Digest} {v : Nat}, g.accepted[id]? = some v → g.accepted[id']? = some v →
    id = id'

theorem Authored.committed (ha : g.Authored) (inc : Increment) (hf : g.Fresh inc) :
    (g.committed inc).Authored := by
  have hget : ∀ {id v}, (g.committed inc).accepted[id]? = some v ↔
      (id = inc.id ∧ v = g.head + 1) ∨ (id ≠ inc.id ∧ g.accepted[id]? = some v) := by
    intro id v
    rw [committed_accepted, Std.ExtTreeMap.getElem?_insert]
    by_cases hid : inc.id = id
    · simp [hid, eq_comm]
    · simp [hid, Ne.symm hid]
  constructor
  · intro id v hv
    rw [committed_head]
    rcases hget.mp hv with ⟨-, rfl⟩ | ⟨-, hv⟩
    · omega
    · have := ha.within hv
      omega
  · intro v hpos hle
    rw [committed_head] at hle
    rcases hle.lt_or_eq with hlt | rfl
    · obtain ⟨id, hv⟩ := ha.made v hpos (Nat.lt_succ_iff.mp hlt)
      refine ⟨id, hget.mpr (.inr ⟨?_, hv⟩)⟩
      rintro rfl
      rw [hf.1] at hv
      cases hv
    · exact ⟨inc.id, hget.mpr (.inl ⟨rfl, rfl⟩)⟩
  · intro id id' v hv hv'
    rcases hget.mp hv with ⟨rfl, rfl⟩ | ⟨-, hv⟩ <;> rcases hget.mp hv' with ⟨rfl, heq⟩ | ⟨-, hv'⟩
    · rfl
    · exact absurd (ha.within hv').2 (by omega)
    · exact absurd (ha.within hv).2 (by omega)
    · exact ha.once hv hv'

/-- **Every version is the doing of one increment**: versions and accepted increments stand one to
one. -/
theorem one_increment_each_version (h : Blake3) (origin : Option Origin) (commands : List Command) :
    ((opened h origin).run h commands).Authored := by
  refine run_invariant (fun _ _ _ ha => ⟨ha.within, ha.made, ha.once⟩)
    (fun _ ha => ⟨ha.within, ha.made, ha.once⟩)
    (foldHistoryBefore_invariant (fun _ ha => ⟨ha.within, ha.made, ha.once⟩)
      fun _ _ ha => ⟨ha.within, ha.made, ha.once⟩)
    (fun _ inc ha _ hc => ha.committed inc hc.fresh) ?_ (runMeets_true h _ commands)
  cases origin <;> exact ⟨fun hv => by simp [opened, new, withOrigin] at hv,
    fun v hpos hle => absurd hle (by simp [opened, new, withOrigin, head]; omega),
    fun hv => by simp [opened, new, withOrigin] at hv⟩

end Green

end Slates.Merge
