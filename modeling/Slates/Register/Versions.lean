import Slates.Library.Runs
import Slates.Register.Settling
import Slates.Register.Lineage

/-!
A configuration's version as its name. Every change moves the version by one or changes nothing, but
for a takeover of a host that is no member.
-/

open Std (ExtTreeMap)

namespace Slates.Register

namespace RegionalConfiguration

def epochOf (config : RegionalConfiguration) (host : HostId) : HostEpoch :=
  config.epochs[host]?.getD firstEpoch

/-- A takeover of a host that is no member, its epoch and the version not the largest. -/
def FencesOutsider (config : RegionalConfiguration) : Change → Prop
  | .takeOver dead _ => dead ∉ config.members ∧
      (checkedSucc (config.epochOf dead)).isSome ∧ (checkedSucc config.version).isSome
  | _ => False

/-- The change advances the version by one if it changes anything. -/
def Versions (config : RegionalConfiguration) (change : Change) : Prop :=
  config.apply change ≠ config → (config.apply change).version = config.version + 1

section Step

variable {config : RegionalConfiguration}

theorem apply_takeOver_of_notMem {dead : HostId} {bumped version : Nat}
    (hmember : dead ∉ config.members) (hbumped : checkedSucc (config.epochOf dead) = some bumped)
    (hversion : checkedSucc config.version = some version) (scatter : UInt64) :
    config.apply (.takeOver dead scatter) =
      { config with epochs := config.epochs.insert dead bumped } := by
  rw [epochOf] at hbumped
  rw [apply, takeOver, hbumped, hversion]
  show (RegionalConfiguration.retire
    { config with epochs := config.epochs.insert dead bumped } dead scatter).getD _ = _
  rw [retire, if_neg hmember]
  rfl

/-- **Exactly** the takeover of an outsider does not version itself. -/
theorem versions_iff (config : RegionalConfiguration) (change : Change) :
    config.Versions change ↔ ¬ config.FencesOutsider change := by
  by_cases houtsider : config.FencesOutsider change
  · refine iff_of_false (fun hversions => ?_) (not_not_intro houtsider)
    cases change with
    | takeOver dead scatter =>
      obtain ⟨hmember, hbumped, hversion⟩ := houtsider
      obtain ⟨bumped, hbumped⟩ := Option.isSome_iff_exists.mp hbumped
      obtain ⟨version, hversion⟩ := Option.isSome_iff_exists.mp hversion
      have happly := apply_takeOver_of_notMem hmember hbumped hversion scatter
      have hfenced : (config.apply (.takeOver dead scatter)).epochOf dead = bumped := by
        rw [happly, epochOf, ExtTreeMap.getElem?_insert_self, Option.getD_some]
      have hne : config.apply (.takeOver dead scatter) ≠ config := by
        intro heq
        rw [heq] at hfenced
        exact (Nat.lt_succ_self _).ne (hfenced.trans (checkedSucc_eq_some hbumped))
      have := hversions hne
      rw [happly] at this
      simp at this
    | _ => exact houtsider
  · refine iff_of_true ?_ houtsider
    have hchanged := changed_apply config change
    intro hne
    generalize config.apply change = next at hne hchanged ⊢
    cases hchanged with
    | refused => exact absurd rfl hne
    | fenced outside epoch step =>
      refine absurd ⟨outside, ?_, ?_⟩ houtsider
      · exact Option.isSome_of_eq_some epoch
      · exact Option.isSome_of_eq_some step
    | admitted admits step => exact checkedSucc_eq_some step
    | left inside step fence => exact checkedSucc_eq_some step
    | settled current step => exact checkedSucc_eq_some step
    | noted step => exact checkedSucc_eq_some step

theorem epochOf_insert_le {dead : HostId} {bumped : Nat}
    (hbumped : checkedSucc (config.epochOf dead) = some bumped) (host : HostId) :
    config.epochOf host ≤ (config.epochs.insert dead bumped)[host]?.getD firstEpoch := by
  rw [getElem?_insert_if]
  split_ifs with heq
  · subst heq
    exact (Nat.le_succ _).trans (checkedSucc_eq_some hbumped).ge
  · exact le_rfl

theorem epochOf_apply_le (config : RegionalConfiguration) (change : Change) (host : HostId) :
    config.epochOf host ≤ (config.apply change).epochOf host := by
  have hchanged := changed_apply config change
  generalize config.apply change = next at hchanged ⊢
  cases hchanged with
  | refused => exact le_rfl
  | fenced outside epoch step => exact epochOf_insert_le epoch host
  | settled current step => exact le_rfl
  | noted step => exact le_rfl
  | left inside step fence =>
    rcases fence with ⟨-, rfl⟩ | ⟨-, bumped, rfl, epoch⟩
    · exact le_rfl
    · exact epochOf_insert_le epoch host
  | @admitted member domain scatter version admits step =>
    show _ ≤ (if member ∈ config.epochs then config.epochs
      else config.epochs.insert member firstEpoch)[host]?.getD firstEpoch
    split_ifs with hmember
    · exact le_rfl
    · rw [getElem?_insert_if, epochOf]
      split_ifs with heq
      · subst heq
        rw [ExtTreeMap.getElem?_eq_none hmember]
        exact le_rfl
      · exact le_rfl

end Step

/-! ## Whole histories -/

section Run

variable {config : RegionalConfiguration} {changes : List Change}

def VersionsRun (config : RegionalConfiguration) (changes : List Change) : Prop :=
  Runs.Meets apply Versions config changes

theorem VersionsRun.version_le (h : config.VersionsRun changes) :
    config.version ≤ (config.run changes).version ∧
      ((config.run changes).version = config.version → config.run changes = config) := by
  induction changes generalizing config with
  | nil => exact ⟨le_rfl, fun _ => rfl⟩
  | cons change changes ih =>
    obtain ⟨hle, heq⟩ := ih h.2
    change config.version ≤ ((config.apply change).run changes).version ∧
      (((config.apply change).run changes).version = config.version →
        (config.apply change).run changes = config)
    by_cases hsame : config.apply change = config
    · rw [hsame] at hle heq ⊢
      exact ⟨hle, heq⟩
    · have hnext := h.1 hsame
      exact ⟨by omega, fun hback => by omega⟩

theorem take_append_drop_take (changes : List Change) {m n : Nat} (hmn : m ≤ n) :
    changes.take m ++ (changes.take n).drop m = changes.take n := by
  have htake : (changes.take n).take m = changes.take m := by
    rw [List.take_take, min_eq_left hmn]
  rw [← htake, List.take_append_drop]

theorem epochOf_run_le (config : RegionalConfiguration) (changes : List Change) (host : HostId) :
    config.epochOf host ≤ (config.run changes).epochOf host := by
  induction changes generalizing config with
  | nil => exact le_rfl
  | cons change changes ih => exact (config.epochOf_apply_le change host).trans (ih _)

end Run

/-- A change that changes anything advances the version by one, states of one version are one, and
no epoch goes down. -/
structure NamesConfigurations (config : RegionalConfiguration) (changes : List Change) : Prop where
  versioned : ∀ n change, changes[n]? = some change →
    (config.run (changes.take n)).Versions change
  unique : ∀ m n, (config.run (changes.take m)).version = (config.run (changes.take n)).version →
    config.run (changes.take m) = config.run (changes.take n)
  fenced : ∀ m n host, m ≤ n →
    (config.run (changes.take m)).epochOf host ≤ (config.run (changes.take n)).epochOf host

/-- **A version names one configuration** exactly where members only are taken over. -/
theorem names_configurations_iff (members : List HostId) (quorum : Quorum)
    (domains : HostMap DomainId) (scatter : UInt64) (hasMirror : Bool) (changes : List Change) :
    (formed members quorum domains scatter hasMirror).NamesConfigurations changes ↔
      Runs.Meets apply (fun config change => ¬ config.FencesOutsider change)
        (formed members quorum domains scatter hasMirror) changes := by
  set config := formed members quorum domains scatter hasMirror
  rw [Runs.meets_iff_getElem?]
  constructor
  · exact fun h n change hchange => (versions_iff _ _).mp (h.versioned n change hchange)
  · intro h
    have hversioned : ∀ n change, changes[n]? = some change →
        (config.run (changes.take n)).Versions change :=
      fun n change hchange => (versions_iff _ _).mpr (h n change hchange)
    have hrun : config.VersionsRun changes := Runs.meets_iff_getElem?.mpr hversioned
    -- a later state of the same version
    have hlater : ∀ m n, m ≤ n →
        (config.run (changes.take m)).version = (config.run (changes.take n)).version →
        config.run (changes.take m) = config.run (changes.take n) := by
      intro m n hmn hversion
      have hsplit := take_append_drop_take changes hmn
      have hwhole := hrun.take n
      rw [← hsplit] at hwhole
      have htail : (config.run (changes.take m)).VersionsRun ((changes.take n).drop m) :=
        (Runs.meets_append.mp hwhole).2
      have hafter : config.run (changes.take n) =
          (config.run (changes.take m)).run ((changes.take n).drop m) := by
        rw [run, run, run, ← List.foldl_append, hsplit]
      rw [hafter] at hversion ⊢
      exact (htail.version_le.2 hversion.symm).symm
    refine ⟨hversioned, fun m n hversion => ?_, fun m n host hmn => ?_⟩
    · rcases le_total m n with hmn | hnm
      · exact hlater m n hmn hversion
      · exact (hlater n m hnm hversion.symm).symm
    · have hafter : config.run (changes.take n) =
          (config.run (changes.take m)).run ((changes.take n).drop m) := by
        rw [run, run, run, ← List.foldl_append, take_append_drop_take changes hmn]
      rw [hafter]
      exact epochOf_run_le _ _ _

/-- A host that never was a member is taken over: two configurations of version 0. -/
theorem outsider_fenced_unversioned :
    ((formed [1, 2] ⟨0⟩ ∅ 1 false).run [.takeOver 7 1]).version =
        (formed [1, 2] ⟨0⟩ ∅ 1 false).version ∧
      (formed [1, 2] ⟨0⟩ ∅ 1 false).epochOf 7 = 1 ∧
      ((formed [1, 2] ⟨0⟩ ∅ 1 false).run [.takeOver 7 1]).epochOf 7 = 2 := by
  decide +kernel

end RegionalConfiguration

end Slates.Register
