import Slates.Library.Versioned
import Slates.Register.Region

/-!
The kept retirements as a graph: so long as what a retired host carries is kept, the successor of an
object stays the one first ranked (`successor_congr`).
-/

open Std (ExtTreeMap)
open Relation (ReflTransGen)

namespace Slates.Register

variable {hosts : List HostId}

theorem mem_sortDedup {host : HostId} : host ∈ sortDedup hosts ↔ host ∈ hosts := by
  rw [sortDedup, List.mem_insertionSort, List.mem_dedup]

theorem checkedSucc_eq_some {n v : Nat} (h : checkedSucc n = some v) : v = n + 1 := by
  rw [checkedSucc] at h
  split at h
  · exact (Option.some.inj h).symm
  · cases h

namespace RegionalConfiguration

variable {config next : RegionalConfiguration} {object : ObjectId}

theorem exists_of_guarded {c : Prop} [Decidable c] {f : Nat → RegionalConfiguration}
    (h : (if c then (checkedSucc config.version).map f else none) = some next) :
    c ∧ ∃ version, checkedSucc config.version = some version ∧ next = f version := by
  split at h
  · rename_i hc
    obtain ⟨version, hversion, rfl⟩ := Option.map_eq_some_iff.mp h
    exact ⟨hc, version, hversion, rfl⟩
  · cases h

theorem exists_assignAdoption {adoption : Adoption}
    (h : config.assignAdoption object adoption = some next) :
    ∃ version, checkedSucc config.version = some version ∧
      next = { config with adoptions := config.adoptions.insert object adoption, version } :=
  (exists_of_guarded h).2

theorem exists_adopted {successor : HostId} (h : config.adopted object successor = some next) :
    ∃ version, checkedSucc config.version = some version ∧
      next = { config with adoptions := config.adoptions.erase object, version } :=
  (exists_of_guarded h).2

end RegionalConfiguration

theorem RegionalConfiguration.mem_members_leave {config : RegionalConfiguration}
    {member host : HostId} {scatter : UInt64} {version : Nat} :
    host ∈ (config.leave member scatter version).members ↔
      host ∈ config.members ∧ host ≠ member := by
  show host ∈ config.members.filter (· != member) ↔ _
  rw [List.mem_filter, bne_iff_ne]

/-! ## Rendezvous -/

section Rendezvous

variable {object : ObjectId}

theorem rankedBefore_iff {a b : HostId} : RankedBefore object a b ↔
    (rendezvousWeight b object).toNat < (rendezvousWeight a object).toNat ∨
      ((rendezvousWeight a object).toNat = (rendezvousWeight b object).toNat ∧
        a.toNat ≤ b.toNat) := by
  rw [RankedBefore, UInt64.lt_iff_toNat_lt, UInt64.le_iff_toNat_le, UInt64.toNat_inj]

instance : Std.Total (RankedBefore object) where
  total a b := by
    rw [rankedBefore_iff, rankedBefore_iff]
    omega

instance : IsTrans HostId (RankedBefore object) where
  trans a b c := by
    rw [rankedBefore_iff, rankedBefore_iff, rankedBefore_iff]
    omega

theorem RankedBefore.antisymm {a b : HostId} (h : RankedBefore object a b)
    (h' : RankedBefore object b a) : a = b := by
  rw [rankedBefore_iff] at h h'
  exact UInt64.toNat_inj.mp (by omega)

theorem rendezvousFirst_eq_some {host : HostId} :
    rendezvousFirst hosts object = some host ↔
      host ∈ hosts ∧ ∀ other ∈ hosts, RankedBefore object host other := by
  have hmem := fun h => @List.mem_insertionSort _ (RankedBefore object) _ hosts h
  have hsorted := List.pairwise_insertionSort (RankedBefore object) hosts
  rw [rendezvousFirst, rendezvousRanked]
  cases hranked : hosts.insertionSort (RankedBefore object) with
  | nil =>
    rw [hranked] at hmem
    simp only [List.head?_nil, reduceCtorEq, false_iff, not_and]
    exact fun h => absurd ((hmem host).mpr h) List.not_mem_nil
  | cons first rest =>
    rw [hranked] at hmem hsorted
    have hfirst : ∀ other ∈ hosts, RankedBefore object first other := by
      intro other hother
      rcases List.mem_cons.mp ((hmem other).mpr hother) with rfl | hrest
      · rcases Std.Total.total (r := RankedBefore object) other other with h | h <;> exact h
      · exact (List.pairwise_cons.mp hsorted).1 other hrest
    have hin : first ∈ hosts := (hmem first).mp (List.mem_cons_self ..)
    rw [List.head?_cons, Option.some.injEq]
    constructor
    · rintro rfl
      exact ⟨hin, hfirst⟩
    · rintro ⟨hhost, hall⟩
      exact RankedBefore.antisymm (hfirst host hhost) (hall first hin)

theorem rendezvousFirst_congr {hosts' : List HostId} (h : ∀ host, host ∈ hosts ↔ host ∈ hosts') :
    rendezvousFirst hosts object = rendezvousFirst hosts' object := by
  refine Option.ext fun host => ?_
  rw [rendezvousFirst_eq_some, rendezvousFirst_eq_some, h host]
  exact and_congr_right fun _ => forall_congr' fun other => by rw [h other]

theorem exists_rendezvousFirst {host : HostId} (h : host ∈ hosts) :
    ∃ first, rendezvousFirst hosts object = some first := by
  cases hfirst : rendezvousFirst hosts object with
  | some first => exact ⟨first, rfl⟩
  | none =>
    rw [rendezvousFirst, rendezvousRanked, List.head?_eq_none_iff] at hfirst
    have hin := (List.mem_insertionSort (RankedBefore object)).mpr h
    rw [hfirst] at hin
    cases hin

end Rendezvous

structure Retirement.Same (r r' : Retirement) : Prop where
  version : r.version = r'.version
  settled : r.settled = r'.settled
  survivors : r.survivors = r'.survivors
  unconfirmed : r.unconfirmed = r'.unconfirmed

theorem Retirement.Same.refl (r : Retirement) : r.Same r := ⟨rfl, rfl, rfl, rfl⟩

namespace RegionalConfiguration

section Recovery

variable {config config' : RegionalConfiguration} {departed host : HostId} {object : ObjectId}

theorem isSome_carried : (config.carried departed).isSome ↔ departed ∈ config.retired := by
  rw [carried, Option.isSome_map, ← ExtTreeMap.mem_iff_isSome_getElem?]

theorem mem_recoveryOwners {owner : HostId} :
    owner ∈ config.recoveryOwners departed ↔
      departed ∈ config.retired ∧ ReflTransGen (Search.Edge config.carried) departed owner := by
  rw [recoveryOwners, List.mem_insertionSort,
    Search.mem_reachable (nodup_keys _)
      (fun k hk => ExtTreeMap.mem_keys.mpr (isSome_carried.mp hk)), isSome_carried]

theorem mem_recoveryHosts :
    host ∈ config.recoveryHosts departed ↔ ∃ owner ∈ config.recoveryOwners departed, ∃ r,
      config.retired[owner]? = some r ∧ host ∈ r.settled.hosts := by
  rw [recoveryHosts, mem_sortDedup, List.mem_flatMap]
  refine exists_congr fun owner => and_congr_right fun _ => ?_
  cases config.retired[owner]? <;> simp

theorem mem_recoveryCohorts :
    host ∈ (config.recoveryCohorts departed object).flatten ↔
      ∃ owner ∈ config.recoveryOwners departed, ∃ r, config.retired[owner]? = some r ∧
        host ∈ r.settled.cohort owner object config.quorum := by
  simp only [recoveryCohorts, List.mem_flatten, List.mem_filterMap, Option.map_eq_some_iff]
  constructor
  · rintro ⟨_, ⟨owner, howner, r, hr, rfl⟩, hin⟩
    exact ⟨owner, howner, r, hr, hin⟩
  · rintro ⟨owner, howner, r, hr, hin⟩
    exact ⟨_, ⟨owner, howner, r, hr, rfl⟩, hin⟩

theorem successor_mem {r : Retirement} (hr : config.retired[departed]? = some r)
    (h : config.successor departed object = some host) : host ∈ r.survivors := by
  rw [successor, hr, Option.bind_some, rendezvousFirst_eq_some, mem_sortDedup, List.mem_filter]
    at h
  exact of_decide_eq_true h.1.2

theorem exists_successor {r : Retirement} (hr : config.retired[departed]? = some r)
    (hhost : host ∈ r.survivors) (hin : host ∈ (config.recoveryCohorts departed object).flatten) :
    ∃ first, config.successor departed object = some first := by
  rw [successor, hr, Option.bind_some]
  exact exists_rendezvousFirst
    (mem_sortDedup.mpr (List.mem_filter.mpr ⟨hin, decide_eq_true hhost⟩))

/-- Every carried takeover is kept. -/
def Closed (config : RegionalConfiguration) : Prop :=
  ∀ (d : HostId) (r : Retirement), config.retired[d]? = some r →
    ∀ x ∈ r.unconfirmed, x ∈ config.retired

theorem Closed.carried (hclosed : config.Closed) :
    ∀ k ks, config.carried k = some ks → ∀ b ∈ ks, (config.carried b).isSome := by
  intro k ks hks b hb
  obtain ⟨r, hr, rfl⟩ := Option.map_eq_some_iff.mp hks
  exact isSome_carried.mpr (hclosed k r hr b hb)

theorem mem_of_reach (hd : departed ∈ config.retired)
    (hpath : ReflTransGen (Search.Edge config.carried) departed host) : host ∈ config.retired := by
  induction hpath with
  | refl => exact hd
  | tail _ hedge _ =>
    obtain ⟨_, -, -, hsome⟩ := hedge
    exact isSome_carried.mp hsome

/-- Whatever `departed` leads to is kept alike by the other configuration. -/
structure SameFrom (config config' : RegionalConfiguration) (departed : HostId) : Prop where
  quorum : config.quorum = config'.quorum
  kept : ∀ k, ReflTransGen (Search.Edge config.carried) departed k →
    ∃ r r', config.retired[k]? = some r ∧ config'.retired[k]? = some r' ∧ r.Same r'

section

variable (h : config.SameFrom config' departed)

include h

theorem SameFrom.mem_recoveryOwners (hclosed : config.Closed) {owner : HostId} :
    owner ∈ config'.recoveryOwners departed ↔ owner ∈ config.recoveryOwners departed := by
  obtain ⟨r, r', hr, hr', -⟩ := h.kept departed .refl
  rw [RegionalConfiguration.mem_recoveryOwners, RegionalConfiguration.mem_recoveryOwners,
    iff_true_intro (mem_of_getElem? hr), iff_true_intro (mem_of_getElem? hr')]
  refine and_congr_right fun _ => Search.reach_congr (fun k hk => ?_) hclosed.carried owner
  obtain ⟨a, b, ha, hb, hsame⟩ := h.kept k hk
  rw [RegionalConfiguration.carried, RegionalConfiguration.carried, ha, hb, Option.map_some,
    Option.map_some, hsame.unconfirmed]

theorem SameFrom.recovers_iff (hclosed : config.Closed) (P : HostId → Settled → Prop) :
    (∃ owner ∈ config'.recoveryOwners departed, ∃ r, config'.retired[owner]? = some r ∧
        P owner r.settled) ↔
      ∃ owner ∈ config.recoveryOwners departed, ∃ r, config.retired[owner]? = some r ∧
        P owner r.settled := by
  refine exists_congr fun owner => ?_
  rw [h.mem_recoveryOwners hclosed]
  refine and_congr_right fun howner => ?_
  obtain ⟨r, r', hr, hr', hsame⟩ :=
    h.kept owner (RegionalConfiguration.mem_recoveryOwners.mp howner).2
  simp only [hr, hr', Option.some.injEq, exists_eq_left', hsame.settled]

theorem SameFrom.mem_recoveryHosts (hclosed : config.Closed) :
    host ∈ config'.recoveryHosts departed ↔ host ∈ config.recoveryHosts departed := by
  rw [RegionalConfiguration.mem_recoveryHosts, RegionalConfiguration.mem_recoveryHosts]
  exact h.recovers_iff hclosed fun _ settled => host ∈ settled.hosts

/-- **The successor is fixed** while what leads to it is kept. -/
theorem SameFrom.successor (hclosed : config.Closed) :
    config'.successor departed object = config.successor departed object := by
  obtain ⟨r, r', hr, hr', hsame⟩ := h.kept departed .refl
  rw [RegionalConfiguration.successor, RegionalConfiguration.successor, hr, hr', Option.bind_some,
    Option.bind_some]
  refine rendezvousFirst_congr fun host => ?_
  rw [mem_sortDedup, mem_sortDedup, List.mem_filter, List.mem_filter, hsame.survivors,
    mem_recoveryCohorts, mem_recoveryCohorts, ← h.quorum]
  exact and_congr_left fun _ =>
    h.recovers_iff hclosed fun owner settled => host ∈ settled.cohort owner object config.quorum

end

end Recovery

end RegionalConfiguration

end Slates.Register
