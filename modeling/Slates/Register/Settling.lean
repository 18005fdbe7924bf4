import Slates.Library.Quorums
import Slates.Library.Runs
import Slates.Register.Retirements

/-!
Neighbourhood changes seen from one owner and one of its objects. The owner installs the council's
configurations in order and may lag. A takeover through the settled cohort hears of the newest
committed record (`hears_run`), as long as an owner that is admitted owns nothing yet
(`readmitted_unheard`).
-/

open Std (ExtTreeMap)

namespace Slates.Register

/-- Every recovery quorum of the cohort has a host that acknowledged. -/
def Hears (quorum : Quorum) (acked cohort : List HostId) : Prop :=
  ∀ hosts : List HostId, hosts.Nodup → (∀ host ∈ hosts, host ∈ cohort) →
    hosts.length = quorum.recovery cohort.length → ∃ host ∈ hosts, host ∈ acked

/-- The configuration installed, those decided since, the hosts that acknowledged the newest
committed record, and the generations reported. -/
structure Ownership where
  installed : RegionalConfiguration
  pending : List RegionalConfiguration
  newest : Option (List HostId)
  reports : List Nat

inductive Event where
  | decide (change : Change)
  | install
  | commit (acked : List HostId)
  | acknowledge (host : HostId)
  | report

namespace Ownership

/-- The installed configuration and those still to be installed. -/
def ahead (s : Ownership) : List RegionalConfiguration := s.installed :: s.pending

def decided (s : Ownership) : RegionalConfiguration := s.ahead.getLast (List.cons_ne_nil _ _)

/-- The council settles the owner only on its report. -/
def reported (owner : HostId) (s : Ownership) : Change → Bool
  | .settle o generation => o != owner || decide (generation ∈ s.reports)
  | _ => true

def step (owner : HostId) (object : ObjectId) (s : Ownership) : Event → Ownership
  | .decide change =>
    if s.reported owner change then
      { s with pending := s.pending ++ [s.decided.apply change] }
    else s
  | .install =>
    match s.pending with
    | [] => s
    | next :: rest => { s with installed := next, pending := rest }
  | .commit acked =>
    match s.installed.configurationFor owner with
    | some config =>
      if (config.place object).placedWith acked config.quorum then { s with newest := some acked }
      else s
    | none => s
  | .acknowledge host => { s with newest := s.newest.map (host :: ·) }
  | .report =>
    match s.installed.configurationFor owner with
    | some config =>
      if s.newest.all (config.placedOnCurrent object) then
        { s with reports := config.generation :: s.reports }
      else s
    | none => s

def start (config : RegionalConfiguration) : Ownership := ⟨config, [], none, []⟩

def run (owner : HostId) (object : ObjectId) (s : Ownership) (events : List Event) : Ownership :=
  events.foldl (step owner object) s

/-- The owner has committed no record, and no configuration that names it is in force or to be
installed. -/
def AdmitsNew (owner : HostId) (s : Ownership) : Event → Prop
  | .decide (.admitMember member _ _) => member = owner → s.decided.admits owner = true →
    s.newest = none ∧ ∀ config ∈ s.ahead, owner ∉ config.members
  | _ => True

end Ownership

/-! ## Quorums -/

section Quorums

variable {quorum : Quorum} {acked cohort : List HostId}

theorem hears_of_lt (h : cohort.length < distinctAcksWithin cohort acked +
    quorum.recovery cohort.length) : Hears quorum acked cohort := by
  intro hosts hnodup hsub hlength
  have hacks : ∀ x ∈ (acked.filter (· ∈ cohort)).dedup, x ∈ cohort := fun x hx => by
    simpa using (List.mem_filter.mp (List.mem_dedup.mp hx)).2
  rw [← hlength, distinctAcksWithin] at h
  obtain ⟨x, hx, hin⟩ := Quorums.exists_common (List.nodup_dedup _) hnodup hacks hsub h
  exact ⟨x, hin, (List.mem_filter.mp (List.mem_dedup.mp hx)).1⟩

theorem hears_of_committed (h : quorum.committed (distinctAcksWithin cohort acked)) :
    Hears quorum acked cohort := by
  refine hears_of_lt ?_
  rw [Quorum.committed, decide_eq_true_eq, Quorum.commit] at h
  rw [Quorum.recovery]
  omega

theorem hears_of_committedWithin
    (h : quorum.committedWithin (distinctAcksWithin cohort acked) cohort.length) :
    Hears quorum acked cohort := by
  refine hears_of_lt ?_
  rw [Quorum.committedWithin, decide_eq_true_eq, Quorum.commit] at h
  rw [Quorum.recovery]
  omega

theorem Hears.cons (h : Hears quorum acked cohort) (host : HostId) :
    Hears quorum (host :: acked) cohort := by
  intro hosts hnodup hsub hlength
  obtain ⟨x, hx, hin⟩ := h hosts hnodup hsub hlength
  exact ⟨x, hx, List.mem_cons_of_mem _ hin⟩

end Quorums

/-! ## Cohorts -/

theorem candidatesFor_congr {owner : HostId} {hosts : List HostId} {a b : HostMap DomainId}
    {object : ObjectId} {quorum : Quorum} (h : ∀ host ∈ hosts, a[host]? = b[host]?) :
    candidatesFor owner hosts a object quorum = candidatesFor owner hosts b object quorum := by
  have hdomains : hosts.map (fun host => (host, domainOf a host)) =
      hosts.map fun host => (host, domainOf b host) :=
    List.map_congr_left fun host hin => by rw [domainOf, domainOf, h host hin]
  rw [candidatesFor, candidatesFor, hdomains]

theorem cohort_of (n : Neighbourhood) (domains : HostMap DomainId) (owner : HostId)
    (object : ObjectId) (quorum : Quorum) :
    (Settled.of n domains).cohort owner object quorum =
      candidatesFor owner n.hosts domains object quorum := by
  refine candidatesFor_congr fun host hin => ?_
  rw [Settled.of, getElem?_collect]
  exact if_pos hin

variable {config : RegionalConfiguration}

namespace RegionalConfiguration

variable {owner : HostId} {object : ObjectId} {quorum : Quorum}

def currentCohort (config : RegionalConfiguration) (owner : HostId) (object : ObjectId) :
    Option (List HostId) :=
  config.neighbourhoods[owner]?.map fun n =>
    candidatesFor owner n.hosts config.domains object config.quorum

/-- The cohort a takeover recovers the object through. -/
def settledCohort (config : RegionalConfiguration) (owner : HostId) (object : ObjectId) :
    Option (List HostId) :=
  config.settled[owner]?.map fun s => s.cohort owner object config.quorum

/-- What every configuration of a run keeps of an owner. -/
structure Orderly (owner : HostId) (object : ObjectId) (quorum : Quorum)
    (config : RegionalConfiguration) : Prop where
  quorum : config.quorum = quorum
  neighbours : owner ∈ config.neighbourhoods ↔ owner ∈ config.members
  settled : owner ∈ config.settled ↔ owner ∈ config.members
  hosts : ∀ n, config.neighbourhoods[owner]? = some n → ∀ host ∈ n.hosts, host ∈ config.members
  generation : ∀ n, config.neighbourhoods[owner]? = some n → n.generation ≤ config.version
  settledGeneration : ∀ s, config.settled[owner]? = some s → s.generation ≤ config.version
  cohort : ∀ n s, config.neighbourhoods[owner]? = some n → config.settled[owner]? = some s →
    s.generation = n.generation →
      config.settledCohort owner object = config.currentCohort owner object

/-! ## What a change does to an owner -/

/-- Everything a change can do to one owner. -/
inductive Moved (owner : HostId) (config next : RegionalConfiguration) : Change → Prop
  | same {change : Change} (members : next.members = config.members)
      (neighbourhoods : next.neighbourhoods = config.neighbourhoods)
      (domains : next.domains = config.domains)
      (settled : next.settled[owner]? = config.settled[owner]?)
      (version : config.version ≤ next.version) : Moved owner config next change
  | refixed {change : Change} {n n' : Neighbourhood} (member : owner ∈ next.members)
      (before : config.neighbourhoods[owner]? = some n)
      (after : next.neighbourhoods[owner]? = some n')
      (hosts : ∀ host ∈ n'.hosts, host ∈ next.members)
      (generation : n' = n ∨ n'.generation = next.version)
      (domains : ∀ host ∈ config.members, host ∈ next.members →
        next.domains[host]? = config.domains[host]?)
      (settled : next.settled[owner]? = config.settled[owner]?)
      (version : config.version < next.version) : Moved owner config next change
  | settle {n : Neighbourhood} (members : next.members = config.members)
      (neighbourhoods : next.neighbourhoods = config.neighbourhoods)
      (domains : next.domains = config.domains)
      (current : config.neighbourhoods[owner]? = some n)
      (settled : next.settled[owner]? = some (.of n config.domains))
      (version : config.version ≤ next.version) :
      Moved owner config next (.settle owner n.generation)
  | admitted {domain : Option DomainId} {scatter : UInt64} {n : Neighbourhood}
      (admits : config.admits owner = true) (member : owner ∈ next.members)
      (after : next.neighbourhoods[owner]? = some n)
      (hosts : ∀ host ∈ n.hosts, host ∈ next.members) (generation : n.generation = next.version)
      (settled : next.settled[owner]? = some (.of n next.domains))
      (version : config.version < next.version) :
      Moved owner config next (.admitMember owner domain scatter)
  | absent {change : Change} (member : owner ∉ next.members)
      (neighbourhood : next.neighbourhoods[owner]? = none) (settled : next.settled[owner]? = none)
      (version : config.version ≤ next.version) : Moved owner config next change

theorem mem_selectNeighbourhood {alive : List HostId} {scatter : UInt64} {host : HostId}
    (howner : owner ∈ alive) (h : host ∈ selectNeighbourhood owner alive scatter) :
    host ∈ alive := by
  rw [selectNeighbourhood] at h
  split at h
  · rcases List.mem_cons.mp h with rfl | h
    · exact howner
    · exact List.mem_of_mem_filter ((List.mem_insertionSort _).mp h)
  · rcases List.mem_cons.mp h with rfl | h
    · exact howner
    · exact List.mem_of_mem_filter ((List.mem_insertionSort _).mp (List.mem_of_mem_take h))

theorem exists_fixNeighbourhoods (config : RegionalConfiguration) (scatter : UInt64)
    (hmember : owner ∈ config.members) :
    ∃ n', (config.fixNeighbourhoods scatter).neighbourhoods[owner]? = some n' ∧
      (∀ host ∈ n'.hosts, host ∈ config.members) ∧
      (n'.generation = config.version ∨ config.neighbourhoods[owner]? = some n') := by
  refine ⟨_, (getElem?_collect ..).trans (if_pos hmember),
    fun host hin => mem_selectNeighbourhood hmember hin, ?_⟩
  cases hn : config.neighbourhoods[owner]? with
  | none => exact .inl rfl
  | some n =>
    by_cases hhosts : n.hosts = selectNeighbourhood owner config.members scatter
    · refine .inr ?_
      rw [Option.filter_some, if_pos (by simpa using hhosts), ← hhosts]
      rfl
    · refine .inl ?_
      rw [Option.filter_some, if_neg (by simpa using hhosts)]
      rfl

theorem getElem?_fixNeighbourhoods_of_notMem (config : RegionalConfiguration) (scatter : UInt64)
    (hmember : owner ∉ config.members) :
    (config.fixNeighbourhoods scatter).neighbourhoods[owner]? = none :=
  (getElem?_collect ..).trans (if_neg hmember)

theorem exists_pruneWithin (steps : Nat) (config : RegionalConfiguration) :
    ∃ retired, pruneWithin steps config = { config with retired } := by
  induction steps generalizing config with
  | zero => exact ⟨config.retired, rfl⟩
  | succ steps ih =>
    rw [pruneWithin]
    split
    · exact ih (config.drop _)
    · exact ⟨config.retired, rfl⟩

theorem exists_boundWithin (steps : Nat) (config : RegionalConfiguration) :
    ∃ retired, boundWithin steps config = { config with retired } := by
  induction steps generalizing config with
  | zero => exact ⟨config.retired, rfl⟩
  | succ steps ih =>
    rw [boundWithin]
    split
    · split
      · exact ih (config.drop _)
      · exact ⟨config.retired, rfl⟩
    · exact ⟨config.retired, rfl⟩

theorem exists_retire {next : RegionalConfiguration} {member : HostId} {scatter : UInt64}
    (h : config.retire member scatter = some next) :
    member ∈ config.members ∧ ∃ version retired, checkedSucc config.version = some version ∧
      next = { config.leave member scatter version with retired } := by
  obtain ⟨hmember, version, hversion, rfl⟩ := exists_of_guarded h
  obtain ⟨pruned, hpruned⟩ := exists_pruneWithin
    (config.leave member scatter version).retired.size (config.leave member scatter version)
  obtain ⟨retired, hretired⟩ := exists_boundWithin
    (config.leave member scatter version).pruneRetirements.retired.size
    (config.leave member scatter version).pruneRetirements
  refine ⟨hmember, version, retired, hversion, ?_⟩
  rw [boundRetirements, hretired, pruneRetirements, hpruned]

theorem notMem_of_admits {member : HostId}
    (h : config.admits member = true) : member ∉ config.members := by
  rw [admits, Bool.and_eq_true, decide_eq_true_eq] at h
  exact h.1

theorem exists_admitMember {next : RegionalConfiguration} {member : HostId}
    {domain : Option DomainId} {scatter : UInt64}
    (h : config.admitMember member domain scatter = some next) :
    config.admits member = true ∧ ∃ version, checkedSucc config.version = some version ∧
      next = config.joined member domain scatter version :=
  exists_of_guarded h

/-- **Everything a change can do** to a configuration. -/
inductive Changed (config : RegionalConfiguration) : Change → RegionalConfiguration → Prop
  | refused {change : Change} : Changed config change config
  | fenced {dead : HostId} {scatter : UInt64} {bumped version : Nat}
      (outside : dead ∉ config.members)
      (epoch : checkedSucc (config.epochs[dead]?.getD firstEpoch) = some bumped)
      (step : checkedSucc config.version = some version) :
      Changed config (.takeOver dead scatter)
        { config with epochs := config.epochs.insert dead bumped }
  | admitted {member : HostId} {domain : Option DomainId} {scatter : UInt64} {version : Nat}
      (admits : config.admits member = true) (step : checkedSucc config.version = some version) :
      Changed config (.admitMember member domain scatter)
        (config.joined member domain scatter version)
  | left {change : Change} {member : HostId} {scatter : UInt64} {version : Nat}
      {epochs : HostMap HostEpoch} {retired : HostMap Retirement}
      (inside : member ∈ config.members) (step : checkedSucc config.version = some version)
      (fence : change = .retire member scatter ∧ epochs = config.epochs ∨
        change = .takeOver member scatter ∧ ∃ bumped, epochs = config.epochs.insert member bumped ∧
          checkedSucc (config.epochs[member]?.getD firstEpoch) = some bumped) :
      Changed config change { config.leave member scatter version with epochs, retired }
  | settled {owner : HostId} {n : Neighbourhood} {version : Nat}
      (current : config.neighbourhoods[owner]? = some n)
      (step : checkedSucc config.version = some version) :
      Changed config (.settle owner n.generation)
        { config with settled := config.settled.insert owner (.of n config.domains), version }
  | noted {change : Change} {version : Nat} {retired : HostMap Retirement}
      {adoptions : ExtTreeMap ObjectId Adoption}
      (step : checkedSucc config.version = some version) :
      Changed config change { config with retired, adoptions, version }

theorem changed_apply (config : RegionalConfiguration) (change : Change) :
    Changed config change (config.apply change) := by
  cases change with
  | admitMember member domain scatter =>
    rw [apply]
    cases hnext : config.admitMember member domain scatter with
    | none => exact .refused
    | some next =>
      obtain ⟨hadmits, version, hversion, rfl⟩ := exists_admitMember hnext
      exact .admitted hadmits hversion
  | retire member scatter =>
    rw [apply]
    cases hnext : config.retire member scatter with
    | none => exact .refused
    | some next =>
      obtain ⟨hin, version, retired, hversion, rfl⟩ := exists_retire hnext
      exact .left hin hversion (.inl ⟨rfl, rfl⟩)
  | takeOver dead scatter =>
    rw [apply, takeOver]
    cases hbumped : checkedSucc (config.epochs[dead]?.getD firstEpoch) with
    | none => exact .refused
    | some bumped =>
      cases hversion : checkedSucc config.version with
      | none => exact .refused
      | some version =>
        show Changed config _ ((RegionalConfiguration.retire
          { config with epochs := config.epochs.insert dead bumped } dead scatter).getD _)
        cases hnext : RegionalConfiguration.retire
            { config with epochs := config.epochs.insert dead bumped } dead scatter with
        | none =>
          refine .fenced (fun hin => ?_) hbumped hversion
          rw [RegionalConfiguration.retire, if_pos hin] at hnext
          simp [hversion] at hnext
        | some next =>
          obtain ⟨hin, version, retired, hversion, rfl⟩ := exists_retire hnext
          exact .left hin hversion (.inr ⟨rfl, bumped, rfl, hbumped⟩)
  | settle o generation =>
    rw [apply, settle]
    split
    · rename_i hsettles
      cases hversion : checkedSucc config.version with
      | none => exact .refused
      | some version =>
        cases hn : config.neighbourhoods[o]? with
        | none => exact .refused
        | some n =>
          rw [settles, hn, Option.any_some, Bool.and_eq_true, beq_iff_eq] at hsettles
          exact hsettles.1 ▸ .settled hn hversion
    · exact .refused
  | confirm departed successor =>
    rw [apply, confirm]
    split
    · cases hversion : checkedSucc config.version with
      | none => exact .refused
      | some version =>
        cases config.retired[departed]? with
        | none => exact .refused
        | some r =>
          obtain ⟨retired, hretired⟩ := exists_pruneWithin _ _
          rw [Option.bind_some, Option.map_some, Option.getD_some, pruneRetirements, hretired]
          exact .noted hversion
    · exact .refused
  | mirrorAdopt o adoption =>
    rw [apply]
    cases hnext : config.assignAdoption o adoption with
    | none => exact .refused
    | some next =>
      obtain ⟨version, hversion, rfl⟩ := exists_assignAdoption hnext
      exact .noted hversion
  | mirrorAdopted o successor =>
    rw [apply]
    cases hnext : config.adopted o successor with
    | none => exact .refused
    | some next =>
      obtain ⟨version, hversion, rfl⟩ := exists_adopted hnext
      exact .noted hversion

section Change

variable {config next : RegionalConfiguration}

variable {change : Change} {member : HostId} {scatter : UInt64}

theorem Moved.of_fix (before : RegionalConfiguration) (scatter : UInt64)
    (h : Orderly owner object quorum config) (hwas : owner ∈ config.members)
    (hmember : owner ∈ before.members)
    (hneighbours : before.neighbourhoods[owner]? = config.neighbourhoods[owner]?)
    (hdomains : ∀ host ∈ config.members, host ∈ before.members →
      before.domains[host]? = config.domains[host]?)
    (hversion : config.version < before.version)
    (hnext : next.members = before.members ∧ next.domains = before.domains ∧
      next.version = before.version ∧
      next.neighbourhoods = (before.fixNeighbourhoods scatter).neighbourhoods)
    (hsettled : next.settled[owner]? = config.settled[owner]?) :
    Moved owner config next change := by
  obtain ⟨hm, hd, hv, hn⟩ := hnext
  obtain ⟨n, hbefore⟩ := exists_getElem? (h.neighbours.mpr hwas)
  obtain ⟨n', hafter, hhosts, hgeneration⟩ := exists_fixNeighbourhoods before scatter hmember
  refine .refixed (hm ▸ hmember) hbefore (hn ▸ hafter) (hm ▸ hhosts) ?_ ?_ hsettled (hv ▸ hversion)
  · rcases hgeneration with hgeneration | hkept
    · exact .inr (hgeneration.trans hv.symm)
    · rw [hneighbours, hbefore] at hkept
      exact .inl (Option.some.inj hkept).symm
  · rw [hm, hd]
    exact hdomains

theorem Changed.moved (hchanged : Changed config change next)
    (h : Orderly owner object quorum config) : Moved owner config next change := by
  cases hchanged with
  | refused => exact .same rfl rfl rfl rfl le_rfl
  | fenced outside epoch step => exact .same rfl rfl rfl rfl le_rfl
  | noted step => exact .same rfl rfl rfl rfl ((Nat.le_succ _).trans (checkedSucc_eq_some step).ge)
  | @settled o n version current step =>
    have hle : config.version ≤ version := (Nat.le_succ _).trans (checkedSucc_eq_some step).ge
    by_cases howner : o = owner
    · subst howner
      exact .settle rfl rfl rfl current ((getElem?_insert_if ..).trans (if_pos rfl)) hle
    · exact .same rfl rfl rfl ((getElem?_insert_if ..).trans (if_neg howner)) hle
  | @left _ member scatter version epochs retired inside step fence =>
    have hlt : config.version < version := (checkedSucc_eq_some step).ge
    by_cases hstays : owner ∈ (config.leave member scatter version).members
    · obtain ⟨hwas, hne⟩ := mem_members_leave.mp hstays
      refine .of_fix (config.leaving member version) scatter h hwas hstays ?_ ?_ hlt
        ⟨rfl, rfl, rfl, rfl⟩ ?_
      · exact (getElem?_erase_if ..).trans (if_neg (Ne.symm hne))
      · intro host _ (hhost : host ∈ (config.leave member scatter version).members)
        exact (getElem?_erase_if ..).trans (if_neg (Ne.symm (mem_members_leave.mp hhost).2))
      · exact (getElem?_erase_if ..).trans (if_neg (Ne.symm hne))
    · refine .absent hstays (getElem?_fixNeighbourhoods_of_notMem _ _ hstays) ?_ hlt.le
      refine (getElem?_erase_if ..).trans ?_
      split
      · rfl
      · rename_i hne
        refine ExtTreeMap.getElem?_eq_none fun hsettled => hstays ?_
        exact mem_members_leave.mpr ⟨h.settled.mp hsettled, Ne.symm hne⟩
  | @admitted member domain scatter version hadmits step =>
    have hlt : config.version < version := (checkedSucc_eq_some step).ge
    have hnew := notMem_of_admits hadmits
    set before := config.joining member domain version
    have hmembers : ∀ host, host ∈ before.members ↔ host ∈ config.members ∨ host = member :=
      fun host => (List.mem_insertionSort _).trans (by simp)
    obtain ⟨n, hafter, hhosts, hgeneration⟩ :=
      exists_fixNeighbourhoods before scatter ((hmembers member).mpr (.inr rfl))
    have hsettled : ∀ k : HostId, (config.joined member domain scatter version).settled[k]? =
        if member = k then some (.of n before.domains) else config.settled[k]? := by
      intro k
      rw [joined, hafter]
      exact getElem?_insert_if ..
    by_cases howner : member = owner
    · subst howner
      refine .admitted hadmits ((hmembers member).mpr (.inr rfl)) hafter hhosts ?_ ?_ hlt
      · rcases hgeneration with hgeneration | hkept
        · exact hgeneration
        · exact absurd (h.neighbours.mp (mem_of_getElem? hkept)) hnew
      · exact (hsettled member).trans (if_pos rfl)
    · have hkept := (hsettled owner).trans (if_neg howner)
      by_cases hwas : owner ∈ config.members
      · refine .of_fix before scatter h hwas ((hmembers owner).mpr (.inl hwas)) rfl ?_ hlt
          ⟨rfl, rfl, rfl, rfl⟩ hkept
        intro host hin _
        show (domain.elim config.domains (config.domains.insert member))[host]? = _
        cases domain with
        | none => rfl
        | some d =>
          refine (getElem?_insert_if ..).trans (if_neg fun heq => hnew ?_)
          rw [heq]
          exact hin
      · have hnot : owner ∉ before.members := fun hin =>
          ((hmembers owner).mp hin).elim hwas fun heq => howner heq.symm
        exact .absent hnot (getElem?_fixNeighbourhoods_of_notMem _ _ hnot)
          (hkept.trans (ExtTreeMap.getElem?_eq_none fun hin => hwas (h.settled.mp hin))) hlt.le

/-- **Every change** moves an owner in one of the five ways. -/
theorem moved_apply (h : Orderly owner object quorum config) (change : Change) :
    Moved owner config (config.apply change) change :=
  (changed_apply config change).moved h

theorem Changed.quorum_eq (h : Changed config change next) : next.quorum = config.quorum := by
  cases h <;> rfl

/-! ## One step of the history -/

theorem currentCohort_congr (hquorum : next.quorum = config.quorum)
    {n : Neighbourhood} (hconfig : config.neighbourhoods[owner]? = some n)
    (hnext : next.neighbourhoods[owner]? = some n)
    (hdomains : ∀ host ∈ n.hosts, next.domains[host]? = config.domains[host]?) :
    next.currentCohort owner object = config.currentCohort owner object := by
  rw [currentCohort, currentCohort, hconfig, hnext, Option.map_some, Option.map_some, hquorum,
    candidatesFor_congr hdomains]

theorem settledCohort_congr (hquorum : next.quorum = config.quorum)
    (hsettled : next.settled[owner]? = config.settled[owner]?) :
    next.settledCohort owner object = config.settledCohort owner object := by
  rw [settledCohort, settledCohort, hsettled, hquorum]

theorem settledCohort_of {n : Neighbourhood} (hn : config.neighbourhoods[owner]? = some n)
    (hsettled : config.settled[owner]? = some (.of n config.domains)) :
    config.settledCohort owner object = config.currentCohort owner object := by
  rw [settledCohort, currentCohort, hsettled, hn, Option.map_some, Option.map_some, cohort_of]

theorem Orderly.apply (h : Orderly owner object quorum config) (change : Change) :
    Orderly owner object quorum (config.apply change) := by
  have hmoved := moved_apply h change
  have hq := (changed_apply config change).quorum_eq
  set next := config.apply change
  clear_value next
  cases hmoved with
  | same members neighbourhoods domains settled version =>
    have hcurrent : next.currentCohort owner object = config.currentCohort owner object := by
      rw [currentCohort, currentCohort, neighbourhoods, domains, hq]
    refine ⟨hq.trans h.quorum, ?_, ?_, ?_, ?_, ?_, ?_⟩
    · rw [neighbourhoods, members]
      exact h.neighbours
    · rw [ExtTreeMap.mem_iff_isSome_getElem?, settled, ← ExtTreeMap.mem_iff_isSome_getElem?,
        members]
      exact h.settled
    · rw [neighbourhoods, members]
      exact h.hosts
    · rw [neighbourhoods]
      exact fun n hn => (h.generation n hn).trans version
    · rw [settled]
      exact fun s hs => (h.settledGeneration s hs).trans version
    · rw [neighbourhoods, settled, settledCohort_congr hq settled, hcurrent]
      exact h.cohort
  | @refixed _ n n' member before after hosts generation domains settled version =>
    have hmember : owner ∈ config.members := h.neighbours.mp (mem_of_getElem? before)
    refine ⟨hq.trans h.quorum, iff_of_true (mem_of_getElem? after) member, ?_, ?_, ?_, ?_, ?_⟩
    · rw [ExtTreeMap.mem_iff_isSome_getElem?, settled, ← ExtTreeMap.mem_iff_isSome_getElem?]
      exact iff_of_true (h.settled.mpr hmember) member
    · rw [after]
      rintro _ ⟨⟩
      exact hosts
    · rw [after]
      rintro _ ⟨⟩
      rcases generation with rfl | hgeneration
      · exact (h.generation n' before).trans version.le
      · exact hgeneration.le
    · rw [settled]
      exact fun s hs => (h.settledGeneration s hs).trans version.le
    · intro m s hm hs heq
      rw [settled] at hs
      rw [after] at hm
      cases hm
      rcases generation with rfl | hgeneration
      · rw [settledCohort_congr hq settled, h.cohort n' s before hs heq]
        exact (currentCohort_congr hq before after fun host hin =>
          domains host (h.hosts n' before host hin) (hosts host hin)).symm
      · have hle := h.settledGeneration s hs
        omega
  | @settle n members neighbourhoods domains current settled version =>
    have hmember : owner ∈ config.members := h.neighbours.mp (mem_of_getElem? current)
    refine ⟨hq.trans h.quorum, ?_, iff_of_true (mem_of_getElem? settled) (members ▸ hmember),
      ?_, ?_, ?_, ?_⟩
    · rw [neighbourhoods, members]
      exact h.neighbours
    · rw [neighbourhoods, members]
      exact h.hosts
    · rw [neighbourhoods]
      exact fun n hn => (h.generation n hn).trans version
    · rw [settled]
      rintro _ ⟨⟩
      exact (h.generation n current).trans version
    · intro _ _ _ _ _
      exact settledCohort_of (neighbourhoods ▸ current) (domains ▸ settled)
  | @admitted _ _ n admits member after hosts generation settled version =>
    refine ⟨hq.trans h.quorum, iff_of_true (mem_of_getElem? after) member,
      iff_of_true (mem_of_getElem? settled) member, ?_, ?_, ?_, ?_⟩
    · rw [after]
      rintro _ ⟨⟩
      exact hosts
    · rw [after]
      rintro _ ⟨⟩
      exact generation.le
    · rw [settled]
      rintro _ ⟨⟩
      exact generation.le
    · intro _ _ _ _ _
      exact settledCohort_of after settled
  | absent member neighbourhood settled version =>
    refine ⟨hq.trans h.quorum, iff_of_false (fun hin => ?_) member,
      iff_of_false (fun hin => ?_) member, ?_, ?_, ?_, ?_⟩
    · obtain ⟨n, hn⟩ := exists_getElem? hin
      simp [neighbourhood] at hn
    · obtain ⟨n, hn⟩ := exists_getElem? hin
      simp [settled] at hn
    · simp [neighbourhood]
    · simp [neighbourhood]
    · simp [settled]
    · simp [neighbourhood]

/-- Generations only grow, a generation keeps its cohort, and the settled cohort stays or becomes
the one `config` had as its current. -/
structure Precedes (owner : HostId) (object : ObjectId) (config next : RegionalConfiguration) :
    Prop where
  version : config.version ≤ next.version
  generation : ∀ n n', config.neighbourhoods[owner]? = some n →
    next.neighbourhoods[owner]? = some n' → n.generation ≤ n'.generation
  cohort : ∀ n n', config.neighbourhoods[owner]? = some n →
    next.neighbourhoods[owner]? = some n' → n.generation = n'.generation →
      next.currentCohort owner object = config.currentCohort owner object
  settled : owner ∈ config.members → owner ∈ next.members →
    next.settledCohort owner object = config.settledCohort owner object ∨
      next.settledCohort owner object = config.currentCohort owner object

instance : Std.Refl (Precedes owner object) where
  refl config :=
    { version := le_rfl
      generation := fun n n' hn hn' => by
        rw [hn] at hn'
        cases hn'
        rfl
      cohort := fun _ _ _ _ _ => rfl
      settled := fun _ _ => .inl rfl }

theorem Precedes.of_absent (h : Orderly owner object quorum config)
    (habsent : owner ∉ config.members)
    (hversion : config.version ≤ next.version) : Precedes owner object config next := by
  have hnone : config.neighbourhoods[owner]? = none :=
    ExtTreeMap.getElem?_eq_none fun hin => habsent (h.neighbours.mp hin)
  refine ⟨hversion, ?_, ?_, fun hmember => absurd hmember habsent⟩
  · simp [hnone]
  · simp [hnone]

/-- **One change** keeps what precedes. -/
theorem Precedes.apply {older : RegionalConfiguration} (h : Precedes owner object older config)
    (holder : Orderly owner object quorum older) (hconfig : Orderly owner object quorum config)
    (change : Change)
    (hsettle : ∀ n n', change = .settle owner n'.generation →
      older.neighbourhoods[owner]? = some n → config.neighbourhoods[owner]? = some n' →
        n'.generation ≤ n.generation)
    (hjoins : ∀ domain scatter, change = .admitMember owner domain scatter →
      config.admits owner = true → owner ∉ older.members) :
    Precedes owner object older (config.apply change) := by
  have hmoved := moved_apply hconfig change
  have hq := (changed_apply config change).quorum_eq
  set next := config.apply change
  clear_value next
  cases hmoved with
  | same members neighbourhoods domains settled version =>
    have hcurrent : next.currentCohort owner object = config.currentCohort owner object := by
      rw [currentCohort, currentCohort, neighbourhoods, domains, hq]
    refine ⟨h.version.trans version, ?_, ?_, ?_⟩
    · rw [neighbourhoods]
      exact h.generation
    · rw [neighbourhoods, hcurrent]
      exact h.cohort
    · rw [members, settledCohort_congr hq settled]
      exact h.settled
  | @refixed _ m m' member before after hosts generation domains settled version =>
    have hle := hconfig.generation m before
    have hmember : owner ∈ config.members := hconfig.neighbours.mp (mem_of_getElem? before)
    refine ⟨h.version.trans version.le, ?_, ?_, ?_⟩
    · intro n n' hn hn'
      rw [after] at hn'
      cases hn'
      have hn_le := h.generation n m hn before
      rcases generation with rfl | hgeneration
      · exact hn_le
      · omega
    · intro n n' hn hn' heq
      rw [after] at hn'
      cases hn'
      rcases generation with rfl | hgeneration
      · rw [← h.cohort n m' hn before heq]
        exact currentCohort_congr hq before after fun host hin =>
          domains host (hconfig.hosts m' before host hin) (hosts host hin)
      · have hn_le := h.generation n m hn before
        omega
    · intro hin _
      rw [settledCohort_congr hq settled]
      exact h.settled hin hmember
  | @settle m members neighbourhoods domains current settled version =>
    have hcurrent : next.currentCohort owner object = config.currentCohort owner object := by
      rw [currentCohort, currentCohort, neighbourhoods, domains, hq]
    refine ⟨h.version.trans version, ?_, ?_, ?_⟩
    · rw [neighbourhoods]
      exact h.generation
    · rw [neighbourhoods, hcurrent]
      exact h.cohort
    · intro hin _
      obtain ⟨n, hn⟩ := exists_getElem? (holder.neighbours.mpr hin)
      have hge := hsettle n m rfl hn current
      have hle := h.generation n m hn current
      rw [settledCohort_of (neighbourhoods ▸ current) (domains ▸ settled), hcurrent]
      exact .inr (h.cohort n m hn current (le_antisymm hle hge))
  | admitted admits member after hosts generation settled version =>
    exact .of_absent holder (hjoins _ _ rfl admits) (h.version.trans version.le)
  | absent member neighbourhood settled version =>
    refine ⟨h.version.trans version, ?_, ?_, fun _ hin => absurd hin member⟩
    · simp [neighbourhood]
    · simp [neighbourhood]

section

variable (h : Orderly owner object quorum config)

include h

theorem generation_apply {n' : Neighbourhood}
    (hn' : (config.apply change).neighbourhoods[owner]? = some n') :
    (∃ n, config.neighbourhoods[owner]? = some n) ∨ config.version < n'.generation := by
  cases moved_apply h change with
  | same members neighbourhoods domains settled version => exact .inl ⟨n', neighbourhoods ▸ hn'⟩
  | refixed member before after hosts generation domains settled version => exact .inl ⟨_, before⟩
  | settle members neighbourhoods domains current settled version => exact .inl ⟨_, current⟩
  | admitted admits member after hosts generation settled version =>
    rw [after] at hn'
    cases hn'
    exact .inr (generation ▸ version)
  | absent member neighbourhood settled version =>
    rw [neighbourhood] at hn'
    cases hn'

theorem settledCohort_apply {cohort : List HostId}
    (hcohort : (config.apply change).settledCohort owner object = some cohort) :
    config.settledCohort owner object = some cohort ∨
      (∃ n, change = .settle owner n.generation ∧ config.neighbourhoods[owner]? = some n ∧
        config.currentCohort owner object = some cohort) ∨
      ∃ domain scatter, change = .admitMember owner domain scatter ∧
        config.admits owner = true := by
  have hmoved := moved_apply h change
  have hq := (changed_apply config change).quorum_eq
  cases hmoved with
  | same members neighbourhoods domains settled version =>
    exact .inl ((settledCohort_congr hq settled).symm.trans hcohort)
  | refixed member before after hosts generation domains settled version =>
    exact .inl ((settledCohort_congr hq settled).symm.trans hcohort)
  | @settle n members neighbourhoods domains current settled version =>
    refine .inr (.inl ⟨n, rfl, current, ?_⟩)
    rw [settledCohort_of (neighbourhoods ▸ current) (domains ▸ settled)] at hcohort
    rw [← hcohort]
    exact (currentCohort_congr hq current (neighbourhoods ▸ current) fun host _ => by
      rw [domains]).symm
  | admitted admits member after hosts generation settled version =>
    exact .inr (.inr ⟨_, _, rfl, admits⟩)
  | absent member neighbourhood settled version =>
    rw [settledCohort, settled] at hcohort
    cases hcohort

theorem hears_of_place {owned : Configuration}
    (howned : config.configurationFor owner = some owned) {acked : List HostId}
    (hplaced : (owned.place object).placedWith acked owned.quorum = true) :
    (∀ cohort, config.currentCohort owner object = some cohort → Hears quorum acked cohort) ∧
      ∀ cohort, config.settledCohort owner object = some cohort → Hears quorum acked cohort := by
  obtain ⟨n, hn, rfl⟩ := Option.map_eq_some_iff.mp howned
  obtain ⟨s, hs⟩ := exists_getElem? (h.settled.mpr (h.neighbours.mp (mem_of_getElem? hn)))
  have hcurrent : config.currentCohort owner object =
      some (candidatesFor owner n.hosts config.domains object quorum) := by
    rw [currentCohort, hn, Option.map_some, h.quorum]
  have hsettled : config.settledCohort owner object = some (s.cohort owner object quorum) := by
    rw [settledCohort, hs, Option.map_some, h.quorum]
  simp only [Configuration.place, hs, h.quorum] at hplaced
  by_cases hgeneration : s.generation = n.generation
  · -- the settled neighbourhood is the current one
    rw [Option.filter_some, if_neg (by simpa using hgeneration)] at hplaced
    have hears := hears_of_committed hplaced
    rw [h.cohort n s hn hs hgeneration, hcurrent]
    exact ⟨fun _ heq => Option.some.inj heq ▸ hears, fun _ heq => Option.some.inj heq ▸ hears⟩
  · rw [Option.filter_some, if_pos (by simpa using hgeneration)] at hplaced
    rw [hcurrent, hsettled]
    simp only at hplaced
    split at hplaced
    · rename_i heq
      have hears := hears_of_committed hplaced
      refine ⟨fun _ hc => Option.some.inj hc ▸ hears, fun _ hc => Option.some.inj hc ▸ ?_⟩
      rw [heq]
      exact hears
    · -- a joint placement commits in both cohorts
      simp only [Placement.placedWith, List.isEmpty_cons, Bool.false_eq_true, if_false,
        List.all_cons, List.all_nil, Bool.and_true, Bool.and_eq_true] at hplaced
      exact ⟨fun _ hc => Option.some.inj hc ▸ hears_of_committedWithin hplaced.2,
        fun _ hc => Option.some.inj hc ▸ hears_of_committedWithin hplaced.1⟩

theorem hears_of_placedOnCurrent {owned : Configuration}
    (howned : config.configurationFor owner = some owned) {acked : List HostId}
    (hplaced : owned.placedOnCurrent object acked = true) {cohort : List HostId}
    (hcohort : config.currentCohort owner object = some cohort) : Hears quorum acked cohort := by
  obtain ⟨n, hn, rfl⟩ := Option.map_eq_some_iff.mp howned
  rw [currentCohort, hn, Option.map_some, h.quorum] at hcohort
  simp only [Configuration.placedOnCurrent, h.quorum] at hplaced
  exact Option.some.inj hcohort ▸ hears_of_committed hplaced

end

end Change

theorem orderly_formed (owner : HostId) (object : ObjectId) (members : List HostId)
    (quorum : Quorum) (domains : HostMap DomainId) (scatter : UInt64) (hasMirror : Bool) :
    Orderly owner object quorum (formed members quorum domains scatter hasMirror) := by
  set config := formed members quorum domains scatter hasMirror
  have hneighbours : owner ∈ config.neighbourhoods ↔ owner ∈ config.members := mem_collect_some
  have hsettled : config.settled[owner]? =
      config.neighbourhoods[owner]?.map fun n => .of n config.domains := ExtTreeMap.getElem?_map ..
  have hgeneration : ∀ n, config.neighbourhoods[owner]? = some n →
      (∀ host ∈ n.hosts, host ∈ config.members) ∧ n.generation = 0 := by
    intro n hn
    obtain ⟨n', hafter, hhosts, hfixed⟩ := exists_fixNeighbourhoods
      ⟨0, config.members, ∅, config.epochs, domains, quorum, hasMirror, ∅, ∅, ∅⟩ scatter
      (hneighbours.mp (mem_of_getElem? hn))
    cases hn.symm.trans hafter
    refine ⟨hhosts, hfixed.resolve_right fun hkept => ?_⟩
    cases ExtTreeMap.getElem?_empty.symm.trans hkept
  refine ⟨rfl, hneighbours, ?_, fun n hn => (hgeneration n hn).1,
    fun n hn => (hgeneration n hn).2.le, ?_, ?_⟩
  · rw [ExtTreeMap.mem_iff_isSome_getElem?, hsettled, Option.isSome_map,
      ← ExtTreeMap.mem_iff_isSome_getElem?]
    exact hneighbours
  · intro s hs
    rw [hsettled] at hs
    obtain ⟨n, hn, rfl⟩ := Option.map_eq_some_iff.mp hs
    exact (hgeneration n hn).2.le
  · intro n s hn hs _
    rw [hsettled, hn] at hs
    exact settledCohort_of hn (by rw [hsettled, hn]; rfl)

end RegionalConfiguration

/-! ## Runs -/

namespace Ownership

open RegionalConfiguration (Orderly Precedes)

variable {owner : HostId} {object : ObjectId} {quorum : Quorum} {s : Ownership}

/-- The newest record is heard of in every settled cohort ahead, and in every current one ahead
whose generation is reported. -/
structure Placed (owner : HostId) (object : ObjectId) (quorum : Quorum) (s : Ownership) : Prop where
  orderly : ∀ config ∈ s.ahead, Orderly owner object quorum config
  precedes : s.ahead.Pairwise (Precedes owner object)
  reported : ∀ g ∈ s.reports, g ≤ s.installed.version ∧
    ∀ config ∈ s.ahead, ∀ n, config.neighbourhoods[owner]? = some n → g ≤ n.generation
  settled : ∀ acked, s.newest = some acked → ∀ config ∈ s.ahead, ∀ cohort,
    config.settledCohort owner object = some cohort → Hears quorum acked cohort
  current : ∀ acked, s.newest = some acked → ∀ config ∈ s.ahead, ∀ n,
    config.neighbourhoods[owner]? = some n → n.generation ∈ s.reports → ∀ cohort,
      config.currentCohort owner object = some cohort → Hears quorum acked cohort

theorem decided_mem (s : Ownership) : s.decided ∈ s.ahead := List.getLast_mem _

section

variable (h : Placed owner object quorum s)

include h

theorem Placed.precedes_decided (hin : config ∈ s.ahead) : Precedes owner object config s.decided :=
  h.precedes.rel_getLast hin

theorem Placed.installed_precedes (hin : config ∈ s.ahead) :
    Precedes owner object s.installed config :=
  h.precedes.rel_head hin

theorem Placed.install : Placed owner object quorum (s.step owner object .install) := by
  rw [step]
  cases hpending : s.pending with
  | nil => exact h
  | cons next rest =>
    have hahead : s.ahead = s.installed :: next :: rest := by rw [ahead, hpending]
    have hsub : ∀ config ∈ next :: rest, config ∈ s.ahead := fun config hin => by
      rw [hahead]
      exact List.mem_cons_of_mem _ hin
    have hversion : s.installed.version ≤ next.version :=
      (h.installed_precedes (hsub next List.mem_cons_self)).version
    refine ⟨fun config hin => h.orderly config (hsub config hin), ?_, fun g hg => ⟨?_, ?_⟩, ?_, ?_⟩
    · have hpairwise := h.precedes
      rw [hahead] at hpairwise
      exact hpairwise.of_cons
    · exact (h.reported g hg).1.trans hversion
    · exact fun config hin => (h.reported g hg).2 config (hsub config hin)
    · exact fun acked hacked config hin => h.settled acked hacked config (hsub config hin)
    · exact fun acked hacked config hin => h.current acked hacked config (hsub config hin)

theorem Placed.commit (acked : List HostId) :
    Placed owner object quorum (s.step owner object (.commit acked)) := by
  rw [step]
  split
  swap
  · exact h
  rename_i owned howned
  split
  swap
  · exact h
  rename_i hplaced
  have hinstalled := h.orderly s.installed List.mem_cons_self
  obtain ⟨hcurrent, hsettled⟩ := RegionalConfiguration.hears_of_place hinstalled howned hplaced
  obtain ⟨m, hm, -⟩ := Option.map_eq_some_iff.mp howned
  have hmember := hinstalled.neighbours.mp (mem_of_getElem? hm)
  refine ⟨h.orderly, h.precedes, h.reported, ?_, ?_⟩
  · intro acked' hacked config hin cohort hcohort
    cases hacked
    have hnamed : owner ∈ config.members := by
      obtain ⟨settled, hs, -⟩ := Option.map_eq_some_iff.mp hcohort
      exact (h.orderly config hin).settled.mp (mem_of_getElem? hs)
    rcases (h.installed_precedes hin).settled hmember hnamed with heq | heq
    · exact hsettled cohort (heq ▸ hcohort)
    · exact hcurrent cohort (heq ▸ hcohort)
  · intro acked' hacked config hin n hn hreported cohort hcohort
    cases hacked
    have hge := (h.reported _ hreported).2 s.installed List.mem_cons_self m hm
    have hle := (h.installed_precedes hin).generation m n hm hn
    have heq := (h.installed_precedes hin).cohort m n hm hn (le_antisymm hle hge)
    exact hcurrent cohort (heq ▸ hcohort)

theorem Placed.acknowledge (host : HostId) :
    Placed owner object quorum (s.step owner object (.acknowledge host)) := by
  refine ⟨h.orderly, h.precedes, h.reported, ?_, ?_⟩
  · intro acked hacked config hin cohort hcohort
    obtain ⟨acked', hacked', rfl⟩ := Option.map_eq_some_iff.mp hacked
    exact (h.settled acked' hacked' config hin cohort hcohort).cons host
  · intro acked hacked config hin n hn hreported cohort hcohort
    obtain ⟨acked', hacked', rfl⟩ := Option.map_eq_some_iff.mp hacked
    exact (h.current acked' hacked' config hin n hn hreported cohort hcohort).cons host

theorem Placed.report : Placed owner object quorum (s.step owner object .report) := by
  rw [step]
  split
  swap
  · exact h
  rename_i owned howned
  split
  swap
  · exact h
  rename_i hplaced
  have hinstalled := h.orderly s.installed List.mem_cons_self
  obtain ⟨m, hm, hgeneration⟩ := Option.map_eq_some_iff.mp howned
  have hown : owned.generation = m.generation := by rw [← hgeneration]
  refine ⟨h.orderly, h.precedes, ?_, h.settled, ?_⟩
  · intro g hg
    rcases List.mem_cons.mp hg with rfl | hg
    · rw [hown]
      exact ⟨hinstalled.generation m hm, fun config hin n hn =>
        (h.installed_precedes hin).generation m n hm hn⟩
    · exact h.reported g hg
  · intro acked hacked config hin n hn hreported cohort hcohort
    rcases List.mem_cons.mp hreported with heq | hreported
    · have hsame := (h.installed_precedes hin).cohort m n hm hn (hown.symm.trans heq.symm)
      rw [show s.newest = some acked from hacked, Option.all_some] at hplaced
      exact RegionalConfiguration.hears_of_placedOnCurrent hinstalled howned hplaced
        (hsame ▸ hcohort)
    · exact h.current acked hacked config hin n hn hreported cohort hcohort

theorem Placed.decide {change : Change} (hadmits : s.AdmitsNew owner (.decide change)) :
    Placed owner object quorum (s.step owner object (.decide change)) := by
  rw [step]
  split
  swap
  · exact h
  rename_i hreported
  have hdecided := h.orderly s.decided s.decided_mem
  have hversion : s.installed.version ≤ s.decided.version :=
    (h.installed_precedes s.decided_mem).version
  have hsettle : ∀ generation, change = .settle owner generation → generation ∈ s.reports := by
    rintro generation rfl
    simpa [Ownership.reported] using hreported
  have hjoins : ∀ domain scatter, change = .admitMember owner domain scatter →
      s.decided.admits owner = true →
        s.newest = none ∧ ∀ config ∈ s.ahead, owner ∉ config.members := by
    rintro domain scatter rfl
    exact hadmits rfl
  have hprecedes : ∀ config ∈ s.ahead,
      Precedes owner object config (s.decided.apply change) := by
    intro config hin
    refine (h.precedes_decided hin).apply (h.orderly config hin) hdecided change ?_ ?_
    · exact fun n n' heq hn _ => (h.reported _ (hsettle _ heq)).2 config hin n hn
    · exact fun domain scatter heq hok => (hjoins domain scatter heq hok).2 config hin
  -- a reported generation is no newer than the configuration decided last
  have hnewer : ∀ g ∈ s.reports, ∀ n, (s.decided.apply change).neighbourhoods[owner]? = some n →
      s.decided.version < n.generation → g < n.generation := by
    intro g hg n _ hlt
    have hle := (h.reported g hg).1
    omega
  have hmem : ∀ config, config ∈ s.ahead ++ [s.decided.apply change] →
      config ∈ s.ahead ∨ config = s.decided.apply change := fun config hin =>
    (List.mem_append.mp hin).imp_right List.mem_singleton.mp
  refine ⟨?_, ?_, ?_, ?_, ?_⟩
  · intro config hin
    rcases hmem config hin with hin | rfl
    · exact h.orderly config hin
    · exact hdecided.apply change
  · refine List.pairwise_append.mpr ⟨h.precedes, List.pairwise_singleton _ _, ?_⟩
    intro config hin next hnext
    rw [List.mem_singleton.mp hnext]
    exact hprecedes config hin
  · refine fun g hg => ⟨(h.reported g hg).1, fun config hin n hn => ?_⟩
    rcases hmem config hin with hin | rfl
    · exact (h.reported g hg).2 config hin n hn
    · rcases RegionalConfiguration.generation_apply hdecided hn with ⟨m, hm⟩ | hlt
      · exact ((h.reported g hg).2 s.decided s.decided_mem m hm).trans
          ((hprecedes s.decided s.decided_mem).generation m n hm hn)
      · exact (hnewer g hg n hn hlt).le
  · intro acked hacked config hin cohort hcohort
    rcases hmem config hin with hin | rfl
    · exact h.settled acked hacked config hin cohort hcohort
    · rcases RegionalConfiguration.settledCohort_apply hdecided hcohort with
        hkept | ⟨n, heq, hn, hcurrent⟩ | ⟨domain, scatter, heq, hok⟩
      · exact h.settled acked hacked s.decided s.decided_mem cohort hkept
      · exact h.current acked hacked s.decided s.decided_mem n hn (hsettle _ heq) cohort hcurrent
      · rw [show s.newest = some acked from hacked] at hjoins
        cases (hjoins domain scatter heq hok).1
  · intro acked hacked config hin n hn hg cohort hcohort
    rcases hmem config hin with hin | rfl
    · exact h.current acked hacked config hin n hn hg cohort hcohort
    · rcases RegionalConfiguration.generation_apply hdecided hn with ⟨m, hm⟩ | hlt
      · have hge := (h.reported _ hg).2 s.decided s.decided_mem m hm
        have hle := (hprecedes s.decided s.decided_mem).generation m n hm hn
        have heq := le_antisymm hle hge
        have hsame := (hprecedes s.decided s.decided_mem).cohort m n hm hn heq
        exact h.current acked hacked s.decided s.decided_mem m hm (heq ▸ hg) cohort
          (hsame ▸ hcohort)
      · exact absurd (hnewer _ hg n hn hlt) (lt_irrefl _)

theorem Placed.step {event : Event} (hadmits : s.AdmitsNew owner event) :
    Placed owner object quorum (s.step owner object event) := by
  cases event with
  | decide change => exact h.decide hadmits
  | install => exact h.install
  | commit acked => exact h.commit acked
  | acknowledge host => exact h.acknowledge host
  | report => exact h.report

end

theorem placed_start (h : Orderly owner object quorum config) :
    Placed owner object quorum (start config) where
  orderly := by
    intro config' hin
    rw [List.mem_singleton.mp hin]
    exact h
  precedes := List.pairwise_singleton _ _
  reported := nofun
  settled := nofun
  current := nofun

/-- **Recovery.** In a run whose admissions of the owner find it owning nothing, a takeover through
the settled cohort hears of the newest committed record. -/
theorem hears_run (members : List HostId) (quorum : Quorum) (domains : HostMap DomainId)
    (scatter : UInt64) (hasMirror : Bool) (owner : HostId) (object : ObjectId)
    (events : List Event)
    (hmeets : Runs.Meets (step owner object) (AdmitsNew owner)
      (start (.formed members quorum domains scatter hasMirror)) events) (n : Nat)
    (acked : List HostId) (settled : Settled)
    (hnewest : ((start (.formed members quorum domains scatter hasMirror)).run owner object
      (events.take n)).newest = some acked)
    (hsettled : ((start (.formed members quorum domains scatter hasMirror)).run owner object
      (events.take n)).decided.settled[owner]? = some settled) :
    Hears quorum acked (settled.cohort owner object quorum) := by
  have hplaced : Placed owner object quorum
      ((start (.formed members quorum domains scatter hasMirror)).run owner object
        (events.take n)) :=
    (hmeets.take n).invariant (fun _ _ hp hadmits => hp.step hadmits)
      (placed_start (RegionalConfiguration.orderly_formed ..))
  have hdecided := hplaced.orderly _ (decided_mem _)
  refine hplaced.settled acked hnewest _ (decided_mem _) _ ?_
  rw [RegionalConfiguration.settledCohort, hsettled, hdecided.quorum]
  rfl

/-! ## An owner that comes back -/

def trio : Ownership := start (.formed [1, 2, 3] ⟨1⟩ ∅ 3 false)

theorem hears_run_retire :
    ∃ settled, (trio.run 1 (.new 1 1) [.commit [1, 2], .decide (.retire 3 3), .install,
        .report]).decided.settled[(1 : HostId)]? = some settled ∧
      Hears ⟨1⟩ [1, 2] (settled.cohort 1 (.new 1 1) ⟨1⟩) := by
  have hsome : (trio.run 1 (.new 1 1) [.commit [1, 2], .decide (.retire 3 3), .install,
      .report]).decided.settled[(1 : HostId)]?.isSome := by decide +kernel
  have hnewest : (trio.run 1 (.new 1 1) [.commit [1, 2], .decide (.retire 3 3), .install,
      .report]).newest = some [1, 2] := by decide +kernel
  obtain ⟨settled, hsettled⟩ := Option.isSome_iff_exists.mp hsome
  exact ⟨settled, hsettled, hears_run [1, 2, 3] ⟨1⟩ ∅ 3 false 1 (.new 1 1)
    [.commit [1, 2], .decide (.retire 3 3), .install, .report]
    ⟨trivial, trivial, trivial, trivial, trivial⟩ 4 [1, 2] settled hnewest hsettled⟩

/-- The owner's retirement is dropped past the bound, and it is admitted again: the cohort it is
settled on has a host that never saw its record, and one promise is a recovery quorum of it. -/
theorem readmitted_unheard :
    (trio.run 1 (.new 1 1) [.commit [1, 2], .decide (.retire 1 3), .decide (.retire 2 3),
        .decide (.admitMember 1 none 3)]).newest = some [1, 2] ∧
      (trio.run 1 (.new 1 1) [.commit [1, 2], .decide (.retire 1 3), .decide (.retire 2 3),
        .decide (.admitMember 1 none 3)]).decided.members = [1, 3] ∧
      (trio.run 1 (.new 1 1) [.commit [1, 2], .decide (.retire 1 3), .decide (.retire 2 3),
        .decide (.admitMember 1 none 3)]).decided.settledCohort 1 (.new 1 1) = some [1, 3] ∧
      ¬ Hears ⟨1⟩ [1, 2] [1, 3] := by
  refine ⟨by decide +kernel, by decide +kernel, by decide +kernel, fun h => ?_⟩
  obtain ⟨host, hin, hacked⟩ := h [3] (by decide) (by simp) rfl
  rw [List.mem_singleton.mp hin] at hacked
  exact absurd hacked (by decide)

end Ownership

end Slates.Register
