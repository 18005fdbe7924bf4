import Slates.Library.Search
import Slates.Library.Tables
import Slates.Register.Placement

/-!
The regional configuration: members, neighbourhoods, the one each owner's records are settled on,
and retirements not yet confirmed. Versions and epochs refuse to wrap (`checkedSucc`).
-/

open Std (ExtTreeMap)

namespace Slates.Register

def checkedSucc (n : Nat) : Option Nat := if n + 1 < 2 ^ 64 then some (n + 1) else none

def sortDedup (hosts : List HostId) : List HostId := hosts.dedup.insertionSort (· ≤ ·)

abbrev HostEpoch := Nat

def firstEpoch : HostEpoch := 1

/-- An owner's hosts and the version at which they last changed. -/
structure Neighbourhood where
  hosts : List HostId
  generation : Nat
  deriving DecidableEq

/-- The hosts an owner's records are all placed on, with their domains. -/
structure Settled where
  hosts : List HostId
  generation : Nat
  domains : HostMap DomainId

namespace Settled

def of (neighbourhood : Neighbourhood) (domains : HostMap DomainId) : Settled where
  hosts := neighbourhood.hosts
  generation := neighbourhood.generation
  domains := collect neighbourhood.hosts fun host => domains[host]?

def cohort (settled : Settled) (owner : HostId) (object : ObjectId) (quorum : Quorum) :
    List HostId :=
  candidatesFor owner settled.hosts settled.domains object quorum

end Settled

/-- What the region keeps of a retired host until its takeover is confirmed. -/
structure Retirement where
  version : Nat
  settled : Settled
  survivors : List HostId
  confirmed : List HostId
  unconfirmed : List HostId

/-- Where a retired owner's object belongs. -/
inductive Lineage where
  | successor (departed successor : HostId)
  | lost
  | settled
  deriving DecidableEq

structure Configuration where
  version : Nat
  owner : HostId
  hostEpoch : HostEpoch
  neighbourhood : List HostId
  domains : HostMap DomainId
  quorum : Quorum
  hasMirror : Bool
  settled : Option Settled
  generation : Nat

namespace Configuration

def placeContent (config : Configuration) (object : ObjectId) : Placement :=
  .ofOwner config.owner config.quorum config.neighbourhood config.domains object

/-- The current cohort, and the settled one while a change that moves the object is in flight. -/
def place (config : Configuration) (object : ObjectId) : Placement :=
  let placement := config.placeContent object
  match config.settled with
  | none => placement
  | some settled =>
    let old := settled.cohort config.owner object config.quorum
    if old = placement.candidates then placement
    else
      { placement with
        candidates := old.foldl
          (fun hosts host => if host ∈ hosts then hosts else hosts ++ [host]) placement.candidates
        joint := [old, placement.candidates] }

def placedOnCurrent (config : Configuration) (object : ObjectId) (acked : List HostId) : Bool :=
  (config.placeContent object).placedWith acked config.quorum

end Configuration

/-- The member that adopts a promoted object, and the head and catalog records it adopts. -/
structure Adoption where
  successor : HostId
  head : List UInt8
  catalog : List UInt8
  deriving DecidableEq

structure RegionalConfiguration where
  version : Nat
  members : List HostId
  neighbourhoods : HostMap Neighbourhood
  epochs : HostMap HostEpoch
  domains : HostMap DomainId
  quorum : Quorum
  hasMirror : Bool
  settled : HostMap Settled
  retired : HostMap Retirement
  adoptions : ExtTreeMap ObjectId Adoption

namespace RegionalConfiguration

/-- A neighbourhood the change leaves as it was keeps its generation. -/
def fixNeighbourhoods (config : RegionalConfiguration) (scatter : UInt64) :
    RegionalConfiguration :=
  { config with
    neighbourhoods := collect config.members fun owner =>
      let hosts := selectNeighbourhood owner config.members scatter
      let unchanged := config.neighbourhoods[owner]?.filter fun n => n.hosts = hosts
      some ⟨hosts, unchanged.elim config.version (·.generation)⟩ }

def formed (members : List HostId) (quorum : Quorum) (domains : HostMap DomainId)
    (scatter : UInt64) (hasMirror : Bool) : RegionalConfiguration :=
  let members := members.insertionSort (· ≤ ·)
  let config : RegionalConfiguration :=
    { version := 0
      members
      neighbourhoods := ∅
      epochs := collect members fun _ => some firstEpoch
      domains
      quorum
      hasMirror
      settled := ∅
      retired := ∅
      adoptions := ∅ }
  let config := config.fixNeighbourhoods scatter
  { config with settled := config.neighbourhoods.map fun _ n => .of n config.domains }

def configurationFor (config : RegionalConfiguration) (owner : HostId) : Option Configuration :=
  config.neighbourhoods[owner]?.map fun neighbourhood =>
    { version := config.version
      owner
      hostEpoch := config.epochs[owner]?.getD firstEpoch
      neighbourhood := neighbourhood.hosts
      domains := config.domains
      quorum := config.quorum
      hasMirror := config.hasMirror
      settled := config.settled[owner]?.filter fun s => s.generation ≠ neighbourhood.generation
      generation := neighbourhood.generation }

/-! ## Takeovers -/

def owesConfirmation (config : RegionalConfiguration) (departed host : HostId) : Bool :=
  host ∈ config.members &&
    config.retired[departed]?.any fun r => host ∈ r.survivors && host ∉ r.confirmed

def carried (config : RegionalConfiguration) (departed : HostId) : Option (List HostId) :=
  config.retired[departed]?.map (·.unconfirmed)

/-- The retired owners through whose cohorts a retired host's objects are recovered. -/
def recoveryOwners (config : RegionalConfiguration) (departed : HostId) : List HostId :=
  (Search.reachable config.carried config.retired.keys departed).insertionSort (· ≤ ·)

def recoveryHosts (config : RegionalConfiguration) (departed : HostId) : List HostId :=
  sortDedup ((config.recoveryOwners departed).flatMap fun owner =>
    (config.retired[owner]?.map (·.settled.hosts)).getD [])

def recoveryCohorts (config : RegionalConfiguration) (departed : HostId) (object : ObjectId) :
    List (List HostId) :=
  (config.recoveryOwners departed).filterMap fun owner =>
    config.retired[owner]?.map (·.settled.cohort owner object config.quorum)

/-- The survivor that the object ranks first in the cohorts it is recovered through. -/
def successor (config : RegionalConfiguration) (departed : HostId) (object : ObjectId) :
    Option HostId :=
  config.retired[departed]?.bind fun retirement =>
    rendezvousFirst (sortDedup
      ((config.recoveryCohorts departed object).flatten.filter (· ∈ retirement.survivors))) object

def lineageWithin (config : RegionalConfiguration) (object : ObjectId) : Nat → HostId → Lineage
  | 0, _ => .settled
  | steps + 1, departed =>
    if departed ∉ config.retired then .settled
    else
      match config.successor departed object with
      | none => .lost
      | some successor =>
        if successor ∈ config.retired then config.lineageWithin object steps successor
        else if successor ∈ config.members then .successor departed successor
        else .settled

/-- Where an object of a retired host belongs: the walk follows successors that retired themselves,
once through the kept retirements. -/
def lineage (config : RegionalConfiguration) (owner : HostId) (object : ObjectId) : Lineage :=
  config.lineageWithin object (config.retired.size + 1) owner

/-- No kept retirement recovers through it and no survivor owes it a confirmation. -/
def isDone (config : RegionalConfiguration) (departed : HostId) : Bool :=
  !(config.retired.toList.any fun d => departed ∈ d.2.unconfirmed) &&
    !((config.recoveryHosts departed).any fun host => config.owesConfirmation departed host)

def drop (config : RegionalConfiguration) (departed : HostId) : RegionalConfiguration :=
  { config with retired := config.retired.erase departed }

def pruneWithin : Nat → RegionalConfiguration → RegionalConfiguration
  | 0, config => config
  | steps + 1, config =>
    match config.retired.keys.find? config.isDone with
    | some departed => pruneWithin steps (config.drop departed)
    | none => config

/-- Drops what is done until nothing is; each pass drops one. -/
def pruneRetirements (config : RegionalConfiguration) : RegionalConfiguration :=
  pruneWithin config.retired.size config

def retirementBound (config : RegionalConfiguration) : Nat := max config.members.length 1

def oldest (config : RegionalConfiguration) : Option HostId :=
  config.retired.keys.argmin fun host =>
    toLex ((config.retired[host]?.map (·.version)).getD 0, host.toNat)

def boundWithin : Nat → RegionalConfiguration → RegionalConfiguration
  | 0, config => config
  | steps + 1, config =>
    if config.retirementBound < config.retired.size then
      match config.oldest with
      | some host => boundWithin steps (config.drop host)
      | none => config
    else config

/-- At most one retirement per member, the oldest dropped first. -/
def boundRetirements (config : RegionalConfiguration) : RegionalConfiguration :=
  boundWithin config.retired.size config

/-! ## Changes

Each answers `none` where the source returns `false` and changes nothing. -/

def admits (config : RegionalConfiguration) (member : HostId) : Bool :=
  member ∉ config.members &&
    !(config.retired.toList.any fun d => d.1 = member || member ∈ d.2.survivors)

def joining (config : RegionalConfiguration) (member : HostId) (domain : Option DomainId)
    (version : Nat) : RegionalConfiguration :=
  { config with
    members := (config.members ++ [member]).insertionSort (· ≤ ·)
    epochs := if member ∈ config.epochs then config.epochs
      else config.epochs.insert member firstEpoch
    domains := domain.elim config.domains (config.domains.insert member)
    version }

/-- The configuration `member` joined: its first neighbourhood is settled at once. -/
def joined (config : RegionalConfiguration) (member : HostId) (domain : Option DomainId)
    (scatter : UInt64) (version : Nat) : RegionalConfiguration :=
  let fixed := (config.joining member domain version).fixNeighbourhoods scatter
  { fixed with
    settled := fixed.neighbourhoods[member]?.elim fixed.settled fun n =>
      fixed.settled.insert member (.of n fixed.domains) }

def admitMember (config : RegionalConfiguration) (member : HostId) (domain : Option DomainId)
    (scatter : UInt64) : Option RegionalConfiguration :=
  if config.admits member then
    (checkedSucc config.version).map fun version => config.joined member domain scatter version
  else none

/-- The neighbourhood a member's objects are recovered through when it retires. -/
def settledOf (config : RegionalConfiguration) (member : HostId) : Option Settled :=
  config.settled[member]?.or
    (config.neighbourhoods[member]?.map fun n => .of n config.domains)

def unconfirmedBy (config : RegionalConfiguration) (member : HostId) : List HostId :=
  config.retired.keys.filter fun departed => config.owesConfirmation departed member

def survivorsAt (config : RegionalConfiguration) (member : HostId) (settled : Settled) :
    List HostId :=
  sortDedup ((settled.hosts ++ (config.unconfirmedBy member).flatMap config.recoveryHosts).filter
    fun host => host != member && decide (host ∈ config.members))

def leaving (config : RegionalConfiguration) (member : HostId) (version : Nat) :
    RegionalConfiguration :=
  { config with
    members := config.members.filter (· != member)
    neighbourhoods := config.neighbourhoods.erase member
    domains := config.domains.erase member
    settled := config.settled.erase member
    version }

def leave (config : RegionalConfiguration) (member : HostId) (scatter : UInt64) (version : Nat) :
    RegionalConfiguration :=
  let fixed := (config.leaving member version).fixNeighbourhoods scatter
  { fixed with
    retired := (config.settledOf member).elim config.retired fun settled =>
      config.retired.insert member
        { version
          settled
          survivors := config.survivorsAt member settled
          confirmed := []
          unconfirmed := config.unconfirmedBy member } }

def retire (config : RegionalConfiguration) (member : HostId) (scatter : UInt64) :
    Option RegionalConfiguration :=
  if member ∈ config.members then
    (checkedSucc config.version).map fun version =>
      (config.leave member scatter version).pruneRetirements.boundRetirements
  else none

def settles (config : RegionalConfiguration) (owner : HostId) (generation : Nat) : Bool :=
  config.neighbourhoods[owner]?.any (fun n => n.generation == generation) &&
    config.settled[owner]?.all (fun s => s.generation != generation)

def settle (config : RegionalConfiguration) (owner : HostId) (generation : Nat) :
    Option RegionalConfiguration :=
  if config.settles owner generation then
    (checkedSucc config.version).bind fun version =>
      config.neighbourhoods[owner]?.map fun n =>
        { config with settled := config.settled.insert owner (.of n config.domains), version }
  else none

def confirm (config : RegionalConfiguration) (departed successor : HostId) :
    Option RegionalConfiguration :=
  if config.owesConfirmation departed successor then
    (checkedSucc config.version).bind fun version =>
      config.retired[departed]?.map fun r =>
        pruneRetirements
          { config with
            retired := config.retired.insert departed
              { r with confirmed := r.confirmed.orderedInsert (· ≤ ·) successor }
            version }
  else none

def assigns (config : RegionalConfiguration) (object : ObjectId) (adoption : Adoption) : Bool :=
  adoption.successor ∈ config.members && config.adoptions[object]? ≠ some adoption

def assignAdoption (config : RegionalConfiguration) (object : ObjectId) (adoption : Adoption) :
    Option RegionalConfiguration :=
  if config.assigns object adoption then
    (checkedSucc config.version).map fun version =>
      { config with adoptions := config.adoptions.insert object adoption, version }
  else none

def owesAdopted (config : RegionalConfiguration) (object : ObjectId) (successor : HostId) : Bool :=
  config.adoptions[object]?.any fun adoption => adoption.successor == successor

def adopted (config : RegionalConfiguration) (object : ObjectId) (successor : HostId) :
    Option RegionalConfiguration :=
  if config.owesAdopted object successor then
    (checkedSucc config.version).map fun version =>
      { config with adoptions := config.adoptions.erase object, version }
  else none

/-- The bumped epoch; a host that is no member only has its epoch bumped. -/
def takeOver (config : RegionalConfiguration) (dead : HostId) (scatter : UInt64) :
    Option (RegionalConfiguration × HostEpoch) :=
  (checkedSucc (config.epochs[dead]?.getD firstEpoch)).bind fun bumped =>
    (checkedSucc config.version).map fun _ =>
      let fenced := { config with epochs := config.epochs.insert dead bumped }
      ((fenced.retire dead scatter).getD fenced, bumped)

end RegionalConfiguration

inductive Change where
  | admitMember (member : HostId) (domain : Option DomainId) (scatter : UInt64)
  | retire (member : HostId) (scatter : UInt64)
  | takeOver (dead : HostId) (scatter : UInt64)
  | settle (owner : HostId) (generation : Nat)
  | confirm (departed successor : HostId)
  | mirrorAdopt (object : ObjectId) (adoption : Adoption)
  | mirrorAdopted (object : ObjectId) (successor : HostId)
  deriving DecidableEq

namespace RegionalConfiguration

def apply (config : RegionalConfiguration) : Change → RegionalConfiguration
  | .admitMember member domain scatter => (config.admitMember member domain scatter).getD config
  | .retire member scatter => (config.retire member scatter).getD config
  | .takeOver dead scatter => ((config.takeOver dead scatter).map Prod.fst).getD config
  | .settle owner generation => (config.settle owner generation).getD config
  | .confirm departed successor => (config.confirm departed successor).getD config
  | .mirrorAdopt object adoption => (config.assignAdoption object adoption).getD config
  | .mirrorAdopted object successor => (config.adopted object successor).getD config

end RegionalConfiguration

end Slates.Register
