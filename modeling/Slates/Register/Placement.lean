import Slates.Library.FirstFit

/-!
Where an object's records go. An owner places each object on one copyset of its neighbourhood:
the owner and up to `2f` co-holders of other failure domains, the copyset chosen by rendezvous.
-/

open Std (ExtTreeMap)

namespace Slates.Register

abbrev HostId := UInt64

abbrev DomainId := UInt64

abbrev HostMap (V : Type) := ExtTreeMap HostId V

/-! ## Object ids and rendezvous -/

def beBytes (word : UInt64) : Vector UInt8 8 :=
  #v[(word >>> 56).toUInt8, (word >>> 48).toUInt8, (word >>> 40).toUInt8, (word >>> 32).toUInt8,
    (word >>> 24).toUInt8, (word >>> 16).toUInt8, (word >>> 8).toUInt8, word.toUInt8]

def leBytes (word : UInt64) : List UInt8 := (beBytes word).toList.reverse

/-- The creator host's eight bytes, then the creator's own counter. -/
structure ObjectId where
  bytes : Vector UInt8 16
  deriving DecidableEq

namespace ObjectId

/-- Objects in the order of their bytes. -/
instance : Ord ObjectId := ⟨fun a b => compare a.bytes b.bytes⟩

instance : Std.TransOrd ObjectId where
  eq_swap := Std.OrientedOrd.eq_swap (α := Vector UInt8 16)
  isLE_trans := Std.TransOrd.isLE_trans (α := Vector UInt8 16)

def new (creator : HostId) (counter : UInt64) : ObjectId := ⟨beBytes creator ++ beBytes counter⟩

/-- The object's id with the register-class bit cleared: all classes share holders. -/
def placementKey (object : ObjectId) : ObjectId :=
  ⟨object.bytes.set 10 (object.bytes[10] &&& ~~~0x80)⟩

end ObjectId

def fnvOffset : UInt64 := 0xcbf29ce484222325

def fnvPrime : UInt64 := 0x100000001b3

def fmix64 (hash : UInt64) : UInt64 :=
  let hash := (hash ^^^ (hash >>> 33)) * 0xff51afd7ed558ccd
  let hash := (hash ^^^ (hash >>> 33)) * 0xc4ceb9fe1a85ec53
  hash ^^^ (hash >>> 33)

def rendezvousWeight (host : HostId) (object : ObjectId) : UInt64 :=
  fmix64 ((leBytes host ++ object.placementKey.bytes.toList).foldl
    (fun hash byte => (hash ^^^ byte.toUInt64) * fnvPrime) fnvOffset)

/-- A host's rank for an object: its weight, then its id. -/
def rendezvousKey (object : ObjectId) (host : HostId) : ℕ ×ₗ ℕ :=
  toLex ((rendezvousWeight host object).toNat, host.toNat)

/-- The highest weight first, the lowest id on a tie. -/
def RankedBefore (object : ObjectId) (a b : HostId) : Prop :=
  rendezvousWeight b object < rendezvousWeight a object ∨
    (rendezvousWeight a object = rendezvousWeight b object ∧ a ≤ b)

instance (object : ObjectId) : DecidableRel (RankedBefore object) := fun a b =>
  inferInstanceAs (Decidable (rendezvousWeight b object < rendezvousWeight a object ∨
    (rendezvousWeight a object = rendezvousWeight b object ∧ a ≤ b)))

def rendezvousRanked (hosts : List HostId) (object : ObjectId) : List HostId :=
  hosts.insertionSort (RankedBefore object)

def rendezvousFirst (hosts : List HostId) (object : ObjectId) : Option HostId :=
  (rendezvousRanked hosts object).head?

/-! ## Quorums -/

/-- The host failures tolerated. With a 64-bit `usize` no sum saturates. -/
structure Quorum where
  f : UInt32
  deriving DecidableEq

namespace Quorum

def candidates (quorum : Quorum) : Nat := quorum.f.toNat * 2 + 1

def commit (quorum : Quorum) : Nat := quorum.f.toNat + 1

def committed (quorum : Quorum) (acked : Nat) : Bool := quorum.commit ≤ acked

/-- `f + 1` of the cohort, or all of a smaller one, and at least one. -/
def committedWithin (quorum : Quorum) (acked cohort : Nat) : Bool :=
  max (min quorum.commit cohort) 1 ≤ acked

/-- The promises a takeover needs from a cohort. -/
def recovery (quorum : Quorum) (cohort : Nat) : Nat := max (cohort - quorum.f.toNat) 1

end Quorum

/-! ## Copysets -/

def DomainBefore (a b : HostId × DomainId) : Prop := a.2 < b.2 ∨ (a.2 = b.2 ∧ a.1 ≤ b.1)

instance : DecidableRel DomainBefore := fun a b =>
  inferInstanceAs (Decidable (a.2 < b.2 ∨ (a.2 = b.2 ∧ a.1 ≤ b.1)))

/-- The neighbours that can share a copyset with the owner, in grouping order. -/
def usableCoHolders (owner : HostId) (neighbourhood : List (HostId × DomainId)) :
    List (HostId × DomainId) :=
  let ownerDomain := (neighbourhood.find? (·.1 == owner)).map Prod.snd
  (neighbourhood.filter fun h => h.1 != owner && some h.2 != ownerDomain).insertionSort DomainBefore

def ownerCopysets (owner : HostId) (neighbourhood : List (HostId × DomainId)) (quorum : Quorum) :
    List (List HostId) :=
  let coHolders := quorum.candidates - 1
  if coHolders = 0 then [[owner]]
  else
    let groups := FirstFit.groups Prod.snd coHolders (usableCoHolders owner neighbourhood)
    if groups.isEmpty then [[owner]] else groups.map fun group => owner :: group.map Prod.fst

/-- A copyset is ranked by its first co-holder, since the owner heads them all. -/
def copysetKey (object : ObjectId) (copyset : List HostId) : ℕ ×ₗ ℕ :=
  ((copyset[1]?).or copyset.head?).elim (toLex (0, 0)) (rendezvousKey object)

/-- The copyset of the greatest key, the last one on a tie. -/
def copysetFor (object : ObjectId) (copysets : List (List HostId)) : Option (List HostId) :=
  copysets.reverse.argmax (copysetKey object)

/-- A host that declares no domain is its own. -/
def domainOf (domains : HostMap DomainId) (host : HostId) : DomainId := domains[host]?.getD host

def candidatesFor (owner : HostId) (neighbourhood : List HostId) (domains : HostMap DomainId)
    (object : ObjectId) (quorum : Quorum) : List HostId :=
  let withDomains := neighbourhood.map fun host => (host, domainOf domains host)
  (copysetFor object (ownerCopysets owner withDomains quorum)).getD [owner]

/-! ## Neighbourhoods -/

/-- The owner and the alive hosts its key ranks first; all when `scatter` is zero. -/
def selectNeighbourhood (owner : HostId) (alive : List HostId) (scatter : UInt64) : List HostId :=
  let others := alive.filter (· != owner)
  if scatter = 0 then owner :: others.insertionSort (· ≤ ·)
  else owner :: (rendezvousRanked others (.new owner 0)).take (scatter.toNat - 1)

/-! ## Placements -/

/-- The distinct hosts of `cohort` among `acks`. -/
def distinctAcksWithin (cohort acks : List HostId) : Nat := (acks.filter (· ∈ cohort)).dedup.length

/-- Who an object's newest record goes to and who acknowledged it. `joint` holds both cohorts of a
change in flight. -/
structure Placement where
  candidates : List HostId
  acked : List HostId
  mirrorAcked : Option (List HostId)
  joint : List (List HostId)
  deriving DecidableEq

namespace Placement

/-- Named for the source's `local`. -/
def ofOwner (owner : HostId) (quorum : Quorum) (neighbourhood : List HostId)
    (domains : HostMap DomainId) (object : ObjectId) : Placement where
  candidates := candidatesFor owner neighbourhood domains object quorum
  acked := if quorum.committed 1 then [owner] else []
  mirrorAcked := none
  joint := []

def placedWith (placement : Placement) (acked : List HostId) (quorum : Quorum) : Bool :=
  if placement.joint.isEmpty then
    quorum.committed (distinctAcksWithin placement.candidates acked)
  else
    placement.joint.all fun cohort =>
      quorum.committedWithin (distinctAcksWithin cohort acked) cohort.length

def placed (placement : Placement) (quorum : Quorum) : Bool :=
  placement.placedWith placement.acked quorum

end Placement

end Slates.Register
