import Slates.Raft.Boundary

/-!
The replay of a group's committed log into its state, and the log's compaction: past a size a fold
goes into a snapshot, and another replica's snapshot starts it anew.
-/

namespace Slates.Raft

open Register (HostId HostMap)

/-- A group's state as a snapshot carries it: its bytes, and back to it if they decode. -/
class Snapshotted (S : Type) where
  encode : S → List UInt8
  decode : List UInt8 → Option S
  decode_encode : ∀ {state other}, decode (encode state) = some other → other = state

namespace RaftNode

/-- How far every follower the node replicates to holds the log. -/
def replicatedThrough (node : RaftNode) : Nat :=
  if node.role ≠ .leader then node.commitIndex
  else ((node.replicationTargets.filter (· ≠ node.id)).map node.matchOf).min?.getD node.lastLogIndex

def logBytesThrough (node : RaftNode) (index : Nat) : Nat :=
  encodedSum (node.log.take (index - node.snapshotIndex))

end RaftNode

/-- How many snapshots' worth a leader holds for a follower that lacks them. -/
def heldForFollowers : Nat := 2

structure Fold (S : Type) where
  /-- The state at the snapshot boundary. -/
  base : S
  /-- The state after every applied entry. -/
  state : S
  /-- The committed entries above the snapshot that were applied. -/
  applied : Nat
  /-- The wire bytes that the applied entries exceed before they are compacted. -/
  threshold : Nat
  compactions : Nat

namespace Fold

variable {S : Type} [Snapshotted S]

open Snapshotted (encode decode)

def new (base : S) : Fold S := ⟨base, base, 0, (encode base).length, 0⟩

/-- The fold of a retained or donated state, whose snapshot must be of the base. -/
def forSaved [DecidableEq S] (saved : SavedRaft) (base : S) : Except RaftRecoveryError (Fold S) :=
  if 0 < saved.snapshotIndex ∧ decode saved.snapshotData ≠ some base then .error .invalidSnapshot
  else .ok (new base)

/-- What was applied goes into a snapshot once it is larger than the last one, and every follower
holds it or it is twice as large. -/
def compactIfDue (fold : Fold S) (raft : RaftNode) : Fold S × RaftNode :=
  if fold.applied = 0 then (fold, raft)
  else
    let through := raft.snapshotIndex + fold.applied
    let bytes := raft.logBytesThrough through
    if bytes ≤ fold.threshold then (fold, raft)
    else if raft.replicatedThrough < through ∧ bytes ≤ fold.threshold * heldForFollowers then
      (fold, raft)
    else
      let snapshot := encode fold.state
      match raft.compact through snapshot with
      | (raft, true) =>
        ({ fold with
          base := fold.state
          applied := 0
          threshold := snapshot.length
          compactions := satSucc fold.compactions }, raft)
      | (raft, false) => (fold, raft)

def applyEntry (apply : S → List UInt8 → S) (fold : Fold S) (entry : LogEntry) : Fold S :=
  { fold with state := apply fold.state entry.command, applied := fold.applied + 1 }

/-- Each committed entry not yet applied, in order, and then the compaction. -/
def advance (apply : S → List UInt8 → S) (fold : Fold S) (raft : RaftNode) : Fold S × RaftNode :=
  let entries := raft.committedEntries
  let fold := if fold.applied = 0 ∧ entries ≠ [] then { fold with state := fold.base } else fold
  ((entries.drop fold.applied).foldl (applyEntry apply) fold).compactIfDue raft

/-- Declined when its state does not decode; the fold starts anew if it moved the boundary. -/
def install (apply : S → List UInt8 → S) (fold : Fold S) (raft : RaftNode)
    (request : InstallSnapshot) : Fold S × RaftNode :=
  match decode request.state with
  | none => (fold, (raft.declineSnapshot request).1)
  | some (state : S) =>
    let installed := (raft.onInstallSnapshot request).1
    let fold :=
      if raft.snapshotIndex < installed.snapshotIndex then
        { fold with base := state, state := state, applied := 0, threshold := request.state.length }
      else fold
    fold.advance apply installed

end Fold

/-! ## A group of replicas -/

structure Replica (S : Type) where
  raft : RaftNode
  fold : Fold S

/-- The members that have the group's state, the snapshots sent, and the states published: each a
retained state beside its fold's base. -/
structure Group (S : Type) where
  replicas : HostMap (Replica S)
  offered : List InstallSnapshot
  published : List (SavedRaft × S)

/-- Messages between the nodes are of any content, snapshots apart. -/
inductive Turn (S : Type) where
  | call (host : HostId) (call : Call)
  | advance (host : HostId)
  | offer (host follower : HostId)
  | install (host : HostId) (request : InstallSnapshot)
  | publish (host : HostId)
  | restoreFrom (host : HostId) (saved : SavedRaft) (base : S)
  | joinFrom (host : HostId) (saved : SavedRaft) (base : S)

namespace Replica

variable {S : Type} [Snapshotted S] [DecidableEq S]

def formed (id : HostId) (voters : List HostId) (base : S) : Replica S :=
  ⟨.new id voters, .new base⟩

def advance (apply : S → List UInt8 → S) (replica : Replica S) : Replica S :=
  let (fold, raft) := replica.fold.advance apply replica.raft
  ⟨raft, fold⟩

def install (apply : S → List UInt8 → S) (replica : Replica S) (request : InstallSnapshot) :
    Replica S :=
  let (fold, raft) := replica.fold.install apply replica.raft request
  ⟨raft, fold⟩

def ofSaved (apply : S → List UInt8 → S) (saved : SavedRaft) (base : S) :
    Except RaftRecoveryError (Replica S) := do
  let fold ← Fold.forSaved saved base
  let raft ← RaftNode.restore saved
  return advance apply ⟨raft, fold⟩

end Replica

namespace Group

variable {S : Type} [Snapshotted S] [DecidableEq S]

/-- The group as it forms: each host with the same voters and the same base. -/
def formed (hosts voters : List HostId) (base : S) : Group S where
  replicas := hosts.foldl (fun table host => table.insert host (.formed host voters base)) ∅
  offered := []
  published := []

def update (group : Group S) (host : HostId) (change : Replica S → Replica S) : Group S :=
  match group.replicas[host]? with
  | none => group
  | some replica => { group with replicas := group.replicas.insert host (change replica) }

/-- A snapshot is installed, and a state restored, only as another replica sent or published it; a
host that has the group's state does not join again. -/
def step (apply : S → List UInt8 → S) (group : Group S) : Turn S → Group S
  | .call host call =>
    if call.plain then group.update host fun replica =>
      { replica with raft := replica.raft.call call }
    else group
  | .advance host => group.update host (Replica.advance apply)
  | .offer host follower =>
    match group.replicas[host]?.bind fun replica => replica.raft.installSnapshotFor follower with
    | none => group
    | some request => { group with offered := request :: group.offered }
  | .install host request =>
    if request ∈ group.offered then group.update host (Replica.install apply · request) else group
  | .publish host =>
    match group.replicas[host]? with
    | none => group
    | some replica =>
      { group with published := (replica.raft.saved, replica.fold.base) :: group.published }
  | .restoreFrom host saved base =>
    if (saved, base) ∈ group.published then
      group.update host fun replica =>
        if saved.id ≠ replica.raft.id then replica
        else match Replica.ofSaved apply saved base with
          | .ok restored => restored
          | .error _ => replica
    else group
  | .joinFrom host saved base =>
    if (saved, base) ∈ group.published ∧ host ∉ group.replicas ∧ saved.id ≠ host then
      match Replica.ofSaved apply { saved with id := host, votedFor := none } base with
      | .ok joined => { group with replicas := group.replicas.insert host joined }
      | .error _ => group
    else group

end Group

end Slates.Raft
