import Slates.Raft.Leadership
import Slates.Library.Runs

/-!
One node and whatever comes to it: its owner's calls, and messages of any content. The calls that
leave what the node retains alone are listed once.
-/

open Std (ExtTreeMap)

namespace Slates.Raft

open Register (HostId HostMap)

inductive Call where
  | electionTimeout
  | startElection
  | forgetLeader
  | observeTerm (term : Nat)
  | suspend
  | retained
  | restart
  | appendCommand (command : List UInt8)
  | replicateTo (follower : HostId) (budget : Nat)
  | compact (upTo : Nat) (state : List UInt8)
  | checkQuorum
  | catchUp (target : List HostId)
  | promoteCaughtUp (target : List HostId)
  | beginMembershipChange (voters : List HostId)
  | completeMembershipChange
  | transferLeadership (target : HostId)
  | takeTimeoutNow
  | setPriority (priority : ElectionPriority)
  | priorityTransfer (alive : List HostId)
  | beginRead
  | readIndex (context : Nat)
  | cancelRead (context : Nat)
  | setLogBudget (bytes : Nat)
  | setWindowBudget (bytes : Nat)
  | openFastTrack
  | proposeFast (command : List UInt8)
  | fillHole (index : Nat)
  | onPreVote (request : PreVote)
  | onPreVoteReply (reply : PreVoteReply)
  | onRequestVote (request : RequestVote)
  | onVoteReply (reply : VoteReply)
  | onAppendEntries (request : AppendEntries)
  | onAppendReply (reply : AppendReply)
  | onInstallSnapshot (request : InstallSnapshot)
  | declineSnapshot (request : InstallSnapshot)
  | onInstallSnapshotReply (reply : InstallSnapshotReply)
  | onTimeoutNow (invitation : TimeoutNow)
  | onFastPropose (proposal : FastPropose)
  | onFastVote (vote : FastVote)

namespace RaftNode

/-- The node after a call. A node that recovery refuses does not come back. -/
def call (node : RaftNode) : Call → RaftNode
  | .electionTimeout => node.onElectionTimeout.1
  | .startElection => node.startElection.1
  | .forgetLeader => node.forgetLeader
  | .observeTerm term => node.observeTerm term
  | .suspend => node.suspend
  | .retained => node.retained
  | .restart => match restore node.saved with
    | .ok restored => restored
    | .error _ => node
  | .appendCommand command => (node.appendCommand command).1
  | .replicateTo follower budget => (node.replicateTo follower budget).1
  | .compact upTo state => (node.compact upTo state).1
  | .checkQuorum => node.checkQuorum
  | .catchUp target => (node.catchUp target).1
  | .promoteCaughtUp target => (node.promoteCaughtUp target).1
  | .beginMembershipChange voters => (node.beginMembershipChange voters).1
  | .completeMembershipChange => node.completeMembershipChange.1
  | .transferLeadership target => (node.transferLeadership target).1
  | .takeTimeoutNow => node.takeTimeoutNow.1
  | .setPriority priority => node.setPriority priority
  | .priorityTransfer alive => (node.priorityTransfer alive).1
  | .beginRead => node.beginRead.1
  | .readIndex context => (node.readIndex context).1
  | .cancelRead context => node.cancelRead context
  | .setLogBudget bytes => node.setLogBudget bytes
  | .setWindowBudget bytes => node.setWindowBudget bytes
  | .openFastTrack => node.openFastTrack.1
  | .proposeFast command => (node.proposeFast command).1
  | .fillHole _ => node
  | .onPreVote _ => node
  | .onPreVoteReply reply => (node.onPreVoteReply reply).1
  | .onRequestVote request => (node.onRequestVote request).1
  | .onVoteReply reply => node.onVoteReply reply
  | .onAppendEntries request => (node.onAppendEntries request).1
  | .onAppendReply reply => node.onAppendReply reply
  | .onInstallSnapshot request => (node.onInstallSnapshot request).1
  | .declineSnapshot request => (node.declineSnapshot request).1
  | .onInstallSnapshotReply reply => node.onInstallSnapshotReply reply
  | .onTimeoutNow invitation => (node.onTimeoutNow invitation).1
  | .onFastPropose proposal => (node.onFastPropose proposal).1
  | .onFastVote vote => node.onFastVote vote

def calls (node : RaftNode) (calls : List Call) : RaftNode := calls.foldl call node

end RaftNode

/-- What the run goes by of a node: all that its log, its votes and its matches are. -/
structure RaftNode.Core where
  id : HostId
  voters : List HostId
  joint : Option (List HostId)
  currentTerm : Nat
  votedFor : Option HostId
  role : Role
  votes : List HostId
  log : List LogEntry
  configEntries : List Nat
  commitIndex : Nat
  matchIndex : HostMap Nat
  snapshotIndex : Nat
  snapshotTerm : Nat
  window : ExtTreeMap Nat WindowSlot
  reports : HostMap (List SlotReport)
  openFrom : Nat
  openAnnounced : Nat × Nat
  fastVotes : ExtTreeMap Nat (HostMap (List UInt8))
  fastChosen : List Nat
  fastThrough : Nat
  recovery : Option Recovery

def RaftNode.core (node : RaftNode) : RaftNode.Core where
  id := node.id
  voters := node.voters
  joint := node.joint
  currentTerm := node.currentTerm
  votedFor := node.votedFor
  role := node.role
  votes := node.votes
  log := node.log
  configEntries := node.configEntries
  commitIndex := node.commitIndex
  matchIndex := node.matchIndex
  snapshotIndex := node.snapshotIndex
  snapshotTerm := node.snapshotTerm
  window := node.window
  reports := node.reports
  openFrom := node.openFrom
  openAnnounced := node.openAnnounced
  fastVotes := node.fastVotes
  fastChosen := node.fastChosen
  fastThrough := node.fastThrough
  recovery := node.recovery

/-- What a node retains, whether it is retained, and what decides what it retains. -/
structure Stored where
  saved : SavedRaft
  pending : Bool
  role : Role
  reports : HostMap (List SlotReport)
  recovery : Option Recovery
  openFrom : Nat
  fastVotes : ExtTreeMap Nat (HostMap (List UInt8))
  syncIndex : Nat

namespace RaftNode

def stored (node : RaftNode) : Stored where
  saved := node.saved
  pending := node.retentionPending
  role := node.role
  reports := node.reports
  recovery := node.recovery
  openFrom := node.openFrom
  fastVotes := node.fastVotes
  syncIndex := node.syncIndex

/-- What a node leads by, and what it has committed and been asked. -/
def authority (node : RaftNode) : Role × Nat × Nat × Nat × Option ReadRound :=
  (node.role, node.currentTerm, node.commitIndex, node.readContext, node.readRound)

/-- What a node stores, and what it keeps beside its log. -/
def held (node : RaftNode) : Stored × List Nat × Nat :=
  (node.stored, node.configEntries, node.logBytesHeld)

def visible (node : RaftNode) :
    (Stored × List Nat × Nat) × (Role × Nat × Nat × Nat × Option ReadRound) × Core :=
  (node.held, node.authority, node.core)

/-! ## Calls that leave what is visible -/

variable (node : RaftNode)

theorem visible_transferLeadership (target : HostId) :
    (node.transferLeadership target).1.visible = node.visible := by
  rw [transferLeadership]
  split_ifs
  · rfl
  · rfl
  · rfl
  · split <;> rfl

theorem visible_takeTimeoutNow : node.takeTimeoutNow.1.visible = node.visible := by
  rw [takeTimeoutNow]
  split
  · rfl
  · split_ifs <;> rfl

theorem visible_priorityTransfer (alive : List HostId) :
    (node.priorityTransfer alive).1.visible = node.visible := by
  rw [priorityTransfer]
  split_ifs
  · rfl
  split
  · rfl
  rename_i target _
  have htransfer := visible_transferLeadership node target
  split
  · rename_i heq
    rw [heq] at htransfer
    exact htransfer
  · rename_i heq
    rw [heq] at htransfer
    exact htransfer

theorem held_beginRead : (node.beginRead.1.held, node.beginRead.1.core) =
    (node.held, node.core) := by
  rw [beginRead]
  split_ifs
  · rfl
  · split <;> rfl

theorem visible_forgetLeader : node.forgetLeader.visible = node.visible := by
  rw [forgetLeader]
  split_ifs <;> rfl

theorem visible_proposeFast (command : List UInt8) :
    (node.proposeFast command).1.visible = node.visible := by
  rw [proposeFast]
  split_ifs
  · rfl
  · dsimp only
    split <;> rfl

theorem visible_replicateTo (follower : HostId) (budget : Nat) :
    (node.replicateTo follower budget).1.visible =
      (if node.recovering then node.continueRecovery else node).visible := by
  rw [replicateTo]
  generalize (if node.recovering then node.continueRecovery else node) = ready
  dsimp only
  split
  · rfl
  -- where the batch starts, and then whether the snapshot covers that
  split
  all_goals
    split
    · rfl
    · rfl

theorem visible_backUp (reply : AppendReply) : (node.backUp reply).visible = node.visible := by
  rw [backUp]
  split <;> rfl

end RaftNode

end Slates.Raft
