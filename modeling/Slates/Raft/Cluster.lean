import Slates.Raft.Leadership
import Slates.Library.Runs

/-!
A cluster of Raft nodes over a network that may lose, repeat, delay and reorder messages: every
message ever sent may be delivered at any time. Here a step is a handler with the retention of the
state it leaves, so that a crash loses nothing but what is never retained; `Raft.Durable` has the
cluster in which a node retains when it will and a crash loses the rest.
-/

namespace Slates.Raft

open Register (HostId HostMap)

/-- A node, and the entries its snapshot stands for. -/
structure Member where
  node : RaftNode
  folded : List LogEntry

namespace Member

/-- Every entry the node holds, in its snapshot or its log. -/
def whole (member : Member) : List LogEntry := member.folded ++ member.node.log

def becomes (member : Member) (node : RaftNode) : Member :=
  ⟨node, member.whole.take node.snapshotIndex⟩

def installs (member : Member) (node : RaftNode) (folded : List LogEntry) : Member :=
  ⟨node, if member.node.snapshotIndex < node.snapshotIndex then folded else member.folded⟩

end Member

/-- With a snapshot goes what it stands for, and with a reply to an append or a snapshot all that
the follower held when it sent it; no handler reads either. -/
inductive Message where
  | requestVote (request : RequestVote)
  | voteReply (receiver : HostId) (reply : VoteReply)
  | preVote (request : PreVote)
  | preVoteReply (receiver : HostId) (reply : PreVoteReply)
  | append (request : AppendEntries)
  | appendReply (receiver : HostId) (reply : AppendReply) (held : List LogEntry)
  | snapshot (request : InstallSnapshot) (folded : List LogEntry)
  | snapshotReply (receiver : HostId) (reply : InstallSnapshotReply) (held : List LogEntry)
  | timeoutNow (receiver : HostId) (invitation : TimeoutNow)
  | fastPropose (proposal : FastPropose)
  | fastVote (vote : FastVote)

structure Cluster where
  members : HostMap Member
  network : List Message

inductive Action where
  | electionTimeout (host : HostId)
  | startElection (host : HostId)
  | forgetLeader (host : HostId)
  | observeTerm (host : HostId) (term : Nat)
  | suspend (host : HostId)
  | restart (host : HostId)
  | appendCommand (host : HostId) (command : List UInt8)
  | replicateTo (host follower : HostId) (budget : Nat)
  | installSnapshotFor (host follower : HostId)
  | compact (host : HostId) (upTo : Nat) (state : List UInt8)
  | checkQuorum (host : HostId)
  | catchUp (host : HostId) (target : List HostId)
  | promoteCaughtUp (host : HostId) (target : List HostId)
  | beginMembershipChange (host : HostId) (voters : List HostId)
  | completeMembershipChange (host : HostId)
  | transferLeadership (host target : HostId)
  | takeTimeoutNow (host : HostId)
  | setPriority (host : HostId) (priority : ElectionPriority)
  | priorityTransfer (host : HostId) (alive : List HostId)
  | beginRead (host : HostId)
  | readIndex (host : HostId) (context : Nat)
  | cancelRead (host : HostId) (context : Nat)
  | setLogBudget (host : HostId) (bytes : Nat)
  | setWindowBudget (host : HostId) (bytes : Nat)
  | openFastTrack (host : HostId)
  | proposeFast (host : HostId) (command : List UInt8)
  | fillHole (host : HostId) (index : Nat)
  | deliver (host : HostId) (place : Nat)
  | declineSnapshot (host : HostId) (place : Nat)

abbrev Effect := Member × List Message

namespace Member

def quietly (member : Member) (node : RaftNode) : Effect := (member.becomes node, [])

def sends (member : Member) (node : RaftNode) (message : Option Message) : Effect :=
  (member.becomes node, message.toList)

/-- The node as its state is read back, if it is retained. A state recovery refuses does not come
back. -/
def restart (member : Member) : Effect :=
  match RaftNode.restore member.node.saved with
  | .ok node => member.quietly node
  | .error _ => (member, [])

/-- A received message. A reply is for the node it names. -/
def receive (member : Member) : Message → Effect
  | .requestVote request =>
    let (node, reply) := member.node.onRequestVote request
    member.sends node (some (.voteReply request.candidate reply))
  | .voteReply receiver reply =>
    if receiver = member.node.id then member.quietly (member.node.onVoteReply reply)
    else (member, [])
  | .preVote request =>
    member.sends member.node
      (some (.preVoteReply request.candidate (member.node.onPreVote request)))
  | .preVoteReply receiver reply =>
    if receiver = member.node.id then
      let (node, request) := member.node.onPreVoteReply reply
      member.sends node (request.map .requestVote)
    else (member, [])
  | .append request =>
    let (node, reply) := member.node.onAppendEntries request
    let after := member.becomes node
    (after, [.appendReply request.leader reply after.whole])
  | .appendReply receiver reply _ =>
    if receiver = member.node.id then member.quietly (member.node.onAppendReply reply)
    else (member, [])
  | .snapshot request folded =>
    let (node, reply) := member.node.onInstallSnapshot request
    let after := member.installs node folded
    (after, [.snapshotReply request.leader reply after.whole])
  | .snapshotReply receiver reply _ =>
    if receiver = member.node.id then member.quietly (member.node.onInstallSnapshotReply reply)
    else (member, [])
  | .timeoutNow receiver invitation =>
    if receiver = member.node.id then
      let (node, request) := member.node.onTimeoutNow invitation
      member.sends node (request.map .requestVote)
    else (member, [])
  | .fastPropose proposal =>
    let (node, vote) := member.node.onFastPropose proposal
    member.sends node (vote.map .fastVote)
  | .fastVote vote => member.quietly (member.node.onFastVote vote)

def decline (member : Member) : Message → Effect
  | .snapshot request _ =>
    let (node, reply) := member.node.declineSnapshot request
    let after := member.becomes node
    (after, [.snapshotReply request.leader reply after.whole])
  | _ => (member, [])

end Member

namespace Action

def host : Action → HostId
  | .electionTimeout host | .startElection host | .forgetLeader host | .observeTerm host _
  | .suspend host | .restart host | .appendCommand host _ | .replicateTo host _ _
  | .installSnapshotFor host _ | .compact host _ _ | .checkQuorum host | .catchUp host _
  | .promoteCaughtUp host _ | .beginMembershipChange host _ | .completeMembershipChange host
  | .transferLeadership host _ | .takeTimeoutNow host | .setPriority host _
  | .priorityTransfer host _ | .beginRead host | .readIndex host _ | .cancelRead host _
  | .setLogBudget host _ | .setWindowBudget host _ | .openFastTrack host | .proposeFast host _
  | .fillHole host _ | .deliver host _ | .declineSnapshot host _ => host

def effect (network : List Message) (member : Member) : Action → Effect
  | .electionTimeout _ =>
    let (node, request) := member.node.onElectionTimeout
    member.sends node (request.map .preVote)
  | .startElection _ =>
    let (node, request) := member.node.startElection
    member.sends node (request.map .requestVote)
  | .forgetLeader _ => member.quietly member.node.forgetLeader
  | .observeTerm _ term => member.quietly (member.node.observeTerm term)
  | .suspend _ => member.quietly member.node.suspend
  | .restart _ => member.restart
  | .appendCommand _ command => member.quietly (member.node.appendCommand command).1
  | .replicateTo _ follower budget =>
    let (node, request) := member.node.replicateTo follower budget
    member.sends node (request.map .append)
  | .installSnapshotFor _ follower =>
    member.sends member.node
      ((member.node.installSnapshotFor follower).map fun request =>
        .snapshot request member.folded)
  | .compact _ upTo state => member.quietly (member.node.compact upTo state).1
  | .checkQuorum _ => member.quietly member.node.checkQuorum
  | .catchUp _ target => member.quietly (member.node.catchUp target).1
  | .promoteCaughtUp _ target => member.quietly (member.node.promoteCaughtUp target).1
  | .beginMembershipChange _ voters => member.quietly (member.node.beginMembershipChange voters).1
  | .completeMembershipChange _ => member.quietly member.node.completeMembershipChange.1
  | .transferLeadership _ target => member.quietly (member.node.transferLeadership target).1
  | .takeTimeoutNow _ =>
    let (node, invitation) := member.node.takeTimeoutNow
    member.sends node (invitation.map fun sent => .timeoutNow sent.1 sent.2)
  | .setPriority _ priority => member.quietly (member.node.setPriority priority)
  | .priorityTransfer _ alive => member.quietly (member.node.priorityTransfer alive).1
  | .beginRead _ => member.quietly member.node.beginRead.1
  | .readIndex _ context => member.quietly (member.node.readIndex context).1
  | .cancelRead _ context => member.quietly (member.node.cancelRead context)
  | .setLogBudget _ bytes => member.quietly (member.node.setLogBudget bytes)
  | .setWindowBudget _ bytes => member.quietly (member.node.setWindowBudget bytes)
  | .openFastTrack _ => member.quietly member.node.openFastTrack.1
  | .proposeFast _ command =>
    let (node, proposal) := member.node.proposeFast command
    member.sends node (proposal.map .fastPropose)
  | .fillHole _ index =>
    member.sends member.node ((member.node.fillHole index).map .fastPropose)
  | .deliver _ place => network[place]?.elim (member, []) member.receive
  | .declineSnapshot _ place => network[place]?.elim (member, []) member.decline

end Action

namespace Cluster

def formed (hosts voters : List HostId) : Cluster where
  members := hosts.foldl (fun members host => members.insert host ⟨.new host voters, []⟩) ∅
  network := []

def step (cluster : Cluster) (action : Action) : Cluster :=
  match cluster.members[action.host]? with
  | none => cluster
  | some member =>
    let (after, sent) := action.effect cluster.network member
    ⟨cluster.members.insert action.host after, cluster.network ++ sent⟩

def run (cluster : Cluster) (actions : List Action) : Cluster := actions.foldl step cluster

end Cluster

end Slates.Raft
