import Slates.Raft.Replication

/-!
A leader's upkeep: the quorum it must hear, the members it catches up, the handoff to another voter,
and the reads it confirms.
-/

namespace Slates.Raft

open Register (HostId sortDedup checkedSucc)

namespace RaftNode

/-- How long a handoff may wait, a staged member's lag may stand, and a leader leads before it hands
off by priority. -/
def transferQuorumChecks : Nat := 2

def stalledWindows : Nat := 1

def priorityWindows : Nat := 2

/-! ## The quorum check -/

def ageTransfer (node : RaftNode) : RaftNode :=
  match node.activeTransfer with
  | none => { node with transfer := none }
  | some transfer =>
    if transferQuorumChecks ≤ transfer.quorumChecks + 1 then
      { node with
        transfer := none
        priorityTransferFailed := node.priorityTransferFailed || node.priorityTransferPending
        priorityTransferPending := false }.decideFromVotes.countFastQuorums
    else { node with
      transfer := some { transfer with quorumChecks := transfer.quorumChecks + 1 } }

/-- Forgets how far a member that does not vote has come. -/
def forgetProgress (node : RaftNode) (member : HostId) : RaftNode :=
  if node.isVoter member then node
  else { node with
    nextIndex := node.nextIndex.erase member
    matchIndex := node.matchIndex.erase member
    probing := node.probing.filter (· ≠ member) }

def ageStagingOf (last matched : Nat) (staging : Staging) : Staging :=
  if staging.caughtUp then staging
  else { staging with
    windowPassed := true
    strikes := if last - matched < staging.lagAtTick then 0 else staging.strikes + 1
    lagAtTick := last - matched }

def stalled (staging : Staging) : Bool := !staging.caughtUp && stalledWindows ≤ staging.strikes

def unstage (node : RaftNode) (member : HostId) : RaftNode :=
  { node with staging := node.staging.erase member }.forgetProgress member

def ageStaging (node : RaftNode) : RaftNode :=
  let aged := node.staging.map fun member staging =>
    ageStagingOf node.lastLogIndex (node.matchOf member) staging
  let aborted := (aged.toList.filter fun held => stalled held.2).map Prod.fst
  aborted.foldl (fun node member => { node.unstage member with stagingAborted := some member })
    { node with staging := aged }

def checkQuorum (node : RaftNode) : RaftNode :=
  if node.role ≠ .leader then node
  else
    let node := node.ageTransfer.ageStaging
    let node := { node with
      windowsLed := min (node.windowsLed + 1) 255
      priorities := node.priorities.filter fun voter _ => voter ∈ node.replicationTargets }
    let node :=
      if node.isMajority (insertHost node.id node.contacts) then node
      else { node with
        readRound := none, role := .follower, hasLeader := false, transfer := none, staging := ∅ }
    { node with contacts := [] }

/-! ## Catching members up -/

inductive CatchUp where
  | ready
  | pending
  | aborted (member : HostId)
  | notLeader
  deriving DecidableEq

def stage (node : RaftNode) (member : HostId) : RaftNode :=
  if member ∈ node.staging then node
  else { node with
    staging := node.staging.insert member ⟨node.lastLogIndex, false, maxIndex, 0, false⟩
    nextIndex := node.nextIndex.insert member (satSucc node.lastLogIndex)
    matchIndex := node.matchIndex.insert member 0
    probing := insertHost member node.probing }

def catchUp (node : RaftNode) (target : List HostId) : RaftNode × CatchUp :=
  if node.role ≠ .leader then (node, .notLeader)
  else
    let adds := sortDedup (target.filter fun member =>
      member ≠ node.id ∧ member ∉ node.allVoters)
    let node := (node.staging.keys.filter (· ∉ adds)).foldl unstage node
    let aborted := node.stagingAborted.filter (· ∈ adds)
    let node := { node with stagingAborted := none }
    match aborted with
    | some member => (node, .aborted member)
    | none =>
      let node := adds.foldl stage node
      (node, if adds.all fun member => node.staging[member]?.any Staging.caughtUp then .ready
        else .pending)

def staged (node : RaftNode) : List (HostId × Bool) :=
  if node.role ≠ .leader then []
  else node.staging.toList.map fun held => (held.1, held.2.caughtUp)

def promoteCaughtUp (node : RaftNode) (target : List HostId) : RaftNode × Bool :=
  let caughtUp := (node.staged.filter Prod.snd).map Prod.fst
  let part := target.filter fun host => host ∈ node.allVoters ∨ host ∈ caughtUp
  if caughtUp = [] ∨ part = node.allVoters then (node, false)
  else node.beginMembershipChange part

/-! ## Handing leadership off -/

inductive TransferRefusal where
  | notLeader
  | targetIsSelf
  | targetNotVoter
  | inFlight (target : HostId)
  deriving DecidableEq

def transferLeadership (node : RaftNode) (target : HostId) :
    RaftNode × Except TransferRefusal Unit :=
  if node.role ≠ .leader then (node, .error .notLeader)
  else if target = node.id then (node, .error .targetIsSelf)
  else if !node.isVoter target then (node, .error .targetNotVoter)
  else
    match node.activeTransfer with
    | some transfer => (node, .error (.inFlight transfer.target))
    | none => ({ node with transfer := some ⟨target, node.currentTerm, 0, false⟩ }, .ok ())

/-- The invitation, once, when the target has all of the leader's log. -/
def takeTimeoutNow (node : RaftNode) : RaftNode × Option (HostId × TimeoutNow) :=
  match node.activeTransfer with
  | none => (node, none)
  | some transfer =>
    if transfer.invited ∨ node.matchIndex[transfer.target]?.getD 0 < node.lastLogIndex then
      (node, none)
    else
      ({ node with transfer := some { transfer with invited := true } },
        some (transfer.target, ⟨node.currentTerm, node.id⟩))

def setPriority (node : RaftNode) (priority : ElectionPriority) : RaftNode :=
  { node with ownPriority := priority }

/-- The least round trip, then the lowest id. -/
def outranking (node : RaftNode) (alive : List HostId) : Option HostId :=
  let ranked := (node.peers.filter (· ∈ alive)).filterMap fun voter =>
    (node.priorities[voter]?.filter (·.outranks node.ownPriority)).map fun priority =>
      (priority.quorumNs, voter)
  (ranked.foldl (fun best next =>
    match best with
    | none => some next
    | some best =>
      if next.1 < best.1 ∨ (next.1 = best.1 ∧ next.2 < best.2) then some next else some best)
    none).map Prod.snd

def priorityTransfer (node : RaftNode) (alive : List HostId) : RaftNode × Option HostId :=
  if node.role ≠ .leader ∨ node.windowsLed < priorityWindows ∨ node.priorityTransferFailed ∨
      node.activeTransfer.isSome then (node, none)
  else
    match node.outranking alive with
    | none => (node, none)
    | some target =>
      match node.transferLeadership target with
      | (node, .error _) => (node, none)
      | (node, .ok ()) => ({ node with priorityTransferPending := true }, some target)

/-! ## Reads -/

def beginRead (node : RaftNode) : RaftNode × Option Nat :=
  if node.role ≠ .leader ∨ node.recovering ∨
      node.entryTerm node.commitIndex ≠ some node.currentTerm ∨
      node.commitIndex < node.readFloor ∨ node.readRound.isSome then (node, none)
  else
    match checkedSucc node.readContext with
    | none => (node, none)
    | some context =>
      ({ node with
        readContext := context
        readRound := some
          ⟨context, node.currentTerm, node.committedThrough, node.effectiveConfig, [node.id]⟩ },
        some context)

def readIndex (node : RaftNode) (context : Nat) : RaftNode × Option Nat :=
  match node.readRound with
  | none => (node, none)
  | some read =>
    if read.context ≠ context ∨ node.role ≠ .leader ∨ read.term ≠ node.currentTerm ∨
        read.config ≠ node.effectiveConfig ∨ !node.isMajority read.confirmed then (node, none)
    else ({ node with readRound := none }, some read.index)

def cancelRead (node : RaftNode) (context : Nat) : RaftNode :=
  if node.readRound.any fun read => read.context = context then { node with readRound := none }
  else node

end RaftNode

end Slates.Raft
