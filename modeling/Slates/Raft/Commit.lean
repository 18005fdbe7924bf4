import Slates.Raft.Node

/-!
What a leader has committed, and what it appends. An index commits when a majority of every set in
force holds it and its entry is of the leader's term.
-/

namespace Slates.Raft

open Register (HostId)

namespace RaftNode

/-- The match index at the place a majority begins, in descending order. -/
def heldBy (node : RaftNode) (set : List HostId) : Nat :=
  ((set.map node.matchOf).insertionSort (· ≥ ·))[set.length / 2]?.getD 0

def quorumMatch (node : RaftNode) : Nat :=
  let base := node.heldBy node.effectiveConfig.voters
  node.effectiveConfig.joint.elim base fun new => min base (node.heldBy new)

/-- A leader whose removal has committed leads no more. -/
def stepDownIfRemoved (node : RaftNode) : RaftNode :=
  if node.role ≠ .leader then node
  else if node.committedConfig.joint.isNone ∧ node.id ∉ node.committedConfig.voters then
    { node with readRound := none, role := .follower, hasLeader := false, votes := [] }
  else node

/-- How far the chosen indices go on from `through`. -/
def throughFrom (chosen : List Nat) : Nat → Nat → Nat
  | 0, through => through
  | fuel + 1, through =>
    if through + 1 ∈ chosen then throughFrom chosen fuel (through + 1) else through

/-- The commit index a leader's matches give. -/
def commitHeld (node : RaftNode) : RaftNode :=
  if node.commitIndex < node.quorumMatch ∧ node.entryTerm node.quorumMatch = some node.currentTerm
  then { node with retentionPending := true, commitIndex := node.quorumMatch }
  else node

/-- How far the fast choices are committed. -/
def commitChosen (node : RaftNode) : RaftNode :=
  let through := throughFrom node.fastChosen (node.lastLogIndex - node.committedThrough)
    node.committedThrough
  { node with fastThrough := through, fastChosen := node.fastChosen.filter (through < ·) }

def advanceLeaderCommit (node : RaftNode) : RaftNode :=
  if node.role ≠ .leader then node
  else node.commitHeld.commitChosen.pruneCommitted.stepDownIfRemoved

/-- Admitted against the log budget first; the first entry is the sync point. -/
def leaderAppend (node : RaftNode) (entry : LogEntry) : RaftNode × Bool :=
  if node.logBudget < node.logBytesHeld + entry.encodedLen then (node, false)
  else
    match node.pushEntry entry with
    | (node, false) => (node, false)
    | (node, true) =>
      let node := { node with
        retentionPending := true
        syncIndex := if node.syncIndex = 0 then node.lastLogIndex else node.syncIndex }
      (node.advanceLeaderCommit, true)

/-- A staged member that took all of its round: caught up, if it fit one window. -/
def completeRound (last matched : Nat) (staging : Staging) : Staging :=
  if !staging.caughtUp && staging.roundEnd ≤ matched then
    if staging.windowPassed then { staging with roundEnd := last, windowPassed := false }
    else { staging with caughtUp := true }
  else staging

/-- Within a term the match index only grows, and the next index is past it. -/
def recordMatch (node : RaftNode) (follower : HostId) (index : Nat) : RaftNode :=
  let matched := max (node.matchOf follower) index
  { node with
    matchIndex := node.matchIndex.insert follower matched
    probing := node.probing.filter (· ≠ follower)
    nextIndex := node.nextIndex.insert follower
      (max (node.nextIndex[follower]?.getD 1) (satSucc matched))
    staging := node.staging[follower]?.elim node.staging fun staging =>
      node.staging.insert follower (completeRound node.lastLogIndex matched staging) }

def appendCommand (node : RaftNode) (command : List UInt8) : RaftNode × Bool :=
  if node.role ≠ .leader ∨ node.activeTransfer.isSome ∨ 0 < node.openFrom ∨ node.recovering then
    (node, false)
  else node.leaderAppend (.ofCommand node.currentTerm command)

def setLogBudget (node : RaftNode) (bytes : Nat) : RaftNode := { node with logBudget := bytes }

def setWindowBudget (node : RaftNode) (bytes : Nat) : RaftNode :=
  { node with windowBudget := bytes }

/-! ## Membership changes -/

/-- The joint configuration, once the configuration before it has committed. -/
def beginMembershipChange (node : RaftNode) (newVoters : List HostId) : RaftNode × Bool :=
  if node.role ≠ .leader ∨ node.recovering ∨ node.activeTransfer.isSome ∨
      node.effectiveConfig.joint.isSome ∨ newVoters = [] ∨
      node.commitIndex < node.latestConfigIndex ∨ 0 < node.openFrom then (node, false)
  else
    { node with readRound := none }.leaderAppend
      (.ofConfiguration node.currentTerm ⟨node.effectiveConfig.voters, some newVoters⟩)

/-- The new configuration alone, once the joint one has committed. -/
def completeMembershipChange (node : RaftNode) : RaftNode × Bool :=
  match node.effectiveConfig.joint with
  | none => (node, false)
  | some newVoters =>
    if node.role ≠ .leader ∨ node.recovering ∨ node.commitIndex < node.latestConfigIndex then
      (node, false)
    else
      { node with readRound := none }.leaderAppend
        (.ofConfiguration node.currentTerm ⟨newVoters, none⟩)

/-! ## Compaction -/

/-- The committed entries through `upTo`, and their last configuration, into the snapshot. -/
def compact (node : RaftNode) (upTo : Nat) (state : List UInt8) : RaftNode × Bool :=
  if upTo ≤ node.snapshotIndex ∨ node.commitIndex < upTo then (node, false)
  else
    match node.entryTerm upTo with
    | none => (node, false)
    | some term =>
      let discard := min (upTo - node.snapshotIndex) node.log.length
      let base := ((node.log.take discard).reverse.findSome? LogEntry.config).getD node.baseConfig
      ({ node with
        voters := base.voters
        joint := base.joint
        retentionPending := true
        log := node.log.drop discard
        logBytesHeld := node.logBytesHeld - encodedSum (node.log.take discard)
        configEntries := node.configEntries.filter (satSucc upTo ≤ ·)
        snapshotIndex := upTo
        snapshotTerm := term
        snapshotData := state }, true)

end RaftNode

end Slates.Raft
