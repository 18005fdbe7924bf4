import Slates.Register.Region

/-!
The state of a Raft node, and what the handlers read of it. Terms and indices are natural numbers
below `2 ^ 64`, saturated where a received message can carry the largest index.
-/

open Std (ExtTreeMap)

namespace Slates.Raft

open Register (HostId HostMap sortDedup checkedSucc)

def maxIndex : Nat := 2 ^ 64 - 1

/-- One more, and no more than the largest index. -/
def satSucc (n : Nat) : Nat := min (n + 1) maxIndex

/-! ## Messages -/

inductive Role where
  | follower
  | preCandidate
  | candidate
  | leader
  deriving DecidableEq

/-- A voter set, and the set a joint change moves to. -/
structure VoterConfig where
  voters : List HostId
  joint : Option (List HostId)
  deriving DecidableEq

/-- A command, or a configuration in force once it is appended. -/
structure LogEntry where
  term : Nat
  command : List UInt8
  config : Option VoterConfig
  deriving DecidableEq

namespace LogEntry

def ofCommand (term : Nat) (command : List UInt8) : LogEntry := ⟨term, command, none⟩

def ofConfiguration (term : Nat) (config : VoterConfig) : LogEntry := ⟨term, [], some config⟩

/-- A count and eight bytes a host. -/
def hostsLen (hosts : List HostId) : Nat := 4 + hosts.length * 8

def encodedLen (entry : LogEntry) : Nat :=
  8 + 4 + entry.command.length + 1 +
    entry.config.elim 0 fun config => hostsLen config.voters + 1 + config.joint.elim 0 hostsLen

end LogEntry

def encodedSum (entries : List LogEntry) : Nat := (entries.map LogEntry.encodedLen).sum

def minEntryBytes : Nat := 8 + 4 + 1

structure RequestVote where
  term : Nat
  candidate : HostId
  lastLogIndex : Nat
  lastLogTerm : Nat
  deriving DecidableEq

structure PreVote where
  term : Nat
  candidate : HostId
  lastLogIndex : Nat
  lastLogTerm : Nat
  deriving DecidableEq

structure PreVoteReply where
  voter : HostId
  term : Nat
  granted : Bool
  deriving DecidableEq

/-- A leader's entry that came ahead of a hole, or a fast vote. -/
structure WindowSlot where
  term : Nat
  fast : Bool
  entry : LogEntry
  deriving DecidableEq

/-- Within a term the leader's entry outranks a fast vote. -/
def WindowSlot.ballot (slot : WindowSlot) : ℕ ×ₗ Bool := toLex (slot.term, !slot.fast)

structure SlotReport where
  index : Nat
  slot : WindowSlot
  deriving DecidableEq

structure VoteReply where
  voter : HostId
  term : Nat
  granted : Bool
  reports : List SlotReport
  deriving DecidableEq

structure FastPropose where
  term : Nat
  proposer : HostId
  index : Nat
  command : List UInt8
  deriving DecidableEq

structure FastVote where
  term : Nat
  voter : HostId
  index : Nat
  command : List UInt8
  deriving DecidableEq

structure TimeoutNow where
  term : Nat
  leader : HostId
  deriving DecidableEq

structure ElectionPriority where
  quorumNs : Nat
  spreadNs : Nat
  deriving DecidableEq

/-- Known, and faster beyond both spreads. -/
def ElectionPriority.outranks (a b : ElectionPriority) : Bool :=
  0 < a.quorumNs && 0 < b.quorumNs && a.quorumNs + a.spreadNs < b.quorumNs - b.spreadNs

structure AppendEntries where
  readContext : Nat
  term : Nat
  leader : HostId
  prevLogIndex : Nat
  prevLogTerm : Nat
  entries : List LogEntry
  leaderCommit : Nat
  priorities : List (HostId × ElectionPriority)
  syncIndex : Nat
  openFrom : Nat
  deriving DecidableEq

structure AppendReply where
  readContext : Nat
  follower : HostId
  term : Nat
  success : Bool
  matchIndex : Nat
  conflictTerm : Nat
  conflictIndex : Nat
  priority : ElectionPriority
  deriving DecidableEq

structure InstallSnapshot where
  term : Nat
  leader : HostId
  lastIncludedIndex : Nat
  lastIncludedTerm : Nat
  config : VoterConfig
  state : List UInt8
  deriving DecidableEq

structure InstallSnapshotReply where
  follower : HostId
  term : Nat
  matchIndex : Nat
  deriving DecidableEq

/-! ## The node -/

structure Transfer where
  target : HostId
  term : Nat
  quorumChecks : Nat
  invited : Bool
  deriving DecidableEq

/-- A member caught up in rounds before it votes. -/
structure Staging where
  roundEnd : Nat
  windowPassed : Bool
  lagAtTick : Nat
  strikes : Nat
  caughtUp : Bool
  deriving DecidableEq

structure ReadRound where
  context : Nat
  term : Nat
  index : Nat
  config : VoterConfig
  confirmed : List HostId
  deriving DecidableEq

/-- What a won election still has to append from the windows. -/
structure Recovery where
  term : Nat
  decided : ExtTreeMap Nat (LogEntry × Bool)
  next : Nat
  last : Nat
  sliced : Bool

/-- Sets are lists without repeats. `configEntries` ascends, and is kept beside the log, as
`logBytesHeld` is. -/
structure RaftNode where
  retentionPending : Bool
  id : HostId
  voters : List HostId
  joint : Option (List HostId)
  currentTerm : Nat
  votedFor : Option HostId
  role : Role
  votes : List HostId
  preVotes : List HostId
  hasLeader : Bool
  contacts : List HostId
  readContext : Nat
  readRound : Option ReadRound
  log : List LogEntry
  configEntries : List Nat
  commitIndex : Nat
  nextIndex : HostMap Nat
  matchIndex : HostMap Nat
  probing : List HostId
  snapshotIndex : Nat
  snapshotTerm : Nat
  snapshotData : List UInt8
  transfer : Option Transfer
  staging : HostMap Staging
  stagingAborted : Option HostId
  ownPriority : ElectionPriority
  priorities : HostMap ElectionPriority
  windowsLed : Nat
  priorityTransferPending : Bool
  priorityTransferFailed : Bool
  window : ExtTreeMap Nat WindowSlot
  syncedTerm : Nat
  windowBudget : Nat
  reports : HostMap (List SlotReport)
  syncIndex : Nat
  openFrom : Nat
  openAnnounced : Nat × Nat
  fastVotes : ExtTreeMap Nat (HostMap (List UInt8))
  fastChosen : List Nat
  fastThrough : Nat
  readFloor : Nat
  fastProposed : Nat
  logBudget : Nat
  recovery : Option Recovery
  logBytesHeld : Nat

structure SavedRaft where
  id : HostId
  base : VoterConfig
  term : Nat
  votedFor : Option HostId
  log : List LogEntry
  commitIndex : Nat
  snapshotIndex : Nat
  snapshotTerm : Nat
  snapshotData : List UInt8
  window : List SlotReport
  syncedTerm : Nat
  deriving DecidableEq

inductive RaftRecoveryError where
  | invalidVoters
  | invalidSnapshot
  | invalidLogTerm
  | invalidCommitIndex
  | indexOverflow
  | invalidWindow
  deriving DecidableEq

inductive Malformed where
  | zeroTerm
  | position
  | entryTerm
  | voters
  | snapshot
  | slot
  deriving DecidableEq

/-! ## What a received message is held to -/

def validSet (voters : List HostId) : Bool := !voters.isEmpty && decide voters.Nodup

def validConfig (config : VoterConfig) : Bool :=
  validSet config.voters && config.joint.all validSet

/-- Index zero has term zero, and only it. -/
def positionAgrees (index term : Nat) : Bool := (index == 0) == (term == 0)

def admitEntries : List LogEntry → Nat → Nat → Except Malformed Unit
  | [], _, _ => .ok ()
  | entry :: entries, previous, term =>
    if entry.term = 0 ∨ term < entry.term ∨ entry.term < previous then .error .entryTerm
    else if entry.config.any fun config => !validConfig config then .error .voters
    else admitEntries entries entry.term term

def admitSnapshot (request : InstallSnapshot) : Except Malformed Unit :=
  if request.term = 0 then .error .zeroTerm
  else if request.lastIncludedIndex = 0 ∨ request.lastIncludedTerm = 0 ∨
      request.term < request.lastIncludedTerm then .error .snapshot
  else if validConfig request.config then .ok () else .error .voters

def admitCandidacy (term lastLogIndex lastLogTerm : Nat) : Except Malformed Unit :=
  if term = 0 then .error .zeroTerm
  else if term < lastLogTerm ∨ !positionAgrees lastLogIndex lastLogTerm then .error .position
  else .ok ()

def admitReportsFrom (term : Nat) : List SlotReport → List Nat → Except Malformed Unit
  | [], _ => .ok ()
  | report :: reports, indices =>
    if report.index = 0 ∨ term < report.slot.term ∨ report.index ∈ indices then .error .slot
    else do
      admitEntries [report.slot.entry] 0 term
      admitReportsFrom term reports (report.index :: indices)

def admitReports (reply : VoteReply) : Except Malformed Unit :=
  admitReportsFrom reply.term reply.reports []

/-- The smallest size two of which and a classic quorum have a voter in common. -/
def fastQuorum (voters : Nat) : Nat :=
  let classic := voters / 2 + 1
  ((List.range' 1 voters).find? fun fast => 0 < fast * 2 + classic - voters * 2).getD voters

def insertHost (host : HostId) (hosts : List HostId) : List HostId :=
  if host ∈ hosts then hosts else host :: hosts

def insertIndex (index : Nat) (indices : List Nat) : List Nat :=
  indices.filter (· < index) ++ index :: indices.filter (index < ·)

/-- More than half of a set. -/
def carries (granters set : List HostId) : Bool :=
  set.length / 2 < set.countP (· ∈ granters)

def VoterConfig.isMajority (config : VoterConfig) (granters : List HostId) : Bool :=
  carries granters config.voters && config.joint.all (carries granters)

namespace RaftNode

def new (id : HostId) (voters : List HostId) : RaftNode where
  retentionPending := true
  id := id
  voters := voters
  joint := none
  currentTerm := 0
  votedFor := none
  role := .follower
  votes := []
  preVotes := []
  hasLeader := false
  contacts := []
  readContext := 0
  readRound := none
  log := []
  configEntries := []
  commitIndex := 0
  nextIndex := ∅
  matchIndex := ∅
  probing := []
  snapshotIndex := 0
  snapshotTerm := 0
  snapshotData := []
  transfer := none
  staging := ∅
  stagingAborted := none
  ownPriority := ⟨0, 0⟩
  priorities := ∅
  windowsLed := 0
  priorityTransferPending := false
  priorityTransferFailed := false
  window := ∅
  syncedTerm := 0
  windowBudget := 0
  reports := ∅
  syncIndex := 0
  openFrom := 0
  openAnnounced := (0, 0)
  fastVotes := ∅
  fastChosen := []
  fastThrough := 0
  readFloor := 0
  fastProposed := 0
  logBudget := maxIndex
  recovery := none
  logBytesHeld := 0

/-! ## The log and the configuration in force -/

def position (node : RaftNode) (index : Nat) : Option Nat :=
  if index ≤ node.snapshotIndex then none else some (index - node.snapshotIndex - 1)

def entryAt (node : RaftNode) (index : Nat) : Option LogEntry :=
  (node.position index).bind (node.log[·]?)

def lastLogIndex (node : RaftNode) : Nat := node.snapshotIndex + node.log.length

def lastLogTerm (node : RaftNode) : Nat :=
  node.log.getLast?.elim node.snapshotTerm LogEntry.term

def entryTerm (node : RaftNode) (index : Nat) : Option Nat :=
  if index = 0 then none
  else if index = node.snapshotIndex then some node.snapshotTerm
  else (node.entryAt index).map LogEntry.term

def baseConfig (node : RaftNode) : VoterConfig := ⟨node.voters, node.joint⟩

def configAt (node : RaftNode) (index : Nat) : Option VoterConfig :=
  (node.entryAt index).bind LogEntry.config

def effectiveConfig (node : RaftNode) : VoterConfig :=
  (node.configEntries.getLast?.bind node.configAt).getD node.baseConfig

def latestConfigIndex (node : RaftNode) : Nat := node.configEntries.getLast?.getD 0

/-- What the latest configuration entry replaced. -/
def configBeforeLatest (node : RaftNode) : Option VoterConfig :=
  match node.configEntries.reverse with
  | [] => none
  | _ :: earlier => some ((earlier.head?.bind node.configAt).getD node.baseConfig)

def committedConfig (node : RaftNode) : VoterConfig :=
  (((node.configEntries.filter (· ≤ node.commitIndex)).getLast?).bind node.configAt).getD
    node.baseConfig

def allVoters (node : RaftNode) : List HostId :=
  sortDedup (node.effectiveConfig.voters ++ node.effectiveConfig.joint.getD [])

def isVoter (node : RaftNode) (host : HostId) : Bool := host ∈ node.allVoters

def peers (node : RaftNode) : List HostId := node.allVoters.filter (· ≠ node.id)

def votesInConfiguration (node : RaftNode) (voter : HostId) : Bool :=
  voter ∈ node.effectiveConfig.voters || node.effectiveConfig.joint.any (voter ∈ ·)

def replicationTargets (node : RaftNode) : List HostId :=
  let staged := if node.role = .leader then node.staging.keys else []
  let outgoing :=
    if node.commitIndex < node.latestConfigIndex then
      node.configBeforeLatest.elim [] fun config => config.voters ++ config.joint.getD []
    else []
  sortDedup (node.allVoters ++ staged ++ outgoing)

def isMajority (node : RaftNode) (granters : List HostId) : Bool :=
  node.effectiveConfig.isMajority granters

def inJointConfiguration (node : RaftNode) : Bool := node.effectiveConfig.joint.isSome

def candidateLogIsCurrent (node : RaftNode) (index term : Nat) : Bool :=
  node.lastLogTerm < term || (term == node.lastLogTerm && node.lastLogIndex ≤ index)

def committedThrough (node : RaftNode) : Nat := max node.commitIndex node.fastThrough

def committedEntries (node : RaftNode) : List LogEntry :=
  node.log.take (node.committedThrough - node.snapshotIndex)

def matchOf (node : RaftNode) (voter : HostId) : Nat :=
  if voter = node.id then node.lastLogIndex else node.matchIndex[voter]?.getD 0

def activeTransfer (node : RaftNode) : Option Transfer :=
  node.transfer.filter fun transfer => node.role = .leader && transfer.term = node.currentTerm

def recovering (node : RaftNode) : Bool :=
  node.role = .leader && node.recovery.any fun recovery => recovery.term = node.currentTerm

def windowSpan (node : RaftNode) : Nat := node.windowBudget / minEntryBytes

/-! ## Changes of the log -/

def pushEntry (node : RaftNode) (entry : LogEntry) : RaftNode × Bool :=
  match checkedSucc node.lastLogIndex with
  | none => (node, false)
  | some index =>
    ({ node with
      configEntries :=
        if entry.config.isSome then insertIndex index node.configEntries else node.configEntries
      logBytesHeld := node.logBytesHeld + entry.encodedLen
      log := node.log ++ [entry] }, true)

def truncateFrom (node : RaftNode) (index : Nat) : RaftNode :=
  let keep := index - node.snapshotIndex - 1
  { node with
    retentionPending := node.retentionPending || keep < node.log.length
    logBytesHeld := node.logBytesHeld - encodedSum (node.log.drop keep)
    log := node.log.take keep
    configEntries := node.configEntries.filter (· < index) }

/-- Kept when it is there, put in place of what conflicts, appended when absent. -/
def placeEntry (node : RaftNode) (index : Nat) (entry : LogEntry) : RaftNode × Bool :=
  match node.entryTerm index with
  | some term =>
    if term = entry.term then (node, true) else (node.truncateFrom index).pushEntry entry
  | none => { node with retentionPending := true }.pushEntry entry

/-- Slots at committed indices go. -/
def pruneCommitted (node : RaftNode) : RaftNode :=
  let kept := node.window.filter fun index _ => node.commitIndex < index
  { node with
    window := kept
    retentionPending := node.retentionPending || kept.size < node.window.size }

/-! ## Retention -/

def saved (node : RaftNode) : SavedRaft where
  id := node.id
  base := ⟨node.voters, node.joint⟩
  term := node.currentTerm
  votedFor := node.votedFor
  log := node.log
  commitIndex := node.commitIndex
  snapshotIndex := node.snapshotIndex
  snapshotTerm := node.snapshotTerm
  snapshotData := node.snapshotData
  window := node.window.toList.map fun held => ⟨held.1, held.2⟩
  syncedTerm := node.syncedTerm

end RaftNode

namespace SavedRaft

def validateLog : List LogEntry → Nat → Nat → Except RaftRecoveryError Unit
  | [], _, _ => .ok ()
  | entry :: entries, previous, term =>
    if entry.term = 0 ∨ entry.term < previous ∨ term < entry.term then .error .invalidLogTerm
    else if entry.config.any fun config => !validConfig config then .error .invalidVoters
    else validateLog entries entry.term term

def validateWindow (saved : SavedRaft) : Except RaftRecoveryError Unit :=
  if saved.syncedTerm ≤ saved.term ∧
      (∀ report ∈ saved.window, 0 < report.index ∧ report.slot.term ≤ saved.term) ∧
      (saved.window.map SlotReport.index).Nodup then .ok ()
  else .error .invalidWindow

def validate (saved : SavedRaft) : Except RaftRecoveryError Unit :=
  if !validConfig saved.base then .error .invalidVoters
  else if (saved.snapshotIndex = 0 ∧ (saved.snapshotTerm ≠ 0 ∨ saved.snapshotData ≠ [])) ∨
      (0 < saved.snapshotIndex ∧ saved.snapshotTerm = 0) ∨ saved.term < saved.snapshotTerm then
    .error .invalidSnapshot
  else if maxIndex < saved.snapshotIndex + saved.log.length then .error .indexOverflow
  else if saved.commitIndex < saved.snapshotIndex ∨
      saved.snapshotIndex + saved.log.length < saved.commitIndex then .error .invalidCommitIndex
  else do
    validateLog saved.log saved.snapshotTerm saved.term
    saved.validateWindow

end SavedRaft

namespace RaftNode

def pushAll : RaftNode → List LogEntry → Except RaftRecoveryError RaftNode
  | node, [] => .ok node
  | node, entry :: entries =>
    match node.pushEntry entry with
    | (node, true) => pushAll node entries
    | (_, false) => .error .indexOverflow

/-- Where a recovery starts to read the log back. -/
abbrev begun (saved : SavedRaft) : RaftNode :=
  { new saved.id saved.base.voters with
    joint := saved.base.joint
    currentTerm := saved.term
    votedFor := saved.votedFor
    snapshotIndex := saved.snapshotIndex }

def restore (saved : SavedRaft) : Except RaftRecoveryError RaftNode := do
  saved.validate
  let node ← pushAll (begun saved) saved.log
  return { node with
    commitIndex := saved.commitIndex
    snapshotTerm := saved.snapshotTerm
    snapshotData := saved.snapshotData
    window := saved.window.foldl (fun window report => window.insert report.index report.slot) ∅
    syncedTerm := saved.syncedTerm }

def retained (node : RaftNode) : RaftNode := { node with retentionPending := false }

/-- Volatile authority goes; the term, the vote and the log stay. -/
def suspend (node : RaftNode) : RaftNode :=
  { node with role := .follower, hasLeader := false, readRound := none, contacts := [] }

end RaftNode

end Slates.Raft
