import Slates.Raft.Commit

/-!
Terms, votes and elections, and the recovery a won election begins with: what the voters' windows
decide above the candidate's log is appended under its term, a slice at a time.
-/

open Std (ExtTreeMap)

namespace Slates.Raft

open Register (checkedSucc)

namespace RaftNode

/-! ## Terms -/

/-- A later term, with no vote in it and nothing of a leader's. -/
def stepDown (node : RaftNode) (term : Nat) : RaftNode :=
  { node with
    retentionPending :=
      node.retentionPending || node.currentTerm != term || node.votedFor.isSome
    currentTerm := term
    votedFor := none
    readRound := none
    role := .follower
    votes := []
    reports := ∅
    transfer := none
    staging := ∅
    syncIndex := 0
    openFrom := 0
    fastVotes := ∅
    fastChosen := []
    fastThrough := 0
    fastProposed := 0 }

def observeTerm (node : RaftNode) (term : Nat) : RaftNode :=
  if node.currentTerm < term then node.stepDown term else node

/-- A leader exists for the term, and this is not it. -/
def recognizeLeader (node : RaftNode) (term : Nat) : RaftNode :=
  { node.observeTerm term with readRound := none, role := .follower, hasLeader := true }

def forgetLeader (node : RaftNode) : RaftNode :=
  if node.role = .follower then { node with hasLeader := false } else node

/-! ## Recovery of the windows -/

/-- The leader's entry of the highest ballot, or at a fast ballot the entry a fast quorum could have
chosen. -/
def recoveredValue (node : RaftNode) (slots : List WindowSlot) (heard : Nat) :
    Option (LogEntry × Bool) :=
  match (slots.map WindowSlot.ballot).max? with
  | none => none
  | some highest =>
    let atHighest := slots.filter fun slot => slot.ballot = highest
    if (ofLex highest).2 then atHighest.head?.map fun slot => (slot.entry, false)
    else if node.effectiveConfig.joint.isSome then none
    else
      let voters := node.effectiveConfig.voters.length
      let threshold := heard + fastQuorum voters - voters
      (atHighest.find? fun candidate =>
        threshold ≤ atHighest.countP fun other => other.entry = candidate.entry).map
        fun slot => (slot.entry, true)

/-- The slots above `index`, as a vote reports them. -/
def windowAbove (node : RaftNode) (index : Nat) : List SlotReport :=
  (node.window.toList.filter fun held => satSucc index ≤ held.1).map fun held => ⟨held.1, held.2⟩

/-- Every slot above the log, the node's own first, by index. -/
def reportedAbove (node : RaftNode) : ExtTreeMap Nat (List WindowSlot) :=
  let above := node.lastLogIndex
  let voters := node.reports.values.flatten.filter fun report => above < report.index
  (node.windowAbove above ++ voters).foldl (fun reported report =>
    reported.insert report.index (reported[report.index]?.getD [] ++ [report.slot])) ∅

def planRecovery (node : RaftNode) : Recovery :=
  let above := node.lastLogIndex
  let decided := node.reportedAbove.filterMap fun _ slots =>
    node.recoveredValue slots node.votes.length
  let (next, last) := match checkedSucc above with
    | some next => (next, decided.keys.getLast?.getD above)
    | none => (maxIndex, above - 1)
  { term := node.currentTerm, decided := decided, next := next, last := last, sliced := false }

def usizeMax : Nat := 2 ^ 64 - 1

/-- Whether the plan fits the log budget beside the log. Sums of bytes stop at `usize::MAX`. -/
def admits (node : RaftNode) (recovery : Recovery) : Bool :=
  let holes := satSucc recovery.last - recovery.next - recovery.decided.size
  let holeBytes := min (holes * minEntryBytes) usizeMax
  let valueBytes := recovery.decided.values.foldl
    (fun sum found => min (sum + found.1.encodedLen) usizeMax) 0
  min (min (node.logBytesHeld + holeBytes) usizeMax + valueBytes) usizeMax ≤ node.logBudget

/-- The value decided at an index under this term, or nothing to do there. -/
def recoveryEntry (node : RaftNode) (recovery : Recovery) (index : Nat) : LogEntry :=
  match recovery.decided[index]? with
  | none => .ofCommand node.currentTerm []
  | some (entry, _) => { entry with term := node.currentTerm }

/-- Entries of the recovery, while they fit the slice; false last when an entry was refused, and the
recovery is over. -/
def recoverSlice (slice : Nat) :
    Nat → RaftNode → Recovery → Nat → RaftNode × Recovery × Bool
  | 0, node, recovery, _ => (node, recovery, true)
  | fuel + 1, node, recovery, spent =>
    if recovery.last < recovery.next then (node, recovery, true)
    else
      let index := recovery.next
      let bytes := recovery.decided[index]?.elim minEntryBytes fun found => found.1.encodedLen
      if 0 < spent ∧ slice < spent + bytes then (node, recovery, true)
      else
        match node.pushEntry (node.recoveryEntry recovery index) with
        | (node, false) => (node, recovery, false)
        | (node, true) =>
          match checkedSucc index with
          | none => (node, recovery, true)
          | some next => recoverSlice slice fuel node { recovery with next := next } (spent + bytes)

def continueRecovery (node : RaftNode) : RaftNode :=
  if !node.recovering then { node with recovery := none }
  else
    match node.recovery with
    | none => node
    | some recovery =>
      let slice := max node.windowBudget minEntryBytes
      match recoverSlice slice (recovery.last + 1 - recovery.next) { node with recovery := none }
        recovery 0 with
      | (node, _, false) => node
      | (node, recovery, true) =>
        let node := { node with retentionPending := true }
        if recovery.next ≤ recovery.last then
          { node with recovery := some { recovery with sliced := true } }
        else if recovery.sliced then (node.leaderAppend (.ofCommand node.currentTerm [])).1
        else node

/-- The new leader's own state, and the first slice of its recovery. -/
def recover (node : RaftNode) (recovery : Recovery) : RaftNode :=
  let node := { node with
    reports := ∅
    syncedTerm := node.currentTerm
    syncIndex := 0
    openFrom := 0
    fastVotes := ∅
    fastChosen := []
    fastThrough := 0
    fastProposed := 0
    retentionPending := true
    readFloor := if recovery.next ≤ recovery.last then recovery.last else 0 }
  if recovery.next ≤ recovery.last then
    { node with recovery := some recovery }.continueRecovery
  else node

/-! ## Elections -/

/-- A leader begins in contact with its voters, guessing they have its log. -/
def beginLeading (node : RaftNode) : RaftNode :=
  { node with
    transfer := none
    staging := ∅
    stagingAborted := none
    windowsLed := 0
    priorityTransferPending := false
    priorityTransferFailed := false
    contacts := node.votes
    nextIndex := node.peers.foldl (fun next peer => next.insert peer (satSucc node.lastLogIndex)) ∅
    matchIndex := node.peers.foldl (fun matched peer => matched.insert peer 0) ∅
    probing := node.peers }

/-- An election whose recovery does not fit the log budget is declined. -/
def becomeLeaderIfMajority (node : RaftNode) : RaftNode :=
  if node.role ≠ .candidate ∨ !node.isMajority node.votes then node
  else
    let recovery := node.planRecovery
    if !node.admits recovery then { node with role := .follower, votes := [], reports := ∅ }
    else ({ node with role := .leader }.recover recovery).beginLeading

/-- What each other voter is asked, if there is one. -/
def voteRequest (node : RaftNode) : Option RequestVote :=
  if node.peers = [] then none
  else some ⟨node.currentTerm, node.id, node.lastLogIndex, node.lastLogTerm⟩

/-- A candidate of the next term, unless the node does not vote or its term is the largest. -/
def startElection (node : RaftNode) : RaftNode × Option RequestVote :=
  if !node.isVoter node.id then (node, none)
  else
    match checkedSucc node.currentTerm with
    | none => (node, none)
    | some next =>
      let node := { node with
        retentionPending := true
        currentTerm := next
        readRound := none
        role := .candidate
        votedFor := some node.id
        votes := [node.id]
        reports := ∅ }
      let node := node.becomeLeaderIfMajority
      (node, node.voteRequest)

/-- A pre-candidate, or a candidate at once when it is a majority. -/
def onElectionTimeout (node : RaftNode) : RaftNode × Option PreVote :=
  if !node.isVoter node.id then (node, none)
  else
    match checkedSucc node.currentTerm with
    | none => (node, none)
    | some next =>
      let node := { node with hasLeader := false, role := .preCandidate, preVotes := [node.id] }
      if node.isMajority node.preVotes then (node.startElection.1, none)
      else if node.peers = [] then (node, none)
      else (node, some ⟨next, node.id, node.lastLogIndex, node.lastLogTerm⟩)

/-- Whether a vote would be granted; nothing changes. -/
def onPreVote (node : RaftNode) (request : PreVote) : PreVoteReply :=
  match admitCandidacy request.term request.lastLogIndex request.lastLogTerm with
  | .error _ => ⟨node.id, request.term, false⟩
  | .ok () => ⟨node.id, request.term, node.role ≠ .leader && !node.hasLeader &&
      node.currentTerm < request.term &&
      node.candidateLogIsCurrent request.lastLogIndex request.lastLogTerm⟩

def onPreVoteReply (node : RaftNode) (reply : PreVoteReply) : RaftNode × Option RequestVote :=
  if node.role ≠ .preCandidate ∨ some reply.term ≠ checkedSucc node.currentTerm ∨
      !reply.granted then (node, none)
  else
    let node := { node with preVotes := insertHost reply.voter node.preVotes }
    if node.isMajority node.preVotes then node.startElection else (node, none)

/-- Whether a vote is granted once the term is the request's. -/
def grants (node : RaftNode) (request : RequestVote) : Bool :=
  request.term = node.currentTerm &&
    (node.votedFor = none || node.votedFor = some request.candidate) &&
    node.candidateLogIsCurrent request.lastLogIndex request.lastLogTerm

def onRequestVote (node : RaftNode) (request : RequestVote) : RaftNode × VoteReply :=
  match admitCandidacy request.term request.lastLogIndex request.lastLogTerm with
  | .error _ => (node, ⟨node.id, node.currentTerm, false, []⟩)
  | .ok () =>
    let node := node.observeTerm request.term
    if node.grants request then
      let node := { node with
        retentionPending :=
          node.retentionPending || node.votedFor != some request.candidate
        votedFor := some request.candidate }
      (node, ⟨node.id, node.currentTerm, true, node.windowAbove request.lastLogIndex⟩)
    else (node, ⟨node.id, node.currentTerm, false, []⟩)

/-- Only a vote of the candidate's own configuration is counted. -/
def onVoteReply (node : RaftNode) (reply : VoteReply) : RaftNode :=
  match admitReports reply with
  | .error _ => node
  | .ok () =>
    if node.currentTerm < reply.term then node.stepDown reply.term
    else if node.role = .candidate ∧ reply.term = node.currentTerm ∧ reply.granted ∧
        node.votesInConfiguration reply.voter then
      { node with
        votes := insertHost reply.voter node.votes
        reports := node.reports.insert reply.voter reply.reports }.becomeLeaderIfMajority
    else node

def onTimeoutNow (node : RaftNode) (invitation : TimeoutNow) : RaftNode × Option RequestVote :=
  if invitation.term ≠ node.currentTerm ∨ node.role = .leader ∨ !node.isVoter node.id then
    (node, none)
  else node.startElection

end RaftNode

end Slates.Raft
