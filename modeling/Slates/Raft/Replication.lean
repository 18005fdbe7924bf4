import Slates.Raft.FastTrack

/-!
Replication. A leader sends each follower a batch, or its snapshot; the follower takes it where its
log matches, keeps what comes ahead of a hole in its window, and says how far it matches.
-/

namespace Slates.Raft

open Register (HostId)

namespace RaftNode

/-! ## The leader's side -/

/-- Entries while they fit the budget, and always the first. -/
def batchWithin (budget : Nat) : List LogEntry → Nat → List LogEntry
  | [], _ => []
  | entry :: entries, spent =>
    if spent = 0 ∨ spent + entry.encodedLen ≤ budget then
      entry :: batchWithin budget entries (spent + entry.encodedLen)
    else []

def batchFrom (node : RaftNode) (start budget : Nat) : List LogEntry :=
  batchWithin budget (node.log.drop (start - node.snapshotIndex - 1)) 0

def roomAhead (node : RaftNode) (firstUnacknowledged next budget : Nat) : Bool :=
  if firstUnacknowledged ≤ node.snapshotIndex then false
  else
    let resent := node.batchFrom firstUnacknowledged budget
    if node.lastLogIndex < firstUnacknowledged + resent.length then false
    else
      let coming := encodedSum (node.batchFrom next budget)
      let sent := next - firstUnacknowledged
      let flight := node.log.drop (firstUnacknowledged - node.snapshotIndex - 1)
      let inFlight := if sent ≤ flight.length then encodedSum (flight.take sent) else 0
      0 < coming && inFlight - encodedSum resent + coming ≤ node.windowBudget

def knownPriorities (node : RaftNode) : List (HostId × ElectionPriority) :=
  (node.peers.filterMap fun voter => node.priorities[voter]?.map fun priority => (voter, priority))
    ++ [(node.id, node.ownPriority)]

def replicateTo (node : RaftNode) (follower : HostId) (budget : Nat) :
    RaftNode × Option AppendEntries :=
  let node := if node.recovering then node.continueRecovery else node
  if node.role ≠ .leader then (node, none)
  else
    let next := max (node.nextIndex[follower]?.getD 1) 1
    let firstUnacknowledged := satSucc (node.matchOf follower)
    let probing := decide (follower ∈ node.probing)
    let resend := !probing && firstUnacknowledged < next &&
      !node.roomAhead firstUnacknowledged next budget
    let start := if resend then firstUnacknowledged else next
    let prevLogIndex := start - 1
    if prevLogIndex < node.snapshotIndex then
      ({ node with
        nextIndex := node.nextIndex.insert follower start
        probing := insertHost follower node.probing }, none)
    else
      let entries := node.batchFrom start budget
      ({ node with
        nextIndex :=
          if !probing && !resend then
            node.nextIndex.insert follower (min (start + entries.length) maxIndex)
          else node.nextIndex },
        some {
          readContext := node.readRound.elim 0 ReadRound.context
          term := node.currentTerm
          leader := node.id
          prevLogIndex := prevLogIndex
          prevLogTerm := if prevLogIndex = 0 then 0 else (node.entryTerm prevLogIndex).getD 0
          entries := entries
          leaderCommit := node.commitIndex
          priorities := node.knownPriorities
          syncIndex := node.syncIndex
          openFrom := node.openFrom })

def installSnapshotFor (node : RaftNode) (follower : HostId) : Option InstallSnapshot :=
  if node.role ≠ .leader ∨ node.snapshotIndex = 0 ∨
      node.snapshotIndex < max (node.nextIndex[follower]?.getD 1) 1 then none
  else some ⟨node.currentTerm, node.id, node.snapshotIndex, node.snapshotTerm, node.baseConfig,
    node.snapshotData⟩

def lastIndexOfTerm (node : RaftNode) (term : Nat) : Option Nat :=
  (node.log.reverse.findIdx? fun entry => entry.term = term).map fun back =>
    node.snapshotIndex + (node.log.length - back)

/-- Back past a conflicting term, strictly down and never to what is matched. -/
def backUp (node : RaftNode) (reply : AppendReply) : RaftNode :=
  match node.nextIndex[reply.follower]? with
  | none => node
  | some next =>
    let hint :=
      if reply.conflictTerm = 0 then reply.conflictIndex
      else (node.lastIndexOfTerm reply.conflictTerm).elim reply.conflictIndex satSucc
    let floor := satSucc (node.matchOf reply.follower)
    { node with
      nextIndex := node.nextIndex.insert reply.follower (max (max (min hint (next - 1)) floor) 1)
      probing := insertHost reply.follower node.probing }

/-- A pending read confirmed by a voter that echoes it. -/
def confirmRead (node : RaftNode) (reply : AppendReply) : RaftNode :=
  { node with
    readRound := node.readRound.map fun read =>
      if reply.follower ∈ node.allVoters ∧ reply.readContext = read.context ∧
          reply.term = read.term then
        { read with confirmed := insertHost reply.follower read.confirmed }
      else read }

def onAppendReply (node : RaftNode) (reply : AppendReply) : RaftNode :=
  if node.currentTerm < reply.term then node.stepDown reply.term
  else if node.role ≠ .leader ∨ reply.term ≠ node.currentTerm then node
  else
    let node := node.confirmRead reply
    let node := { node with
      contacts := insertHost reply.follower node.contacts
      priorities := node.priorities.insert reply.follower reply.priority }
    if !reply.success then node.backUp reply
    else if node.lastLogIndex < reply.matchIndex then node
    else (node.recordMatch reply.follower reply.matchIndex).advanceLeaderCommit

def onInstallSnapshotReply (node : RaftNode) (reply : InstallSnapshotReply) : RaftNode :=
  if node.currentTerm < reply.term then node.stepDown reply.term
  else if node.role ≠ .leader ∨ reply.term ≠ node.currentTerm ∨
      node.lastLogIndex < reply.matchIndex then node
  else
    let node := { node with contacts := insertHost reply.follower node.contacts }
    if 0 < reply.matchIndex then
      (node.recordMatch reply.follower reply.matchIndex).advanceLeaderCommit
    else node

/-! ## The follower's side -/

def admitAppend (node : RaftNode) (request : AppendEntries) : Except Malformed Unit :=
  if request.term = 0 then .error .zeroTerm
  else if request.term < request.prevLogTerm ∨
      !positionAgrees request.prevLogIndex request.prevLogTerm then .error .position
  else do
    admitEntries request.entries request.prevLogTerm request.term
    if request.prevLogIndex < node.commitIndex ∧
        (request.entries[node.commitIndex - request.prevLogIndex]?).any fun first =>
          first.term < (node.entryTerm node.commitIndex).getD 0 then
      .error .entryTerm
    else .ok ()

def appendReply (node : RaftNode) (success : Bool) (matchIndex readContext : Nat) : AppendReply :=
  ⟨readContext, node.id, node.currentTerm, success, matchIndex, 0, 0, node.ownPriority⟩

/-- The first index of a term's run that ends at `first`, not below the snapshot. -/
def runStart (node : RaftNode) (term : Nat) : Nat → Nat → Nat
  | 0, first => first
  | fuel + 1, first =>
    if node.snapshotIndex + 1 < first ∧ node.entryTerm (first - 1) = some term then
      runStart node term fuel (first - 1)
    else first

def conflictReply (node : RaftNode) (prev readContext : Nat) : AppendReply :=
  match node.entryTerm prev with
  | none => { node.appendReply false 0 readContext with
      conflictTerm := 0, conflictIndex := satSucc node.lastLogIndex }
  | some term => { node.appendReply false 0 readContext with
      conflictTerm := term, conflictIndex := node.runStart term prev prev }

def windowHoldsAtLeast (node : RaftNode) (index : Nat) (ballot : ℕ ×ₗ Bool) : Bool :=
  node.window[index]?.any fun held => ballot ≤ held.ballot

def windowFits (node : RaftNode) (entry : LogEntry) : Bool :=
  node.windowBytes + entry.encodedLen ≤ node.windowBudget

/-- A refused append's own entries, above the log and within the window's reach. -/
def bufferFrom (term floor reach : Nat) : RaftNode → Nat → List LogEntry → RaftNode
  | node, _, [] => node
  | node, index, entry :: entries =>
    let index := satSucc index
    let slot : WindowSlot := ⟨term, false, entry⟩
    if entry.term ≠ term ∨ index ≤ floor ∨ reach < index ∨
        node.windowHoldsAtLeast index slot.ballot ∨ !node.windowFits entry then
      bufferFrom term floor reach node index entries
    else
      bufferFrom term floor reach
        { node with window := node.window.insert index slot, retentionPending := true } index
        entries

def buffer (node : RaftNode) (request : AppendEntries) : RaftNode :=
  if node.syncedTerm ≠ request.term ∨ request.term ≠ node.currentTerm then node
  else bufferFrom request.term node.lastLogIndex
    (min (node.lastLogIndex + node.windowSpan) maxIndex) node request.prevLogIndex request.entries

/-- Synced to the leader of the term, once the log has its entry at the sync point. -/
def observeSync (node : RaftNode) (term syncIndex : Nat) : RaftNode :=
  if syncIndex = 0 ∨ term ≤ node.syncedTerm ∨ node.entryTerm syncIndex ≠ some term then node
  else { node with syncedTerm := term, retentionPending := true }

def absorbWithin (term : Nat) : Nat → RaftNode → RaftNode
  | 0, node => node
  | fuel + 1, node =>
    match node.window[satSucc node.lastLogIndex]? with
    | none => node
    | some slot =>
      if slot.fast ∨ slot.term ≠ term ∨ slot.entry.term ≠ term then node
      else
        match node.pushEntry slot.entry with
        | (node, false) => node
        | (node, true) => absorbWithin term fuel { node with retentionPending := true }

/-- The buffered entries that continue the log, moved into it. -/
def absorb (node : RaftNode) (term : Nat) : RaftNode := absorbWithin term node.window.size node

/-- The entries put in place while none is refused, and the index they end at. -/
def placeAll : RaftNode → Nat → List LogEntry → RaftNode × Nat
  | node, index, [] => (node, index)
  | node, index, entry :: entries =>
    match node.placeEntry (index + 1) entry with
    | (node, true) => placeAll node (index + 1) entries
    | (node, false) => (node, index + 1)

def learnCommit (node : RaftNode) (leaderCommit index : Nat) : RaftNode :=
  if node.commitIndex < leaderCommit then
    { node with
      retentionPending := node.retentionPending || node.commitIndex != min leaderCommit index
      commitIndex := min leaderCommit index }
  else node

def takeEntries (node : RaftNode) (request : AppendEntries) : RaftNode × AppendReply :=
  if 0 < request.prevLogIndex ∧ node.entryTerm request.prevLogIndex ≠ some request.prevLogTerm then
    let node := node.buffer request
    (node, node.conflictReply request.prevLogIndex request.readContext)
  else if maxIndex < request.prevLogIndex + request.entries.length then
    (node, node.appendReply false node.lastLogIndex request.readContext)
  else
    let (node, index) := node.placeAll request.prevLogIndex request.entries
    let node := node.learnCommit request.leaderCommit index
    let node := (node.observeSync request.term request.syncIndex).absorb request.term
    -- the log's end, whether or not this append reached it
    let index := max node.lastLogIndex index
    let node := node.pruneCommitted
    (node, node.appendReply true index request.readContext)

def hearLeader (node : RaftNode) (request : AppendEntries) : RaftNode :=
  let node := node.recognizeLeader request.term
  let known := if node.openAnnounced.1 = request.term then node.openAnnounced.2 else 0
  { node with
    openAnnounced := (request.term, max known request.openFrom)
    priorities := request.priorities.foldl (fun table held => table.insert held.1 held.2) ∅ }

/-- An append anchored inside what is committed is taken from there on. -/
def onAppendEntries (node : RaftNode) (request : AppendEntries) : RaftNode × AppendReply :=
  match node.admitAppend request with
  | .error _ => (node, node.appendReply false 0 0)
  | .ok () =>
    if request.term < node.currentTerm then (node, node.appendReply false 0 0)
    else
      let node := node.hearLeader request
      if request.prevLogIndex < node.commitIndex then
        let covered := node.commitIndex - request.prevLogIndex
        if request.entries.length ≤ covered then
          (node, node.appendReply true node.commitIndex request.readContext)
        else
          node.takeEntries { request with
            entries := request.entries.drop covered
            prevLogIndex := node.commitIndex
            prevLogTerm := (node.entryTerm node.commitIndex).getD 0 }
      else node.takeEntries request

def snapshotReply (node : RaftNode) (matchIndex : Nat) : InstallSnapshotReply :=
  ⟨node.id, node.currentTerm, matchIndex⟩

/-- The entries after the snapshot stay if it is of this log. -/
def adoptSnapshot (node : RaftNode) (request : InstallSnapshot) : RaftNode :=
  let discard := min (request.lastIncludedIndex - node.snapshotIndex) node.log.length
  let node :=
    if node.entryTerm request.lastIncludedIndex = some request.lastIncludedTerm then
      { node with
        log := node.log.drop discard
        logBytesHeld := node.logBytesHeld - encodedSum (node.log.take discard)
        configEntries := node.configEntries.filter (satSucc request.lastIncludedIndex ≤ ·) }
    else { node with log := [], logBytesHeld := 0, configEntries := [] }
  { node with
    retentionPending := true
    snapshotIndex := request.lastIncludedIndex
    snapshotTerm := request.lastIncludedTerm
    snapshotData := request.state
    voters := request.config.voters
    joint := request.config.joint
    commitIndex := max node.commitIndex request.lastIncludedIndex }.pruneCommitted

def onInstallSnapshot (node : RaftNode) (request : InstallSnapshot) :
    RaftNode × InstallSnapshotReply :=
  match admitSnapshot request with
  | .error _ => (node, node.snapshotReply 0)
  | .ok () =>
    if request.term < node.currentTerm then (node, node.snapshotReply 0)
    else
      let node := node.recognizeLeader request.term
      let node :=
        if node.snapshotIndex < request.lastIncludedIndex then node.adoptSnapshot request else node
      (node, node.snapshotReply node.commitIndex)

/-- A snapshot that did not decode: its leader is recognised, nothing is taken. -/
def declineSnapshot (node : RaftNode) (request : InstallSnapshot) :
    RaftNode × InstallSnapshotReply :=
  let node :=
    if node.currentTerm ≤ request.term then node.recognizeLeader request.term else node
  (node, node.snapshotReply 0)

end RaftNode

end Slates.Raft
