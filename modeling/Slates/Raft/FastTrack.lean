import Slates.Raft.Elections

/-!
The fast track: commands proposed straight to the voters, whose first votes at an index stand, and
the leader that decides each index from them.
-/

namespace Slates.Raft

open Register (checkedSucc)

namespace RaftNode

def openFastTrack (node : RaftNode) : RaftNode × Bool :=
  if node.role ≠ .leader ∨ node.syncIndex = 0 ∨ node.windowBudget = 0 ∨ 0 < node.openFrom ∨
      node.inJointConfiguration ∨ node.commitIndex < node.latestConfigIndex ∨
      node.activeTransfer.isSome then (node, false)
  else
    let openFrom := satSucc node.lastLogIndex
    ({ node with openFrom := openFrom, openAnnounced := (node.currentTerm, openFrom) }, true)

def fastOpenFrom (node : RaftNode) : Nat :=
  if node.openAnnounced.1 = node.currentTerm then node.openAnnounced.2 else 0

def fastTrackOpen (node : RaftNode) : Bool :=
  0 < node.fastOpenFrom && node.syncedTerm = node.currentTerm

/-- A command at the lowest index the node knows unused. -/
def proposeFast (node : RaftNode) (command : List UInt8) : RaftNode × Option FastPropose :=
  if !node.fastTrackOpen ∨ node.activeTransfer.isSome then (node, none)
  else
    let used := max (max (node.window.keys.getLast?.getD 0) node.lastLogIndex) node.fastProposed
    match checkedSucc used with
    | none => (node, none)
    | some after =>
      let index := max node.fastOpenFrom after
      ({ node with fastProposed := index }, some ⟨node.currentTerm, node.id, index, command⟩)

/-- The next index, while votes wait at or above it and too few were cast there. -/
def stalledIndex (node : RaftNode) : Option Nat :=
  if node.role ≠ .leader ∨ node.openFrom = 0 ∨ node.activeTransfer.isSome then none
  else
    let next := satSucc node.lastLogIndex
    let waiting := node.fastVotes.keys.getLast?.any (next ≤ ·)
    let heard := (node.fastVotes[next]?.getD ∅).keys
    if waiting && !node.isMajority heard then some next else none

def fillHole (node : RaftNode) (index : Nat) : Option FastPropose :=
  if node.stalledIndex = some index then some ⟨node.currentTerm, node.id, index, []⟩ else none

def windowBytes (node : RaftNode) : Nat :=
  encodedSum (node.window.values.map WindowSlot.entry)

/-- Whether a voter may vote at the proposal's index. -/
def hearsProposal (node : RaftNode) (proposal : FastPropose) : Bool :=
  proposal.term = node.currentTerm && node.isVoter node.id &&
    node.syncedTerm = node.currentTerm && 0 < node.fastOpenFrom &&
    node.fastOpenFrom ≤ proposal.index && node.lastLogIndex < proposal.index &&
    proposal.index ≤ min (node.lastLogIndex + node.windowSpan) maxIndex

/-- The vote put into the window, if it fits. -/
def castFastVote (node : RaftNode) (proposal : FastPropose) : RaftNode × Option FastVote :=
  let entry := LogEntry.ofCommand node.currentTerm proposal.command
  let replaced := node.window[proposal.index]?.elim 0 fun held => held.entry.encodedLen
  if node.windowBudget < node.windowBytes - replaced + entry.encodedLen then (node, none)
  else
    ({ node with
      window := node.window.insert proposal.index ⟨node.currentTerm, true, entry⟩
      retentionPending := true },
      some ⟨proposal.term, node.id, proposal.index, proposal.command⟩)

/-- The first vote at an index in a term stands, and is sent again. -/
def onFastPropose (node : RaftNode) (proposal : FastPropose) : RaftNode × Option FastVote :=
  if !node.hearsProposal proposal then (node, none)
  else
    match node.window[proposal.index]? with
    | some held =>
      if held.fast ∧ held.term = node.currentTerm then
        (node, some ⟨proposal.term, node.id, proposal.index, held.entry.command⟩)
      else if toLex (node.currentTerm, false) ≤ held.ballot then (node, none)
      else node.castFastVote proposal
    | none => node.castFastVote proposal

/-- More votes, or as many and the lesser bytes. -/
def prefers (commands : List (List UInt8)) (a b : List UInt8) : Bool :=
  commands.count b < commands.count a || (commands.count a == commands.count b && a < b)

def mostVoted (commands : List (List UInt8)) : Option (List UInt8) :=
  commands.foldl (fun best command =>
    match best with
    | none => some command
    | some best => if prefers commands command best then some command else some best) none

/-- The next index decided while a classic quorum voted there, and those after it. -/
def decideWithin : Nat → RaftNode → RaftNode
  | 0, node => node
  | fuel + 1, node =>
    match node.fastVotes[satSucc node.lastLogIndex]? with
    | none => node
    | some votes =>
      if !node.isMajority votes.keys then node
      else
        match mostVoted votes.values with
        | none => node
        | some command =>
          match node.leaderAppend (.ofCommand node.currentTerm command) with
          | (node, false) => node
          | (node, true) => decideWithin fuel node

def decideFromVotes (node : RaftNode) : RaftNode :=
  if node.activeTransfer.isSome then node else decideWithin node.fastVotes.size node

/-- The decided indices above what is committed whose command a fast quorum voted. -/
def chosenByVotes (node : RaftNode) : List Nat :=
  let fast := fastQuorum node.allVoters.length
  (node.fastVotes.toList.filter fun held =>
    node.committedThrough < held.1 && held.1 ≤ node.lastLogIndex &&
    (node.entryAt held.1).any fun entry =>
      entry.term = node.currentTerm && fast ≤ held.2.values.count entry.command &&
        held.1 ∉ node.fastChosen).map Prod.fst

def countFastQuorums (node : RaftNode) : RaftNode :=
  let node := { node with fastChosen := node.fastChosen ++ node.chosenByVotes }.advanceLeaderCommit
  { node with fastVotes := node.fastVotes.filter fun index _ => node.committedThrough < index }

def onFastVote (node : RaftNode) (vote : FastVote) : RaftNode :=
  if node.role ≠ .leader ∨ vote.term ≠ node.currentTerm ∨ node.openFrom = 0 ∨
      vote.index < node.openFrom ∨ vote.index ≤ node.committedThrough ∨
      min (node.lastLogIndex + node.windowSpan) maxIndex < vote.index ∨
      !node.isVoter vote.voter then node
  else
    let node := { node with
      contacts := insertHost vote.voter node.contacts
      fastVotes := node.fastVotes.insert vote.index
        ((node.fastVotes[vote.index]?.getD ∅).insert vote.voter vote.command) }
    node.decideFromVotes.countFastQuorums

end RaftNode

end Slates.Raft
