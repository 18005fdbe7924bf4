import Slates.Raft.Calls
import Slates.Library.Tables

/-!
What the handlers are put together from: a relation that composes, sees only what is visible and
holds of each part holds of every call but the few shown by themselves (`Parts.call`).
-/

namespace Slates.Raft

open Register (HostId HostMap checkedSucc)

/-- A call that is no composition of the parts. -/
def Call.apart : Call → Bool
  | .retained | .restart | .compact _ _ | .promoteCaughtUp _ | .beginMembershipChange _
  | .onInstallSnapshot _ => true
  | _ => false

namespace RaftNode

/-- The parts that other parts are put together from. -/
structure Ground (R : RaftNode → RaftNode → Prop) : Prop where
  trans {a b c : RaftNode} : R a b → R b c → R a c
  of_visible {a b : RaftNode} : b.visible = a.visible → R a b
  follower {a : RaftNode} (role : Role) (votes : List HostId) : role ≠ .candidate →
    role ≠ .leader → R a { a with role := role, votes := votes }
  dropRead {a : RaftNode} : R a { a with readRound := none }
  /-- Matches are forgotten, or begin at none. -/
  rematch {a b : RaftNode} : { b with matchIndex := a.matchIndex }.visible = a.visible →
    (∀ (f : HostId) (k : Nat), b.matchIndex[f]? = some k → 0 < k → a.matchIndex[f]? = some k) →
    R a b
  commitHeld {a : RaftNode} : a.role = .leader → R a a.commitHeld
  commitChosen {a : RaftNode} : R a a.commitChosen
  pruneCommitted {a : RaftNode} : R a a.pruneCommitted

/-- The parts of a leader's own work, and of the fast track's. -/
structure Work (R : RaftNode → RaftNode → Prop) : Prop extends Ground R where
  append {a : RaftNode} (command : List UInt8) : a.role = .leader → a.recovering = false →
    R a (a.leaderAppend (.ofCommand a.currentTerm command)).1
  complete {a : RaftNode} : R a a.completeMembershipChange.1
  recover {a : RaftNode} : R a a.continueRecovery
  cast {a : RaftNode} {proposal : FastPropose} : a.hearsProposal proposal = true →
    R a (a.castFastVote proposal).1
  hear {a : RaftNode} (vote : FastVote) : a.openFrom ≠ 0 → R a { a with
    contacts := insertHost vote.voter a.contacts
    fastVotes := a.fastVotes.insert vote.index
      ((a.fastVotes[vote.index]?.getD ∅).insert vote.voter vote.command) }
  decideVotes {a : RaftNode} (fuel : Nat) : a.role = .leader → R a (decideWithin fuel a)
  choose {a : RaftNode} : R a { a with fastChosen := a.fastChosen ++ a.chosenByVotes }
  tidy {a : RaftNode} (keep : Nat → HostMap (List UInt8) → Bool) :
    R a { a with fastVotes := a.fastVotes.filter keep }

structure Parts (R : RaftNode → RaftNode → Prop) : Prop extends Work R where
  of_held {a b : RaftNode} : b.held = a.held → R a b
  stepDown {a : RaftNode} {term : Nat} : a.currentTerm ≤ term → R a (a.stepDown term)
  stand {a : RaftNode} : R a { a with
    retentionPending := true, currentTerm := a.currentTerm + 1, readRound := none,
    role := .candidate, votedFor := some a.id, votes := [a.id], reports := ∅ }
  tally {a : RaftNode} {reply : VoteReply} : admitReports reply = .ok () → R a { a with
    votes := insertHost reply.voter a.votes
    reports := a.reports.insert reply.voter reply.reports }
  withdraw {a : RaftNode} : R a { a with role := .follower, votes := [], reports := ∅ }
  lead {a : RaftNode} : a.role = .candidate →
    R a ({ a with role := .leader }.recover a.planRecovery).beginLeading
  grant {a : RaftNode} (candidate : HostId) : R a { a with
    retentionPending := a.retentionPending || a.votedFor != some candidate
    votedFor := some candidate }
  openTrack {a : RaftNode} : R a a.openFastTrack.1
  entries {a : RaftNode} (request : AppendEntries) : R a (a.onAppendEntries request).1

variable {R : RaftNode → RaftNode → Prop} {node node' node'' : RaftNode}

namespace Ground

variable (h : Ground R)

include h

theorem after (hrest : R node' node'') (hsame : node'.visible = node.visible) : R node node'' :=
  h.trans (h.of_visible hsame) hrest

theorem observeTerm {term : Nat} (hdown : node.currentTerm ≤ term → R node (node.stepDown term)) :
    R node (node.observeTerm term) := by
  rw [RaftNode.observeTerm]
  split_ifs with hlater
  · exact hdown hlater.le
  · exact h.of_visible rfl

theorem resign (votes : List HostId) :
    R node { node with role := .follower, votes := votes, readRound := none } :=
  h.trans (h.follower .follower votes (by simp) (by simp)) h.dropRead

theorem recognizeLeader (term : Nat)
    (hdown : node.currentTerm ≤ term → R node (node.stepDown term)) :
    R node (node.recognizeLeader term) :=
  h.trans (h.observeTerm hdown) (h.trans (h.resign _) (h.of_visible rfl))

theorem advanceLeaderCommit : R node node.advanceLeaderCommit := by
  have hremoved : ∀ {node : RaftNode}, R node node.stepDownIfRemoved := by
    intro node
    rw [stepDownIfRemoved]
    split_ifs
    · exact h.of_visible rfl
    · exact h.trans (h.resign []) (h.of_visible rfl)
    · exact h.of_visible rfl
  rw [RaftNode.advanceLeaderCommit]
  split_ifs with hrole
  · exact h.of_visible rfl
  · have hheld : R node node.commitHeld := h.commitHeld (not_not.mp hrole)
    exact h.trans (h.trans (h.trans hheld h.commitChosen) h.pruneCommitted) hremoved

theorem beginMembershipChange {voters : List HostId}
    (happend : node.role = .leader → { node with readRound := none }.recovering = false →
      voters ≠ [] → node.effectiveConfig.joint = none → node.latestConfigIndex ≤ node.commitIndex →
      R { node with readRound := none } ({ node with readRound := none }.leaderAppend
        (.ofConfiguration node.currentTerm ⟨node.effectiveConfig.voters, some voters⟩)).1) :
    R node (node.beginMembershipChange voters).1 := by
  rw [RaftNode.beginMembershipChange]
  split_ifs with hrefused
  · exact h.of_visible rfl
  · simp only [not_or, not_not, not_lt, Bool.not_eq_true] at hrefused
    obtain ⟨hrole, hidle, -, hjoint, hvoters, hlatest, -⟩ := hrefused
    exact h.trans h.dropRead (happend hrole hidle hvoters (by simpa using hjoint) hlatest)

theorem promoteCaughtUp {target : List HostId} (hbegin : ∀ part : HostId → Bool,
    R node (node.beginMembershipChange (target.filter part)).1) :
    R node (node.promoteCaughtUp target).1 := by
  rw [RaftNode.promoteCaughtUp]
  split_ifs
  · exact h.of_visible rfl
  · exact hbegin _

theorem completeMembershipChange
    (happend : ∀ {voters}, node.effectiveConfig.joint = some voters → node.role = .leader →
      { node with readRound := none }.recovering = false →
      node.latestConfigIndex ≤ node.commitIndex → R { node with readRound := none }
        ({ node with readRound := none }.leaderAppend
          (.ofConfiguration node.currentTerm ⟨voters, none⟩)).1) :
    R node node.completeMembershipChange.1 := by
  rw [RaftNode.completeMembershipChange]
  split
  · exact h.of_visible rfl
  rename_i voters hjoint
  split_ifs with hrefused
  · exact h.of_visible rfl
  · simp only [not_or, not_not, not_lt, Bool.not_eq_true] at hrefused
    exact h.trans h.dropRead (happend hjoint hrefused.1 hrefused.2.1 hrefused.2.2)

theorem readIndex (context : Nat) : R node (node.readIndex context).1 := by
  rw [RaftNode.readIndex]
  split
  · exact h.of_visible rfl
  · split_ifs
    · exact h.of_visible rfl
    · exact h.dropRead

theorem cancelRead (context : Nat) : R node (node.cancelRead context) := by
  rw [RaftNode.cancelRead]
  split_ifs
  · exact h.dropRead
  · exact h.of_visible rfl

theorem foldl {α : Type} {f : RaftNode → α → RaftNode} (hf : ∀ node x, R node (f node x))
    (xs : List α) (node : RaftNode) : R node (xs.foldl f node) := by
  induction xs generalizing node with
  | nil => exact h.of_visible rfl
  | cons x xs ih => exact h.trans (hf node x) (ih (f node x))

theorem unstage (node : RaftNode) (member : HostId) : R node (node.unstage member) := by
  rw [RaftNode.unstage, forgetProgress]
  split_ifs
  · exact h.of_visible rfl
  · refine h.rematch rfl fun f k hk _ => ?_
    rw [getElem?_erase_if] at hk
    split_ifs at hk
    exact hk

theorem ageStaging : R node node.ageStaging := by
  rw [RaftNode.ageStaging]
  refine h.after (h.foldl (fun node member => ?_) _ _) rfl
  exact h.trans (h.unstage node member) (h.of_visible rfl)

theorem stage (node : RaftNode) (member : HostId) : R node (node.stage member) := by
  rw [RaftNode.stage]
  split_ifs
  · exact h.of_visible rfl
  · refine h.rematch rfl fun f k hk hpos => ?_
    rw [getElem?_insert_if] at hk
    split_ifs at hk
    · exact absurd (Option.some.inj hk) hpos.ne
    · exact hk

theorem catchUp (target : List HostId) : R node (node.catchUp target).1 := by
  rw [RaftNode.catchUp]
  split_ifs
  · exact h.of_visible rfl
  dsimp only
  split
  · exact h.trans (h.foldl h.unstage _ node) (h.of_visible rfl)
  · exact h.trans (h.foldl h.unstage _ node) (h.after (h.foldl h.stage _ _) rfl)

end Ground

/-! ## A leader's work -/

namespace Work

variable (h : Work R)

include h

theorem appendCommand (command : List UInt8) : R node (node.appendCommand command).1 := by
  rw [RaftNode.appendCommand]
  split_ifs with hrefused
  · exact h.of_visible rfl
  · simp only [not_or, not_not, Bool.not_eq_true] at hrefused
    exact h.append command hrefused.1 hrefused.2.2.2

theorem countDecided (hrole : node.role = .leader) :
    R node node.decideFromVotes.countFastQuorums := by
  have hdecided : R node node.decideFromVotes := by
    rw [decideFromVotes]
    split_ifs
    · exact h.of_visible rfl
    · exact h.decideVotes _ hrole
  refine h.trans hdecided ?_
  generalize node.decideFromVotes = node
  exact h.trans (h.trans h.choose h.advanceLeaderCommit) (h.tidy _)

theorem onFastVote (vote : FastVote) : R node (node.onFastVote vote) := by
  rw [RaftNode.onFastVote]
  split_ifs with hrefused
  · exact h.of_visible rfl
  · simp only [not_or, not_not] at hrefused
    exact h.trans (h.hear vote hrefused.2.2.1) (h.countDecided hrefused.1)

theorem onFastPropose (proposal : FastPropose) : R node (node.onFastPropose proposal).1 := by
  rw [RaftNode.onFastPropose]
  split_ifs with hheard
  · exact h.of_visible rfl
  have hcast := h.cast (by simpa using hheard)
  split
  · split_ifs
    · exact h.of_visible rfl
    · exact h.of_visible rfl
    · exact hcast
  · exact hcast

theorem replicateTo (follower : HostId) (budget : Nat) :
    R node (node.replicateTo follower budget).1 := by
  have hready : R node (if node.recovering then node.continueRecovery else node) := by
    split_ifs
    · exact h.recover
    · exact h.of_visible rfl
  exact h.trans hready (h.of_visible (node.visible_replicateTo follower budget))

theorem checkQuorum : R node node.checkQuorum := by
  rw [RaftNode.checkQuorum]
  split_ifs with hrole
  · exact h.of_visible rfl
  have haged : R node node.ageTransfer := by
    rw [ageTransfer]
    split
    · exact h.of_visible rfl
    split_ifs
    · exact h.after (h.countDecided (not_not.mp hrole)) rfl
    · exact h.of_visible rfl
  refine h.trans (h.trans haged h.ageStaging) ?_
  generalize node.ageTransfer.ageStaging = node
  dsimp only
  split_ifs
  · exact h.of_visible rfl
  · exact h.trans (h.resign node.votes) (h.of_visible rfl)

end Work

namespace Parts

variable (h : Parts R)

include h

/-! ## Terms and elections -/

theorem becomeLeaderIfMajority : R node node.becomeLeaderIfMajority := by
  rw [RaftNode.becomeLeaderIfMajority]
  dsimp only
  split_ifs with hnot
  · exact h.of_held rfl
  · exact h.withdraw
  · exact h.lead (not_not.mp (not_or.mp hnot).1)

theorem startElection : R node node.startElection.1 := by
  rw [RaftNode.startElection]
  split_ifs
  · exact h.of_held rfl
  cases hnext : checkedSucc node.currentTerm with
  | none => exact h.of_held rfl
  | some next =>
    rw [checkedSucc] at hnext
    split_ifs at hnext
    obtain rfl := Option.some.inj hnext
    exact h.trans h.stand h.becomeLeaderIfMajority

theorem onElectionTimeout : R node node.onElectionTimeout.1 := by
  rw [RaftNode.onElectionTimeout]
  split_ifs
  · exact h.of_held rfl
  cases checkedSucc node.currentTerm with
  | none => exact h.of_held rfl
  | some next =>
    have hpre : R node { node with
        hasLeader := false, role := .preCandidate, preVotes := [node.id] } :=
      h.trans (h.follower .preCandidate node.votes (by simp) (by simp)) (h.of_held rfl)
    dsimp only
    split_ifs
    · exact h.trans hpre h.startElection
    · exact hpre
    · exact hpre

theorem onPreVoteReply (reply : PreVoteReply) : R node (node.onPreVoteReply reply).1 := by
  rw [RaftNode.onPreVoteReply]
  dsimp only
  split_ifs
  · exact h.of_held rfl
  · exact h.after h.startElection rfl
  · exact h.of_held rfl

theorem onTimeoutNow (invitation : TimeoutNow) : R node (node.onTimeoutNow invitation).1 := by
  rw [RaftNode.onTimeoutNow]
  split_ifs
  · exact h.of_held rfl
  · exact h.startElection

theorem onRequestVote (request : RequestVote) : R node (node.onRequestVote request).1 := by
  rw [RaftNode.onRequestVote]
  cases admitCandidacy request.term request.lastLogIndex request.lastLogTerm with
  | error _ => exact h.of_held rfl
  | ok _ =>
    dsimp only
    split_ifs
    · exact h.trans (h.observeTerm h.stepDown) (h.grant request.candidate)
    · exact h.observeTerm h.stepDown

theorem onVoteReply (reply : VoteReply) : R node (node.onVoteReply reply) := by
  rw [RaftNode.onVoteReply]
  cases hadmitted : admitReports reply with
  | error _ => exact h.of_held rfl
  | ok _ =>
    dsimp only
    split_ifs with hlater
    · exact h.stepDown hlater.le
    · exact h.trans (h.tally hadmitted) h.becomeLeaderIfMajority
    · exact h.of_held rfl

/-! ## Replies -/

theorem onAppendReply (reply : AppendReply) : R node (node.onAppendReply reply) := by
  rw [RaftNode.onAppendReply]
  dsimp only
  split_ifs with hlater
  · exact h.stepDown hlater.le
  · exact h.of_held rfl
  · exact h.of_held (congrArg Prod.fst (visible_backUp _ reply))
  · exact h.of_held rfl
  · refine h.trans ?_ h.advanceLeaderCommit
    exact h.of_held rfl

theorem onInstallSnapshotReply (reply : InstallSnapshotReply) :
    R node (node.onInstallSnapshotReply reply) := by
  rw [RaftNode.onInstallSnapshotReply]
  dsimp only
  split_ifs with hlater
  · exact h.stepDown hlater.le
  · exact h.of_held rfl
  · refine h.trans ?_ h.advanceLeaderCommit
    exact h.of_held rfl
  · exact h.of_held rfl

theorem declineSnapshot (request : InstallSnapshot) : R node (node.declineSnapshot request).1 := by
  rw [RaftNode.declineSnapshot]
  dsimp only
  split_ifs
  · exact h.recognizeLeader request.term h.stepDown
  · exact h.of_held rfl

/-! ## Calls -/

/-- **What the parts keep, the calls keep.** -/
theorem call {call : Call} (hapart : call.apart = true → R node (node.call call)) :
    R node (node.call call) := by
  cases call with
  | electionTimeout => exact h.onElectionTimeout
  | startElection => exact h.startElection
  | forgetLeader => exact h.of_visible node.visible_forgetLeader
  | observeTerm term => exact h.observeTerm h.stepDown
  | suspend => exact h.trans (h.resign node.votes) (h.of_held rfl)
  | retained => exact hapart rfl
  | restart => exact hapart rfl
  | appendCommand command => exact h.appendCommand command
  | replicateTo follower budget => exact h.replicateTo follower budget
  | compact upTo state => exact hapart rfl
  | checkQuorum => exact h.checkQuorum
  | catchUp target => exact h.catchUp target
  | promoteCaughtUp target => exact hapart rfl
  | beginMembershipChange voters => exact hapart rfl
  | completeMembershipChange => exact h.complete
  | transferLeadership target => exact h.of_visible (node.visible_transferLeadership target)
  | takeTimeoutNow => exact h.of_visible node.visible_takeTimeoutNow
  | setPriority priority => exact h.of_held rfl
  | priorityTransfer alive => exact h.of_visible (node.visible_priorityTransfer alive)
  | beginRead => exact h.of_held (congrArg Prod.fst node.held_beginRead)
  | readIndex context => exact h.readIndex context
  | cancelRead context => exact h.cancelRead context
  | setLogBudget bytes => exact h.of_held rfl
  | setWindowBudget bytes => exact h.of_held rfl
  | openFastTrack => exact h.openTrack
  | proposeFast command => exact h.of_visible (node.visible_proposeFast command)
  | fillHole index => exact h.of_held rfl
  | onPreVote request => exact h.of_held rfl
  | onPreVoteReply reply => exact h.onPreVoteReply reply
  | onRequestVote request => exact h.onRequestVote request
  | onVoteReply reply => exact h.onVoteReply reply
  | onAppendEntries request => exact h.entries request
  | onAppendReply reply => exact h.onAppendReply reply
  | onInstallSnapshot request => exact hapart rfl
  | declineSnapshot request => exact h.declineSnapshot request
  | onInstallSnapshotReply reply => exact h.onInstallSnapshotReply reply
  | onTimeoutNow invitation => exact h.onTimeoutNow invitation
  | onFastPropose proposal => exact h.onFastPropose proposal
  | onFastVote vote => exact h.onFastVote vote

end Parts

end RaftNode

end Slates.Raft
