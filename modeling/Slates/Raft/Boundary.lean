import Slates.Raft.Retention

/-!
Where a node's log begins. Only a compaction and a snapshot taken up move it; every other call edits
the log by pushing and truncating alone (`Edits`, `Logs`).
-/

namespace Slates.Raft

open Register (HostId)

namespace RaftNode

variable {node node' : RaftNode}

structure Edits (R : RaftNode → RaftNode → Prop) : Prop where
  trans {a b c : RaftNode} : R a b → R b c → R a c
  pushed {a : RaftNode} (entry : LogEntry) : R a (a.pushed entry)
  truncate {a : RaftNode} (index : Nat) : R a (a.truncateFrom index)
  noted {a : RaftNode} (pending : Bool) (recovery : Option Recovery) (syncIndex : Nat) :
    R a { a with
    retentionPending := pending, recovery := recovery, syncIndex := syncIndex }

namespace Edits

variable {R : RaftNode → RaftNode → Prop} (h : Edits R)

include h

theorem refl (a : RaftNode) : R a a := h.noted a.retentionPending a.recovery a.syncIndex

theorem pushEntry (entry : LogEntry) : R node (node.pushEntry entry).1 := by
  rw [pushEntry_eq]
  split_ifs
  · exact h.pushed entry
  · exact h.refl node

theorem placeEntry (index : Nat) (entry : LogEntry) : R node (node.placeEntry index entry).1 := by
  rw [RaftNode.placeEntry]
  split
  · split_ifs
    · exact h.refl node
    · exact h.trans (h.truncate index) (h.pushEntry entry)
  · exact h.trans (h.noted true node.recovery node.syncIndex) (h.pushEntry entry)

theorem placeAll (index : Nat) (entries : List LogEntry) :
    R node (node.placeAll index entries).1 := by
  induction entries generalizing node index with
  | nil => exact h.refl node
  | cons entry entries ih =>
    have hentry : R node _ := h.placeEntry (index + 1) entry
    rw [RaftNode.placeAll]
    generalize node.placeEntry (index + 1) entry = result at *
    obtain ⟨placed, fits⟩ := result
    cases fits with
    | false => exact hentry
    | true => exact h.trans hentry (ih _)

theorem pushAll {entries : List LogEntry} (hpushed : RaftNode.pushAll node entries = .ok node') :
    R node node' := by
  induction entries generalizing node with
  | nil =>
    cases hpushed
    exact h.refl _
  | cons entry entries ih =>
    rw [RaftNode.pushAll, pushEntry_eq] at hpushed
    split_ifs at hpushed
    exact h.trans (h.pushed entry) (ih hpushed)

theorem absorbWithin (term fuel : Nat) : R node (RaftNode.absorbWithin term fuel node) := by
  induction fuel generalizing node with
  | zero => exact h.refl node
  | succ fuel ih =>
    rw [RaftNode.absorbWithin]
    split
    · exact h.refl node
    rename_i slot _
    split_ifs
    · exact h.refl node
    have hpushed : R node _ := h.pushEntry slot.entry
    generalize node.pushEntry slot.entry = result at *
    obtain ⟨after, fits⟩ := result
    cases fits with
    | false => exact hpushed
    | true => exact h.trans hpushed (h.trans (h.noted true after.recovery after.syncIndex) ih)

theorem recoverSlice (slice fuel : Nat) (recovery : Recovery) (spent : Nat) :
    R node (RaftNode.recoverSlice slice fuel node recovery spent).1 :=
  recoverSlice_rule (P := fun node _ result => R node result.1) (h.refl _) (fun _ => h.refl _)
    (fun _ _ => h.pushed _) (fun _ _ hrest => h.trans (h.pushed _) hrest) fuel node recovery spent

end Edits

structure Blind (R : RaftNode → RaftNode → Prop) : Prop extends Ground R, Edits R

namespace Blind

variable {R : RaftNode → RaftNode → Prop} (h : Blind R)

include h

theorem leaderAppend (entry : LogEntry) : R node (node.leaderAppend entry).1 := by
  rw [RaftNode.leaderAppend, pushEntry_eq]
  split_ifs
  · exact h.refl node
  · refine h.trans (h.pushed entry) (h.trans ?_ h.advanceLeaderCommit)
    exact h.noted true node.recovery _
  · exact h.refl node

theorem continueRecovery : R node node.continueRecovery := by
  rw [RaftNode.continueRecovery]
  split_ifs
  · exact h.noted node.retentionPending none node.syncIndex
  split
  · exact h.refl node
  rename_i recovery _
  have hslice := h.trans (@Edits.noted _ h.toEdits node node.retentionPending none node.syncIndex)
    (h.recoverSlice (max node.windowBudget minEntryBytes) (recovery.last + 1 - recovery.next)
      recovery 0)
  dsimp only
  generalize RaftNode.recoverSlice _ _ _ _ _ = sliced at *
  obtain ⟨after, rest, fits⟩ := sliced
  cases fits with
  | false => exact hslice
  | true =>
    refine h.trans hslice ?_
    dsimp only
    split_ifs
    · exact h.noted true _ after.syncIndex
    · exact h.trans (h.noted true after.recovery after.syncIndex) (h.leaderAppend _)
    · exact h.noted true after.recovery after.syncIndex

theorem beginMembershipChange (voters : List HostId) :
    R node (node.beginMembershipChange voters).1 :=
  h.toGround.beginMembershipChange fun _ _ _ _ _ => h.leaderAppend _

theorem work (hcast : ∀ {a proposal}, R a (a.castFastVote proposal).1)
    (hvotes : ∀ {a} contacts votes chosen,
      R a { a with contacts := contacts, fastVotes := votes, fastChosen := chosen }) :
    Work R where
  toGround := h.toGround
  append _ _ _ := h.leaderAppend _
  complete := h.completeMembershipChange fun _ _ _ _ => h.leaderAppend _
  recover := h.continueRecovery
  cast _ := hcast
  hear _ _ := hvotes _ _ _
  decideVotes fuel _ := decideWithin_rule (fun _ => h.of_visible rfl) h.trans
    (fun _ _ => h.leaderAppend _) fuel
  choose := hvotes _ _ _
  tidy _ := hvotes _ _ _

end Blind

/-! ## The log, and what it stands on -/

/-- The log, the snapshot it stands on and what is kept beside it. -/
def ledger (node : RaftNode) :
    (Nat × Nat × List UInt8 × VoterConfig) × List LogEntry × List Nat × Nat :=
  ((node.snapshotIndex, node.snapshotTerm, node.snapshotData, node.baseConfig), node.log,
    node.configEntries, node.logBytesHeld)

theorem ledger_of_held (h : node'.held = node.held) : node'.ledger = node.ledger :=
  congrArg (fun held => ((held.1.saved.snapshotIndex, held.1.saved.snapshotTerm,
    held.1.saved.snapshotData, held.1.saved.base), held.1.saved.log, held.2)) h

structure Logs (R : RaftNode → RaftNode → Prop) : Prop where
  trans {a b c : RaftNode} : R a b → R b c → R a c
  of_ledger {a b : RaftNode} : b.ledger = a.ledger → R a b
  pushed {a : RaftNode} (entry : LogEntry) : R a (a.pushed entry)
  truncate {a : RaftNode} (index : Nat) : R a (a.truncateFrom index)

theorem buffer_eq (request : AppendEntries) : ∃ window pending,
    node.buffer request = { node with window := window, retentionPending := pending } := by
  have hbuffer :
      ∀ {term floor reach : Nat} (entries : List LogEntry) (index : Nat) (node : RaftNode),
      ∃ window pending, bufferFrom term floor reach node index entries =
        { node with window := window, retentionPending := pending } := by
    intro term floor reach entries
    induction entries with
    | nil => exact fun _ node => ⟨_, _, rfl⟩
    | cons entry entries ih =>
      intro index node
      rw [bufferFrom]
      split_ifs
      · exact ih _ node
      · exact ih _ { node with window := _, retentionPending := true }
  rw [buffer]
  split_ifs
  · exact ⟨_, _, rfl⟩
  · exact hbuffer _ _ node

namespace Logs

variable {R : RaftNode → RaftNode → Prop} (h : Logs R)

include h

theorem blind : Blind R where
  trans := h.trans
  of_visible hsame := h.of_ledger (ledger_of_held (congrArg Prod.fst hsame))
  follower _ _ _ _ := h.of_ledger rfl
  dropRead := h.of_ledger rfl
  rematch hsame _ := h.of_ledger (ledger_of_held (congrArg Prod.fst hsame) : _)
  commitHeld _ := by
    rw [RaftNode.commitHeld]
    split_ifs <;> exact h.of_ledger rfl
  commitChosen := h.of_ledger rfl
  pruneCommitted := h.of_ledger rfl
  pushed := h.pushed
  truncate := h.truncate
  noted _ _ _ := h.of_ledger rfl

theorem recognizeLeader (term : Nat) : R node (node.recognizeLeader term) :=
  h.blind.recognizeLeader term fun _ => h.of_ledger rfl

theorem takeEntries (request : AppendEntries) : R node (node.takeEntries request).1 := by
  rw [RaftNode.takeEntries]
  split_ifs
  · obtain ⟨window, pending, heq⟩ := @buffer_eq node request
    exact h.of_ledger (congrArg ledger heq : _)
  · exact h.of_ledger rfl
  refine h.trans (h.blind.placeAll request.prevLogIndex request.entries) ?_
  generalize node.placeAll request.prevLogIndex request.entries = result
  obtain ⟨placed, index⟩ := result
  dsimp only
  refine h.trans ?_ (h.trans (h.blind.absorbWithin request.term _) (h.of_ledger rfl))
  rw [observeSync, learnCommit]
  split_ifs <;> exact h.of_ledger rfl

theorem onAppendEntries (request : AppendEntries) : R node (node.onAppendEntries request).1 := by
  have hheard : R node (node.hearLeader request) :=
    h.trans (h.recognizeLeader request.term) (h.of_ledger rfl)
  rw [RaftNode.onAppendEntries]
  cases node.admitAppend request with
  | error _ => exact h.of_ledger rfl
  | ok _ =>
    dsimp only
    split_ifs
    · exact h.of_ledger rfl
    · exact hheard
    · exact h.trans hheard (h.takeEntries _)
    · exact h.trans hheard (h.takeEntries _)

theorem parts : Parts R where
  toWork := by
    refine h.blind.work (fun {node proposal} => ?_) fun _ _ _ => h.of_ledger rfl
    rw [castFastVote]
    split_ifs <;> exact h.of_ledger rfl
  of_held hsame := h.of_ledger (ledger_of_held hsame)
  stepDown _ := h.of_ledger rfl
  stand := h.of_ledger rfl
  tally _ := h.of_ledger rfl
  withdraw := h.of_ledger rfl
  lead {node} _ := by
    have hrecovered : R node ({ node with role := .leader }.recover node.planRecovery) := by
      rw [RaftNode.recover]
      dsimp only
      split_ifs
      · refine h.trans ?_ h.blind.continueRecovery
        exact h.of_ledger rfl
      · exact h.of_ledger rfl
    exact h.trans hrecovered (h.of_ledger rfl)
  grant _ := h.of_ledger rfl
  openTrack {node} := by
    rw [openFastTrack]
    split_ifs <;> exact h.of_ledger rfl
  entries := h.onAppendEntries

end Logs

/-- The snapshot's index and the state it stands for. -/
def boundary (node : RaftNode) : Nat × List UInt8 := (node.snapshotIndex, node.snapshotData)

theorem logs_boundary : Logs (fun node node' => node'.boundary = node.boundary) where
  trans h h' := h'.trans h
  of_ledger h := congrArg (fun ledger => (ledger.1.1, ledger.1.2.2.1)) h
  pushed _ := rfl
  truncate _ := rfl

end RaftNode

/-- All calls but a compaction, a snapshot and a return. -/
def Call.plain : Call → Bool
  | .compact _ _ | .onInstallSnapshot _ | .restart => false
  | _ => true

/-- **A plain call edits the log** and leaves what it stands on. -/
theorem RaftNode.Logs.call {R : RaftNode → RaftNode → Prop} (hlogs : Logs R) {node : RaftNode}
    {call : Call} (h : call.plain) : R node (node.call call) :=
  hlogs.parts.call fun hapart => by
    cases call with
    | retained => exact hlogs.of_ledger rfl
    | promoteCaughtUp target =>
      exact hlogs.blind.promoteCaughtUp fun _ => hlogs.blind.beginMembershipChange _
    | beginMembershipChange voters => exact hlogs.blind.beginMembershipChange voters
    | restart | compact | onInstallSnapshot => cases h
    | _ => cases hapart

end Slates.Raft
