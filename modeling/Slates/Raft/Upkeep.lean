import Slates.Raft.Progress

/-!
What is left of a node's work beside the abstract run: a leader's upkeep, the fast track, and the
return from what was retained.
-/

open Std (ExtTreeMap)

namespace Slates.Raft

open Register (HostId)
open Consensus.State (Moves Sound Grows)

variable {base : VoterConfig} {a a' : Account} {m m' : Member}

/-! ## The fast track -/

theorem Member.Mirrors.castFastVote (h : m.Mirrors base a) (proposal : FastPropose) :
    Member.Mirrors base a ⟨(m.node.castFastVote proposal).1, m.folded⟩ := by
  unfold RaftNode.castFastVote
  dsimp only
  split_ifs
  · exact h
  · refine (h.withWindow _ fun {i slot} hslot => ?_).congr rfl
    rw [getElem?_insert_if] at hslot
    split_ifs at hslot
    · obtain rfl := Option.some.inj hslot
      exact ⟨rfl, nofun⟩
    · exact h.slots hslot

theorem reaches_openFastTrack {folded : List LogEntry} {node : RaftNode} :
    Reaches base folded node node.openFastTrack.1 := by
  unfold RaftNode.openFastTrack
  split_ifs
  · exact .of_core rfl
  · exact .of_mirrors rfl fun _ hm => hm.booked _ _ node.fastVotes node.fastChosen

/-- Each index decided is one more append to the leader's log. -/
theorem Member.Mirrors.decideWithin (fuel : Nat) (h : m.Mirrors base a) (hreign : m.Reigns a) :
    ∃ a', Goes base a m ⟨RaftNode.decideWithin fuel m.node, m.folded⟩ a' := by
  induction fuel generalizing m a with
  | zero => exact ⟨a, (Follows.of_mirrors h rfl).goes⟩
  | succ fuel ih =>
    rw [RaftNode.decideWithin]
    split
    · exact ⟨a, (Follows.of_mirrors h rfl).goes⟩
    split_ifs
    · exact ⟨a, (Follows.of_mirrors h rfl).goes⟩
    split
    · exact ⟨a, (Follows.of_mirrors h rfl).goes⟩
    rename_i command _
    obtain ⟨a', hg, hreigns⟩ := h.appended hreign (mayAppend_command m command)
    generalize m.node.leaderAppend (.ofCommand m.node.currentTerm command) = after at hg hreigns
    obtain ⟨node, fits⟩ := after
    cases fits with
    | false => exact ⟨a', hg⟩
    | true =>
      obtain ⟨a'', hg'⟩ := ih hg.2.2 hreigns
      exact ⟨a'', hg.trans hg'⟩

/-! ## A leader's work -/

theorem reaches_work {folded : List LogEntry} : RaftNode.Work (Reaches base folded) where
  toGround := reaches_ground
  append command hrole _ _ hm :=
    hm.leaderAppend hrole (Member.Mirrors.mayAppend_command _ command)
  complete _ hm := hm.completeMembershipChange
  recover _ hm := hm.continueRecovery
  cast {node proposal} _ := .of_mirrors (by
    unfold RaftNode.castFastVote
    dsimp only
    split_ifs <;> rfl) fun _ hm => hm.castFastVote proposal
  hear {node} _ _ := .of_mirrors rfl fun _ hm =>
    (hm.booked node.openFrom node.openAnnounced _ node.fastChosen).congr rfl
  decideVotes fuel hrole _ hm := hm.decideWithin fuel (hm.leads hrole)
  choose {node} := .of_mirrors rfl fun _ hm =>
    hm.booked node.openFrom node.openAnnounced node.fastVotes _
  tidy {node} _ := .of_mirrors rfl fun _ hm =>
    hm.booked node.openFrom node.openAnnounced _ node.fastChosen

namespace Member.Mirrors

/-! ## Snapshots -/

theorem installSnapshotFor (h : m.Mirrors base a) (follower : HostId) :
    Handles base a m (m.sends m.node ((m.node.installSnapshotFor follower).map fun request =>
      .snapshot request m.folded)) := by
  refine (Follows.of_mirrors h rfl).goes.sends fun message hmem => ?_
  obtain ⟨request, hrequest, rfl⟩ := Option.map_eq_some_iff.mp hmem
  rw [RaftNode.installSnapshotFor] at hrequest
  split_ifs at hrequest with hnone
  obtain rfl := Option.some.inj hrequest
  obtain ⟨r, hr, hnode, hlog⟩ := h.leads (not_not.mp (not_or.mp hnone).1)
  have hfolded : m.folded <+: m.whole := List.prefix_append _ _
  have hle : m.folded.length ≤ m.node.commitIndex := by
    rw [h.kept.folded_length]
    exact h.kept.snapshot_le
  exact ⟨r,
    { lead := hr
      node := hnode
      part := hlog ▸ hfolded
      length := h.kept.folded_length
      lastTerm := h.kept.snapshotTerm
      config := h.kept.baseConfig
      fixed := fixed_prefix h.commit (List.prefix_take_iff.mpr ⟨hfolded, hle⟩)
      bound := hfolded.length_le.trans h.kept.bound }⟩

end Member.Mirrors

/-! ## The return from what was retained -/

namespace RaftNode

theorem pushAll_spec {node node' : RaftNode} {entries : List LogEntry}
    (h : pushAll node entries = .ok node') :
    node'.core =
      { node.core with log := node.log ++ entries, configEntries := node'.configEntries } ∧
      (node.configEntries = configIndices node.snapshotIndex node.log →
        node'.configEntries = configIndices node.snapshotIndex (node.log ++ entries)) := by
  induction entries generalizing node with
  | nil =>
    obtain rfl := Except.ok.inj h
    rw [List.append_nil]
    exact ⟨rfl, fun hentries => hentries⟩
  | cons entry entries ih =>
    rw [pushAll, pushEntry_eq] at h
    by_cases hroom : node.lastLogIndex < maxIndex
    swap
    · rw [if_neg hroom] at h
      cases h
    rw [if_pos hroom] at h
    obtain ⟨hcore, hentries⟩ := ih h
    have hlog : (node.pushed entry).log ++ entries = node.log ++ entry :: entries := by
      rw [pushed, List.append_assoc]
      rfl
    rw [hlog] at hcore hentries
    exact ⟨hcore, fun hnode => hentries (configEntries_pushed hnode entry)⟩

theorem getElem?_foldl_reports (reports : List SlotReport) (window : ExtTreeMap Nat WindowSlot)
    {i : Nat} {slot : WindowSlot}
    (h : (reports.foldl (fun window report => window.insert report.index report.slot)
      window)[i]? = some slot) :
    (∃ report ∈ reports, report.index = i ∧ report.slot = slot) ∨ window[i]? = some slot := by
  induction reports generalizing window with
  | nil => exact .inr h
  | cons report reports ih =>
    rcases ih _ h with ⟨held, hmem, hheld⟩ | hfound
    · exact .inl ⟨held, List.mem_cons_of_mem _ hmem, hheld⟩
    · rw [getElem?_insert_if] at hfound
      split_ifs at hfound with hi
      · exact .inl ⟨report, List.mem_cons_self, hi, Option.some.inj hfound⟩
      · exact .inr hfound

theorem restore_spec {node node' : RaftNode} (h : restore node.saved = .ok node') :
    node'.core =
      { (RaftNode.new node.id node.voters).core with
        joint := node.joint
        currentTerm := node.currentTerm
        votedFor := node.votedFor
        log := node.log
        configEntries := configIndices node.snapshotIndex node.log
        commitIndex := node.commitIndex
        snapshotIndex := node.snapshotIndex
        snapshotTerm := node.snapshotTerm
        window := node'.window } ∧
      ∀ {i : Nat} {slot : WindowSlot}, node'.window[i]? = some slot →
        node.window[i]? = some slot := by
  obtain ⟨-, pushed, hpushed, rfl⟩ := restore_eq h
  obtain ⟨hcore, hentries⟩ := pushAll_spec hpushed
  refine ⟨?_, fun {i slot} hfound => ?_⟩
  · rw [hentries rfl] at hcore
    set window := (node.saved.window.foldl
      (fun window report => window.insert report.index report.slot) ∅ :
        ExtTreeMap Nat WindowSlot)
    change { pushed.core with
      commitIndex := node.commitIndex
      snapshotTerm := node.snapshotTerm
      window := window } = _
    rw [hcore]
    rfl
  · rcases getElem?_foldl_reports _ _ hfound with ⟨report, hmem, rfl, rfl⟩ | hnone
    · obtain ⟨held, hheld, rfl⟩ := List.mem_map.mp hmem
      exact ExtTreeMap.mem_toList_iff_getElem?_eq_some.mp hheld
    · exact absurd hnone (by simp)

end RaftNode

theorem Member.Mirrors.restart (h : m.Mirrors base a) : Handles base a m m.restart := by
  rw [Member.restart]
  cases hrestored : RaftNode.restore m.node.saved with
  | error _ => exact .of_mirrors h rfl
  | ok node =>
    obtain ⟨hcore, hwindow⟩ := RaftNode.restore_spec hrestored
    have hmirrors : Member.Mirrors base a ⟨{ RaftNode.new m.node.id m.node.voters with
        joint := m.node.joint
        currentTerm := m.node.currentTerm
        votedFor := m.node.votedFor
        log := m.node.log
        configEntries := configIndices m.node.snapshotIndex m.node.log
        commitIndex := m.node.commitIndex
        snapshotIndex := m.node.snapshotIndex
        snapshotTerm := m.node.snapshotTerm
        window := node.window }, m.folded⟩ :=
      { h with
        kept := ⟨h.kept.1, h.kept.2, h.kept.3, .inl rfl, h.kept.5, h.kept.6, h.kept.7⟩
        plain := ⟨by simp [RaftNode.new], by simp [RaftNode.new]⟩
        leads := nofun
        matched := nofun
        stood := nofun
        votes := nofun
        slots := fun hslot => h.slots (hwindow hslot) }
    exact ((Follows.of_mirrors hmirrors rfl).goes.congr hcore).quietly

end Slates.Raft
