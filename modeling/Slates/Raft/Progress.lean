import Slates.Raft.Standing

/-!
A leader's replication beside the abstract run: what it sends is a part of its term's log, and the
matches it records are acknowledgements of that log.
-/

namespace Slates.Raft

open Register (HostId)
open Consensus (Scheme)
open Consensus.State (Moves)

variable {base : VoterConfig} {a a' : Account} {m m' : Member}

/-! ## Matches -/

namespace Member.Mirrors

variable {follower receiver : HostId}

theorem recordMatch (h : m.Mirrors base a) {index : Nat}
    (hacked : 0 < index → a.acked follower m.node.currentTerm index) :
    Member.Mirrors base a ⟨m.node.recordMatch follower index, m.folded⟩ := by
  refine (h.withMatched (m.node.matchIndex.insert follower
    (max (m.node.matchOf follower) index)) fun hrole f k hf hk hpos => ?_).congr rfl
  rw [getElem?_insert_if] at hk
  split_ifs at hk with heq
  · obtain rfl := Option.some.inj hk
    subst heq
    rw [RaftNode.matchOf, if_neg hf] at hpos ⊢
    cases hheld : m.node.matchIndex[follower]? with
    | none =>
      rw [hheld, Option.getD_none, Nat.zero_max] at hpos
      exact ⟨index, by simp, hacked hpos⟩
    | some held =>
      rw [hheld, Option.getD_some] at hpos
      rw [Option.getD_some]
      rcases le_total held index with hle | hle
      · exact ⟨index, (max_eq_right hle).le, hacked (by omega)⟩
      · obtain ⟨n, hn, ha⟩ := h.matched hrole hf hheld (by omega)
        exact ⟨n, (max_eq_left hle).le.trans hn, ha⟩
  · exact h.matched hrole hf hk hpos

theorem counts (h : m.Mirrors base a) {index : Nat}
    (hacked : 0 < index → a.acked follower m.node.currentTerm index) :
    ∃ a', Goes base a m
      ⟨(m.node.recordMatch follower index).advanceLeaderCommit, m.folded⟩ a' := by
  have hrecorded := (Follows.of_mirrors (h.recordMatch hacked) rfl).goes
  obtain ⟨a', hg⟩ := reaches_ground.advanceLeaderCommit a hrecorded.2.2
  exact ⟨a', hrecorded.trans hg⟩

theorem receive_appendReply (h : m.Mirrors base a) {reply : AppendReply} {held : List LogEntry}
    (hsent : Message.Sent base a (.appendReply receiver reply held)) :
    Handles base a m (m.receive (.appendReply receiver reply held)) := by
  rw [receive]
  split_ifs with hreceiver
  swap
  · exact .of_mirrors h rfl
  rw [RaftNode.onAppendReply]
  dsimp only
  split_ifs with hlater hother hfailed hbeyond
  · obtain ⟨a', hf⟩ := h.stepDown hlater
    exact hf.goes.quietly
  · exact (Follows.of_mirrors h rfl).goes.quietly
  all_goals
    have hheard : Goes base a m ⟨{ m.node.confirmRead reply with
        contacts := insertHost reply.follower (m.node.confirmRead reply).contacts
        priorities := (m.node.confirmRead reply).priorities.insert reply.follower
          reply.priority }, m.folded⟩ a := (Follows.of_mirrors h rfl).goes.congr rfl
  · obtain ⟨a', hg⟩ := reaches_ground.of_visible (RaftNode.visible_backUp _ reply) a hheard.2.2
    exact (hheard.trans hg).quietly
  · exact hheard.quietly
  · have hterm : reply.term = m.node.currentTerm := not_not.mp (not_or.mp hother).2
    have hsuccess : reply.success := by simpa using hfailed
    obtain ⟨r, -, -, hacked, -⟩ := hsent hsuccess
    rw [hterm] at hacked
    obtain ⟨a', hg⟩ := hheard.2.2.counts fun _ => hacked
    exact (hheard.trans hg).quietly

theorem receive_snapshotReply (h : m.Mirrors base a) {reply : InstallSnapshotReply}
    {held : List LogEntry} (hsent : Message.Sent base a (.snapshotReply receiver reply held)) :
    Handles base a m (m.receive (.snapshotReply receiver reply held)) := by
  rw [receive]
  split_ifs with hreceiver
  swap
  · exact .of_mirrors h rfl
  rw [RaftNode.onInstallSnapshotReply]
  dsimp only
  have hheard : Goes base a m ⟨{ m.node with
      contacts := insertHost reply.follower m.node.contacts }, m.folded⟩ a :=
    (Follows.of_mirrors h rfl).goes.congr rfl
  split_ifs with hlater hother hmatched
  · obtain ⟨a', hf⟩ := h.stepDown hlater
    exact hf.goes.quietly
  · exact (Follows.of_mirrors h rfl).goes.quietly
  · have hterm : reply.term = m.node.currentTerm := not_not.mp (not_or.mp (not_or.mp hother).2).1
    obtain ⟨r, -, -, hacked, -⟩ := hsent hmatched
    rw [hterm] at hacked
    obtain ⟨a', hg⟩ := hheard.2.2.counts fun _ => hacked
    exact (hheard.trans hg).quietly
  · exact hheard.quietly

/-! ## What a leader sends -/

end Member.Mirrors

namespace RaftNode

theorem batchWithin_prefix (budget : Nat) (entries : List LogEntry) (spent : Nat) :
    batchWithin budget entries spent <+: entries := by
  induction entries generalizing spent with
  | nil => exact List.prefix_rfl
  | cons entry entries ih =>
    rw [batchWithin]
    split_ifs
    · exact (List.cons_prefix_cons).mpr ⟨rfl, ih _⟩
    · exact List.nil_prefix

/-- The append of the batch at `start`. -/
structure Batch (node : RaftNode) (start budget : Nat) (request : AppendEntries) : Prop where
  term : request.term = node.currentTerm
  leader : request.leader = node.id
  prevLogIndex : request.prevLogIndex = start - 1
  prevLogTerm : request.prevLogTerm =
    if start - 1 = 0 then 0 else (node.entryTerm (start - 1)).getD 0
  entries : request.entries = node.batchFrom start budget
  leaderCommit : request.leaderCommit = node.commitIndex

theorem replicateTo_spec (node : RaftNode) (follower : HostId) (budget : Nat) {ready : RaftNode}
    (hready : (if node.recovering then node.continueRecovery else node) = ready) :
    (node.replicateTo follower budget).1.core = ready.core ∧
      ∀ request ∈ (node.replicateTo follower budget).2, ∃ start, ready.role = .leader ∧
        ready.snapshotIndex ≤ start - 1 ∧ ready.Batch start budget request := by
  rw [replicateTo, hready]
  dsimp only
  by_cases hrole : ready.role ≠ .leader
  · rw [if_pos hrole]
    exact ⟨rfl, by simp⟩
  rw [if_neg hrole]
  -- where the batch starts, and then whether the snapshot covers that
  split
  all_goals
    split
    · exact ⟨rfl, by simp⟩
    · rename_i hstart
      refine ⟨rfl, fun request hrequest => ?_⟩
      obtain rfl := Option.mem_some.mp hrequest
      exact ⟨_, not_not.mp hrole, not_lt.mp hstart, rfl, rfl, rfl, rfl, rfl, rfl⟩

end RaftNode

namespace Member.Mirrors

theorem batchFrom (h : m.Mirrors base a) {start : Nat} (hstart : m.node.snapshotIndex ≤ start - 1)
    (budget : Nat) : m.node.batchFrom start budget <+: m.whole.drop (start - 1) := by
  have hdrop : m.whole.drop (start - 1) = m.node.log.drop (start - m.node.snapshotIndex - 1) := by
    rw [whole, List.drop_append, h.kept.folded_length,
      List.drop_eq_nil_of_le (by rw [h.kept.folded_length]; omega),
      List.nil_append]
    congr 1
    omega
  rw [hdrop]
  exact RaftNode.batchWithin_prefix _ _ _

theorem append_sent (h : m.Mirrors base a) (hrole : m.node.role = .leader) {start budget : Nat}
    (hstart : m.node.snapshotIndex ≤ start - 1) {request : AppendEntries}
    (hbatch : m.node.Batch start budget request) : Message.Sent base a (.append request) := by
  obtain ⟨hterm, hleader, hprev, hprevTerm, hentries, hcommit⟩ := hbatch
  obtain ⟨r, hr, hnode, hlog⟩ := h.leads hrole
  rcases le_or_gt (start - 1) m.whole.length with hle | hpast
  swap
  · refine .inl ⟨by omega, ?_⟩
    rw [hprevTerm, if_neg (by omega), h.kept.entryTerm_eq hstart (by omega),
      List.getElem?_eq_none (by omega)]
    rfl
  obtain ⟨rest, hrest⟩ := h.batchFrom hstart budget
  rw [← hentries] at hrest
  have hsplit : m.whole = m.whole.take (start - 1) ++ request.entries ++ rest := by
    rw [List.append_assoc, hrest, List.take_append_drop]
  have hlength : (m.whole.take (start - 1)).length = start - 1 := List.length_take_of_le hle
  refine .inr ⟨r, m.whole.take (start - 1) ++ request.entries, ?_⟩
  exact
    { lead := hterm ▸ hr
      node := hnode.trans hleader.symm
      part := by
        rw [hlog]
        exact ⟨rest, hsplit.symm⟩
      length := by rw [List.length_append, hlength, hprev]
      entries := by rw [hprev, List.drop_append_of_le_length hlength.ge, List.drop_eq_nil_of_le
        hlength.le, List.nil_append]
      prev := by
        intro hpos
        rw [hprev] at hpos ⊢
        rw [List.getElem?_append_left (by omega), List.getElem?_take_of_lt (by omega), hprevTerm,
          if_neg (by omega), h.kept.entryTerm_eq hstart hpos]
        have hlt : start - 1 - 1 < m.whole.length := by omega
        rw [List.getElem?_eq_getElem hlt]
        rfl
      commit_le := by
        rw [hlog, hcommit]
        exact h.kept.commit_le
      commit := by
        rw [hlog, hcommit, hterm]
        exact h.commit
      bound := by
        have hle := congrArg List.length hsplit
        have hbound := h.kept.bound
        rw [List.length_append] at hle
        omega }

theorem replicateTo (h : m.Mirrors base a) (follower : HostId) (budget : Nat) :
    Handles base a m
      (m.sends (m.node.replicateTo follower budget).1
        ((m.node.replicateTo follower budget).2.map .append)) := by
  have hready : ∃ a', Goes base a m
      ⟨if m.node.recovering then m.node.continueRecovery else m.node, m.folded⟩ a' := by
    split_ifs
    · exact h.continueRecovery
    · exact ⟨a, (Follows.of_mirrors h rfl).goes⟩
  obtain ⟨a', hg⟩ := hready
  obtain ⟨hcore, hsent⟩ := m.node.replicateTo_spec follower budget rfl
  refine (hg.congr hcore).sends fun message hmem => ?_
  obtain ⟨request, hrequest, rfl⟩ := Option.map_eq_some_iff.mp hmem
  obtain ⟨start, hrole, hstart, hpart⟩ := hsent request hrequest
  exact hg.2.2.append_sent hrole hstart hpart

end Member.Mirrors

end Slates.Raft
