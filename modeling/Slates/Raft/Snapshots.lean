import Slates.Raft.Appends

/-!
Snapshots beside the abstract run. A compaction leaves the whole log as it is, and so does a
snapshot of the log a node has; any other snapshot is a chosen part of its leader's log taken up.
-/

namespace Slates.Raft

open Register (HostId)
open Consensus (Scheme)
open Consensus.State (Moves Sound Grows)

variable {base : VoterConfig} {a a' : Account} {m m' : Member}

variable {r : Consensus.Reign HostId LogEntry}

theorem InstallSnapshot.Carries.grows {request : InstallSnapshot} {folded : List LogEntry}
    (h : request.Carries base a folded r) (hg : Grows a a') (hlead : a'.lead = a.lead) :
    request.Carries base a' folded r :=
  ⟨hlead ▸ h.lead, h.node, h.part, h.length, h.lastTerm, h.config, h.fixed.grows hg, h.bound⟩

theorem Follows.repliesCommit (h : Follows base a m m' a') (hs : Sound (scheme base) a)
    (hr : a'.lead m'.node.currentTerm = some r) {leader : HostId} (hnode : r.node = leader) :
    Handles base a m (m',
      [.snapshotReply leader (m'.node.snapshotReply m'.node.commitIndex) m'.whole]) := by
  obtain ⟨a'', hf, hack⟩ := h.2.2.2.acknowledgeCommit (h.1.sound hs) hr
  refine (h.trans hf).goes.handles fun message hmem => ?_
  obtain rfl := List.mem_singleton.mp hmem
  rw [hnode] at hack
  exact fun _ => hack

theorem sent_snapshotReply_zero (leader : HostId) (held : List LogEntry)
    {reply : InstallSnapshotReply} (hreply : reply.matchIndex = 0) :
    ∀ message ∈ [Message.snapshotReply leader reply held], message.Sent base a := by
  intro message hmem
  obtain rfl := List.mem_singleton.mp hmem
  exact fun hpos => absurd hpos (by omega)

theorem RaftNode.adoptSnapshot_currentTerm (node : RaftNode) (request : InstallSnapshot) :
    (node.adoptSnapshot request).currentTerm = node.currentTerm := by
  unfold adoptSnapshot
  split_ifs <;> rfl

theorem RaftNode.adoptSnapshot_snapshotIndex (node : RaftNode) (request : InstallSnapshot) :
    (node.adoptSnapshot request).snapshotIndex = request.lastIncludedIndex := by
  unfold adoptSnapshot
  split_ifs <;> rfl

namespace Member

theorem Kept.whole_split (h : m.Kept base) {i : Nat} (hs : m.node.snapshotIndex ≤ i) :
    m.whole.take i ++ m.node.log.drop (i - m.node.snapshotIndex) = m.whole := by
  have hdrop : m.whole.drop i = m.node.log.drop (i - m.node.snapshotIndex) := by
    rw [whole, List.drop_append, List.drop_of_length_le (by rw [h.folded_length]; exact hs),
      List.nil_append, h.folded_length]
  rw [← hdrop, List.take_append_drop]

theorem Kept.configEntries_above (h : m.Kept base) {i : Nat} (hs : m.node.snapshotIndex ≤ i)
    (hi : i ≤ m.whole.length) :
    m.node.configEntries.filter (satSucc i ≤ ·) =
        configIndices i (m.node.log.drop (i - m.node.snapshotIndex)) ∨
      i = maxIndex ∧ ∀ j ∈ m.node.configEntries.filter (satSucc i ≤ ·), j = maxIndex := by
  have hbound := h.bound
  rcases Nat.lt_or_ge i maxIndex with hlt | hge
  · rcases h.configEntries with hentries | ⟨hmax, -⟩
    · exact .inl (RaftNode.configEntries_above hentries hs hlt)
    · omega
  · obtain rfl : i = maxIndex := le_antisymm (hi.trans hbound) hge
    refine .inr ⟨rfl, fun j hj => ?_⟩
    obtain ⟨hmem, hle⟩ := List.mem_filter.mp hj
    have hle : satSucc maxIndex ≤ j := of_decide_eq_true hle
    rcases h.configEntries with hentries | ⟨-, hentries⟩
    · rw [hentries] at hmem
      have := mem_configIndices hmem
      have hlast := h.lastLogIndex_eq
      rw [RaftNode.lastLogIndex] at hlast
      rw [satSucc] at hle
      omega
    · exact hentries j hmem

theorem installs_same {node : RaftNode} (h : node.snapshotIndex = m.node.snapshotIndex)
    (folded : List LogEntry) : m.installs node folded = ⟨node, m.folded⟩ := by
  rw [installs, if_neg (by omega)]

namespace Mirrors

theorem rekept (h : m.Mirrors base a) (hkept : m'.Kept base) (hwhole : m'.whole = m.whole)
    (hcore : m'.node.core =
      { m.node.core with
        voters := m'.node.voters, joint := m'.node.joint, log := m'.node.log,
        configEntries := m'.node.configEntries, snapshotIndex := m'.node.snapshotIndex,
        snapshotTerm := m'.node.snapshotTerm }) : m'.Mirrors base a := by
  obtain ⟨node, folded⟩ := m
  obtain ⟨node', folded'⟩ := m'
  cases node
  cases node'
  simp only [RaftNode.core, RaftNode.Core.mk.injEq] at hcore
  obtain ⟨rfl, -, -, rfl, rfl, rfl, rfl, -, -, rfl, rfl, -, -, rfl, rfl, rfl, rfl, rfl, rfl, rfl,
    rfl⟩ := hcore
  exact
    { h with
      kept := hkept
      plain := { h.plain with }
      log := h.log.trans hwhole.symm
      commit := by rw [hwhole]; exact h.commit
      leads := by rw [Member.Reigns, hwhole]; exact h.leads
      stood := by rw [hwhole]; exact h.stood }

variable {folded : List LogEntry} {request : InstallSnapshot} {r : Consensus.Reign HostId LogEntry}

section

variable (h : m.Mirrors base a)

include h

theorem rebased {i term : Nat} {config : VoterConfig} (state : List UInt8)
    (held : Nat) (hs : m.node.snapshotIndex ≤ i) (hi : i ≤ m.node.commitIndex)
    (hfolded : m.whole.take i = folded) (hterm : (scheme base).lastTerm folded = term)
    (hconfig : (scheme base).cfg folded = config) :
    Member.Mirrors base a
      ⟨{ m.node with
        retentionPending := true
        log := m.node.log.drop (i - m.node.snapshotIndex)
        logBytesHeld := held
        configEntries := m.node.configEntries.filter (satSucc i ≤ ·)
        snapshotIndex := i
        snapshotTerm := term
        snapshotData := state
        voters := config.voters
        joint := config.joint }, folded⟩ := by
  subst hfolded
  have hle := hi.trans h.kept.commit_le
  have hwhole := h.kept.whole_split hs
  refine h.rekept ?_ hwhole rfl
  exact
    { folded_length := List.length_take_of_le hle
      snapshotTerm := hterm
      baseConfig := hconfig
      configEntries := h.kept.configEntries_above hs hle
      bound := (congrArg List.length hwhole).trans_le h.kept.bound
      snapshot_le := hi
      commit_le := h.kept.commit_le.trans_eq (congrArg List.length hwhole.symm) }

theorem compact (upTo : Nat) (state : List UInt8) :
    Handles base a m (m.quietly (m.node.compact upTo state).1) := by
  have hsame : m.becomes m.node = m := becomes_of_kept h.kept
  rw [quietly, RaftNode.compact]
  split_ifs with hskip
  · rw [hsame]
    exact .of_mirrors h rfl
  push Not at hskip
  have hcommit := h.kept.commit_le
  cases hterm : m.node.entryTerm upTo with
  | none =>
    dsimp only
    rw [hsame]
    exact .of_mirrors h rfl
  | some term =>
    dsimp only
    have hlog : upTo - m.node.snapshotIndex ≤ m.node.log.length := by
      have := h.kept.lastLogIndex_eq
      rw [RaftNode.lastLogIndex] at this
      omega
    have hfolded : m.whole.take upTo =
        m.folded ++ m.node.log.take (upTo - m.node.snapshotIndex) := by
      rw [whole, List.take_append, List.take_of_length_le (by rw [h.kept.folded_length]; omega),
        h.kept.folded_length]
    have hlast : (scheme base).lastTerm (m.whole.take upTo) = term := by
      rw [h.kept.entryTerm_eq (by omega) (by omega)] at hterm
      rw [Scheme.lastTerm, List.getLast?_take, if_neg (by omega), scheme_term]
      obtain ⟨e, he, rfl⟩ := Option.map_eq_some_iff.mp hterm
      rw [he]
      rfl
    have hcfg := @cfg_append base m.folded (m.node.log.take (upTo - m.node.snapshotIndex))
    rw [← hfolded, h.kept.baseConfig] at hcfg
    rw [min_eq_left hlog]
    exact .of_mirrors (h.rebased state _ (by omega) hskip.2 rfl hlast hcfg) rfl

theorem folded_prefix_iff (hs : Sound (scheme base) a) (hc : request.Carries base a folded r)
    (hpast : m.node.snapshotIndex < request.lastIncludedIndex) :
    m.node.entryTerm request.lastIncludedIndex = some request.lastIncludedTerm ↔
      folded <+: m.whole := by
  have hlen := hc.length
  have hlt : folded.length - 1 < folded.length := by omega
  have hlast : folded[folded.length - 1]? = some (folded.get ⟨_, hlt⟩) :=
    List.getElem?_eq_getElem hlt
  have hterm : (folded.get ⟨_, hlt⟩).term = request.lastIncludedTerm := by
    rw [← hc.lastTerm, Scheme.lastTerm, List.getLast?_eq_getElem?, hlast]
    rfl
  rw [h.kept.entryTerm_eq (by omega) (by omega), ← hlen]
  constructor
  · intro hentry
    obtain ⟨w, hw, hwt⟩ := Option.map_eq_some_iff.mp hentry
    have hgw : a.Grounded (scheme base) m.whole := h.log ▸ hs.rooted.log_grounded m.node.id
    have hgf : a.Grounded (scheme base) folded :=
      (hs.rooted.lead_grounded hc.lead).of_isPrefix hc.part
    have htake := hgf.take_eq hgw hlast hw (hterm.trans hwt.symm)
    rw [Nat.sub_add_cancel (by omega), List.take_length] at htake
    rw [htake]
    exact List.take_prefix _ _
  · intro hpre
    rw [Consensus.getElem?_of_isPrefix hpre hlast, ← hterm]
    rfl

theorem replaced (hrole : m.node.role = .follower)
    (hterm : m.node.currentTerm = request.term) (hc : request.Carries base a folded r)
    (hpre : ¬ folded <+: m.whole) (hcommit : m.node.commitIndex ≤ request.lastIncludedIndex) :
    ∃ a', Follows base a m
      ⟨{ m.node with
        log := []
        logBytesHeld := 0
        configEntries := []
        retentionPending := true
        snapshotIndex := request.lastIncludedIndex
        snapshotTerm := request.lastIncludedTerm
        snapshotData := request.state
        voters := request.config.voters
        joint := request.config.joint
        commitIndex := max m.node.commitIndex request.lastIncludedIndex }, folded⟩ a' := by
  have hwhole : folded ++ [] = folded := List.append_nil folded
  have hlen := hc.length
  rw [max_eq_right hcommit]
  refine ⟨_, Moves.adopt (v := m.node.id) hc.lead hc.part (h.term.trans hterm).le
    (.inr ⟨by rw [h.log]; exact hpre, rfl⟩), rfl, rfl, ?_⟩
  exact
    { kept := ⟨hlen, hc.lastTerm, hc.config, .inl rfl,
        (congrArg List.length hwhole).trans_le hc.bound, le_rfl,
          (congrArg List.length hwhole).trans hlen |>.ge⟩
      plain := { h.plain with }
      term := (Function.update_self _ _ _).trans hterm.symm
      vote := by
        dsimp only
        rw [if_pos (h.term.trans hterm)]
        exact h.vote
      log := (Function.update_self _ _ _).trans hwhole.symm
      commit := by
        dsimp only [Member.whole]
        rw [hwhole, ← hlen, List.take_length, hterm]
        exact hc.fixed
      leads := fun hlead => nomatch hrole.symm.trans hlead
      matched := fun hlead => nomatch hrole.symm.trans hlead
      stood := fun hstand => nomatch hrole.symm.trans hstand
      votes := fun hstand => nomatch hrole.symm.trans hstand
      slots := h.slots }

theorem adoptSnapshot (hs : Sound (scheme base) a)
    (hrole : m.node.role = .follower) (hterm : m.node.currentTerm = request.term)
    (hc : request.Carries base a folded r)
    (hpast : m.node.snapshotIndex < request.lastIncludedIndex) :
    ∃ a', Follows base a m ⟨m.node.adoptSnapshot request, folded⟩ a' := by
  have hlen := hc.length
  have hiff := h.folded_prefix_iff hs hc hpast
  rw [RaftNode.adoptSnapshot]
  by_cases hpre : folded <+: m.whole
  · have hle := hpre.length_le
    have htake : m.whole.take request.lastIncludedIndex = folded := by
      rw [← hlen, Consensus.take_eq_of_isPrefix hpre le_rfl, List.take_length]
    have hcommit : a.Fixed m.node.currentTerm
        (m.whole.take (max m.node.commitIndex request.lastIncludedIndex)) := by
      rcases max_choice m.node.commitIndex request.lastIncludedIndex with hmax | hmax
      · rw [hmax]
        exact h.commit
      · rw [hmax, htake, hterm]
        exact hc.fixed
    have hmore := h.committed (le_max_left _ _) (max_le h.kept.commit_le (by omega)) hcommit
    have hlog : request.lastIncludedIndex - m.node.snapshotIndex ≤ m.node.log.length := by
      have := h.kept.lastLogIndex_eq
      rw [RaftNode.lastLogIndex] at this
      omega
    have hbased := hmore.rebased request.state
      (m.node.logBytesHeld - encodedSum (m.node.log.take
        (request.lastIncludedIndex - m.node.snapshotIndex))) hpast.le (le_max_right _ _) htake
      hc.lastTerm hc.config
    rw [min_eq_left hlog, if_pos (hiff.mpr hpre)]
    exact ⟨a, .of_mirrors hbased.pruneCommitted rfl⟩
  · -- what the node has committed is in the leader's log, and ends before the snapshot does
    have hheld := hs.fixed_lead h.commit hterm.le hc.lead
    have hcommit : m.node.commitIndex ≤ request.lastIncludedIndex := by
      by_contra hlt
      refine hpre ((List.prefix_of_prefix_length_le hc.part hheld ?_).trans
        (List.take_prefix _ _))
      rw [List.length_take_of_le h.kept.commit_le]
      omega
    obtain ⟨a', hf⟩ := h.replaced hrole hterm hc hpre hcommit
    rw [if_neg (mt hiff.mp hpre)]
    exact ⟨a', hf.trans (.of_mirrors hf.2.2.2.pruneCommitted rfl)⟩

theorem receive_snapshot (hs : Sound (scheme base) a)
    (hsent : Message.Sent base a (.snapshot request folded)) :
    Handles base a m (m.receive (.snapshot request folded)) := by
  obtain ⟨r, hc⟩ := hsent
  have hrefused : Handles base a m (m.installs m.node folded,
      [.snapshotReply request.leader (m.node.snapshotReply 0)
        (m.installs m.node folded).whole]) := by
    rw [installs_same rfl]
    exact (Follows.of_mirrors h rfl).goes.handles (sent_snapshotReply_zero _ _ rfl)
  rw [receive, RaftNode.onInstallSnapshot]
  cases admitSnapshot request with
  | error => exact hrefused
  | ok =>
    by_cases hold : request.term < m.node.currentTerm
    · simp only [if_pos hold]
      exact hrefused
    simp only [if_neg hold]
    obtain ⟨a₁, hf⟩ := h.recognizeLeader request.term
    have hm₁ := hf.2.2.2
    have hs₁ := hf.1.sound hs
    have hc₁ := hc.grows hf.1.grows hf.2.1
    have hterm : (m.node.recognizeLeader request.term).currentTerm = request.term :=
      (m.node.observeTerm_currentTerm request.term).trans (max_eq_right (not_lt.mp hold))
    have hindex : (m.node.recognizeLeader request.term).snapshotIndex = m.node.snapshotIndex :=
      (m.node.observeTerm_kept request.term).2.1
    rw [hindex]
    by_cases hpast : m.node.snapshotIndex < request.lastIncludedIndex
    · simp only [if_pos hpast]
      obtain ⟨a₂, hf₂⟩ := hm₁.adoptSnapshot hs₁ rfl hterm hc₁ (hindex ▸ hpast)
      have hinstalls : m.installs
          ((m.node.recognizeLeader request.term).adoptSnapshot request) folded =
          ⟨(m.node.recognizeLeader request.term).adoptSnapshot request, folded⟩ := by
        rw [installs, RaftNode.adoptSnapshot_snapshotIndex, if_pos hpast]
      rw [hinstalls]
      refine (hf.trans hf₂).repliesCommit hs ?_ hc.node
      dsimp only
      rw [RaftNode.adoptSnapshot_currentTerm, hterm, hf₂.2.1]
      exact hc₁.lead
    · simp only [if_neg hpast]
      rw [installs_same hindex]
      refine hf.repliesCommit hs ?_ hc.node
      dsimp only
      rw [hterm]
      exact hc₁.lead

theorem decline_snapshot (message : Message) : Handles base a m (m.decline message) := by
  cases message with
  | snapshot request folded =>
    have hf : ∃ a', Follows base a m ⟨(m.node.declineSnapshot request).1, m.folded⟩ a' := by
      rw [RaftNode.declineSnapshot]
      dsimp only
      split_ifs
      · exact h.recognizeLeader request.term
      · exact ⟨a, .of_mirrors h rfl⟩
    obtain ⟨a', hf⟩ := hf
    have hbecomes := becomes_of_kept hf.2.2.2.kept
    change Handles base a m (m.becomes (m.node.declineSnapshot request).1, _)
    rw [hbecomes]
    exact hf.goes.handles (sent_snapshotReply_zero _ _ rfl)
  | _ => exact .of_mirrors h rfl

end

end Mirrors

end Member

end Slates.Raft
