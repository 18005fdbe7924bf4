import Slates.Raft.Whole

/-!
A cluster beside the abstract run it goes through: every node is where its abstract node is, and
every message says what has happened there. No window holds a configuration.
-/

namespace Slates.Raft

open Register (HostId)
open Consensus (Scheme)
open Consensus.State (Moves Sound Grows)

abbrev Account := Slates.Consensus.State HostId LogEntry

/-- A slot that holds no configuration. -/
def WindowSlot.Plain (slot : WindowSlot) : Prop := slot.entry.config = none

def WindowSlot.Placed (a : Account) (index : Nat) (slot : WindowSlot) : Prop :=
  0 < index ∧ ∃ r, a.lead slot.term = some r ∧ r.log[index - 1]? = some slot.entry

/-- What a candidate was told and what a leader recovers is no configuration. -/
structure RaftNode.Plain (node : RaftNode) : Prop where
  reports : ∀ {voter : HostId} {reports : List SlotReport}, node.reports[voter]? = some reports →
    ∀ report ∈ reports, report.slot.Plain
  recovery : ∀ {recovery : Recovery}, node.recovery = some recovery →
    ∀ {i : Nat} {found : LogEntry × Bool}, recovery.decided[i]? = some found →
      found.1.config = none

/-- The node's own reign in its term ends with the log the node has. -/
def Member.Reigns (a : Account) (m : Member) : Prop :=
  ∃ r, a.lead m.node.currentTerm = some r ∧ r.node = m.node.id ∧ r.log = m.whole

/-- The node is where its abstract node is. -/
structure Member.Mirrors (base : VoterConfig) (a : Account) (m : Member) : Prop where
  kept : m.Kept base
  plain : m.node.Plain
  term : a.term m.node.id = m.node.currentTerm
  vote : a.vote m.node.id = m.node.votedFor
  log : a.log m.node.id = m.whole
  commit : a.Fixed m.node.currentTerm (m.whole.take m.node.commitIndex)
  leads : m.node.role = .leader → m.Reigns a
  matched : m.node.role = .leader → ∀ {f : HostId} {k : Nat}, f ≠ m.node.id →
    m.node.matchIndex[f]? = some k → 0 < k → ∃ n, k ≤ n ∧ a.acked f m.node.currentTerm n
  stood : m.node.role = .candidate → a.stood m.node.currentTerm m.node.id m.whole ∧
    ∀ r, a.lead m.node.currentTerm = some r → r.node ≠ m.node.id
  votes : m.node.role = .candidate → ∀ v ∈ m.node.votes,
    ∃ entries, a.ballot v m.node.currentTerm m.node.id entries
  slots : ∀ {i : Nat} {slot : WindowSlot}, m.node.window[i]? = some slot →
    slot.Plain ∧ (slot.fast = false → slot.Placed a i)

/-- The sender of an acknowledgement held the leader's entries as far as it says. -/
def Acknowledged (a : Account) (leader follower : HostId) (term index : Nat)
    (held : List LogEntry) : Prop :=
  ∃ r, a.lead term = some r ∧ r.node = leader ∧ a.acked follower term index ∧
    index ≤ r.log.length ∧ r.log.take index <+: held

/-- An append carries a part of its leader's log. -/
structure AppendEntries.Carries (a : Account) (request : AppendEntries)
    (r : Slates.Consensus.Reign HostId LogEntry) (X : List LogEntry) : Prop where
  lead : a.lead request.term = some r
  node : r.node = request.leader
  part : X <+: r.log
  length : X.length = request.prevLogIndex + request.entries.length
  entries : X.drop request.prevLogIndex = request.entries
  prev : 0 < request.prevLogIndex →
    X[request.prevLogIndex - 1]?.map LogEntry.term = some request.prevLogTerm
  commit_le : request.leaderCommit ≤ r.log.length
  commit : a.Fixed request.term (r.log.take request.leaderCommit)
  bound : X.length ≤ maxIndex

/-- A snapshot is of its leader's log, and chosen. -/
structure InstallSnapshot.Carries (base : VoterConfig) (a : Account) (request : InstallSnapshot)
    (folded : List LogEntry) (r : Slates.Consensus.Reign HostId LogEntry) : Prop where
  lead : a.lead request.term = some r
  node : r.node = request.leader
  part : folded <+: r.log
  length : folded.length = request.lastIncludedIndex
  lastTerm : (scheme base).lastTerm folded = request.lastIncludedTerm
  config : (scheme base).cfg folded = request.config
  fixed : a.Fixed request.term folded
  bound : folded.length ≤ maxIndex

/-- A request for votes may come from one that already leads, and an append from past the end of a
log is one no node admits. -/
def Message.Sent (base : VoterConfig) (a : Account) : Message → Prop
  | .requestVote request =>
    (∃ entries, a.stood request.term request.candidate entries ∧
      request.lastLogIndex = entries.length ∧
      request.lastLogTerm = (scheme base).lastTerm entries) ∨
    ∃ r, a.lead request.term = some r ∧ r.node = request.candidate
  | .voteReply receiver reply =>
    (∀ report ∈ reply.reports, report.slot.Plain) ∧
    (reply.granted → (∃ entries, a.ballot reply.voter reply.term receiver entries) ∨
      ∃ r, a.lead reply.term = some r ∧ r.node = receiver)
  | .append request =>
    (0 < request.prevLogIndex ∧ request.prevLogTerm = 0) ∨ ∃ r X, request.Carries a r X
  | .appendReply receiver reply held =>
    reply.success → Acknowledged a receiver reply.follower reply.term reply.matchIndex held
  | .snapshot request folded => ∃ r, request.Carries base a folded r
  | .snapshotReply receiver reply held =>
    0 < reply.matchIndex →
      Acknowledged a receiver reply.follower reply.term reply.matchIndex held
  | _ => True

/-- The cluster goes through the run of `a`. -/
structure Cluster.Mirrors (base : VoterConfig) (a : Account) (c : Cluster) : Prop where
  sound : Sound (scheme base) a
  member : ∀ {host : HostId} {m : Member}, c.members[host]? = some m →
    m.node.id = host ∧ m.Mirrors base a
  sent : ∀ message ∈ c.network, message.Sent base a

section Frames

variable {base : VoterConfig} {a a' : Account} {host : HostId}

theorem Member.Mirrors.congr {folded : List LogEntry} {node node' : RaftNode}
    (h : Member.Mirrors base a ⟨node, folded⟩) (hcore : node'.core = node.core) :
    Member.Mirrors base a ⟨node', folded⟩ := by
  cases node
  cases node'
  simp only [RaftNode.core, RaftNode.Core.mk.injEq] at hcore
  obtain ⟨rfl, rfl, rfl, rfl, rfl, rfl, rfl, rfl, rfl, rfl, rfl, rfl, rfl, rfl, rfl, rfl, rfl, rfl,
    rfl, rfl, rfl⟩ := hcore
  exact
    { h with
      kept := { h.kept with }
      plain := { h.plain with } }

theorem WindowSlot.Placed.grows {index : Nat} {slot : WindowSlot} (h : slot.Placed a index)
    (hg : Grows a a') : slot.Placed a' index := by
  obtain ⟨hpos, r, hr, hentry⟩ := h
  obtain ⟨r', hr', -, -, -, hlog⟩ := hg.lead hr
  exact ⟨hpos, r', hr', Consensus.getElem?_of_isPrefix hlog hentry⟩

theorem Member.Mirrors.moves {m : Member} (h : m.Mirrors base a)
    (hm : Moves (scheme base) host a a') (hne : m.node.id ≠ host) : m.Mirrors base a' where
  kept := h.kept
  plain := h.plain
  term := (hm.term _ hne).trans h.term
  vote := (hm.vote _ hne).trans h.vote
  log := (hm.log _ hne).trans h.log
  commit := h.commit.grows hm.grows
  leads hrole := by
    obtain ⟨r, hr, hnode, hlog⟩ := h.leads hrole
    exact ⟨r, hm.own hr (hnode ▸ hne), hnode, hlog⟩
  matched hrole f k hf hk hpos := by
    obtain ⟨n, hn, ha⟩ := h.matched hrole hf hk hpos
    exact ⟨n, hn, hm.grows.acked ha⟩
  stood hrole := by
    obtain ⟨hstood, hnot⟩ := h.stood hrole
    refine ⟨hm.stood hstood, fun r hr heq => ?_⟩
    rcases hm.fresh hr with ⟨q, hq, hnode⟩ | hv
    · exact hnot q hq (hnode.trans heq)
    · exact hne (heq.symm.trans hv)
  votes hrole v hv := by
    obtain ⟨entries, hb⟩ := h.votes hrole v hv
    exact ⟨entries, hm.grows.ballot hb⟩
  slots hslot := ⟨(h.slots hslot).1, fun hslow => ((h.slots hslot).2 hslow).grows hm.grows⟩

theorem lead_node (hg : Grows a a') {t : Nat} {node : HostId}
    (h : ∃ r, a.lead t = some r ∧ r.node = node) : ∃ r, a'.lead t = some r ∧ r.node = node := by
  obtain ⟨r, hr, hnode⟩ := h
  obtain ⟨r', hr', hnode', -⟩ := hg.lead hr
  exact ⟨r', hr', hnode'.trans hnode⟩

theorem Acknowledged.grows {leader follower : HostId} {term index : Nat} {held : List LogEntry}
    (h : Acknowledged a leader follower term index held) (hg : Grows a a') :
    Acknowledged a' leader follower term index held := by
  obtain ⟨r, hr, hnode, ha, hle, hheld⟩ := h
  obtain ⟨r', hr', hnode', -, -, hlog⟩ := hg.lead hr
  refine ⟨r', hr', hnode'.trans hnode, hg.acked ha, hle.trans hlog.length_le, ?_⟩
  rwa [Consensus.take_eq_of_isPrefix hlog hle]

theorem Message.Sent.moves {message : Message} (h : message.Sent base a)
    (hm : Moves (scheme base) host a a') : message.Sent base a' := by
  have hg := hm.grows
  cases message with
  | requestVote request =>
    rcases h with ⟨entries, hstood, hrest⟩ | hlead
    · exact .inl ⟨entries, hm.stood hstood, hrest⟩
    · exact .inr (lead_node hg hlead)
  | voteReply receiver reply =>
    refine ⟨h.1, fun hgranted => ?_⟩
    rcases h.2 hgranted with ⟨entries, hb⟩ | hlead
    · exact .inl ⟨entries, hg.ballot hb⟩
    · exact .inr (lead_node hg hlead)
  | append request =>
    rcases h with hbad | ⟨r, X, hX⟩
    · exact .inl hbad
    · obtain ⟨r', hr', hnode, -, -, hlog⟩ := hg.lead hX.lead
      refine .inr ⟨r', X, hr', hnode.trans hX.node, hX.part.trans hlog, hX.length, hX.entries,
        hX.prev, hX.commit_le.trans hlog.length_le, ?_, hX.bound⟩
      rw [Consensus.take_eq_of_isPrefix hlog hX.commit_le]
      exact hX.commit.grows hg
  | appendReply receiver reply held => exact fun hs => (h hs).grows hg
  | snapshot request folded =>
    obtain ⟨r, hr⟩ := h
    obtain ⟨r', hr', hnode, -, -, hlog⟩ := hg.lead hr.lead
    exact ⟨r', hr', hnode.trans hr.node, hr.part.trans hlog, hr.length, hr.lastTerm, hr.config,
      hr.fixed.grows hg, hr.bound⟩
  | snapshotReply receiver reply held => exact fun hs => (h hs).grows hg
  | _ => trivial

end Frames

end Slates.Raft
