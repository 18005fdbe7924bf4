import Slates.Raft.Following

/-!
Appends and snapshots at a follower beside the abstract run. A reply acknowledges the log's end, and
that is an acknowledgement as long as no entry of an older leader stands past the append.
-/

namespace Slates.Raft

open Register (HostId)
open Consensus (Scheme)
open Consensus.State (Sound Grows)

variable {base : VoterConfig} {a a' : Account} {m : Member}

variable {r : Consensus.Reign HostId LogEntry}

theorem AppendEntries.Carries.grows {request : AppendEntries} {X : List LogEntry}
    (h : request.Carries a r X) (hg : Grows a a') (hlead : a'.lead = a.lead) :
    request.Carries a' r X :=
  ⟨hlead ▸ h.lead, h.node, h.part, h.length, h.entries, h.prev, h.commit_le, h.commit.grows hg,
    h.bound⟩

theorem prefix_of_lastTerm (hs : Sound (scheme base) a) {t : Nat} (hr : a.lead t = some r)
    {entries : List LogEntry} (hg : a.Grounded (scheme base) entries)
    (hlast : (scheme base).lastTerm entries = t) : entries <+: r.log := by
  cases he : entries.getLast? with
  | none =>
    rw [List.getLast?_eq_none_iff] at he
    rw [he]
    exact List.nil_prefix
  | some e =>
    obtain ⟨q, hq, -, hlog⟩ := hs.rooted.of_last hg he
    rw [← Consensus.State.lastTerm_of_getLast? he, hlast] at hq
    obtain rfl : r = q := Option.some.inj (hr.symm.trans hq)
    exact hlog

def Answers (base : VoterConfig) (a : Account) (m : Member) (leader : HostId)
    (answer : RaftNode × AppendReply) : Prop :=
  ∃ a', Follows base a m ⟨answer.1, m.folded⟩ a' ∧
    (answer.2.success → Acknowledged a' leader answer.2.follower answer.2.term answer.2.matchIndex
      (Member.whole ⟨answer.1, m.folded⟩))

theorem Answers.after {node : RaftNode} {leader : HostId} {answer : RaftNode × AppendReply}
    (h : Answers base a' ⟨node, m.folded⟩ leader answer)
    (hf : Follows base a m ⟨node, m.folded⟩ a') : Answers base a m leader answer := by
  obtain ⟨a'', hf', hack⟩ := h
  exact ⟨a'', hf.trans hf', hack⟩

namespace RaftNode

def Replaces (node : RaftNode) (request : AppendEntries) : Prop :=
  ∃ placed ∈ request.entries.zipIdx, node.commitIndex ≤ request.prevLogIndex + placed.2 ∧
    node.entryTerm (request.prevLogIndex + placed.2 + 1) ≠ some placed.1.term

instance (node : RaftNode) (request : AppendEntries) : Decidable (node.Replaces request) :=
  inferInstanceAs (Decidable (∃ placed ∈ request.entries.zipIdx, _))

/-- No entry of an older leader stands past the append's end, or what stands there goes with an
entry that the append replaces. -/
def EndsBy (node : RaftNode) (request : AppendEntries) : Prop :=
  node.lastLogIndex ≤ request.prevLogIndex + request.entries.length ∨
    node.lastLogTerm = request.term ∨ node.Replaces request

instance (node : RaftNode) (request : AppendEntries) : Decidable (node.EndsBy request) :=
  inferInstanceAs (Decidable (_ ∨ _))

theorem replaces_iff {node : RaftNode} {request : AppendEntries} :
    node.Replaces request ↔ ∃ k e, request.entries[k]? = some e ∧
      node.commitIndex ≤ request.prevLogIndex + k ∧
      node.entryTerm (request.prevLogIndex + k + 1) ≠ some e.term := by
  constructor
  · rintro ⟨⟨e, k⟩, hmem, hrest⟩
    exact ⟨k, e, List.mem_zipIdx_iff_getElem?.mp hmem, hrest⟩
  · rintro ⟨k, e, he, hrest⟩
    exact ⟨(e, k), List.mem_zipIdx_iff_getElem?.mpr he, hrest⟩

theorem conflictReply_success (node : RaftNode) (prev readContext : Nat) :
    (node.conflictReply prev readContext).success = false := by
  unfold conflictReply
  split <;> rfl

theorem learnCommit_core (node : RaftNode) (leaderCommit index : Nat) :
    (node.learnCommit leaderCommit index).core =
      { node.core with commitIndex := (node.learnCommit leaderCommit index).commitIndex } := by
  unfold learnCommit
  split_ifs <;> rfl

theorem observeSync_core (node : RaftNode) (term syncIndex : Nat) :
    (node.observeSync term syncIndex).core = node.core := by
  unfold observeSync
  split_ifs <;> rfl

end RaftNode

namespace Member.Mirrors

variable {request : AppendEntries} {r : Consensus.Reign HostId LogEntry} {X : List LogEntry}

theorem placed (h : m.Mirrors base a) (hs : Sound (scheme base) a) (hc : request.Carries a r X)
    (hanchor : m.node.commitIndex ≤ request.prevLogIndex) (hprev : 0 < request.prevLogIndex →
      m.node.entryTerm request.prevLogIndex = some request.prevLogTerm) :
    ∃ node, m.node.placeAll request.prevLogIndex request.entries = (node, X.length) ∧
      node.core = { m.node.core with log := node.log, configEntries := node.configEntries } ∧
      Member.Kept base ⟨node, m.folded⟩ ∧
      Placing m.whole X X.length (Member.whole ⟨node, m.folded⟩) := by
  have hgw : a.Grounded (scheme base) m.whole := h.log ▸ hs.rooted.log_grounded m.node.id
  have hgX : a.Grounded (scheme base) X := (hs.rooted.lead_grounded hc.lead).of_isPrefix hc.part
  have hlen := hc.length
  have hmatch : ∀ k w e, m.whole[k]? = some w → X[k]? = some e → w.term = e.term →
      X.take (k + 1) <+: m.whole := by
    intro k w e hw he hwe
    rw [hgX.take_eq hgw he hw hwe.symm]
    exact List.take_prefix _ _
  have hstart : Placing m.whole X request.prevLogIndex m.whole := by
    refine .inl ⟨?_, rfl⟩
    rcases Nat.eq_zero_or_pos request.prevLogIndex with hzero | hpos
    · rw [hzero]
      exact List.nil_prefix
    · have hx := hc.prev hpos
      have hw := hprev hpos
      rw [h.kept.entryTerm_eq (h.kept.snapshot_le.trans hanchor) hpos] at hw
      obtain ⟨x, hxk, hxt⟩ := Option.map_eq_some_iff.mp hx
      obtain ⟨w, hwk, hwt⟩ := Option.map_eq_some_iff.mp hw
      have := hmatch _ w x hwk hxk (hwt.trans hxt.symm)
      rwa [Nat.sub_add_cancel hpos] at this
  exact Member.Kept.placeAll hc.bound hmatch h.kept hanchor (by omega) hc.entries hstart

theorem not_replaces (h : m.Mirrors base a) (hc : request.Carries a r X) (hX : X <+: m.whole) :
    ¬ m.node.Replaces request := by
  intro hreplaces
  obtain ⟨k, e, he, hle, hconflict⟩ := RaftNode.replaces_iff.mp hreplaces
  rw [← hc.entries, List.getElem?_drop] at he
  refine absurd ?_ hconflict
  rw [h.kept.entryTerm_eq ((h.kept.snapshot_le.trans hle).trans (Nat.le_succ _)) (Nat.succ_pos _),
    Nat.succ_sub_one, Consensus.getElem?_of_isPrefix hX he]
  rfl

theorem placeAll (h : m.Mirrors base a) (hs : Sound (scheme base) a)
    (hrole : m.node.role = .follower) (hterm : m.node.currentTerm = request.term)
    (hc : request.Carries a r X) (hanchor : m.node.commitIndex ≤ request.prevLogIndex)
    (hprev : 0 < request.prevLogIndex →
      m.node.entryTerm request.prevLogIndex = some request.prevLogTerm)
    (hends : m.node.EndsBy request) :
    ∃ node a', m.node.placeAll request.prevLogIndex request.entries = (node, X.length) ∧
      node.core = { m.node.core with log := node.log, configEntries := node.configEntries } ∧
      Follows base a m ⟨node, m.folded⟩ a' ∧ X <+: Member.whole ⟨node, m.folded⟩ ∧
      Member.whole ⟨node, m.folded⟩ <+: r.log := by
  obtain ⟨node, hplace, hcore, hkept, hplaced⟩ := h.placed hs hc hanchor hprev
  obtain ⟨a', hf⟩ := h.takeUp hs hrole (hterm ▸ hc.lead) hc.part node hcore hkept hplaced
  refine ⟨node, a', hplace, hcore, hf, ?_⟩
  rw [Placing, List.take_length] at hplaced
  rcases hplaced with ⟨hpre, hsame⟩ | ⟨-, hnew⟩
  · rw [hsame]
    refine ⟨hpre, ?_⟩
    rcases hends with hshort | hlast | hreplaces
    · have hlen := hc.length
      rw [h.kept.lastLogIndex_eq] at hshort
      rw [← hpre.eq_of_length (le_antisymm hpre.length_le (by omega))]
      exact hc.part
    · rw [h.kept.lastLogTerm_eq] at hlast
      exact prefix_of_lastTerm hs hc.lead (h.log ▸ hs.rooted.log_grounded m.node.id) hlast
    · exact absurd hreplaces (h.not_replaces hc hpre)
  · rw [hnew]
    exact ⟨List.prefix_rfl, hc.part⟩

theorem takeEntries (h : m.Mirrors base a) (hs : Sound (scheme base) a)
    (hrole : m.node.role = .follower) (hterm : m.node.currentTerm = request.term)
    (hc : request.Carries a r X) (hanchor : m.node.commitIndex ≤ request.prevLogIndex)
    (hends : (0 < request.prevLogIndex →
      m.node.entryTerm request.prevLogIndex = some request.prevLogTerm) → m.node.EndsBy request)
    (hplain : 0 < request.prevLogIndex →
      m.node.entryTerm request.prevLogIndex ≠ some request.prevLogTerm →
        m.node.BuffersPlain request) :
    Answers base a m request.leader (m.node.takeEntries request) := by
  rw [RaftNode.takeEntries]
  split_ifs with hcheck hpast
  · refine ⟨a, h.buffer hc (hplain hcheck.1 hcheck.2), fun hsuccess => ?_⟩
    exact absurd hsuccess (by rw [RaftNode.conflictReply_success]; simp)
  · exact ⟨a, .of_mirrors h rfl, fun hsuccess => absurd hsuccess (by simp [RaftNode.appendReply])⟩
  push Not at hcheck
  obtain ⟨node, a₁, hplace, hcore, hf, hX, htail⟩ :=
    h.placeAll hs hrole hterm hc hanchor hcheck (hends hcheck)
  rw [hplace]
  dsimp only
  have hs₁ := hf.1.sound hs
  have hr₁ : a₁.lead m.node.currentTerm = some r := by rw [hf.2.1, hterm]; exact hc.lead
  have hfields := hcore
  simp only [RaftNode.core, RaftNode.Core.mk.injEq] at hfields
  obtain ⟨hid, -, -, hterm₁, -, hrole₁, -, -, -, hcommit, -⟩ := hfields
  -- the leader's commit index, no further than the append
  have hlearn : Member.Mirrors base a₁
      ⟨node.learnCommit request.leaderCommit X.length, m.folded⟩ := by
    refine hf.2.2.2.learnCommit ?_ hX.length_le ?_
    · have := hc.length
      dsimp only
      omega
    · dsimp only
      rw [hterm₁, hterm]
      refine fixed_prefix (hc.commit.grows hf.1.grows) ?_
      rw [Consensus.take_eq_of_isPrefix hX (min_le_right _ _),
        ← Consensus.take_eq_of_isPrefix hc.part (min_le_right _ _)]
      exact List.take_prefix_take_left (min_le_left _ _)
  set synced := (node.learnCommit request.leaderCommit X.length).observeSync request.term
    request.syncIndex with hsynced
  have hsync : Member.Mirrors base a₁ ⟨synced, m.folded⟩ :=
    hlearn.observeSync request.term request.syncIndex
  have hsyncCore : synced.core = { node.core with commitIndex := synced.commitIndex } := by
    have hcommit' : synced.commitIndex =
        (node.learnCommit request.leaderCommit X.length).commitIndex :=
      congrArg RaftNode.Core.commitIndex (RaftNode.observeSync_core _ _ _)
    rw [hcommit', hsynced, RaftNode.observeSync_core, RaftNode.learnCommit_core]
  have hsyncLog : synced.log = node.log := congrArg RaftNode.Core.log hsyncCore
  have hsyncTerm : synced.currentTerm = m.node.currentTerm :=
    (congrArg RaftNode.Core.currentTerm hsyncCore).trans hterm₁
  have hsyncRole : synced.role = .follower :=
    ((congrArg RaftNode.Core.role hsyncCore).trans hrole₁).trans hrole
  have hsyncId : synced.id = m.node.id := (congrArg RaftNode.Core.id hsyncCore).trans hid
  have hsyncWhole : Member.whole ⟨synced, m.folded⟩ = Member.whole ⟨node, m.folded⟩ := by
    rw [Member.whole, Member.whole, hsyncLog]
  have hf₁ : Follows base a m ⟨synced, m.folded⟩ a₁ := ⟨hf.1, hf.2.1, hsyncId, hsync⟩
  -- what the window continues, and the log's end
  obtain ⟨a₂, hf₂, hterm₂, hgrows, htail₂⟩ := hsync.absorbWithin hs₁ hsyncRole
    (by dsimp only; rw [hsyncTerm]; exact hr₁) (by rw [hsyncWhole]; exact htail) synced.window.size
  have habsorb : synced.absorbWithin synced.currentTerm synced.window.size =
      synced.absorb request.term := by rw [RaftNode.absorb, hsyncTerm, hterm]
  dsimp only at hf₂ hterm₂ hgrows htail₂
  rw [habsorb] at hf₂ hterm₂ hgrows htail₂
  have hf₂' := hf₁.trans hf₂
  have hpruned := hf₂'.2.2.2.pruneCommitted
  have hr₂ : a₂.lead (synced.absorb request.term).currentTerm = some r := by
    rw [hf₂.2.1, hterm₂, hsyncTerm]
    exact hr₁
  have hindex : max (synced.absorb request.term).lastLogIndex X.length =
      (Member.whole ⟨synced.absorb request.term, m.folded⟩).length := by
    have hlast := hf₂'.2.2.2.kept.lastLogIndex_eq
    dsimp only at hlast
    rw [hlast]
    rw [hsyncWhole] at hgrows
    exact max_eq_left (hX.length_le.trans hgrows.length_le)
  rw [hindex]
  obtain ⟨a₃, hf₃, hack⟩ := hpruned.acknowledge (r := r) hr₂ htail₂.length_le
    (by
      rw [Consensus.take_eq_of_isPrefix htail₂ le_rfl, List.take_length]
      exact List.prefix_rfl)
  refine ⟨a₃, (hf₂'.trans (.of_mirrors hpruned rfl)).trans hf₃, fun _ => ?_⟩
  rw [← hc.node]
  exact hack

end Member.Mirrors

/-! ## An append at a follower -/

namespace RaftNode

theorem observeTerm_currentTerm (node : RaftNode) (t : Nat) :
    (node.observeTerm t).currentTerm = max node.currentTerm t := by
  unfold observeTerm
  split_ifs with h
  · exact (max_eq_right h.le).symm
  · exact (max_eq_left (not_lt.mp h)).symm

theorem observeTerm_kept (node : RaftNode) (t : Nat) :
    (node.observeTerm t).log = node.log ∧
      (node.observeTerm t).snapshotIndex = node.snapshotIndex ∧
      (node.observeTerm t).snapshotTerm = node.snapshotTerm ∧
      (node.observeTerm t).commitIndex = node.commitIndex ∧
      (node.observeTerm t).windowBudget = node.windowBudget ∧
      (node.observeTerm t).syncedTerm = node.syncedTerm := by
  unfold observeTerm
  split_ifs <;> exact ⟨rfl, rfl, rfl, rfl, rfl, rfl⟩

theorem hearLeader_entryTerm (node : RaftNode) (heard : AppendEntries) (index : Nat) :
    (node.hearLeader heard).entryTerm index = node.entryTerm index := by
  obtain ⟨hlog, hindex, hterm, -⟩ := node.observeTerm_kept heard.term
  change (node.observeTerm heard.term).entryTerm index = _
  rw [entryTerm, entryTerm, entryAt, entryAt, position, position, hlog, hindex, hterm]

variable {node : RaftNode} {request : AppendEntries}

theorem EndsBy.reanchored (h : node.EndsBy request)
    (hinside : request.prevLogIndex < node.commitIndex)
    (hpast : node.commitIndex < request.prevLogIndex + request.entries.length) (prevLogTerm : Nat) :
    node.EndsBy { request with
      entries := request.entries.drop (node.commitIndex - request.prevLogIndex)
      prevLogIndex := node.commitIndex
      prevLogTerm } := by
  refine h.imp (fun hlast => ?_) (.imp_right fun hreplaces => ?_)
  · dsimp only
    rw [List.length_drop]
    omega
  · obtain ⟨k, e, he, hle, hconflict⟩ := replaces_iff.mp hreplaces
    obtain ⟨j, rfl⟩ := Nat.exists_eq_add_of_le (Nat.sub_le_iff_le_add'.mpr hle)
    rw [← Nat.add_assoc, Nat.add_sub_cancel' hinside.le] at hconflict
    refine replaces_iff.mpr ⟨j, e, ?_, Nat.le_add_right _ _, hconflict⟩
    exact List.getElem?_drop.trans he

theorem EndsBy.hearLeader (h : node.EndsBy request) (heard : AppendEntries) :
    (node.hearLeader heard).EndsBy request := by
  obtain ⟨hlog, hindex, hterm, hcommit, -⟩ := node.observeTerm_kept heard.term
  have hlast : (node.hearLeader heard).lastLogIndex = node.lastLogIndex := by
    change (node.observeTerm heard.term).lastLogIndex = _
    rw [lastLogIndex, lastLogIndex, hlog, hindex]
  have hlastTerm : (node.hearLeader heard).lastLogTerm = node.lastLogTerm := by
    change (node.observeTerm heard.term).lastLogTerm = _
    rw [lastLogTerm, lastLogTerm, hlog, hterm]
  rw [EndsBy, hlast, hlastTerm]
  refine h.imp_right (.imp_right ?_)
  rintro ⟨placed, hmem, hle, hconflict⟩
  refine ⟨placed, hmem, hcommit.le.trans hle, ?_⟩
  rwa [hearLeader_entryTerm]

theorem BuffersPlain.hearLeader (h : node.BuffersPlain request) (heard : AppendEntries) :
    (node.hearLeader heard).BuffersPlain request := by
  obtain ⟨-, -, -, -, hbudget, hsynced⟩ := node.observeTerm_kept heard.term
  change (node.observeTerm heard.term).BuffersPlain request
  rw [BuffersPlain, hbudget, hsynced]
  exact h

theorem positionAgrees_of_admitAppend {u : Unit} (h : node.admitAppend request = .ok u) :
    positionAgrees request.prevLogIndex request.prevLogTerm := by
  rw [admitAppend] at h
  by_contra hno
  rw [Bool.not_eq_true] at hno
  rw [hno] at h
  split_ifs at h with hterm hposition <;> exact hposition (.inr rfl)

/-- The append does not match where it starts. -/
def Mismatches (node : RaftNode) (request : AppendEntries) : Prop :=
  node.commitIndex ≤ request.prevLogIndex ∧ 0 < request.prevLogIndex ∧
    node.entryTerm request.prevLogIndex ≠ some request.prevLogTerm

instance (node : RaftNode) (request : AppendEntries) : Decidable (node.Mismatches request) :=
  inferInstanceAs (Decidable (_ ∧ _))

/-- The append leaves no entry of an older leader past its end, or ends within what the node has
committed, or is refused. -/
def Reached (node : RaftNode) (request : AppendEntries) : Prop :=
  request.term < node.currentTerm ∨ node.EndsBy request ∨
    (request.prevLogIndex < node.commitIndex ∧
      request.prevLogIndex + request.entries.length ≤ node.commitIndex) ∨
    node.Mismatches request

instance (node : RaftNode) (request : AppendEntries) : Decidable (node.Reached request) :=
  inferInstanceAs (Decidable (_ ∨ _))

def KeepsPlain (node : RaftNode) (request : AppendEntries) : Prop :=
  node.Mismatches request → node.BuffersPlain request

instance (node : RaftNode) (request : AppendEntries) : Decidable (node.KeepsPlain request) :=
  inferInstanceAs (Decidable (_ → _))

end RaftNode

namespace Member

namespace Mirrors

variable {request : AppendEntries}

theorem hearLeader (h : m.Mirrors base a) (request : AppendEntries) :
    ∃ a', Follows base a m ⟨m.node.hearLeader request, m.folded⟩ a' := by
  obtain ⟨a', hf⟩ := h.recognizeLeader request.term
  have hm := hf.2.2.2
  refine ⟨a', hf.1, hf.2.1, hf.2.2.1, ?_⟩
  exact
    { hm with
      kept := { hm.kept with }
      plain := { hm.plain with } }

theorem reanchored (h : m.Mirrors base a) (hs : Sound (scheme base) a)
    (hterm : m.node.currentTerm = request.term) {r : Consensus.Reign HostId LogEntry}
    {X : List LogEntry} (hc : request.Carries a r X)
    (hinside : request.prevLogIndex < m.node.commitIndex)
    (hpast : m.node.commitIndex < request.prevLogIndex + request.entries.length) :
    AppendEntries.Carries a
      { request with
        entries := request.entries.drop (m.node.commitIndex - request.prevLogIndex)
        prevLogIndex := m.node.commitIndex
        prevLogTerm := (m.node.entryTerm m.node.commitIndex).getD 0 } r X := by
  have hlen := hc.length
  refine ⟨hc.lead, hc.node, hc.part, ?_, ?_, fun hpos => ?_, hc.commit_le, hc.commit, hc.bound⟩
  · dsimp only
    rw [List.length_drop]
    omega
  · dsimp only
    rw [← hc.entries, List.drop_drop]
    congr 1
    omega
  · dsimp only at hpos ⊢
    -- the leader has what the node has committed
    have hheld := hs.fixed_lead h.commit hterm.le hc.lead
    have hlt : m.node.commitIndex - 1 < m.whole.length := by
      have := h.kept.commit_le
      omega
    have hentry : X[m.node.commitIndex - 1]? = some (m.whole.get ⟨_, hlt⟩) := by
      have hr : r.log[m.node.commitIndex - 1]? = some (m.whole.get ⟨_, hlt⟩) := by
        refine Consensus.getElem?_of_isPrefix hheld ?_
        rw [List.getElem?_take_of_lt (by omega)]
        exact List.getElem?_eq_getElem hlt
      obtain ⟨ys, hys⟩ := hc.part
      rwa [← hys, List.getElem?_append_left (by omega)] at hr
    rw [hentry, h.kept.entryTerm_eq h.kept.snapshot_le hpos, List.getElem?_eq_getElem hlt]
    rfl

theorem refuses (h : m.Mirrors base a) (leader : HostId) {reply : AppendReply}
    (hreply : reply.success = false) : Answers base a m leader (m.node, reply) :=
  ⟨a, .of_mirrors h rfl, fun hsuccess => absurd hsuccess (by simp [hreply])⟩

theorem onAppendEntries (h : m.Mirrors base a) (hs : Sound (scheme base) a)
    (hsent : Message.Sent base a (.append request)) (hreached : m.node.Reached request)
    (hplain : m.node.KeepsPlain request) :
    Answers base a m request.leader (m.node.onAppendEntries request) := by
  unfold RaftNode.onAppendEntries
  cases hadmits : m.node.admitAppend request with
  | error => exact h.refuses _ rfl
  | ok =>
    dsimp only
    by_cases hold : request.term < m.node.currentTerm
    · rw [if_pos hold]
      exact h.refuses _ rfl
    rw [if_neg hold]
    have hpos := RaftNode.positionAgrees_of_admitAppend hadmits
    rcases hsent with ⟨hprev, hzero⟩ | ⟨r, X, hc⟩
    · -- a place past the leader's log has no term, and is refused
      simp [positionAgrees, hprev.ne', hzero] at hpos
    obtain ⟨a₁, hf⟩ := h.hearLeader request
    have hm₁ := hf.2.2.2
    have hs₁ := hf.1.sound hs
    have hc₁ := hc.grows hf.1.grows hf.2.1
    have hterm : (m.node.hearLeader request).currentTerm = request.term := by
      change (m.node.observeTerm request.term).currentTerm = _
      rw [RaftNode.observeTerm_currentTerm, max_eq_right (not_lt.mp hold)]
    have hcommit : (m.node.hearLeader request).commitIndex = m.node.commitIndex :=
      (m.node.observeTerm_kept request.term).2.2.2.1
    refine Answers.after ?_ hf
    rw [hcommit]
    by_cases hinside : request.prevLogIndex < m.node.commitIndex
    swap
    · rw [if_neg hinside]
      refine hm₁.takeEntries hs₁ rfl hterm hc₁ (by dsimp only; omega) (fun hmatches => ?_)
        fun hpos hconflict => (hplain ⟨not_lt.mp hinside, hpos,
          m.node.hearLeader_entryTerm request _ ▸ hconflict⟩).hearLeader request
      rcases hreached with hlt | hends | hcovered | ⟨-, hpos, hconflict⟩
      · exact absurd hlt hold
      · exact hends.hearLeader request
      · exact absurd hcovered.1 hinside
      · exact absurd ((m.node.hearLeader_entryTerm request _).symm.trans (hmatches hpos)) hconflict
    rw [if_pos hinside]
    by_cases hcovered : request.entries.length ≤ m.node.commitIndex - request.prevLogIndex
    · rw [if_pos hcovered]
      have hr₁ : a₁.lead (m.node.hearLeader request).currentTerm = some r := by
        rw [hterm]
        exact hc₁.lead
      obtain ⟨a₂, hf₂, hack⟩ := hm₁.acknowledgeCommit hs₁ hr₁
      rw [hc.node] at hack
      dsimp only at hack
      rw [hcommit] at hack
      exact ⟨a₂, hf₂, fun _ => hack⟩
    · rw [if_neg hcovered]
      have hpast : m.node.commitIndex < request.prevLogIndex + request.entries.length := by omega
      have hends : m.node.EndsBy request := by
        rcases hreached with hlt | hends | hcovered | hconflict
        · exact absurd hlt hold
        · exact hends
        · omega
        · exact absurd hconflict.1 (by omega)
      have hc₂ := hm₁.reanchored hs₁ hterm hc₁ (by rw [hcommit]; exact hinside)
        (by rw [hcommit]; exact hpast)
      dsimp only at hc₂
      rw [hcommit] at hc₂
      refine hm₁.takeEntries hs₁ rfl hterm hc₂ hcommit.le
        (fun _ => (hends.reanchored hinside hpast _).hearLeader request) ?_
      -- the node's own entry at its commit index is no conflict
      intro hpos hconflict
      dsimp only at hpos hconflict
      have hsnapshot := hm₁.kept.snapshot_le
      have hcommit_le := hm₁.kept.commit_le
      dsimp only at hsnapshot hcommit_le
      rw [hcommit] at hsnapshot hcommit_le
      rw [hm₁.kept.entryTerm_eq hsnapshot hpos,
        List.getElem?_eq_getElem (by omega)] at hconflict
      exact absurd rfl hconflict

theorem receive_append (h : m.Mirrors base a) (hs : Sound (scheme base) a)
    (hsent : Message.Sent base a (.append request)) (hreached : m.node.Reached request)
    (hplain : m.node.KeepsPlain request) : Handles base a m (m.receive (.append request)) := by
  obtain ⟨a', hf, hack⟩ := h.onAppendEntries hs hsent hreached hplain
  have hbecomes := becomes_of_kept hf.2.2.2.kept
  change Handles base a m (m.becomes (m.node.onAppendEntries request).1,
    [.appendReply request.leader (m.node.onAppendEntries request).2
      (m.becomes (m.node.onAppendEntries request).1).whole])
  rw [hbecomes]
  refine hf.goes.handles fun message hmem => ?_
  obtain rfl := List.mem_singleton.mp hmem
  exact hack

end Mirrors

end Member

end Slates.Raft
