import Slates.Raft.Boundary
import Slates.Raft.Safety

/-!
A recorded match is a real match: what a leader records of a follower's reply, the follower held
when it sent it.
-/

open Std (ExtTreeMap)

namespace Slates.Raft

open Register (HostId)

/-! ## What a reply reports -/

namespace RaftNode

def Verifies (node : RaftNode) (request : AppendEntries) : Prop :=
  request.term < node.currentTerm ∨
    node.lastLogIndex ≤ request.prevLogIndex + request.entries.length ∨
    node.Replaces request ∨ node.Mismatches request

instance (node : RaftNode) (request : AppendEntries) : Decidable (node.Verifies request) :=
  inferInstanceAs (Decidable (_ ∨ _))

variable {node placed : RaftNode} {request : AppendEntries} {index : Nat}

theorem Verifies.reached (h : node.Verifies request) : node.Reached request := by
  rcases h with hold | hshort | hreplaces | hmismatch
  · exact .inl hold
  · exact .inr (.inl (.inl hshort))
  · exact .inr (.inl (.inr (.inr hreplaces)))
  · exact .inr (.inr (.inr hmismatch))

theorem pushEntry_last {entry : LogEntry} {fits : Bool}
    (h : node.pushEntry entry = (placed, fits)) :
    placed.snapshotIndex = node.snapshotIndex ∧ placed.lastLogIndex ≤ node.lastLogIndex + 1 := by
  rw [pushEntry_eq] at h
  split_ifs at h
  · obtain ⟨rfl, -⟩ := Prod.mk.inj h
    exact ⟨rfl, (pushed_lastLogIndex node entry).le⟩
  · obtain ⟨rfl, -⟩ := Prod.mk.inj h
    exact ⟨rfl, Nat.le_succ _⟩

theorem placeEntry_last {entry : LogEntry} {fits : Bool} (hindex : node.snapshotIndex ≤ index)
    (h : node.placeEntry (index + 1) entry = (placed, fits)) :
    placed.snapshotIndex = node.snapshotIndex ∧
      (placed = node ∧ fits = true ∧ node.entryTerm (index + 1) = some entry.term ∨
        placed.lastLogIndex ≤ index + 1) := by
  rw [placeEntry] at h
  cases hterm : node.entryTerm (index + 1) with
  | none =>
    rw [hterm] at h
    obtain ⟨hsnapshot, hlast⟩ := pushEntry_last h
    have hle : node.lastLogIndex ≤ index := lastLogIndex_of_entryTerm_none hindex hterm
    exact ⟨hsnapshot, .inr (hlast.trans (Nat.succ_le_succ hle))⟩
  | some term =>
    rw [hterm] at h
    dsimp only at h
    split_ifs at h with heq
    · obtain ⟨rfl, rfl⟩ := Prod.mk.inj h
      exact ⟨rfl, .inl ⟨rfl, rfl, congrArg some heq⟩⟩
    · obtain ⟨hsnapshot, hlast⟩ := pushEntry_last h
      refine ⟨hsnapshot, .inr (hlast.trans (Nat.succ_le_succ ?_))⟩
      rw [lastLogIndex, truncateFrom, List.length_take]
      dsimp only
      omega

theorem placeAll_last {entries : List LogEntry} (hindex : node.snapshotIndex ≤ index)
    (h : node.lastLogIndex ≤ index + entries.length ∨
      ∃ k e, entries[k]? = some e ∧ node.entryTerm (index + k + 1) ≠ some e.term) :
    (node.placeAll index entries).1.lastLogIndex ≤ index + entries.length ∧
      (node.placeAll index entries).2 ≤ index + entries.length := by
  induction entries generalizing node index with
  | nil =>
    rcases h with hlast | ⟨k, e, he, -⟩
    · exact ⟨hlast, le_rfl⟩
    · cases he
  | cons entry entries ih =>
    have hlength : index + (entry :: entries).length = index + 1 + entries.length := by
      rw [List.length_cons]
      omega
    rw [hlength] at h ⊢
    rw [placeAll]
    cases hplaced : node.placeEntry (index + 1) entry with
    | mk placed fits =>
      obtain ⟨hsnapshot, ⟨rfl, rfl, hsame⟩ | hlast⟩ := placeEntry_last hindex hplaced
      · -- it was there: what it is to replace comes later
        refine ih (by omega) (h.imp_right ?_)
        rintro ⟨k, e, he, hconflict⟩
        cases k with
        | zero =>
          obtain rfl := Option.some.inj he
          exact absurd hsame hconflict
        | succ k => exact ⟨k, e, he, by rwa [Nat.add_right_comm index 1 k]⟩
      · cases fits with
        | true => exact ih (by omega) (.inl (by omega))
        | false => exact ⟨by dsimp only; omega, by dsimp only; omega⟩

theorem mem_window_of_absorbWithin (term fuel : Nat) (node : RaftNode)
    (hlast : node.lastLogIndex < index)
    (hindex : index ≤ (absorbWithin term fuel node).lastLogIndex) : index ∈ node.window := by
  induction fuel generalizing node with
  | zero => exact absurd hlast (not_lt.mpr hindex)
  | succ fuel ih =>
    rw [absorbWithin] at hindex
    cases hslot : node.window[satSucc node.lastLogIndex]? with
    | none =>
      rw [hslot] at hindex
      exact absurd hlast (not_lt.mpr hindex)
    | some slot =>
      rw [hslot] at hindex
      dsimp only at hindex
      split_ifs at hindex with hskip
      · exact absurd hlast (not_lt.mpr hindex)
      rw [pushEntry_eq] at hindex
      split_ifs at hindex with hroom
      swap
      · exact absurd hlast (not_lt.mpr hindex)
      rcases (Nat.succ_le_of_lt hlast).eq_or_lt with heq | hlt
      · rw [ExtTreeMap.mem_iff_isSome_getElem?, ← heq,
          show node.lastLogIndex.succ = satSucc node.lastLogIndex by rw [satSucc]; omega, hslot]
        rfl
      · exact ih { node.pushed slot.entry with retentionPending := true } (by
          change (node.pushed slot.entry).lastLogIndex < index
          rw [pushed_lastLogIndex]
          exact hlt) hindex

theorem edits_window : Edits (fun node node' => node'.window = node.window) where
  trans h h' := h'.trans h
  pushed _ := rfl
  truncate _ := rfl
  noted _ _ _ := rfl

theorem takeEntries_reports (hanchor : node.snapshotIndex ≤ request.prevLogIndex)
    (h : (0 < request.prevLogIndex →
        node.entryTerm request.prevLogIndex = some request.prevLogTerm) →
      node.lastLogIndex ≤ request.prevLogIndex + request.entries.length ∨
      ∃ k e, request.entries[k]? = some e ∧
        node.entryTerm (request.prevLogIndex + k + 1) ≠ some e.term)
    (hsuccess : (node.takeEntries request).2.success)
    (hpast : request.prevLogIndex + request.entries.length < index)
    (hindex : index ≤ (node.takeEntries request).2.matchIndex) : index ∈ node.window := by
  rw [takeEntries] at hsuccess hindex
  split_ifs at hsuccess hindex with hconflict hover
  · dsimp only at hsuccess
    rw [conflictReply_success] at hsuccess
    cases hsuccess
  · cases hsuccess
  · push Not at hconflict
    obtain ⟨hlast, hend⟩ := placeAll_last hanchor (h hconflict)
    have hplaced : (node.placeAll request.prevLogIndex request.entries).1.window = node.window :=
      edits_window.placeAll request.prevLogIndex request.entries
    rw [← hplaced]
    generalize node.placeAll request.prevLogIndex request.entries = placed at hlast hend hindex ⊢
    obtain ⟨placed, last⟩ := placed
    dsimp only at hlast hend hindex ⊢
    have hsynced := ((placed.learnCommit request.leaderCommit last).observeSync_core request.term
      request.syncIndex).trans (placed.learnCommit_core request.leaderCommit last)
    generalize (placed.learnCommit request.leaderCommit last).observeSync request.term
      request.syncIndex = synced at hsynced hindex
    have hwindow : synced.window = placed.window := congrArg Core.window hsynced
    have hlog : synced.log = placed.log := congrArg Core.log hsynced
    have hsnapshot : synced.snapshotIndex = placed.snapshotIndex :=
      congrArg Core.snapshotIndex hsynced
    rw [← hwindow]
    have hindex : index ≤ max (synced.absorb request.term).lastLogIndex last := hindex
    refine mem_window_of_absorbWithin request.term synced.window.size synced ?_ ?_
    · rw [lastLogIndex, hlog, hsnapshot]
      rw [lastLogIndex] at hlast
      omega
    · rw [absorb] at hindex
      omega

theorem onAppendEntries_reports (hsnapshot : node.snapshotIndex ≤ node.commitIndex)
    (hcommit : node.commitIndex ≤ node.lastLogIndex) (hverifies : node.Verifies request)
    (hsuccess : (node.onAppendEntries request).2.success)
    (hpast : request.prevLogIndex + request.entries.length < index)
    (hindex : index ≤ (node.onAppendEntries request).2.matchIndex) : index ∈ node.window := by
  rw [onAppendEntries] at hsuccess hindex
  cases hadmits : node.admitAppend request with
  | error _ =>
    rw [hadmits] at hsuccess
    cases hsuccess
  | ok _ =>
    rw [hadmits] at hsuccess hindex
    dsimp only at hsuccess hindex
    by_cases hold : request.term < node.currentTerm
    · rw [if_pos hold] at hsuccess
      cases hsuccess
    rw [if_neg hold] at hsuccess hindex
    obtain ⟨hlog, hsnap, -, hcom, -⟩ := node.observeTerm_kept request.term
    have hwindow : (node.hearLeader request).window = node.window := by
      change (node.observeTerm request.term).window = node.window
      unfold observeTerm
      split_ifs <;> rfl
    have hlast : (node.hearLeader request).lastLogIndex = node.lastLogIndex := by
      change (node.observeTerm request.term).lastLogIndex = _
      rw [lastLogIndex, lastLogIndex, hlog, hsnap]
    have hheard : (node.hearLeader request).commitIndex = node.commitIndex := hcom
    have hheardSnapshot : (node.hearLeader request).snapshotIndex = node.snapshotIndex := hsnap
    have hentry := node.hearLeader_entryTerm request
    rw [← hwindow]
    generalize node.hearLeader request = heard at *
    rw [hheard] at hsuccess hindex
    by_cases hinside : request.prevLogIndex < node.commitIndex
    swap
    · rw [if_neg hinside] at hsuccess hindex
      refine takeEntries_reports (by omega) (fun hmatches => ?_) hsuccess hpast hindex
      rcases hverifies with hlt | hshort | hreplaces | ⟨-, hpos, hconflict⟩
      · exact absurd hlt hold
      · exact .inl (hlast.le.trans hshort)
      · obtain ⟨k, e, he, -, hconflict⟩ := replaces_iff.mp hreplaces
        exact .inr ⟨k, e, he, by rwa [hentry]⟩
      · exact absurd ((hentry _).symm.trans (hmatches hpos)) hconflict
    rw [if_pos hinside] at hsuccess hindex
    by_cases hcovered : request.entries.length ≤ node.commitIndex - request.prevLogIndex
    · rw [if_pos hcovered] at hindex
      have hindex : index ≤ node.commitIndex := hindex
      rcases hverifies with hlt | hshort | hreplaces | ⟨hanchor, -⟩
      · exact absurd hlt hold
      · omega
      · obtain ⟨k, e, he, hle, -⟩ := replaces_iff.mp hreplaces
        have := (List.getElem?_eq_some_iff.mp he).1
        omega
      · omega
    · rw [if_neg hcovered] at hsuccess hindex
      have hlength : node.commitIndex +
          (request.entries.drop (node.commitIndex - request.prevLogIndex)).length =
          request.prevLogIndex + request.entries.length := by
        rw [List.length_drop]
        omega
      refine takeEntries_reports ?_ (fun _ => ?_) hsuccess (hlength.le.trans_lt hpast) hindex
      · dsimp only
        omega
      dsimp only
      rcases hverifies with hlt | hshort | hreplaces | ⟨hanchor, -⟩
      · exact absurd hlt hold
      · exact .inl ((hlast.le.trans hshort).trans hlength.ge)
      · obtain ⟨k, e, he, hle, hconflict⟩ := replaces_iff.mp hreplaces
        have hk : request.prevLogIndex + k =
            node.commitIndex + (k - (node.commitIndex - request.prevLogIndex)) := by omega
        refine .inr ⟨k - (node.commitIndex - request.prevLogIndex), e, ?_, ?_⟩
        · rw [List.getElem?_drop, Nat.add_sub_cancel' (by omega)]
          exact he
        · rwa [hentry, ← hk]
      · omega

end RaftNode

/-! ## What a leader records -/

/-- Who answered an append or a snapshot, and what it then held. -/
def Message.answer? : Message → Option (HostId × List LogEntry)
  | .appendReply _ reply held => some (reply.follower, held)
  | .snapshotReply _ reply held => some (reply.follower, held)
  | _ => none

namespace Member

def RecordsReal (m : Member) (message : Message) : Prop :=
  ∀ answer ∈ message.answer?, answer.1 ≠ m.node.id →
    ∀ k ∈ (m.receive message).1.node.matchIndex[answer.1]?,
      m.node.matchIndex[answer.1]? ≠ some k →
        k ≤ answer.2.length ∧ answer.2.take k = m.whole.take k

instance (m : Member) (message : Message) : Decidable (m.RecordsReal message) :=
  inferInstanceAs (Decidable (∀ answer ∈ message.answer?, _ → ∀ k ∈ _, _))

def ReportsVerified (m : Member) (message : Message) : Prop :=
  ∀ request ∈ message.append?, (m.node.onAppendEntries request).2.success →
    ∀ index ∈ List.range ((m.node.onAppendEntries request).2.matchIndex + 1),
      request.prevLogIndex + request.entries.length < index → index ∈ m.node.window

instance (m : Member) (message : Message) : Decidable (m.ReportsVerified message) :=
  inferInstanceAs (Decidable (∀ request ∈ message.append?, _ → ∀ index ∈ List.range _, _))

end Member

def Cluster.RealMatch (cluster : Cluster) : Action → Prop
  | .deliver host place => ∀ m ∈ cluster.members[host]?, ∀ message ∈ cluster.network[place]?,
      m.RecordsReal message ∧ m.ReportsVerified message
  | _ => True

instance (cluster : Cluster) (action : Action) : Decidable (cluster.RealMatch action) := by
  induction action using Action.casesOn with
  | deliver host place =>
    dsimp only [Cluster.RealMatch]
    infer_instance
  | _ => exact .isTrue trivial

namespace RaftNode

theorem advanceLeaderCommit_matchIndex (node : RaftNode) :
    node.advanceLeaderCommit.matchIndex = node.matchIndex := by
  rw [advanceLeaderCommit]
  split_ifs
  · rfl
  · unfold stepDownIfRemoved commitHeld
    split_ifs <;> rfl

variable {node : RaftNode}

theorem counted_matchIndex {follower : HostId} {index k : Nat} (hne : follower ≠ node.id)
    (hk : (node.recordMatch follower index).advanceLeaderCommit.matchIndex[follower]? = some k)
    (hnew : node.matchIndex[follower]? ≠ some k) : k = index := by
  rw [advanceLeaderCommit_matchIndex, recordMatch, getElem?_insert_if, if_pos rfl, matchOf,
    if_neg hne] at hk
  have hk := (Option.some.inj hk).symm
  cases hold : node.matchIndex[follower]? with
  | none => rw [hk, hold, Option.getD_none, Nat.zero_max]
  | some old =>
    rw [hold, Option.getD_some] at hk
    have hne : k ≠ old := fun heq => hnew (hold.trans (congrArg some heq.symm))
    omega

theorem onAppendReply_matchIndex {reply : AppendReply} {k : Nat} (hne : reply.follower ≠ node.id)
    (hk : (node.onAppendReply reply).matchIndex[reply.follower]? = some k)
    (hnew : node.matchIndex[reply.follower]? ≠ some k) :
    node.role = .leader ∧ reply.term = node.currentTerm ∧ reply.success ∧
      reply.matchIndex ≤ node.lastLogIndex ∧ k = reply.matchIndex := by
  rw [onAppendReply] at hk
  dsimp only at hk
  split_ifs at hk with hlater hother hfailed hbeyond
  · exact absurd hk hnew
  · exact absurd hk hnew
  · rw [backUp] at hk
    split at hk <;> exact absurd hk hnew
  · exact absurd hk hnew
  · push Not at hother
    exact ⟨hother.1, hother.2, by simpa using hfailed, not_lt.mp hbeyond,
      counted_matchIndex (by exact hne) hk (by exact hnew)⟩

theorem onInstallSnapshotReply_matchIndex {reply : InstallSnapshotReply} {k : Nat}
    (hne : reply.follower ≠ node.id)
    (hk : (node.onInstallSnapshotReply reply).matchIndex[reply.follower]? = some k)
    (hnew : node.matchIndex[reply.follower]? ≠ some k) :
    node.role = .leader ∧ reply.term = node.currentTerm ∧ 0 < reply.matchIndex ∧
      reply.matchIndex ≤ node.lastLogIndex ∧ k = reply.matchIndex := by
  rw [onInstallSnapshotReply] at hk
  dsimp only at hk
  split_ifs at hk with hlater hother hpos
  · exact absurd hk hnew
  · exact absurd hk hnew
  · push Not at hother
    exact ⟨hother.1, hother.2.1, hpos, hother.2.2,
      counted_matchIndex (by exact hne) hk (by exact hnew)⟩
  · exact absurd hk hnew

end RaftNode

section Mirrored

variable {base : VoterConfig} {a : Account} {m : Member}

theorem Member.Mirrors.real (h : m.Mirrors base a) (hrole : m.node.role = .leader)
    {receiver follower : HostId} {term index : Nat} {held : List LogEntry}
    (hterm : term = m.node.currentTerm)
    (hacknowledged : Acknowledged a receiver follower term index held)
    (hle : index ≤ m.node.lastLogIndex) :
    index ≤ held.length ∧ held.take index = m.whole.take index := by
  obtain ⟨r, hr, -, -, -, hheld⟩ := hacknowledged
  obtain ⟨q, hq, -, hlog⟩ := h.leads hrole
  rw [hterm] at hr
  rw [Option.some.inj (hr.symm.trans hq), hlog] at hheld
  have hlength : (m.whole.take index).length = index :=
    List.length_take_of_le (hle.trans h.kept.lastLogIndex_eq.le)
  refine ⟨hlength ▸ hheld.length_le, ?_⟩
  rw [Consensus.take_eq_of_isPrefix hheld hlength.ge, List.take_of_length_le hlength.le]

theorem Member.Mirrors.recordsReal (h : m.Mirrors base a) {message : Message}
    (hsent : message.Sent base a) : m.RecordsReal message := by
  intro answer hanswer hne k hk hnew
  cases message with
  | appendReply receiver reply held =>
    obtain rfl := Option.some.inj hanswer
    rw [Member.receive] at hk
    split_ifs at hk
    · obtain ⟨hrole, hterm, hsuccess, hle, rfl⟩ := RaftNode.onAppendReply_matchIndex hne hk hnew
      exact h.real hrole hterm (hsent hsuccess) hle
    · exact absurd hk hnew
  | snapshotReply receiver reply held =>
    obtain rfl := Option.some.inj hanswer
    rw [Member.receive] at hk
    split_ifs at hk
    · obtain ⟨hrole, hterm, hpos, hle, rfl⟩ :=
        RaftNode.onInstallSnapshotReply_matchIndex hne hk hnew
      exact h.real hrole hterm (hsent hpos) hle
    · exact absurd hk hnew
  | _ => cases hanswer

theorem Member.Mirrors.reportsVerified (h : m.Mirrors base a) {message : Message}
    (hverifies : ∀ request ∈ message.append?, m.node.Verifies request) :
    m.ReportsVerified message := by
  intro request hrequest hsuccess index hindex hpast
  refine RaftNode.onAppendEntries_reports h.kept.snapshot_le ?_ (hverifies request hrequest)
    hsuccess hpast (Nat.lt_succ_iff.mp (List.mem_range.mp hindex))
  rw [h.kept.lastLogIndex_eq]
  exact h.kept.commit_le

end Mirrored

/-- **A recorded match is a real match**, in every careful run in which each append a follower takes
ends where its log then ends. -/
theorem recorded_matches_real {hosts voters : List HostId} {actions : List Action}
    (hcareful : Runs.Meets Cluster.step (Cluster.Careful RaftNode.Verifies)
      (Cluster.formed hosts voters) actions) :
    Runs.Meets Cluster.step Cluster.RealMatch (Cluster.formed hosts voters) actions := by
  have hreached : Runs.Meets Cluster.step (Cluster.Careful RaftNode.Reached)
      (Cluster.formed hosts voters) actions :=
    hcareful.mono fun _ _ hc => hc.mono RaftNode.Verifies.reached
  refine Runs.meets_iff_getElem?.mpr fun n action haction => ?_
  have hok := Runs.meets_iff_getElem?.mp hcareful n action haction
  obtain ⟨a, -, hm⟩ := (Cluster.formed_mirrors hosts voters).run (hreached.take n)
  cases action with
  | deliver host place =>
    intro m hmember message hmessage
    obtain ⟨-, hmirrors⟩ := hm.member hmember
    refine ⟨hmirrors.recordsReal (hm.sent message (List.mem_of_getElem? hmessage)),
      hmirrors.reportsVerified fun request hrequest => ?_⟩
    refine (hok m hmember request ?_).1
    exact Option.bind_eq_some_iff.mpr ⟨message, hmessage, hrequest⟩
  | _ => trivial

theorem recorded_matches_real_oneCommand :
    Runs.Meets Cluster.step Cluster.RealMatch (Cluster.formed [1, 2, 3] [1, 2, 3]) oneCommand ∧
      ∃ m ∈ ((Cluster.formed [1, 2, 3] [1, 2, 3]).run oneCommand).members[(1 : HostId)]?,
        m.node.matchIndex[(2 : HostId)]? = some 1 :=
  ⟨recorded_matches_real (by decide +kernel), by decide +kernel⟩

/-- Node 2 appends as far as the stale reply says, and takes it. -/
theorem stale_match_recorded :
    ¬ Runs.Meets Cluster.step Cluster.RealMatch (Cluster.formed [1, 2, 3] [1, 2, 3])
      ((staleTail ++ [.appendCommand 2 [12], .appendCommand 2 [13]]) ++ [.deliver 2 7]) := by
  intro hreal
  have hlast := (Runs.meets_append.mp hreal).2.1
  exact absurd hlast (by decide +kernel)

end Slates.Raft
