import Slates.Raft.Leading

/-!
Elections beside the abstract run: a candidate stands with its log, the votes it counts are ballots,
and a majority makes it the leader of its term, with nothing matched.
-/

namespace Slates.Raft

open Register (HostId HostMap checkedSucc)
open Consensus.State (Moves Sound Grows)

variable {base : VoterConfig} {a a' : Account} {m m' : Member}

/-! ## Recovery -/

/-- What a recovery has decided are commands. -/
def Recovery.Plain (recovery : Recovery) : Prop :=
  ∀ {i : Nat} {found : LogEntry × Bool}, recovery.decided[i]? = some found → found.1.config = none

namespace RaftNode

theorem recoveryEntry_plain (node : RaftNode) {recovery : Recovery} (h : recovery.Plain)
    (index : Nat) :
    (node.recoveryEntry recovery index).term = node.currentTerm ∧
      (node.recoveryEntry recovery index).config = none := by
  unfold recoveryEntry
  split
  · exact ⟨rfl, rfl⟩
  · rename_i entry fast hfound
    exact ⟨rfl, h hfound⟩

theorem recoverSlice_spec (slice : Nat) {recovery : Recovery} (h : recovery.Plain) (fuel : Nat)
    (node : RaftNode) (hlast : node.lastLogIndex ≤ maxIndex) (spent : Nat) :
    (recoverSlice slice fuel node recovery spent).2.1.Plain ∧
      ∃ entries, (∀ e ∈ entries, e.term = node.currentTerm ∧ e.config = none) ∧
        node.lastLogIndex + entries.length ≤ maxIndex ∧
        (recoverSlice slice fuel node recovery spent).1.core =
          { node.core with log := node.log ++ entries } := by
  have hpushed : ∀ {node : RaftNode} {e : LogEntry}, e.config = none →
      (node.pushed e).core = { node.core with log := node.log ++ [e] } := by
    intro node e hplain
    simp only [RaftNode.core, RaftNode.pushed, hplain]
    rfl
  have hquiet : ∀ {node : RaftNode}, node.lastLogIndex ≤ maxIndex →
      ∃ entries, (∀ e ∈ entries, e.term = node.currentTerm ∧ e.config = none) ∧
        node.lastLogIndex + entries.length ≤ maxIndex ∧
        node.core = { node.core with log := node.log ++ entries } :=
    fun hlast => ⟨[], by simp, hlast, by simp only [RaftNode.core, List.append_nil]⟩
  refine recoverSlice_rule (P := fun node recovery result => recovery.Plain →
      node.lastLogIndex ≤ maxIndex → result.2.1.Plain ∧
      ∃ entries, (∀ e ∈ entries, e.term = node.currentTerm ∧ e.config = none) ∧
        node.lastLogIndex + entries.length ≤ maxIndex ∧
        result.1.core = { node.core with log := node.log ++ entries })
    (fun h hlast => ⟨h, hquiet hlast⟩) (fun _ h hlast => ⟨h, hquiet hlast⟩) ?_ ?_ fuel node recovery
    spent h hlast
  · intro node recovery hroom _ h _
    have hplain := node.recoveryEntry_plain h recovery.next
    exact ⟨h, [_], List.forall_mem_singleton.mpr hplain, hroom, hpushed hplain.2⟩
  · intro node recovery next result hroom _ hrest h _
    have hplain := node.recoveryEntry_plain h recovery.next
    have hlength := node.pushed_lastLogIndex (node.recoveryEntry recovery recovery.next)
    obtain ⟨hrest, entries, hentries, hbound, hcore⟩ := hrest h (by omega)
    refine ⟨hrest, _ :: entries, List.forall_mem_cons.mpr ⟨hplain, hentries⟩, ?_, ?_⟩
    · rw [List.length_cons]
      omega
    · rw [hcore, hpushed hplain.2]
      simp only [pushed, List.append_assoc, List.singleton_append]

theorem continueRecovery_spec {node : RaftNode} {recovery : Recovery}
    (hrecovery : node.recovery = some recovery) (hplain : recovery.Plain)
    (hsliced : recovery.sliced = false) (hlast : node.lastLogIndex ≤ maxIndex) :
    ∃ entries rest, (∀ e ∈ entries, e.term = node.currentTerm ∧ e.config = none) ∧
      node.lastLogIndex + entries.length ≤ maxIndex ∧ (∀ r ∈ rest, Recovery.Plain r) ∧
      node.continueRecovery.core =
        { node.core with log := node.log ++ entries, recovery := rest } := by
  rw [continueRecovery, hrecovery]
  by_cases hidle : (!node.recovering) = true
  · rw [if_pos hidle]
    refine ⟨[], none, fun e he => absurd he (by simp), hlast, by simp, ?_⟩
    simp only [RaftNode.core, List.append_nil]
  rw [if_neg hidle]
  dsimp only
  obtain ⟨hrest, entries, hentries, hbound, hcore⟩ :=
    recoverSlice_spec (max node.windowBudget minEntryBytes) hplain
      (recovery.last + 1 - recovery.next) { node with recovery := none } hlast 0
  have hsame := congrArg Recovery.sliced (recoverSlice_recovery
    (max node.windowBudget minEntryBytes) (recovery.last + 1 - recovery.next)
    { node with recovery := none } recovery 0)
  generalize recoverSlice _ _ _ _ _ = sliced at *
  obtain ⟨after, rest, fits⟩ := sliced
  dsimp only at hcore hrest hsame
  cases fits with
  | false => exact ⟨entries, none, hentries, hbound, by simp, hcore⟩
  | true =>
    dsimp only
    rw [hsame, hsliced, if_neg Bool.false_ne_true]
    split_ifs with hmore
    · refine ⟨entries, some { rest with sliced := true }, hentries, hbound, ?_, ?_⟩
      · intro r hr
        obtain rfl := Option.mem_some.mp hr
        exact hrest
      · simp only [RaftNode.core, RaftNode.Core.mk.injEq] at hcore ⊢
        simp only [hcore, and_self]
    · exact ⟨entries, none, hentries, hbound, by simp, hcore⟩

theorem recover_spec {node : RaftNode} {recovery : Recovery} (hplain : recovery.Plain)
    (hsliced : recovery.sliced = false) (hlast : node.lastLogIndex ≤ maxIndex)
    (hold : ∀ r ∈ node.recovery, Recovery.Plain r) :
    ∃ entries rest, (∀ e ∈ entries, e.term = node.currentTerm ∧ e.config = none) ∧
      node.lastLogIndex + entries.length ≤ maxIndex ∧ (∀ r ∈ rest, Recovery.Plain r) ∧
      (node.recover recovery).core =
        { node.core with
          reports := ∅, openFrom := 0, fastVotes := ∅, fastChosen := [], fastThrough := 0,
          log := node.log ++ entries, recovery := rest } := by
  rw [recover]
  dsimp only
  split_ifs
  · obtain ⟨entries, rest, hentries, hbound, hrest, hcore⟩ :=
      @continueRecovery_spec { node with
        reports := ∅
        syncedTerm := node.currentTerm
        syncIndex := 0
        openFrom := 0
        fastVotes := ∅
        fastChosen := []
        fastThrough := 0
        fastProposed := 0
        retentionPending := true
        readFloor := recovery.last
        recovery := some recovery } recovery rfl hplain hsliced hlast
    exact ⟨entries, rest, hentries, hbound, hrest, hcore⟩
  · refine ⟨[], node.recovery, fun e he => absurd he (by simp), hlast, hold, ?_⟩
    simp only [RaftNode.core, List.append_nil]

end RaftNode

namespace Member.Mirrors

theorem withRecovery (h : m.Mirrors base a) {recovery : Option Recovery}
    (hplain : ∀ r ∈ recovery, Recovery.Plain r) :
    Member.Mirrors base a ⟨{ m.node with recovery := recovery }, m.folded⟩ :=
  { h with
    kept := { h.kept with }
    plain := ⟨h.plain.1, fun hr => hplain _ hr⟩ }

theorem withReports (h : m.Mirrors base a) {r : HostMap (List SlotReport)}
    (hplain : ∀ {voter : HostId} {reports : List SlotReport}, r[voter]? = some reports →
      ∀ report ∈ reports, report.slot.Plain) :
    Member.Mirrors base a ⟨{ m.node with reports := r }, m.folded⟩ :=
  { h with
    kept := { h.kept with }
    plain := ⟨hplain, h.plain.2⟩ }

theorem continueRecovery (h : m.Mirrors base a) :
    ∃ a', Goes base a m ⟨m.node.continueRecovery, m.folded⟩ a' := by
  rw [RaftNode.continueRecovery]
  have hidle' : Member.Mirrors base a ⟨{ m.node with recovery := none }, m.folded⟩ :=
    h.withRecovery (by simp)
  by_cases hidle : (!m.node.recovering) = true
  · rw [if_pos hidle]
    exact ⟨a, (Follows.of_mirrors hidle' rfl).goes⟩
  rw [if_neg hidle]
  cases hrecovery : m.node.recovery with
  | none => exact ⟨a, (Follows.of_mirrors h rfl).goes⟩
  | some recovery =>
    dsimp only
    have hrole : m.node.role = .leader := by
      rw [RaftNode.recovering] at hidle
      simp only [Bool.not_eq_true', Bool.not_eq_false, Bool.and_eq_true, decide_eq_true_eq] at hidle
      exact hidle.1
    have hplain : recovery.Plain := h.plain.recovery hrecovery
    have hlast : m.node.lastLogIndex ≤ maxIndex := h.kept.lastLogIndex_eq ▸ h.kept.bound
    obtain ⟨hrest, entries, hentries, hbound, hcore⟩ :=
      RaftNode.recoverSlice_spec (max m.node.windowBudget minEntryBytes) hplain
        (recovery.last + 1 - recovery.next) { m.node with recovery := none } hlast 0
    obtain ⟨a', hg⟩ := hidle'.extendedBy hrole hentries hbound
    generalize RaftNode.recoverSlice _ _ _ _ _ = sliced at *
    obtain ⟨after, rest, fits⟩ := sliced
    dsimp only at hcore hrest
    have hgoes : Goes base a m ⟨after, m.folded⟩ a' :=
      ((Follows.of_mirrors hidle' rfl).goes.trans hg).congr hcore
    have hafter : after.role = .leader := (congrArg RaftNode.Core.role hcore).trans hrole
    cases fits with
    | false => exact ⟨a', hgoes⟩
    | true =>
      have hpending : Goes base a m ⟨{ after with retentionPending := true }, m.folded⟩ a' :=
        hgoes.congr rfl
      dsimp only
      split_ifs with hmore hdone
      · refine ⟨a', hpending.1, hpending.2.1, hpending.2.2.withRecovery fun r hr => ?_⟩
        obtain rfl := Option.mem_some.mp hr
        exact hrest
      · obtain ⟨a'', hg''⟩ := hpending.2.2.leaderAppend hafter (mayAppend_command _ [])
        exact ⟨a'', hpending.trans hg''⟩
      · exact ⟨a', hpending⟩

end Member.Mirrors

/-! ## What the windows decide -/

theorem RaftNode.planRecovery_sliced (node : RaftNode) : node.planRecovery.sliced = false := by
  unfold planRecovery
  dsimp only

namespace Member.Mirrors

theorem planRecovery_plain (h : m.Mirrors base a) : m.node.planRecovery.Plain := by
  intro i found hfound
  obtain ⟨slot, hentry, hslot⟩ := RaftNode.planRecovery_decided hfound
  rw [← hentry]
  rcases hslot with ⟨index, hown⟩ | ⟨voter, reports, hreports, report, hreport, rfl⟩
  · exact (h.slots hown).1
  · exact h.plain.reports hreports report hreport

/-! ## Elections -/

theorem elected (h : m.Mirrors base a) (hs : Sound (scheme base) a)
    (hrole : m.node.role = .candidate) (hmajority : m.node.isMajority m.node.votes)
    {matched : HostMap Nat} (hzero : ∀ {f : HostId} {k : Nat}, matched[f]? = some k → k = 0)
    {recovery : Option Recovery} (hplain : ∀ r ∈ recovery, Recovery.Plain r) :
    ∃ a', Goes base a m ⟨{ m.node with
      role := .leader, matchIndex := matched, reports := ∅, openFrom := 0, fastVotes := ∅,
      fastChosen := [], fastThrough := 0, recovery := recovery }, m.folded⟩ a' := by
  obtain ⟨hstood, hnot⟩ := h.stood hrole
  have hdecides : (scheme base).decides ((scheme base).cfg m.whole) {v | v ∈ m.node.votes} := by
    rw [← h.kept.effectiveConfig_eq]
    exact ⟨m.node.votes, fun _ hv => hv, hmajority⟩
  have hfree : a.lead m.node.currentTerm = none := by
    refine Option.eq_none_iff_forall_not_mem.mpr fun r hr => ?_
    exact hnot r hr (hs.sole hstood hdecides (h.votes hrole) hr)
  have hm := Moves.elect (K := scheme base) (v := m.node.id) (s := a)
    (Q := {v | v ∈ m.node.votes}) (by rw [h.term, h.log]; exact hstood)
    (by rw [h.term]; exact hfree)
    (by rw [h.log]; exact hdecides) (by rw [h.term]; exact h.votes hrole)
  refine ⟨_, hm, rfl, ?_⟩
  exact
    { h with
      kept := { h.kept with }
      plain := ⟨fun hr => absurd hr (by simp), fun hr => hplain _ hr⟩
      commit := h.commit.grows hm.grows
      leads := fun _ => by
        refine ⟨⟨m.node.id, a.log m.node.id, a.log m.node.id, {v | v ∈ m.node.votes}⟩, ?_, rfl,
          h.log⟩
        dsimp only
        rw [h.term, Function.update_self]
      matched := fun _ f k _ hk hpos => absurd (hzero hk) hpos.ne'
      stood := nofun
      votes := nofun
      slots := fun hslot =>
        ⟨(h.slots hslot).1, fun hslow => ((h.slots hslot).2 hslow).grows hm.grows⟩ }

end Member.Mirrors

theorem mem_insertHost {host v : HostId} {hosts : List HostId} (h : v ∈ insertHost host hosts) :
    v = host ∨ v ∈ hosts := by
  rw [insertHost] at h
  split_ifs at h
  · exact .inr h
  · exact List.mem_cons.mp h

theorem getElem?_zeros {hosts : List HostId} {matched : HostMap Nat}
    (h : ∀ {f : HostId} {k : Nat}, matched[f]? = some k → k = 0) {f : HostId} {k : Nat}
    (hk : (hosts.foldl (fun matched peer => matched.insert peer 0) matched)[f]? = some k) :
    k = 0 := by
  induction hosts generalizing matched with
  | nil => exact h hk
  | cons host hosts ih =>
    refine ih (fun {f k} hfound => ?_) hk
    rw [getElem?_insert_if] at hfound
    split_ifs at hfound
    · exact (Option.some.inj hfound).symm
    · exact h hfound

namespace Member.Mirrors

theorem becomeLeaderIfMajority (h : m.Mirrors base a) (hs : Sound (scheme base) a) :
    (∃ a', Goes base a m ⟨m.node.becomeLeaderIfMajority, m.folded⟩ a') ∧
      m.node.becomeLeaderIfMajority.currentTerm = m.node.currentTerm ∧
      (m.node.becomeLeaderIfMajority.role = .leader ∨
        m.node.becomeLeaderIfMajority.lastLogIndex = m.node.lastLogIndex ∧
          m.node.becomeLeaderIfMajority.lastLogTerm = m.node.lastLogTerm) := by
  rw [RaftNode.becomeLeaderIfMajority]
  dsimp only
  split_ifs with hnot hadmits
  · exact ⟨⟨a, (Follows.of_mirrors h rfl).goes⟩, rfl, .inr ⟨rfl, rfl⟩⟩
  · have hidle := h.idle .follower (by simp) (by simp) []
    have hdeclined := hidle.withReports (r := ∅) fun hr => absurd hr (by simp)
    exact ⟨⟨a, (Follows.of_mirrors hdeclined rfl).goes⟩, rfl, .inr ⟨rfl, rfl⟩⟩
  · obtain ⟨hrole, hmajority⟩ := not_or.mp hnot
    rw [Bool.not_eq_true', Bool.not_eq_false] at hmajority
    have hlast : m.node.lastLogIndex ≤ maxIndex := h.kept.lastLogIndex_eq ▸ h.kept.bound
    obtain ⟨entries, rest, hentries, hbound, hrest, hcore⟩ :=
      @RaftNode.recover_spec { m.node with role := .leader } m.node.planRecovery
        h.planRecovery_plain m.node.planRecovery_sliced hlast
        fun r hr => h.plain.recovery hr
    generalize RaftNode.recover { m.node with role := .leader } m.node.planRecovery = after
      at hcore
    have hzero : ∀ {f : HostId} {k : Nat}, after.beginLeading.matchIndex[f]? = some k → k = 0 :=
      getElem?_zeros fun hk => absurd hk (by simp)
    obtain ⟨a₁, hg₁⟩ := h.elected hs (not_not.mp hrole) hmajority hzero hrest
    obtain ⟨a₂, hg₂⟩ := hg₁.2.2.extendedBy rfl hentries hbound
    refine ⟨⟨a₂, (hg₁.trans hg₂).congr ?_⟩, congrArg RaftNode.Core.currentTerm hcore,
      .inl (congrArg RaftNode.Core.role hcore)⟩
    have hleading : after.beginLeading.core =
        { after.core with matchIndex := after.beginLeading.matchIndex } := rfl
    rw [hleading, hcore]
    rfl

theorem stands (h : m.Mirrors base a) (hs : Sound (scheme base) a) :
    ∃ a', Goes base a m ⟨{ m.node with
      currentTerm := m.node.currentTerm + 1, role := .candidate, votedFor := some m.node.id,
      votes := [m.node.id], reports := ∅ }, m.folded⟩ a' := by
  have hm := Moves.stand (K := scheme base) (s := a) m.node.id
  refine ⟨_, hm, rfl, ?_⟩
  have hterm : a.term m.node.id + 1 = m.node.currentTerm + 1 := by rw [h.term]
  exact
    { kept := { h.kept with }
      plain := ⟨fun hr => absurd hr (by simp), h.plain.2⟩
      term := (Function.update_self _ _ _).trans hterm
      vote := Function.update_self _ _ _
      log := h.log
      commit := fixed_mono (h.commit.grows hm.grows) (Nat.le_succ _)
      leads := nofun
      matched := nofun
      stood := fun _ => by
        refine ⟨.inr ⟨hterm.symm, rfl, h.log.symm⟩, fun r hr hnode => ?_⟩
        -- whoever leads a term stood in it, and this node had not come so far
        have hle := hs.voting.stood_le (hs.rooted.lead_stood hr)
        rw [hnode] at hle
        exact absurd (hle.trans h.term.le) (Nat.not_succ_le_self _)
      votes := fun _ v hv => by
        obtain rfl := List.mem_singleton.mp hv
        exact ⟨_, .inr ⟨rfl, hterm.symm, rfl, rfl⟩⟩
      slots := fun hslot =>
        ⟨(h.slots hslot).1, fun hslow => ((h.slots hslot).2 hslow).grows hm.grows⟩ }

theorem startElection (h : m.Mirrors base a) (hs : Sound (scheme base) a) :
    ∃ a', Goes base a m ⟨m.node.startElection.1, m.folded⟩ a' ∧
      ∀ request ∈ m.node.startElection.2, Message.Sent base a' (.requestVote request) := by
  rw [RaftNode.startElection]
  split_ifs
  · exact ⟨a, (Follows.of_mirrors h rfl).goes, by simp⟩
  cases hnext : checkedSucc m.node.currentTerm with
  | none => exact ⟨a, (Follows.of_mirrors h rfl).goes, by simp⟩
  | some next =>
    dsimp only
    obtain rfl : next = m.node.currentTerm + 1 := by
      rw [checkedSucc] at hnext
      split_ifs at hnext
      exact (Option.some.inj hnext).symm
    obtain ⟨a₁, hg₁⟩ := h.stands hs
    have hcandidate : Goes base a m ⟨{ m.node with
        retentionPending := true
        currentTerm := m.node.currentTerm + 1
        readRound := none
        role := .candidate
        votedFor := some m.node.id
        votes := [m.node.id]
        reports := ∅ }, m.folded⟩ a₁ := hg₁.congr rfl
    obtain ⟨⟨a₂, hg₂⟩, hterm, hcome⟩ :=
      hcandidate.2.2.becomeLeaderIfMajority (hcandidate.1.sound hs)
    have hstood := hg₂.1.stood (hcandidate.2.2.stood rfl).1
    have hid := hg₂.2.1
    refine ⟨a₂, hcandidate.trans hg₂, fun request hrequest => ?_⟩
    dsimp only at hterm hcome hid hg₂ hstood
    generalize RaftNode.becomeLeaderIfMajority _ = after at hrequest hterm hcome hid hg₂
    rw [RaftNode.voteRequest] at hrequest
    split_ifs at hrequest
    · cases hrequest
    obtain rfl := Option.mem_some.mp hrequest
    rcases hcome with hlead | ⟨hindex, hlast⟩
    · obtain ⟨r, hr, hnode, -⟩ := hg₂.2.2.leads hlead
      exact .inr ⟨r, hr, hnode⟩
    · refine .inl ⟨m.whole, ?_, ?_, ?_⟩
      · dsimp only
        rw [hterm, hid]
        exact hstood
      · exact hindex.trans h.kept.lastLogIndex_eq
      · exact hlast.trans h.kept.lastLogTerm_eq

theorem asks (elected : RaftNode × Option RequestVote)
    (h : ∃ a', Goes base a m ⟨elected.1, m.folded⟩ a' ∧
      ∀ request ∈ elected.2, Message.Sent base a' (.requestVote request)) :
    Handles base a m (m.sends elected.1 (elected.2.map .requestVote)) := by
  obtain ⟨a', hg, hsent⟩ := h
  refine hg.sends fun sent hmem => ?_
  obtain ⟨request, hrequest, rfl⟩ := Option.map_eq_some_iff.mp hmem
  exact hsent request hrequest

theorem onElectionTimeout (h : m.Mirrors base a) (hs : Sound (scheme base) a) :
    ∃ a', Goes base a m ⟨m.node.onElectionTimeout.1, m.folded⟩ a' := by
  rw [RaftNode.onElectionTimeout]
  split_ifs
  · exact ⟨a, (Follows.of_mirrors h rfl).goes⟩
  cases checkedSucc m.node.currentTerm with
  | none => exact ⟨a, (Follows.of_mirrors h rfl).goes⟩
  | some next =>
    have hidle := h.idle .preCandidate (by simp) (by simp) m.node.votes
    have hpre : Goes base a m ⟨{ m.node with
        hasLeader := false, role := .preCandidate, preVotes := [m.node.id] }, m.folded⟩ a :=
      (Follows.of_mirrors hidle rfl).goes.congr rfl
    dsimp only
    split_ifs
    · obtain ⟨a', hg, -⟩ := hpre.2.2.startElection hs
      exact ⟨a', hpre.trans hg⟩
    · exact ⟨a, hpre⟩
    · exact ⟨a, hpre⟩

theorem receive_preVoteReply (h : m.Mirrors base a) (hs : Sound (scheme base) a)
    (receiver : HostId) (reply : PreVoteReply) :
    Handles base a m (m.receive (.preVoteReply receiver reply)) := by
  rw [receive]
  split_ifs
  · refine asks (m.node.onPreVoteReply reply) ?_
    rw [RaftNode.onPreVoteReply]
    have hcounted : Goes base a m
        ⟨{ m.node with preVotes := insertHost reply.voter m.node.preVotes }, m.folded⟩ a :=
      (Follows.of_mirrors h rfl).goes.congr rfl
    dsimp only
    split_ifs
    · exact ⟨a, (Follows.of_mirrors h rfl).goes, by simp⟩
    · obtain ⟨a', hg, hsent⟩ := hcounted.2.2.startElection hs
      exact ⟨a', hcounted.trans hg, hsent⟩
    · exact ⟨a, hcounted, by simp⟩
  · exact .of_mirrors h rfl

theorem receive_timeoutNow (h : m.Mirrors base a) (hs : Sound (scheme base) a)
    (receiver : HostId) (invitation : TimeoutNow) :
    Handles base a m (m.receive (.timeoutNow receiver invitation)) := by
  rw [receive]
  split_ifs
  · refine asks (m.node.onTimeoutNow invitation) ?_
    rw [RaftNode.onTimeoutNow]
    split_ifs
    · exact ⟨a, (Follows.of_mirrors h rfl).goes, by simp⟩
    · exact h.startElection hs
  · exact .of_mirrors h rfl

theorem counted (h : m.Mirrors base a) {reply : VoteReply}
    (hsent : Message.Sent base a (.voteReply m.node.id reply)) (hrole : m.node.role = .candidate)
    (hterm : reply.term = m.node.currentTerm) (hgranted : reply.granted) :
    Member.Mirrors base a
      ⟨{ m.node with
        votes := insertHost reply.voter m.node.votes
        reports := m.node.reports.insert reply.voter reply.reports }, m.folded⟩ := by
  have hreports := h.withReports (r := m.node.reports.insert reply.voter reply.reports) (by
    intro voter reports hfound
    rw [getElem?_insert_if] at hfound
    split_ifs at hfound
    · obtain rfl := Option.some.inj hfound
      exact hsent.1
    · exact h.plain.reports hfound)
  have hballot : ∃ entries, a.ballot reply.voter m.node.currentTerm m.node.id entries := by
    rcases hsent.2 hgranted with hballot | ⟨r, hr, hnode⟩
    · exact hterm ▸ hballot
    · exact absurd hnode ((h.stood hrole).2 r (hterm ▸ hr))
  exact
    { h with
      kept := { h.kept with }
      plain := ⟨hreports.plain.1, h.plain.2⟩
      votes := fun _ v hv => by
        rcases mem_insertHost hv with rfl | hv
        · exact hballot
        · exact h.votes hrole v hv }

theorem receive_voteReply (h : m.Mirrors base a) (hs : Sound (scheme base) a) {receiver : HostId}
    {reply : VoteReply} (hsent : Message.Sent base a (.voteReply receiver reply)) :
    Handles base a m (m.receive (.voteReply receiver reply)) := by
  rw [receive]
  split_ifs with hreceiver
  swap
  · exact .of_mirrors h rfl
  subst hreceiver
  rw [RaftNode.onVoteReply]
  cases admitReports reply with
  | error => exact (Follows.of_mirrors h rfl).goes.quietly
  | ok =>
    dsimp only
    split_ifs with hlater hcounts
    · obtain ⟨a', hf⟩ := h.stepDown hlater
      exact hf.goes.quietly
    · obtain ⟨hrole, hterm, hgranted, -⟩ := hcounts
      have hcounted := h.counted hsent hrole hterm hgranted
      obtain ⟨⟨a', hg⟩, -⟩ := hcounted.becomeLeaderIfMajority hs
      exact (Goes.trans (Follows.of_mirrors hcounted rfl).goes hg).quietly
    · exact (Follows.of_mirrors h rfl).goes.quietly

end Member.Mirrors

end Slates.Raft
