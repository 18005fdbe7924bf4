import Slates.Raft.Snapshots
import Slates.Raft.Parts

/-!
A leader beside the abstract run: votes for it are ballots, what it counts as held by a majority was
acknowledged by one, and so what it commits is chosen.
-/

namespace Slates.Raft

open Std (ExtTreeMap)
open Register (HostId HostMap)
open Consensus.State (Moves Sound Grows)

variable {base : VoterConfig} {a a' : Account} {m m' : Member}

/-! ## Votes -/

namespace Member.Mirrors

theorem voted (h : m.Mirrors base a) (hm : Moves (scheme base) m.node.id a a')
    (hlead : a'.lead = a.lead) (hterm : a'.term = a.term) (hlog : a'.log = a.log)
    {vote : Option HostId} (hvote : a'.vote m.node.id = vote) (pending : Bool) :
    Follows base a m
      ⟨{ m.node with retentionPending := pending, votedFor := vote }, m.folded⟩ a' := by
  refine ⟨hm, hlead, rfl, ?_⟩
  exact
    { kept := { h.kept with }
      plain := { h.plain with }
      term := by rw [hterm]; exact h.term
      vote := hvote
      log := by rw [hlog]; exact h.log
      commit := h.commit.grows hm.grows
      leads := by rw [Member.Reigns, hlead]; exact h.leads
      matched := fun hrole f k hf hk hpos => by
        obtain ⟨n, hn, hacked⟩ := h.matched hrole hf hk hpos
        exact ⟨n, hn, hm.grows.acked hacked⟩
      stood := fun hrole => by
        obtain ⟨hstood, hnot⟩ := h.stood hrole
        exact ⟨hm.stood hstood, by rw [hlead]; exact hnot⟩
      votes := fun hrole v hv => by
        obtain ⟨entries, hb⟩ := h.votes hrole v hv
        exact ⟨entries, hm.grows.ballot hb⟩
      slots := fun hslot =>
        ⟨(h.slots hslot).1, fun hslow => ((h.slots hslot).2 hslow).grows hm.grows⟩ }

theorem windowAbove_plain (h : m.Mirrors base a) (index : Nat) :
    ∀ report ∈ m.node.windowAbove index, report.slot.Plain := by
  intro report hmem
  exact (h.slots (RaftNode.mem_windowAbove hmem)).1

theorem upToDate (h : m.Mirrors base a) {index term : Nat}
    (hcurrent : m.node.candidateLogIsCurrent index term) {entries : List LogEntry}
    (hindex : index = entries.length) (hterm : term = (scheme base).lastTerm entries) :
    (scheme base).UpToDate entries (a.log m.node.id) := by
  rw [RaftNode.candidateLogIsCurrent, h.kept.lastLogTerm_eq, h.kept.lastLogIndex_eq, ← h.log,
    Bool.or_eq_true, Bool.and_eq_true, decide_eq_true_eq, decide_eq_true_eq, beq_iff_eq, hindex,
    hterm] at hcurrent
  exact hcurrent

theorem granted (h : m.Mirrors base a) {request : RequestVote}
    (hsent : Message.Sent base a (.requestVote request)) (hgrants : m.node.grants request)
    (pending : Bool) :
    ∃ a', Follows base a m
        ⟨{ m.node with retentionPending := pending, votedFor := some request.candidate },
          m.folded⟩ a' ∧
      ((∃ entries, a'.ballot m.node.id m.node.currentTerm request.candidate entries) ∨
        ∃ r, a'.lead m.node.currentTerm = some r ∧ r.node = request.candidate) := by
  rw [RaftNode.grants, Bool.and_eq_true, Bool.and_eq_true, Bool.or_eq_true, decide_eq_true_eq,
    decide_eq_true_eq, decide_eq_true_eq, ← h.vote] at hgrants
  obtain ⟨⟨hterm, hfree⟩, hcurrent⟩ := hgrants
  rcases hsent with ⟨entries, hstood, hindex, hlast⟩ | hlead
  · have hm := Moves.grant (K := scheme base) (v := m.node.id) (s := a)
      (by rw [h.term, ← hterm]; exact hstood) hfree (h.upToDate hcurrent hindex hlast)
    exact ⟨_, h.voted hm rfl rfl rfl (Function.update_self ..) pending,
      .inl ⟨_, .inr ⟨rfl, h.term.symm, rfl, rfl⟩⟩⟩
  · have hm := Moves.pledge (K := scheme base) (v := m.node.id) (s := a) hfree
    exact ⟨_, h.voted hm rfl rfl rfl (Function.update_self ..) pending, .inr (hterm ▸ hlead)⟩

theorem receive_requestVote (h : m.Mirrors base a) {request : RequestVote}
    (hsent : Message.Sent base a (.requestVote request)) :
    Handles base a m (m.receive (.requestVote request)) := by
  rw [receive, RaftNode.onRequestVote]
  cases admitCandidacy request.term request.lastLogIndex request.lastLogTerm with
  | error =>
    refine (Follows.of_mirrors h rfl).goes.sends fun sent hmem => ?_
    obtain rfl := Option.mem_some.mp hmem
    exact ⟨by simp, by simp⟩
  | ok =>
    obtain ⟨a₁, hf⟩ := h.observeTerm request.term
    dsimp only
    split_ifs with hgrants
    · obtain ⟨a₂, hf₂, hballot⟩ := hf.2.2.2.granted (hsent.moves hf.1) hgrants _
      refine (hf.trans hf₂).goes.sends fun sent hmem => ?_
      obtain rfl := Option.mem_some.mp hmem
      exact ⟨hf₂.2.2.2.windowAbove_plain _, fun _ => hballot⟩
    · refine hf.goes.sends fun sent hmem => ?_
      obtain rfl := Option.mem_some.mp hmem
      exact ⟨by simp, by simp⟩

/-! ## The leader's log -/

theorem pushed (h : m.Mirrors base a) (hreign : m.Reigns a)
    (hroom : m.node.lastLogIndex < maxIndex) {e : LogEntry} (hterm : e.term = m.node.currentTerm)
    (hconfig : ∀ c, e.config = some c →
      ((scheme base).cfg m.whole).Next c ∧ a.Settled (scheme base) m.node.currentTerm m.whole) :
    ∃ a', Goes base a m ⟨m.node.pushed e, m.folded⟩ a' ∧
      Member.Reigns a' ⟨m.node.pushed e, m.folded⟩ := by
  obtain ⟨r, hr, hnode, hlog⟩ := hreign
  have hm := Moves.extend (K := scheme base) (e := e) hr hnode h.term (h.log.trans hlog.symm) hterm
    (by rw [hlog]; exact hconfig)
  have hwhole := m.whole_pushed e
  have hreigns : ∃ q, Function.update a.lead m.node.currentTerm
      (some { r with log := r.log ++ [e] }) m.node.currentTerm = some q ∧ q.node = m.node.id ∧
        q.log = Member.whole ⟨m.node.pushed e, m.folded⟩ :=
    ⟨_, Function.update_self _ _ _, hnode, by rw [hwhole, ← hlog]⟩
  refine ⟨_, ⟨hm, rfl, ?_⟩, hreigns⟩
  exact
    { h with
      kept := h.kept.pushed hroom e
      plain := { h.plain with }
      log := by
        rw [hwhole, ← hlog]
        exact Function.update_self _ _ _
      commit := by
        rw [hwhole]
        have htake : (m.whole ++ [e]).take m.node.commitIndex =
            m.whole.take m.node.commitIndex := List.take_append_of_le_length h.kept.commit_le
        dsimp only [RaftNode.pushed]
        rw [htake]
        exact h.commit.grows hm.grows
      leads := fun _ => hreigns
      stood := fun hstand => absurd hnode ((h.stood hstand).2 r hr)
      votes := fun hstand => absurd hnode ((h.stood hstand).2 r hr)
      slots := fun hslot =>
        ⟨(h.slots hslot).1, fun hslow => ((h.slots hslot).2 hslow).grows hm.grows⟩ }

theorem extendedBy (h : m.Mirrors base a) (hrole : m.node.role = .leader) {entries : List LogEntry}
    (hplain : ∀ e ∈ entries, e.term = m.node.currentTerm ∧ e.config = none)
    (hroom : m.node.lastLogIndex + entries.length ≤ maxIndex) :
    ∃ a', Goes base a m ⟨{ m.node with log := m.node.log ++ entries }, m.folded⟩ a' := by
  induction entries generalizing m a with
  | nil =>
    refine ⟨a, (Follows.of_mirrors h rfl).goes.congr ?_⟩
    simp only [RaftNode.core, List.append_nil]
  | cons e entries ih =>
    rw [List.length_cons] at hroom
    obtain ⟨hterm, hnone⟩ := hplain e List.mem_cons_self
    obtain ⟨a', hg, -⟩ := h.pushed (h.leads hrole) (by omega) hterm fun c hc => by
      rw [hnone] at hc
      cases hc
    obtain ⟨a'', hg'⟩ := ih hg.2.2 hrole (fun x hx => hplain x (List.mem_cons_of_mem _ hx)) (by
      rw [RaftNode.lastLogIndex] at hroom ⊢
      dsimp only [RaftNode.pushed]
      rw [List.length_append, List.length_singleton]
      omega)
    refine ⟨a'', (hg.trans hg').congr ?_⟩
    simp only [RaftNode.core, RaftNode.pushed, hnone, List.append_assoc, List.singleton_append]
    rfl

end Member.Mirrors

/-! ## What a majority holds -/

namespace RaftNode

theorem lt_countP_of_le_heldBy {node : RaftNode} {set : List HostId} {q : Nat} (hpos : 0 < q)
    (h : q ≤ node.heldBy set) : set.length / 2 < set.countP fun host => q ≤ node.matchOf host := by
  rw [heldBy] at h
  cases hx : ((set.map node.matchOf).insertionSort (· ≥ ·))[set.length / 2]? with
  | none =>
    rw [hx, Option.getD_none] at h
    omega
  | some x =>
    rw [hx, Option.getD_some] at h
    exact Quorums.lt_countP_of_descending node.matchOf set hx h

theorem carries_of_le_heldBy {node : RaftNode} {set hosts : List HostId} {q : Nat} (hpos : 0 < q)
    (h : q ≤ node.heldBy set)
    (hhosts : ∀ host ∈ set, q ≤ node.matchOf host → host ∈ hosts) : carries hosts set := by
  rw [carries, decide_eq_true_eq]
  refine (lt_countP_of_le_heldBy hpos h).trans_le (List.countP_mono_left fun host hmem hle => ?_)
  exact decide_eq_true (hhosts host hmem (of_decide_eq_true hle))

theorem decides_of_quorumMatch {node : RaftNode} (hpos : 0 < node.quorumMatch) :
    node.effectiveConfig.Decides {host | node.quorumMatch ≤ node.matchOf host} := by
  have hle : node.quorumMatch ≤ node.heldBy node.effectiveConfig.voters ∧
      ∀ new ∈ node.effectiveConfig.joint, node.quorumMatch ≤ node.heldBy new := by
    rw [quorumMatch]
    cases node.effectiveConfig.joint with
    | none => exact ⟨le_rfl, by simp⟩
    | some new =>
      refine ⟨min_le_left _ _, fun x hx => ?_⟩
      obtain rfl := Option.mem_some.mp hx
      exact min_le_right _ _
  refine ⟨(node.effectiveConfig.voters ++ node.effectiveConfig.joint.getD []).filter
    fun host => node.quorumMatch ≤ node.matchOf host,
    fun host hmem => of_decide_eq_true (List.mem_filter.mp hmem).2, ?_⟩
  rw [VoterConfig.isMajority, Bool.and_eq_true]
  constructor
  · refine carries_of_le_heldBy hpos hle.1 fun host hmem hheld => ?_
    exact List.mem_filter.mpr ⟨List.mem_append_left _ hmem, decide_eq_true hheld⟩
  · cases hjoint : node.effectiveConfig.joint with
    | none => rfl
    | some new =>
      refine carries_of_le_heldBy hpos (hle.2 new hjoint) fun host hmem hheld => ?_
      exact List.mem_filter.mpr ⟨List.mem_append_right _ hmem, decide_eq_true hheld⟩

end RaftNode

namespace Member.Mirrors

theorem chosen (h : m.Mirrors base a) (hrole : m.node.role = .leader)
    (hpast : m.node.commitIndex < m.node.quorumMatch)
    (hentry : m.node.entryTerm m.node.quorumMatch = some m.node.currentTerm) :
    ∃ a', Follows base a m ⟨{ m.node with commitIndex := m.node.quorumMatch }, m.folded⟩ a' := by
  obtain ⟨r, hr, hnode, hlog⟩ := h.leads hrole
  have hpos : 0 < m.node.quorumMatch := by omega
  rw [h.kept.entryTerm_eq (by have := h.kept.snapshot_le; omega) hpos] at hentry
  obtain ⟨e, he, heterm⟩ := Option.map_eq_some_iff.mp hentry
  have hle : m.node.quorumMatch ≤ m.whole.length := by
    have := (List.getElem?_eq_some_iff.mp he).1
    omega
  obtain ⟨a₁, hf₁, r₁, hr₁, -, hown, -⟩ := h.acknowledge hr le_rfl (n := r.log.length) (by
    rw [List.take_length, hlog])
  obtain rfl : r = r₁ := by
    rw [hf₁.2.1] at hr₁
    exact Option.some.inj (hr.symm.trans hr₁)
  have hm := Moves.choose (K := scheme base) (v := m.node.id) (s := a₁)
    (Q := {host | m.node.quorumMatch ≤ m.node.matchOf host}) hr₁ (n := m.node.quorumMatch - 1)
    (e := e) (by rw [hlog]; exact he) heterm
    (by
      rw [hlog, ← h.kept.effectiveConfig_eq]
      exact RaftNode.decides_of_quorumMatch hpos)
    (by
      intro host hheld
      by_cases hid : host = m.node.id
      · subst hid
        refine ⟨_, ?_, hown⟩
        rw [hlog]
        omega
      · have hheld : m.node.quorumMatch ≤ m.node.matchOf host := hheld
        rw [RaftNode.matchOf, if_neg hid] at hheld
        cases hk : m.node.matchIndex[host]? with
        | none =>
          rw [hk, Option.getD_none] at hheld
          omega
        | some k =>
          rw [hk, Option.getD_some] at hheld
          obtain ⟨n, hn, hacked⟩ := h.matched hrole hid hk (by omega)
          exact ⟨n, by omega, hf₁.1.grows.acked hacked⟩)
  have hchosen := (hf₁.2.2.2.voted hm rfl rfl rfl hf₁.2.2.2.vote m.node.retentionPending).2.2.2
  refine ⟨_, hf₁.1.trans hm, hf₁.2.1, rfl, ?_⟩
  refine hchosen.committed hpast.le hle (.inr ⟨_, _, _, r, le_rfl, .inr ⟨rfl, rfl, rfl⟩, hr₁, ?_⟩)
  rw [hlog, Nat.sub_add_cancel hpos]

theorem commitHeld (h : m.Mirrors base a) (hrole : m.node.role = .leader) :
    ∃ a', Follows base a m ⟨m.node.commitHeld, m.folded⟩ a' := by
  rw [RaftNode.commitHeld]
  split_ifs with hheld
  · obtain ⟨a', hf⟩ := h.chosen hrole hheld.1 hheld.2
    exact ⟨a', hf.congr rfl⟩
  · exact ⟨a, .of_mirrors h rfl⟩

theorem commitChosen (h : m.Mirrors base a) :
    Member.Mirrors base a ⟨m.node.commitChosen, m.folded⟩ := by
  exact
    { h with
      kept := { h.kept with }
      plain := { h.plain with } }

/-- The fast track's own books are beside the run. -/
theorem booked (h : m.Mirrors base a) (openFrom : Nat) (openAnnounced : Nat × Nat)
    (fastVotes : ExtTreeMap Nat (HostMap (List UInt8))) (fastChosen : List Nat) :
    Member.Mirrors base a ⟨{ m.node with
      openFrom := openFrom, openAnnounced := openAnnounced, fastVotes := fastVotes,
      fastChosen := fastChosen }, m.folded⟩ :=
  { h with
    kept := { h.kept with }
    plain := { h.plain with } }

theorem withMatched (h : m.Mirrors base a) (matched : HostMap Nat)
    (hmatched : m.node.role = .leader → ∀ {f : HostId} {k : Nat}, f ≠ m.node.id →
      matched[f]? = some k → 0 < k → ∃ n, k ≤ n ∧ a.acked f m.node.currentTerm n) :
    Member.Mirrors base a ⟨{ m.node with matchIndex := matched }, m.folded⟩ :=
  { h with
    kept := { h.kept with }
    plain := { h.plain with }
    matched := hmatched }

end Member.Mirrors

def Reaches (base : VoterConfig) (folded : List LogEntry) (node node' : RaftNode) : Prop :=
  ∀ a, Member.Mirrors base a ⟨node, folded⟩ →
    ∃ a', Goes base a ⟨node, folded⟩ ⟨node', folded⟩ a'

section Reaches

variable {folded : List LogEntry} {node node' : RaftNode}

theorem Reaches.of_mirrors (hid : node'.id = node.id)
    (h : ∀ a, Member.Mirrors base a ⟨node, folded⟩ → Member.Mirrors base a ⟨node', folded⟩) :
    Reaches base folded node node' :=
  fun a hm => ⟨a, (Follows.of_mirrors (h a hm) hid).goes⟩

theorem Reaches.of_core (h : node'.core = node.core) : Reaches base folded node node' :=
  .of_mirrors (congrArg RaftNode.Core.id h) fun _ hm => hm.congr h

theorem reaches_ground : RaftNode.Ground (Reaches base folded) where
  trans h h' a hm := by
    obtain ⟨a', hg⟩ := h a hm
    obtain ⟨a'', hg'⟩ := h' a' hg.2.2
    exact ⟨a'', hg.trans hg'⟩
  of_visible h := .of_core (congrArg (fun seen => seen.2.2) h)
  follower role votes hcandidate hleader :=
    .of_mirrors rfl fun _ hm => hm.idle role hleader hcandidate votes
  dropRead := .of_core rfl
  rematch {node node'} h hkept := by
    have hcore := congrArg (fun seen => { seen.2.2 with matchIndex := node'.matchIndex }) h
    refine .of_mirrors (congrArg RaftNode.Core.id hcore) fun a hm => ?_
    have hmatched := hm.withMatched node'.matchIndex fun hrole f k hf hk hpos =>
      hm.matched hrole hf (hkept f k hk hpos) hpos
    exact hmatched.congr hcore
  commitHeld hrole a hm := (hm.commitHeld hrole).imp fun _ hf => hf.goes
  commitChosen := .of_mirrors rfl fun _ hm => hm.commitChosen
  pruneCommitted := .of_mirrors rfl fun _ hm => hm.pruneCommitted

end Reaches

namespace Member.Mirrors

/-! ## What a leader appends -/

/-- Of its term, and if a configuration then one that may follow the last, which is chosen. -/
def MayAppend (base : VoterConfig) (a : Account) (m : Member) (e : LogEntry) : Prop :=
  e.term = m.node.currentTerm ∧ ∀ c, e.config = some c →
    ((scheme base).cfg m.whole).Next c ∧ a.Settled (scheme base) m.node.currentTerm m.whole

/-- A leader may lead no more after a commit; its reign stands. -/
theorem advanceLeaderCommit (h : m.Mirrors base a) (hreign : m.Reigns a) :
    ∃ a', Goes base a m ⟨m.node.advanceLeaderCommit, m.folded⟩ a' ∧
      Member.Reigns a' ⟨m.node.advanceLeaderCommit, m.folded⟩ := by
  rw [RaftNode.advanceLeaderCommit]
  split_ifs with hrole
  · exact ⟨a, (Follows.of_mirrors h rfl).goes, hreign⟩
  have hleads : m.node.commitHeld.commitChosen.pruneCommitted.role = .leader := by
    change m.node.commitHeld.role = .leader
    rw [RaftNode.commitHeld]
    split_ifs <;> exact not_not.mp hrole
  obtain ⟨a', hg⟩ := reaches_ground.trans (reaches_ground.trans
    (reaches_ground.commitHeld (not_not.mp hrole)) reaches_ground.commitChosen)
    reaches_ground.pruneCommitted a h
  have hreigns := hg.2.2.leads hleads
  rw [RaftNode.stepDownIfRemoved, if_neg (by simp [hleads])]
  split_ifs
  · have hidle := hg.2.2.idle .follower (by simp) (by simp) []
    exact ⟨a', (hg.trans (Follows.of_mirrors hidle rfl).goes).congr rfl, hreigns⟩
  · exact ⟨a', hg, hreigns⟩

theorem appended (h : m.Mirrors base a) (hreign : m.Reigns a) {e : LogEntry}
    (hmay : MayAppend base a m e) :
    ∃ a', Goes base a m ⟨(m.node.leaderAppend e).1, m.folded⟩ a' ∧
      Member.Reigns a' ⟨(m.node.leaderAppend e).1, m.folded⟩ := by
  rw [RaftNode.leaderAppend, RaftNode.pushEntry_eq]
  split_ifs with hbudget hroom
  · exact ⟨a, (Follows.of_mirrors h rfl).goes, hreign⟩
  · obtain ⟨a', hg, hreigns⟩ := h.pushed hreign hroom hmay.1 hmay.2
    have hsynced : Goes base a m
        ⟨{ m.node.pushed e with
          retentionPending := true
          syncIndex := if (m.node.pushed e).syncIndex = 0 then (m.node.pushed e).lastLogIndex
            else (m.node.pushed e).syncIndex }, m.folded⟩ a' := hg.congr rfl
    obtain ⟨a'', hg', hreigns'⟩ := hsynced.2.2.advanceLeaderCommit hreigns
    exact ⟨a'', hsynced.trans hg', hreigns'⟩
  · exact ⟨a, (Follows.of_mirrors h rfl).goes, hreign⟩

theorem leaderAppend (h : m.Mirrors base a) (hrole : m.node.role = .leader) {e : LogEntry}
    (hmay : MayAppend base a m e) :
    ∃ a', Goes base a m ⟨(m.node.leaderAppend e).1, m.folded⟩ a' := by
  obtain ⟨a', hg, -⟩ := h.appended (h.leads hrole) hmay
  exact ⟨a', hg⟩

theorem mayAppend_command (m : Member) (command : List UInt8) :
    MayAppend base a m (.ofCommand m.node.currentTerm command) :=
  ⟨rfl, fun _ hc => absurd hc (by simp [LogEntry.ofCommand])⟩

theorem settled (h : m.Mirrors base a) (hlatest : m.node.latestConfigIndex ≤ m.node.commitIndex) :
    a.Settled (scheme base) m.node.currentTerm m.whole := by
  refine ⟨_, h.commit, List.take_prefix _ _, ?_⟩
  rw [List.length_take_of_le h.kept.commit_le]
  exact h.kept.plain_drop h.kept.snapshot_le hlatest

theorem reconfigure (h : m.Mirrors base a) (hrole : m.node.role = .leader)
    (hlatest : m.node.latestConfigIndex ≤ m.node.commitIndex) {c : VoterConfig}
    (hnext : m.node.effectiveConfig.Next c) :
    ∃ a', Goes base a m
      ⟨(m.node.leaderAppend (.ofConfiguration m.node.currentTerm c)).1, m.folded⟩ a' := by
  refine h.leaderAppend hrole ⟨rfl, fun c' hc => ⟨?_, h.settled hlatest⟩⟩
  obtain rfl := Option.some.inj hc
  rw [h.kept.effectiveConfig_eq] at hnext
  exact hnext

theorem beginMembershipChange (h : m.Mirrors base a) (voters : List HostId) :
    ∃ a', Goes base a m ⟨(m.node.beginMembershipChange voters).1, m.folded⟩ a' :=
  reaches_ground.beginMembershipChange
    (fun hrole _ _ hjoint hlatest _ hm => hm.reconfigure hrole hlatest (.inl ⟨hjoint, rfl⟩)) a h

theorem completeMembershipChange (h : m.Mirrors base a) :
    ∃ a', Goes base a m ⟨m.node.completeMembershipChange.1, m.folded⟩ a' :=
  reaches_ground.completeMembershipChange
    (fun hjoint hrole _ hlatest _ hm => hm.reconfigure hrole hlatest (.inr ⟨_, hjoint, rfl⟩)) a h

end Member.Mirrors

end Slates.Raft
