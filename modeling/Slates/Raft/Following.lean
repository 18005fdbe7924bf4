import Slates.Raft.Mirror

/-!
The follower's handlers beside the abstract run: a later term is a raise, an append or a snapshot a
part of a leader's log taken up, a reply an acknowledgement.
-/

open Std (ExtTreeMap)

namespace Slates.Raft

open Register (HostId)
open Consensus.State (Moves Sound)

/-- The handler's effect, after moves of its node. -/
def Handles (base : VoterConfig) (a : Account) (m : Member) (effect : Effect) : Prop :=
  ∃ a', Moves (scheme base) m.node.id a a' ∧ effect.1.node.id = m.node.id ∧
    effect.1.Mirrors base a' ∧ ∀ message ∈ effect.2, message.Sent base a'

/-- The member a handler leaves, after moves of its node. -/
def Goes (base : VoterConfig) (a : Account) (m m' : Member) (a' : Account) : Prop :=
  Moves (scheme base) m.node.id a a' ∧ m'.node.id = m.node.id ∧ m'.Mirrors base a'

def Follows (base : VoterConfig) (a : Account) (m m' : Member) (a' : Account) : Prop :=
  Moves (scheme base) m.node.id a a' ∧ a'.lead = a.lead ∧ m'.node.id = m.node.id ∧
    m'.Mirrors base a'

variable {base : VoterConfig} {a a' a'' : Account} {m m' m'' : Member}

theorem Handles.of_mirrors (h : m'.Mirrors base a) (hid : m'.node.id = m.node.id) :
    Handles base a m (m', []) :=
  ⟨a, .refl _ a, hid, h, by simp⟩

variable {node : RaftNode}

namespace Goes

theorem trans (h : Goes base a m m' a') (h' : Goes base a' m' m'' a'') : Goes base a m m'' a'' := by
  obtain ⟨hm, hid, -⟩ := h
  obtain ⟨hm', hid', hmirrors⟩ := h'
  rw [hid] at hm' hid'
  exact ⟨hm.trans hm', hid', hmirrors⟩

theorem congr {node' : RaftNode} {folded : List LogEntry}
    (h : Goes base a m ⟨node, folded⟩ a') (hcore : node'.core = node.core) :
    Goes base a m ⟨node', folded⟩ a' := by
  obtain ⟨hm, hid, hmirrors⟩ := h
  exact ⟨hm, (congrArg RaftNode.Core.id hcore).trans hid, hmirrors.congr hcore⟩

theorem handles {sent : List Message} (h : Goes base a m m' a')
    (hsent : ∀ message ∈ sent, message.Sent base a') : Handles base a m (m', sent) :=
  ⟨a', h.1, h.2.1, h.2.2, hsent⟩

theorem sends {node : RaftNode} (h : Goes base a m ⟨node, m.folded⟩ a')
    {message : Option Message} (hsent : ∀ sent ∈ message, sent.Sent base a') :
    Handles base a m (m.sends node message) := by
  rw [Member.sends, Member.becomes_of_kept h.2.2.kept]
  exact h.handles fun sent hmem => hsent sent (Option.mem_toList.mp hmem)

theorem quietly (h : Goes base a m ⟨node, m.folded⟩ a') : Handles base a m (m.quietly node) := by
  rw [Member.quietly, Member.becomes_of_kept h.2.2.kept]
  exact h.handles (by simp)

end Goes

namespace Follows

theorem goes (h : Follows base a m m' a') : Goes base a m m' a' := ⟨h.1, h.2.2⟩

theorem of_mirrors (h : m'.Mirrors base a) (hid : m'.node.id = m.node.id) : Follows base a m m' a :=
  ⟨.refl _ a, rfl, hid, h⟩

theorem trans (h : Follows base a m m' a') (h' : Follows base a' m' m'' a'') :
    Follows base a m m'' a'' := by
  obtain ⟨hm, hid, hmirrors⟩ := h.goes.trans h'.goes
  exact ⟨hm, h'.2.1.trans h.2.1, hid, hmirrors⟩

theorem congr {node' : RaftNode} {folded : List LogEntry}
    (h : Follows base a m ⟨node, folded⟩ a') (hcore : node'.core = node.core) :
    Follows base a m ⟨node', folded⟩ a' := by
  obtain ⟨hm, hid, hmirrors⟩ := h.goes.congr hcore
  exact ⟨hm, h.2.1, hid, hmirrors⟩

end Follows

theorem fixed_mono {t u : Nat} {entries : List LogEntry} (h : a.Fixed t entries) (htu : t ≤ u) :
    a.Fixed u entries := by
  rcases h with hnil | ⟨w, n, len, r, hw, hrest⟩
  · exact .inl hnil
  · exact .inr ⟨w, n, len, r, hw.trans htu, hrest⟩

theorem fixed_prefix {t : Nat} {xs ys : List LogEntry} (h : a.Fixed t ys) (hxs : xs <+: ys) :
    a.Fixed t xs := by
  rcases h with rfl | ⟨w, n, len, r, hw, hchosen, hr, hys⟩
  · exact .inl (List.prefix_nil.mp hxs)
  · exact .inr ⟨w, n, len, r, hw, hchosen, hr, hxs.trans hys⟩

namespace Member.Mirrors

theorem idle (h : m.Mirrors base a) (role : Role) (hrole : role ≠ .leader)
    (hrole' : role ≠ .candidate) (votes : List HostId) :
    Member.Mirrors base a ⟨{ m.node with role := role, votes := votes }, m.folded⟩ :=
  { h with
    kept := { h.kept with }
    plain := { h.plain with }
    leads hlead := absurd hlead hrole
    matched hlead := absurd hlead hrole
    stood hstand := absurd hstand hrole'
    votes hstand := absurd hstand hrole' }

variable {t n : Nat} {r : Consensus.Reign HostId LogEntry}

section

variable (h : m.Mirrors base a)

include h

theorem stepDown (ht : m.node.currentTerm < t) :
    ∃ a', Follows base a m ⟨m.node.stepDown t, m.folded⟩ a' := by
  refine ⟨_, Moves.raise (t := t) (by rw [h.term]; exact ht), rfl, rfl, ?_⟩
  refine
    { kept := { h.kept with }
      plain := ⟨fun hr => ?_, h.plain.2⟩
      term := Function.update_self _ _ _
      vote := Function.update_self _ _ _
      log := h.log
      commit := fixed_mono h.commit ht.le
      leads := nofun
      matched := nofun
      stood := nofun
      votes := nofun
      slots := h.slots }
  rw [show (m.node.stepDown t).reports = ∅ from rfl, ExtTreeMap.getElem?_empty] at hr
  exact absurd hr (by simp)

theorem observeTerm (t : Nat) : ∃ a', Follows base a m ⟨m.node.observeTerm t, m.folded⟩ a' := by
  rw [RaftNode.observeTerm]
  split_ifs with ht
  · exact h.stepDown ht
  · exact ⟨a, .of_mirrors h rfl⟩

theorem recognizeLeader (t : Nat) :
    ∃ a', Follows base a m ⟨m.node.recognizeLeader t, m.folded⟩ a' := by
  obtain ⟨a', hf⟩ := h.observeTerm t
  have hidle := hf.2.2.2.idle .follower (by simp) (by simp) (m.node.observeTerm t).votes
  exact ⟨a', (hf.trans (.of_mirrors hidle rfl)).congr rfl⟩

theorem takeUp (hs : Sound (scheme base) a) (hrole : m.node.role = .follower)
    (hr : a.lead m.node.currentTerm = some r) {X : List LogEntry} (hX : X <+: r.log)
    (node : RaftNode)
    (hcore : node.core = { m.node.core with log := node.log, configEntries := node.configEntries })
    (hkept : Member.Kept base ⟨node, m.folded⟩)
    (hwhole : Placing m.whole X X.length (Member.whole ⟨node, m.folded⟩)) :
    ∃ a', Follows base a m ⟨node, m.folded⟩ a' := by
  rw [Placing, List.take_length, ← h.log] at hwhole
  have hid : node.id = m.node.id := congrArg RaftNode.Core.id hcore
  have hterm : node.currentTerm = m.node.currentTerm :=
    congrArg RaftNode.Core.currentTerm hcore
  have hcommit : node.commitIndex = m.node.commitIndex :=
    congrArg RaftNode.Core.commitIndex hcore
  have hnrole : node.role = .follower := (congrArg RaftNode.Core.role hcore).trans hrole
  refine ⟨_, Moves.adopt hr hX h.term.le hwhole, rfl, hid, ?_⟩
  have hplain : node.Plain := by
    have hreports : node.reports = m.node.reports := congrArg RaftNode.Core.reports hcore
    have hrecovery : node.recovery = m.node.recovery := congrArg RaftNode.Core.recovery hcore
    exact ⟨fun hreport => h.plain.1 (hreports ▸ hreport), fun hrec => h.plain.2 (hrecovery ▸ hrec)⟩
  refine
    { kept := hkept
      plain := hplain
      term := ?_
      vote := ?_
      log := ?_
      commit := ?_
      leads := fun hlead => absurd (hnrole.symm.trans hlead) (by simp)
      matched := fun hlead => absurd (hnrole.symm.trans hlead) (by simp)
      stood := fun hstand => absurd (hnrole.symm.trans hstand) (by simp)
      votes := fun hstand => absurd (hnrole.symm.trans hstand) (by simp)
      slots := fun hslot => h.slots ?_ }
  · dsimp only
    rw [hid, hterm, Function.update_self]
  · dsimp only
    rw [if_pos h.term, hid, h.vote]
    exact (congrArg RaftNode.Core.votedFor hcore).symm
  · dsimp only
    rw [hid, Function.update_self]
  · dsimp only
    rw [hterm, hcommit]
    have hheld : m.whole.take m.node.commitIndex <+: r.log :=
      hs.fixed_lead h.commit le_rfl hr
    rcases hwhole with ⟨-, hsame⟩ | ⟨-, hnew⟩
    · rw [hsame, h.log]
      exact h.commit
    · -- what was committed is in the leader's log, and so in the part taken up
      have hle := hkept.commit_le
      rw [hnew, hcommit] at hle
      have hlen : (m.whole.take m.node.commitIndex).length = m.node.commitIndex :=
        List.length_take_of_le h.kept.commit_le
      have hpart : X.take m.node.commitIndex = m.whole.take m.node.commitIndex := by
        rw [← Consensus.take_eq_of_isPrefix hX hle, Consensus.take_eq_of_isPrefix hheld hlen.ge,
          List.take_take, min_self]
      rw [hnew, hpart]
      exact h.commit
  · have hwindow : node.window = m.node.window := congrArg RaftNode.Core.window hcore
    rw [← hwindow]
    exact hslot

theorem committed (hn : m.node.commitIndex ≤ n) (hle : n ≤ m.whole.length)
    (hfixed : a.Fixed m.node.currentTerm (m.whole.take n)) :
    Member.Mirrors base a ⟨{ m.node with commitIndex := n }, m.folded⟩ :=
  { h with
    kept := ⟨h.kept.1, h.kept.2, h.kept.3, h.kept.4, h.kept.5, h.kept.6.trans hn, hle⟩
    plain := { h.plain with }
    commit := hfixed }

theorem learnCommit {leaderCommit index : Nat}
    (hindex : m.node.commitIndex ≤ index) (hle : index ≤ m.whole.length)
    (hfixed : a.Fixed m.node.currentTerm (m.whole.take (min leaderCommit index))) :
    Member.Mirrors base a ⟨m.node.learnCommit leaderCommit index, m.folded⟩ := by
  rw [RaftNode.learnCommit]
  split_ifs with hlt
  · exact (h.committed (by omega) ((min_le_right _ _).trans hle) hfixed).congr rfl
  · exact h

theorem withWindow (window : ExtTreeMap Nat WindowSlot)
    (hwindow : ∀ {i : Nat} {slot : WindowSlot}, window[i]? = some slot →
      slot.Plain ∧ (slot.fast = false → slot.Placed a i)) :
    Member.Mirrors base a ⟨{ m.node with window := window }, m.folded⟩ :=
  { h with
    kept := { h.kept with }
    plain := { h.plain with }
    slots := hwindow }

theorem pruneCommitted : Member.Mirrors base a ⟨m.node.pruneCommitted, m.folded⟩ := by
  refine (h.withWindow (m.node.window.filter fun index _ => m.node.commitIndex < index)
    fun hslot => ?_).congr rfl
  rw [ExtTreeMap.getElem?_filter', Option.filter_eq_some_iff] at hslot
  exact h.slots hslot.1

theorem observeSync (term syncIndex : Nat) :
    Member.Mirrors base a ⟨m.node.observeSync term syncIndex, m.folded⟩ := by
  rw [RaftNode.observeSync]
  split_ifs
  · exact h
  · exact h.congr rfl

theorem absorbWithin (hs : Sound (scheme base) a)
    (hrole : m.node.role = .follower) (hr : a.lead m.node.currentTerm = some r)
    (htail : m.whole <+: r.log) (fuel : Nat) :
    ∃ a', Follows base a m ⟨m.node.absorbWithin m.node.currentTerm fuel, m.folded⟩ a' ∧
      (m.node.absorbWithin m.node.currentTerm fuel).currentTerm = m.node.currentTerm ∧
      m.whole <+: Member.whole ⟨m.node.absorbWithin m.node.currentTerm fuel, m.folded⟩ ∧
      Member.whole ⟨m.node.absorbWithin m.node.currentTerm fuel, m.folded⟩ <+: r.log := by
  induction fuel generalizing m a with
  | zero => exact ⟨a, .of_mirrors h rfl, rfl, List.prefix_rfl, htail⟩
  | succ fuel ih =>
    rw [RaftNode.absorbWithin]
    cases hslot : m.node.window[satSucc m.node.lastLogIndex]? with
    | none => exact ⟨a, .of_mirrors h rfl, rfl, List.prefix_rfl, htail⟩
    | some slot =>
      dsimp only
      split_ifs with hother
      · exact ⟨a, .of_mirrors h rfl, rfl, List.prefix_rfl, htail⟩
      push Not at hother
      rw [RaftNode.pushEntry_eq]
      by_cases hroom : m.node.lastLogIndex < maxIndex
      swap
      · rw [if_neg hroom]
        exact ⟨a, .of_mirrors h rfl, rfl, List.prefix_rfl, htail⟩
      rw [if_pos hroom]
      dsimp only
      -- the slot's entry is the leader's next one
      obtain ⟨-, q, hq, hentry⟩ := (h.slots hslot).2 (Bool.eq_false_iff.mpr hother.1)
      rw [hother.2.1] at hq
      obtain rfl : r = q := Option.some.inj (hr.symm.trans hq)
      rw [satSucc, min_eq_left (by omega), h.kept.lastLogIndex_eq, Nat.add_sub_cancel] at hentry
      have hnext : m.whole ++ [slot.entry] <+: r.log := by
        have htaken : r.log.take (m.whole.length + 1) = m.whole ++ [slot.entry] := by
          rw [List.take_add_one, hentry, Option.toList_some,
            Consensus.take_eq_of_isPrefix htail le_rfl, List.take_length]
        rw [← htaken]
        exact List.take_prefix _ _
      have hkept := h.kept.pushed hroom slot.entry
      have hwhole := Member.whole_pushed m slot.entry
      obtain ⟨a', hf⟩ := h.takeUp hs hrole hr hnext (m.node.pushed slot.entry) rfl hkept
        (by
          rw [hwhole, Placing, List.take_length]
          refine .inr ⟨fun hpre => ?_, rfl⟩
          have := hpre.length_le
          rw [List.length_append, List.length_singleton] at this
          omega)
      have hf' : Follows base a m
          ⟨{ m.node.pushed slot.entry with retentionPending := true }, m.folded⟩ a' := hf.congr rfl
      have hr' : a'.lead m.node.currentTerm = some r := hf.2.1 ▸ hr
      obtain ⟨a'', hf'', hterm, hgrows, htail'⟩ := ih hf'.2.2.2 (hf'.1.sound hs) hrole hr'
        (by
          change Member.whole ⟨m.node.pushed slot.entry, m.folded⟩ <+: r.log
          rw [hwhole]
          exact hnext)
      refine ⟨a'', hf'.trans hf'', hterm, List.IsPrefix.trans ?_ hgrows, htail'⟩
      change m.whole <+: Member.whole ⟨m.node.pushed slot.entry, m.folded⟩
      rw [hwhole]
      exact List.prefix_append _ _

theorem acknowledge (hr : a.lead m.node.currentTerm = some r)
    (hn : n ≤ r.log.length) (hheld : r.log.take n <+: m.whole) :
    ∃ a', Follows base a m m a' ∧
      Acknowledged a' r.node m.node.id m.node.currentTerm n m.whole := by
  have hm := Moves.ack (K := scheme base) (v := m.node.id) (s := a) (n := n)
    (by rw [h.term]; exact hr) hn (by rw [h.log]; exact hheld)
  refine ⟨_, ⟨hm, rfl, rfl, ?_⟩, r, hr, rfl, .inr ⟨rfl, h.term.symm, rfl⟩, hn, hheld⟩
  exact
    { h with
      commit := h.commit.grows hm.grows
      matched := fun hlead f k hf hk hpos => by
        obtain ⟨n, hn, ha⟩ := h.matched hlead hf hk hpos
        exact ⟨n, hn, .inl ha⟩
      slots := fun hslot =>
        ⟨(h.slots hslot).1, fun hslow => ((h.slots hslot).2 hslow).grows hm.grows⟩ }

theorem acknowledgeCommit (hs : Sound (scheme base) a) (hr : a.lead m.node.currentTerm = some r) :
    ∃ a', Follows base a m m a' ∧
      Acknowledged a' r.node m.node.id m.node.currentTerm m.node.commitIndex m.whole := by
  have hheld := hs.fixed_lead h.commit le_rfl hr
  have hlen := List.length_take_of_le h.kept.commit_le
  refine h.acknowledge hr (hlen ▸ hheld.length_le) ?_
  rw [Consensus.take_eq_of_isPrefix hheld hlen.ge, List.take_take, min_self]
  exact List.take_prefix _ _

theorem bufferFrom (hr : a.lead t = some r) {X entries : List LogEntry}
    (hX : X <+: r.log) (hbound : X.length ≤ maxIndex) {i : Nat} (hentries : X.drop i = entries)
    (hplain : ∀ e ∈ entries, e.config = none) (floor reach : Nat) :
    Follows base a m ⟨RaftNode.bufferFrom t floor reach m.node i entries, m.folded⟩ a := by
  induction entries generalizing m i with
  | nil => exact .of_mirrors h rfl
  | cons e entries ih =>
    have hlt : i < X.length := by
      by_contra hge
      rw [List.drop_of_length_le (not_lt.mp hge)] at hentries
      exact absurd hentries (by simp)
    have hcons := List.drop_eq_getElem_cons hlt
    rw [hentries, List.cons.injEq] at hcons
    have hsat : satSucc i = i + 1 := min_eq_left (by omega)
    have hrest : ∀ x ∈ entries, x.config = none := fun x hx => hplain x (List.mem_cons_of_mem _ hx)
    rw [RaftNode.bufferFrom, hsat]
    split_ifs with hskip
    · exact ih h hcons.2.symm hrest
    · push Not at hskip
      have hnew := h.withWindow (m.node.window.insert (i + 1) ⟨t, false, e⟩)
        (by
          intro j slot hslot
          rw [getElem?_insert_if] at hslot
          split_ifs at hslot with hj
          · obtain rfl := Option.some.inj hslot
            subst hj
            refine ⟨hplain e List.mem_cons_self, fun _ => ⟨Nat.succ_pos i, r, hr, ?_⟩⟩
            refine Consensus.getElem?_of_isPrefix hX ?_
            rw [Nat.add_sub_cancel, List.getElem?_eq_getElem hlt, hcons.1]
          · exact h.slots hslot)
      have hnew' : Member.Mirrors base a
          ⟨{ m.node with
            window := m.node.window.insert (i + 1) ⟨t, false, e⟩, retentionPending := true },
            m.folded⟩ := hnew.congr rfl
      exact (Follows.of_mirrors hnew' rfl).trans (ih hnew' hcons.2.symm hrest)

end

end Member.Mirrors

theorem RaftNode.bufferFrom_of_budget_zero (h : node.windowBudget = 0)
    (t floor reach i : Nat) (entries : List LogEntry) :
    RaftNode.bufferFrom t floor reach node i entries = node := by
  induction entries generalizing i with
  | nil => rfl
  | cons e entries ih =>
    rw [bufferFrom, if_pos, ih]
    refine .inr (.inr (.inr (.inr ?_)))
    rw [windowFits, h, LogEntry.encodedLen]
    simp

/-- No configuration of the append would go into the window. -/
def RaftNode.BuffersPlain (node : RaftNode) (request : AppendEntries) : Prop :=
  node.windowBudget = 0 ∨ node.syncedTerm ≠ request.term ∨ ∀ e ∈ request.entries, e.config = none

instance (node : RaftNode) (request : AppendEntries) : Decidable (node.BuffersPlain request) :=
  inferInstanceAs (Decidable (_ ∨ _ ∨ ∀ e ∈ request.entries, _))

theorem Member.Mirrors.buffer (h : m.Mirrors base a) {request : AppendEntries}
    {r : Consensus.Reign HostId LogEntry} {X : List LogEntry} (hc : request.Carries a r X)
    (hplain : m.node.BuffersPlain request) :
    Follows base a m ⟨m.node.buffer request, m.folded⟩ a := by
  rw [RaftNode.buffer]
  split_ifs with hskip
  · exact .of_mirrors h rfl
  push Not at hskip
  rcases hplain with hzero | hsync | hplain
  · rw [RaftNode.bufferFrom_of_budget_zero hzero]
    exact .of_mirrors h rfl
  · exact absurd hskip.1 hsync
  · exact h.bufferFrom hc.lead hc.part hc.bound hc.entries hplain _ _

end Slates.Raft
