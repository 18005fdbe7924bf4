import Slates.Raft.FastTrack
import Slates.Raft.Whole
import Slates.Library.Tables

/-!
What a fast quorum voted stays chosen: the leader that hears a majority of the votes decides it,
and so does the recovery of the windows after that leader failed.
-/

open Std (ExtTreeMap)

namespace Slates.Raft

open Register (HostId HostMap)

/-! ## Quorums -/

theorem fastQuorum_spec {n : Nat} (hn : 0 < n) :
    fastQuorum n ≤ n ∧ 2 * n < 2 * fastQuorum n + (n / 2 + 1) := by
  rw [fastQuorum]
  cases hfind : (List.range' 1 n).find? fun fast => 0 < fast * 2 + (n / 2 + 1) - n * 2 with
  | none => exact ⟨le_rfl, by rw [Option.getD_none]; omega⟩
  | some fast =>
    have hmem := List.mem_of_find?_eq_some hfind
    rw [List.mem_range'_1] at hmem
    have hlt := List.find?_some hfind
    rw [decide_eq_true_eq] at hlt
    rw [Option.getD_some]
    omega

def castOf (cast : HostId → Option (List UInt8)) (command : List UInt8) (voter : HostId) : Bool :=
  cast voter = some command

/-- A fast quorum of the voters cast one command. -/
def Chosen (voters : List HostId) (cast : HostId → Option (List UInt8)) (command : List UInt8) :
    Prop :=
  fastQuorum voters.length ≤ voters.countP (castOf cast command)

section Choice

variable {voters heard : List HostId} {cast : HostId → Option (List UInt8)}
  {chosen other : List UInt8}

theorem castOf_ne (hne : other ≠ chosen) {voter : HostId} (h : castOf cast chosen voter) :
    ¬ castOf cast other voter := by
  rw [castOf, decide_eq_true_eq] at *
  rw [h]
  exact fun heq => hne (Option.some.inj heq).symm

theorem length_of_carries (hheard : heard.Nodup) (hvoters : voters.Nodup)
    (hsub : ∀ voter ∈ heard, voter ∈ voters) (h : carries heard voters) :
    voters.length / 2 + 1 ≤ heard.length := by
  rw [carries, decide_eq_true_eq, List.countP_eq_length_filter] at h
  have hperm : (voters.filter (· ∈ heard)).Perm heard := by
    rw [List.perm_ext_iff_of_nodup (hvoters.filter _) hheard]
    intro voter
    simp only [List.mem_filter, decide_eq_true_eq]
    exact ⟨And.right, fun hvoter => ⟨hsub voter hvoter, hvoter⟩⟩
  rw [hperm.length_eq] at h
  exact h

theorem Chosen.most (hchosen : Chosen voters cast chosen) (hn : 0 < voters.length)
    (hheard : heard.Nodup) (hsub : ∀ voter ∈ heard, voter ∈ voters)
    (hmajority : voters.length / 2 + 1 ≤ heard.length) (hne : other ≠ chosen) :
    heard.countP (castOf cast other) < heard.countP (castOf cast chosen) ∧
      heard.countP (castOf cast other) + voters.length <
        fastQuorum voters.length + heard.length :=
  Quorums.countP_lt_of_fast hheard hsub hchosen
    (by have := (fastQuorum_spec hn).2; omega) fun _ _ => castOf_ne hne

theorem Chosen.reaches (hchosen : Chosen voters cast chosen) (hheard : heard.Nodup)
    (hsub : ∀ voter ∈ heard, voter ∈ voters) :
    heard.length + fastQuorum voters.length - voters.length ≤
      heard.countP (castOf cast chosen) := by
  have hkept := Quorums.countP_add_length_le hheard hsub (castOf cast chosen)
  rw [Chosen] at hchosen
  omega

theorem Chosen.unique (hchosen : Chosen voters cast chosen) (hn : 0 < voters.length)
    (hother : Chosen voters cast other) : other = chosen := by
  by_contra hne
  have hspec := (fastQuorum_spec hn).2
  have hlt : voters.length <
      voters.countP (castOf cast chosen) + voters.countP (castOf cast other) := by
    rw [Chosen] at hchosen hother
    omega
  obtain ⟨voter, -, hboth⟩ := Quorums.exists_both hlt
  exact castOf_ne hne hboth.1 hboth.2

end Choice

/-! ## The leader's decision -/

namespace RaftNode

theorem mostVoted_fold (all commands : List (List UInt8)) (best : List UInt8) :
    ∃ most, commands.foldl (fun best command =>
        match best with
        | none => some command
        | some best => if prefers all command best then some command else some best)
      (some best) = some most ∧
      all.count best ≤ all.count most ∧
        ∀ command ∈ commands, all.count command ≤ all.count most := by
  induction commands generalizing best with
  | nil => exact ⟨best, rfl, le_rfl, by simp⟩
  | cons command commands ih =>
    rw [List.foldl_cons]
    dsimp only
    by_cases hprefers : prefers all command best
    · rw [if_pos hprefers]
      obtain ⟨most, hmost, hle, hall⟩ := ih command
      rw [prefers, Bool.or_eq_true, Bool.and_eq_true, decide_eq_true_eq, beq_iff_eq] at hprefers
      refine ⟨most, hmost, by omega, fun c hc => ?_⟩
      rcases List.mem_cons.mp hc with rfl | hc
      · exact hle
      · exact hall c hc
    · rw [if_neg hprefers]
      obtain ⟨most, hmost, hle, hall⟩ := ih best
      rw [prefers, Bool.or_eq_true, decide_eq_true_eq, not_or] at hprefers
      refine ⟨most, hmost, hle, fun c hc => ?_⟩
      rcases List.mem_cons.mp hc with rfl | hc
      · omega
      · exact hall c hc

theorem mostVoted_eq {commands : List (List UInt8)} {chosen : List UInt8} (hmem : chosen ∈ commands)
    (hmost : ∀ other, other ≠ chosen → commands.count other < commands.count chosen) :
    mostVoted commands = some chosen := by
  obtain ⟨first, rest, rfl⟩ := List.exists_cons_of_ne_nil (List.ne_nil_of_mem hmem)
  obtain ⟨most, hfold, hfirst, hrest⟩ := mostVoted_fold (first :: rest) rest first
  have hle : (first :: rest).count chosen ≤ (first :: rest).count most := by
    rcases List.mem_cons.mp hmem with heq | hmem
    · rw [heq]
      exact hfirst
    · exact hrest chosen hmem
  have hmost : most = chosen := by
    by_contra hne
    exact absurd (hmost most hne) (Nat.not_lt.mpr hle)
  rw [← hmost]
  exact hfold

def Heard (node : RaftNode) (cast : HostId → Option (List UInt8)) (index : Nat) : Prop :=
  ∀ votes, node.fastVotes[index]? = some votes → ∀ voter command, votes[voter]? = some command →
    voter ∈ node.effectiveConfig.voters ∧ cast voter = some command

variable {node node' : RaftNode} {voters : List HostId} {cast : HostId → Option (List UInt8)}
  {chosen : List UInt8} {index : Nat}

theorem count_values {votes : HostMap (List UInt8)}
    (hcast : ∀ voter command, votes[voter]? = some command → cast voter = some command)
    (command : List UInt8) :
    votes.values.count command = votes.keys.countP (castOf cast command) := by
  rw [values_eq_map_toList, ← ExtTreeMap.map_fst_toList_eq_keys, List.count,
    List.countP_map, List.countP_map]
  refine List.countP_congr fun held hheld => ?_
  have hget := hcast held.1 held.2 (ExtTreeMap.mem_toList_iff_getElem?_eq_some.mp hheld)
  simp [castOf, hget]

theorem Heard.mostVoted (h : node.Heard cast index)
    (hconfig : node.effectiveConfig = ⟨voters, none⟩)
    (hvoters : voters.Nodup) (hsome : 0 < voters.length) (hchosen : Chosen voters cast chosen)
    {votes : HostMap (List UInt8)} (hvotes : node.fastVotes[index]? = some votes)
    (hmajority : node.isMajority votes.keys) : RaftNode.mostVoted votes.values = some chosen := by
  have hheld := h votes hvotes
  rw [hconfig] at hheld
  have hnodup : votes.keys.Nodup := ExtTreeMap.nodup_keys
  have hsub : ∀ voter ∈ votes.keys, voter ∈ voters := by
    intro voter hvoter
    rw [ExtTreeMap.mem_keys, ← ExtTreeMap.isSome_getElem?_iff_mem,
      Option.isSome_iff_exists] at hvoter
    obtain ⟨command, hcommand⟩ := hvoter
    exact (hheld voter command hcommand).1
  rw [isMajority, hconfig] at hmajority
  have hlength := length_of_carries hnodup hvoters hsub (VoterConfig.isMajority_voters hmajority)
  have hcount := count_values fun voter command hcommand => (hheld voter command hcommand).2
  have hmost : ∀ other, other ≠ chosen → votes.values.count other < votes.values.count chosen := by
    intro other hne
    rw [hcount, hcount]
    exact (hchosen.most hsome hnodup hsub hlength hne).1
  have hreaches := hchosen.reaches hnodup hsub
  have hspec := (fastQuorum_spec hsome).2
  refine mostVoted_eq (List.count_pos_iff.mp ?_) hmost
  rw [hcount]
  omega

/-- A node whose log grew by entries that configure nothing. -/
structure Grew (node : RaftNode) (entries : List LogEntry) (node' : RaftNode) : Prop where
  log : node'.log = node.log ++ entries
  snapshotIndex : node'.snapshotIndex = node.snapshotIndex
  config : node'.effectiveConfig = node.effectiveConfig
  term : node'.currentTerm = node.currentTerm
  votes : node'.fastVotes = node.fastVotes

theorem Grew.refl (node : RaftNode) : node.Grew [] node :=
  ⟨(List.append_nil _).symm, rfl, rfl, rfl, rfl⟩

variable {entries : List LogEntry}

theorem Grew.trans {after : RaftNode} {more : List LogEntry} (h : node.Grew entries node')
    (h' : node'.Grew more after) : node.Grew (entries ++ more) after :=
  ⟨by rw [h'.log, h.log, List.append_assoc], h'.snapshotIndex.trans h.snapshotIndex,
    h'.config.trans h.config, h'.term.trans h.term, h'.votes.trans h.votes⟩

theorem Grew.lastLogIndex (h : node.Grew entries node') :
    node'.lastLogIndex = node.lastLogIndex + entries.length := by
  rw [RaftNode.lastLogIndex, RaftNode.lastLogIndex, h.log, h.snapshotIndex, List.length_append,
    Nat.add_assoc]

theorem Grew.entryAt (h : node.Grew entries node') (at' : Nat) (hat : node.lastLogIndex < at') :
    node'.entryAt at' = entries[at' - node.lastLogIndex - 1]? := by
  rw [RaftNode.lastLogIndex] at *
  rw [RaftNode.entryAt, position, h.snapshotIndex, if_neg (by omega), Option.bind_some, h.log,
    List.getElem?_append_right (by omega)]
  congr 1
  omega

theorem Grew.advanceLeaderCommit (h : node.Grew entries node') :
    node.Grew entries node'.advanceLeaderCommit := by
  rw [RaftNode.advanceLeaderCommit]
  split_ifs
  · exact h
  · rw [stepDownIfRemoved]
    split_ifs <;>
    · rw [pruneCommitted, commitChosen, commitHeld]
      split_ifs <;> exact { h with }

theorem pushed_grew (term : Nat) (command : List UInt8) :
    node.Grew [.ofCommand term command] (node.pushed (.ofCommand term command)) := by
  refine ⟨rfl, rfl, ?_, rfl, rfl⟩
  -- the entry configures nothing, so no index of the log has another configuration
  have hlog : ∀ at' : Nat, (node.log ++ [LogEntry.ofCommand term command])[at']?.bind
      LogEntry.config = node.log[at']?.bind LogEntry.config := by
    intro at'
    rcases Nat.lt_trichotomy at' node.log.length with hlt | rfl | hlt
    · rw [List.getElem?_append_left hlt]
    · rw [List.getElem?_concat_length, List.getElem?_eq_none le_rfl]
      rfl
    · rw [List.getElem?_eq_none hlt.le, List.getElem?_eq_none (by simpa using hlt)]
  have hconfigAt : (node.pushed (.ofCommand term command)).configAt = node.configAt := by
    funext at'
    rw [configAt, configAt, RaftNode.entryAt, RaftNode.entryAt, position, position, pushed]
    dsimp only
    split_ifs
    · rfl
    · exact hlog _
  rw [effectiveConfig, effectiveConfig, hconfigAt]
  rfl

theorem leaderAppend_grew {term : Nat} {command : List UInt8}
    (h : node.leaderAppend (.ofCommand term command) = (node', true)) :
    node.lastLogIndex < maxIndex ∧ node.Grew [.ofCommand term command] node' := by
  rw [leaderAppend, pushEntry_eq] at h
  split_ifs at h with hbudget hmax
  · simp at h
  · dsimp only at h
    obtain ⟨rfl, -⟩ := Prod.mk.inj h
    have hpushed : node.Grew _ (node.pushed _) := pushed_grew term command
    refine ⟨hmax, Grew.advanceLeaderCommit ?_⟩
    exact { hpushed with }
  · simp at h

theorem leaderAppend_refused {entry : LogEntry} (h : node.leaderAppend entry = (node', false)) :
    node' = node := by
  rw [leaderAppend, pushEntry_eq] at h
  split_ifs at h
  · exact (Prod.mk.inj h).1.symm
  · simp at h
  · exact (Prod.mk.inj h).1.symm

theorem Heard.grew (h : node.Heard cast index)
    (hgrew : node.Grew entries node') :
    node'.Heard cast index := by
  rw [Heard, hgrew.votes, hgrew.config]
  exact h

theorem decideWithin_grows (fuel : Nat) (node : RaftNode) :
    ∃ entries, node.Grew entries (decideWithin fuel node) := by
  refine decideWithin_rule (R := fun a b => ∃ entries, a.Grew entries b) (fun a => ⟨[], .refl a⟩)
    (fun ⟨_, h⟩ ⟨_, h'⟩ => ⟨_, h.trans h'⟩) (fun {a _} command _ => ?_) fuel
  cases happend : a.leaderAppend (.ofCommand a.currentTerm command) with
  | mk after fits =>
    cases fits with
    | false => exact ⟨[], leaderAppend_refused happend ▸ .refl a⟩
    | true => exact ⟨_, (leaderAppend_grew happend).2⟩

section Decides

variable (hvoters : voters.Nodup) (hsome : 0 < voters.length) (hchosen : Chosen voters cast chosen)

include hvoters hsome hchosen

theorem decideWithin_grew (fuel : Nat) (hconfig : node.effectiveConfig = ⟨voters, none⟩)
    (hheard : node.Heard cast index) (hindex : node.lastLogIndex < index) :
    ∃ entries, node.Grew entries (decideWithin fuel node) ∧
      (index ≤ node.lastLogIndex + entries.length →
        entries[index - node.lastLogIndex - 1]? = some (.ofCommand node.currentTerm chosen)) := by
  have hstays : ∃ entries, node.Grew entries node ∧
      (index ≤ node.lastLogIndex + entries.length →
        entries[index - node.lastLogIndex - 1]? = some (.ofCommand node.currentTerm chosen)) :=
    ⟨[], .refl node, fun hle => absurd hle (by simpa using hindex)⟩
  induction fuel generalizing node with
  | zero => exact hstays
  | succ fuel ih =>
    rw [decideWithin]
    split
    · exact hstays
    rename_i votes hvotes
    split_ifs with hmajority
    · exact hstays
    split
    · exact hstays
    rename_i command hcommand
    split
    · rename_i after hrefused
      rw [leaderAppend_refused hrefused]
      exact hstays
    rename_i after happended
    obtain ⟨hmax, hgrew⟩ := leaderAppend_grew happended
    have hnext : satSucc node.lastLogIndex = node.lastLogIndex + 1 := by
      rw [satSucc]
      omega
    have hlast : after.lastLogIndex = node.lastLogIndex + 1 := hgrew.lastLogIndex
    rcases Nat.lt_or_ge after.lastLogIndex index with hlt | hge
    · obtain ⟨entries, hentries, hat⟩ := ih (hgrew.config.trans hconfig) (hheard.grew hgrew) hlt
        ⟨[], .refl after, fun hle => absurd hle (by simpa using hlt)⟩
      refine ⟨_ :: entries, hgrew.trans hentries, fun hle => ?_⟩
      rw [List.length_cons] at hle
      rw [show index - node.lastLogIndex - 1 = (index - after.lastLogIndex - 1) + 1 by omega,
        List.getElem?_cons_succ, hat (by omega), hgrew.term]
    · -- the index is the one just appended
      obtain rfl : index = node.lastLogIndex + 1 := by omega
      rw [hnext] at hvotes
      have hmost := hheard.mostVoted hconfig hvoters hsome hchosen hvotes (by simpa using hmajority)
      obtain rfl : chosen = command := Option.some.inj (hmost.symm.trans hcommand)
      obtain ⟨entries, hentries⟩ := decideWithin_grows fuel after
      refine ⟨_ :: entries, hgrew.trans hentries, fun _ => ?_⟩
      rw [show node.lastLogIndex + 1 - node.lastLogIndex - 1 = 0 by omega]
      rfl

theorem decideFromVotes_chosen (hconfig : node.effectiveConfig = ⟨voters, none⟩)
    (hheard : node.Heard cast index) (hindex : node.lastLogIndex < index)
    (hreached : index ≤ node.decideFromVotes.lastLogIndex) :
    node.decideFromVotes.entryAt index = some (.ofCommand node.currentTerm chosen) := by
  rw [decideFromVotes] at *
  split_ifs at * with htransfer
  · omega
  obtain ⟨entries, hgrew, hat⟩ :=
    decideWithin_grew hvoters hsome hchosen node.fastVotes.size hconfig hheard hindex
  rw [hgrew.lastLogIndex] at hreached
  rw [hgrew.entryAt index hindex, hat hreached]

theorem decideFromVotes_decides (hconfig : node.effectiveConfig = ⟨voters, none⟩)
    (hheard : node.Heard cast (node.lastLogIndex + 1)) {votes : HostMap (List UInt8)}
    (hvotes : node.fastVotes[node.lastLogIndex + 1]? = some votes)
    (hmajority : node.isMajority votes.keys) (htransfer : node.activeTransfer = none)
    (hroom : (node.leaderAppend (.ofCommand node.currentTerm chosen)).2 = true) :
    node.decideFromVotes.entryAt (node.lastLogIndex + 1) =
      some (.ofCommand node.currentTerm chosen) := by
  refine decideFromVotes_chosen hvoters hsome hchosen hconfig hheard (Nat.lt_succ_self _) ?_
  cases hafter : node.leaderAppend (.ofCommand node.currentTerm chosen) with
  | mk after fits =>
    obtain rfl : fits = true := by rw [hafter] at hroom; exact hroom
    obtain ⟨hmax, hgrew⟩ := leaderAppend_grew hafter
    have hnext : satSucc node.lastLogIndex = node.lastLogIndex + 1 := by
      rw [satSucc]
      omega
    obtain ⟨fuel, hfuel⟩ : ∃ fuel, node.fastVotes.size = fuel + 1 := by
      refine Nat.exists_eq_succ_of_ne_zero fun hzero => ?_
      rw [ExtTreeMap.eq_empty_iff_size_eq_zero.mpr hzero] at hvotes
      simp at hvotes
    obtain ⟨entries, hentries⟩ := decideWithin_grows fuel after
    rw [decideFromVotes, htransfer, if_neg (by simp), hfuel, decideWithin, hnext, hvotes]
    dsimp only
    rw [if_neg (by simpa using hmajority),
      hheard.mostVoted hconfig hvoters hsome hchosen hvotes hmajority]
    dsimp only
    rw [hafter]
    dsimp only
    rw [hentries.lastLogIndex, hgrew.lastLogIndex, List.length_singleton]
    omega

end Decides

/-! ## The recovery after the leader failed -/

def voteSlot (term : Nat) (command : List UInt8) : WindowSlot :=
  ⟨term, true, .ofCommand term command⟩

def Reported (cast : HostId → Option (List UInt8)) (term : Nat) (slot : HostId → Option WindowSlot)
    (granters : List HostId) : Prop :=
  ∀ granter ∈ granters,
    (∀ command, cast granter = some command → slot granter = some (voteSlot term command)) ∧
    (cast granter = none → ∀ held, slot granter = some held → held.ballot < toLex (term, false))

variable {granters : List HostId} {slot : HostId → Option WindowSlot} {term : Nat}
  {slots : List WindowSlot}

theorem Reported.votes (h : Reported cast term slot granters)
    (hslots : slots.Perm (granters.filterMap slot)) :
    (slots.filter fun held => held.ballot = toLex (term, false)).Perm
      (granters.filterMap fun granter => (cast granter).map (voteSlot term)) := by
  refine (hslots.filter _).trans (List.Perm.of_eq ?_)
  rw [List.filter_filterMap]
  refine List.filterMap_congr fun granter hgranter => ?_
  obtain ⟨hvoted, hlower⟩ := h granter hgranter
  cases hcast : cast granter with
  | some command =>
    have hballot : (voteSlot term command).ballot = toLex (term, false) := rfl
    rw [hvoted command hcast, Option.filter_some, if_pos (decide_eq_true hballot)]
    rfl
  | none =>
    cases hslot : slot granter with
    | none => rfl
    | some held =>
      rw [Option.filter_some, if_neg (by simpa using (hlower hcast held hslot).ne)]
      rfl

theorem Reported.highest (h : Reported cast term slot granters)
    (hslots : slots.Perm (granters.filterMap slot)) {granter : HostId}
    (hgranter : granter ∈ granters)
    (hcast : cast granter = some chosen) :
    (slots.map WindowSlot.ballot).max? = some (toLex (term, false)) := by
  rw [List.max?_eq_some_iff]
  constructor
  · refine List.mem_map.mpr ⟨voteSlot term chosen, ?_, rfl⟩
    exact hslots.mem_iff.mpr
      (List.mem_filterMap.mpr ⟨granter, hgranter, (h granter hgranter).1 chosen hcast⟩)
  · intro ballot hballot
    obtain ⟨held, hheld, rfl⟩ := List.mem_map.mp hballot
    obtain ⟨voter, hvoter, hslot⟩ := List.mem_filterMap.mp (hslots.mem_iff.mp hheld)
    cases hvote : cast voter with
    | some command =>
      rw [(h voter hvoter).1 command hvote] at hslot
      obtain rfl := Option.some.inj hslot
      exact le_rfl
    | none => exact ((h voter hvoter).2 hvote held hslot).le

theorem countP_voteSlot (command : List UInt8) :
    ((granters.filterMap fun granter => (cast granter).map (voteSlot term)).countP
      fun held => held.entry = .ofCommand term command) =
        granters.countP (castOf cast command) := by
  rw [List.countP_filterMap]
  refine List.countP_congr fun granter _ => ?_
  cases hcast : cast granter with
  | none => simp [castOf, hcast]
  | some voted => simp [castOf, hcast, voteSlot, LogEntry.ofCommand]

theorem recoveredValue_chosen (hvoters : voters.Nodup) (hsome : 0 < voters.length)
    (hchosen : Chosen voters cast chosen) (hconfig : node.effectiveConfig = ⟨voters, none⟩)
    (hgranters : granters.Nodup) (hsub : ∀ granter ∈ granters, granter ∈ voters)
    (hmajority : node.isMajority granters) (hreported : Reported cast term slot granters)
    (hslots : slots.Perm (granters.filterMap slot)) :
    node.recoveredValue slots granters.length = some (.ofCommand term chosen, true) := by
  rw [isMajority, hconfig] at hmajority
  have hlength := length_of_carries hgranters hvoters hsub (VoterConfig.isMajority_voters hmajority)
  have hreaches := hchosen.reaches hgranters hsub
  have hspec := (fastQuorum_spec hsome).2
  obtain ⟨granter, hgranter, hcast⟩ : ∃ granter ∈ granters, castOf cast chosen granter := by
    rw [← List.countP_pos_iff]
    omega
  have hcast : cast granter = some chosen := of_decide_eq_true hcast
  have hvotes := hreported.votes hslots
  have hcount : ∀ command, ((slots.filter fun held => held.ballot = toLex (term, false)).countP
      fun held => held.entry = .ofCommand term command) = granters.countP (castOf cast command) :=
    fun command => (hvotes.countP_eq _).trans (countP_voteSlot command)
  rw [recoveredValue, hreported.highest hslots hgranter hcast]
  dsimp only
  rw [if_neg (by simp), if_neg (by simp [hconfig]), hconfig]
  dsimp only
  -- the first slot with enough votes is one of the chosen command
  cases hfind : (slots.filter fun held => held.ballot = toLex (term, false)).find? fun candidate =>
      decide (granters.length + fastQuorum voters.length - voters.length ≤
        (slots.filter fun held => held.ballot = toLex (term, false)).countP
          fun other => other.entry = candidate.entry) with
  | none =>
    have hmem : voteSlot term chosen ∈ slots.filter fun held => held.ballot = toLex (term, false) :=
      hvotes.mem_iff.mpr (List.mem_filterMap.mpr ⟨granter, hgranter, by rw [hcast]; rfl⟩)
    have hfew := List.find?_eq_none.mp hfind _ hmem
    rw [decide_eq_true_eq] at hfew
    exact absurd (hreaches.trans_eq (hcount chosen).symm) hfew
  | some found =>
    have hmem := hvotes.mem_iff.mp (List.mem_of_find?_eq_some hfind)
    have henough := List.find?_some hfind
    rw [decide_eq_true_eq] at henough
    obtain ⟨voter, -, hfound⟩ := List.mem_filterMap.mp hmem
    obtain ⟨command, -, rfl⟩ := Option.map_eq_some_iff.mp hfound
    have henough := henough.trans_eq (hcount command)
    rw [Option.map_some]
    by_cases hne : command = chosen
    · rw [hne]
      rfl
    · have hless := (hchosen.most hsome hgranters hsub hlength hne).2
      omega

/-- **A fast choice survives.** Each voter casts at most one vote at an index in a term. A command
that a fast quorum cast is the only one the leader's decision appends there, and it is appended once
a majority's votes are heard at the next index; the recovery after any classic majority chooses it;
and no other command is cast by a fast quorum. -/
theorem fast_choice_survives (hvoters : voters.Nodup) (hsome : 0 < voters.length)
    (cast : HostId → Option (List UInt8)) (hchosen : Chosen voters cast chosen) :
    (∀ (node : RaftNode) (index : Nat), node.effectiveConfig = ⟨voters, none⟩ →
      node.Heard cast index →
      (node.lastLogIndex < index → index ≤ node.decideFromVotes.lastLogIndex →
        node.decideFromVotes.entryAt index = some (.ofCommand node.currentTerm chosen)) ∧
      (index = node.lastLogIndex + 1 →
        (∃ votes, node.fastVotes[index]? = some votes ∧ node.isMajority votes.keys) →
        node.activeTransfer = none →
        (node.leaderAppend (.ofCommand node.currentTerm chosen)).2 = true →
        node.decideFromVotes.entryAt index = some (.ofCommand node.currentTerm chosen))) ∧
    (∀ (node : RaftNode) (term : Nat) (granters : List HostId) (slot : HostId → Option WindowSlot)
      (slots : List WindowSlot), node.effectiveConfig = ⟨voters, none⟩ →
      granters.Nodup → (∀ granter ∈ granters, granter ∈ voters) → node.isMajority granters →
      Reported cast term slot granters → slots.Perm (granters.filterMap slot) →
      node.recoveredValue slots granters.length = some (.ofCommand term chosen, true)) ∧
    ∀ other, Chosen voters cast other → other = chosen := by
  refine ⟨fun node index hconfig hheard => ⟨?_, ?_⟩, ?_, ?_⟩
  · exact decideFromVotes_chosen hvoters hsome hchosen hconfig hheard
  · rintro rfl ⟨votes, hvotes, hmajority⟩ htransfer hroom
    exact decideFromVotes_decides hvoters hsome hchosen hconfig hheard hvotes hmajority htransfer
      hroom
  · intro node term granters slot slots hconfig hgranters hsub hmajority hreported hslots
    exact recoveredValue_chosen hvoters hsome hchosen hconfig hgranters hsub hmajority hreported
      hslots
  · intro other hother
    exact hchosen.unique hsome hother

/-- A leader of three heard two of its voters vote one command. -/
def heardTwo : RaftNode :=
  { new 1 [1, 2, 3] with
    role := .leader
    currentTerm := 1
    syncIndex := 1
    openFrom := 1
    fastVotes := (∅ : ExtTreeMap Nat (HostMap (List UInt8))).insert 1
      (((∅ : HostMap (List UInt8)).insert 2 [7]).insert 3 [7]) }

theorem heardTwo_heard : heardTwo.Heard (fun _ => some [7]) 1 := by
  intro votes hvotes voter command hcommand
  rw [heardTwo] at hvotes
  dsimp only at hvotes
  rw [getElem?_insert_if, if_pos rfl] at hvotes
  obtain rfl := Option.some.inj hvotes
  rw [getElem?_insert_if, getElem?_insert_if] at hcommand
  split_ifs at hcommand with h3 h2
  · subst h3
    exact ⟨by decide, hcommand⟩
  · subst h2
    exact ⟨by decide, hcommand⟩
  · simp at hcommand

theorem fast_choice_survives_three :
    heardTwo.decideFromVotes.entryAt 1 = some (.ofCommand 1 [7]) ∧
      (new 2 [1, 2, 3]).recoveredValue [voteSlot 1 [7], voteSlot 1 [7]] 2 =
        some (.ofCommand 1 [7], true) := by
  have hsurvives := @fast_choice_survives [1, 2, 3] [7] (by decide) (by decide) (fun _ => some [7])
    (by rw [Chosen]; decide)
  refine ⟨(hsurvives.1 heardTwo 1 rfl heardTwo_heard).2 rfl ⟨_, rfl, by decide +kernel⟩ rfl
    (by decide +kernel), ?_⟩
  refine hsurvives.2.1 (new 2 [1, 2, 3]) 1 [1, 2] (fun _ => some (voteSlot 1 [7])) _ rfl (by decide)
    (by simp) (by decide +kernel) (fun granter _ => ⟨?_, by simp⟩) (List.Perm.refl _)
  rintro command hcommand
  rw [Option.some.inj hcommand]

end RaftNode

end Slates.Raft
