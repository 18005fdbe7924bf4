import Slates.Raft.Retention

/-!
What no message may do to a node: leave it with a state its own recovery refuses, move its commit
index back, or take an entry at or below it other than into the snapshot.
-/

open Std (ExtTreeMap)

namespace Slates.Raft

open Register (HostId)

/-! ## What recovery accepts -/

/-- The configuration of an entry, if it has one, is legal. -/
def LogEntry.Lawful (entry : LogEntry) : Prop := entry.config.all validConfig = true

/-- Entries of terms that never fall, with legal configurations. -/
structure Ascends (entries : List LogEntry) (previous term : Nat) : Prop where
  positive : ∀ entry ∈ entries, 0 < entry.term
  bounded : ∀ entry ∈ entries, entry.term ≤ term
  lawful : ∀ entry ∈ entries, entry.Lawful
  ascending : (previous :: entries.map LogEntry.term).Pairwise (· ≤ ·)

namespace Ascends

variable {entries more : List LogEntry} {entry : LogEntry} {previous term : Nat}

theorem nil (previous term : Nat) : Ascends [] previous term :=
  ⟨by simp, by simp, by simp, by simp⟩

theorem cons_iff : Ascends (entry :: entries) previous term ↔
    (0 < entry.term ∧ entry.term ≤ term ∧ previous ≤ entry.term ∧ entry.Lawful) ∧
      Ascends entries entry.term term := by
  constructor
  · intro h
    have hsorted := h.ascending
    rw [List.map_cons, List.pairwise_cons] at hsorted
    exact ⟨⟨h.positive entry List.mem_cons_self, h.bounded entry List.mem_cons_self,
        hsorted.1 _ List.mem_cons_self, h.lawful entry List.mem_cons_self⟩,
      fun e he => h.positive e (List.mem_cons_of_mem _ he),
      fun e he => h.bounded e (List.mem_cons_of_mem _ he),
      fun e he => h.lawful e (List.mem_cons_of_mem _ he), hsorted.2⟩
  · rintro ⟨⟨hpositive, hbounded, hprevious, hlawful⟩, h⟩
    refine ⟨List.forall_mem_cons.mpr ⟨hpositive, h.positive⟩,
      List.forall_mem_cons.mpr ⟨hbounded, h.bounded⟩,
      List.forall_mem_cons.mpr ⟨hlawful, h.lawful⟩, ?_⟩
    rw [List.map_cons, List.pairwise_cons]
    refine ⟨List.forall_mem_cons.mpr ⟨hprevious, fun t ht => hprevious.trans ?_⟩, h.ascending⟩
    exact (List.pairwise_cons.mp h.ascending).1 t ht

section

variable (h : Ascends entries previous term)

include h

theorem mono {term' : Nat} (hterm : term ≤ term') : Ascends entries previous term' :=
  ⟨h.positive, fun e he => (h.bounded e he).trans hterm, h.lawful, h.ascending⟩

theorem take (n : Nat) : Ascends (entries.take n) previous term := by
  have hsub : (entries.take n).Sublist entries := List.take_sublist n entries
  exact ⟨fun e he => h.positive e (hsub.subset he), fun e he => h.bounded e (hsub.subset he),
    fun e he => h.lawful e (hsub.subset he), h.ascending.sublist ((hsub.map _).cons_cons _)⟩

theorem drop {n : Nat} (hn : entries[n]? = some entry) :
    Ascends (entries.drop (n + 1)) entry.term term := by
  induction entries generalizing previous n with
  | nil => simp at hn
  | cons first entries ih =>
    obtain ⟨-, hrest⟩ := cons_iff.mp h
    cases n with
    | zero =>
      obtain rfl := Option.some.inj hn
      exact hrest
    | succ n => exact ih hrest hn

theorem push (hprevious : previous ≤ term)
    (hterm : entry.term = term) (hpositive : 0 < term) (hlawful : entry.Lawful) :
    Ascends (entries ++ [entry]) previous term := by
  induction entries generalizing previous with
  | nil => exact cons_iff.mpr ⟨⟨hterm ▸ hpositive, hterm.le, hterm ▸ hprevious, hlawful⟩, nil _ _⟩
  | cons first entries ih =>
    obtain ⟨hfirst, hrest⟩ := cons_iff.mp h
    exact cons_iff.mpr ⟨hfirst, ih hrest hfirst.2.1⟩

theorem append (hmore : Ascends more (entries.getLast?.elim previous LogEntry.term) term) :
    Ascends (entries ++ more) previous term := by
  induction entries generalizing previous with
  | nil => exact hmore
  | cons first entries ih =>
    obtain ⟨hfirst, hrest⟩ := cons_iff.mp h
    refine cons_iff.mpr ⟨hfirst, ih hrest ?_⟩
    cases entries with
    | nil => exact hmore
    | cons second rest =>
      rw [List.getLast?_cons_cons] at hmore
      cases hlast : (second :: rest).getLast? with
      | none => simp at hlast
      | some last =>
        rw [hlast] at hmore
        exact hmore

end

theorem of_admitEntries (h : admitEntries entries previous term = .ok ()) :
    Ascends entries previous term := by
  induction entries generalizing previous with
  | nil => exact nil _ _
  | cons entry entries ih =>
    rw [admitEntries] at h
    split_ifs at h with hterm hconfig
    simp only [not_or, Nat.not_lt] at hterm
    refine cons_iff.mpr ⟨⟨Nat.pos_of_ne_zero hterm.1, hterm.2.1, hterm.2.2, ?_⟩, ih h⟩
    rw [LogEntry.Lawful]
    cases hc : entry.config with
    | none => rfl
    | some config => simpa [hc] using hconfig

theorem validateLog (h : Ascends entries previous term) :
    SavedRaft.validateLog entries previous term = .ok () := by
  induction entries generalizing previous with
  | nil => rfl
  | cons entry entries ih =>
    obtain ⟨⟨hpositive, hbounded, hprevious, hlawful⟩, hrest⟩ := cons_iff.mp h
    rw [SavedRaft.validateLog, if_neg (by omega), if_neg ?_]
    · exact ih hrest
    · rw [LogEntry.Lawful] at hlawful
      cases hc : entry.config with
      | none => simp
      | some config => simpa [hc] using hlawful

end Ascends

/-! ## The invariant and the relation -/

/-- A state that recovery accepts, whose window holds nothing that would not be. -/
structure SavedRaft.Sound (s : SavedRaft) : Prop where
  base : validConfig s.base = true
  unbegun : s.snapshotIndex = 0 → s.snapshotTerm = 0 ∧ s.snapshotData = []
  begun : 0 < s.snapshotIndex → 0 < s.snapshotTerm
  snapshotTerm_le : s.snapshotTerm ≤ s.term
  log : Ascends s.log s.snapshotTerm s.term
  bound : s.snapshotIndex + s.log.length ≤ maxIndex
  snapshot_le : s.snapshotIndex ≤ s.commitIndex
  commit_le : s.commitIndex ≤ s.snapshotIndex + s.log.length
  synced_le : s.syncedTerm ≤ s.term
  window : ∀ report ∈ s.window,
    0 < report.index ∧ report.slot.term ≤ s.term ∧ report.slot.entry.Lawful

/-- A recovery whose entries have legal configurations. -/
def Recovery.Lawful (r : Recovery) : Prop :=
  ∀ (index : Nat) (found : LogEntry × Bool), r.decided[index]? = some found → found.1.Lawful

structure Stored.Sound (s : Stored) : Prop where
  saved : s.saved.Sound
  stands : s.role = .candidate ∨ s.role = .leader → 0 < s.saved.term
  reports : ∀ {voter : HostId} {reports : List SlotReport}, s.reports[voter]? = some reports →
    ∀ report ∈ reports, report.slot.entry.Lawful
  recovery : ∀ r ∈ s.recovery, r.Lawful

namespace RaftNode

/-- The commit index does not fall, and what it covers is the same or in the snapshot. -/
structure Advances (node node' : RaftNode) : Prop where
  commit_le : node.commitIndex ≤ node'.commitIndex
  snapshot_le : node.snapshotIndex ≤ node'.snapshotIndex
  kept : ∀ index ≤ node.commitIndex,
    index ≤ node'.snapshotIndex ∨ node'.entryAt index = node.entryAt index

/-- From a sound state to a sound state, with nothing committed undone. -/
def Upholds (node node' : RaftNode) : Prop :=
  node.stored.Sound → node'.stored.Sound ∧ node.Advances node'

variable {node node' node'' : RaftNode}

theorem entryAt_congr (hsnapshot : node'.snapshotIndex = node.snapshotIndex)
    (hlog : node'.log = node.log) (index : Nat) : node'.entryAt index = node.entryAt index := by
  rw [entryAt, entryAt, position, position, hsnapshot, hlog]

theorem Advances.of_log (hsnapshot : node'.snapshotIndex = node.snapshotIndex)
    (hlog : node'.log = node.log) (hcommit : node.commitIndex ≤ node'.commitIndex) :
    node.Advances node' :=
  ⟨hcommit, hsnapshot.ge, fun index _ => .inr (entryAt_congr hsnapshot hlog index)⟩

theorem Advances.trans (h : node.Advances node') (h' : node'.Advances node'') :
    node.Advances node'' := by
  refine ⟨h.commit_le.trans h'.commit_le, h.snapshot_le.trans h'.snapshot_le,
    fun index hindex => ?_⟩
  rcases h'.kept index (hindex.trans h.commit_le) with hcovered | hsame'
  · exact .inl hcovered
  rcases h.kept index hindex with hcovered | hsame
  · exact .inl (hcovered.trans h'.snapshot_le)
  · exact .inr (hsame'.trans hsame)

theorem Upholds.trans (h : Upholds node node') (h' : Upholds node' node'') :
    Upholds node node'' := by
  intro hsound
  obtain ⟨hsound', hadvances⟩ := h hsound
  obtain ⟨hsound'', hadvances'⟩ := h' hsound'
  exact ⟨hsound'', hadvances.trans hadvances'⟩

theorem Upholds.of_stored (h : node'.stored = node.stored) : Upholds node node' := by
  have hsaved : node'.saved = node.saved := congrArg Stored.saved h
  intro hsound
  rw [h]
  exact ⟨hsound, .of_log (congrArg SavedRaft.snapshotIndex hsaved)
    (congrArg SavedRaft.log hsaved) (congrArg SavedRaft.commitIndex hsaved).ge⟩

theorem mem_saved_window {report : SlotReport} :
    report ∈ node.saved.window ↔ node.window[report.index]? = some report.slot := by
  rw [← ExtTreeMap.mem_toList_iff_getElem?_eq_some]
  constructor
  · intro h
    obtain ⟨held, hheld, rfl⟩ := List.mem_map.mp h
    exact hheld
  · intro h
    exact List.mem_map.mpr ⟨_, h, rfl⟩

/-- A slot that a node of a term may have. -/
def SlotSound (term index : Nat) (slot : WindowSlot) : Prop :=
  0 < index ∧ slot.term ≤ term ∧ slot.entry.Lawful

variable {index place : Nat} {request : InstallSnapshot}

theorem Sound.slot (h : node.stored.Sound) {slot : WindowSlot}
    (hslot : node.window[index]? = some slot) : SlotSound node.currentTerm index slot :=
  h.saved.window ⟨index, slot⟩ (mem_saved_window.mpr hslot)

variable {term : Nat}

theorem window_of_slots (h : ∀ {index : Nat} {slot : WindowSlot},
      node.window[index]? = some slot → SlotSound term index slot) :
    ∀ report ∈ node.stored.saved.window,
      0 < report.index ∧ report.slot.term ≤ term ∧ report.slot.entry.Lawful :=
  fun _ hreport => h (mem_saved_window.mp hreport)

/-! ## Terms and votes -/

theorem SavedRaft.Sound.later {s : SavedRaft} (h : s.Sound) {term : Nat} (hterm : s.term ≤ term)
    (vote : Option HostId) : SavedRaft.Sound { s with term := term, votedFor := vote } :=
  { h with
    snapshotTerm_le := h.snapshotTerm_le.trans hterm
    log := h.log.mono hterm
    synced_le := h.synced_le.trans hterm
    window := fun report hreport =>
      ⟨(h.window report hreport).1, (h.window report hreport).2.1.trans hterm,
        (h.window report hreport).2.2⟩ }

theorem upholds_stepDown (hterm : node.currentTerm ≤ term) :
    Upholds node (node.stepDown term) := fun h =>
  ⟨⟨SavedRaft.Sound.later h.saved hterm none, by simp [stored, stepDown],
    by simp [stored, stepDown],
    h.recovery⟩, .of_log rfl rfl le_rfl⟩

/-! ## The log and the commit index -/

theorem upholds_pruneCommitted : Upholds node node.pruneCommitted := by
  intro h
  refine ⟨⟨{ h.saved with window := window_of_slots fun hslot => ?_ }, h.stands, h.reports,
    h.recovery⟩, .of_log rfl rfl le_rfl⟩
  rw [pruneCommitted, ExtTreeMap.getElem?_filter'] at hslot
  exact Sound.slot h (Option.filter_eq_some_iff.mp hslot).1

theorem entryTerm_eq_some (h : node.entryTerm index = some term) :
    (index = node.snapshotIndex ∧ term = node.snapshotTerm) ∨
      node.snapshotIndex < index ∧ ∃ entry,
        node.log[index - node.snapshotIndex - 1]? = some entry ∧ entry.term = term := by
  rw [entryTerm] at h
  split_ifs at h with hzero hsnapshot
  · exact .inl ⟨hsnapshot, (Option.some.inj h).symm⟩
  · rw [entryAt, position] at h
    split_ifs at h with hle
    · simp at h
    · exact .inr ⟨by omega, Option.map_eq_some_iff.mp h⟩

theorem le_lastLogIndex_of_entryTerm (h : node.entryTerm index = some term) :
    index ≤ node.lastLogIndex := by
  rw [lastLogIndex]
  rcases entryTerm_eq_some h with ⟨rfl, -⟩ | ⟨hlt, entry, hentry, -⟩
  · exact Nat.le_add_right _ _
  · have := (List.getElem?_eq_some_iff.mp hentry).1
    omega

theorem upholds_commitHeld : Upholds node node.commitHeld := by
  rw [commitHeld]
  split_ifs with hheld
  · have hle := le_lastLogIndex_of_entryTerm hheld.2
    exact fun h => ⟨⟨{ h.saved with
        snapshot_le := h.saved.snapshot_le.trans hheld.1.le
        commit_le := hle }, h.stands, h.reports, h.recovery⟩, .of_log rfl rfl hheld.1.le⟩
  · exact .of_stored rfl

theorem upholds_ground : Ground Upholds where
  trans := Upholds.trans
  of_visible h := .of_stored (congrArg (·.1.1) h)
  follower _ _ hcandidate hleader h :=
    ⟨⟨h.saved, fun hrole => absurd hrole (not_or.mpr ⟨hcandidate, hleader⟩), h.reports, h.recovery⟩,
      .of_log rfl rfl le_rfl⟩
  dropRead := .of_stored rfl
  rematch h _ := .of_stored (congrArg (·.1.1) h)
  commitHeld _ := upholds_commitHeld
  commitChosen := .of_stored rfl
  pruneCommitted := upholds_pruneCommitted

variable {entries : List LogEntry}

theorem advances_append
    (hlog : node'.log = node.log.take place ++ entries) (hplace : place ≤ node.log.length)
    (hsnapshot : node'.snapshotIndex = node.snapshotIndex)
    (hcommit : node'.commitIndex = node.commitIndex)
    (hle : node.commitIndex ≤ node.snapshotIndex + place) : node.Advances node' := by
  refine ⟨hcommit.ge, hsnapshot.ge, fun index hindex => ?_⟩
  rw [entryAt, entryAt, position, position, hsnapshot]
  split_ifs with hcovered
  · exact .inl hcovered
  · refine .inr ?_
    rw [Option.bind_some, Option.bind_some, hlog,
      List.getElem?_append_left (by rw [List.length_take]; omega),
      List.getElem?_take_of_lt (by omega)]

theorem upholds_pushed (hpositive : 0 < node.currentTerm) {entry : LogEntry}
    (hterm : entry.term = node.currentTerm) (hlawful : entry.Lawful)
    (hroom : node.lastLogIndex < maxIndex) : Upholds node (node.pushed entry) := by
  intro h
  have hbound : node.snapshotIndex + (node.log ++ [entry]).length ≤ maxIndex := by
    rw [List.length_append, List.length_singleton]
    exact hroom
  have hcommit : node.commitIndex ≤ node.snapshotIndex + (node.log ++ [entry]).length := by
    have := h.saved.commit_le
    rw [List.length_append]
    exact this.trans (by simp only [stored, saved]; omega)
  exact ⟨⟨{ h.saved with
      log := h.saved.log.push h.saved.snapshotTerm_le hterm hpositive hlawful
      bound := hbound
      commit_le := hcommit }, h.stands, h.reports, h.recovery⟩,
    advances_append (by rw [List.take_length]; rfl) le_rfl rfl rfl h.saved.commit_le⟩

theorem upholds_leaderAppend (hpositive : 0 < node.currentTerm) {entry : LogEntry}
    (hterm : entry.term = node.currentTerm) (hlawful : entry.Lawful) :
    Upholds node (node.leaderAppend entry).1 := by
  rw [leaderAppend, pushEntry_eq]
  split_ifs with hbudget hroom
  · exact .of_stored rfl
  · refine (upholds_pushed hpositive hterm hlawful hroom).trans
      (Upholds.trans ?_ upholds_ground.advanceLeaderCommit)
    exact fun h => ⟨{ h with }, .of_log rfl rfl le_rfl⟩
  · exact .of_stored rfl

/-! ## Configurations -/

theorem mem_log_of_entryAt {entry : LogEntry} (hentry : node.entryAt index = some entry) :
    entry ∈ node.log := by
  obtain ⟨place, -, hplace⟩ := Option.bind_eq_some_iff.mp hentry
  exact List.mem_of_getElem? hplace

theorem Sound.effectiveConfig (h : node.stored.Sound) :
    validConfig node.effectiveConfig = true := by
  rw [RaftNode.effectiveConfig]
  cases hconfig : node.configEntries.getLast?.bind node.configAt with
  | none => exact h.saved.base
  | some config =>
    obtain ⟨index, -, hat⟩ := Option.bind_eq_some_iff.mp hconfig
    obtain ⟨entry, hentry, hc⟩ := Option.bind_eq_some_iff.mp hat
    have hlawful := h.saved.log.lawful entry (mem_log_of_entryAt hentry)
    rw [LogEntry.Lawful, hc] at hlawful
    exact hlawful

theorem upholds_beginMembershipChange {voters : List HostId} (hvoters : voters.Nodup) :
    Upholds node (node.beginMembershipChange voters).1 := by
  refine upholds_ground.beginMembershipChange fun hrole _ hnonempty _ _ h => ?_
  have hvalid := Sound.effectiveConfig h
  rw [validConfig, Bool.and_eq_true] at hvalid
  have hlawful : (LogEntry.ofConfiguration node.currentTerm
      ⟨node.effectiveConfig.voters, some voters⟩).Lawful := by
    have hset : validSet voters = true := by simp [validSet, hvoters, hnonempty]
    have hold : validSet node.effectiveConfig.voters = true := hvalid.1
    simp [LogEntry.Lawful, LogEntry.ofConfiguration, validConfig, hold, hset]
  refine upholds_leaderAppend ?_ rfl hlawful h
  exact h.stands (.inr hrole)

theorem upholds_completeMembershipChange : Upholds node node.completeMembershipChange.1 := by
  refine upholds_ground.completeMembershipChange fun {voters} hjoint hrole _ _ h => ?_
  have hvalid : validConfig node.effectiveConfig = true := Sound.effectiveConfig h
  rw [validConfig, hjoint, Bool.and_eq_true] at hvalid
  have hlawful : (LogEntry.ofConfiguration node.currentTerm ⟨voters, none⟩).Lawful := by
    have hset : validSet voters = true := hvalid.2
    simp [LogEntry.Lawful, LogEntry.ofConfiguration, validConfig, hset]
  refine upholds_leaderAppend ?_ rfl hlawful h
  exact h.stands (.inr hrole)

/-! ## Compaction -/

theorem advances_drop (hindex : node.snapshotIndex ≤ index)
    (hlog : node'.log = node.log.drop (index - node.snapshotIndex))
    (hsnapshot : node'.snapshotIndex = index) (hcommit : node.commitIndex ≤ node'.commitIndex) :
    node.Advances node' := by
  refine ⟨hcommit, hindex.trans_eq hsnapshot.symm, fun at' _ => ?_⟩
  rw [entryAt, entryAt, position, position, hsnapshot]
  split_ifs with hcovered hbelow
  · exact .inl hcovered
  · exact .inl hcovered
  · omega
  · refine .inr ?_
    rw [Option.bind_some, Option.bind_some, hlog, List.getElem?_drop]
    congr 1
    omega

theorem upholds_compact (upTo : Nat) (state : List UInt8) :
    Upholds node (node.compact upTo state).1 := by
  rw [compact]
  split_ifs with hrefused
  · exact .of_stored rfl
  push Not at hrefused
  split
  · exact .of_stored rfl
  rename_i term hterm
  intro h
  rcases entryTerm_eq_some hterm with ⟨rfl, -⟩ | ⟨hlt, entry, hentry, rfl⟩
  · exact absurd hrefused.1 (lt_irrefl _)
  have hlength := (List.getElem?_eq_some_iff.mp hentry).1
  have hdiscard : min (upTo - node.snapshotIndex) node.log.length =
      upTo - node.snapshotIndex - 1 + 1 := by omega
  have hmem := List.mem_of_getElem? hentry
  dsimp only
  rw [hdiscard]
  have hbase : validConfig (((node.log.take (upTo - node.snapshotIndex - 1 + 1)).reverse.findSome?
      LogEntry.config).getD node.baseConfig) = true := by
    cases hfound : (node.log.take (upTo - node.snapshotIndex - 1 + 1)).reverse.findSome?
        LogEntry.config with
    | none => exact h.saved.base
    | some config =>
      obtain ⟨found, hfound, hconfig⟩ := List.exists_of_findSome?_eq_some hfound
      have hlawful := h.saved.log.lawful found (List.mem_of_mem_take (List.mem_reverse.mp hfound))
      rw [LogEntry.Lawful, hconfig] at hlawful
      exact hlawful
  have hcommit := h.saved.commit_le
  have hbound := h.saved.bound
  simp only [stored, saved] at hcommit hbound
  refine ⟨⟨{ h.saved with
      base := hbase
      unbegun := fun hzero => absurd hzero (show upTo ≠ 0 by omega)
      begun := fun _ => h.saved.log.positive entry hmem
      snapshotTerm_le := h.saved.log.bounded entry hmem
      log := h.saved.log.drop hentry
      snapshot_le := hrefused.2
      bound := ?_
      commit_le := ?_ }, h.stands, h.reports, h.recovery⟩,
    advances_drop hlt.le ?_ rfl le_rfl⟩
  · simp only [stored, saved, List.length_drop]
    omega
  · simp only [stored, saved, List.length_drop]
    omega
  · exact congrArg (List.drop · node.log) (by omega)

/-! ## Recovery and elections -/

theorem recoveryEntry_lawful (node : RaftNode) {recovery : Recovery} (h : recovery.Lawful)
    (index : Nat) :
    (node.recoveryEntry recovery index).term = node.currentTerm ∧
      (node.recoveryEntry recovery index).Lawful := by
  rw [recoveryEntry]
  cases hfound : recovery.decided[index]? with
  | none => exact ⟨rfl, rfl⟩
  | some found => exact ⟨rfl, h index found hfound⟩

theorem upholds_recoverSlice (slice fuel : Nat) {recovery : Recovery} (hlawful : recovery.Lawful)
    (spent : Nat) (hpositive : 0 < node.currentTerm) :
    Upholds node (recoverSlice slice fuel node recovery spent).1 ∧
      (recoverSlice slice fuel node recovery spent).1.currentTerm = node.currentTerm ∧
      (recoverSlice slice fuel node recovery spent).2.1.Lawful := by
  refine recoverSlice_rule
    (P := fun node recovery result => recovery.Lawful → 0 < node.currentTerm →
      Upholds node result.1 ∧ result.1.currentTerm = node.currentTerm ∧ result.2.1.Lawful)
    (fun hlawful _ => ⟨.of_stored rfl, rfl, hlawful⟩)
    (fun _ hlawful _ => ⟨.of_stored rfl, rfl, hlawful⟩) ?_ ?_ fuel node recovery spent hlawful
      hpositive
  · intro node recovery hroom _ hlawful hpositive
    obtain ⟨hterm, hentry⟩ := recoveryEntry_lawful node hlawful recovery.next
    exact ⟨upholds_pushed hpositive hterm hentry hroom, rfl, hlawful⟩
  · intro node recovery next result hroom _ hrest hlawful hpositive
    obtain ⟨hterm, hentry⟩ := recoveryEntry_lawful node hlawful recovery.next
    obtain ⟨hafter, hcurrent, hlawful'⟩ := hrest hlawful hpositive
    exact ⟨(upholds_pushed hpositive hterm hentry hroom).trans hafter, hcurrent, hlawful'⟩

theorem upholds_continueRecovery : Upholds node node.continueRecovery := by
  rw [continueRecovery]
  split_ifs with hidle
  · exact fun h => ⟨⟨h.saved, h.stands, h.reports, by simp [stored]⟩, .of_log rfl rfl le_rfl⟩
  split
  · exact .of_stored rfl
  rename_i recovery hrecovery
  intro h
  have hpositive : 0 < node.currentTerm := by
    rw [recovering] at hidle
    refine h.stands (.inr ?_)
    by_contra hrole
    have : node.role ≠ .leader := hrole
    simp [this] at hidle
  have hnone : Upholds node { node with recovery := none } := fun h =>
    ⟨⟨h.saved, h.stands, h.reports, by simp [stored]⟩, .of_log rfl rfl le_rfl⟩
  obtain ⟨hslice, hcurrent, hlawful⟩ :=
    @upholds_recoverSlice { node with recovery := none } (max node.windowBudget minEntryBytes)
      (recovery.last + 1 - recovery.next) recovery (h.recovery recovery hrecovery) 0 hpositive
  dsimp only
  generalize recoverSlice _ _ _ _ _ = sliced at *
  obtain ⟨after, rest, fits⟩ := sliced
  have hafter := hnone.trans hslice
  cases fits with
  | false => exact hafter h
  | true =>
    dsimp only at *
    split_ifs
    · refine hafter.trans (fun h' => ⟨⟨h'.saved, h'.stands, h'.reports, fun r hr => ?_⟩,
        .of_log rfl rfl le_rfl⟩) h
      obtain rfl := Option.some.inj hr
      exact hlawful
    · have hflagged : Upholds after { after with retentionPending := true } := fun h' =>
        ⟨{ h' with }, .of_log rfl rfl le_rfl⟩
      have happend := @upholds_leaderAppend { after with retentionPending := true }
        (hpositive.trans_eq hcurrent.symm) (.ofCommand after.currentTerm []) rfl rfl
      exact (hafter.trans hflagged).trans happend h
    · exact hafter.trans (fun h' => ⟨{ h' with }, .of_log rfl rfl le_rfl⟩) h

theorem Sound.planRecovery (h : node.stored.Sound) : node.planRecovery.Lawful := by
  intro index found hfound
  obtain ⟨slot, hentry, hslot⟩ := planRecovery_decided hfound
  rw [← hentry]
  rcases hslot with ⟨at', hown⟩ | ⟨voter, reports, hreports, report, hreport, rfl⟩
  · exact (Sound.slot h hown).2.2
  · exact h.reports hreports report hreport

theorem upholds_lead (hrole : node.role = .candidate) :
    Upholds node ({ node with role := .leader }.recover node.planRecovery).beginLeading := by
  suffices hlead : Upholds node ({ node with role := .leader }.recover node.planRecovery) from
    hlead.trans (.of_stored rfl)
  rw [recover]
  dsimp only
  split_ifs
  · refine Upholds.trans ?_ upholds_continueRecovery
    refine fun h => ⟨⟨{ h.saved with synced_le := le_rfl }, fun _ => h.stands (.inl hrole),
      by simp [stored], fun r hr => ?_⟩, .of_log rfl rfl le_rfl⟩
    obtain rfl := Option.some.inj hr
    exact Sound.planRecovery h
  · exact fun h => ⟨⟨{ h.saved with synced_le := le_rfl }, fun _ => h.stands (.inl hrole),
      by simp [stored], h.recovery⟩, .of_log rfl rfl le_rfl⟩

theorem admitReportsFrom_lawful {reports : List SlotReport} {indices : List Nat}
    (h : admitReportsFrom term reports indices = .ok ()) :
    ∀ report ∈ reports, report.slot.entry.Lawful := by
  induction reports generalizing indices with
  | nil => simp
  | cons report reports ih =>
    rw [admitReportsFrom] at h
    split_ifs at h
    cases hentry : admitEntries [report.slot.entry] 0 term with
    | error _ =>
      rw [hentry] at h
      cases h
    | ok _ =>
      rw [hentry] at h
      have hlawful := (Ascends.of_admitEntries hentry).lawful
      exact List.forall_mem_cons.mpr ⟨hlawful _ List.mem_cons_self, ih h⟩

/-! ## The fast track -/

theorem advanceLeaderCommit_currentTerm :
    node.advanceLeaderCommit.currentTerm = node.currentTerm := by
  rw [advanceLeaderCommit]
  split_ifs
  · rfl
  · rw [stepDownIfRemoved]
    split_ifs <;>
    · rw [pruneCommitted, commitChosen, commitHeld]
      split_ifs <;> rfl

theorem leaderAppend_currentTerm (entry : LogEntry) :
    (node.leaderAppend entry).1.currentTerm = node.currentTerm := by
  rw [leaderAppend, pushEntry_eq]
  split_ifs
  · rfl
  · exact advanceLeaderCommit_currentTerm
  · rfl

theorem upholds_castFastVote {proposal : FastPropose}
    (hheard : node.hearsProposal proposal = true) :
    Upholds node (node.castFastVote proposal).1 := by
  rw [castFastVote]
  split_ifs
  · exact .of_stored rfl
  · refine fun h => ⟨⟨{ h.saved with window := window_of_slots fun {index slot} hslot => ?_ },
      h.stands, h.reports, h.recovery⟩, .of_log rfl rfl le_rfl⟩
    rw [getElem?_insert_if] at hslot
    split_ifs at hslot with hindex
    · obtain rfl := Option.some.inj hslot
      rw [hearsProposal] at hheard
      simp only [Bool.and_eq_true, decide_eq_true_eq] at hheard
      exact ⟨by omega, le_rfl, rfl⟩
    · exact Sound.slot h hslot

theorem upholds_decideWithin (fuel : Nat) (hpositive : 0 < node.currentTerm) :
    Upholds node (decideWithin fuel node) := by
  refine (decideWithin_rule (R := fun a b => 0 < a.currentTerm → 0 < b.currentTerm ∧ Upholds a b)
    (fun _ h => ⟨h, .of_stored rfl⟩) (fun h h' hpos => ?_) (fun command _ hpos => ?_) fuel
    hpositive).2
  · exact ⟨(h' (h hpos).1).1, (h hpos).2.trans (h' (h hpos).1).2⟩
  · exact ⟨hpos.trans_eq (leaderAppend_currentTerm _).symm, upholds_leaderAppend hpos rfl rfl⟩

/-! ## Appends -/

def termBelow (node : RaftNode) (place : Nat) : Nat :=
  (node.log.take place).getLast?.elim node.snapshotTerm LogEntry.term

theorem termBelow_succ {entry : LogEntry} (h : node.log[place]? = some entry) :
    node.termBelow (place + 1) = entry.term := by
  rw [termBelow, List.take_add_one, h, Option.toList_some, List.getLast?_concat]
  rfl

theorem Relogged.commitIndex (h : Relogged node node') : node'.commitIndex = node.commitIndex := by
  obtain ⟨log, configs, bytes, pending, rfl, -⟩ := h
  rfl

theorem Relogged.currentTerm (h : Relogged node node') : node'.currentTerm = node.currentTerm := by
  obtain ⟨log, configs, bytes, pending, rfl, -⟩ := h
  rfl

theorem Relogged.upholds {entry : LogEntry} (h : Relogged node node')
    (hlog : node'.log = node.log.take place ++ [entry]) (hplace : place ≤ node.log.length)
    (hcommit : node.commitIndex ≤ node.snapshotIndex + place)
    (hroom : node.snapshotIndex + place < maxIndex)
    (hentry : Ascends [entry] (node.termBelow place) node.currentTerm) : Upholds node node' := by
  intro hsound
  have hcommit' := hsound.saved.commit_le
  obtain ⟨log, configs, bytes, pending, rfl, -⟩ := h
  dsimp only at hlog
  subst hlog
  have hlength : (node.log.take place ++ [entry]).length = place + 1 := by
    rw [List.length_append, List.length_take, min_eq_left hplace, List.length_singleton]
  refine ⟨⟨{ hsound.saved with
      log := (hsound.saved.log.take place).append hentry
      bound := ?_
      commit_le := ?_ }, hsound.stands, hsound.reports, hsound.recovery⟩,
    advances_append rfl hplace rfl rfl hcommit⟩
  · simp only [stored, saved, hlength]
    omega
  · simp only [stored, saved, hlength]
    omega

theorem placeEntry_upholds {entry : LogEntry} (hsnapshot : node.snapshotIndex ≤ node.commitIndex)
    (hcommit : node.commitIndex ≤ index) (hlast : index ≤ node.lastLogIndex)
    (hroom : index < maxIndex)
    (hentry : Ascends [entry] (node.termBelow (index - node.snapshotIndex)) node.currentTerm) :
    ∃ placed, node.placeEntry (index + 1) entry = (placed, true) ∧ Relogged node placed ∧
      Upholds node placed ∧ index + 1 ≤ placed.lastLogIndex ∧
      placed.termBelow (index + 1 - node.snapshotIndex) = entry.term := by
  have hrelogged := @relogged_placeEntry node (index + 1) (by omega) entry
  have hplaces : index + 1 - node.snapshotIndex = (index - node.snapshotIndex) + 1 := by omega
  rw [lastLogIndex] at hlast
  -- what is left before the entry, and the entry
  have hafter : ∀ placed : RaftNode, Relogged node placed →
      placed.log = node.log.take (index - node.snapshotIndex) ++ [entry] →
      Upholds node placed ∧ index + 1 ≤ placed.lastLogIndex ∧
        placed.termBelow (index + 1 - node.snapshotIndex) = entry.term := by
    intro placed hplaced hlog
    have hlength : placed.log.length = index - node.snapshotIndex + 1 := by
      rw [hlog, List.length_append, List.length_take, List.length_singleton]
      omega
    refine ⟨hplaced.upholds hlog (by omega) (by omega) (by omega) hentry, ?_, ?_⟩
    · rw [lastLogIndex, hplaced.snapshotIndex, hlength]
      omega
    · rw [hplaces]
      refine termBelow_succ ?_
      rw [hlog, List.getElem?_append_right (by rw [List.length_take]; omega), List.length_take,
        min_eq_left (by omega), Nat.sub_self]
      rfl
  rw [placeEntry] at *
  cases hterm : node.entryTerm (index + 1) with
  | none =>
    rw [hterm] at hrelogged
    have hend : node.lastLogIndex ≤ index :=
      lastLogIndex_of_entryTerm_none (hsnapshot.trans hcommit) hterm
    rw [lastLogIndex] at hend
    have hroom' : { node with retentionPending := true }.lastLogIndex < maxIndex := by
      rw [lastLogIndex]
      dsimp only
      omega
    dsimp only at hrelogged ⊢
    rw [pushEntry_eq, if_pos hroom'] at hrelogged ⊢
    refine ⟨_, rfl, hrelogged, hafter _ hrelogged ?_⟩
    rw [List.take_of_length_le (by omega)]
    rfl
  | some term =>
    rw [hterm] at hrelogged
    dsimp only at hrelogged ⊢
    split_ifs at hrelogged ⊢ with hsame
    · rcases entryTerm_eq_some hterm with ⟨heq, -⟩ | ⟨-, held, hheld, hheldterm⟩
      · omega
      · refine ⟨node, rfl, .refl node, .of_stored rfl, le_lastLogIndex_of_entryTerm hterm, ?_⟩
        rw [hplaces]
        have hplace : index + 1 - node.snapshotIndex - 1 = index - node.snapshotIndex := by omega
        rw [hplace] at hheld
        rw [termBelow_succ hheld, hheldterm, hsame]
    · have hcut : (node.truncateFrom (index + 1)).log =
          node.log.take (index - node.snapshotIndex) := by
        rw [truncateFrom]
        exact congrArg (List.take · node.log) (by omega)
      have hroom' : (node.truncateFrom (index + 1)).lastLogIndex < maxIndex := by
        rw [lastLogIndex, hcut, List.length_take]
        change node.snapshotIndex + _ < _
        omega
      rw [pushEntry_eq, if_pos hroom'] at hrelogged ⊢
      refine ⟨_, rfl, hrelogged, hafter _ hrelogged ?_⟩
      rw [pushed, hcut]

theorem placeAll_upholds
    (hsnapshot : node.snapshotIndex ≤ node.commitIndex) (hcommit : node.commitIndex ≤ index)
    (hlast : index ≤ node.lastLogIndex) (hroom : index + entries.length ≤ maxIndex)
    (hentries : Ascends entries (node.termBelow (index - node.snapshotIndex)) node.currentTerm) :
    ∃ placed, node.placeAll index entries = (placed, index + entries.length) ∧
      Relogged node placed ∧ Upholds node placed ∧
      index + entries.length ≤ placed.lastLogIndex := by
  induction entries generalizing node index with
  | nil => exact ⟨node, rfl, .refl node, .of_stored rfl, hlast⟩
  | cons entry entries ih =>
    rw [List.length_cons] at hroom
    obtain ⟨hfirst, hrest⟩ := Ascends.cons_iff.mp hentries
    obtain ⟨placed, hplaced, hrelogged, hupholds, hreached, hbelow⟩ :=
      placeEntry_upholds hsnapshot hcommit hlast (by omega)
        (Ascends.cons_iff.mpr ⟨hfirst, .nil _ _⟩)
    obtain ⟨after, hafter, hrelogged', hupholds', hreached'⟩ := @ih placed (index + 1)
      (by rw [hrelogged.snapshotIndex, hrelogged.commitIndex]; exact hsnapshot)
      (by rw [hrelogged.commitIndex]; omega) hreached (by omega)
      (by rw [hrelogged.snapshotIndex, hbelow, hrelogged.currentTerm]; exact hrest)
    have hlength : index + (entry :: entries).length = index + 1 + entries.length := by
      rw [List.length_cons]
      omega
    rw [placeAll, hplaced, hlength]
    exact ⟨after, hafter, hrelogged.trans hrelogged', hupholds.trans hupholds', hreached'⟩

theorem upholds_learnCommit (leaderCommit : Nat) (hcommit : node.commitIndex ≤ index)
    (hlast : index ≤ node.lastLogIndex) : Upholds node (node.learnCommit leaderCommit index) := by
  rw [learnCommit]
  split_ifs with hbehind
  · have hle : node.commitIndex ≤ min leaderCommit index := le_min hbehind.le hcommit
    exact fun h => ⟨⟨{ h.saved with
        snapshot_le := h.saved.snapshot_le.trans hle
        commit_le := (min_le_right _ _).trans hlast }, h.stands, h.reports, h.recovery⟩,
      .of_log rfl rfl hle⟩
  · exact .of_stored rfl

theorem upholds_observeSync (hterm : term ≤ node.currentTerm) (syncIndex : Nat) :
    Upholds node (node.observeSync term syncIndex) := by
  rw [observeSync]
  split_ifs
  · exact .of_stored rfl
  · exact fun h => ⟨⟨{ h.saved with synced_le := hterm }, h.stands, h.reports, h.recovery⟩,
      .of_log rfl rfl le_rfl⟩

theorem upholds_absorbWithin (hterm : term = node.currentTerm) (hpositive : 0 < term)
    (fuel : Nat) : Upholds node (absorbWithin term fuel node) := by
  induction fuel generalizing node with
  | zero => exact .of_stored rfl
  | succ fuel ih =>
    rw [absorbWithin]
    split
    · exact .of_stored rfl
    rename_i slot hslot
    split_ifs with hother
    · exact .of_stored rfl
    simp only [not_or, not_not] at hother
    rw [pushEntry_eq]
    by_cases hroom : node.lastLogIndex < maxIndex
    · rw [if_pos hroom]
      intro h
      have hpushed := upholds_pushed (hpositive.trans_eq hterm) (hother.2.2.trans hterm)
        (Sound.slot h hslot).2.2 hroom
      refine hpushed.trans (Upholds.trans ?_ (ih hterm)) h
      exact fun h' => ⟨{ h' with }, .of_log rfl rfl le_rfl⟩
    · rw [if_neg hroom]
      exact .of_stored rfl

theorem upholds_bufferFrom (floor reach index : Nat)
    (hterm : term ≤ node.currentTerm) (hlawful : ∀ entry ∈ entries, entry.Lawful) :
    Upholds node (bufferFrom term floor reach node index entries) := by
  induction entries generalizing node index with
  | nil => exact .of_stored rfl
  | cons entry entries ih =>
    have hrest : ∀ entry ∈ entries, entry.Lawful :=
      fun e he => hlawful e (List.mem_cons_of_mem _ he)
    rw [bufferFrom]
    split_ifs with hskipped
    · exact ih _ hterm hrest
    · refine Upholds.trans ?_ (ih _ (by exact hterm) hrest)
      simp only [not_or, not_not, Nat.not_le] at hskipped
      refine fun h => ⟨⟨{ h.saved with window := window_of_slots fun {at' slot} hslot => ?_ },
        h.stands, h.reports, h.recovery⟩, .of_log rfl rfl le_rfl⟩
      rw [getElem?_insert_if] at hslot
      split_ifs at hslot with hat
      · obtain rfl := Option.some.inj hslot
        exact ⟨by omega, hterm, hlawful entry List.mem_cons_self⟩
      · exact Sound.slot h hslot

theorem termBelow_of_entryTerm (h : node.entryTerm index = some term) :
    node.termBelow (index - node.snapshotIndex) = term := by
  rcases entryTerm_eq_some h with ⟨rfl, rfl⟩ | ⟨hlt, entry, hentry, rfl⟩
  · rw [Nat.sub_self, termBelow, List.take_zero]
    rfl
  · rw [show index - node.snapshotIndex = index - node.snapshotIndex - 1 + 1 by omega]
    exact termBelow_succ hentry

theorem upholds_takeEntries {request : AppendEntries}
    (hanchor : node.commitIndex ≤ request.prevLogIndex)
    (hterm : request.term = node.currentTerm) (hpositive : 0 < request.term)
    (hzero : request.prevLogIndex = 0 → request.prevLogTerm = 0)
    (hentries : Ascends request.entries request.prevLogTerm request.term) :
    Upholds node (node.takeEntries request).1 := by
  intro h
  rw [takeEntries]
  split_ifs with hmismatch hpast
  · rw [buffer]
    split_ifs
    · exact Upholds.of_stored rfl h
    · exact upholds_bufferFrom _ _ _ hterm.le hentries.lawful h
  · exact Upholds.of_stored rfl h
  have hsnapshot : node.snapshotIndex ≤ node.commitIndex := h.saved.snapshot_le
  have hprevious : request.prevLogIndex ≤ node.lastLogIndex ∧
      node.termBelow (request.prevLogIndex - node.snapshotIndex) = request.prevLogTerm := by
    rcases Nat.eq_zero_or_pos request.prevLogIndex with hfirst | hpos
    · have hnone : node.snapshotIndex = 0 := by omega
      refine ⟨by omega, ?_⟩
      rw [hzero hfirst, hfirst, Nat.zero_sub, termBelow, List.take_zero]
      exact (h.saved.unbegun hnone).1
    · have hmatches : node.entryTerm request.prevLogIndex = some request.prevLogTerm := by
        by_contra hne
        exact hmismatch ⟨hpos, hne⟩
      exact ⟨le_lastLogIndex_of_entryTerm hmatches, termBelow_of_entryTerm hmatches⟩
  obtain ⟨placed, hplaced, hrelogged, hupholds, hreached⟩ :=
    placeAll_upholds hsnapshot hanchor hprevious.1 (not_lt.mp hpast)
      (by rw [hprevious.2, ← hterm]; exact hentries)
  rw [hplaced]
  dsimp only
  generalize hlearned : placed.learnCommit _ _ = learned
  have hlearn : Upholds node learned := by
    rw [← hlearned]
    refine hupholds.trans (upholds_learnCommit _ ?_ hreached)
    rw [hrelogged.commitIndex]
    exact hanchor.trans (Nat.le_add_right _ _)
  have hcurrent : request.term = learned.currentTerm := by
    rw [← hlearned, learnCommit]
    split_ifs <;> exact hterm.trans hrelogged.currentTerm.symm
  generalize hsynced : learned.observeSync _ _ = synced
  have hsync : Upholds node synced := by
    rw [← hsynced]
    exact hlearn.trans (upholds_observeSync hcurrent.le request.syncIndex)
  have hcurrent' : request.term = synced.currentTerm := by
    rw [← hsynced, observeSync]
    split_ifs <;> exact hcurrent
  exact (hsync.trans (upholds_absorbWithin hcurrent' hpositive _)).trans upholds_pruneCommitted h

theorem admitAppend_ok {request : AppendEntries} (h : node.admitAppend request = .ok ()) :
    0 < request.term ∧ (request.prevLogIndex = 0 → request.prevLogTerm = 0) ∧
      Ascends request.entries request.prevLogTerm request.term ∧
      (request.prevLogIndex < node.commitIndex → ∀ first,
        request.entries[node.commitIndex - request.prevLogIndex]? = some first →
        (node.entryTerm node.commitIndex).getD 0 ≤ first.term) := by
  rw [admitAppend] at h
  cases hentries : admitEntries request.entries request.prevLogTerm request.term with
  | error _ =>
    rw [hentries] at h
    dsimp only [bind, Except.bind] at h
    split_ifs at h
  | ok _ =>
    rw [hentries] at h
    dsimp only [bind, Except.bind] at h
    split_ifs at h with hterm hposition hcovered
    rw [not_or] at hposition
    refine ⟨Nat.pos_of_ne_zero hterm, fun hzero => ?_, .of_admitEntries hentries, ?_⟩
    · have hagrees := hposition.2
      simpa [positionAgrees, hzero] using hagrees
    · intro hbelow first hfirst
      by_contra hless
      refine hcovered ⟨hbelow, ?_⟩
      rw [hfirst, Option.any_some]
      simpa using hless

theorem Ascends.from {entries : List LogEntry} {previous term first : Nat}
    (h : Ascends entries previous term) (n : Nat)
    (hfirst : ∀ entry, entries[n]? = some entry → first ≤ entry.term) :
    Ascends (entries.drop n) first term := by
  cases hentry : entries[n]? with
  | none =>
    rw [List.drop_of_length_le (List.getElem?_eq_none_iff.mp hentry)]
    exact .nil _ _
  | some entry =>
    have hmem := List.mem_of_getElem? hentry
    obtain ⟨hn, rfl⟩ := List.getElem?_eq_some_iff.mp hentry
    rw [List.drop_eq_getElem_cons hn]
    exact Ascends.cons_iff.mpr ⟨⟨h.positive _ hmem, h.bounded _ hmem, hfirst _ hentry,
      h.lawful _ hmem⟩, h.drop hentry⟩

theorem recognizeLeader_currentTerm (h : node.currentTerm ≤ term) :
    (node.recognizeLeader term).currentTerm = term := by
  change (node.observeTerm term).currentTerm = term
  rw [observeTerm]
  split_ifs with hlater
  · rfl
  · omega

theorem recognizeLeader_log (node : RaftNode) (term : Nat) :
    (node.recognizeLeader term).commitIndex = node.commitIndex ∧
      (node.recognizeLeader term).snapshotIndex = node.snapshotIndex ∧
      (node.recognizeLeader term).entryTerm = node.entryTerm := by
  have h : (node.observeTerm term).commitIndex = node.commitIndex ∧
      (node.observeTerm term).snapshotIndex = node.snapshotIndex ∧
      (node.observeTerm term).entryTerm = node.entryTerm := by
    rw [observeTerm]
    split_ifs <;> exact ⟨rfl, rfl, rfl⟩
  exact h

theorem upholds_onAppendEntries (request : AppendEntries) :
    Upholds node (node.onAppendEntries request).1 := by
  rw [onAppendEntries]
  cases hadmitted : node.admitAppend request with
  | error _ => exact .of_stored rfl
  | ok _ =>
    obtain ⟨hpositive, hzero, hentries, hcovered⟩ := admitAppend_ok hadmitted
    dsimp only
    split_ifs with hold
    · exact .of_stored rfl
    all_goals
      have hheard : Upholds node (node.hearLeader request) :=
        (upholds_ground.recognizeLeader request.term upholds_stepDown).trans (.of_stored rfl)
      have hterm : request.term = (node.hearLeader request).currentTerm :=
        (recognizeLeader_currentTerm (not_lt.mp hold)).symm
      have hcommit : (node.hearLeader request).commitIndex = node.commitIndex :=
        (node.recognizeLeader_log request.term).1
      have hentry : (node.hearLeader request).entryTerm = node.entryTerm :=
        (node.recognizeLeader_log request.term).2.2
    · exact hheard
    · -- taken from the commit index on
      rename_i hbelow hmore
      rw [hcommit] at hbelow
      refine hheard.trans (upholds_takeEntries le_rfl hterm hpositive ?_ ?_)
      · dsimp only
        omega
      · dsimp only
        rw [hcommit, hentry]
        exact Ascends.from hentries _ (hcovered hbelow)
    · rename_i hbelow
      exact hheard.trans (upholds_takeEntries (not_lt.mp hbelow) hterm hpositive hzero hentries)

/-! ## Snapshots -/

/-- A snapshot taken up is of the node's log, or covers all it has committed. -/
def Covered (node : RaftNode) (request : InstallSnapshot) : Prop :=
  admitSnapshot request = .ok () → node.currentTerm ≤ request.term →
    node.snapshotIndex < request.lastIncludedIndex →
    node.entryTerm request.lastIncludedIndex = some request.lastIncludedTerm ∨
      node.commitIndex ≤ request.lastIncludedIndex

theorem admitSnapshot_ok (h : admitSnapshot request = .ok ()) :
    0 < request.lastIncludedIndex ∧ 0 < request.lastIncludedTerm ∧
      request.lastIncludedTerm ≤ request.term ∧ validConfig request.config = true := by
  rw [admitSnapshot] at h
  split_ifs at h with hterm hposition hconfig
  exact ⟨by omega, by omega, by omega, hconfig⟩

theorem adoptSnapshot_other
    (hother : node.entryTerm request.lastIncludedIndex ≠ some request.lastIncludedTerm) :
    (node.adoptSnapshot request).lastLogIndex = request.lastIncludedIndex ∧
      (node.adoptSnapshot request).commitIndex =
        max node.commitIndex request.lastIncludedIndex := by
  rw [adoptSnapshot, if_neg hother]
  exact ⟨rfl, rfl⟩

theorem upholds_adoptSnapshot (hadmitted : admitSnapshot request = .ok ())
    (hterm : request.term = node.currentTerm) (hbound : request.lastIncludedIndex ≤ maxIndex)
    (hnewer : node.snapshotIndex < request.lastIncludedIndex)
    (hcovered : node.entryTerm request.lastIncludedIndex = some request.lastIncludedTerm ∨
      node.commitIndex ≤ request.lastIncludedIndex) :
    Upholds node (node.adoptSnapshot request) := by
  obtain ⟨hindex, hpositive, hle, hconfig⟩ := admitSnapshot_ok hadmitted
  rw [adoptSnapshot]
  refine Upholds.trans ?_ upholds_pruneCommitted
  split_ifs with hown
  · rcases entryTerm_eq_some hown with ⟨heq, -⟩ | ⟨-, entry, hentry, hentryterm⟩
    · omega
    have hlength := (List.getElem?_eq_some_iff.mp hentry).1
    have hdiscard : min (request.lastIncludedIndex - node.snapshotIndex) node.log.length =
        request.lastIncludedIndex - node.snapshotIndex - 1 + 1 := by omega
    dsimp only
    rw [hdiscard]
    intro h
    have hcommit := h.saved.commit_le
    have hfits := h.saved.bound
    simp only [stored, saved] at hcommit hfits
    refine ⟨⟨{ h.saved with
        base := hconfig
        unbegun := fun hzero => absurd hzero hindex.ne'
        begun := fun _ => hpositive
        snapshotTerm_le := hle.trans_eq hterm
        log := hentryterm ▸ h.saved.log.drop hentry
        snapshot_le := le_max_right _ _
        bound := ?_
        commit_le := ?_ }, h.stands, h.reports, h.recovery⟩,
      advances_drop hnewer.le ?_ rfl (le_max_left _ _)⟩
    · simp only [stored, saved, List.length_drop]
      omega
    · simp only [stored, saved, List.length_drop]
      omega
    · exact congrArg (List.drop · node.log) (by omega)
  · have hall : node.commitIndex ≤ request.lastIncludedIndex := hcovered.resolve_left hown
    refine fun h => ⟨⟨{ h.saved with
        base := hconfig
        unbegun := fun hzero => absurd hzero hindex.ne'
        begun := fun _ => hpositive
        snapshotTerm_le := hle.trans_eq hterm
        log := .nil _ _
        snapshot_le := le_max_right _ _
        bound := hbound
        commit_le := max_le hall le_rfl }, h.stands, h.reports, h.recovery⟩,
      le_max_left _ _, hnewer.le, fun at' hat => .inl (hat.trans hall)⟩

theorem upholds_onInstallSnapshot (hcovered : node.Covered request)
    (hbound : request.lastIncludedIndex ≤ maxIndex) :
    Upholds node (node.onInstallSnapshot request).1 := by
  rw [onInstallSnapshot]
  cases hadmitted : admitSnapshot request with
  | error _ => exact .of_stored rfl
  | ok _ =>
    dsimp only
    split_ifs with hold hnewer
    · exact .of_stored rfl
    · obtain ⟨hcommit, hsnapshot, hentry⟩ := node.recognizeLeader_log request.term
      have hcurrent := recognizeLeader_currentTerm (not_lt.mp hold)
      refine (upholds_ground.recognizeLeader request.term upholds_stepDown).trans
        (upholds_adoptSnapshot hadmitted hcurrent.symm hbound hnewer ?_)
      rw [hcommit, hentry]
      rw [hsnapshot] at hnewer
      exact hcovered hadmitted (not_lt.mp hold) hnewer
    · exact upholds_ground.recognizeLeader request.term upholds_stepDown

theorem upholds_parts : Parts Upholds where
  toGround := upholds_ground
  of_held h := .of_stored (congrArg Prod.fst h)
  stepDown := upholds_stepDown
  stand h := ⟨⟨SavedRaft.Sound.later h.saved (Nat.le_succ _) _, fun _ => Nat.succ_pos _,
    by simp [stored], h.recovery⟩, .of_log rfl rfl le_rfl⟩
  tally {a reply} hadmitted h := by
    refine ⟨⟨h.saved, h.stands, fun {voter reports} hreports => ?_, h.recovery⟩,
      .of_log rfl rfl le_rfl⟩
    simp only [stored, getElem?_insert_if] at hreports
    split_ifs at hreports
    · obtain rfl := Option.some.inj hreports
      exact admitReportsFrom_lawful hadmitted
    · exact h.reports hreports
  withdraw h := ⟨⟨h.saved, by simp [stored], by simp [stored], h.recovery⟩, .of_log rfl rfl le_rfl⟩
  lead := upholds_lead
  grant _ h := ⟨⟨SavedRaft.Sound.later h.saved le_rfl _, h.stands, h.reports, h.recovery⟩,
    .of_log rfl rfl le_rfl⟩
  append _ hrole _ h := upholds_leaderAppend (h.stands (.inr hrole)) rfl rfl h
  complete := upholds_completeMembershipChange
  recover := upholds_continueRecovery
  openTrack {a} := by
    rw [openFastTrack]
    split_ifs
    · exact .of_stored rfl
    · exact fun h => ⟨{ h with }, .of_log rfl rfl le_rfl⟩
  cast := upholds_castFastVote
  hear _ _ h := ⟨{ h with }, .of_log rfl rfl le_rfl⟩
  decideVotes fuel hrole h := upholds_decideWithin fuel (h.stands (.inr hrole)) h
  choose := .of_stored rfl
  tidy _ h := ⟨{ h with }, .of_log rfl rfl le_rfl⟩
  entries := upholds_onAppendEntries

/-! ## The return -/

theorem SavedRaft.Sound.validate {s : SavedRaft} (h : s.Sound)
    (hindices : (s.window.map SlotReport.index).Nodup) : s.validate = .ok () := by
  have hterm := h.snapshotTerm_le
  have hwindow : s.validateWindow = .ok () := by
    refine if_pos ⟨h.synced_le, fun report hreport => ?_, hindices⟩
    obtain ⟨hpositive, hle, -⟩ := h.window report hreport
    exact ⟨hpositive, hle⟩
  rw [SavedRaft.validate, if_neg (by simp [h.base]), if_neg ?_, if_neg (not_lt.mpr h.bound),
    if_neg (not_or.mpr ⟨not_lt.mpr h.snapshot_le, not_lt.mpr h.commit_le⟩), h.log.validateLog]
  · exact hwindow
  · rintro (⟨hzero, hnone⟩ | ⟨hpositive, hnone⟩ | hlater)
    · obtain ⟨hterm, hdata⟩ := h.unbegun hzero
      exact hnone.elim (fun hne => hne hterm) fun hne => hne hdata
    · exact (h.begun hpositive).ne' hnone
    · omega

theorem Sound.validate (h : node.stored.Sound) : node.saved.validate = .ok () := by
  refine SavedRaft.Sound.validate h.saved ?_
  have hkeys : node.saved.window.map SlotReport.index = node.window.keys := by
    rw [← ExtTreeMap.map_fst_toList_eq_keys, saved, List.map_map]
    rfl
  rw [hkeys]
  exact ExtTreeMap.nodup_keys

theorem pushAll_eq (hroom : node.lastLogIndex + entries.length ≤ maxIndex) :
    ∃ configs bytes, pushAll node entries = .ok { node with
      log := node.log ++ entries, configEntries := configs, logBytesHeld := bytes } := by
  induction entries generalizing node with
  | nil =>
    refine ⟨node.configEntries, node.logBytesHeld, ?_⟩
    rw [List.append_nil]
    rfl
  | cons entry entries ih =>
    rw [List.length_cons] at hroom
    obtain ⟨configs, bytes, hrest⟩ := @ih (node.pushed entry) (by
      rw [pushed_lastLogIndex]
      omega)
    refine ⟨configs, bytes, ?_⟩
    rw [pushAll, pushEntry_eq, if_pos (by omega)]
    dsimp only
    rw [hrest, pushed, List.append_assoc]
    rfl

theorem Sound.restore (h : node.stored.Sound) :
    ∃ restored, RaftNode.restore node.saved = .ok restored ∧ restored.saved = node.saved ∧
      restored.stored.Sound := by
  have hbound : node.snapshotIndex + node.log.length ≤ maxIndex := h.saved.bound
  obtain ⟨configs, bytes, hpushed⟩ := @pushAll_eq (begun node.saved) node.saved.log hbound
  have hwindow : node.saved.window.foldl (fun window report =>
      window.insert report.index report.slot) ∅ = node.window := by
    rw [saved, List.foldl_map]
    exact foldl_insert_toList node.window
  rw [RaftNode.restore, Sound.validate h]
  dsimp only [bind, Except.bind]
  rw [hpushed]
  dsimp only
  rw [hwindow]
  exact ⟨_, rfl, rfl, h.saved, by simp [stored, new], by simp [stored, new], by simp [stored, new]⟩

theorem upholds_restart : Upholds node (node.call .restart) := by
  intro h
  obtain ⟨restored, hrestored, hsaved, hsound⟩ := Sound.restore h
  rw [call, hrestored]
  exact ⟨hsound, .of_log (congrArg SavedRaft.snapshotIndex hsaved) (congrArg SavedRaft.log hsaved)
    (congrArg SavedRaft.commitIndex hsaved).ge⟩

end RaftNode

/-! ## Whole runs -/

/-- Voter lists name no host twice, and a snapshot's index is one of 64 bits. Nothing else is asked
of a message. -/
def Call.WellFormed : Call → Prop
  | .promoteCaughtUp target => target.Nodup
  | .beginMembershipChange voters => voters.Nodup
  | .onInstallSnapshot request => request.lastIncludedIndex ≤ maxIndex
  | _ => True

namespace RaftNode

/-- Whether a received snapshot may be taken up; every other call may. -/
def Takes (node : RaftNode) : Call → Prop
  | .onInstallSnapshot request => node.Covered request
  | _ => True

variable {node : RaftNode}

theorem upholds_call {call : Call} (hwell : call.WellFormed) (htakes : node.Takes call) :
    Upholds node (node.call call) :=
  upholds_parts.call fun hapart => by
    cases call with
    | retained => exact fun h => ⟨{ h with }, .of_log rfl rfl le_rfl⟩
    | restart => exact upholds_restart
    | compact upTo state => exact upholds_compact upTo state
    | promoteCaughtUp target =>
      exact upholds_ground.promoteCaughtUp fun _ =>
        upholds_beginMembershipChange (List.Nodup.filter _ hwell)
    | beginMembershipChange voters => exact upholds_beginMembershipChange hwell
    | onInstallSnapshot request => exact upholds_onInstallSnapshot htakes hwell
    | _ => cases hapart

theorem upholds_calls {calls : List Call} (hwell : ∀ call ∈ calls, call.WellFormed)
    (htakes : Runs.Meets call Takes node calls) : Upholds node (node.calls calls) := by
  induction calls generalizing node with
  | nil => exact .of_stored rfl
  | cons call calls ih =>
    obtain ⟨hfirst, hrest⟩ := List.forall_mem_cons.mp hwell
    exact (upholds_call hfirst htakes.1).trans (ih hrest htakes.2)

theorem sound_new (id : HostId) {voters : List HostId} (h : validSet voters = true) :
    (new id voters).stored.Sound where
  saved := {
    base := by simp [stored, saved, new, validConfig, h]
    unbegun := fun _ => ⟨rfl, rfl⟩
    begun := fun hpositive => absurd hpositive (lt_irrefl 0)
    snapshotTerm_le := le_rfl
    log := .nil _ _
    bound := Nat.zero_le _
    snapshot_le := le_rfl
    commit_le := le_rfl
    synced_le := le_rfl
    window := by simp [stored, saved, new] }
  stands := by simp [stored, new]
  reports := by simp [stored, new]
  recovery := by simp [stored, new]

/-- A node that its own recovery accepts and gives back, committed within its log. -/
structure Intact (node : RaftNode) : Prop where
  valid : node.saved.validate = .ok ()
  returns : ∃ restored, restore node.saved = .ok restored ∧ restored.saved = node.saved
  snapshot_le : node.snapshotIndex ≤ node.commitIndex
  commit_le : node.commitIndex ≤ node.lastLogIndex

theorem Sound.intact (h : node.stored.Sound) : node.Intact := by
  obtain ⟨restored, hrestored, hsaved, -⟩ := Sound.restore h
  exact ⟨Sound.validate h, ⟨restored, hrestored, hsaved⟩, h.saved.snapshot_le, h.saved.commit_le⟩

/-- The node is intact at every moment, and nothing committed is undone later. -/
def Uncorrupted (node : RaftNode) (calls : List Call) : Prop :=
  ∀ before between after, calls = before ++ between ++ after →
    (node.calls before).Intact ∧
      (node.calls before).Advances ((node.calls before).calls between)

theorem not_intact_of_not_covered {request : InstallSnapshot} (h : ¬ node.Covered request) :
    ¬ (node.call (.onInstallSnapshot request)).Intact := by
  rw [Covered] at h
  push Not at h
  obtain ⟨hadmitted, hterm, hnewer, hother, hbelow⟩ := h
  obtain ⟨hcommit, hsnapshot, hentry⟩ := node.recognizeLeader_log request.term
  obtain ⟨hlast, hcommit'⟩ := @adoptSnapshot_other (node.recognizeLeader request.term) request
    (by rw [hentry]; exact hother)
  intro hintact
  have hle := hintact.commit_le
  rw [call, onInstallSnapshot, hadmitted] at hle
  dsimp only at hle
  rw [if_neg (not_lt.mpr hterm), hsnapshot, if_pos hnewer, hlast, hcommit', hcommit] at hle
  omega

/-- **No message corrupts a node, a snapshot apart.** Over any calls and messages, the node stays
one its own recovery accepts and gives back, its commit index never falls, and nothing it covers is
replaced or dropped other than into the snapshot, exactly when no snapshot it takes up is of another
log and ends below its commit index. -/
theorem uncorrupted_iff (id : HostId) {voters : List HostId} (hvoters : validSet voters = true)
    {calls : List Call} (hwell : ∀ call ∈ calls, call.WellFormed) :
    (new id voters).Uncorrupted calls ↔ Runs.Meets call Takes (new id voters) calls := by
  have hnew := sound_new id hvoters
  generalize new id voters = node at hnew
  constructor
  · intro h
    induction calls generalizing node with
    | nil => trivial
    | cons call calls ih =>
      obtain ⟨hfirst, hrest⟩ := List.forall_mem_cons.mp hwell
      have htakes : node.Takes call := by
        cases call with
        | onInstallSnapshot request =>
          by_contra hnot
          exact not_intact_of_not_covered hnot (h [_] [] calls rfl).1
        | _ => trivial
      refine ⟨htakes, ih hrest _ ((upholds_call hfirst htakes hnew).1) ?_⟩
      intro before between after hcalls
      refine h (call :: before) between after ?_
      rw [hcalls]
      rfl
  · rintro h before between after rfl
    rw [Runs.meets_append, Runs.meets_append] at h
    have hbefore := upholds_calls (fun call hcall => hwell call (by simp [hcall])) h.1.1 hnew
    have hbetween := upholds_calls (fun call hcall => hwell call (by simp [hcall])) h.1.2 hbefore.1
    exact ⟨Sound.intact hbefore.1, hbetween.2⟩

theorem uncorrupted_iff_first_snapshot :
    (new 1 [1, 2, 3]).Uncorrupted
      [.onInstallSnapshot ⟨2, 2, 5, 1, ⟨[1, 2, 3], none⟩, [9]⟩, .restart] :=
  (uncorrupted_iff 1 (by decide) (by simp [Call.WellFormed, maxIndex])).mpr
    ⟨fun _ _ _ => .inr (by decide), trivial, trivial⟩

/-- Two committed entries, and a snapshot of another log that ends at the first. -/
def contradicted : List Call :=
  [.onAppendEntries {
      readContext := 0, term := 1, leader := 2, prevLogIndex := 0, prevLogTerm := 0
      entries := [.ofCommand 1 [7], .ofCommand 1 [8]], leaderCommit := 2, priorities := []
      syncIndex := 0, openFrom := 0 },
    .onInstallSnapshot ⟨2, 3, 1, 2, ⟨[1, 2, 3], none⟩, [9]⟩]

theorem contradicting_snapshot_corrupts :
    ¬ (new 1 [1, 2, 3]).Uncorrupted contradicted ∧
      ((new 1 [1, 2, 3]).calls contradicted).saved.validate = .error .invalidCommitIndex := by
  have hrefused : ((new 1 [1, 2, 3]).calls contradicted).saved.validate =
      .error .invalidCommitIndex := by
    rfl
  refine ⟨fun h => ?_, hrefused⟩
  have hvalid := (h contradicted [] [] rfl).1.valid
  rw [hrefused] at hvalid
  cases hvalid

end RaftNode

end Slates.Raft
