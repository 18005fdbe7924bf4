import Slates.Raft.Parts
import Slates.Raft.Whole

/-!
Nothing unsaved is hidden: a call that changes what a node retains leaves its retention pending. One
relation says so of each part of a handler and composes.
-/

open Std (ExtTreeMap)

namespace Slates.Raft

open Register (HostId checkedSucc)

namespace Stored

def lastLogIndex (s : Stored) : Nat := s.saved.snapshotIndex + s.saved.log.length

/-- The snapshot is committed, and a recovery goes on from the log's end with nothing else appended
in the term. -/
structure Steady (s : Stored) : Prop where
  snapshot_le : s.saved.snapshotIndex ≤ s.saved.commitIndex
  recovery_le : ∀ r ∈ s.recovery, r.term ≤ s.saved.term
  recovery_lt : s.role = .candidate → ∀ r ∈ s.recovery, r.term < s.saved.term
  recovering : s.role = .leader → ∀ r ∈ s.recovery, r.term = s.saved.term →
    r.next = satSucc s.lastLogIndex ∧ s.openFrom = 0 ∧ s.fastVotes = ∅ ∧ s.syncIndex = 0

/-- What changed is pending, and what was pending still is. -/
def Shows (s s' : Stored) : Prop :=
  s'.pending = true ∨ s'.saved = s.saved ∧ s'.pending = s.pending

theorem Shows.trans {s s' s'' : Stored} (h : Shows s s') (h' : Shows s' s'') : Shows s s'' := by
  rcases h' with hpending | ⟨hsaved, hpending⟩
  · exact .inl hpending
  rcases h with hbefore | ⟨hsaved', hpending'⟩
  · exact .inl (hpending.trans hbefore)
  · exact .inr ⟨hsaved.trans hsaved', hpending.trans hpending'⟩

end Stored

namespace RaftNode

open Stored (Steady Shows)

/-- From a steady state to a steady state, with nothing hidden. -/
def Serves (node node' : RaftNode) : Prop :=
  node.stored.Steady → Shows node.stored node'.stored ∧ node'.stored.Steady

variable {node node' node'' : RaftNode}

theorem Serves.trans (h : Serves node node') (h' : Serves node' node'') : Serves node node'' := by
  intro hsteady
  obtain ⟨hshows, hsteady'⟩ := h hsteady
  obtain ⟨hshows', hsteady''⟩ := h' hsteady'
  exact ⟨hshows.trans hshows', hsteady''⟩

theorem Serves.of_stored (h : node'.stored = node.stored) : Serves node node' := by
  intro hsteady
  rw [h]
  exact ⟨.inr ⟨rfl, rfl⟩, hsteady⟩

theorem Steady.idle (h : node.stored.Steady) (hrecovery : node'.recovery = node.recovery)
    (hsnapshot : node'.snapshotIndex ≤ node'.commitIndex)
    (hterm : node.currentTerm ≤ node'.currentTerm) (hcandidate : node'.role ≠ .candidate)
    (hleader : node'.role ≠ .leader) : node'.stored.Steady where
  snapshot_le := hsnapshot
  recovery_le r hr := (h.recovery_le r (hrecovery.symm.trans hr)).trans hterm
  recovery_lt hrole := absurd hrole hcandidate
  recovering hrole := absurd hrole hleader

/-! ## Terms and votes -/

theorem serves_stepDown {term : Nat} (hterm : node.currentTerm ≤ term) :
    Serves node (node.stepDown term) := by
  intro h
  refine ⟨?_, Steady.idle h rfl h.snapshot_le hterm (by simp [stepDown]) (by simp [stepDown])⟩
  cases hpending : (node.stepDown term).retentionPending with
  | true => exact .inl hpending
  | false =>
    simp only [stepDown, Bool.or_eq_false_iff, bne_eq_false_iff_eq, Option.isSome_eq_false_iff,
      Option.isNone_iff_eq_none] at hpending
    obtain ⟨⟨hbefore, rfl⟩, hvote⟩ := hpending
    refine .inr ⟨?_, ?_⟩
    · simp only [stored, saved, stepDown, hvote]
    · simp only [stored, stepDown, hbefore, hvote, bne_self_eq_false, Option.isSome_none,
        Bool.or_self]

/-! ## The log and the commit index -/

theorem Serves.of_pending (hpending : node'.retentionPending = true)
    (hrecovery : node'.recovery = node.recovery) (hterm : node'.currentTerm = node.currentTerm)
    (hsnapshot : node.stored.Steady → node'.snapshotIndex ≤ node'.commitIndex)
    (hrole : node'.role = node.role ∨ node'.role = .follower)
    (hidle : node'.role = .leader → node.recovering = false) : Serves node node' := by
  intro h
  refine ⟨.inl hpending, hsnapshot h, fun r hr => ?_, fun hcandidate r hr => ?_,
    fun hleader r hr hcurrent => ?_⟩
  · rw [show node'.stored.saved.term = node.currentTerm from hterm]
    exact h.recovery_le r (hrecovery.symm.trans hr)
  · rw [show node'.stored.saved.term = node.currentTerm from hterm]
    rcases hrole with hsame | hfollower
    · exact h.recovery_lt (hsame.symm.trans hcandidate) r (hrecovery.symm.trans hr)
    · exact absurd (hfollower.symm.trans hcandidate) (by simp)
  · have hnone := hidle hleader
    rcases hrole with hsame | hfollower
    · rw [RaftNode.recovering, hsame.symm.trans hleader, hrecovery.symm.trans hr] at hnone
      have hterm' : r.term = node.currentTerm := hcurrent.trans hterm
      simp [hterm'] at hnone
    · exact absurd (hfollower.symm.trans hleader) (by simp)

theorem serves_pruneCommitted : Serves node node.pruneCommitted := by
  intro h
  refine ⟨?_, h.1, h.2, h.3, h.4⟩
  cases hpending : node.pruneCommitted.retentionPending with
  | true => exact .inl hpending
  | false =>
    simp only [pruneCommitted, Bool.or_eq_false_iff, decide_eq_false_iff_not, not_lt] at hpending
    obtain ⟨hbefore, hsize⟩ := hpending
    have hsame : (node.window.filter fun index _ => node.commitIndex < index) = node.window :=
      ExtTreeMap.filter_eq_self_iff.mpr
        (ExtTreeMap.size_filter_eq_size_iff.mp (le_antisymm ExtTreeMap.size_filter_le_size hsize))
    refine .inr ⟨?_, ?_⟩
    · simp only [stored, saved, pruneCommitted, hsame]
    · simp only [stored, pruneCommitted, hsame, hbefore, lt_self_iff_false, decide_false,
        Bool.or_self]

theorem serves_commitHeld : Serves node node.commitHeld := by
  rw [commitHeld]
  split_ifs with hheld
  · exact fun h => ⟨.inl rfl, h.snapshot_le.trans hheld.1.le, h.2, h.3, h.4⟩
  · exact .of_stored rfl

theorem serves_ground : Ground Serves where
  trans := Serves.trans
  of_visible h := .of_stored (congrArg (·.1.1) h)
  follower _ _ hcandidate hleader h :=
    ⟨.inr ⟨rfl, rfl⟩, Steady.idle h rfl h.snapshot_le le_rfl hcandidate hleader⟩
  dropRead := .of_stored rfl
  rematch h _ := .of_stored (congrArg (·.1.1) h)
  commitHeld _ := serves_commitHeld
  commitChosen := .of_stored rfl
  pruneCommitted := serves_pruneCommitted

theorem serves_leaderAppend (hidle : node.recovering = false) (entry : LogEntry) :
    Serves node (node.leaderAppend entry).1 := by
  rw [leaderAppend, pushEntry_eq]
  split_ifs
  · exact .of_stored rfl
  · refine Serves.trans ?_ serves_ground.advanceLeaderCommit
    exact .of_pending rfl rfl rfl (fun h => h.snapshot_le) (.inl rfl) fun _ => hidle
  · exact .of_stored rfl

theorem serves_beginMembershipChange (voters : List HostId) :
    Serves node (node.beginMembershipChange voters).1 :=
  serves_ground.beginMembershipChange fun _ hidle _ _ _ => serves_leaderAppend hidle _

theorem serves_compact (upTo : Nat) (state : List UInt8) :
    Serves node (node.compact upTo state).1 := by
  rw [compact]
  split_ifs with hrefused
  · exact .of_stored rfl
  push Not at hrefused
  split
  · exact .of_stored rfl
  · rename_i term hterm
    intro h
    have hlength : upTo - node.snapshotIndex ≤ node.log.length := by
      rw [entryTerm, if_neg (by omega), if_neg (by omega), entryAt, position, if_neg (by omega),
        Option.bind_some] at hterm
      obtain ⟨e, he, -⟩ := Option.map_eq_some_iff.mp hterm
      have := (List.getElem?_eq_some_iff.mp he).1
      omega
    refine ⟨.inl rfl, hrefused.2, h.recovery_le, h.recovery_lt, fun hrole r hr hcurrent => ?_⟩
    obtain ⟨hnext, hrest⟩ := h.recovering hrole r hr hcurrent
    refine ⟨hnext.trans (congrArg satSucc ?_), hrest⟩
    simp only [Stored.lastLogIndex, stored, saved, List.length_drop]
    omega

/-! ## Recovery and elections -/

theorem recoverSlice_steady (slice fuel : Nat) (node : RaftNode) (recovery : Recovery) (spent : Nat)
    (hnext : recovery.next = satSucc node.lastLogIndex) :
    (∃ log configs bytes, (recoverSlice slice fuel node recovery spent).1 =
      { node with log := log, configEntries := configs, logBytesHeld := bytes }) ∧
    (recoverSlice slice fuel node recovery spent).2.1.next =
      satSucc (recoverSlice slice fuel node recovery spent).1.lastLogIndex ∧
    (node.lastLogIndex < maxIndex → (recoverSlice slice fuel node recovery spent).2.2 = true) ∧
    ((recoverSlice slice fuel node recovery spent).2.2 = false →
      (recoverSlice slice fuel node recovery spent).1 = node) := by
  refine recoverSlice_rule (P := fun node recovery result =>
      recovery.next = satSucc node.lastLogIndex →
      (∃ log configs bytes, result.1 =
        { node with log := log, configEntries := configs, logBytesHeld := bytes }) ∧
      result.2.1.next = satSucc result.1.lastLogIndex ∧
      (node.lastLogIndex < maxIndex → result.2.2 = true) ∧ (result.2.2 = false → result.1 = node))
    (fun hnext => ⟨⟨_, _, _, rfl⟩, hnext, fun _ => rfl, nofun⟩)
    (fun hfull hnext => ⟨⟨_, _, _, rfl⟩, hnext, fun hlt => absurd hlt hfull, fun _ => rfl⟩)
    ?_ ?_ fuel node recovery spent hnext
  · intro node recovery hroom hsucc hnext
    refine ⟨⟨_, _, _, rfl⟩, ?_, fun _ => rfl, nofun⟩
    rw [checkedSucc] at hsucc
    split_ifs at hsucc with hfits
    dsimp only
    rw [pushed_lastLogIndex, hnext, satSucc, satSucc]
    rw [hnext, satSucc] at hfits
    unfold maxIndex at *
    omega
  · intro node recovery next result hroom hsucc hrest hnext
    rw [checkedSucc] at hsucc
    split_ifs at hsucc with hfits
    obtain rfl := Option.some.inj hsucc
    have hlast := node.pushed_lastLogIndex (node.recoveryEntry recovery recovery.next)
    have hnext' : recovery.next = node.lastLogIndex + 1 := by
      rw [hnext, satSucc]
      omega
    obtain ⟨⟨log, configs, bytes, hafter⟩, hnext'', htrue, -⟩ := hrest (by
      dsimp only
      rw [hlast, satSucc, maxIndex]
      omega)
    have hfits' := htrue (by rw [hlast, maxIndex]; omega)
    refine ⟨⟨log, configs, bytes, hafter⟩, hnext'', fun _ => hfits', fun hfalse => ?_⟩
    exact absurd (hfits'.symm.trans hfalse) (by simp)

theorem serves_continueRecovery : Serves node node.continueRecovery := by
  rw [continueRecovery]
  split_ifs with hidle
  · intro h
    exact ⟨.inr ⟨rfl, rfl⟩, h.snapshot_le, by simp [stored], by simp [stored], by simp [stored]⟩
  split
  · exact .of_stored rfl
  rename_i recovery hrecovery
  intro h
  dsimp only
  simp only [recovering, hrecovery, Option.any_some, Bool.not_eq_true', Bool.and_eq_false_iff,
    decide_eq_false_iff_not, not_or, not_not] at hidle
  obtain ⟨hrole, hcurrent⟩ := hidle
  obtain ⟨hnext, hopen, hvotes, hsync⟩ := h.recovering hrole recovery hrecovery hcurrent
  obtain ⟨⟨log, configs, bytes, hafter⟩, hnext', -, hsame⟩ :=
    recoverSlice_steady (max node.windowBudget minEntryBytes) (recovery.last + 1 - recovery.next)
      { node with recovery := none } recovery 0 hnext
  have hterm := congrArg Recovery.term (recoverSlice_recovery (max node.windowBudget minEntryBytes)
    (recovery.last + 1 - recovery.next) { node with recovery := none } recovery 0)
  generalize recoverSlice _ _ _ _ _ = sliced at *
  obtain ⟨after, rest, fits⟩ := sliced
  dsimp only at hafter hterm hnext' hsame
  cases fits with
  | false =>
    obtain rfl := hsame rfl
    exact ⟨.inr ⟨rfl, rfl⟩, h.snapshot_le, by simp [stored], by simp [stored], by simp [stored]⟩
  | true =>
    subst hafter
    dsimp only
    split_ifs
    · refine ⟨.inl rfl, h.snapshot_le, fun r hr => ?_, fun hcandidate => ?_, fun _ r hr _ => ?_⟩
      · obtain rfl := Option.some.inj hr
        exact hterm.le.trans (h.recovery_le recovery hrecovery)
      · exact absurd (hrole.symm.trans hcandidate) (by simp)
      · obtain rfl := Option.some.inj hr
        exact ⟨hnext', hopen, hvotes, hsync⟩
    · have hdone : Serves node { node with
          log := log, configEntries := configs, logBytesHeld := bytes, recovery := none,
          retentionPending := true } := fun _ =>
        ⟨.inl rfl, h.snapshot_le, by simp [stored], by simp [stored], by simp [stored]⟩
      exact (hdone.trans (serves_leaderAppend (by simp [recovering]) _)) h
    · exact ⟨.inl rfl, h.snapshot_le, by simp [stored], by simp [stored], by simp [stored]⟩

theorem planRecovery_starts (node : RaftNode) :
    node.planRecovery.term = node.currentTerm ∧
      node.planRecovery.next = satSucc node.lastLogIndex := by
  unfold planRecovery
  dsimp only
  cases hsucc : checkedSucc node.lastLogIndex with
  | none =>
    refine ⟨rfl, ?_⟩
    rw [checkedSucc] at hsucc
    split_ifs at hsucc
    change maxIndex = satSucc node.lastLogIndex
    rw [satSucc, maxIndex]
    omega
  | some next =>
    refine ⟨rfl, ?_⟩
    rw [checkedSucc] at hsucc
    split_ifs at hsucc
    obtain rfl := Option.some.inj hsucc
    change node.lastLogIndex + 1 = satSucc node.lastLogIndex
    rw [satSucc, maxIndex]
    omega

theorem serves_lead (hrole : node.role = .candidate) :
    Serves node ({ node with role := .leader }.recover node.planRecovery).beginLeading := by
  suffices hlead : Serves node ({ node with role := .leader }.recover node.planRecovery) from
    hlead.trans (.of_stored rfl)
  obtain ⟨hterm, hnext⟩ := node.planRecovery_starts
  rw [recover]
  dsimp only
  split_ifs
  · refine Serves.trans ?_ serves_continueRecovery
    refine fun h => ⟨.inl rfl, h.snapshot_le, fun r hr => ?_, by simp [stored], fun _ r hr _ => ?_⟩
    · obtain rfl := Option.some.inj hr
      exact hterm.le
    · obtain rfl := Option.some.inj hr
      exact ⟨hnext, rfl, rfl, rfl⟩
  · refine fun h => ⟨.inl rfl, h.snapshot_le, h.recovery_le, by simp [stored],
      fun _ r hr hcurrent => ?_⟩
    exact absurd hcurrent (h.recovery_lt hrole r hr).ne

theorem serves_grant (candidate : HostId) : Serves node { node with
    retentionPending := node.retentionPending || node.votedFor != some candidate
    votedFor := some candidate } := by
  intro h
  refine ⟨?_, h.1, h.2, h.3, h.4⟩
  by_cases hsame : node.votedFor = some candidate
  · refine .inr ⟨?_, ?_⟩
    · simp only [stored, saved, hsame]
    · simp only [stored, hsame, bne_self_eq_false, Bool.or_false]
  · exact .inl (by simp [stored, hsame])

/-! ## The fast track -/

theorem serves_castFastVote (proposal : FastPropose) :
    Serves node (node.castFastVote proposal).1 := by
  rw [castFastVote]
  split_ifs
  · exact .of_stored rfl
  · exact fun h => ⟨.inl rfl, h.1, h.2, h.3, h.4⟩

theorem serves_openFastTrack : Serves node node.openFastTrack.1 := by
  rw [openFastTrack]
  split_ifs with hrefused
  · exact .of_stored rfl
  · intro h
    refine ⟨.inr ⟨rfl, rfl⟩, h.1, h.2, h.3, fun hrole r hr hcurrent => ?_⟩
    exact absurd (h.recovering hrole r hr hcurrent).2.2.2 (not_or.mp (not_or.mp hrefused).2).1

theorem serves_decideWithin (fuel : Nat) : Serves node (decideWithin fuel node) := by
  refine decideWithin_rule (R := Serves) (fun _ => .of_stored rfl) Serves.trans ?_ fuel
  intro node votes command hvotes h
  -- the node has votes to decide from, so it is past its recovery
  have hidle : node.recovering = false := by
    cases hrecovery : node.recovery with
    | none => simp [recovering, hrecovery]
    | some r =>
      simp only [recovering, hrecovery, Option.any_some, Bool.and_eq_false_iff,
        decide_eq_false_iff_not]
      by_contra hboth
      push Not at hboth
      have hnone := (h.recovering hboth.1 r hrecovery hboth.2).2.2.1
      rw [show node.fastVotes = ∅ from hnone] at hvotes
      simp at hvotes
  exact serves_leaderAppend hidle _ h

/-! ## Appends and snapshots -/

/-- The node with another log, and its retention as pending. -/
def Relogged (node node' : RaftNode) : Prop :=
  ∃ log configs bytes pending, node' = { node with
    log := log, configEntries := configs, logBytesHeld := bytes, retentionPending := pending } ∧
    (pending = true ∨ node' = node)

theorem Relogged.refl (node : RaftNode) : Relogged node node :=
  ⟨_, _, _, _, rfl, .inr rfl⟩

theorem Relogged.trans (h : Relogged node node') (h' : Relogged node' node'') :
    Relogged node node'' := by
  obtain ⟨log, configs, bytes, pending, rfl, hpending⟩ := h
  obtain ⟨log', configs', bytes', pending', rfl, hpending'⟩ := h'
  rcases hpending' with rfl | hsame'
  · exact ⟨log', configs', bytes', true, rfl, .inl rfl⟩
  rcases hpending with rfl | hsame
  · have hflag : pending' = true := congrArg retentionPending hsame'
    exact ⟨log', configs', bytes', pending', rfl, .inl hflag⟩
  · exact ⟨log', configs', bytes', pending', rfl, .inr (hsame'.trans hsame)⟩

theorem Relogged.serves (h : Relogged node node') (hrole : node.role = .follower) :
    Serves node node' := by
  obtain ⟨log, configs, bytes, pending, rfl, hpending⟩ := h
  refine fun hsteady => ⟨?_, Steady.idle hsteady rfl hsteady.snapshot_le le_rfl ?_ ?_⟩
  · rcases hpending with rfl | hsame
    · exact .inl rfl
    · exact .inr ⟨congrArg saved hsame, congrArg retentionPending hsame⟩
  · simp [hrole]
  · simp [hrole]

theorem relogged_pushEntry (hpending : node.retentionPending = true) (entry : LogEntry) :
    Relogged node (node.pushEntry entry).1 := by
  rw [pushEntry_eq]
  split_ifs
  · exact ⟨_, _, _, _, rfl, .inl hpending⟩
  · exact .refl node

theorem relogged_placeEntry {index : Nat} (hindex : node.snapshotIndex < index) (entry : LogEntry) :
    Relogged node (node.placeEntry index entry).1 := by
  rw [placeEntry]
  cases hterm : node.entryTerm index with
  | none =>
    have hflagged : Relogged node { node with retentionPending := true } :=
      ⟨_, _, _, true, rfl, .inl rfl⟩
    exact hflagged.trans (relogged_pushEntry rfl entry)
  | some term =>
    dsimp only
    split_ifs
    · exact .refl node
    · -- there is an entry to cut off
      have hkeep : index - node.snapshotIndex - 1 < node.log.length := by
        rw [entryTerm, if_neg (by omega), if_neg (by omega), entryAt, position, if_neg (by omega),
          Option.bind_some] at hterm
        obtain ⟨e, he, -⟩ := Option.map_eq_some_iff.mp hterm
        exact (List.getElem?_eq_some_iff.mp he).1
      have hpending : (node.truncateFrom index).retentionPending = true := by
        simp [truncateFrom, hkeep]
      have hcut : Relogged node (node.truncateFrom index) := ⟨_, _, _, _, rfl, .inl hpending⟩
      exact hcut.trans (relogged_pushEntry hpending entry)

theorem Relogged.snapshotIndex (h : Relogged node node') :
    node'.snapshotIndex = node.snapshotIndex := by
  obtain ⟨log, configs, bytes, pending, rfl, -⟩ := h
  rfl

theorem relogged_placeAll {index : Nat} (hindex : node.snapshotIndex ≤ index)
    (entries : List LogEntry) :
    Relogged node (node.placeAll index entries).1 ∧
      index ≤ (node.placeAll index entries).2 := by
  induction entries generalizing node index with
  | nil => exact ⟨.refl node, le_rfl⟩
  | cons entry entries ih =>
    have hentry := relogged_placeEntry (Nat.lt_succ_of_le hindex) entry
    rw [placeAll]
    cases hplaced : node.placeEntry (index + 1) entry with
    | mk placed fits =>
      rw [hplaced] at hentry
      cases fits with
      | false => exact ⟨hentry, Nat.le_succ index⟩
      | true =>
        obtain ⟨hrest, hend⟩ := @ih placed (index + 1) (by rw [hentry.snapshotIndex]; omega)
        exact ⟨hentry.trans hrest, (Nat.le_succ index).trans hend⟩

theorem relogged_absorbWithin (term fuel : Nat) : Relogged node (absorbWithin term fuel node) := by
  induction fuel generalizing node with
  | zero => exact .refl node
  | succ fuel ih =>
    rw [absorbWithin]
    split
    · exact .refl node
    split_ifs
    · exact .refl node
    rw [pushEntry_eq]
    by_cases hroom : node.lastLogIndex < maxIndex
    · rw [if_pos hroom]
      exact Relogged.trans ⟨_, _, _, true, rfl, .inl rfl⟩ ih
    · rw [if_neg hroom]
      exact .refl node

theorem serves_learnCommit (leaderCommit : Nat) {index : Nat}
    (hindex : node.snapshotIndex ≤ index) :
    Serves node (node.learnCommit leaderCommit index) := by
  rw [learnCommit]
  split_ifs with hbehind
  · intro h
    have hsnapshot := h.snapshot_le
    refine ⟨?_, ?_, h.2, h.3, h.4⟩
    · by_cases hsame : node.commitIndex = min leaderCommit index
      · refine .inr ⟨?_, ?_⟩
        · simp only [stored, saved, ← hsame]
        · simp only [stored, ← hsame, bne_self_eq_false, Bool.or_false]
      · exact .inl (by simp [stored, hsame])
    · exact le_min (hsnapshot.trans hbehind.le) hindex
  · exact .of_stored rfl

theorem serves_observeSync (term syncIndex : Nat) :
    Serves node (node.observeSync term syncIndex) := by
  rw [observeSync]
  split_ifs
  · exact .of_stored rfl
  · exact fun h => ⟨.inl rfl, h.1, h.2, h.3, h.4⟩

theorem serves_bufferFrom (term floor reach index : Nat) (entries : List LogEntry) :
    Serves node (bufferFrom term floor reach node index entries) := by
  induction entries generalizing node index with
  | nil => exact .of_stored rfl
  | cons entry entries ih =>
    rw [bufferFrom]
    split_ifs
    · exact ih _
    · refine Serves.trans ?_ (ih _)
      exact fun h => ⟨.inl rfl, h.1, h.2, h.3, h.4⟩

theorem serves_takeEntries (hrole : node.role = .follower) {request : AppendEntries}
    (hanchor : node.snapshotIndex ≤ request.prevLogIndex) :
    Serves node (node.takeEntries request).1 := by
  rw [takeEntries]
  split_ifs
  · rw [buffer]
    split_ifs
    · exact .of_stored rfl
    · exact serves_bufferFrom _ _ _ _ _
  · exact .of_stored rfl
  obtain ⟨hplaced, hend⟩ := relogged_placeAll hanchor request.entries
  cases hresult : node.placeAll request.prevLogIndex request.entries with
  | mk placed index =>
    rw [hresult] at hplaced hend
    have hle : placed.snapshotIndex ≤ index := by
      rw [hplaced.snapshotIndex]
      exact hanchor.trans hend
    have hlearn := (hplaced.serves hrole).trans (serves_learnCommit request.leaderCommit hle)
    have hsync := hlearn.trans (serves_observeSync request.term request.syncIndex)
    have hfollows : ((placed.learnCommit request.leaderCommit index).observeSync request.term
        request.syncIndex).role = .follower := by
      obtain ⟨log, configs, bytes, pending, rfl, -⟩ := hplaced
      unfold observeSync learnCommit
      split_ifs <;> exact hrole
    exact (hsync.trans ((relogged_absorbWithin _ _).serves hfollows)).trans serves_pruneCommitted

theorem serves_onAppendEntries (request : AppendEntries) :
    Serves node (node.onAppendEntries request).1 := by
  rw [onAppendEntries]
  cases node.admitAppend request with
  | error _ => exact .of_stored rfl
  | ok _ =>
    dsimp only
    split_ifs with hold
    · exact .of_stored rfl
    · exact (serves_ground.recognizeLeader request.term serves_stepDown).trans (.of_stored rfl)
    all_goals
      have hheard : Serves node (node.hearLeader request) :=
        (serves_ground.recognizeLeader request.term serves_stepDown).trans (.of_stored rfl)
      refine fun h => hheard.trans (serves_takeEntries rfl ?_) h
      have hsnapshot := (hheard h).2.snapshot_le
    · exact hsnapshot
    · rename_i hoff
      exact hsnapshot.trans (not_lt.mp hoff)

theorem serves_onInstallSnapshot (request : InstallSnapshot) :
    Serves node (node.onInstallSnapshot request).1 := by
  rw [onInstallSnapshot]
  cases admitSnapshot request with
  | error _ => exact .of_stored rfl
  | ok _ =>
    dsimp only
    split_ifs
    · exact .of_stored rfl
    · refine (serves_ground.recognizeLeader request.term serves_stepDown).trans
        (Serves.trans ?_ serves_pruneCommitted)
      generalize hnode : node.recognizeLeader request.term = heard
      have hrole : heard.role = .follower := by
        rw [← hnode]
        rfl
      split_ifs
      all_goals
        refine fun h => ⟨.inl rfl, Steady.idle h rfl (le_max_right _ _) le_rfl ?_ ?_⟩
        · simp [hrole]
        · simp [hrole]
    · exact serves_ground.recognizeLeader request.term serves_stepDown

theorem serves_parts : Parts Serves where
  toGround := serves_ground
  of_held h := .of_stored (congrArg Prod.fst h)
  stepDown := serves_stepDown
  stand h := ⟨.inl rfl, h.snapshot_le, fun r hr => (h.recovery_le r hr).trans (Nat.le_succ _),
    fun _ r hr => Nat.lt_succ_of_le (h.recovery_le r hr), by simp [stored]⟩
  tally _ h := ⟨.inr ⟨rfl, rfl⟩, h.1, h.2, h.3, h.4⟩
  withdraw h := ⟨.inr ⟨rfl, rfl⟩, Steady.idle h rfl h.snapshot_le le_rfl (by simp) (by simp)⟩
  lead := serves_lead
  grant := serves_grant
  append _ _ hidle := serves_leaderAppend hidle _
  complete := serves_ground.completeMembershipChange fun _ _ hidle _ => serves_leaderAppend hidle _
  recover := serves_continueRecovery
  openTrack := serves_openFastTrack
  cast _ := serves_castFastVote _
  hear _ hopen h := ⟨.inr ⟨rfl, rfl⟩, h.1, h.2, h.3, fun hrole r hr hcurrent =>
    absurd (h.recovering hrole r hr hcurrent).2.1 hopen⟩
  decideVotes fuel _ := serves_decideWithin fuel
  choose := .of_stored rfl
  tidy {a} keep h := ⟨.inr ⟨rfl, rfl⟩, h.1, h.2, h.3, fun hrole r hr hcurrent => by
    obtain ⟨hnext, hopen, hvotes, hsync⟩ := h.recovering hrole r hr hcurrent
    refine ⟨hnext, hopen, ?_, hsync⟩
    change a.fastVotes.filter keep = ∅
    rw [show a.fastVotes = ∅ from hvotes]
    rfl⟩
  entries := serves_onAppendEntries

/-! ## The return -/

theorem pushAll_quiet {entries : List LogEntry} (h : pushAll node entries = .ok node') :
    ∃ log configs bytes, node' =
      { node with log := log, configEntries := configs, logBytesHeld := bytes } := by
  induction entries generalizing node with
  | nil =>
    obtain rfl := Except.ok.inj h
    exact ⟨_, _, _, rfl⟩
  | cons entry entries ih =>
    rw [pushAll, pushEntry_eq] at h
    split_ifs at h
    · obtain ⟨log, configs, bytes, rfl⟩ := ih h
      exact ⟨log, configs, bytes, rfl⟩

theorem steady_restore {saved : SavedRaft} (h : restore saved = .ok node) :
    node.retentionPending = true ∧ node.stored.Steady := by
  obtain ⟨hvalid, pushed, hpushed, rfl⟩ := restore_eq h
  have hsnapshot : saved.snapshotIndex ≤ saved.commitIndex := by
    rw [SavedRaft.validate] at hvalid
    split_ifs at hvalid with _ _ _ hcommit
    exact not_lt.mp (not_or.mp hcommit).1
  obtain ⟨log, configs, bytes, rfl⟩ := pushAll_quiet hpushed
  exact ⟨rfl, hsnapshot, by simp [stored, new], by simp [stored, new], by simp [stored, new]⟩

theorem serves_restart : Serves node (node.call .restart) := by
  rw [call]
  split
  · rename_i restored hrestored
    obtain ⟨hpending, hsteady⟩ := steady_restore hrestored
    exact fun _ => ⟨.inl hpending, hsteady⟩
  · exact .of_stored rfl

/-! ## Whole runs -/

def Begins (node : RaftNode) : Prop :=
  (∃ id voters, node = .new id voters) ∨ ∃ saved, restore saved = .ok node

theorem Begins.steady (h : node.Begins) : node.stored.Steady := by
  rcases h with ⟨id, voters, rfl⟩ | ⟨saved, hrestored⟩
  · exact ⟨le_rfl, by simp [stored, new], by simp [stored, new], by simp [stored, new]⟩
  · exact (steady_restore hrestored).2

theorem serves_call {call : Call} (hcall : call ≠ .retained) : Serves node (node.call call) :=
  serves_parts.call fun hapart => by
    cases call with
    | retained => exact absurd rfl hcall
    | restart => exact serves_restart
    | compact upTo state => exact serves_compact upTo state
    | promoteCaughtUp target =>
      exact serves_ground.promoteCaughtUp fun _ => serves_beginMembershipChange _
    | beginMembershipChange voters => exact serves_beginMembershipChange voters
    | onInstallSnapshot request => exact serves_onInstallSnapshot request
    | _ => cases hapart

theorem steady_calls (h : node.stored.Steady) (calls : List Call) :
    (node.calls calls).stored.Steady := by
  induction calls generalizing node with
  | nil => exact h
  | cons call calls ih =>
    refine ih ?_
    by_cases hcall : call = .retained
    · subst hcall
      exact { h with }
    · exact (serves_call hcall h).2

theorem serves_calls {calls : List Call} (hcalls : .retained ∉ calls) :
    Serves node (node.calls calls) := by
  induction calls generalizing node with
  | nil => exact .of_stored rfl
  | cons call calls ih =>
    obtain ⟨hcall, hrest⟩ := List.ne_and_not_mem_of_not_mem_cons hcalls
    exact (serves_call hcall.symm).trans (ih hrest)

/-- **Nothing unsaved is hidden.** A call or a message that changes what the node retains leaves its
retention pending until it is retained. -/
theorem nothing_unsaved_hidden (h : node.Begins) (before : List Call) :
    (∀ call, ((node.calls before).call call).saved ≠ (node.calls before).saved →
      ((node.calls before).call call).retentionPending = true) ∧
    ∀ after, .retained ∉ after →
      ((node.calls before).calls after).saved ≠ (node.calls before).saved ∨
        (node.calls before).retentionPending = true →
      ((node.calls before).calls after).retentionPending = true := by
  have hsteady := steady_calls h.steady before
  constructor
  · intro call hchanged
    by_cases hcall : call = .retained
    · subst hcall
      exact absurd rfl hchanged
    · rcases (serves_call hcall hsteady).1 with hpending | ⟨hsaved, -⟩
      · exact hpending
      · exact absurd hsaved hchanged
  · intro after hafter hchanged
    rcases (serves_calls hafter hsteady).1 with hpending | ⟨hsaved, hpending⟩
    · exact hpending
    · rcases hchanged with hchanged | hbefore
      · exact absurd hsaved hchanged
      · exact hpending.trans hbefore

theorem nothing_unsaved_hidden_election :
    ((new 1 [1, 2, 3]).calls [.retained]).retentionPending = false ∧
      (((new 1 [1, 2, 3]).calls [.retained]).call .startElection).retentionPending = true :=
  ⟨by decide +kernel,
    (nothing_unsaved_hidden (.inl ⟨1, [1, 2, 3], rfl⟩) [.retained]).1 .startElection
      (by decide +kernel)⟩

end RaftNode

end Slates.Raft
