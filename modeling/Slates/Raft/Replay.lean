import Slates.Raft.Fold
import Slates.Raft.Soundness

/-!
A group's state is the fold of its committed log, however it was compacted: by each replica, by
another's snapshot, or over a return.
-/

namespace Slates.Raft

open Register (HostId HostMap)
open Snapshotted (encode decode)

/-! ## What is committed -/

def RaftNode.CommittedAs (history : Nat → List UInt8) (node : RaftNode) : Prop :=
  node.committedEntries.map LogEntry.command =
    (List.range' (node.snapshotIndex + 1) node.committedEntries.length).map history

instance (history : Nat → List UInt8) (node : RaftNode) : Decidable (node.CommittedAs history) :=
  inferInstanceAs (Decidable (_ = _))

def SavedRaft.CommittedAs (history : Nat → List UInt8) (saved : SavedRaft) : Prop :=
  ∀ index entry, saved.snapshotIndex < index → index ≤ saved.commitIndex →
    saved.log[index - saved.snapshotIndex - 1]? = some entry → entry.command = history index

def Group.Agrees {S : Type} (history : Nat → List UInt8) (group : Group S) : Prop :=
  ∀ replica ∈ group.replicas.values, replica.raft.CommittedAs history

instance {S : Type} (history : Nat → List UInt8) (group : Group S) :
    Decidable (group.Agrees history) :=
  inferInstanceAs (Decidable (∀ replica ∈ group.replicas.values, replica.raft.CommittedAs history))

theorem Group.Agrees.committedAs {S : Type} {history : Nat → List UInt8} {group : Group S}
    (h : group.Agrees history) {host : HostId} {replica : Replica S}
    (hreplica : group.replicas[host]? = some replica) : replica.raft.CommittedAs history :=
  h replica ((mem_values_iff _).mpr ⟨host, hreplica⟩)

namespace RaftNode

variable {node node' : RaftNode} {history : Nat → List UInt8}

theorem committedEntries_getElem? (node : RaftNode) (place : Nat) :
    node.committedEntries[place]? =
      if node.snapshotIndex + place + 1 ≤ node.committedThrough then
        node.entryAt (node.snapshotIndex + place + 1) else none := by
  have hentry : node.entryAt (node.snapshotIndex + place + 1) = node.log[place]? := by
    rw [entryAt, position, if_neg (by omega), Option.bind_some]
    congr 1
    omega
  rw [committedEntries, List.getElem?_take, hentry]
  exact if_congr (by omega) rfl rfl

theorem committedAs_iff : node.CommittedAs history ↔
    ∀ index entry, node.snapshotIndex < index → index ≤ node.committedThrough →
      node.entryAt index = some entry → entry.command = history index := by
  constructor
  · intro h index entry habove hcommitted hentry
    have hplace := node.committedEntries_getElem? (index - node.snapshotIndex - 1)
    rw [show node.snapshotIndex + (index - node.snapshotIndex - 1) + 1 = index by omega,
      if_pos hcommitted, hentry] at hplace
    have hmapped := congrArg (·[index - node.snapshotIndex - 1]?) h
    rw [List.getElem?_map, List.getElem?_map, hplace, List.getElem?_range'] at hmapped
    · rw [Option.map_some, Option.map_some] at hmapped
      rw [Option.some.inj hmapped]
      congr 1
      omega
    · exact (List.getElem?_eq_some_iff.mp hplace).1
  · intro h
    refine List.ext_getElem? fun place => ?_
    rw [List.getElem?_map, List.getElem?_map]
    cases hplace : node.committedEntries[place]? with
    | none =>
      rw [List.getElem?_eq_none (by simpa using List.getElem?_eq_none_iff.mp hplace)]
      rfl
    | some entry =>
      rw [List.getElem?_range' (List.getElem?_eq_some_iff.mp hplace).1]
      rw [committedEntries_getElem?] at hplace
      split_ifs at hplace with hcommitted
      rw [Option.map_some, Option.map_some, h _ entry (by omega) hcommitted hplace]
      congr 2
      omega

theorem CommittedAs.of_entries (h : node.CommittedAs history)
    (hsame : ∀ index entry, node'.snapshotIndex < index → index ≤ node'.committedThrough →
      node'.entryAt index = some entry → node.snapshotIndex < index ∧
        index ≤ node.committedThrough ∧ node.entryAt index = some entry) :
    node'.CommittedAs history := by
  rw [committedAs_iff] at *
  intro index entry habove hcommitted hentry
  obtain ⟨habove', hcommitted', hentry'⟩ := hsame index entry habove hcommitted hentry
  exact h index entry habove' hcommitted' hentry'

theorem snapshotIndex_lt_of_entryAt {index : Nat} {entry : LogEntry}
    (h : node.entryAt index = some entry) : node.snapshotIndex < index := by
  rw [entryAt, position] at h
  split_ifs at h with hle
  · simp at h
  · omega

theorem recognizeLeader_committed (node : RaftNode) (term : Nat) :
    (node.recognizeLeader term).committedThrough ≤ node.committedThrough ∧
      (node.recognizeLeader term).entryAt = node.entryAt := by
  have h : (node.observeTerm term).committedThrough ≤ node.committedThrough ∧
      (node.observeTerm term).entryAt = node.entryAt := by
    rw [observeTerm]
    split_ifs
    · refine ⟨?_, rfl⟩
      rw [committedThrough, committedThrough]
      exact max_le_max le_rfl (Nat.zero_le _)
    · exact ⟨le_rfl, rfl⟩
  exact h

theorem CommittedAs.recognizeLeader (h : node.CommittedAs history) (term : Nat) :
    (node.recognizeLeader term).CommittedAs history := by
  obtain ⟨hle, hentries⟩ := node.recognizeLeader_committed term
  refine h.of_entries fun index entry _ hcommitted hentry => ?_
  rw [hentries] at hentry
  exact ⟨snapshotIndex_lt_of_entryAt hentry, hcommitted.trans hle, hentry⟩

theorem CommittedAs.adoptSnapshot (h : node.CommittedAs history) {request : InstallSnapshot}
    (hnewer : node.snapshotIndex < request.lastIncludedIndex) :
    (node.adoptSnapshot request).CommittedAs history := by
  refine h.of_entries fun index entry habove hcommitted hentry => ?_
  rw [RaftNode.adoptSnapshot] at habove hcommitted hentry
  split_ifs at * with hown
  · change request.lastIncludedIndex < index at habove
    change index ≤
      max (max node.commitIndex request.lastIncludedIndex) node.fastThrough at hcommitted
    rcases entryTerm_eq_some hown with ⟨heq, -⟩ | ⟨-, held, hheld, -⟩
    · omega
    have hlength := (List.getElem?_eq_some_iff.mp hheld).1
    refine ⟨by omega, by rw [committedThrough]; omega, ?_⟩
    rw [RaftNode.entryAt, position, pruneCommitted] at hentry
    dsimp only at hentry
    rw [if_neg (by omega), Option.bind_some, List.getElem?_drop] at hentry
    rw [RaftNode.entryAt, position, if_neg (by omega), Option.bind_some, ← hentry]
    congr 1
    omega
  · -- nothing is left of another log
    rw [RaftNode.entryAt, position, pruneCommitted] at hentry
    dsimp only at hentry
    split_ifs at hentry
    · simp at hentry
    · simp at hentry

theorem adoptSnapshot_boundary (node : RaftNode) (request : InstallSnapshot) :
    (node.adoptSnapshot request).boundary = (request.lastIncludedIndex, request.state) := by
  rw [adoptSnapshot]
  split_ifs <;> rfl

theorem onInstallSnapshot_spec (h : node.CommittedAs history) (request : InstallSnapshot) :
    (node.onInstallSnapshot request).1.CommittedAs history ∧
      ((node.onInstallSnapshot request).1.boundary = node.boundary ∨
        node.snapshotIndex < request.lastIncludedIndex ∧
          (node.onInstallSnapshot request).1.boundary =
            (request.lastIncludedIndex, request.state)) := by
  rw [onInstallSnapshot]
  cases admitSnapshot request with
  | error _ => exact ⟨h, .inl rfl⟩
  | ok _ =>
    have hheard : (node.recognizeLeader request.term).snapshotIndex = node.snapshotIndex :=
      (node.recognizeLeader_log request.term).2.1
    dsimp only
    split_ifs with hold hnewer
    · exact ⟨h, .inl rfl⟩
    · exact ⟨(h.recognizeLeader request.term).adoptSnapshot hnewer,
        .inr ⟨hheard ▸ hnewer, adoptSnapshot_boundary _ request⟩⟩
    · exact ⟨h.recognizeLeader request.term, .inl (logs_boundary.recognizeLeader request.term)⟩

theorem compact_spec (upTo : Nat) (state : List UInt8) :
    ((node.compact upTo state).2 = true → (node.compact upTo state).1.boundary = (upTo, state)) ∧
      ((node.compact upTo state).2 = false → (node.compact upTo state).1 = node) := by
  rw [compact]
  split_ifs
  · exact ⟨by simp, fun _ => rfl⟩
  · split
    · exact ⟨by simp, fun _ => rfl⟩
    · exact ⟨fun _ => rfl, by simp⟩

theorem pushAll_log {entries : List LogEntry} (h : pushAll node entries = .ok node') :
    node'.log = node.log ++ entries := by
  induction entries generalizing node with
  | nil =>
    obtain rfl := Except.ok.inj h
    rw [List.append_nil]
  | cons entry entries ih =>
    rw [pushAll, pushEntry_eq] at h
    split_ifs at h
    · rw [ih h, pushed, List.append_assoc]
      rfl

theorem restore_part {saved : SavedRaft} (h : restore saved = .ok node) :
    node.log = saved.log ∧ node.commitIndex = saved.commitIndex ∧ node.fastThrough = 0 ∧
      node.boundary = (saved.snapshotIndex, saved.snapshotData) := by
  obtain ⟨-, pushed, hpushed, rfl⟩ := restore_eq h
  have hlog := pushAll_log hpushed
  obtain ⟨log, configs, bytes, rfl⟩ := pushAll_quiet hpushed
  exact ⟨hlog, rfl, rfl, rfl⟩

end RaftNode

/-! ## The fold of a history -/

section Replay

variable {S : Type} (apply : S → List UInt8 → S) (formed : S) (history : Nat → List UInt8)

/-- The commands through an index, applied in order to the formed state. -/
def foldTo (index : Nat) : S := ((List.range' 1 index).map history).foldl apply formed

theorem foldTo_add (index more : Nat) :
    foldTo apply formed history (index + more) =
      ((List.range' (index + 1) more).map history).foldl apply
        (foldTo apply formed history index) := by
  rw [foldTo, foldTo, ← List.foldl_append, ← List.map_append, Nat.add_comm index 1,
    List.range'_append_1]

/-- The base is the fold at the boundary, the state the fold as far as applied. -/
structure Replica.Replays [Snapshotted S] (replica : Replica S) : Prop where
  base : replica.fold.base = foldTo apply formed history replica.raft.snapshotIndex
  state : replica.fold.state =
    foldTo apply formed history (replica.raft.snapshotIndex + replica.fold.applied)
  snapshot : 0 < replica.raft.snapshotIndex →
    ∀ {state}, decode replica.raft.snapshotData = some state → state = replica.fold.base

variable {apply formed history}

theorem Fold.foldl_applyEntry (entries : List LogEntry) (fold : Fold S) :
    entries.foldl (applyEntry apply) fold = { fold with
      state := (entries.map LogEntry.command).foldl apply fold.state
      applied := fold.applied + entries.length } := by
  induction entries generalizing fold with
  | nil => rfl
  | cons entry entries ih =>
    rw [List.foldl_cons, ih, applyEntry, List.length_cons]
    dsimp only
    rw [List.map_cons, List.foldl_cons, Nat.add_assoc, Nat.add_comm 1]

namespace Replica.Replays

variable [Snapshotted S] {replica : Replica S}

section

variable (h : Replays apply formed history replica)

include h

theorem of_boundary {raft : RaftNode} (hboundary : raft.boundary = replica.raft.boundary) :
    Replays apply formed history { replica with raft := raft } := by
  obtain ⟨hindex, hdata⟩ := Prod.mk.inj hboundary
  exact ⟨hindex ▸ h.base, hindex ▸ h.state, hindex ▸ hdata ▸ h.snapshot⟩

theorem compactIfDue :
    Replays apply formed history ⟨(replica.fold.compactIfDue replica.raft).2,
      (replica.fold.compactIfDue replica.raft).1⟩ := by
  rw [Fold.compactIfDue]
  dsimp only
  split_ifs
  · exact h
  · exact h
  · exact h
  obtain ⟨hmoved, hstays⟩ := @RaftNode.compact_spec replica.raft
    (replica.raft.snapshotIndex + replica.fold.applied) (encode replica.fold.state)
  generalize replica.raft.compact _ _ = result at *
  obtain ⟨raft, compacted⟩ := result
  cases compacted with
  | false =>
    obtain rfl := hstays rfl
    exact h
  | true =>
    obtain ⟨hindex, hdata⟩ := Prod.mk.inj (hmoved rfl)
    dsimp only at hindex hdata
    refine ⟨?_, ?_, fun _ {state} hdecoded => ?_⟩
    · dsimp only
      rw [hindex]
      exact h.state
    · dsimp only
      rw [hindex, Nat.add_zero]
      exact h.state
    · dsimp only at hdecoded
      rw [hdata] at hdecoded
      exact Snapshotted.decode_encode hdecoded

theorem advance (hcommitted : replica.raft.CommittedAs history) :
    Replays apply formed history (replica.advance apply) := by
  have hstart : (if replica.fold.applied = 0 ∧ replica.raft.committedEntries ≠ [] then
      { replica.fold with state := replica.fold.base } else replica.fold) = replica.fold := by
    split_ifs with hfirst
    · have hsame : replica.fold.base = replica.fold.state := by
        rw [h.base, h.state, hfirst.1, Nat.add_zero]
      rw [hsame]
    · rfl
  rw [Replica.advance, Fold.advance]
  dsimp only
  rw [hstart, Fold.foldl_applyEntry]
  suffices happlied : Replays apply formed history ⟨replica.raft, _⟩ from happlied.compactIfDue
  refine ⟨h.base, ?_, h.snapshot⟩
  dsimp only
  rw [← Nat.add_assoc, foldTo_add, ← h.state, List.map_drop, hcommitted, ← List.map_drop,
    List.drop_range', List.length_drop]
  congr 3
  omega

theorem install (hcommitted : replica.raft.CommittedAs history) {request : InstallSnapshot}
    (hoffered : ∀ {state}, decode request.state = some state →
      state = foldTo apply formed history request.lastIncludedIndex) :
    Replays apply formed history (replica.install apply request) := by
  rw [Replica.install, Fold.install]
  cases hdecoded : (decode request.state : Option S) with
  | none =>
    have hplain : (Call.declineSnapshot request).plain = true := rfl
    exact h.of_boundary (RaftNode.logs_boundary.call hplain)
  | some state =>
  obtain rfl := hoffered hdecoded
  dsimp only
  obtain ⟨hcommitted', hboundary⟩ := RaftNode.onInstallSnapshot_spec hcommitted request
  generalize (replica.raft.onInstallSnapshot request).1 = installed at *
  rcases hboundary with hsame | ⟨hnewer, hmoved⟩
  · obtain ⟨hindex, -⟩ := Prod.mk.inj hsame
    rw [if_neg (by omega)]
    exact (h.of_boundary hsame).advance hcommitted'
  · obtain ⟨hindex, hdata⟩ := Prod.mk.inj hmoved
    rw [if_pos (by omega)]
    have hanew : Replays apply formed history ⟨installed, { replica.fold with
        base := foldTo apply formed history request.lastIncludedIndex
        state := foldTo apply formed history request.lastIncludedIndex
        applied := 0
        threshold := request.state.length }⟩ := by
      refine ⟨?_, ?_, fun _ {state} hstate => ?_⟩
      · exact congrArg (foldTo apply formed history) hindex.symm
      · exact congrArg (foldTo apply formed history) hindex.symm
      · exact hoffered ((congrArg decode hdata).symm.trans hstate)
    exact hanew.advance hcommitted'

end

theorem ofSaved [DecidableEq S] {saved : SavedRaft} {base : S}
    (hbase : base = foldTo apply formed history saved.snapshotIndex)
    (hcommitted : saved.CommittedAs history) (h : Replica.ofSaved apply saved base = .ok replica) :
    Replays apply formed history replica := by
  rw [Replica.ofSaved, Fold.forSaved] at h
  split_ifs at h with hother
  · cases h
  dsimp only [bind, Except.bind] at h
  cases hrestored : RaftNode.restore saved with
  | error _ =>
    rw [hrestored] at h
    cases h
  | ok raft =>
    rw [hrestored] at h
    obtain rfl := Except.ok.inj h
    obtain ⟨hlog, hcommit, hfast, hboundary⟩ := RaftNode.restore_part hrestored
    obtain ⟨hindex, hdata⟩ := Prod.mk.inj hboundary
    have hbegun : Replays apply formed history ⟨raft, Fold.new base⟩ := by
      refine ⟨?_, ?_, fun hpositive {state} hdecoded => ?_⟩
      · exact hbase.trans (congrArg (foldTo apply formed history) hindex.symm)
      · exact hbase.trans (congrArg (foldTo apply formed history) hindex.symm)
      · have hsaved : decode saved.snapshotData = some base := by
          by_contra hne
          exact hother ⟨hindex ▸ hpositive, hne⟩
        change decode raft.snapshotData = some state at hdecoded
        rw [hdata] at hdecoded
        exact Option.some.inj (hdecoded.symm.trans hsaved)
    refine hbegun.advance (RaftNode.committedAs_iff.mpr ?_)
    intro index entry habove hle hentry
    rw [RaftNode.entryAt, RaftNode.position, hlog] at hentry
    rw [RaftNode.committedThrough, hcommit, hfast, Nat.max_zero] at hle
    dsimp only at habove hentry
    rw [hindex] at habove hentry
    rw [if_neg (by omega), Option.bind_some] at hentry
    exact hcommitted index entry habove hle hentry

end Replica.Replays

/-! ## The group -/

variable [Snapshotted S]

/-- Every replica replays the history; so does what was sent and published. -/
structure Group.Replays (apply : S → List UInt8 → S) (formed : S) (history : Nat → List UInt8)
    (group : Group S) : Prop where
  replicas : ∀ {host : HostId} {replica : Replica S}, group.replicas[host]? = some replica →
    replica.Replays apply formed history
  offered : ∀ request ∈ group.offered, ∀ {state}, decode request.state = some state →
    state = foldTo apply formed history request.lastIncludedIndex
  published : ∀ pair ∈ group.published,
    pair.2 = foldTo apply formed history pair.1.snapshotIndex ∧ pair.1.CommittedAs history

theorem RaftNode.CommittedAs.saved {node : RaftNode} (h : node.CommittedAs history) :
    node.saved.CommittedAs history := by
  intro index entry habove hcommitted hentry
  rw [committedAs_iff] at h
  change node.snapshotIndex < index at habove
  refine h index entry habove (hcommitted.trans (le_max_left _ _)) ?_
  rw [entryAt, position, if_neg (by omega), Option.bind_some]
  exact hentry

namespace Group.Replays

variable {group : Group S}

theorem of_formed (hosts voters : List HostId) (base : S) :
    Replays apply base history (Group.formed hosts voters base) := by
  refine ⟨?_, by simp [Group.formed], by simp [Group.formed]⟩
  -- every replica in the table is one formed with the base
  suffices htable : ∀ table : HostMap (Replica S),
      (∀ {host : HostId} {replica : Replica S}, table[host]? = some replica →
        replica.Replays apply base history) →
      ∀ {host : HostId} {replica : Replica S},
        (hosts.foldl
          (fun table host => table.insert host (.formed host voters base)) table)[host]? =
          some replica → replica.Replays apply base history from
    fun {_ _} hreplica => htable ∅ (fun hnone => by simp at hnone) hreplica
  induction hosts with
  | nil => exact fun _ h => h
  | cons first hosts ih =>
    intro table h
    refine ih _ fun {host replica} hreplica => ?_
    rw [getElem?_insert_if] at hreplica
    split_ifs at hreplica
    · obtain rfl := Option.some.inj hreplica
      exact ⟨rfl, rfl, fun hpositive => absurd hpositive (lt_irrefl 0)⟩
    · exact h hreplica

theorem insert (h : Replays apply formed history group) (host : HostId) {replica : Replica S}
    (hreplica : replica.Replays apply formed history) :
    Replays apply formed history { group with replicas := group.replicas.insert host replica } := by
  refine ⟨fun {at' found} hfound => ?_, h.offered, h.published⟩
  rw [getElem?_insert_if] at hfound
  split_ifs at hfound
  · obtain rfl := Option.some.inj hfound
    exact hreplica
  · exact h.replicas hfound

theorem update (h : Replays apply formed history group) (host : HostId)
    {change : Replica S → Replica S}
    (hchange : ∀ replica, group.replicas[host]? = some replica →
      (change replica).Replays apply formed history) :
    Replays apply formed history (group.update host change) := by
  rw [Group.update]
  split
  · exact h
  · rename_i replica hreplica
    exact h.insert host (hchange replica hreplica)

/-- What one turn preserves, while the committed prefixes agree. -/
theorem step [DecidableEq S] (h : Replays apply formed history group)
    (hagrees : group.Agrees history) (turn : Turn S) :
    Replays apply formed history (group.step apply turn) := by
  cases turn with
  | call host call =>
    rw [Group.step]
    split_ifs with hplain
    · exact h.update host fun replica hreplica =>
        (h.replicas hreplica).of_boundary (RaftNode.logs_boundary.call hplain)
    · exact h
  | advance host =>
    exact h.update host fun replica hreplica =>
      (h.replicas hreplica).advance (hagrees.committedAs hreplica)
  | offer host follower =>
    rw [Group.step]
    split
    · exact h
    rename_i request hrequest
    obtain ⟨replica, hreplica, hoffer⟩ := Option.bind_eq_some_iff.mp hrequest
    have hreplays := h.replicas hreplica
    rw [RaftNode.installSnapshotFor] at hoffer
    split_ifs at hoffer with hnone
    simp only [not_or] at hnone
    obtain rfl := Option.some.inj hoffer
    refine ⟨h.replicas, List.forall_mem_cons.mpr ⟨fun hdecoded => ?_, h.offered⟩, h.published⟩
    exact (hreplays.snapshot (Nat.pos_of_ne_zero hnone.2.1) hdecoded).trans hreplays.base
  | install host request =>
    rw [Group.step]
    split_ifs with hoffered
    · exact h.update host fun replica hreplica =>
        (h.replicas hreplica).install (hagrees.committedAs hreplica) (h.offered request hoffered)
    · exact h
  | publish host =>
    rw [Group.step]
    split
    · exact h
    rename_i replica hreplica
    exact ⟨h.replicas, h.offered, List.forall_mem_cons.mpr
      ⟨⟨(h.replicas hreplica).base, (hagrees.committedAs hreplica).saved⟩, h.published⟩⟩
  | restoreFrom host saved base =>
    rw [Group.step]
    split_ifs with hpublished
    · refine h.update host fun replica hreplica => ?_
      obtain ⟨hbase, hcommitted⟩ := h.published (saved, base) hpublished
      split_ifs
      · exact h.replicas hreplica
      · split
        · rename_i restored hrestored
          exact .ofSaved hbase hcommitted hrestored
        · exact h.replicas hreplica
    · exact h
  | joinFrom host saved base =>
    rw [Group.step]
    split_ifs with hpublished
    · obtain ⟨hbase, hcommitted⟩ := h.published (saved, base) hpublished.1
      split
      · rename_i joined hjoined
        refine h.insert host (Replica.Replays.ofSaved ?_ ?_ hjoined)
        · exact hbase
        · exact hcommitted
      · exact h
    · exact h

end Group.Replays

def Group.run [DecidableEq S] (apply : S → List UInt8 → S) (group : Group S)
    (turns : List (Turn S)) :
    Group S :=
  turns.foldl (Group.step apply) group

theorem Group.Replays.run [DecidableEq S] {group : Group S} (h : group.Replays apply formed history)
    {turns : List (Turn S)}
    (hagrees : ∀ k ≤ turns.length, (group.run apply (turns.take k)).Agrees history) :
    (group.run apply turns).Replays apply formed history := by
  induction turns generalizing group with
  | nil => exact h
  | cons turn turns ih =>
    refine ih (h.step (hagrees 0 (Nat.zero_le _)) turn) fun k hk => ?_
    exact hagrees (k + 1) (Nat.succ_le_succ hk)

/-- **A group's state is the fold of its committed log.** In every run along which the replicas'
committed prefixes agree, each replica's state is the fold of the commands through its boundary and
what it applied, its base the fold at its boundary, and two replicas that applied through the same
index hold the same state. -/
theorem state_is_fold [DecidableEq S] (apply : S → List UInt8 → S) (hosts voters : List HostId)
    (base : S) (history : Nat → List UInt8) (turns : List (Turn S))
    (hagrees : ∀ k ≤ turns.length,
      ((Group.formed hosts voters base).run apply (turns.take k)).Agrees history) :
    (∀ (host : HostId) (replica : Replica S),
      ((Group.formed hosts voters base).run apply turns).replicas[host]? = some replica →
      replica.fold.state =
          foldTo apply base history (replica.raft.snapshotIndex + replica.fold.applied) ∧
        replica.fold.base = foldTo apply base history replica.raft.snapshotIndex) ∧
    ∀ (host host' : HostId) (replica replica' : Replica S),
      ((Group.formed hosts voters base).run apply turns).replicas[host]? = some replica →
      ((Group.formed hosts voters base).run apply turns).replicas[host']? = some replica' →
      replica.raft.snapshotIndex + replica.fold.applied =
        replica'.raft.snapshotIndex + replica'.fold.applied →
      replica.fold.state = replica'.fold.state := by
  have hreplays := (Group.Replays.of_formed hosts voters base).run hagrees
  refine ⟨fun host replica hreplica => ?_,
    fun host host' replica replica' hreplica hreplica' hsame => ?_⟩
  · exact ⟨(hreplays.replicas hreplica).state, (hreplays.replicas hreplica).base⟩
  · rw [(hreplays.replicas hreplica).state, (hreplays.replicas hreplica').state, hsame]

end Replay

/-- A state of bytes is its own snapshot. -/
instance : Snapshotted (List UInt8) := ⟨id, some, fun h => (Option.some.inj h).symm⟩

/-- A sole voter folds a command into a snapshot, which another member installs. -/
def compactedTurns : List (Turn (List UInt8)) :=
  [.call 1 .startElection, .call 1 (.appendCommand [7]), .advance 1, .offer 1 2,
    .install 2 ⟨1, 1, 1, 1, ⟨[1], none⟩, [7]⟩]

theorem state_is_fold_compacted :
    (∀ (host : HostId) (replica : Replica (List UInt8)),
      ((Group.formed [1, 2] [1] []).run (· ++ ·) compactedTurns).replicas[host]? = some replica →
      replica.fold.state = [7]) ∧
      ((Group.formed [1, 2] [1] []).run (· ++ ·) compactedTurns).replicas.size = 2 := by
  have hfold := state_is_fold (· ++ ·) [1, 2] [1] [] (fun index => if index = 1 then [7] else [])
    compactedTurns (by decide +kernel)
  refine ⟨fun host replica hreplica => ?_, by decide +kernel⟩
  have happlied : ∀ replica ∈
      ((Group.formed [1, 2] [1] []).run (· ++ ·) compactedTurns).replicas.values,
      replica.raft.snapshotIndex + replica.fold.applied = 1 := by
    decide +kernel
  rw [(hfold.1 host replica hreplica).1, happlied replica ((mem_values_iff _).mpr ⟨host, hreplica⟩)]
  rfl

end Slates.Raft
