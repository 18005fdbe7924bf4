import Slates.Raft.Safety

/-!
What the logs of a cluster, as retained, say of one another at any two moments of a careful run,
whatever its crashes lost.
-/

namespace Slates.Raft

open Register (HostId)
open Consensus.State (Grows)

namespace Cluster

def heldBy (cluster : Cluster) (host : HostId) : Option (List LogEntry) :=
  cluster.members[host]?.map Member.whole

/-- The term a node leads and its log. -/
def leadsWith (cluster : Cluster) (host : HostId) : Option (Nat × List LogEntry) :=
  (cluster.members[host]?.filter (·.node.role = .leader)).map fun m => (m.node.currentTerm, m.whole)

/-- The term a node is in and what it knows to be committed. -/
def committedBy (cluster : Cluster) (host : HostId) : Option (Nat × List LogEntry) :=
  cluster.members[host]?.map fun m => (m.node.currentTerm, m.whole.take m.node.commitIndex)

section Mirrored

variable {base : VoterConfig} {a : Account} {cluster : Cluster} {host : HostId} {t : Nat}
  {held : List LogEntry} (h : cluster.Mirrors base a)

include h

theorem Mirrors.grounded (hheld : cluster.heldBy host = some held) :
    a.Grounded (scheme base) held := by
  obtain ⟨m, hm, rfl⟩ := Option.map_eq_some_iff.mp hheld
  rw [← (h.member hm).2.log]
  exact h.sound.rooted.log_grounded _

theorem Mirrors.reign (hleads : cluster.leadsWith host = some (t, held)) :
    ∃ r, a.lead t = some r ∧ r.log = held := by
  obtain ⟨m, hm, heq⟩ := Option.map_eq_some_iff.mp hleads
  obtain ⟨hm, hrole⟩ := Option.filter_eq_some_iff.mp hm
  cases heq
  obtain ⟨r, hr, -, hlog⟩ := (h.member hm).2.leads (of_decide_eq_true hrole)
  exact ⟨r, hr, hlog⟩

theorem Mirrors.fixed (hcommitted : cluster.committedBy host = some (t, held)) :
    a.Fixed t held := by
  obtain ⟨m, hm, heq⟩ := Option.map_eq_some_iff.mp hcommitted
  cases heq
  exact (h.member hm).2.commit

end Mirrored

end Cluster

open Durable (formed)

/-- A careful run of nodes formed with one voter configuration. -/
abbrev CarefulRun (hosts voters : List HostId) (events : List Event) : Prop :=
  Runs.Meets Durable.step Durable.Careful (formed hosts voters) events

/-- What is retained after the first `n` events. -/
abbrev retainedAt (hosts voters : List HostId) (events : List Event) (n : Nat) : Cluster :=
  ((formed hosts voters).run (events.take n)).retained

/-- After `oneCommand` node 2 is elected, by itself and node 3, and appends; node 1 appends what a
crash then loses. -/
def secondTerm : List Event :=
  retaining oneCommand ++ [.act (.appendCommand 1 [7])] ++
    retaining [.startElection 2, .deliver 3 6, .deliver 2 7] ++
    [.act (.restart 1), .act (.appendCommand 2 [2]), .retain 2]

abbrev secondTermAt (n : Nat) : Cluster := retainedAt [1, 2, 3] [1, 2, 3] secondTerm n

variable {hosts voters : List HostId} {events : List Event} {n k : Nat} {host other : HostId}
  {t u : Nat} {held held' : List LogEntry}

/-- **Log matching**: entries of one term at one index, the same log up to it. -/
theorem logs_match_up_to (hcareful : CarefulRun hosts voters events)
    (hheld : (retainedAt hosts voters events n).heldBy host = some held)
    (hheld' : (retainedAt hosts voters events k).heldBy other = some held') {index : Nat}
    {e e' : LogEntry} (he : held[index]? = some e) (he' : held'[index]? = some e')
    (hterm : e.term = e'.term) : held.take (index + 1) = held'.take (index + 1) := by
  wlog hle : n ≤ k generalizing n k host other held held' e e'
  · exact (this hheld' hheld he' he hterm.symm (le_of_not_ge hle)).symm
  obtain ⟨a₁, a₂, hg, hm₁, hm₂⟩ := Durable.moments hcareful hle
  exact ((hm₁.grounded hheld).grows hg).take_eq (hm₂.grounded hheld') he he' hterm

theorem logs_match_up_to_secondTerm :
    (secondTermAt 28).heldBy 1 = some [.ofCommand 1 [1]] ∧
      [LogEntry.ofCommand 1 [1]].take 1 = [.ofCommand 1 [1], .ofCommand 2 [2]].take 1 := by
  have hheld : (secondTermAt 28).heldBy 1 = some [.ofCommand 1 [1]] := by decide +kernel
  have hheld' : (secondTermAt 28).heldBy 2 = some [.ofCommand 1 [1], .ofCommand 2 [2]] := by
    decide +kernel
  exact ⟨hheld, logs_match_up_to (by decide +kernel) hheld hheld' rfl rfl rfl⟩

/-- **Leader append-only**: while a term is led no entry of the leader's log changes. -/
theorem leader_only_appends (hcareful : CarefulRun hosts voters events) (hle : n ≤ k)
    (hleads : (retainedAt hosts voters events n).leadsWith host = some (t, held))
    (hleads' : (retainedAt hosts voters events k).leadsWith other = some (t, held')) :
    held <+: held' := by
  obtain ⟨a₁, a₂, hg, hm₁, hm₂⟩ := Durable.moments hcareful hle
  obtain ⟨r, hr, rfl⟩ := hm₁.reign hleads
  obtain ⟨r', hr', rfl⟩ := hm₂.reign hleads'
  obtain ⟨q, hq, -, -, -, hpre⟩ := hg.lead hr
  cases hq.symm.trans hr'
  exact hpre

theorem leader_only_appends_secondTerm :
    (secondTermAt 28).leadsWith 2 = some (2, [.ofCommand 1 [1], .ofCommand 2 [2]]) ∧
      [LogEntry.ofCommand 1 [1]] <+: [.ofCommand 1 [1], .ofCommand 2 [2]] := by
  have hleads : (secondTermAt 27).leadsWith 2 = some (2, [.ofCommand 1 [1]]) := by decide +kernel
  have hleads' :
      (secondTermAt 28).leadsWith 2 = some (2, [.ofCommand 1 [1], .ofCommand 2 [2]]) := by
    decide +kernel
  exact ⟨hleads', leader_only_appends (by decide +kernel) (by decide) hleads hleads'⟩

/-- **Leader completeness**: a leader has what was committed before in terms up to its own. -/
theorem leader_has_committed (hcareful : CarefulRun hosts voters events) (hle : n ≤ k)
    (hcommitted : (retainedAt hosts voters events n).committedBy host = some (t, held))
    (hleads : (retainedAt hosts voters events k).leadsWith other = some (u, held'))
    (htu : t ≤ u) : held <+: held' := by
  obtain ⟨a₁, a₂, hg, hm₁, hm₂⟩ := Durable.moments hcareful hle
  obtain ⟨r, hr, rfl⟩ := hm₂.reign hleads
  exact hm₂.sound.fixed_lead ((hm₁.fixed hcommitted).grows hg) htu hr

theorem leader_has_committed_secondTerm :
    (secondTermAt 28).committedBy 1 = some (1, [.ofCommand 1 [1]]) ∧
      [LogEntry.ofCommand 1 [1]] <+: [.ofCommand 1 [1], .ofCommand 2 [2]] := by
  have hcommitted : (secondTermAt 28).committedBy 1 = some (1, [.ofCommand 1 [1]]) := by
    decide +kernel
  have hleads : (secondTermAt 28).leadsWith 2 = some (2, [.ofCommand 1 [1], .ofCommand 2 [2]]) := by
    decide +kernel
  exact ⟨hcommitted, leader_has_committed (by decide +kernel) le_rfl hcommitted hleads (by decide)⟩

end Slates.Raft
