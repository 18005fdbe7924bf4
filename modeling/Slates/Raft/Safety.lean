import Slates.Raft.Durable

/-!
Election safety over whole runs, with crashes that lose what was not retained: one leader a term. It
fails once a leader records a match that an older leader's entries answered for, once a recovery
takes a configuration out of a window, and once a crash loses the term of an election won; a run
without these has one leader in each term (`one_leader_each_term`).
-/

namespace Slates.Raft

open Register (HostId)
open Consensus.State (Moves Sound Grows Won)

variable {base : VoterConfig} {a a' : Account} {host other : HostId} {t : Nat}

/-- The node has the votes to lead the term. -/
def HasWon (base : VoterConfig) (a : Account) (host : HostId) (t : Nat) : Prop :=
  ∃ entries Q, Won (scheme base) a t host entries Q

theorem HasWon.grows (h : HasWon base a host t) (hg : Grows a a') : HasWon base a' host t :=
  let ⟨entries, Q, hw⟩ := h
  ⟨entries, Q, hw.grows hg⟩

theorem HasWon.unique (h : HasWon base a host t) (h' : HasWon base a other t)
    (hs : Sound (scheme base) a) : host = other :=
  let ⟨_, _, hw⟩ := h
  let ⟨_, _, hw'⟩ := h'
  hw.unique hw' hs

theorem Cluster.Mirrors.hasWon {cluster : Cluster} (h : cluster.Mirrors base a)
    (hleads : cluster.Leads host t) : HasWon base a host t := by
  obtain ⟨m, hm, hrole, rfl⟩ := hleads
  obtain ⟨rfl, hmirrors⟩ := h.member hm
  obtain ⟨r, hr, hnode, -⟩ := hmirrors.leads hrole
  exact ⟨r.start, r.voters, hnode ▸ h.sound.won hr⟩

namespace Durable

variable {d : Durable} {pend : HostId → List Action} {event : Event} {events : List Event}

/-- The node has the votes to lead the term, or comes to them in what it has pending. -/
structure Tracks (base : VoterConfig) (a : Account) (d : Durable) (pend : HostId → List Action)
    (host : HostId) (t : Nat) : Prop where
  mirrors : d.retained.Mirrors base a
  based : d.Based pend
  won : HasWon base a host t ∨ d.Led pend host t

/-- A term that was retained was stood in before, so what is lost was won before. -/
theorem Lost.hasWon (h : d.Lost host t) (hm : d.retained.Mirrors base a) :
    HasWon base a host t := by
  obtain ⟨actions, m, hown, hcareful, hleads, hmember, hle⟩ := h
  obtain ⟨a', hmoves, hm'⟩ := hm.run_own hown hcareful
  obtain ⟨entries, Q, hw⟩ := hm'.hasWon hleads
  obtain ⟨hid, hmirrors⟩ := hm.member hmember
  refine ⟨entries, Q, hmoves.won_before hw hm.sound ?_⟩
  rw [← hid, hmirrors.term]
  exact hle

theorem Tracks.step (h : Tracks base a d pend host t) (hcareful : d.Careful event)
    (hkeeps : d.KeepsTerms event) :
    ∃ a' pend', Tracks base a' (d.step event) pend' host t := by
  obtain ⟨more, pend', hmore, hretained, hbased, hled⟩ := h.based.step hcareful
  obtain ⟨a', hg, hm'⟩ := h.mirrors.run hmore
  rcases h.won with hwon | hpending
  · exact ⟨a', pend', hretained ▸ hm', hbased, .inl (hwon.grows hg)⟩
  rcases hled hpending hkeeps with hled | ⟨n, hleads⟩ | hlost
  · exact ⟨a', pend', hretained ▸ hm', hbased, .inr hled⟩
  · obtain ⟨a₁, a₂, hg, hm₁, hm₂⟩ := h.mirrors.moments hmore (Nat.le_max_left n more.length)
    rw [List.take_of_length_le (Nat.le_max_right n more.length), ← hretained] at hm₂
    exact ⟨a₂, pend', hm₂, hbased, .inl ((hm₁.hasWon hleads).grows hg)⟩
  · exact ⟨a', pend', hretained ▸ hm', hbased, .inl ((hlost.hasWon h.mirrors).grows hg)⟩

theorem Based.led (h : d.Based pend) (hleads : d.live.Leads host t) : d.Led pend host t := by
  obtain ⟨m, hm, hrole, hterm⟩ := hleads
  rw [live, Std.ExtTreeMap.getElem?_map] at hm
  obtain ⟨server, hserver, rfl⟩ := Option.map_eq_some_iff.mp hm
  refine ⟨by rw [hserver]; rfl, (pend host).length, server.live, ?_, hrole, hterm⟩
  rw [List.take_length]
  exact (h host server hserver).live

/-- What both have pending may be retained one after the other. -/
theorem Tracks.sole (h : Tracks base a d pend host t) (hleads : d.live.Leads other t) :
    host = other := by
  by_contra hne
  obtain ⟨hsome, n, hother⟩ := h.based.led hleads
  obtain ⟨server, hserver⟩ := Option.isSome_iff_exists.mp hsome
  have hpending := h.based other server hserver
  have hend : ∀ {C : Cluster} {a' : Account}, C.Mirrors base a' → HasWon base a' host t →
      C.members[other]? = d.retained.members[other]? → d.retained.network <+: C.network →
      False := by
    intro C a' hm hwon hmember hnetwork
    have hsame := hpending.leads_alike hmember hnetwork n
    have htransferred := hpending.transfer hmember hnetwork
    obtain ⟨a'', hg, hm'⟩ := hm.run (htransferred.careful.take n)
    exact hne ((hwon.grows hg).unique (hm'.hasWon (hother.congr hsame)) hm'.sound)
  rcases h.won with hwon | ⟨hsome', k, hled⟩
  · exact hend h.mirrors hwon rfl List.prefix_rfl
  · obtain ⟨first, hfirst⟩ := Option.isSome_iff_exists.mp hsome'
    have hp := h.based host first hfirst
    obtain ⟨a₁, a₂, hg, hm₁, hm₂⟩ := h.mirrors.moments hp.careful
      (Nat.le_max_left k (pend host).length)
    rw [List.take_of_length_le (Nat.le_max_right k (pend host).length)] at hm₂
    refine hend hm₂ ((hm₁.hasWon hled).grows hg) (Cluster.run_other ?_ hne) ?_
    · exact fun action hmem => (hp.own action hmem).1
    · rw [hp.sent]
      exact List.prefix_append _ _

/-- No two nodes, at any two moments of a run, lead one term. -/
def ElectsOne (d : Durable) (events : List Event) : Prop :=
  ∀ (n k : Nat) (host other : HostId) (term : Nat),
    (d.run (events.take n)).live.Leads host term →
    (d.run (events.take k)).live.Leads other term → host = other

/-- Careful, and no crash loses the term of an election won. Each part is needed: see
`stale_match_elects_two`, `window_config_elects_two` and `lost_term_elects_two`. -/
def Safe (d : Durable) (event : Event) : Prop := d.Careful event ∧ d.KeepsTerms event

instance (d : Durable) (event : Event) : Decidable (d.Safe event) :=
  inferInstanceAs (Decidable (_ ∧ _))

end Durable

open Durable (formed)

/-- **Election safety**, in every safe run. -/
theorem one_leader_each_term {hosts voters : List HostId} {events : List Event}
    (hsafe : Runs.Meets Durable.step Durable.Safe (formed hosts voters) events) :
    (formed hosts voters).ElectsOne events := by
  intro n k host other term hleads hleads'
  wlog hle : n ≤ k generalizing n k host other
  · exact (this k n other host hleads' hleads (le_of_not_ge hle)).symm
  have hcareful : Runs.Meets Durable.step Durable.Careful (formed hosts voters) events :=
    hsafe.mono fun _ _ h => h.1
  -- the first leader's win is tracked from its moment to the second's
  obtain ⟨more, pend, hmore, hretained, hbased⟩ :=
    (Durable.formed_based hosts voters).run (hcareful.take n)
  rw [Durable.retained_formed] at hmore hretained
  obtain ⟨a, -, hm⟩ := (Cluster.formed_mirrors hosts voters).run hmore
  rw [← hretained] at hm
  obtain ⟨rest, hsplit, hrest⟩ := hsafe.between hle
  have htracks := hrest.invariant
    (P := fun d => ∃ a pend, Durable.Tracks ⟨voters, none⟩ a d pend host term)
    (fun _ _ ⟨_, _, h⟩ hok => h.step hok.1 hok.2) ⟨a, pend, hm, hbased, .inr (hbased.led hleads)⟩
  obtain ⟨_, _, htracks⟩ := htracks
  rw [hsplit, Durable.run, List.foldl_append] at hleads'
  exact htracks.sole hleads'

/-- Every action followed by the retention of what it left. -/
def retaining (actions : List Action) : List Event :=
  actions.flatMap fun action => [.act action, .retain action.host]

/-- A leader elected by two of three commits a command, and a follower hears of it. -/
def oneCommand : List Action :=
  [.startElection 1, .deliver 2 0, .deliver 1 1, .appendCommand 1 [1], .replicateTo 1 2 100,
    .deliver 2 2, .deliver 1 3, .replicateTo 1 2 100, .deliver 2 4]

theorem one_leader_each_term_oneCommand :
    (formed [1, 2, 3] [1, 2, 3]).ElectsOne
        (retaining oneCommand ++ [.act (.appendCommand 1 [2]), .act (.restart 1)]) ∧
      ((formed [1, 2, 3] [1, 2, 3]).run (retaining oneCommand)).live.Leads 1 1 :=
  ⟨one_leader_each_term (by decide +kernel), by decide +kernel⟩

/-- Node 1 leads and keeps two entries to itself; node 2 then leads, and an empty append finds node
1 with them past its end. The reply is at place 7 of the network. -/
def staleTail : List Action :=
  [.startElection 1, .deliver 2 0, .deliver 1 1, .appendCommand 1 [1], .replicateTo 1 2 100,
    .deliver 2 2, .appendCommand 1 [2], .appendCommand 1 [3], .startElection 2, .deliver 3 4,
    .deliver 2 5, .replicateTo 2 1 100, .deliver 1 6]

/-- Node 2 takes the reply for a match of its joint configuration and completes the change alone;
nodes 1 and 3 elect another leader of the same term. -/
def staleChange : List Action :=
  staleTail ++ [.appendCommand 2 [12], .beginMembershipChange 2 [2], .deliver 2 7,
    .completeMembershipChange 2, .startElection 2, .startElection 1, .deliver 3 8, .deliver 1 9]

theorem stale_match_elects_two :
    ¬ (formed [1, 2, 3] [1, 2, 3]).ElectsOne (retaining staleChange) := by
  intro hone
  have hsame := hone 42 42 1 2 3 (by decide +kernel) (by decide +kernel)
  exact absurd hsame (by decide)

/-- Of voters 1 and 2, node 1 retains the joint configuration they committed, completes the change
to itself and wins term 2 alone, and retains neither. Back in the joint configuration it votes for
node 2 in term 2. -/
def lostTerm : List Event :=
  retaining [.startElection 1, .deliver 2 0, .deliver 1 1, .beginMembershipChange 1 [1],
    .replicateTo 1 2 100, .deliver 2 2, .deliver 1 3] ++
    [.act (.completeMembershipChange 1), .act (.startElection 1), .act (.restart 1)] ++
    retaining [.startElection 2, .deliver 1 4, .deliver 2 5]

/-- A careful run: what fails is `KeepsTerms`. -/
theorem lost_term_elects_two :
    Runs.Meets Durable.step Durable.Careful (formed [1, 2] [1, 2]) lostTerm ∧
      ¬ (formed [1, 2] [1, 2]).ElectsOne lostTerm := by
  refine ⟨by decide +kernel, fun hone => ?_⟩
  have hsame := hone 16 23 1 2 2 (by decide +kernel) (by decide +kernel)
  exact absurd hsame (by decide)

/-- Node 3 keeps in its window, past two commands it did not get, the joint configuration with
which leader 1 would leave only node 5. Node 2 then leads and completes a change to {2, 3, 4}.
Elected by node 3, node 4 recovers the joint configuration behind the later one: in term 4 nodes 4,
1 and 5 elect by it, and nodes 2 and 3 by the other. -/
def windowChange : List Action :=
  [.setWindowBudget 1 100, .setWindowBudget 3 100, .setWindowBudget 4 100, .startElection 1,
    .deliver 2 0, .deliver 3 0, .deliver 1 1, .deliver 1 2, .appendCommand 1 [1],
    .replicateTo 1 3 1, .deliver 3 3, .deliver 1 4, .appendCommand 1 [2], .replicateTo 1 3 1,
    .appendCommand 1 [3], .replicateTo 1 3 1, .beginMembershipChange 1 [5], .replicateTo 1 3 1,
    .deliver 3 7, .startElection 2, .deliver 4 9, .deliver 5 9, .deliver 2 10, .deliver 2 11,
    .beginMembershipChange 2 [2, 3, 4], .replicateTo 2 4 100, .replicateTo 2 5 100, .deliver 4 12,
    .deliver 5 13, .deliver 2 14, .deliver 2 15, .completeMembershipChange 2, .replicateTo 2 4 100,
    .deliver 4 16, .startElection 4, .deliver 3 18, .deliver 4 19, .startElection 4, .deliver 1 20,
    .deliver 5 20, .deliver 4 21, .deliver 4 22, .startElection 2, .startElection 2, .deliver 3 24,
    .deliver 2 25]

/-- The run has no crash, and every append it delivers is `Reached`: what fails is `KeepsPlain`. -/
theorem window_config_elects_two :
    ¬ (formed [1, 2, 3, 4, 5] [1, 2, 3, 4, 5]).ElectsOne (retaining windowChange) := by
  intro hone
  have hsame := hone 92 92 2 4 4 (by decide +kernel) (by decide +kernel)
  exact absurd hsame (by decide)

end Slates.Raft
