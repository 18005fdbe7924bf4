import Slates.Raft.Upkeep

/-!
A cluster goes through a run of the abstract consensus, as long as no append's reply speaks for an
older leader's entries and no window holds a configuration.
-/

namespace Slates.Raft

open Register (HostId HostMap)
open Consensus.State (Moves Sound Grows)

variable {base : VoterConfig} {a a' : Account}

def Message.append? : Message → Option AppendEntries
  | .append request => some request
  | _ => none

/-- An append delivered is as `ok` says, and puts no configuration into a window. -/
def Cluster.Careful (ok : RaftNode → AppendEntries → Prop) (cluster : Cluster) : Action → Prop
  | .deliver host place => ∀ m ∈ cluster.members[host]?,
      ∀ request ∈ cluster.network[place]?.bind Message.append?,
        ok m.node request ∧ m.node.KeepsPlain request
  | _ => True

instance (ok : RaftNode → AppendEntries → Prop) [∀ node request, Decidable (ok node request)]
    (cluster : Cluster) (action : Action) : Decidable (cluster.Careful ok action) := by
  cases action with
  | deliver host place =>
    exact inferInstanceAs (Decidable (∀ m ∈ cluster.members[host]?,
      ∀ request ∈ cluster.network[place]?.bind Message.append?,
        ok m.node request ∧ m.node.KeepsPlain request))
  | _ => exact .isTrue trivial

theorem Cluster.Careful.mono {ok ok' : RaftNode → AppendEntries → Prop}
    (hok : ∀ {node : RaftNode} {request : AppendEntries}, ok node request → ok' node request)
    {cluster : Cluster} {action : Action} (h : cluster.Careful ok action) :
    cluster.Careful ok' action := by
  cases action with
  | deliver host place => exact fun m hm request hrequest => (h m hm request hrequest).imp_left hok
  | _ => exact h

section Handlers

variable {m : Member}

/-- Every message is received beside the run. -/
theorem Member.Mirrors.receive (h : m.Mirrors base a) (hs : Sound (scheme base) a)
    {message : Message} (hsent : message.Sent base a)
    (hcareful : ∀ request, message = .append request →
      m.node.Reached request ∧ m.node.KeepsPlain request) :
    Handles base a m (m.receive message) := by
  cases message with
  | requestVote request => exact h.receive_requestVote hsent
  | voteReply receiver reply => exact h.receive_voteReply hs hsent
  | preVote request => exact (Follows.of_mirrors h rfl).goes.sends (by simp [Message.Sent])
  | preVoteReply receiver reply => exact h.receive_preVoteReply hs receiver reply
  | append request =>
    exact h.receive_append hs hsent (hcareful request rfl).1 (hcareful request rfl).2
  | appendReply receiver reply held => exact h.receive_appendReply hsent
  | snapshot request folded => exact h.receive_snapshot hs hsent
  | snapshotReply receiver reply held => exact h.receive_snapshotReply hsent
  | timeoutNow receiver invitation => exact h.receive_timeoutNow hs receiver invitation
  | fastPropose proposal =>
    obtain ⟨a', hg⟩ := reaches_work.onFastPropose proposal a h
    refine hg.sends fun sent hmem => ?_
    obtain ⟨vote, -, rfl⟩ := Option.map_eq_some_iff.mp hmem
    trivial
  | fastVote vote =>
    obtain ⟨a', hg⟩ := reaches_work.onFastVote vote a h
    exact hg.quietly

/-- Every careful action is beside the run. -/
theorem Action.handles (h : m.Mirrors base a) (hs : Sound (scheme base) a) {cluster : Cluster}
    (hsent : ∀ message ∈ cluster.network, message.Sent base a) {action : Action}
    (hmember : cluster.members[action.host]? = some m)
    (hcareful : cluster.Careful RaftNode.Reached action) :
    Handles base a m (action.effect cluster.network m) := by
  have hgoes : ∀ {node : RaftNode}, (∃ a', Goes base a m ⟨node, m.folded⟩ a') →
      Handles base a m (m.quietly node) := fun ⟨_, hg⟩ => hg.quietly
  have hreaches {node : RaftNode} (hr : Reaches base m.folded m.node node) := hgoes (hr a h)
  have hvisible {node : RaftNode} (hsame : node.visible = m.node.visible) :=
    hreaches (reaches_work.of_visible hsame)
  cases action with
  | electionTimeout host =>
    obtain ⟨a', hg⟩ := h.onElectionTimeout hs
    refine hg.sends fun sent hmem => ?_
    obtain ⟨request, -, rfl⟩ := Option.map_eq_some_iff.mp hmem
    trivial
  | startElection host => exact Member.Mirrors.asks m.node.startElection (h.startElection hs)
  | forgetLeader host => exact hvisible m.node.visible_forgetLeader
  | observeTerm host term =>
    obtain ⟨a', hf⟩ := h.observeTerm term
    exact hf.goes.quietly
  | suspend host =>
    exact hreaches (reaches_work.trans (reaches_work.resign m.node.votes) (.of_core rfl))
  | restart host => exact h.restart
  | appendCommand host command => exact hreaches (reaches_work.appendCommand command)
  | replicateTo host follower budget => exact h.replicateTo follower budget
  | installSnapshotFor host follower => exact h.installSnapshotFor follower
  | compact host upTo state => exact h.compact upTo state
  | checkQuorum host => exact hreaches reaches_work.checkQuorum
  | catchUp host target => exact hreaches (reaches_work.catchUp target)
  | promoteCaughtUp host target =>
    exact hreaches (reaches_work.promoteCaughtUp fun _ a hm => hm.beginMembershipChange _)
  | beginMembershipChange host voters => exact hgoes (h.beginMembershipChange voters)
  | completeMembershipChange host => exact hgoes h.completeMembershipChange
  | transferLeadership host target => exact hvisible (m.node.visible_transferLeadership target)
  | takeTimeoutNow host =>
    obtain ⟨a', hg⟩ := reaches_work.of_visible m.node.visible_takeTimeoutNow a h
    refine hg.sends fun sent hmem => ?_
    obtain ⟨invitation, -, rfl⟩ := Option.map_eq_some_iff.mp hmem
    trivial
  | setPriority host priority => exact hreaches (.of_core rfl)
  | priorityTransfer host alive => exact hvisible (m.node.visible_priorityTransfer alive)
  | beginRead host => exact hreaches (.of_core (congrArg Prod.snd m.node.held_beginRead))
  | readIndex host context => exact hreaches (reaches_work.readIndex context)
  | cancelRead host context => exact hreaches (reaches_work.cancelRead context)
  | setLogBudget host bytes => exact hreaches (.of_core rfl)
  | setWindowBudget host bytes => exact hreaches (.of_core rfl)
  | openFastTrack host => exact hreaches reaches_openFastTrack
  | proposeFast host command =>
    obtain ⟨a', hg⟩ := reaches_work.of_visible (m.node.visible_proposeFast command) a h
    refine hg.sends fun sent hmem => ?_
    obtain ⟨proposal, -, rfl⟩ := Option.map_eq_some_iff.mp hmem
    trivial
  | fillHole host index =>
    refine (Follows.of_mirrors h rfl).goes.sends fun sent hmem => ?_
    obtain ⟨proposal, -, rfl⟩ := Option.map_eq_some_iff.mp hmem
    trivial
  | deliver host place =>
    rw [effect]
    cases hplace : cluster.network[place]? with
    | none => exact .of_mirrors h rfl
    | some message =>
      refine h.receive hs (hsent message (List.mem_of_getElem? hplace)) fun request hrequest => ?_
      exact hcareful m hmember request (by rw [hplace, hrequest]; rfl)
  | declineSnapshot host place =>
    rw [effect]
    cases cluster.network[place]? with
    | none => exact .of_mirrors h rfl
    | some message => exact h.decline_snapshot message

end Handlers

namespace Cluster

variable {cluster : Cluster}

theorem Mirrors.goes (h : cluster.Mirrors base a) {action : Action}
    (hcareful : cluster.Careful RaftNode.Reached action) :
    ∃ a', Moves (scheme base) action.host a a' ∧ (cluster.step action).Mirrors base a' := by
  rw [Cluster.step]
  cases hmember : cluster.members[action.host]? with
  | none => exact ⟨a, .refl _ a, h⟩
  | some m =>
    obtain ⟨hid, hm⟩ := h.member hmember
    obtain ⟨a', hmoves, hid', hafter, hsent⟩ := Action.handles hm h.sound h.sent hmember hcareful
    refine ⟨a', hid ▸ hmoves, hmoves.sound h.sound, ?_, ?_⟩
    · intro host m' hm'
      dsimp only at hm'
      rw [getElem?_insert_if] at hm'
      split_ifs at hm' with heq
      · obtain rfl := Option.some.inj hm'
        exact ⟨(hid'.trans hid).trans heq, hafter⟩
      · obtain ⟨hother, hmirrors⟩ := h.member hm'
        refine ⟨hother, hmirrors.moves hmoves fun hsame => heq ?_⟩
        exact hid.symm.trans (hsame.symm.trans hother)
    · intro message hmem
      rcases List.mem_append.mp hmem with hold | hnew
      · exact (h.sent message hold).moves hmoves
      · exact hsent message hnew

theorem Mirrors.step (h : cluster.Mirrors base a) {action : Action}
    (hcareful : cluster.Careful RaftNode.Reached action) :
    ∃ a', Grows a a' ∧ (cluster.step action).Mirrors base a' := by
  obtain ⟨a', hmoves, hmirrors⟩ := h.goes hcareful
  exact ⟨a', hmoves.grows, hmirrors⟩

/-- What a whole run preserves. -/
theorem Mirrors.run (h : cluster.Mirrors base a) {actions : List Action}
    (hcareful : Runs.Meets Cluster.step (Careful RaftNode.Reached) cluster actions) :
    ∃ a', Grows a a' ∧ (cluster.run actions).Mirrors base a' := by
  have hrun := hcareful.invariant (P := fun c : Cluster => ∃ a', Grows a a' ∧ c.Mirrors base a')
    (fun c action hc hmeets => ?_) ⟨a, .refl a, h⟩
  · exact hrun
  · obtain ⟨a₁, hg₁, hm₁⟩ := hc
    obtain ⟨a₂, hg₂, hm₂⟩ := hm₁.step hmeets
    exact ⟨a₂, hg₁.trans hg₂, hm₂⟩

theorem Mirrors.moments (h : cluster.Mirrors base a) {actions : List Action}
    (hcareful : Runs.Meets Cluster.step (Careful RaftNode.Reached) cluster actions) {n k : Nat}
    (hnk : n ≤ k) :
    ∃ a₁ a₂, Grows a₁ a₂ ∧ (cluster.run (actions.take n)).Mirrors base a₁ ∧
      (cluster.run (actions.take k)).Mirrors base a₂ := by
  obtain ⟨a₁, -, hm₁⟩ := h.run (hcareful.take n)
  obtain ⟨more, hsplit, hmore⟩ := hcareful.between hnk
  obtain ⟨a₂, hg, hm₂⟩ := hm₁.run hmore
  refine ⟨a₁, a₂, hg, hm₁, ?_⟩
  rw [hsplit, Cluster.run, List.foldl_append]
  exact hm₂

theorem formed_member {hosts voters : List HostId} {host : HostId} {m : Member}
    (h : (formed hosts voters).members[host]? = some m) : m = ⟨.new host voters, []⟩ := by
  have hnew : ∀ {members : HostMap Member},
      (hosts.foldl (fun members host => members.insert host ⟨.new host voters, []⟩)
        members)[host]? = some m →
      members[host]? = some m ∨ m = ⟨.new host voters, []⟩ := by
    clear h
    induction hosts with
    | nil => exact .inl
    | cons first hosts ih =>
      intro members hfound
      rcases ih hfound with hfound | hnew
      · rw [getElem?_insert_if] at hfound
        split_ifs at hfound with heq
        · exact .inr (heq ▸ (Option.some.inj hfound).symm)
        · exact .inl hfound
      · exact .inr hnew
  rcases hnew h with hnone | hnew
  · exact absurd hnone (by simp)
  · exact hnew

theorem formed_mirrors (hosts voters : List HostId) :
    (formed hosts voters).Mirrors ⟨voters, none⟩ Consensus.State.initial := by
  refine ⟨.initial, ?_, by simp [formed]⟩
  intro host m hm
  obtain rfl := formed_member hm
  refine ⟨rfl, ?_⟩
  exact
    { kept := ⟨rfl, rfl, rfl, .inl rfl, Nat.zero_le _, le_rfl, le_rfl⟩
      plain := ⟨by simp [RaftNode.new], by simp [RaftNode.new]⟩
      term := rfl
      vote := rfl
      log := rfl
      commit := .inl rfl
      leads := nofun
      matched := nofun
      stood := nofun
      votes := nofun
      slots := by simp [RaftNode.new] }

end Cluster

end Slates.Raft
