import Slates.Raft.Refinement

/-!
A cluster whose nodes lose what they have not retained. The messages of a handler leave once the
state it left is retained ("the state to publish before acknowledging", `RaftNode::saved`); a crash
returns a node to what it retained last. What is retained goes through a run of the cluster that
loses nothing (`Based.step`).
-/

open Std (ExtTreeMap)

namespace Slates.Raft

open Register (HostId HostMap)
open Consensus.State (Moves Sound Grows)

/-- A node as it is and as last retained, with the messages it has to send and the terms it has led
since. -/
structure Server where
  live : Member
  retained : Member
  unsent : List Message
  led : List Nat

namespace Server

def fresh (member : Member) : Server := ⟨member, member, [], []⟩

def goes (server : Server) (effect : Effect) : Server where
  live := effect.1
  retained := server.retained
  unsent := server.unsent ++ effect.2
  led := if effect.1.node.role = .leader then effect.1.node.currentTerm :: server.led
    else server.led

/-- A restart is from what was retained last. -/
def act (server : Server) (network : List Message) : Action → Server
  | .restart _ => fresh server.retained.restart.1
  | action => server.goes (action.effect network server.live)

end Server

structure Durable where
  servers : HostMap Server
  network : List Message

inductive Event where
  | act (action : Action)
  | retain (host : HostId)

namespace Durable

def formed (hosts voters : List HostId) : Durable where
  servers := (Cluster.formed hosts voters).members.map fun _ member => .fresh member
  network := []

def step (d : Durable) : Event → Durable
  | .act action =>
    match d.servers[action.host]? with
    | none => d
    | some server =>
      { d with servers := d.servers.insert action.host (server.act d.network action) }
  | .retain host =>
    match d.servers[host]? with
    | none => d
    | some server => ⟨d.servers.insert host (.fresh server.live), d.network ++ server.unsent⟩

def run (d : Durable) (events : List Event) : Durable := events.foldl step d

/-- The nodes as they are. -/
def live (d : Durable) : Cluster := ⟨d.servers.map fun _ server => server.live, d.network⟩

/-- The nodes as last retained. -/
def retained (d : Durable) : Cluster := ⟨d.servers.map fun _ server => server.retained, d.network⟩

def Careful (d : Durable) : Event → Prop
  | .act action => d.live.Careful RaftNode.Reached action
  | .retain _ => True

/-- A node that crashes had retained the term of every election it won. -/
def KeepsTerms (d : Durable) : Event → Prop
  | .act (.restart host) => ∀ server ∈ d.servers[host]?,
      ∀ term ∈ server.led, term ≤ server.retained.node.currentTerm
  | _ => True

instance (d : Durable) (event : Event) : Decidable (d.Careful event) := by
  cases event with
  | act action => exact inferInstanceAs (Decidable (d.live.Careful _ action))
  | retain host => exact .isTrue trivial

instance (d : Durable) (event : Event) : Decidable (d.KeepsTerms event) := by
  unfold KeepsTerms
  split <;> infer_instance

end Durable

/-! ## One node's part of a run -/

/-- Where in the network an action looks. -/
def Action.place : Action → Option Nat
  | .deliver _ place | .declineSnapshot _ place => some place
  | _ => none

theorem Action.effect_congr {network network' : List Message} {action : Action}
    (h : ∀ p ∈ action.place, network'[p]? = network[p]?) (m : Member) :
    action.effect network' m = action.effect network m := by
  cases action with
  | deliver host p => rw [effect, effect, h p rfl]
  | declineSnapshot host p => rw [effect, effect, h p rfl]
  | _ => rfl

theorem getElem?_prefix_lt {xs ys : List Message} (h : xs <+: ys) {p : Nat}
    (hp : p < xs.length) :
    ys[p]? = xs[p]? := by
  obtain ⟨zs, rfl⟩ := h
  exact List.getElem?_append_left hp

attribute [ext] Cluster

namespace Cluster

variable {P : RaftNode → AppendEntries → Prop} {C C' : Cluster} {host other : HostId} {t : Nat}
  {action : Action} {actions : List Action}

def Leads (cluster : Cluster) (host : HostId) (term : Nat) : Prop :=
  ∃ m ∈ cluster.members[host]?, m.node.role = .leader ∧ m.node.currentTerm = term

instance (cluster : Cluster) (host : HostId) (term : Nat) : Decidable (cluster.Leads host term) :=
  inferInstanceAs (Decidable (∃ m ∈ cluster.members[host]?, _))

theorem Leads.congr (h : C.Leads host t) (hmember : C'.members[host]? = C.members[host]?) :
    C'.Leads host t := by
  rw [Leads, hmember]
  exact h

theorem Careful.congr (h : C.Careful P action)
    (hmember : C'.members[action.host]? = C.members[action.host]?)
    (hplace : ∀ p ∈ action.place, C'.network[p]? = C.network[p]?) : C'.Careful P action := by
  cases action with
  | deliver host p =>
    intro m hm request hrequest
    rw [hplace p rfl] at hrequest
    exact h m (hmember ▸ hm) request hrequest
  | _ => exact h

/-- Actions of one host, at the first `n` places of the network. -/
def OwnedBy (host : HostId) (n : Nat) (actions : List Action) : Prop :=
  ∀ action ∈ actions, action.host = host ∧ ∀ p ∈ action.place, p < n

theorem step_alike {network : List Message} (hhost : action.host = host)
    (hplace : ∀ p ∈ action.place, p < network.length) (hC : network <+: C.network)
    (hC' : network <+: C'.network) (hmember : C'.members[host]? = C.members[host]?) :
    ∃ sent, (C.step action).network = C.network ++ sent ∧
      (C'.step action).network = C'.network ++ sent ∧
      (C'.step action).members[host]? = (C.step action).members[host]? ∧
      (C.Careful P action → C'.Careful P action) := by
  subst hhost
  have hsame : ∀ p ∈ action.place, C'.network[p]? = C.network[p]? := fun p hp =>
    (getElem?_prefix_lt hC' (hplace p hp)).trans (getElem?_prefix_lt hC (hplace p hp)).symm
  have hcareful : C.Careful P action → C'.Careful P action := fun h => h.congr hmember hsame
  rw [step, step, hmember]
  cases hm : C.members[action.host]? with
  | none => exact ⟨[], by simp, by simp, by rw [hmember, hm], hcareful⟩
  | some m =>
    dsimp only
    rw [Action.effect_congr hsame m]
    exact ⟨_, rfl, rfl, by rw [getElem?_insert_if, getElem?_insert_if, if_pos rfl, if_pos rfl],
      hcareful⟩

/-- One host's actions do the same where the host is the same and the network holds as much. -/
theorem run_alike {network : List Message} (hown : OwnedBy host network.length actions)
    (hC : network <+: C.network) (hC' : network <+: C'.network)
    (hmember : C'.members[host]? = C.members[host]?) :
    ∃ sent, (C.run actions).network = C.network ++ sent ∧
      (C'.run actions).network = C'.network ++ sent ∧
      (C'.run actions).members[host]? = (C.run actions).members[host]? ∧
      (Runs.Meets step (Careful P) C actions → Runs.Meets step (Careful P) C' actions) := by
  induction actions generalizing C C' with
  | nil => exact ⟨[], by simp [run], by simp [run], hmember, id⟩
  | cons action actions ih =>
    obtain ⟨hhost, hplace⟩ := hown action List.mem_cons_self
    obtain ⟨sent, h₁, h₁', hm₁, hc₁⟩ := step_alike (P := P) hhost hplace hC hC' hmember
    obtain ⟨more, h₂, h₂', hm₂, hc₂⟩ := ih (fun a ha => hown a (List.mem_cons_of_mem _ ha))
      (h₁ ▸ hC.trans (List.prefix_append _ _)) (h₁' ▸ hC'.trans (List.prefix_append _ _)) hm₁
    refine ⟨sent ++ more, ?_, ?_, hm₂, fun h => ⟨hc₁ h.1, hc₂ h.2⟩⟩
    · rw [← List.append_assoc, ← h₁]
      exact h₂
    · rw [← List.append_assoc, ← h₁']
      exact h₂'

theorem step_other (hne : action.host ≠ other) :
    (C.step action).members[other]? = C.members[other]? := by
  rw [step]
  split
  · rfl
  · dsimp only
    rw [getElem?_insert_if, if_neg hne]

theorem run_other (hhost : ∀ action ∈ actions, action.host = host) (hne : host ≠ other) :
    (C.run actions).members[other]? = C.members[other]? := by
  induction actions generalizing C with
  | nil => rfl
  | cons action actions ih =>
    refine (ih fun a ha => hhost a (List.mem_cons_of_mem _ ha)).trans (step_other ?_)
    rw [hhost action List.mem_cons_self]
    exact hne

/-- One host's actions are moves of that host. -/
theorem Mirrors.run_own {base : VoterConfig} {a : Account} (h : C.Mirrors base a)
    (hhost : ∀ action ∈ actions, action.host = host)
    (hcareful : Runs.Meets Cluster.step (Careful RaftNode.Reached) C actions) :
    ∃ a', Moves (scheme base) host a a' ∧ (C.run actions).Mirrors base a' := by
  induction actions generalizing C a with
  | nil => exact ⟨a, .refl _ a, h⟩
  | cons action actions ih =>
    obtain ⟨a₁, hm₁, h₁⟩ := h.goes hcareful.1
    obtain ⟨a₂, hm₂, h₂⟩ := ih h₁ (fun b hb => hhost b (List.mem_cons_of_mem _ hb)) hcareful.2
    rw [hhost action List.mem_cons_self] at hm₁
    exact ⟨a₂, hm₁.trans hm₂, h₂⟩

/-- The actions of a server since it last retained, over the cluster of what is retained. -/
structure Pending (C : Cluster) (host : HostId) (server : Server) (pend : List Action) : Prop where
  own : OwnedBy host C.network.length pend
  careful : Runs.Meets step (Careful RaftNode.Reached) C pend
  live : (C.run pend).members[host]? = some server.live
  sent : (C.run pend).network = C.network ++ server.unsent
  led : ∀ {n t}, (C.run (pend.take n)).Leads host t → C.Leads host t ∨ t ∈ server.led

theorem Pending.fresh {m : Member} (h : C.members[host]? = some m) :
    Pending C host (.fresh m) [] where
  own := nofun
  careful := trivial
  live := h
  sent := (List.append_nil _).symm
  led hleads := .inl (by rwa [List.take_nil] at hleads)

theorem OwnedBy.take {n : Nat} (h : OwnedBy host n actions) (k : Nat) :
    OwnedBy host n (actions.take k) :=
  fun action hmem => h action (List.mem_of_mem_take hmem)

theorem Pending.leads_alike {server : Server} {pend : List Action}
    (h : Pending C host server pend) (hmember : C'.members[host]? = C.members[host]?)
    (hnetwork : C.network <+: C'.network) (n : Nat) :
    (C'.run (pend.take n)).members[host]? = (C.run (pend.take n)).members[host]? := by
  obtain ⟨-, -, -, hsame, -⟩ := run_alike (P := fun _ _ => True) (h.own.take n) List.prefix_rfl
    hnetwork hmember
  exact hsame

/-- What the other nodes do leaves it as it is. -/
theorem Pending.transfer {server : Server} {pend : List Action} (h : Pending C host server pend)
    (hmember : C'.members[host]? = C.members[host]?) (hnetwork : C.network <+: C'.network) :
    Pending C' host server pend := by
  obtain ⟨sent, hsent, hsent', hlive, hcareful⟩ := run_alike h.own List.prefix_rfl hnetwork hmember
  refine ⟨fun a ha => ?_, hcareful h.careful, hlive.trans h.live, ?_, fun {n t} hleads => ?_⟩
  · exact (h.own a ha).imp_right fun hp p hmem => (hp p hmem).trans_le hnetwork.length_le
  · rw [hsent', List.append_cancel_left (hsent.symm.trans h.sent)]
  · have hsame := h.leads_alike hmember hnetwork n
    exact (h.led (hleads.congr hsame.symm)).imp_left fun hled => hled.congr hmember

end Cluster

namespace Durable

open Cluster (OwnedBy Pending)

variable {base : VoterConfig} {a : Account} {d : Durable} {pend : HostId → List Action}
  {host other : HostId} {t : Nat} {server : Server} {event : Event} {events : List Event}

theorem retained_member (h : d.servers[host]? = some server) :
    d.retained.members[host]? = some server.retained := by
  rw [retained, ExtTreeMap.getElem?_map, h]
  rfl

theorem live_member (h : d.servers[host]? = some server) :
    d.live.members[host]? = some server.live := by
  rw [live, ExtTreeMap.getElem?_map, h]
  rfl

theorem retained_insert (servers : HostMap Server) (network : List Message) (host : HostId)
    (server : Server) :
    retained ⟨servers.insert host server, network⟩ =
      ⟨(servers.map fun _ server => server.retained).insert host server.retained, network⟩ := by
  rw [retained, Cluster.mk.injEq]
  refine ⟨ExtTreeMap.ext_getElem? fun k => ?_, rfl⟩
  rw [ExtTreeMap.getElem?_map, getElem?_insert_if, getElem?_insert_if, ExtTreeMap.getElem?_map]
  split_ifs <;> rfl

/-- Every server is its retained node with the actions it has pending. -/
def Based (d : Durable) (pend : HostId → List Action) : Prop :=
  ∀ host server, d.servers[host]? = some server → Pending d.retained host server (pend host)

/-- The node led a term since it last retained. -/
def Led (d : Durable) (pend : HostId → List Action) (host : HostId) (t : Nat) : Prop :=
  (d.servers[host]?).isSome ∧ ∃ n, (d.retained.run ((pend host).take n)).Leads host t

/-- The node led a term it had retained, in actions that are lost. -/
def Lost (d : Durable) (host : HostId) (t : Nat) : Prop :=
  ∃ actions m, (∀ action ∈ actions, action.host = host) ∧
    Runs.Meets Cluster.step (Cluster.Careful RaftNode.Reached) d.retained actions ∧
    (d.retained.run actions).Leads host t ∧ d.retained.members[host]? = some m ∧
    t ≤ m.node.currentTerm

/-- What one event does to what is retained, and to the terms led. -/
def Advances (d : Durable) (pend : HostId → List Action) (event : Event) : Prop :=
  ∃ more pend', Runs.Meets Cluster.step (Cluster.Careful RaftNode.Reached) d.retained more ∧
    (d.step event).retained = d.retained.run more ∧ (d.step event).Based pend' ∧
    ∀ {host : HostId} {t : Nat}, d.Led pend host t → d.KeepsTerms event →
      (d.step event).Led pend' host t ∨ (∃ n, (d.retained.run (more.take n)).Leads host t) ∨
        d.Lost host t

theorem Based.idle (h : d.Based pend) (hstep : d.step event = d) : d.Advances pend event := by
  refine ⟨[], pend, trivial, ?_, ?_, fun hled _ => .inl ?_⟩ <;> rw [hstep]
  · rfl
  · exact h
  · exact hled

/-- A server that stands at what it retained has nothing pending; the others are as they were. -/
theorem Based.settled (h : d.Based pend) {d' : Durable} {m : Member}
    (hservers : d'.servers = d.servers.insert host (.fresh m))
    (hself : d'.retained.members[host]? = some m)
    (hothers : ∀ {g}, host ≠ g → d'.retained.members[g]? = d.retained.members[g]?)
    (hnetwork : d.retained.network <+: d'.retained.network) :
    d'.Based (Function.update pend host []) ∧ ∀ {g : HostId} {t : Nat}, host ≠ g →
      d.Led pend g t → d'.Led (Function.update pend host []) g t := by
  have hserver : ∀ {g}, host ≠ g → d'.servers[g]? = d.servers[g]? := fun hne => by
    rw [hservers, getElem?_insert_if, if_neg hne]
  constructor
  · intro g server hg
    by_cases hne : host = g
    · subst hne
      rw [hservers, getElem?_insert_if, if_pos rfl] at hg
      cases hg
      rw [Function.update_self]
      exact .fresh hself
    · rw [Function.update_of_ne (Ne.symm hne)]
      exact (h g server (hserver hne ▸ hg)).transfer (hothers hne) hnetwork
  · rintro g t hne ⟨hsome, n, hleads⟩
    obtain ⟨server, hg⟩ := Option.isSome_iff_exists.mp hsome
    refine ⟨by rw [hserver hne]; exact hsome, n, ?_⟩
    rw [Function.update_of_ne (Ne.symm hne)]
    exact hleads.congr ((h g server hg).leads_alike (hothers hne) hnetwork n)

theorem Based.retain (h : d.Based pend) (hserver : d.servers[host]? = some server) :
    d.Advances pend (.retain host) := by
  have hp := h host server hserver
  have hhost : ∀ action ∈ pend host, action.host = host := fun action hmem => (hp.own action hmem).1
  have hstep : d.step (.retain host) =
      ⟨d.servers.insert host (.fresh server.live), d.network ++ server.unsent⟩ := by
    rw [step, hserver]
  have hretained : (d.step (.retain host)).retained = d.retained.run (pend host) := by
    rw [hstep, retained_insert]
    refine Cluster.ext (ExtTreeMap.ext_getElem? fun g => ?_) hp.sent.symm
    rw [getElem?_insert_if]
    split_ifs with hne
    · rw [← hne, hp.live]
      rfl
    · exact (Cluster.run_other (C := d.retained) hhost hne).symm
  obtain ⟨hbased, hled⟩ := h.settled (congrArg servers hstep) (hretained ▸ hp.live)
    (fun hne => hretained ▸ Cluster.run_other hhost hne)
    (hretained ▸ hp.sent ▸ List.prefix_append _ _)
  refine ⟨pend host, _, hp.careful, hretained, hbased, fun {g t} hg _ => ?_⟩
  by_cases hne : host = g
  · exact .inr (.inl (hne ▸ hg.2))
  · exact .inl (hled hne hg)

theorem restart_sent (m : Member) : m.restart.2 = [] := by
  rw [Member.restart]
  split <;> rfl

theorem Based.crash (h : d.Based pend) (hserver : d.servers[host]? = some server) :
    d.Advances pend (.act (.restart host)) := by
  have hp := h host server hserver
  have hmember := retained_member hserver
  have hstep : d.step (.act (.restart host)) =
      { d with servers := d.servers.insert host (.fresh server.retained.restart.1) } := by
    rw [step, show (Action.restart host).host = host from rfl, hserver]
    rfl
  have hafter : d.retained.step (.restart host) =
      ⟨d.retained.members.insert host server.retained.restart.1, d.network⟩ := by
    rw [Cluster.step, show (Action.restart host).host = host from rfl, hmember]
    refine Cluster.ext rfl ?_
    dsimp only [Action.effect]
    rw [restart_sent, List.append_nil]
    rfl
  have hretained : (d.step (.act (.restart host))).retained = d.retained.run [.restart host] := by
    refine Eq.trans ?_ hafter.symm
    rw [hstep, retained_insert]
    rfl
  obtain ⟨hbased, hled⟩ := h.settled (congrArg servers hstep) (by
      rw [hretained, Cluster.run, List.foldl_cons, List.foldl_nil, hafter, getElem?_insert_if,
        if_pos rfl])
    (fun hne => hretained ▸ Cluster.step_other hne) (by
      rw [hretained, Cluster.run, List.foldl_cons, List.foldl_nil, hafter]
      exact List.prefix_rfl)
  refine ⟨[.restart host], _, ⟨trivial, trivial⟩, hretained, hbased, fun {g t} hg hkeeps => ?_⟩
  by_cases hne : host = g
  · subst hne
    obtain ⟨-, n, hleads⟩ := hg
    refine .inr (.inr ⟨(pend host).take n, server.retained, fun action hmem => ?_,
      hp.careful.take n, hleads, hmember, ?_⟩)
    · exact (hp.own action (List.mem_of_mem_take hmem)).1
    · rcases hp.led hleads with ⟨m, hm, -, rfl⟩ | hmem
      · rw [hmember] at hm
        exact (congrArg (·.node.currentTerm) (Option.some.inj hm)).ge
      · exact hkeeps server hserver t hmem
  · exact .inl (hled hne hg)

/-- An action is pending once it has found its message; one that finds none does nothing. -/
theorem Based.pending (hp : Pending d.retained host server (pend host)) {action : Action}
    (hhost : action.host = host) (hserver : d.servers[host]? = some server)
    (hcareful : d.live.Careful RaftNode.Reached action) :
    ∃ x, Pending d.retained host (server.goes (action.effect d.network server.live))
      (pend host ++ x) := by
  subst hhost
  have hgrows : ∀ {effect : Effect} {t}, t ∈ server.led → t ∈ (server.goes effect).led := by
    intro effect t hmem
    rw [Server.goes]
    dsimp only
    split_ifs
    · exact List.mem_cons_of_mem _ hmem
    · exact hmem
  by_cases hplace : ∀ p ∈ action.place, p < d.network.length
  · set C := d.retained.run (pend action.host) with hC
    have hprefix : d.network <+: C.network := by
      rw [hC, hp.sent]
      exact List.prefix_append _ _
    have hsame : ∀ p ∈ action.place, C.network[p]? = d.network[p]? :=
      fun p hmem => getElem?_prefix_lt hprefix (hplace p hmem)
    have hlast : d.retained.run (pend action.host ++ [action]) = C.step action := by
      rw [Cluster.run, List.foldl_append]
      rfl
    have hafter : C.step action =
        ⟨C.members.insert action.host (action.effect d.network server.live).1,
          d.network ++ server.unsent ++ (action.effect d.network server.live).2⟩ := by
      rw [Cluster.step, hp.live]
      dsimp only
      rw [Action.effect_congr hsame, hp.sent]
      rfl
    have hmember : (C.step action).members[action.host]? =
        some (action.effect d.network server.live).1 := by
      rw [hafter, getElem?_insert_if, if_pos rfl]
    refine ⟨[action], fun b hb => ?_, ?_, ?_, ?_, fun {n t} hleads => ?_⟩
    · rcases List.mem_append.mp hb with hb | hb
      · exact hp.own b hb
      · obtain rfl := List.mem_singleton.mp hb
        exact ⟨rfl, hplace⟩
    · refine Runs.meets_append.mpr ⟨hp.careful, hcareful.congr ?_ hsame, trivial⟩
      exact hp.live.trans (live_member hserver).symm
    · rw [hlast]
      exact hmember
    · rw [hlast, hafter]
      exact List.append_assoc _ _ _
    · rcases le_or_gt n (pend action.host).length with hle | hgt
      · rw [List.take_append_of_le_length hle] at hleads
        exact (hp.led hleads).imp_right hgrows
      · rw [List.take_of_length_le (by simpa using hgt), hlast] at hleads
        obtain ⟨m, hm, hrole, rfl⟩ := hleads
        rw [hmember] at hm
        obtain rfl := Option.some.inj hm
        refine .inr ?_
        rw [Server.goes]
        dsimp only
        rw [if_pos hrole]
        exact List.mem_cons_self
  · have hidle : action.effect d.network server.live = (server.live, []) := by
      push Not at hplace
      obtain ⟨p, hmem, hge⟩ := hplace
      have hnone : d.network[p]? = none := List.getElem?_eq_none hge
      cases action with
      | deliver host q =>
        cases hmem
        rw [Action.effect, hnone]
        rfl
      | declineSnapshot host q =>
        cases hmem
        rw [Action.effect, hnone]
        rfl
      | _ => cases hmem
    refine ⟨[], ?_⟩
    rw [List.append_nil, hidle]
    exact ⟨hp.own, hp.careful, hp.live, by rw [Server.goes, List.append_nil]; exact hp.sent,
      fun hleads => (hp.led hleads).imp_right hgrows⟩

theorem Based.act (h : d.Based pend) {action : Action}
    (hserver : d.servers[action.host]? = some server)
    (hcareful : d.live.Careful RaftNode.Reached action)
    (hact : server.act d.network action =
      server.goes (action.effect d.network server.live)) :
    d.Advances pend (.act action) := by
  obtain ⟨x, hx⟩ := Based.pending (h _ _ hserver) rfl hserver hcareful
  have hstep : d.step (.act action) = ⟨d.servers.insert action.host
      (server.goes (action.effect d.network server.live)), d.network⟩ := by
    rw [step, hserver]
    dsimp only
    rw [hact]
  have hretained : (d.step (.act action)).retained = d.retained := by
    rw [hstep, retained_insert]
    refine Cluster.ext (ExtTreeMap.ext_getElem? fun g => ?_) rfl
    rw [getElem?_insert_if]
    split_ifs with hne
    · exact hne ▸ (retained_member hserver).symm
    · rfl
  have hfound : ∀ {g}, action.host ≠ g → (d.step (.act action)).servers[g]? = d.servers[g]? :=
    fun hne => by rw [hstep, getElem?_insert_if, if_neg hne]
  have hself : (d.step (.act action)).servers[action.host]? =
      some (server.goes (action.effect d.network server.live)) := by
    rw [hstep, getElem?_insert_if, if_pos rfl]
  refine ⟨[], Function.update pend action.host (pend action.host ++ x), trivial, hretained, ?_,
    fun {g t} hg _ => .inl ?_⟩
  · intro g server' hg
    rw [hretained]
    by_cases hne : action.host = g
    · subst hne
      rw [hself] at hg
      cases hg
      rw [Function.update_self]
      exact hx
    · rw [Function.update_of_ne (Ne.symm hne)]
      exact h g server' (hfound hne ▸ hg)
  · rw [Led, hretained]
    by_cases hne : action.host = g
    · subst hne
      obtain ⟨-, n, hleads⟩ := hg
      refine ⟨by rw [hself]; rfl, min n (pend action.host).length, ?_⟩
      rw [Function.update_self, List.take_append_of_le_length (min_le_right _ _), ← List.take_take,
        List.take_length]
      exact hleads
    · rw [Function.update_of_ne (Ne.symm hne), hfound hne]
      exact hg

/-- **One event**: what is retained takes a careful run further. -/
theorem Based.step (h : d.Based pend) (hcareful : d.Careful event) : d.Advances pend event := by
  cases event with
  | retain host =>
    cases hserver : d.servers[host]? with
    | none => exact h.idle (by rw [Durable.step, hserver])
    | some server => exact h.retain hserver
  | act action =>
    cases hserver : d.servers[action.host]? with
    | none => exact h.idle (by rw [Durable.step, hserver])
    | some server =>
      cases action with
      | restart host => exact h.crash hserver
      | _ => exact h.act hserver hcareful rfl

/-- **Whole runs**: what is retained at one moment goes to what is retained at a later one. -/
theorem Based.run (h : d.Based pend) (hcareful : Runs.Meets Durable.step Careful d events) :
    ∃ more pend', Runs.Meets Cluster.step (Cluster.Careful RaftNode.Reached) d.retained more ∧
      (d.run events).retained = d.retained.run more ∧ (d.run events).Based pend' := by
  induction events generalizing d pend with
  | nil => exact ⟨[], pend, trivial, rfl, h⟩
  | cons event events ih =>
    obtain ⟨more, pend₁, hmore, hretained, hbased, -⟩ := h.step hcareful.1
    obtain ⟨rest, pend₂, hrest, hretained', hbased'⟩ := ih hbased hcareful.2
    rw [hretained] at hrest hretained'
    refine ⟨more ++ rest, pend₂, Runs.meets_append.mpr ⟨hmore, hrest⟩, ?_, hbased'⟩
    rw [Cluster.run, List.foldl_append]
    exact hretained'

theorem retained_formed (hosts voters : List HostId) :
    (formed hosts voters).retained = Cluster.formed hosts voters := by
  refine Cluster.ext (ExtTreeMap.ext_getElem? fun k => ?_) rfl
  rw [retained, formed, ExtTreeMap.getElem?_map, ExtTreeMap.getElem?_map, Option.map_map]
  cases (Cluster.formed hosts voters).members[k]? <;> rfl

theorem formed_based (hosts voters : List HostId) : (formed hosts voters).Based fun _ => [] := by
  intro host server hserver
  rw [formed, ExtTreeMap.getElem?_map] at hserver
  obtain ⟨m, hm, rfl⟩ := Option.map_eq_some_iff.mp hserver
  rw [retained_formed]
  exact .fresh hm

/-- What is retained at two moments goes beside one run of the abstract consensus. -/
theorem moments {hosts voters : List HostId}
    (hcareful : Runs.Meets step Careful (formed hosts voters) events) {n k : Nat} (hnk : n ≤ k) :
    ∃ a₁ a₂, Grows a₁ a₂ ∧
      ((formed hosts voters).run (events.take n)).retained.Mirrors ⟨voters, none⟩ a₁ ∧
      ((formed hosts voters).run (events.take k)).retained.Mirrors ⟨voters, none⟩ a₂ := by
  obtain ⟨more, pend, hmore, hretained, hbased⟩ := (formed_based hosts voters).run (hcareful.take n)
  rw [retained_formed] at hmore hretained
  obtain ⟨a₁, -, hm₁⟩ := (Cluster.formed_mirrors hosts voters).run hmore
  rw [← hretained] at hm₁
  obtain ⟨rest, hsplit, hrest⟩ := hcareful.between hnk
  obtain ⟨more', pend', hmore', hretained', -⟩ := hbased.run hrest
  obtain ⟨a₂, hg, hm₂⟩ := hm₁.run hmore'
  refine ⟨a₁, a₂, hg, hm₁, ?_⟩
  rw [hsplit, run, List.foldl_append]
  exact hretained' ▸ hm₂

end Durable

end Slates.Raft
