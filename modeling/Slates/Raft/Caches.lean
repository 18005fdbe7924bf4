import Slates.Raft.Boundary
import Slates.Raft.Soundness

/-!
What a node keeps beside its log is what a recount of the log gives: the bytes it holds and the
indices of its configurations.
-/

namespace Slates.Raft

open Register (HostId)
open Consensus (Scheme)

/-- A call, and for a snapshot the entries that it stands for. -/
structure FoldedCall where
  call : Call
  folded : List LogEntry

namespace FoldedCall

/-- How many entries a snapshot stands for, and the configuration they leave. -/
def Honest (base : VoterConfig) (heard : FoldedCall) : Prop :=
  match heard.call with
  | .onInstallSnapshot request => heard.folded.length = request.lastIncludedIndex ∧
      (scheme base).cfg heard.folded = request.config
  | _ => True

/-- The call does not split off a configuration at the largest index, by a compaction up to it or a
snapshot of this log. -/
def Below (node : RaftNode) (heard : FoldedCall) : Prop :=
  match heard.call with
  | .onInstallSnapshot request => maxIndex ≤ request.lastIncludedIndex →
      node.entryTerm request.lastIncludedIndex = some request.lastIncludedTerm →
        ∀ index ∈ node.configEntries, index < maxIndex
  | .compact upTo _ => maxIndex ≤ upTo → ∀ index ∈ node.configEntries, index < maxIndex
  | _ => True

end FoldedCall

namespace Member

/-- What it compacted it has folded, and what a snapshot stands for. -/
def call (member : Member) (heard : FoldedCall) : Member :=
  match heard.call with
  | .onInstallSnapshot _ => member.installs (member.node.call heard.call) heard.folded
  | _ => member.becomes (member.node.call heard.call)

def calls (member : Member) (heard : List FoldedCall) : Member := heard.foldl call member

end Member

namespace RaftNode

/-- What is kept beside the log is a recount of it. -/
structure Recounted (node : RaftNode) : Prop where
  bytes : node.logBytesHeld = encodedSum node.log
  configs : node.configEntries = configIndices node.snapshotIndex node.log

variable {node node' : RaftNode}

theorem encodedSum_take_add_drop (entries : List LogEntry) (n : Nat) :
    encodedSum (entries.take n) + encodedSum (entries.drop n) = encodedSum entries := by
  rw [encodedSum, encodedSum, encodedSum, ← List.sum_append, ← List.map_append,
    List.take_append_drop]

theorem Recounted.pushed (h : node.Recounted) (entry : LogEntry) :
    (node.pushed entry).Recounted where
  bytes := by
    show node.logBytesHeld + entry.encodedLen = encodedSum (node.log ++ [entry])
    simp [h.bytes, encodedSum]
  configs := configEntries_pushed h.configs entry

theorem Recounted.truncateFrom (h : node.Recounted) (index : Nat) :
    (node.truncateFrom index).Recounted where
  bytes := by
    have hsum := encodedSum_take_add_drop node.log (index - node.snapshotIndex - 1)
    show node.logBytesHeld - encodedSum (node.log.drop (index - node.snapshotIndex - 1)) = _
    rw [h.bytes, ← hsum, Nat.add_sub_cancel]
    rfl
  configs := configEntries_truncateFrom h.configs index

/-- Nothing is kept from the largest index on, and nothing is there to recount. -/
theorem Recounted.configs_above (h : node.Recounted) {index : Nat}
    (hle : node.snapshotIndex ≤ index)
    (hmax : maxIndex ≤ index → ∀ i ∈ node.configEntries, i < maxIndex) :
    node.configEntries.filter (satSucc index ≤ ·) =
      configIndices index (node.log.drop (index - node.snapshotIndex)) := by
  rcases Nat.lt_or_ge index maxIndex with hlt | hge
  · exact configEntries_above h.configs hle hlt
  have hdrop := filter_configIndices_ge node.snapshotIndex (index - node.snapshotIndex) node.log
  rw [Nat.add_sub_cancel' hle, ← h.configs] at hdrop
  rw [← hdrop, satSucc, min_eq_right (by omega)]
  refine List.filter_congr fun i hi => ?_
  have hi := hmax hge i hi
  rw [decide_eq_decide]
  omega

theorem Recounted.rebased (h : node.Recounted) {index : Nat} (hle : node.snapshotIndex ≤ index)
    (hmax : maxIndex ≤ index → ∀ i ∈ node.configEntries, i < maxIndex)
    (hsnapshot : node'.snapshotIndex = index)
    (hlog : node'.log = node.log.drop (index - node.snapshotIndex))
    (hbytes : node'.logBytesHeld =
      node.logBytesHeld - encodedSum (node.log.take (index - node.snapshotIndex)))
    (hconfigs : node'.configEntries = node.configEntries.filter (satSucc index ≤ ·)) :
    node'.Recounted where
  bytes := by
    have hsum := encodedSum_take_add_drop node.log (index - node.snapshotIndex)
    rw [hbytes, hlog, h.bytes]
    omega
  configs := by
    rw [hconfigs, hlog, hsnapshot, h.configs_above hle hmax]

theorem logs_recounted : Logs (fun node node' => node'.ledger.1 = node.ledger.1 ∧
    (node.Recounted → node'.Recounted)) where
  trans h h' := ⟨h'.1.trans h.1, fun hnode => h'.2 (h.2 hnode)⟩
  of_ledger {a b} h := by
    simp only [ledger, Prod.mk.injEq] at h
    obtain ⟨⟨hindex, hsnapshot⟩, hlog, hconfigs, hbytes⟩ := h
    refine ⟨Prod.ext hindex (Prod.ext hsnapshot.1 (Prod.ext hsnapshot.2.1 hsnapshot.2.2)),
      fun hnode => ⟨?_, ?_⟩⟩
    · rw [hbytes, hlog, hnode.bytes]
    · rw [hconfigs, hindex, hlog, hnode.configs]
  pushed entry := ⟨rfl, fun hnode => hnode.pushed entry⟩
  truncate index := ⟨rfl, fun hnode => hnode.truncateFrom index⟩

end RaftNode

namespace Member

structure Recounted (base : VoterConfig) (m : Member) : Prop where
  node : m.node.Recounted
  length : m.folded.length = m.node.snapshotIndex
  config : (scheme base).cfg m.folded = m.node.baseConfig

variable {base : VoterConfig} {m : Member} {node : RaftNode}

section

variable (h : m.Recounted base)

include h

theorem Recounted.becomes (hnode : node.Recounted)
    (hindex : node.snapshotIndex = m.node.snapshotIndex)
    (hconfig : node.baseConfig = m.node.baseConfig) : (m.becomes node).Recounted base := by
  have hfolded : m.becomes node = ⟨node, m.folded⟩ := by
    rw [Member.becomes, whole, hindex, ← h.length, List.take_left]
  rw [hfolded]
  exact ⟨hnode, h.length.trans hindex.symm, h.config.trans hconfig.symm⟩

theorem Recounted.compact {upTo : Nat}
    (hmax : maxIndex ≤ upTo → ∀ i ∈ m.node.configEntries, i < maxIndex)
    (state : List UInt8) : (m.becomes (m.node.compact upTo state).1).Recounted base := by
  rw [RaftNode.compact]
  split_ifs with hskip
  · exact h.becomes h.node rfl rfl
  cases hterm : m.node.entryTerm upTo with
  | none => exact h.becomes h.node rfl rfl
  | some term =>
    push Not at hskip
    have hlast := RaftNode.le_lastLogIndex_of_entryTerm hterm
    rw [RaftNode.lastLogIndex] at hlast
    have hlen : upTo - m.node.snapshotIndex ≤ m.node.log.length := by omega
    have hfolded : m.whole.take upTo =
        m.folded ++ m.node.log.take (upTo - m.node.snapshotIndex) := by
      rw [whole, List.take_append, List.take_of_length_le (by rw [h.length]; omega), h.length]
    dsimp only
    rw [min_eq_left hlen]
    refine ⟨h.node.rebased hskip.1.le hmax rfl rfl rfl rfl, ?_, ?_⟩
    · refine List.length_take_of_le ?_
      rw [whole, List.length_append, h.length]
      omega
    · show (scheme base).cfg (m.whole.take upTo) = _
      rw [hfolded, cfg_append, h.config]
      rfl

theorem Recounted.installs {request : InstallSnapshot}
    {folded : List LogEntry} (hlength : folded.length = request.lastIncludedIndex)
    (hconfig : (scheme base).cfg folded = request.config)
    (hmax : maxIndex ≤ request.lastIncludedIndex →
      m.node.entryTerm request.lastIncludedIndex = some request.lastIncludedTerm →
        ∀ i ∈ m.node.configEntries, i < maxIndex) :
    (m.installs (m.node.onInstallSnapshot request).1 folded).Recounted base := by
  have hkept : ∀ {node : RaftNode}, node.Recounted → node.ledger.1 = m.node.ledger.1 →
      (m.installs node folded).Recounted base := by
    intro node hnode hsame
    have hindex : node.snapshotIndex = m.node.snapshotIndex := congrArg Prod.fst hsame
    rw [Member.installs, if_neg (by omega)]
    exact ⟨hnode, h.length.trans hindex.symm, h.config.trans (congrArg (·.2.2.2) hsame).symm⟩
  rw [RaftNode.onInstallSnapshot]
  cases admitSnapshot request with
  | error _ => exact hkept h.node rfl
  | ok _ =>
    dsimp only
    split_ifs with hold hnewer
    · exact hkept h.node rfl
    · obtain ⟨hsame, hheard⟩ :=
        @RaftNode.Logs.recognizeLeader m.node _ RaftNode.logs_recounted request.term
      have hindex : (m.node.recognizeLeader request.term).snapshotIndex = m.node.snapshotIndex :=
        congrArg Prod.fst hsame
      have hterm : (m.node.recognizeLeader request.term).entryTerm request.lastIncludedIndex =
          m.node.entryTerm request.lastIncludedIndex := by
        rw [RaftNode.recognizeLeader, RaftNode.observeTerm]
        split_ifs <;> rfl
      have hentries : (m.node.recognizeLeader request.term).configEntries =
          m.node.configEntries := by
        rw [RaftNode.recognizeLeader, RaftNode.observeTerm]
        split_ifs <;> rfl
      rw [← hterm, ← hentries] at hmax
      generalize m.node.recognizeLeader request.term = heard at *
      rw [Member.installs, RaftNode.adoptSnapshot]
      split_ifs with hsuffix hpast hpast
      · have hlast := RaftNode.le_lastLogIndex_of_entryTerm hsuffix
        rw [RaftNode.lastLogIndex] at hlast
        rw [min_eq_left (by omega)]
        exact ⟨(hheard h.node).rebased hnewer.le (hmax · hsuffix) rfl rfl rfl rfl, hlength, hconfig⟩
      · exact absurd (hindex ▸ hnewer) hpast
      · exact ⟨⟨rfl, rfl⟩, hlength, hconfig⟩
      · exact absurd (hindex ▸ hnewer) hpast
    · obtain ⟨hsame, hheard⟩ :=
        @RaftNode.Logs.recognizeLeader m.node _ RaftNode.logs_recounted request.term
      exact hkept (hheard h.node) hsame

theorem Recounted.restart : (m.becomes (m.node.call .restart)).Recounted base := by
  rw [RaftNode.call]
  split
  · rename_i restored hrestored
    obtain ⟨-, pushed, hpushed, rfl⟩ := RaftNode.restore_eq hrestored
    obtain ⟨hsame, hpushes⟩ := RaftNode.logs_recounted.blind.pushAll hpushed
    have hnode := hpushes ⟨rfl, rfl⟩
    exact h.becomes ⟨hnode.bytes, hnode.configs⟩ (congrArg Prod.fst hsame)
      (congrArg (·.2.2.2) hsame)
  · exact h.becomes h.node rfl rfl

/-- **One call** keeps the recount. -/
theorem Recounted.call {heard : FoldedCall} (hhonest : heard.Honest base)
    (hbelow : heard.Below m.node) : (m.call heard).Recounted base := by
  obtain ⟨call, folded⟩ := heard
  cases hplain : call.plain with
  | true =>
    obtain ⟨hsame, hnode⟩ := @RaftNode.Logs.call _ RaftNode.logs_recounted m.node _ hplain
    have hbecomes := h.becomes (hnode h.node) (congrArg Prod.fst hsame)
      (congrArg (·.2.2.2) hsame)
    cases call with
    | onInstallSnapshot request => cases hplain
    | _ => exact hbecomes
  | false =>
    cases call with
    | compact upTo state => exact h.compact hbelow state
    | onInstallSnapshot request => exact h.installs hhonest.1 hhonest.2 hbelow
    | restart => exact h.restart
    | _ => cases hplain

theorem recounted_calls {heard : List FoldedCall} (hhonest : ∀ call ∈ heard, call.Honest base)
    (hbelow : Runs.Meets Member.call (fun m call => call.Below m.node) m heard) :
    (m.calls heard).Recounted base := by
  induction heard generalizing m with
  | nil => exact h
  | cons call heard ih =>
    obtain ⟨hcall, hrest⟩ := List.forall_mem_cons.mp hhonest
    exact ih (h.call hcall hbelow.1) hrest hbelow.2

end

end Member

/-- **The cached views are a recount**, after any calls and messages that split off no configuration
at the largest index; a snapshot tells the truth of its configuration. -/
theorem caches_recount (id : HostId) (voters : List HostId) {heard : List FoldedCall}
    (hhonest : ∀ call ∈ heard, call.Honest ⟨voters, none⟩)
    (hbelow : Runs.Meets Member.call (fun m call => call.Below m.node) ⟨.new id voters, []⟩ heard)
    {m : Member} (hm : m = Member.calls ⟨.new id voters, []⟩ heard) :
    m.node.logBytesHeld = encodedSum m.node.log ∧
      m.node.configEntries = configIndices m.node.snapshotIndex m.node.log ∧
      m.whole.length = m.node.lastLogIndex ∧
      m.node.effectiveConfig = (scheme ⟨voters, none⟩).cfg m.whole := by
  have hnew : Member.Recounted ⟨voters, none⟩ ⟨.new id voters, []⟩ := ⟨⟨rfl, rfl⟩, rfl, rfl⟩
  have h : m.Recounted ⟨voters, none⟩ := hm ▸ Member.recounted_calls hnew hhonest hbelow
  refine ⟨h.node.bytes, h.node.configs, ?_,
    RaftNode.effectiveConfig_of_indices h.config h.node.configs⟩
  rw [Member.whole, List.length_append, h.length, RaftNode.lastLogIndex]

/-- A sole voter installs a snapshot, changes its configuration and compacts it. -/
def changeFrom (index : Nat) : List FoldedCall :=
  [⟨.onInstallSnapshot ⟨1, 2, index, 1, ⟨[1], none⟩, []⟩,
      List.replicate index (.ofCommand 1 [])⟩,
    ⟨.startElection, []⟩, ⟨.beginMembershipChange [1], []⟩, ⟨.compact (index + 1) [], []⟩]

theorem caches_recount_changeFrom :
    let m := Member.calls ⟨.new 1 [1], []⟩ (changeFrom 2)
    m.node.snapshotIndex = 3 ∧ m.node.configEntries = configIndices 3 m.node.log ∧
      m.node.effectiveConfig = (scheme ⟨[1], none⟩).cfg m.whole := by
  intro m
  have hsnapshot : m.node.snapshotIndex = 3 := by decide +kernel
  have hhonest : ∀ call ∈ changeFrom 2, call.Honest ⟨[1], none⟩ := by
    simp [changeFrom, FoldedCall.Honest, Scheme.cfg, LogEntry.ofCommand, scheme]
  have hbelow : Runs.Meets Member.call (fun m call => call.Below m.node) ⟨.new 1 [1], []⟩
      (changeFrom 2) := by
    simp [changeFrom, Runs.Meets, FoldedCall.Below, maxIndex]
  obtain ⟨-, hconfigs, -, hforce⟩ := caches_recount 1 [1] hhonest hbelow rfl
  exact ⟨hsnapshot, hsnapshot ▸ hconfigs, hforce⟩

/-- At the largest index: its configuration is folded, its index stays. -/
theorem boundary_leaves_index :
    let node := (RaftNode.new 1 [1]).calls ((changeFrom (maxIndex - 1)).map FoldedCall.call)
    node.log = [] ∧ node.snapshotIndex = maxIndex ∧ node.configEntries = [maxIndex] := by
  decide +kernel

end Slates.Raft
