import Slates.Raft.Calls
import Slates.Raft.Cluster
import Slates.Library.Moves
import Slates.Library.Quorums

/-!
A node's log as a whole, the entries its snapshot stands for included: what the node reads of its
log and of its configuration are the whole log's.
-/

open Std (ExtTreeMap)

namespace Slates.Raft

open Register (HostId checkedSucc)
open Consensus (Scheme)

/-! ## Majorities -/

theorem carries_meet {xs ys set : List HostId} (hx : carries xs set) (hy : carries ys set) :
    ∃ host ∈ xs, host ∈ ys := by
  rw [carries, decide_eq_true_eq] at hx hy
  have hlt : set.length < (set.countP fun voter => voter ∈ xs) +
      set.countP fun voter => voter ∈ ys := by omega
  obtain ⟨host, -, hx, hy⟩ := Quorums.exists_both hlt
  exact ⟨host, of_decide_eq_true hx, of_decide_eq_true hy⟩

/-- The joint configuration of another's voters and a new set, or the new set of a joint one alone.
-/
def VoterConfig.Next (c d : VoterConfig) : Prop :=
  (c.joint = none ∧ d.voters = c.voters) ∨ ∃ new, c.joint = some new ∧ d = ⟨new, none⟩

/-- The hosts that form a majority are among these. -/
def VoterConfig.Decides (config : VoterConfig) (hosts : Set HostId) : Prop :=
  ∃ granters : List HostId, (∀ host ∈ granters, host ∈ hosts) ∧ config.isMajority granters

namespace VoterConfig

variable {c d f : VoterConfig} {Q R : Set HostId}

theorem Decides.meet {xs ys set : List HostId} (hQ : ∀ host ∈ xs, host ∈ Q)
    (hR : ∀ host ∈ ys, host ∈ R) (hx : carries xs set) (hy : carries ys set) :
    (Q ∩ R).Nonempty := by
  obtain ⟨host, hhx, hhy⟩ := carries_meet hx hy
  exact ⟨host, hQ host hhx, hR host hhy⟩

theorem isMajority_voters {granters : List HostId} (h : c.isMajority granters) :
    carries granters c.voters := by
  rw [isMajority, Bool.and_eq_true] at h
  exact h.1

theorem isMajority_joint {granters new : List HostId} (h : c.isMajority granters)
    (hnew : c.joint = some new) : carries granters new := by
  rw [isMajority, hnew, Bool.and_eq_true] at h
  exact h.2

theorem Decides.meet_same (hQ : c.Decides Q) (hR : c.Decides R) : (Q ∩ R).Nonempty := by
  obtain ⟨xs, hxs, hx⟩ := hQ
  obtain ⟨ys, hys, hy⟩ := hR
  exact Decides.meet hxs hys (isMajority_voters hx) (isMajority_voters hy)

theorem Decides.meet_next (h : c.Next d) (hQ : c.Decides Q) (hR : d.Decides R) :
    (Q ∩ R).Nonempty := by
  obtain ⟨xs, hxs, hx⟩ := hQ
  obtain ⟨ys, hys, hy⟩ := hR
  rcases h with ⟨-, hvoters⟩ | ⟨new, hnew, rfl⟩
  · exact Decides.meet hxs hys (isMajority_voters hx) (hvoters ▸ isMajority_voters hy)
  · exact Decides.meet hxs hys (isMajority_joint hx hnew) (isMajority_voters hy)

theorem Decides.meet_fork (hd : c.Next d) (hf : c.Next f) (hQ : d.Decides Q) (hR : f.Decides R) :
    (Q ∩ R).Nonempty := by
  rcases hd with ⟨hnone, hd⟩ | ⟨new, hnew, rfl⟩ <;> rcases hf with ⟨hnone', hf⟩ | ⟨new', hnew', rfl⟩
  · obtain ⟨xs, hxs, hx⟩ := hQ
    obtain ⟨ys, hys, hy⟩ := hR
    exact Decides.meet hxs hys (hd ▸ isMajority_voters hx) (hf ▸ isMajority_voters hy)
  · rw [hnone] at hnew'
    exact absurd hnew' (by simp)
  · rw [hnone'] at hnew
    exact absurd hnew (by simp)
  · rw [hnew] at hnew'
    obtain rfl := Option.some.inj hnew'
    exact hQ.meet_same hR

end VoterConfig

/-- The logs of a group formed with the configuration `base`. -/
def scheme (base : VoterConfig) : Scheme HostId LogEntry VoterConfig where
  term := LogEntry.term
  config := LogEntry.config
  base := base
  decides := VoterConfig.Decides
  next := VoterConfig.Next
  meet_same := VoterConfig.Decides.meet_same
  meet_next := VoterConfig.Decides.meet_next
  meet_fork := VoterConfig.Decides.meet_fork

@[simp]
theorem scheme_term (base : VoterConfig) : (scheme base).term = LogEntry.term := rfl

/-! ## The indices of the configurations -/

def configIndices : Nat → List LogEntry → List Nat
  | _, [] => []
  | n, entry :: entries =>
    if entry.config.isSome then (n + 1) :: configIndices (n + 1) entries
    else configIndices (n + 1) entries

theorem configIndices_append (n : Nat) (xs ys : List LogEntry) :
    configIndices n (xs ++ ys) = configIndices n xs ++ configIndices (n + xs.length) ys := by
  induction xs generalizing n with
  | nil => rfl
  | cons x xs ih =>
    rw [List.cons_append, configIndices, configIndices, ih (n + 1), List.length_cons,
      show n + 1 + xs.length = n + (xs.length + 1) by omega]
    split_ifs <;> rfl

variable {xs old X : List LogEntry} {n i : Nat} {e : LogEntry} {base : VoterConfig}

theorem configIndices_plain (h : (scheme base).Plain xs) : configIndices n xs = [] := by
  induction xs generalizing n with
  | nil => rfl
  | cons x xs ih =>
    have hx : x.config = none := h x List.mem_cons_self
    rw [configIndices, hx]
    exact ih fun e he => h e (List.mem_cons_of_mem _ he)

theorem mem_configIndices (h : i ∈ configIndices n xs) : n < i ∧ i ≤ n + xs.length := by
  induction xs generalizing n with
  | nil => exact absurd h (by simp [configIndices])
  | cons x xs ih =>
    rw [configIndices] at h
    rw [List.length_cons]
    split_ifs at h with hx
    · rcases List.mem_cons.mp h with rfl | h
      · omega
      · have := ih h
        omega
    · have := ih h
      omega

theorem configIndices_sorted : (configIndices n xs).Pairwise (· < ·) := by
  induction xs generalizing n with
  | nil => exact List.Pairwise.nil
  | cons x xs ih =>
    rw [configIndices]
    split_ifs
    · exact List.pairwise_cons.mpr ⟨fun i hi => (mem_configIndices hi).1, ih⟩
    · exact ih

theorem mem_configIndices_of_getElem? {k : Nat} (he : xs[k]? = some e) (hc : e.config.isSome) :
    n + k + 1 ∈ configIndices n xs := by
  induction xs generalizing n k with
  | nil => exact absurd he (by simp)
  | cons x xs ih =>
    rw [configIndices]
    cases k with
    | zero =>
      obtain rfl : x = e := Option.some.inj he
      rw [if_pos hc]
      exact List.mem_cons_self
    | succ k =>
      have hmem := ih (n := n + 1) (k := k) he
      rw [show n + 1 + k + 1 = n + (k + 1) + 1 by omega] at hmem
      split_ifs
      · exact List.mem_cons_of_mem _ hmem
      · exact hmem

theorem filter_configIndices_lt (n k : Nat) (xs : List LogEntry) :
    (configIndices n xs).filter (· < n + k + 1) = configIndices n (xs.take k) := by
  conv_lhs => rw [← List.take_append_drop k xs, configIndices_append]
  rw [List.filter_append, List.filter_eq_self.mpr, List.filter_eq_nil_iff.mpr, List.append_nil]
  · intro i hi
    have := mem_configIndices hi
    rcases le_total k xs.length with hk | hk
    · rw [List.length_take_of_le hk] at this
      simp only [decide_eq_true_eq]
      omega
    · rw [List.drop_of_length_le hk, configIndices] at hi
      exact absurd hi (by simp)
  · intro i hi
    have := mem_configIndices hi
    rw [List.length_take] at this
    simp only [decide_eq_true_eq]
    omega

theorem filter_configIndices_ge (n k : Nat) (xs : List LogEntry) :
    (configIndices n xs).filter (n + k + 1 ≤ ·) = configIndices (n + k) (xs.drop k) := by
  conv_lhs => rw [← List.take_append_drop k xs, configIndices_append]
  rcases le_total k xs.length with hk | hk
  · rw [List.length_take_of_le hk, List.filter_append, List.filter_eq_nil_iff.mpr,
      List.filter_eq_self.mpr, List.nil_append]
    · intro i hi
      have := mem_configIndices hi
      simp only [decide_eq_true_eq]
      omega
    · intro i hi
      have := mem_configIndices hi
      rw [List.length_take_of_le hk] at this
      simp only [decide_eq_true_eq]
      omega
  · rw [List.drop_of_length_le hk, configIndices, configIndices, List.append_nil,
      List.take_of_length_le hk, List.filter_eq_nil_iff.mpr]
    intro i hi
    have := mem_configIndices hi
    simp only [decide_eq_true_eq]
    omega

theorem insertIndex_configIndices (n : Nat) (xs : List LogEntry) (he : e.config.isSome) :
    insertIndex (n + xs.length + 1) (configIndices n xs) = configIndices n (xs ++ [e]) := by
  rw [insertIndex, filter_configIndices_lt, List.take_length, configIndices_append,
    List.filter_eq_nil_iff.mpr]
  · simp [configIndices, he]
  · intro i hi
    have := mem_configIndices hi
    simp only [decide_eq_true_eq]
    omega

theorem cfg_append (xs ys : List LogEntry) :
    (scheme base).cfg (xs ++ ys) =
      (ys.reverse.findSome? LogEntry.config).getD ((scheme base).cfg xs) := by
  rcases Scheme.plain_or_last (K := scheme base) ys with hplain | ⟨us, e, vs, c, rfl, he, hvs⟩
  · rw [Scheme.cfg_append_plain hplain, List.findSome?_eq_none_iff.mpr]
    · rfl
    · exact fun e he => hplain e (List.mem_reverse.mp he)
  · have hnone : vs.reverse.findSome? LogEntry.config = none :=
      List.findSome?_eq_none_iff.mpr fun x hx => hvs x (List.mem_reverse.mp hx)
    have hc : e.config = some c := he
    rw [← List.append_assoc, Scheme.cfg_append_config he hvs, List.reverse_append,
      List.reverse_cons, List.append_assoc, List.findSome?_append, hnone]
    simp [hc]

variable {node : RaftNode}

theorem RaftNode.effectiveConfig_of_indices
    {folded : List LogEntry} (hbase : (scheme base).cfg folded = node.baseConfig)
    (hentries : node.configEntries = configIndices node.snapshotIndex node.log) :
    node.effectiveConfig = (scheme base).cfg (folded ++ node.log) := by
  rw [effectiveConfig, hentries]
  rcases Scheme.plain_or_last
    (K := scheme base) node.log with hplain | ⟨xs, e, ys, c, hlog, he, hys⟩
  · have hnil : configIndices node.snapshotIndex node.log = [] := configIndices_plain hplain
    rw [hnil, Scheme.cfg_append_plain hplain, hbase]
    rfl
  · have hindices : configIndices node.snapshotIndex node.log =
        configIndices node.snapshotIndex xs ++ [node.snapshotIndex + xs.length + 1] := by
      have hsome : e.config.isSome := by rw [show e.config = some c from he]; rfl
      rw [hlog, configIndices_append, configIndices, if_pos hsome, configIndices_plain hys]
    have hat : node.configAt (node.snapshotIndex + xs.length + 1) = some c := by
      rw [configAt, entryAt, position, if_neg (by omega), Option.bind_some, hlog,
        show node.snapshotIndex + xs.length + 1 - node.snapshotIndex - 1 = xs.length by omega]
      simp only [List.getElem?_append_right le_rfl, Nat.sub_self, List.getElem?_cons_zero,
        Option.bind_some]
      exact he
    rw [hindices, List.getLast?_concat, Option.bind_some, hat, Option.getD_some, hlog,
      ← List.append_assoc, Scheme.cfg_append_config he hys]

/-! ## The whole log -/

/-- The snapshot stands for the folded entries, the configurations' indices are those of the log,
and the commit index lies between the snapshot and the log's end. -/
structure Member.Kept (base : VoterConfig) (m : Member) : Prop where
  folded_length : m.folded.length = m.node.snapshotIndex
  snapshotTerm : (scheme base).lastTerm m.folded = m.node.snapshotTerm
  baseConfig : (scheme base).cfg m.folded = m.node.baseConfig
  configEntries : m.node.configEntries = configIndices m.node.snapshotIndex m.node.log ∨
    m.node.snapshotIndex = maxIndex ∧ ∀ i ∈ m.node.configEntries, i = maxIndex
  bound : m.whole.length ≤ maxIndex
  snapshot_le : m.node.snapshotIndex ≤ m.node.commitIndex
  commit_le : m.node.commitIndex ≤ m.whole.length

variable {i : Nat}

namespace Member

variable {base : VoterConfig} {m : Member}

theorem becomes_of_kept (hnode : Member.Kept base ⟨node, m.folded⟩) :
    m.becomes node = ⟨node, m.folded⟩ := by
  have hfolded : m.folded.length = node.snapshotIndex := hnode.folded_length
  rw [becomes, ← hfolded, whole, List.take_left]

namespace Kept

section

variable (h : m.Kept base)

include h

theorem lastLogIndex_eq : m.node.lastLogIndex = m.whole.length := by
  rw [RaftNode.lastLogIndex, whole, List.length_append, h.folded_length]

theorem lastLogTerm_eq : m.node.lastLogTerm = (scheme base).lastTerm m.whole := by
  rw [RaftNode.lastLogTerm, Scheme.lastTerm, whole, ← h.snapshotTerm, Scheme.lastTerm]
  rcases List.eq_nil_or_concat m.node.log with hlog | ⟨entries, e, hlog⟩
  · rw [hlog]
    simp
  · rw [hlog, List.concat_eq_append, List.getLast?_concat, ← List.append_assoc,
      List.getLast?_concat]
    rfl

theorem entryAt_eq (hi : m.node.snapshotIndex < i) : m.node.entryAt i = m.whole[i - 1]? := by
  rw [RaftNode.entryAt, RaftNode.position, if_neg (by omega), Option.bind_some, whole,
    List.getElem?_append_right (by rw [h.folded_length]; omega), h.folded_length]
  congr 1
  omega

theorem entryTerm_eq (hi : m.node.snapshotIndex ≤ i) (hpos : 0 < i) :
    m.node.entryTerm i = m.whole[i - 1]?.map LogEntry.term := by
  rw [RaftNode.entryTerm, if_neg (by omega)]
  split_ifs with hs
  · subst hs
    have hlt : m.node.snapshotIndex - 1 < m.folded.length := by rw [h.folded_length]; omega
    have hlast : m.folded.getLast? = m.folded[m.node.snapshotIndex - 1]? := by
      rw [List.getLast?_eq_getElem?, h.folded_length]
    rw [whole, List.getElem?_append_left hlt, ← hlast, ← h.snapshotTerm, Scheme.lastTerm, hlast,
      List.getElem?_eq_getElem hlt]
    rfl
  · rw [h.entryAt_eq (by omega)]

theorem whole_eq_folded (hs : m.node.snapshotIndex = maxIndex) : m.whole = m.folded := by
  have hbound := h.bound
  rw [whole, List.length_append, h.folded_length, hs] at hbound
  rw [whole, List.length_eq_zero_iff.mp (by omega : m.node.log.length = 0), List.append_nil]

theorem effectiveConfig_eq : m.node.effectiveConfig = (scheme base).cfg m.whole := by
  rcases h.configEntries with hentries | ⟨hs, hentries⟩
  · exact RaftNode.effectiveConfig_of_indices h.baseConfig hentries
  rw [h.whole_eq_folded hs, h.baseConfig, RaftNode.effectiveConfig]
  cases hlast : m.node.configEntries.getLast? with
  | none => rfl
  | some i =>
    have hi := hentries i (List.mem_of_getLast? hlast)
    rw [Option.bind_some, RaftNode.configAt, RaftNode.entryAt, RaftNode.position,
      if_pos (by omega)]
    rfl

theorem plain_drop {k : Nat} (hs : m.node.snapshotIndex ≤ k)
    (hk : m.node.latestConfigIndex ≤ k) : (scheme base).Plain (m.whole.drop k) := by
  rcases h.configEntries with hentries | ⟨hmax, -⟩
  swap
  · rw [List.drop_of_length_le (h.bound.trans (hmax ▸ hs))]
    exact fun e he => absurd he (by simp)
  intro e he
  obtain ⟨j, hj⟩ := List.mem_iff_getElem?.mp he
  rw [List.getElem?_drop, whole, List.getElem?_append_right (by rw [h.folded_length]; omega),
    h.folded_length] at hj
  by_contra hc
  have hmem := mem_configIndices_of_getElem? (n := m.node.snapshotIndex) hj
    (Option.isSome_iff_ne_none.mpr hc)
  rw [← hentries] at hmem
  have hsorted : m.node.configEntries.Pairwise (· < ·) := hentries ▸ configIndices_sorted
  have hle : m.node.snapshotIndex + (k + j - m.node.snapshotIndex) + 1 ≤
      m.node.latestConfigIndex := by
    obtain ⟨xs, last, hlast⟩ := List.eq_nil_or_concat m.node.configEntries |>.resolve_left
      (List.ne_nil_of_mem hmem)
    rw [RaftNode.latestConfigIndex, hlast, List.concat_eq_append, List.getLast?_concat,
      Option.getD_some]
    rw [hlast, List.concat_eq_append] at hmem hsorted
    rcases List.mem_append.mp hmem with hx | hx
    · exact ((List.pairwise_append.mp hsorted).2.2 _ hx last (by simp)).le
    · exact (List.mem_singleton.mp hx).le
  omega

end

end Kept

end Member

namespace RaftNode

def pushed (node : RaftNode) (entry : LogEntry) : RaftNode :=
  { node with
    configEntries :=
      if entry.config.isSome then insertIndex (node.lastLogIndex + 1) node.configEntries
      else node.configEntries
    logBytesHeld := node.logBytesHeld + entry.encodedLen
    log := node.log ++ [entry] }

theorem pushEntry_eq (node : RaftNode) (entry : LogEntry) :
    node.pushEntry entry =
      if node.lastLogIndex < maxIndex then (node.pushed entry, true) else (node, false) := by
  rw [pushEntry, checkedSucc]
  by_cases h : node.lastLogIndex + 1 < 2 ^ 64
  · rw [if_pos h, if_pos (by rw [maxIndex]; omega)]
    rfl
  · rw [if_neg h, if_neg (by rw [maxIndex]; omega)]

theorem pushed_lastLogIndex (node : RaftNode) (entry : LogEntry) :
    (node.pushed entry).lastLogIndex = node.lastLogIndex + 1 := by
  rw [lastLogIndex, lastLogIndex, pushed, List.length_append]
  rfl

theorem decideWithin_rule {R : RaftNode → RaftNode → Prop}
    (hrefl : ∀ a, R a a) (htrans : ∀ {a b c}, R a b → R b c → R a c)
    (hstep : ∀ {a votes} command, a.fastVotes[satSucc a.lastLogIndex]? = some votes →
      R a (a.leaderAppend (.ofCommand a.currentTerm command)).1) (fuel : Nat) :
    R node (decideWithin fuel node) := by
  induction fuel generalizing node with
  | zero => exact hrefl node
  | succ fuel ih =>
    rw [decideWithin]
    split
    · exact hrefl node
    rename_i votes hvotes
    split_ifs
    · exact hrefl node
    split
    · exact hrefl node
    rename_i command _
    have happend := hstep command hvotes
    generalize node.leaderAppend (.ofCommand node.currentTerm command) = result at *
    obtain ⟨after, fits⟩ := result
    cases fits with
    | false => exact happend
    | true => exact htrans happend ih

theorem recoverSlice_rule {P : RaftNode → Recovery → RaftNode × Recovery × Bool → Prop}
    {slice : Nat}
    (hends : ∀ {node recovery}, P node recovery (node, recovery, true))
    (hfull : ∀ {node recovery}, ¬ node.lastLogIndex < maxIndex →
      P node recovery (node, recovery, false))
    (hlast : ∀ {node recovery}, node.lastLogIndex < maxIndex →
      checkedSucc recovery.next = none →
      P node recovery (node.pushed (node.recoveryEntry recovery recovery.next), recovery, true))
    (hpushes : ∀ {node recovery next result}, node.lastLogIndex < maxIndex →
      checkedSucc recovery.next = some next →
      P (node.pushed (node.recoveryEntry recovery recovery.next)) { recovery with next := next }
        result → P node recovery result)
    (fuel : Nat) (node : RaftNode) (recovery : Recovery) (spent : Nat) :
    P node recovery (recoverSlice slice fuel node recovery spent) := by
  induction fuel generalizing node recovery spent with
  | zero => exact hends
  | succ fuel ih =>
    rw [recoverSlice]
    dsimp only
    split_ifs
    · exact hends
    · exact hends
    rw [pushEntry_eq]
    by_cases hroom : node.lastLogIndex < maxIndex
    · rw [if_pos hroom]
      dsimp only
      cases hnext : checkedSucc recovery.next with
      | none => exact hlast hroom hnext
      | some next => exact hpushes hroom hnext (ih _ _ _)
    · rw [if_neg hroom]
      exact hfull hroom

theorem recoverSlice_recovery (slice fuel : Nat) (node : RaftNode) (recovery : Recovery)
    (spent : Nat) : (recoverSlice slice fuel node recovery spent).2.1 =
      { recovery with next := (recoverSlice slice fuel node recovery spent).2.1.next } :=
  recoverSlice_rule (P := fun _ recovery result =>
      result.2.1 = { recovery with next := result.2.1.next })
    rfl (fun _ => rfl) (fun _ _ => rfl) (fun _ _ hrest => hrest) fuel node recovery spent

theorem restore_eq {saved : SavedRaft} (h : restore saved = .ok node) :
    saved.validate = .ok () ∧ ∃ pushed, pushAll (begun saved) saved.log = .ok pushed ∧
      node = { pushed with
        commitIndex := saved.commitIndex
        snapshotTerm := saved.snapshotTerm
        snapshotData := saved.snapshotData
        window := saved.window.foldl (fun window report => window.insert report.index report.slot) ∅
        syncedTerm := saved.syncedTerm } := by
  rw [restore] at h
  cases hvalid : saved.validate with
  | error _ =>
    rw [hvalid] at h
    cases h
  | ok _ =>
    rw [hvalid] at h
    dsimp only [bind, Except.bind] at h
    generalize pushAll _ _ = result at *
    cases result with
    | error _ => cases h
    | ok pushed => exact ⟨rfl, pushed, rfl, (Except.ok.inj h).symm⟩

theorem lastLogIndex_of_entryTerm_none {index : Nat}
    (hindex : node.snapshotIndex ≤ index) (h : node.entryTerm (index + 1) = none) :
    node.lastLogIndex ≤ index := by
  rw [entryTerm, if_neg (Nat.succ_ne_zero index), if_neg (by omega), entryAt, position,
    if_neg (by omega), Option.map_eq_none_iff, Option.bind_some, List.getElem?_eq_none_iff] at h
  rw [lastLogIndex]
  omega

end RaftNode

namespace RaftNode

variable {node : RaftNode}

section

variable (h : node.configEntries = configIndices node.snapshotIndex node.log)

include h

theorem configEntries_pushed (entry : LogEntry) :
    (node.pushed entry).configEntries = configIndices node.snapshotIndex (node.log ++ [entry]) := by
  dsimp only [pushed]
  split_ifs with he
  · rw [h, lastLogIndex, insertIndex_configIndices _ _ he]
  · rw [h, configIndices_append, configIndices, if_neg he, configIndices, List.append_nil]

theorem configEntries_truncateFrom (index : Nat) :
    (node.truncateFrom index).configEntries =
      configIndices node.snapshotIndex (node.truncateFrom index).log := by
  show node.configEntries.filter (· < index) =
    configIndices node.snapshotIndex (node.log.take (index - node.snapshotIndex - 1))
  rw [h, ← filter_configIndices_lt]
  refine List.filter_congr fun i hi => ?_
  have := mem_configIndices hi
  rw [decide_eq_decide]
  omega

theorem configEntries_above (hs : node.snapshotIndex ≤ i) (hlt : i < maxIndex) :
    node.configEntries.filter (satSucc i ≤ ·) =
      configIndices i (node.log.drop (i - node.snapshotIndex)) := by
  have hfilter := filter_configIndices_ge node.snapshotIndex (i - node.snapshotIndex) node.log
  rw [Nat.add_sub_cancel' hs] at hfilter
  rw [h, satSucc, min_eq_left hlt, hfilter]

end

end RaftNode

theorem Member.whole_pushed (m : Member) (entry : LogEntry) :
    Member.whole ⟨m.node.pushed entry, m.folded⟩ = m.whole ++ [entry] :=
  (List.append_assoc m.folded m.node.log [entry]).symm

namespace Member.Kept

variable {base : VoterConfig} {m : Member}

theorem pushed (h : m.Kept base) (hlast : m.node.lastLogIndex < maxIndex) (entry : LogEntry) :
    Member.Kept base ⟨m.node.pushed entry, m.folded⟩ :=
  { h with
    configEntries := by
      rcases h.configEntries with hentries | ⟨hmax, -⟩
      swap
      · rw [RaftNode.lastLogIndex, hmax] at hlast
        omega
      exact .inl (RaftNode.configEntries_pushed hentries entry)
    bound := by
      rw [h.lastLogIndex_eq] at hlast
      rw [Member.whole_pushed, List.length_append]
      exact hlast
    commit_le := by
      refine h.commit_le.trans ?_
      rw [Member.whole_pushed, List.length_append]
      exact Nat.le_add_right _ _ }

theorem truncated (h : m.Kept base) (hi : m.node.commitIndex ≤ i) :
    Member.Kept base ⟨m.node.truncateFrom (i + 1), m.folded⟩ := by
  have hs : m.node.snapshotIndex ≤ i := h.snapshot_le.trans hi
  refine ⟨h.folded_length, h.snapshotTerm, h.baseConfig, ?_, ?_, h.snapshot_le, ?_⟩
  · rcases h.configEntries with hentries | ⟨hmax, hentries⟩
    · exact .inl (RaftNode.configEntries_truncateFrom hentries (i + 1))
    · exact .inr ⟨hmax, fun j hj => hentries j (List.mem_of_mem_filter hj)⟩
  · refine le_trans ?_ h.bound
    simp only [whole, RaftNode.truncateFrom, List.length_append, List.length_take]
    omega
  · have := h.commit_le
    simp only [whole, RaftNode.truncateFrom, List.length_append, List.length_take] at this ⊢
    rw [h.folded_length] at this ⊢
    omega

end Member.Kept

theorem Member.Kept.whole_truncated {m : Member} (h : m.Kept base) (hi : m.node.snapshotIndex ≤ i) :
    Member.whole ⟨m.node.truncateFrom (i + 1), m.folded⟩ = m.whole.take i := by
  have hfolded : m.folded.take i = m.folded :=
    List.take_of_length_le (by rw [h.folded_length]; exact hi)
  simp only [whole, RaftNode.truncateFrom, List.take_append, h.folded_length, hfolded]
  rw [show i + 1 - m.node.snapshotIndex - 1 = i - m.node.snapshotIndex by omega]

/-! ## Entries put in place -/

/-- The log after `i` entries of `X` were put in `old`: as it was, or those entries. -/
def Placing (old X : List LogEntry) (i : Nat) (log : List LogEntry) : Prop :=
  X.take i <+: old ∧ log = old ∨ ¬ X.take i <+: old ∧ log = X.take i

namespace RaftNode

theorem placeEntry_eq {m : Member} (h : m.Kept base) (hi : m.node.commitIndex ≤ i) (e : LogEntry) :
    m.node.placeEntry (i + 1) e =
      match m.whole[i]? with
      | some w =>
        if w.term = e.term then (m.node, true) else (m.node.truncateFrom (i + 1)).pushEntry e
      | none => { m.node with retentionPending := true }.pushEntry e := by
  have hs := h.snapshot_le
  rw [placeEntry, h.entryTerm_eq (by omega) (by omega), Nat.add_sub_cancel]
  cases m.whole[i]? <;> rfl

end RaftNode

theorem Member.Kept.placeEntry {m : Member} (h : m.Kept base)
    (hi : m.node.commitIndex ≤ i) (hplacing : Placing old X i m.whole) (he : X[i]? = some e)
    (hbound : X.length ≤ maxIndex)
    (hmatch : ∀ w, old[i]? = some w → w.term = e.term → X.take (i + 1) <+: old) :
    ∃ node, m.node.placeEntry (i + 1) e = (node, true) ∧
      node.core = { m.node.core with log := node.log, configEntries := node.configEntries } ∧
      Member.Kept base ⟨node, m.folded⟩ ∧
        Placing old X (i + 1) (Member.whole ⟨node, m.folded⟩) := by
  have hs := h.snapshot_le
  have hlt : i < X.length := (List.getElem?_eq_some_iff.mp he).1
  have htake : X.take (i + 1) = X.take i ++ [e] := by
    rw [List.take_add_one, he, Option.toList_some]
  rw [RaftNode.placeEntry_eq h hi]
  have hput : ∀ node : RaftNode, Member.Kept base ⟨node, m.folded⟩ →
      Member.whole ⟨node, m.folded⟩ = X.take i → ¬ X.take (i + 1) <+: old →
      node.lastLogIndex < maxIndex ∧ Member.Kept base ⟨node.pushed e, m.folded⟩ ∧
        Placing old X (i + 1) (Member.whole ⟨node.pushed e, m.folded⟩) := by
    intro node hkept hwhole hnot
    have hroom : node.lastLogIndex < maxIndex := by
      rw [hkept.lastLogIndex_eq, hwhole, List.length_take]
      omega
    refine ⟨hroom, hkept.pushed hroom e, .inr ⟨hnot, ?_⟩⟩
    rw [Member.whole_pushed ⟨node, m.folded⟩ e, hwhole, htake]
  -- what stands there already, under the same term, is the entry
  cases hw : m.whole[i]? with
  | none =>
    have hlen : m.whole.length ≤ i := List.getElem?_eq_none_iff.mp hw
    have heq : m.whole = X.take i := by
      rcases hplacing with ⟨hpre, hold⟩ | ⟨-, hnew⟩
      · rw [hold]
        rw [hold] at hlen
        refine (hpre.eq_of_length ?_).symm
        have := hpre.length_le
        rw [List.length_take] at this ⊢
        omega
      · exact hnew
    have hnot : ¬ X.take (i + 1) <+: old := fun hpre => by
      rcases hplacing with ⟨-, hold⟩ | ⟨hnot, -⟩
      · have := hpre.length_le
        rw [List.length_take, ← hold] at this
        omega
      · exact hnot ((List.take_prefix_take_left (Nat.le_succ i)).trans hpre)
    obtain ⟨hroom, hafter⟩ := hput { m.node with retentionPending := true } { h with } heq hnot
    exact ⟨_, (RaftNode.pushEntry_eq _ e).trans (if_pos hroom), rfl, hafter⟩
  | some w =>
    have hold : X.take i <+: old ∧ m.whole = old := by
      rcases hplacing with hold | ⟨-, hnew⟩
      · exact hold
      · rw [hnew, List.getElem?_take_eq_none le_rfl] at hw
        exact absurd hw (by simp)
    dsimp only
    split_ifs with hterm
    · exact ⟨_, rfl, rfl, h, .inl ⟨hmatch w (hold.2 ▸ hw) hterm, hold.2⟩⟩
    · have hwhole := h.whole_truncated (i := i) (by omega)
      have heq : m.whole.take i = X.take i := by
        rw [hold.2]
        have hlen := hold.1.length_le
        rw [List.length_take] at hlen
        have htaken :=
          Consensus.take_eq_of_isPrefix hold.1 (n := i) (by rw [List.length_take]; omega)
        rw [htaken, List.take_take, min_self]
      have hnot : ¬ X.take (i + 1) <+: old := fun hpre => hterm (by
        have hentry : old[i]? = some e := by
          refine Consensus.getElem?_of_isPrefix hpre ?_
          rw [List.getElem?_take_of_lt (Nat.lt_succ_self i)]
          exact he
        rw [← hold.2, hw] at hentry
        rw [Option.some.inj hentry])
      obtain ⟨hroom, hafter⟩ := hput _ (h.truncated hi) (hwhole.trans heq) hnot
      exact ⟨_, (RaftNode.pushEntry_eq _ e).trans (if_pos hroom), rfl, hafter⟩

theorem Member.Kept.placeAll {entries : List LogEntry} (hbound : X.length ≤ maxIndex)
    (hmatch : ∀ k w e, old[k]? = some w → X[k]? = some e → w.term = e.term →
      X.take (k + 1) <+: old)
    {m : Member} (h : m.Kept base) (hi : m.node.commitIndex ≤ i) (hlen : i ≤ X.length)
    (hentries : X.drop i = entries) (hplacing : Placing old X i m.whole) :
    ∃ node, m.node.placeAll i entries = (node, X.length) ∧
      node.core = { m.node.core with log := node.log, configEntries := node.configEntries } ∧
      Member.Kept base ⟨node, m.folded⟩ ∧
      Placing old X X.length (Member.whole ⟨node, m.folded⟩) := by
  induction entries generalizing m i with
  | nil =>
    obtain rfl : i = X.length := le_antisymm hlen (List.drop_eq_nil_iff.mp hentries)
    exact ⟨m.node, rfl, rfl, h, hplacing⟩
  | cons e entries ih =>
    have hlt : i < X.length := by
      by_contra hge
      rw [List.drop_of_length_le (not_lt.mp hge)] at hentries
      exact absurd hentries (by simp)
    have hcons := List.drop_eq_getElem_cons hlt
    rw [hentries, List.cons.injEq] at hcons
    have he : X[i]? = some e := by rw [List.getElem?_eq_getElem hlt, hcons.1]
    obtain ⟨node, hnode, hcore, hkept, hplaced⟩ :=
      h.placeEntry hi hplacing he hbound fun w hw => hmatch i w e hw he
    have hcommit : node.commitIndex = m.node.commitIndex := congrArg RaftNode.Core.commitIndex hcore
    obtain ⟨node', hnode', hcore', hrest⟩ :=
      ih hkept (by dsimp only; omega) hlt hcons.2.symm hplaced
    refine ⟨node', ?_, ?_, hrest⟩
    · rw [RaftNode.placeAll, hnode]
      exact hnode'
    · rw [hcore']
      dsimp only
      rw [hcore]

/-! ## What the windows decide -/

namespace RaftNode

variable {node : RaftNode} {slots : List WindowSlot} {found : LogEntry × Bool}

theorem recoveredValue_mem {heard : Nat} (h : node.recoveredValue slots heard = some found) :
    ∃ slot ∈ slots, slot.entry = found.1 := by
  unfold recoveredValue at h
  split at h
  · cases h
  dsimp only at h
  split_ifs at h
  · obtain ⟨slot, hslot, rfl⟩ := Option.map_eq_some_iff.mp h
    exact ⟨slot, List.mem_of_mem_filter (List.mem_of_mem_head? hslot), rfl⟩
  · obtain ⟨slot, hslot, rfl⟩ := Option.map_eq_some_iff.mp h
    exact ⟨slot, List.mem_of_mem_filter (List.mem_of_find?_eq_some hslot), rfl⟩

theorem mem_gathered {reports : List SlotReport} {reported : ExtTreeMap Nat (List WindowSlot)}
    (hslots : (reports.foldl (fun reported report =>
      reported.insert report.index (reported[report.index]?.getD [] ++ [report.slot]))
      reported)[i]? = some slots)
    {slot : WindowSlot} (hslot : slot ∈ slots) :
    (∃ report ∈ reports, report.slot = slot) ∨
      ∃ (j : Nat) (before : List WindowSlot), reported[j]? = some before ∧ slot ∈ before := by
  induction reports generalizing reported with
  | nil => exact .inr ⟨i, slots, hslots, hslot⟩
  | cons report reports ih =>
    rcases ih hslots with ⟨r, hr, hrslot⟩ | ⟨j, before, hbefore, hmem⟩
    · exact .inl ⟨r, List.mem_cons_of_mem _ hr, hrslot⟩
    rw [getElem?_insert_if] at hbefore
    split_ifs at hbefore
    · obtain rfl := Option.some.inj hbefore
      rcases List.mem_append.mp hmem with hold | hnew
      · cases hreported : reported[report.index]? with
        | none => simp [hreported] at hold
        | some slots =>
          rw [hreported, Option.getD_some] at hold
          exact .inr ⟨_, slots, hreported, hold⟩
      · exact .inl ⟨report, List.mem_cons_self, (List.mem_singleton.mp hnew).symm⟩
    · exact .inr ⟨j, before, hbefore, hmem⟩

theorem mem_windowAbove {index : Nat} {report : SlotReport} (h : report ∈ node.windowAbove index) :
    node.window[report.index]? = some report.slot := by
  obtain ⟨held, hheld, rfl⟩ := List.mem_map.mp h
  exact ExtTreeMap.mem_toList_iff_getElem?_eq_some.mp (List.mem_filter.mp hheld).1

theorem planRecovery_decided (h : node.planRecovery.decided[i]? = some found) :
    ∃ slot : WindowSlot, slot.entry = found.1 ∧
      ((∃ index : Nat, node.window[index]? = some slot) ∨
        ∃ (voter : HostId) (reports : List SlotReport), node.reports[voter]? = some reports ∧
          ∃ report ∈ reports, report.slot = slot) := by
  have hdecided : node.planRecovery.decided = node.reportedAbove.filterMap (fun _ slots =>
      node.recoveredValue slots node.votes.length) := by
    unfold planRecovery
    dsimp only
  rw [hdecided, ExtTreeMap.getElem?_filterMap'] at h
  obtain ⟨slots, hslots, hvalue⟩ := Option.bind_eq_some_iff.mp h
  obtain ⟨slot, hslot, hentry⟩ := recoveredValue_mem hvalue
  refine ⟨slot, hentry, ?_⟩
  rcases mem_gathered hslots hslot with ⟨report, hreport, rfl⟩ | ⟨j, before, hbefore, -⟩
  · rcases List.mem_append.mp hreport with hown | hheard
    · exact .inl ⟨_, mem_windowAbove hown⟩
    · obtain ⟨reports, hreports, hmem⟩ := List.mem_flatten.mp (List.mem_of_mem_filter hheard)
      obtain ⟨voter, hvoter⟩ := (mem_values_iff _).mp hreports
      exact .inr ⟨voter, reports, hvoter, report, hmem, rfl⟩
  · rw [ExtTreeMap.getElem?_empty] at hbefore
    cases hbefore

end RaftNode

end Slates.Raft
