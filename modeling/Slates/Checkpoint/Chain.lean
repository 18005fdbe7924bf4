import Slates.Checkpoint.Publishing

/-!
The delta log as a chain of frames: each checks, names the checkpoint and carries the next
generation. Recovery walks the chain to its end; an append puts one more frame there.
-/

namespace Slates.Checkpoint

open Mem (u32Max u64Max)
open Merge (leBytes leNat leBytes_length leNat_leBytes)
open Spans
open Journal (logPrefix logPayload readRaw readFrame nextGeneration replay follow)

variable {I D : Type} {cd : Codec I D} {log log' : Bytes} {at_ base g : Nat} {p q : Bytes}

def logged (cd : Codec I D) (log : Bytes) (at_ : Nat) : Option Bytes :=
  framed cd log at_ (log.length - at_) logPrefix

def baseOf (p : Bytes) : Nat := leNat ((p.drop 8).take 8)

/-- What a frame says to a reader over checkpoint `base`. -/
def entry (base : Nat) (p : Bytes) : Option (Nat × Bytes × Nat) :=
  if baseOf p = base then some (genOf p, p.drop logPrefix, frameHeader + p.length) else none

theorem frameHeader_pos : 0 < frameHeader := by decide

theorem logged_bounds (h : logged cd log at_ = some p) :
    logPrefix ≤ p.length ∧ at_ + frameHeader + p.length ≤ log.length ∧
      p.length = leNat (span log at_ 4) := by
  obtain ⟨hl, hfit, -, -⟩ := framed_some h
  have hpos := frameHeader_pos
  have hlen := framed_length (by omega) h
  omega

theorem readRaw_eq : readRaw cd log at_ base = .ok ((logged cd log at_).bind (entry base)) := by
  have hno (h : ¬ (logPrefix ≤ leNat (span log at_ 4) ∧
      frameHeader + leNat (span log at_ 4) ≤ log.length - at_)) : logged cd log at_ = none :=
        if_neg h
  have hpos := frameHeader_pos
  unfold readRaw
  split
  · rw [hno (by omega)]
    rfl
  · rename_i hend
    rw [imageRead_ok (by omega)]
    simp only [← span_header_low, ← span_header_high]
    split
    · rw [hno (by omega)]
      rfl
    · rename_i hl
      split
      · rw [hno (by omega)]
        rfl
      · rename_i hfit
        rw [imageRead_ok (by omega), logged, framed_eq (by omega) (by omega)]
        have hlen : (span log (at_ + frameHeader) (leNat (span log at_ 4))).length =
            leNat (span log at_ 4) := length_span (by omega)
        by_cases hc : (cd.crc32c (span log (at_ + frameHeader) (leNat (span log at_ 4)))).toNat =
            leNat (span log (at_ + 4) 4)
        · simp only [hc, ne_eq, not_true_eq_false, if_false, if_true, Option.bind_some, entry,
            baseOf,
            genOf, hlen]
          by_cases hb :
            leNat (((span log (at_ + frameHeader) (leNat (span log at_ 4))).drop 8).take 8) =
              base
          · simp only [hb, not_true_eq_false, if_false, if_true]
          · simp only [hb, not_false_eq_true, if_true, if_false]
        · simp only [ne_eq, hc, not_false_eq_true, if_true, if_false, Option.bind_none]

theorem logged_of_span (h : logged cd log at_ = some p) (hlen : log'.length = log.length)
    (hs : span log' at_ (frameHeader + p.length) = span log at_ (frameHeader + p.length)) :
    logged cd log' at_ = some p := by
  obtain ⟨-, -, hp⟩ := logged_bounds h
  rw [← h, logged, logged, hlen]
  refine framed_congr (span_within hs (Nat.le_refl _) (by omega)) fun _ => ?_
  exact span_within hs (by omega) (by omega)

theorem leNat_lt (bytes : Bytes) : leNat bytes < 256 ^ bytes.length := by
  induction bytes with
  | nil => exact Nat.one_pos
  | cons b bytes ih =>
    have hb := b.toNat_lt
    rw [leNat, List.length_cons, pow_succ]
    omega

theorem genOf_le (p : Bytes) : genOf p ≤ u64Max := by
  have hlt := leNat_lt (p.take 8)
  have hpow : (256 : Nat) ^ (p.take 8).length ≤ 256 ^ 8 :=
    Nat.pow_le_pow_right (by decide) (List.length_take_le 8 p)
  rw [genOf]
  simp only [u64Max]
  omega

theorem nextGeneration_eq (hg : genOf p = g + 1) : nextGeneration g = g + 1 :=
  Nat.min_eq_left (hg ▸ genOf_le p)

/-- The frames to the tail take generation `g` to `n` and image `i` to `last`. -/
inductive Chain (cd : Codec I D) (log : Bytes) (base tail n : Nat) (last : I) :
    (at_ g : Nat) → (i : I) → Prop
  | nil : Chain cd log base tail n last tail n last
  | cons {at_ g : Nat} {i next : I} {p : Bytes} {delta : D} : logged cd log at_ = some p →
      baseOf p = base → genOf p = g + 1 → cd.decodeDelta (p.drop logPrefix) = some delta →
      cd.apply i delta = .ok next →
      Chain cd log base tail n last (at_ + (frameHeader + p.length)) (g + 1) next →
      Chain cd log base tail n last at_ g i

variable {tail n rounds : Nat} {last i next : I} {delta : D}

theorem entry_of {p : Bytes} (hp : logged cd log at_ = some p) (hb : baseOf p = base)
    (hg : genOf p = g + 1) : (logged cd log at_).bind (entry base) =
      some (g + 1, p.drop logPrefix, frameHeader + p.length) := by
  rw [hp, Option.bind_some, entry, if_pos hb, hg]

namespace Chain

section

variable (h : Chain cd log base tail n last at_ g i)

include h

theorem le : at_ ≤ tail ∧ g ≤ n := by
  induction h with
  | nil => exact ⟨Nat.le_refl _, Nat.le_refl _⟩
  | cons _ _ _ _ _ _ ih => omega

theorem of_span (hlen : log'.length = log.length)
    (hs : span log' 0 tail = span log 0 tail) : Chain cd log' base tail n last at_ g i := by
  induction h with
  | nil => exact nil
  | cons hp hb hg hd ha hrest ih =>
    have hle := hrest.le.1
    exact cons (logged_of_span hp hlen (span_within hs (by omega) (by omega))) hb hg hd ha ih

theorem snoc (hp : logged cd log tail = some p) (hb : baseOf p = base) (hg : genOf p = n + 1)
    (hd : cd.decodeDelta (p.drop logPrefix) = some delta) (ha : cd.apply last delta = .ok next) :
    Chain cd log base (tail + (frameHeader + p.length)) (n + 1) next at_ g i := by
  induction h with
  | nil => exact cons hp hb hg hd ha nil
  | cons hp' hb' hg' hd' ha' _ ih => exact cons hp' hb' hg' hd' ha' ih

theorem first (hlt : at_ < tail) :
    ∃ p, logged cd log at_ = some p ∧ at_ + (frameHeader + p.length) ≤ tail := by
  cases h with
  | nil => exact absurd hlt (Nat.lt_irrefl _)
  | cons hp _ _ _ _ hrest => exact ⟨_, hp, hrest.le.1⟩

theorem tail_le (hat : at_ ≤ log.length) : tail ≤ log.length := by
  induction h with
  | nil => exact hat
  | cons hp _ _ _ _ _ ih =>
    have hb := logged_bounds hp
    exact ih (by omega)

theorem replay_eq
    (hstop : (logged cd log tail).bind (entry base) = none) {j : Journal} (hr : tail - at_ < rounds)
    (ht : j.tail = at_) (hj : j.generation = g) :
    replay cd log base rounds i j = .ok (last, { j with
      generation := n
      tail := tail
      loggedBytes := j.loggedBytes + (tail - at_) }) := by
  induction h generalizing rounds j with
  | nil =>
    obtain ⟨rounds, rfl⟩ := Nat.exists_eq_succ_of_ne_zero (by omega : rounds ≠ 0)
    rw [replay, readFrame, ht, readRaw_eq, hstop, ← hj, ← ht]
    simp
  | @cons at_ g i next p delta hp hb hg hd ha hrest ih =>
    have hle := hrest.le.1
    have hpos := frameHeader_pos
    obtain ⟨rounds, rfl⟩ := Nat.exists_eq_succ_of_ne_zero (by omega : rounds ≠ 0)
    rw [replay, readFrame, ht, readRaw_eq, entry_of hp hb hg]
    simp only [hd, ha, hj, nextGeneration_eq hg, ne_eq, not_true_eq_false, if_false]
    rw [ih (by omega) rfl rfl]
    simp only [Except.ok.injEq, Prod.mk.injEq, true_and, Journal.mk.injEq]
    omega

theorem follow_eq
    (hstop : (logged cd log tail).bind (entry base) = none) (hr : tail - at_ < rounds) :
    follow cd log base rounds g at_ = n := by
  induction h generalizing rounds with
  | nil =>
    obtain ⟨rounds, rfl⟩ := Nat.exists_eq_succ_of_ne_zero (by omega : rounds ≠ 0)
    rw [follow, readRaw_eq, hstop]
  | @cons at_ g i next p delta hp hb hg hd ha hrest ih =>
    have hle := hrest.le.1
    have hpos := frameHeader_pos
    obtain ⟨rounds, rfl⟩ := Nat.exists_eq_succ_of_ne_zero (by omega : rounds ≠ 0)
    rw [follow, readRaw_eq, entry_of hp hb hg]
    simp only [nextGeneration_eq hg, ne_eq, not_true_eq_false, if_false]
    exact ih (by omega)

end

end Chain

/-! ## An append's writes -/

/-- No frame was ever begun here: its header is past the log's end, or too short. -/
def Unclaimed (log : Bytes) (at_ : Nat) : Prop :=
  at_ + frameHeader ≤ log.length → leNat (span log at_ 4) < logPrefix

theorem Unclaimed.logged (h : Unclaimed log at_) : logged cd log at_ = none := by
  by_cases hend : at_ + frameHeader ≤ log.length
  · exact framed_none (h hend)
  · have hpos := frameHeader_pos
    exact if_neg fun hb => absurd hb.2 (by omega)

theorem length_logWords (generation base : Nat) :
    (leBytes 8 generation ++ leBytes 8 base).length = logPrefix := by
  rw [List.length_append, leBytes_length, leBytes_length]
  rfl

theorem length_logPayload (generation base : Nat) (body : Bytes) :
    (logPayload generation base body).length = logPrefix + body.length := by
  simp only [logPayload, List.length_append, leBytes_length, logPrefix]

theorem logPayload_fields {generation : Nat} (body : Bytes) (hg : generation ≤ u64Max)
    (hb : base ≤ u64Max) : genOf (logPayload generation base body) = generation ∧
      baseOf (logPayload generation base body) = base ∧
      (logPayload generation base body).drop logPrefix = body := by
  have h8 (k : Nat) : (leBytes 8 k).length = 8 := leBytes_length 8 k
  simp only [u64Max] at hg hb
  refine ⟨?_, ?_, ?_⟩
  · rw [genOf, logPayload, List.append_assoc, List.take_left' (h8 _), leNat_leBytes]
    exact Nat.mod_eq_of_lt (by omega)
  · rw [baseOf, logPayload, List.append_assoc, List.drop_left' (h8 _), List.take_left' (h8 _),
      leNat_leBytes]
    exact Nat.mod_eq_of_lt (by omega)
  · rw [logPayload]
    exact List.drop_left' (by rw [List.length_append, h8, h8]; rfl)

/-- The writes of an append before its header. -/
def appendBody (j : Journal) (log : Bytes) (base : Nat) (body : Bytes) : List Write :=
  [⟨j.tail + frameHeader, leBytes 8 (j.generation + 1) ++ leBytes 8 base⟩,
      ⟨j.tail + frameHeader + logPrefix, body⟩] ++
    (if j.tail + (frameHeader + (logPayload (j.generation + 1) base body).length) + frameHeader ≤
        log.length
      then [⟨j.tail + (frameHeader + (logPayload (j.generation + 1) base body).length),
        List.replicate frameHeader 0⟩]
      else [])

def Journal.appended (j : Journal) (payload : Bytes) : Journal :=
  { j with
    generation := j.generation + 1
    tail := j.tail + (frameHeader + payload.length)
    loggedBytes := j.loggedBytes + (frameHeader + payload.length) }

variable {j : Journal} {c : CommittedSlot} {body : Bytes}

theorem append_cases (cd : Codec I D) (hc : j.committed = some c) (log : Bytes) (delta : D) :
    (∃ refusal, j.append cd log delta = ([], .error refusal)) ∨
      ∃ q, q = logPayload (j.generation + 1) c.generation (cd.encodeDelta delta) ∧
        j.append cd log delta = (appendBody j log c.generation (cd.encodeDelta delta) ++
          [⟨j.tail, headerOf cd q⟩], .ok (j.appended q)) ∧
        j.generation + 1 ≤ u64Max ∧ q.length ≤ u32Max ∧
        j.tail + (frameHeader + q.length) ≤ log.length := by
  simp only [Journal.append, hc]
  split
  · exact .inl ⟨_, rfl⟩
  · split
    · exact .inl ⟨_, rfl⟩
    · split
      · exact .inl ⟨_, rfl⟩
      · exact .inr ⟨_, rfl, by rw [Journal.appended, hc]; rfl, by omega, by omega, by omega⟩

theorem appendNext_inside (log : Bytes) (hq : q = logPayload (j.generation + 1) base body) :
    Inside (j.tail + frameHeader + logPrefix + body.length) log.length
    (if j.tail + (frameHeader + q.length) + frameHeader ≤ log.length
      then [⟨j.tail + (frameHeader + q.length), List.replicate frameHeader 0⟩] else []) := by
  have hlen := length_logPayload (j.generation + 1) base body
  rw [← hq] at hlen
  split
  · exact Inside.cons (by dsimp only; omega) (by dsimp only; rw [List.length_replicate]; omega)
      Inside.nil
  · exact Inside.nil

section

variable (hq : q = logPayload (j.generation + 1) base body)
  (hfit : j.tail + (frameHeader + q.length) ≤ log.length)

include hq hfit

theorem appendBody_inside :
    Inside (j.tail + frameHeader) log.length (appendBody j log base body) := by
  have hlen := length_logPayload (j.generation + 1) base body
  have hwords := length_logWords (j.generation + 1) base
  have hnext := appendNext_inside log hq
  rw [← hq] at hlen
  rw [appendBody, ← hq]
  exact Inside.append (Inside.cons (Nat.le_refl _) (by dsimp only; omega)
    (Inside.cons (by dsimp only; omega) (by dsimp only; omega) Inside.nil))
    (hnext.mono (by omega) (Nat.le_refl _))

theorem append_part (k : Nat) :
    (after log ((appendBody j log base body).take k)).length = log.length ∧
      span (after log ((appendBody j log base body).take k)) 0 (j.tail + frameHeader) =
        span log 0 (j.tail + frameHeader) := by
  obtain ⟨hlen, hout⟩ := after_inside ((appendBody_inside hq hfit).take k) (Nat.le_refl _)
  exact ⟨hlen, hout _ _ (.inl (by omega))⟩

theorem span_appendBody : span (after log (appendBody j log base body)) (j.tail + frameHeader)
    q.length = q := by
  have hlen := length_logPayload (j.generation + 1) base body
  have hwords := length_logWords (j.generation + 1) base
  have hnext := appendNext_inside log hq
  rw [← hq] at hlen
  have htwo := span_after_two (m := log) (o := j.tail + frameHeader)
    (a := leBytes 8 (j.generation + 1) ++ leBytes 8 base) (b := body) (by rw [hwords]; exact hnext)
    (Nat.le_refl _) (by omega)
  rw [hwords, ← hlen] at htwo
  rw [appendBody, ← hq]
  exact htwo.trans hq.symm

theorem appendBody_next : Unclaimed (after log (appendBody j log base body))
    (j.tail + (frameHeader + q.length)) := by
  intro hroom
  have hall := appendBody_inside hq hfit
  have hlen := (after_inside hall (Nat.le_refl _)).1
  have hinside := hall
  rw [appendBody, ← hq, if_pos (by omega)] at hinside ⊢
  have hback := span_after_last
    (w := ⟨j.tail + (frameHeader + q.length), List.replicate frameHeader 0⟩)
    (fun w hw => hinside w (List.mem_append_left _ hw)) (Nat.le_refl _)
    (by dsimp only; rw [List.length_replicate]; omega)
  rw [List.length_replicate] at hback
  exact lt_of_eq_of_lt (span_zero_header hback) (by decide)

theorem append_whole (hsmall : q.length ≤ u32Max) {writes : List Write}
    (hw : writes = appendBody j log base body ++ [⟨j.tail, headerOf cd q⟩]) :
    (after log writes).length = log.length ∧
      span (after log writes) 0 j.tail = span log 0 j.tail ∧
      span (after log writes) j.tail frameHeader = headerOf cd q ∧
      logged cd (after log writes) j.tail = some q ∧
      Unclaimed (after log writes) (j.tail + (frameHeader + q.length)) := by
  have hall := appendBody_inside hq hfit
  have hlenh := length_headerOf cd q
  obtain ⟨hlen, hout⟩ := after_inside hall (Nat.le_refl _)
  have hlast : Inside j.tail (j.tail + frameHeader) [⟨j.tail, headerOf cd q⟩] :=
    Inside.cons (Nat.le_refl _) (by dsimp only; omega) Inside.nil
  obtain ⟨hlen', hout'⟩ :=
    after_inside (m := after log (appendBody j log base body)) hlast (by omega)
  rw [hw, after_append hall (Nat.le_refl _)]
  have hhead :
      span (after (after log (appendBody j log base body)) [⟨j.tail, headerOf cd q⟩]) j.tail
      frameHeader = headerOf cd q := by
    have hback := span_after_last (m := log) (w := ⟨j.tail, headerOf cd q⟩) hall (Nat.le_refl _)
      (by dsimp only; omega)
    rw [hlenh, after_append hall (Nat.le_refl _)] at hback
    exact hback
  refine ⟨hlen'.trans hlen, ?_, hhead, ?_, ?_⟩
  · rw [hout' _ _ (.inl (by omega)), hout _ _ (.inl (by omega))]
  · refine framed_whole hsmall ?_ (by omega) hhead ?_
    · rw [hq, length_logPayload]
      omega
    · rw [hout' _ _ (.inr (Nat.le_refl _))]
      exact span_appendBody hq hfit
  · intro hroom
    rw [hout' _ _ (.inr (by omega))]
    exact appendBody_next hq hfit (by omega)

end

end Slates.Checkpoint
