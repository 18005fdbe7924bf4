import Slates.Library.Runs
import Slates.Checkpoint.Chain

/-!
A publisher's life: publications that return, streams given up, and crashes after any write, each
followed by a restart.
-/

namespace Slates.Checkpoint

open Content (VfsError)
open Mem (u32Max u64Max)
open Merge (leBytes leNat leBytes_length leNat_leBytes)
open Spans Runs
open Journal (logPayload restarted recover committedGeneration)

variable {I D : Type}

inductive Publication (I D : Type)
  | checkpoint (image : I)
  | streamed (image : I) (cuts : List Nat)
  | append (delta : D)

/-- The two memories, the publisher's journal, and the image of its last publication. `first` is the
frame whose header was last written at the log's start. -/
structure World (I : Type) where
  slots : Bytes
  log : Bytes
  journal : Journal
  image : Option I
  first : Option Bytes

namespace World

/-- Zeroed memories of the given sizes, nothing published. -/
def fresh (slots log : Nat) : World I :=
  ⟨List.replicate slots 0, List.replicate log 0, .empty, none, none⟩

/-- The writes of a publication and what the call returns. -/
def attempt (cd : Codec I D) (w : World I) : Publication I D → List Write × Except VfsError Journal
  | .checkpoint image => w.journal.checkpoint cd w.slots image
  | .streamed image cuts => w.journal.streamCheckpoint cd w.slots image cuts
  | .append delta => w.journal.append cd w.log delta

def appendFrame (cd : Codec I D) (w : World I) (delta : D) : Option Bytes :=
  w.journal.committed.map fun c =>
    logPayload (w.journal.generation + 1) c.generation (cd.encodeDelta delta)

/-- The frame a checkpoint writes, and where. -/
def checkpointFrame (cd : Codec I D) (w : World I) (image : I) : Option (Nat × Bytes) :=
  match w.journal.nextCheckpoint cd w.slots with
  | .ok c => some ((slotOf w.slots.length c.second).offset,
      slotPayload c.generation (cd.encodeImage image))
  | .error _ => none

/-- The memories after the first `k` writes of a publication. -/
def written (cd : Codec I D) (w : World I) (p : Publication I D) (k : Nat) : World I :=
  let writes := (w.attempt cd p).1
  match p with
  | .append delta => { w with
      log := after w.log (writes.take k)
      first := if w.journal.tail = 0 ∧ writes ≠ [] ∧ writes.length ≤ k then w.appendFrame cd delta
        else w.first }
  | _ => { w with slots := after w.slots (writes.take k) }

/-- The image as of a publication. -/
def published (cd : Codec I D) (w : World I) : Publication I D → Option I
  | .checkpoint image => some image
  | .streamed image _ => some image
  | .append delta => w.image.bind fun image => (cd.apply image delta).toOption

/-- A restart: the journal and the image recovered from the memories. -/
def restart (cd : Codec I D) (w : World I) : World I :=
  match recover cd w.slots w.log with
  | .ok (image, j) => { w with journal := j, image := image }
  | .error _ => w

/-- A publication that returns, a stream dropped after some of its writes, or a crash after the
first `k` writes of a publication and the restart. -/
inductive Turn (I D : Type)
  | publish (p : Publication I D)
  | abandon (image : I) (cuts : List Nat) (k : Nat)
  | crash (p : Publication I D) (k : Nat)

def step (cd : Codec I D) (w : World I) : Turn I D → World I
  | .publish p =>
    let (writes, outcome) := w.attempt cd p
    match outcome with
    | .ok j => { w.written cd p writes.length with journal := j, image := w.published cd p }
    | .error _ => w.written cd p writes.length
  | .abandon image cuts k =>
    w.written cd (.streamed image cuts)
      (min k ((w.attempt cd (.streamed image cuts)).1.length - 1))
  | .crash p k => (w.written cd p k).restart cd

/-- A delta published is one over the image published before it. -/
def Applies (cd : Codec I D) (w : World I) : Publication I D → Prop
  | .append delta => ∀ image ∈ w.image, (cd.apply image delta).isOk
  | _ => True

instance (cd : Codec I D) (w : World I) : (p : Publication I D) → Decidable (w.Applies cd p)
  | .append delta =>
    inferInstanceAs (Decidable (∀ image ∈ w.image, (cd.apply image delta).isOk = true))
  | .checkpoint _ => .isTrue trivial
  | .streamed _ _ => .isTrue trivial

/-- Under the header a crash leaves, the checksum accepts only the bytes of that header's frame. -/
def Checked (cd : Codec I D) (w : World I) (p : Publication I D) (k : Nat) : Prop :=
  match p with
  | .checkpoint image =>
    ∀ f ∈ w.checkpointFrame cd image, OnlyWhole cd (w.written cd p k).slots f.1 f.2
  | .streamed _ _ => True
  | .append _ => ∀ q ∈ (w.written cd p k).first, OnlyWhole cd (w.written cd p k).log 0 q

instance (cd : Codec I D) (w : World I) : (p : Publication I D) → (k : Nat) →
    Decidable (w.Checked cd p k)
  | .checkpoint image, k => inferInstanceAs (Decidable (∀ f ∈ w.checkpointFrame cd image,
      OnlyWhole cd (w.written cd (.checkpoint image) k).slots f.1 f.2))
  | .streamed _ _, _ => .isTrue trivial
  | .append delta, k => inferInstanceAs (Decidable (∀ q ∈ (w.written cd (.append delta) k).first,
      OnlyWhole cd (w.written cd (.append delta) k).log 0 q))

def Trusted (cd : Codec I D) (w : World I) : Turn I D → Prop
  | .publish p => w.Applies cd p
  | .abandon _ _ _ => True
  | .crash p k => w.Applies cd p ∧ w.Checked cd p k

instance (cd : Codec I D) (w : World I) : (turn : Turn I D) → Decidable (w.Trusted cd turn)
  | .publish p => inferInstanceAs (Decidable (w.Applies cd p))
  | .abandon _ _ _ => .isTrue trivial
  | .crash p k => inferInstanceAs (Decidable (w.Applies cd p ∧ w.Checked cd p k))

/-! ## Between publications -/

/-- A checkpoint stands and the log's chain leads from it to the image. -/
structure Resting (cd : Codec I D) (w : World I) (c : CommittedSlot) : Prop where
  image : ∃ base image, w.image = some image ∧
    accepted cd w.slots c.second = some (slotPayload c.generation (cd.encodeImage base)) ∧
    Chain cd w.log c.generation w.journal.tail w.journal.generation image 0 c.generation base
  room : c.generation ≤ u64Max
  other : ∀ q, accepted cd w.slots (!c.second) = some q → genOf q < c.generation
  base : ∀ q, w.first = some q → baseOf q ≤ c.generation
  stale : w.journal.tail = 0 → ∀ q, w.first = some q → baseOf q ≠ c.generation
  tail : 0 < w.journal.tail → Unclaimed w.log w.journal.tail

structure Blank (cd : Codec I D) (w : World I) : Prop where
  journal : w.journal = .empty
  image : w.image = none
  slots : ∀ second, accepted cd w.slots second = none
  first : w.first = none

/-- What ties memories, journal and image together between publications. -/
structure Settled (cd : Codec I D) (w : World I) : Prop where
  unclaimed : w.first = none → Unclaimed w.log 0
  header : ∀ q, w.first = some q → q.length ≤ u32Max ∧ span w.log 0 frameHeader = headerOf cd q
  start : ∀ q, logged cd w.log 0 = some q → w.first = some q
  state : (w.journal.committed = none ∧ Blank cd w) ∨
    ∃ c, w.journal.committed = some c ∧ Resting cd w c

variable {cd : Codec I D} {w : World I} {c : CommittedSlot}

theorem Resting.stop (h : Settled cd w) (hr : Resting cd w c) :
    (logged cd w.log w.journal.tail).bind (entry c.generation) = none := by
  rcases Nat.eq_zero_or_pos w.journal.tail with h0 | hpos
  · rw [h0]
    rcases hl : logged cd w.log 0 with _ | q
    · rfl
    · rw [Option.bind_some, entry, if_neg (hr.stale h0 q (h.start q hl))]
  · rw [(hr.tail hpos).logged]
    rfl

theorem Settled.journal (h : Settled cd w) (hc : w.journal.committed = some c) {j : Journal}
    (hj : j.committed = some c) (hg : j.generation = w.journal.generation)
    (ht : j.tail = w.journal.tail) : Settled cd { w with journal := j } :=
  { h with
    state := by
      obtain ⟨hn, -⟩ | ⟨c', hc', hr⟩ := h.state
      · cases hn.symm.trans hc
      · cases hc'.symm.trans hc
        refine .inr ⟨c, hj, ?_, hr.room, hr.other, hr.base, ?_, ?_⟩
        · rw [hg, ht]
          exact hr.image
        · rw [ht]
          exact hr.stale
        · rw [ht]
          exact hr.tail }

/-- **Recovery from settled memories** gives the image, and a journal at its place. -/
theorem Settled.recovers (h : Settled cd w) :
    ∃ j, recover cd w.slots w.log = .ok (w.image, j) ∧ j.generation = w.journal.generation ∧
      committedGeneration cd w.slots w.log = j.generation ∧ Settled cd { w with journal := j } := by
  rcases h.state with ⟨-, hb⟩ | ⟨c, hc, hr⟩
  · obtain ⟨hrec, hcom⟩ := recoverCommitted_none hb.slots
    refine ⟨w.journal, ?_, rfl, ?_, h⟩
    · rw [recover, readCommitted, hrec, hb.image, hb.journal]
    · rw [committedGeneration, hcom, hb.journal]
      rfl
  · obtain ⟨base, image, himage, hacc, hchain⟩ := hr.image
    have hgen := genOf_slotPayload (cd.encodeImage base) hr.room
    obtain ⟨hrec, hcom⟩ := recoverCommitted_some hacc (by rw [hgen]; exact hr.other)
    have hstop := Resting.stop h hr
    have htail := hchain.tail_le (Nat.zero_le _)
    have hdrop : (slotPayload c.generation (cd.encodeImage base)).drop slotGenWidth =
        cd.encodeImage base := List.drop_left' (leBytes_length _ _)
    rw [hgen] at hrec hcom
    refine ⟨{ restarted c 0 with
      generation := w.journal.generation
      tail := w.journal.tail
      loggedBytes := (restarted c 0).loggedBytes + (w.journal.tail - 0) }, ?_, rfl, ?_,
      h.journal hc rfl rfl rfl⟩
    · rw [recover, readCommitted, hrec]
      simp only [hdrop, cd.decode_encodeImage]
      rw [hchain.replay_eq hstop (by omega) rfl rfl, himage]
    · rw [committedGeneration, hcom]
      exact hchain.follow_eq hstop (by omega)

/-! ## Checkpoints -/

theorem nextCheckpoint_resting (hc : w.journal.committed = some c) (hr : Resting cd w c)
    {next : CommittedSlot} (h : w.journal.nextCheckpoint cd w.slots = .ok next) :
    next = ⟨w.journal.generation + 1, !c.second⟩ ∧ w.journal.generation + 1 ≤ u64Max ∧
      c.generation ≤ w.journal.generation := by
  obtain ⟨base, image, -, -, hchain⟩ := hr.image
  have hle := hchain.le.2
  have hmax : max w.journal.generation c.generation = w.journal.generation := Nat.max_eq_left hle
  simp only [Journal.nextCheckpoint, Journal.committedNow, hc, CommittedSlot.advancedTo,
    Option.map_some, Option.getD_some, hmax] at h
  split at h
  · rename_i hroom
    cases h
    exact ⟨rfl, hroom, hle⟩
  · cases h

theorem nextCheckpoint_blank (hb : Blank cd w) {next : CommittedSlot}
    (h : w.journal.nextCheckpoint cd w.slots = .ok next) : next = ⟨1, false⟩ := by
  have hcom := (recoverCommitted_none hb.slots).2
  simp only [Journal.nextCheckpoint, Journal.committedNow, hb.journal, Journal.empty, hcom,
    Option.map_none, Option.getD_none] at h
  split at h
  · cases h
    rfl
  · cases h

section

variable {next : CommittedSlot} {slots q : Bytes}

theorem Settled.unfinished (h : Settled cd w)
    (hnext : w.journal.nextCheckpoint cd w.slots = .ok next)
    (hp : InProgress cd w.slots slots next.second q)
    (hf : slots = w.slots ∨ accepted cd slots next.second = none) :
    Settled cd { w with slots := slots } := by
  rcases hf with rfl | hnone
  · exact h
  refine ⟨h.unclaimed, h.header, h.start, ?_⟩
  rcases h.state with ⟨hn, hb⟩ | ⟨c, hc, hr⟩
  · refine .inl ⟨hn, hb.journal, hb.image, ?_, hb.first⟩
    rw [nextCheckpoint_blank hb hnext] at hp hnone
    intro second
    cases second
    · exact hnone
    · exact hp.other.trans (hb.slots true)
  · obtain ⟨rfl, -, -⟩ := nextCheckpoint_resting hc hr hnext
    have hother := hp.other
    simp only [Bool.not_not] at hother
    refine .inr ⟨c, hc, ?_, hr.room, ?_, hr.base, hr.stale, hr.tail⟩
    · dsimp only
      rw [hother]
      exact hr.image
    · intro q' hq'
      cases hnone.symm.trans hq'

theorem Settled.finished (h : Settled cd w)
    (hnext : w.journal.nextCheckpoint cd w.slots = .ok next) {image : I} (total : Nat)
    (hp : InProgress cd w.slots slots next.second
      (slotPayload next.generation (cd.encodeImage image)))
    (hf : accepted cd slots next.second =
      some (slotPayload next.generation (cd.encodeImage image))) :
    Settled cd { w with
      slots := slots
      journal := restarted next total
      image := some image } := by
  refine ⟨h.unclaimed, h.header, h.start, .inr ⟨next, rfl, ?_⟩⟩
  rcases h.state with ⟨hn, hb⟩ | ⟨c, hc, hr⟩
  · have hnone : ∀ q, w.first = some q → False := fun q hq => by cases hb.first.symm.trans hq
    refine ⟨⟨image, image, rfl, hf, Chain.nil⟩, ?_, ?_, fun q hq => (hnone q hq).elim,
      fun _ q hq => (hnone q hq).elim, fun hpos => absurd hpos (Nat.lt_irrefl 0)⟩
    · rw [nextCheckpoint_blank hb hnext]
      decide
    · intro q hq
      cases (hp.other.trans (hb.slots _)).symm.trans hq
  · obtain ⟨rfl, hroom, hle⟩ := nextCheckpoint_resting hc hr hnext
    obtain ⟨base, -, -, hacc, -⟩ := hr.image
    have hother := hp.other
    simp only [Bool.not_not] at hother
    refine ⟨⟨image, image, rfl, hf, Chain.nil⟩, hroom, ?_, ?_, ?_,
      fun hpos => absurd hpos (Nat.lt_irrefl 0)⟩
    · intro q hq
      simp only [Bool.not_not] at hq
      cases (hother.trans hacc).symm.trans hq
      rw [genOf_slotPayload _ hr.room]
      exact Nat.lt_succ_of_le hle
    · intro q hq
      exact (hr.base q hq).trans (Nat.le_succ_of_le hle)
    · intro _ q hq
      exact Nat.ne_of_lt (Nat.lt_succ_of_le ((hr.base q hq).trans hle))

end

def Either (cd : Codec I D) (w : World I) (p : Publication I D) (k : Nat) : Prop :=
  Settled cd (w.written cd p k) ∨ ∃ j, (w.attempt cd p).2 = .ok j ∧
    Settled cd { w.written cd p k with journal := j, image := w.published cd p }

def Returned (cd : Codec I D) (w : World I) (p : Publication I D) : Prop :=
  match (w.attempt cd p).2 with
  | .ok j => Settled cd { w.written cd p (w.attempt cd p).1.length with
      journal := j
      image := w.published cd p }
  | .error _ => Settled cd (w.written cd p (w.attempt cd p).1.length)

variable {p : Publication I D}

theorem Settled.refused (h : Settled cd w) {e : VfsError} (ha : w.attempt cd p = ([], .error e)) :
    (∀ k, Either cd w p k) ∧ Returned cd w p := by
  have hsame (k : Nat) : w.written cd p k = w := by
    cases p <;> simp [written, ha]
  constructor
  · intro k
    rw [Either, hsame]
    exact .inl h
  · simp only [Returned, hsame, ha]
    exact h

theorem Settled.checkpoint (h : Settled cd w) (image : I) :
    (∀ k, w.Checked cd (.checkpoint image) k → Either cd w (.checkpoint image) k) ∧
      Returned cd w (.checkpoint image) := by
  rcases hnext : w.journal.nextCheckpoint cd w.slots with refusal | next
  · have hr := h.refused (p := .checkpoint image) (e := refusal)
      (by simp only [attempt, Journal.checkpoint, hnext])
    exact ⟨fun k _ => hr.1 k, hr.2⟩
  rcases hf : frame cd next.generation (cd.encodeImage image)
    (slotOf w.slots.length next.second) with
    refusal | ⟨writes, total⟩
  · have hr := h.refused (p := .checkpoint image) (e := refusal)
      (by simp only [attempt, Journal.checkpoint, hnext, hf])
    exact ⟨fun k _ => hr.1 k, hr.2⟩
  have ha : w.attempt cd (.checkpoint image) = (writes, .ok (restarted next total)) := by
    simp only [attempt, Journal.checkpoint, hnext, hf]
  have hw (k : Nat) : w.written cd (.checkpoint image) k =
      { w with slots := after w.slots (writes.take k) } := by simp only [written, ha]
  obtain ⟨hpart, hall, hacc⟩ := frame_spec rfl hf
  constructor
  · intro k hk
    simp only [Checked, checkpointFrame, hnext, Option.mem_some_iff, forall_eq', hw] at hk
    have hp := hpart k hk
    rw [Either, hw, ha]
    rcases hp.frame with hsame | hnone | hsome
    · exact .inl (h.unfinished hnext hp (.inl hsame))
    · exact .inl (h.unfinished hnext hp (.inr hnone))
    · exact .inr ⟨_, rfl, h.finished hnext total hp hsome⟩
  · simp only [Returned, ha, hw, List.take_length]
    exact h.finished hnext total hall hacc

theorem flatten_cut (cuts : List Nat) (bytes : Bytes) :
    (Journal.cut cuts bytes).flatten = bytes := by
  induction cuts generalizing bytes with
  | nil => simp [Journal.cut]
  | cons n cuts ih => rw [Journal.cut, List.flatten_cons, ih, List.take_append_drop]

theorem Settled.streamed (h : Settled cd w) (image : I) (cuts : List Nat) :
    (∀ k, Either cd w (.streamed image cuts) k) ∧ Returned cd w (.streamed image cuts) ∧
      ∀ k, k < (w.attempt cd (.streamed image cuts)).1.length →
        Settled cd (w.written cd (.streamed image cuts) k) := by
  rcases hnext : w.journal.nextCheckpoint cd w.slots with refusal | next
  · have ha : w.attempt cd (.streamed image cuts) = ([], .error refusal) := by
      simp only [attempt, Journal.streamCheckpoint, hnext]
    have hr := h.refused ha
    refine ⟨hr.1, hr.2, fun k hk => ?_⟩
    rw [ha] at hk
    exact absurd hk (Nat.not_lt_zero k)
  rcases hf : stream cd next.generation (Journal.cut cuts (cd.encodeImage image))
    (slotOf w.slots.length next.second) with ⟨writes, outcome⟩
  have hfirst : (w.attempt cd (.streamed image cuts)).1 = writes := by
    simp only [attempt, Journal.streamCheckpoint, hnext, hf]
    cases outcome <;> rfl
  have hw (k : Nat) : w.written cd (.streamed image cuts) k =
      { w with slots := after w.slots (writes.take k) } := by simp only [written, hfirst]
  obtain ⟨hpart, hall, hok, herr⟩ := stream_spec rfl hf
  rw [flatten_cut] at hpart hall hok
  have hshort (k : Nat) (hk : k < writes.length) :
      Settled cd (w.written cd (.streamed image cuts) k) := by
    rw [hw]
    exact h.unfinished hnext (hpart k hk).1 (hpart k hk).2
  have hlong (k : Nat) (hk : writes.length ≤ k) : w.written cd (.streamed image cuts) k =
      { w with slots := after w.slots writes } := by rw [hw, List.take_of_length_le hk]
  rw [hfirst]
  rcases outcome with refusal | total
  · have ha : w.attempt cd (.streamed image cuts) = (writes, .error refusal) := by
      simp only [attempt, Journal.streamCheckpoint, hnext, hf]
    have hend := h.unfinished hnext hall (herr refusal rfl)
    refine ⟨fun k => .inl ?_, ?_, hshort⟩
    · rcases Nat.lt_or_ge k writes.length with hk | hk
      · exact hshort k hk
      · rw [hlong k hk]
        exact hend
    · simp only [Returned, ha, hlong _ (Nat.le_refl _)]
      exact hend
  · have ha : w.attempt cd (.streamed image cuts) = (writes, .ok (restarted next total)) := by
      simp only [attempt, Journal.streamCheckpoint, hnext, hf]
    have hend := h.finished hnext total hall (hok total rfl)
    refine ⟨fun k => ?_, ?_, hshort⟩
    · rcases Nat.lt_or_ge k writes.length with hk | hk
      · exact .inl (hshort k hk)
      · rw [Either, ha, hlong k hk]
        exact .inr ⟨_, rfl, hend⟩
    · simp only [Returned, ha, hlong _ (Nat.le_refl _)]
      exact hend

/-! ## Appends -/

section

variable {log q : Bytes} {delta : D}

theorem Settled.appending (h : Settled cd w) (hlen : log.length = w.log.length)
    (hs : span log 0 (w.journal.tail + frameHeader) = span w.log 0 (w.journal.tail + frameHeader))
    (hw : ∀ q, w.first = some q → OnlyWhole cd log 0 q) : Settled cd { w with log := log } := by
  have hhead : span log 0 frameHeader = span w.log 0 frameHeader :=
    span_within hs (Nat.le_refl _) (by omega)
  have hunclaimed (at_ : Nat) (hat : at_ ≤ w.journal.tail) (hu : Unclaimed w.log at_) :
      Unclaimed log at_ := by
    intro hroom
    have h4 : (4 : Nat) ≤ frameHeader := by decide
    rw [span_within hs (Nat.zero_le _) (by omega)]
    exact hu (by omega)
  refine ⟨fun hn => hunclaimed 0 (Nat.zero_le _) (h.unclaimed hn), ?_, ?_, ?_⟩
  · intro q hq
    exact ⟨(h.header q hq).1, hhead.trans (h.header q hq).2⟩
  · intro p hp
    rcases hq : w.first with _ | q
    · cases (hunclaimed 0 (Nat.zero_le _) (h.unclaimed hq)).logged.symm.trans hp
    · obtain ⟨hsmall, hh⟩ := h.header q hq
      rcases framed_header hsmall (hhead.trans hh) (hw q hq) with hnone | hsome
      · cases hnone.symm.trans hp
      · exact hsome.symm.trans hp
  · refine h.state.imp (fun ⟨hn, hb⟩ => ⟨hn, hb.journal, hb.image, hb.slots, hb.first⟩) ?_
    rintro ⟨c, hc, hr⟩
    obtain ⟨base, image, himage, hacc, hchain⟩ := hr.image
    exact ⟨c, hc, ⟨base, image, himage, hacc,
      hchain.of_span hlen (span_within hs (Nat.le_refl _) (by omega))⟩, hr.room, hr.other, hr.base,
      hr.stale, fun hpos => hunclaimed _ (Nat.le_refl _) (hr.tail hpos)⟩

theorem Settled.appended (h : Settled cd w) (hc : w.journal.committed = some c)
    (hq : q = logPayload (w.journal.generation + 1) c.generation (cd.encodeDelta delta))
    (hsmall : q.length ≤ u32Max) (hgen : w.journal.generation + 1 ≤ u64Max)
    (hlen : log.length = w.log.length)
    (hs : span log 0 w.journal.tail = span w.log 0 w.journal.tail)
    (hhead : span log w.journal.tail frameHeader = headerOf cd q)
    (hlog : logged cd log w.journal.tail = some q)
    (hu : Unclaimed log (w.journal.tail + (frameHeader + q.length)))
    (happ : w.Applies cd (.append delta)) :
    Settled cd { w with
      log := log
      first := if w.journal.tail = 0 then some q else w.first
      journal := w.journal.appended q
      image := w.published cd (.append delta) } := by
  obtain ⟨hn, -⟩ | ⟨c', hc', hr⟩ := h.state
  · cases hn.symm.trans hc
  cases hc'.symm.trans hc
  obtain ⟨base, image, himage, hacc, hchain⟩ := hr.image
  obtain ⟨hg, hb, hbody⟩ := logPayload_fields (cd.encodeDelta delta) hgen hr.room
  rw [← hq] at hg hb hbody
  -- past the log's start, the frame there is the chain's first and is not written over
  have hfirst (hpos : 0 < w.journal.tail) : ∃ p, logged cd log 0 = some p ∧ w.first = some p ∧
      span log 0 frameHeader = span w.log 0 frameHeader := by
    obtain ⟨p, hp, hle⟩ := hchain.first hpos
    exact ⟨p, logged_of_span hp hlen (span_within hs (Nat.le_refl _) (by omega)), h.start p hp,
      span_within hs (Nat.le_refl _) (by omega)⟩
  have happly : ∃ next, cd.apply image delta = .ok next := by
    have hok := happ image himage
    rcases hres : cd.apply image delta with e | next
    · rw [hres] at hok
      cases hok
    · exact ⟨next, rfl⟩
  obtain ⟨next, hnext⟩ := happly
  have hpub : w.published cd (.append delta) = some next := by
    rw [published, himage, Option.bind_some, hnext]
    rfl
  have hpos := frameHeader_pos
  refine ⟨?_, ?_, ?_, .inr ⟨c, hc, ⟨base, next, hpub, hacc, ?_⟩, hr.room, hr.other, ?_, ?_, ?_⟩⟩
  · rcases Nat.eq_zero_or_pos w.journal.tail with h0 | h0
    · rw [if_pos h0]
      rintro ⟨⟩
    · obtain ⟨p, -, hp, -⟩ := hfirst h0
      rw [if_neg (by omega), hp]
      rintro ⟨⟩
  · rcases Nat.eq_zero_or_pos w.journal.tail with h0 | h0
    · rw [if_pos h0]
      rintro _ ⟨⟩
      rw [h0] at hhead
      exact ⟨hsmall, hhead⟩
    · obtain ⟨p, -, -, hsame⟩ := hfirst h0
      rw [if_neg (by omega)]
      exact fun p' hp' => ⟨(h.header p' hp').1, hsame.trans (h.header p' hp').2⟩
  · rcases Nat.eq_zero_or_pos w.journal.tail with h0 | h0
    · rw [if_pos h0]
      rw [h0] at hlog
      exact fun p hp => hlog.symm.trans hp
    · obtain ⟨p, hl, hp, -⟩ := hfirst h0
      rw [if_neg (by omega), hp]
      exact fun p' hp' => hl.symm.trans hp'
  · exact (hchain.of_span hlen hs).snoc hlog hb hg
      (by rw [hbody]; exact cd.decode_encodeDelta delta)
      hnext
  · dsimp only
    split
    · rintro _ ⟨⟩
      exact hb.le
    · exact hr.base
  · intro h0
    simp only [Journal.appended] at h0
    omega
  · exact fun _ => hu

end

theorem Settled.append (h : Settled cd w) (delta : D) (happ : w.Applies cd (.append delta)) :
    (∀ k, w.Checked cd (.append delta) k → Either cd w (.append delta) k) ∧
      Returned cd w (.append delta) := by
  rcases hc : w.journal.committed with _ | c
  · have hr := h.refused (p := .append delta) (e := .recoveryIncomplete)
      (by simp only [attempt, Journal.append, hc])
    exact ⟨fun k _ => hr.1 k, hr.2⟩
  obtain ⟨e, he⟩ | ⟨q, hq, ha, hgen, hsmall, hfit⟩ := append_cases cd hc w.log delta
  · have hr := h.refused (p := .append delta) he
    exact ⟨fun k _ => hr.1 k, hr.2⟩
  set body := appendBody w.journal w.log c.generation (cd.encodeDelta delta)
  obtain ⟨writes, hwrites⟩ :
      ∃ writes, writes = body ++ [⟨w.journal.tail, headerOf cd q⟩] := ⟨_, rfl⟩
  have ha' : w.attempt cd (.append delta) = (writes, .ok (w.journal.appended q)) := by
    rw [hwrites]
    exact ha
  have hcount : writes.length = body.length + 1 := by
    rw [hwrites, List.length_append, List.length_singleton]
  have hne : writes ≠ [] := List.ne_nil_of_length_eq_add_one hcount
  have hframe : w.appendFrame cd delta = some q := by rw [appendFrame, hc, Option.map_some, hq]
  obtain ⟨hlen, hs, hhead, hlog, hu⟩ := append_whole hq hfit hsmall hwrites
  have hdone := h.appended hc hq hsmall hgen hlen hs hhead hlog hu happ
  have hlong (k : Nat) (hk : writes.length ≤ k) : w.written cd (.append delta) k = { w with
      log := after w.log writes
      first := if w.journal.tail = 0 then some q else w.first } := by
    simp only [written, ha', List.take_of_length_le hk, hframe]
    congr 1
    exact if_congr (by simp [hne, hk]) rfl rfl
  constructor
  · intro k hk
    rcases Nat.lt_or_ge k writes.length with hlt | hge
    · have hshort :
          w.written cd (.append delta) k = { w with log := after w.log (body.take k) } := by
        simp only [written, ha']
        rw [if_neg (by omega), hwrites, List.take_append_of_le_length (by omega)]
      obtain ⟨hlen', hs'⟩ := append_part hq hfit k
      simp only [Checked, hshort] at hk
      refine .inl ?_
      rw [hshort]
      exact h.appending hlen' hs' hk
    · rw [Either, ha', hlong k hge]
      exact .inr ⟨_, rfl, hdone⟩
  · simp only [Returned, ha', hlong _ (Nat.le_refl _)]
    exact hdone

/-! ## Runs -/

theorem Settled.either (h : Settled cd w) {k : Nat} (ht : w.Trusted cd (.crash p k)) :
    Either cd w p k :=
  match p, ht with
  | .checkpoint image, ht => (h.checkpoint image).1 k ht.2
  | .streamed image cuts, _ => (h.streamed image cuts).1 k
  | .append delta, ht => (h.append delta ht.1).1 k ht.2

theorem Settled.returned (h : Settled cd w) (ha : w.Applies cd p) : Returned cd w p :=
  match p, ha with
  | .checkpoint image, _ => (h.checkpoint image).2
  | .streamed image cuts, _ => (h.streamed image cuts).2.1
  | .append delta, ha => (h.append delta ha).2

theorem Settled.restart (h : Settled cd w) (j : Journal) (image : Option I) :
    Settled cd (World.restart cd { w with journal := j, image := image }) := by
  obtain ⟨j', hrec, -, -, hs⟩ := h.recovers
  simp only [World.restart, hrec]
  exact hs

theorem Settled.step (h : Settled cd w) {turn : Turn I D} (ht : w.Trusted cd turn) :
    Settled cd (w.step cd turn) := by
  cases turn with
  | publish p =>
    have hr := h.returned ht
    rcases ha : w.attempt cd p with ⟨writes, refusal | j⟩
    · simp only [Returned, ha] at hr
      simp only [World.step, ha]
      exact hr
    · simp only [Returned, ha] at hr
      simp only [World.step, ha]
      exact hr
  | abandon image cuts k =>
    rcases Nat.eq_zero_or_pos (w.attempt cd (.streamed image cuts)).1.length with h0 | hpos
    · have hnil := List.eq_nil_of_length_eq_zero h0
      have hsame : w.step cd (.abandon image cuts k) = w := by
        simp only [World.step, written, hnil, List.take_nil, after_nil]
      rw [hsame]
      exact h
    · exact (h.streamed image cuts).2.2 _ (by omega)
  | crash p k =>
    rcases h.either ht with hs | ⟨j, -, hs⟩
    · exact hs.restart (w.written cd p k).journal (w.written cd p k).image
    · exact hs.restart (w.written cd p k).journal (w.written cd p k).image

theorem leNat_replicate (n : Nat) : leNat (List.replicate n 0) = 0 := by
  induction n with
  | zero => rfl
  | succ n ih => rw [List.replicate_succ, leNat, ih]; rfl

theorem leNat_span_replicate (n o k : Nat) :
    leNat (span (List.replicate n (0 : UInt8)) o k) = 0 := by
  rw [span, List.drop_replicate, List.take_replicate, leNat_replicate]

theorem settled_fresh (cd : Codec I D) (slots log : Nat) : Settled cd (fresh slots log) where
  unclaimed _ _ := lt_of_eq_of_lt (leNat_span_replicate log 0 4) (by decide)
  header := by rintro _ ⟨⟩
  start := by
    intro q hq
    have hnone : logged cd (fresh (I := I) slots log).log 0 = none :=
      framed_none (lt_of_eq_of_lt (leNat_span_replicate log 0 4) (by decide))
    cases hnone.symm.trans hq
  state := .inl ⟨rfl, rfl, rfl, fun _ =>
    framed_none (lt_of_eq_of_lt (leNat_span_replicate slots _ 4) (by decide)), rfl⟩

def RestartsAt (cd : Codec I D) (w : World I) (image : Option I) : Prop :=
  ∃ j, recover cd w.slots w.log = .ok (image, j) ∧
    committedGeneration cd w.slots w.log = j.generation

theorem Settled.restartsAt (h : Settled cd w) : RestartsAt cd w w.image := by
  obtain ⟨j, hrec, -, hgen, -⟩ := h.recovers
  exact ⟨j, hrec, hgen⟩

theorem Settled.crash_restartsAt (h : Settled cd w) {k : Nat} (ht : w.Trusted cd (.crash p k)) :
    RestartsAt cd (w.written cd p k) w.image ∨
      (∃ j, (w.attempt cd p).2 = .ok j) ∧ RestartsAt cd (w.written cd p k) (w.published cd p) := by
  have himage : (w.written cd p k).image = w.image := by cases p <;> rfl
  rcases h.either ht with hs | ⟨j, hok, hs⟩
  · have hat := hs.restartsAt
    rw [himage] at hat
    exact .inl hat
  · exact .inr ⟨⟨j, hok⟩, hs.restartsAt⟩

end World

section

variable {T : Records} [Ord T.Key] [Std.TransOrd T.Key] [DecidableEq T.Key] [Ord T.CallKey]
  [Std.TransOrd T.CallKey] [DecidableEq T.CallKey]

variable (T) in
/-- How a shard encodes images and deltas, and what a delta does to a volume. -/
structure ShardCodec extends Wire (ShardImage T) (ShardDelta T) where
  applyVolume : T.Volume → T.VolumeDelta → Except VfsError T.Volume

def ShardCodec.codec (shard : ShardCodec T) : Codec (ShardImage T) (ShardDelta T) :=
  { shard.toWire with apply := ShardImage.apply shard.applyVolume }

/-- **A crash never loses a committed publication.** From zeroed memories on, a restart gives the
image of the last publication that returned; after any of the next one's writes, that image or,
whole, the one being published. -/
theorem crash_keeps_publications (shard : ShardCodec T) {slots log : Nat}
    {turns : List (World.Turn (ShardImage T) (ShardDelta T))}
    (h : Meets (World.step shard.codec) (World.Trusted shard.codec) (World.fresh slots log) turns)
    {w : World (ShardImage T)}
    (hw : w = turns.foldl (World.step shard.codec) (World.fresh slots log)) :
    World.RestartsAt shard.codec w w.image ∧
      ∀ p k, w.Trusted shard.codec (.crash p k) →
        World.RestartsAt shard.codec (w.written shard.codec p k) w.image ∨
        (∃ j, (w.attempt shard.codec p).2 = .ok j) ∧
          World.RestartsAt shard.codec (w.written shard.codec p k) (w.published shard.codec p) := by
  have hs : World.Settled shard.codec w := by
    rw [hw]
    exact h.invariant (fun _ _ hs ht => hs.step ht) (World.settled_fresh shard.codec slots log)
  exact ⟨hs.restartsAt, fun p k ht => hs.crash_restartsAt ht⟩

end

/-! A shard of no volumes and no calls, whose image is the bytes it holds. -/

namespace Holding

/-- The records of such a shard. -/
abbrev records : Records := ⟨Empty, Empty, Empty, Bytes, Unit, Empty, Empty, Unit⟩

instance ordEmpty : Ord Empty := ⟨fun a _ => a.elim⟩

instance transOrdEmpty : Std.TransOrd Empty where
  eq_swap {a _} := a.elim
  isLE_trans {a _ _} := a.elim

instance lawfulEqOrdEmpty : Std.LawfulEqOrd Empty where
  compare_self {a} := a.elim
  eq_of_compare {a _} := a.elim

def image (held : Bytes) : ShardImage records := ⟨∅, held, (), ∅, ()⟩

def delta (held : Bytes) : ShardDelta records :=
  ⟨deltaMagic, deltaVersion, [], [], some held, none, [], [], none⟩

/-- One byte for whether something is there. -/
def flag {α : Type} (x : Option α) : UInt8 := if x.isSome then 1 else 0

def encodeDelta (d : ShardDelta records) : Bytes :=
  leBytes 4 d.magic.toNat ++ (leBytes 2 d.version.toNat ++
    ([flag d.held, flag d.replies, flag d.nfsReplies] ++ d.held.getD []))

def decodeDelta (bytes : Bytes) : Option (ShardDelta records) :=
  some
    { magic := UInt32.ofNat (leNat (bytes.take 4))
      version := UInt16.ofNat (leNat ((bytes.drop 4).take 2))
      volumes := []
      removed := []
      held := if bytes[6]? = some 1 then some (bytes.drop 9) else none
      replies := if bytes[7]? = some 1 then some () else none
      calls := []
      callsRemoved := []
      nfsReplies := if bytes[8]? = some 1 then some () else none }

theorem nil_of_empty {α : Type} : (l : List (Empty × α)) → l = []
  | [] => rfl
  | (key, _) :: _ => key.elim

theorem decode_encodeDelta (d : ShardDelta records) : decodeDelta (encodeDelta d) = some d := by
  obtain ⟨magic, version, volumes, removed, held, replies, calls, callsRemoved, nfsReplies⟩ := d
  have hremoved (l : List Empty) : l = [] := List.eq_nil_iff_forall_not_mem.mpr fun key => key.elim
  have hmagic : UInt32.ofNat (leNat (leBytes 4 magic.toNat)) = magic := by
    rw [leNat_leBytes, Nat.mod_eq_of_lt (show magic.toNat < 256 ^ 4 from magic.toNat_lt),
      UInt32.ofNat_toNat]
  have hversion : UInt16.ofNat (leNat (leBytes 2 version.toNat)) = version := by
    rw [leNat_leBytes, Nat.mod_eq_of_lt (show version.toNat < 256 ^ 2 from version.toNat_lt),
      UInt16.ofNat_toNat]
  rw [nil_of_empty volumes, nil_of_empty calls, hremoved removed, hremoved callsRemoved]
  cases held <;> cases replies <;> cases nfsReplies <;>
    simp [decodeDelta, encodeDelta, flag, hmagic, hversion, List.drop_append, leBytes_length,
      List.getElem?_append, List.drop_eq_nil_of_le]

theorem image_held (i : ShardImage records) : image i.held = i := by
  obtain ⟨volumes, held, ⟨⟩, calls, ⟨⟩⟩ := i
  simp only [image, ShardImage.mk.injEq, and_true, true_and]
  exact ⟨Std.ExtTreeMap.ext_getElem? fun key => key.elim,
    Std.ExtTreeMap.ext_getElem? fun key => key.elim⟩

def shard : ShardCodec records where
  encodeImage i := i.held
  decodeImage bytes := .ok (image bytes)
  encodeDelta := encodeDelta
  decodeDelta := decodeDelta
  crc32c bytes := bytes.foldl (fun sum b => 31 * sum + b.toUInt32) 7
  decode_encodeImage i := congrArg Except.ok (image_held i)
  decode_encodeDelta := decode_encodeDelta
  applyVolume volume _ := volume.elim

/-- Checkpoints, appends and streams, each returned, cut short or given up. -/
def turns : List (World.Turn (ShardImage records) (ShardDelta records)) :=
  [.publish (.checkpoint (image [1])), .publish (.append (delta [2, 3])),
    .crash (.append (delta [4])) 2, .crash (.checkpoint (image [5])) 1,
    .crash (.streamed (image [6, 7]) [1]) 3, .abandon (image [8]) [] 2,
    .publish (.append (delta [9])), .publish (.checkpoint (image [10]))]

end Holding

theorem crash_keeps_publications_holding :
    Meets (World.step Holding.shard.codec) (World.Trusted Holding.shard.codec)
        (World.fresh 64 128) Holding.turns ∧
      World.RestartsAt Holding.shard.codec
        (Holding.turns.foldl (World.step Holding.shard.codec) (World.fresh 64 128))
        (Holding.turns.foldl (World.step Holding.shard.codec) (World.fresh 64 128)).image := by
  have h : Meets (World.step Holding.shard.codec) (World.Trusted Holding.shard.codec)
      (World.fresh 64 128) Holding.turns := by decide +kernel
  exact ⟨h, (crash_keeps_publications Holding.shard h rfl).1⟩

end Slates.Checkpoint
