import Slates.Library.Runs
import Slates.Register.Retirements

/-!
The head records an owner writes for a volume (`crates/server/src/fleet.rs`). A head's value is
computed anew each period, until its placement is recorded.
-/

namespace Slates.Heads

open Register (HostId Quorum Placement checkedSucc)

variable {D K : Type}

structure HeadValue (D K : Type) where
  sealing : Option K
  manifest : Option D
  contentHolders : List HostId
  deriving DecidableEq

inductive Value (D K : Type) where
  | head (value : HeadValue D K)
  | tombstone (retired : Bool)
  deriving DecidableEq

/-- `Record`, of one owner and object. -/
structure Record (D K : Type) where
  sequence : Nat
  epoch : Nat
  generation : Nat
  value : Value D K
  deriving DecidableEq

structure SealJob (D : Type) where
  snapshot : Nat
  sequence : Nat
  manifest : Option D
  content : Placement

/-- `SnapshotRecord`: its identity, and its holders once it is placed. -/
structure Snapshot (D : Type) where
  identity : Option D
  placed : Option (List HostId)

structure PlacedHead where
  sequence : Nat
  epoch : Nat
  placement : Placement

/-- Its epoch, its head snapshot, and the length of its chain if it is a green. -/
structure VolumeRecord where
  epoch : Nat
  head : Nat
  versions : Nat

/-- A volume served, one closing at a tombstone's sequence, or neither. -/
inductive Phase where
  | live (record : VolumeRecord)
  | closing (sequence : Nat)
  | gone

/-- `place` is the configuration's placement of the volume, `sealing` what `head_sealing` gives. -/
structure Owner (D K : Type) where
  host : HostId
  quorum : Quorum
  hostEpoch : Nat
  version : Nat
  place : Placement
  phase : Phase
  snapshots : Nat → Option (Snapshot D)
  seals : Option (SealJob D)
  sealing : Option K
  placedHead : Option PlacedHead

namespace Owner

/-- It carries the lineage key if it names content. -/
def value (o : Owner D K) (manifest : Option D) (contentHolders : List HostId) : HeadValue D K :=
  ⟨manifest.bind fun _ => o.sealing, manifest, contentHolders⟩

def recorded (o : Owner D K) (id : Nat) : Option (D × List HostId) := do
  let snapshot ← o.snapshots id
  some (← snapshot.identity, ← snapshot.placed)

def headValueOf (o : Owner D K) (record : VolumeRecord) : Option (Nat × HeadValue D K) :=
  if record.epoch = 0 then some (0, o.value none [])
  else match o.recorded record.head with
    | some (identity, region) => some (record.epoch, o.value (some identity) region)
    | none => do
      let job ← o.seals
      if job.snapshot ≠ record.head ∨ !job.content.placed o.quorum then none
      else some (job.sequence, o.value job.manifest job.content.acked)

def owedRecord (o : Owner D K) (sequence : Nat) (value : Value D K) : Option (Record D K) :=
  let acked := (o.placedHead.filter (·.sequence = sequence)).elim [] (·.placement.acked)
  let epoch := max (o.placedHead.elim o.hostEpoch PlacedHead.epoch) o.hostEpoch
  if o.place.candidates.any fun candidate => candidate ≠ o.host && candidate ∉ acked then
    some ⟨sequence, epoch, o.version, value⟩
  else none

def owedTombstone (o : Owner D K) (sequence : Nat) : Option (Record D K) := do
  let retirement ← checkedSucc sequence
  let retiring := o.placedHead.any (retirement ≤ ·.sequence)
  (if retiring then none else o.owedRecord sequence (.tombstone false)).or
    (o.owedRecord retirement (.tombstone true))

/-- `unplaced_heads`: `ready` when the catalog is committed and the sealing covers the candidates.
-/
def unplacedHeads (o : Owner D K) (ready : Bool) : Option (Record D K) :=
  match o.phase with
  | .live record => do
    let (sequence, value) ← o.headValueOf record
    if ready then o.owedRecord sequence (.head value) else none
  | .closing sequence => o.owedTombstone sequence
  | .gone => none

/-- `fold_content_ack`, inside a round or late, by a candidate. -/
def foldContentAck (o : Owner D K) (snapshot : Nat) (holder : HostId) : Owner D K :=
  { o with seals := o.seals.map fun job =>
      if job.snapshot = snapshot ∧ holder ∈ job.content.candidates ∧ holder ∉ job.content.acked then
        { job with content := { job.content with acked := job.content.acked ++ [holder] } }
      else job }

/-- `record_placed_seals`, of one volume. -/
def recordPlacedSeals (o : Owner D K) : Owner D K :=
  match o.seals, o.placedHead with
  | some job, some head =>
    match job.manifest with
    | some identity =>
      if job.content.placed o.quorum ∧ head.sequence = job.sequence ∧
          head.placement.placed o.quorum then
        { o with
          snapshots := fun id => if id = job.snapshot then
              (o.snapshots id).map fun _ => ⟨some identity, some job.content.acked⟩
            else o.snapshots id
          seals := none }
      else o
    | none => o
  | _, _ => o

/-- `record_acks_in`: the placement the volume's register has after it. -/
def unitedAcks (o : Owner D K) (sequence epoch : Nat) (placement : Placement) : PlacedHead :=
  let entry := o.placedHead.getD ⟨sequence, epoch, { placement with acked := [] }⟩
  if entry.sequence > sequence then entry
  else
    let before := if entry.sequence < sequence then [] else entry.placement.acked
    ⟨sequence, max entry.epoch epoch, { entry.placement with
      candidates := placement.candidates
      joint := placement.joint
      acked := before ++ placement.acked.filter (· ∉ before) }⟩

end Owner

/-! ## Runs -/

/-- An owner, the records it wrote for the volume, and who took which. -/
structure World (D K : Type) where
  owner : Owner D K
  written : List (Record D K)
  held : List (HostId × Record D K)

/-- `startSeal` is a seal's or the healer's, `archived` gives the manifest, `acks` is what a round
that shipped `record` came to. -/
inductive Turn (D K : Type) where
  | take (snapshot : Nat)
  | startSeal (content : Placement)
  | dropSeal
  | archived (manifest : D)
  | contentAck (snapshot : Nat) (holder : HostId)
  | recordPlaced
  | keys (sealing : Option K)
  | configure (quorum : Quorum) (hostEpoch version : Nat) (place : Placement)
  | period (ready : Bool)
  | acks (record : Record D K) (placement : Placement)
  | restart (hostEpoch : Nat)
  | destroy
  | retire

/-- The owner counts as a holder of its own content where it is a candidate. -/
def Owner.startSeal (o : Owner D K) (content : Placement) : Owner D K :=
  match o.phase with
  | .live record =>
    if record.epoch = 0 then o
    else
      let acked := if o.host ∈ content.candidates then [o.host] else []
      { o with seals := some ⟨record.head, record.epoch, none, { content with acked := acked }⟩ }
  | _ => o

def Owner.take (o : Owner D K) (id : Nat) : Owner D K :=
  match o.phase with
  | .live record =>
    if (o.snapshots id).isSome then o
    else { o with
      phase := .live { record with epoch := record.epoch + 1, head := id }
      snapshots := Function.update o.snapshots id (some ⟨none, none⟩) }
  | _ => o

/-- A destroy: the registers close past every epoch and version. -/
def Owner.destroy (o : Owner D K) : Owner D K :=
  match o.phase with
  | .live record =>
    { o with phase := .closing (max record.epoch record.versions + 1), seals := none }
  | _ => o

def World.step (w : World D K) : Turn D K → World D K
  | .take id => { w with owner := w.owner.take id }
  | .startSeal content => { w with owner := w.owner.startSeal content }
  | .dropSeal => { w with owner := { w.owner with seals := none } }
  | .archived manifest => { w with owner := { w.owner with
      seals := w.owner.seals.map fun job => { job with manifest := some manifest } } }
  | .contentAck snapshot holder => { w with owner := w.owner.foldContentAck snapshot holder }
  | .recordPlaced => { w with owner := w.owner.recordPlacedSeals }
  | .keys sealing => { w with owner := { w.owner with sealing := sealing } }
  | .configure quorum hostEpoch version place =>
    { w with owner := { w.owner with
      quorum := quorum, hostEpoch := hostEpoch, version := version, place := place } }
  | .period ready => { w with written := (w.owner.unplacedHeads ready).toList ++ w.written }
  | .acks record placement =>
    let united := w.owner.unitedAcks record.sequence record.epoch placement
    { w with
      owner := { w.owner with placedHead := some united }
      held := placement.acked.map (·, record) ++ w.held }
  | .restart hostEpoch => { w with owner := { w.owner with
      seals := none, placedHead := none, hostEpoch := hostEpoch } }
  | .destroy => { w with owner := w.owner.destroy }
  | .retire => { w with owner := { w.owner with phase := .gone, placedHead := none } }

/-- One value at each position; united acknowledgements are of records written there. -/
structure World.OneValue (w : World D K) : Prop where
  one : ∀ r ∈ w.written, ∀ r' ∈ w.written, r.sequence = r'.sequence → r.value = r'.value
  united : ∀ head ∈ w.owner.placedHead, ∀ host ∈ head.placement.acked,
    ∃ r ∈ w.written, (host, r) ∈ w.held ∧ r.sequence = head.sequence

def World.wrote (w : World D K) : Bool :=
  match w.owner.phase with
  | .live record => record.epoch ≠ 0 && w.written.any (·.sequence = record.epoch)
  | _ => false

def Owner.recordedHead (o : Owner D K) : Option (D × List HostId) :=
  match o.phase with
  | .live record => o.recorded record.head
  | _ => none

def Owner.headSeal (o : Owner D K) : Option (SealJob D) :=
  match o.phase with
  | .live record => o.seals.filter (·.snapshot = record.head)
  | _ => none

/-- What a turn meets when positions keep their value. Once a head was written at the volume's epoch
its keys stay; until its placement is recorded its seal stays, with no more holders, and is then
recorded again only as it was. A round is of a record written. -/
def Turn.Keeps (w : World D K) : Turn D K → Prop
  | .take _ | .period _ | .destroy | .retire => True
  | .configure quorum _ _ _ => w.wrote → w.owner.recordedHead = none → quorum = w.owner.quorum
  | .startSeal _ | .dropSeal | .archived _ | .restart _ => w.wrote → w.owner.recordedHead.isSome
  | .contentAck _ holder => w.wrote → w.owner.recordedHead = none →
      ∀ job ∈ w.owner.headSeal, holder ∈ job.content.candidates → holder ∈ job.content.acked
  | .recordPlaced => w.wrote → ∀ recorded ∈ w.owner.recordedHead, ∀ job ∈ w.owner.headSeal,
      job.manifest = some recorded.1 ∧ job.content.acked = recorded.2
  | .keys sealing => w.wrote → sealing = w.owner.sealing
  | .acks record _ => record ∈ w.written

instance [DecidableEq D] [DecidableEq K] (w : World D K) (t : Turn D K) :
    Decidable (t.Keeps w) := by
  cases t <;> unfold Turn.Keeps <;> infer_instance

/-! ## The value at the volume's epoch -/

section Value

variable {o o' : Owner D K} {record : VolumeRecord} {sequence : Nat} {x : HeadValue D K}

theorem headValueOf_of_recorded (hr : o'.recorded record.head = o.recorded record.head)
    (hsome : (o.recorded record.head).isSome) (hkeys : o'.sealing = o.sealing) :
    o'.headValueOf record = o.headValueOf record := by
  obtain ⟨⟨identity, region⟩, hrecorded⟩ := Option.isSome_iff_exists.mp hsome
  rw [hrecorded] at hr
  simp only [Owner.headValueOf, Owner.value, hr, hrecorded, hkeys]

theorem exists_seal_of_headValueOf (hepoch : record.epoch ≠ 0)
    (hr : o.recorded record.head = none) (h : o.headValueOf record = some (sequence, x)) :
    ∃ job, o.seals = some job ∧ job.snapshot = record.head ∧ sequence = job.sequence ∧
      x = o.value job.manifest job.content.acked := by
  simp only [Owner.headValueOf, hepoch, if_false, hr] at h
  cases hs : o.seals with
  | none => simp [hs] at h
  | some job =>
    simp only [hs, Option.bind_eq_bind, Option.bind_some] at h
    split at h
    · cases h
    next hjob =>
      obtain ⟨rfl, rfl⟩ := Prod.mk.inj (Option.some.inj h)
      exact ⟨job, rfl, not_not.mp fun hne => hjob (.inl hne), rfl, rfl⟩

end Value

/-! ## One turn -/

/-- What was written at a live volume's epoch is what its head's value is now, and nothing past it;
a closing volume's last positions are its tombstone's. A seal of the head snapshot is at the
volume's epoch. -/
structure World.Sound (w : World D K) : Prop where
  value : w.OneValue
  known : ∀ record, w.owner.phase = .live record → record.epoch ≠ 0 →
    (w.owner.snapshots record.head).isSome
  seals : ∀ job ∈ w.owner.seals, (w.owner.snapshots job.snapshot).isSome ∧
    ∀ record, w.owner.phase = .live record → job.snapshot = record.head →
      job.sequence = record.epoch
  live : ∀ record, w.owner.phase = .live record → ∀ r ∈ w.written, r.sequence ≤ record.epoch ∧
    (r.sequence = record.epoch →
      ∃ x, w.owner.headValueOf record = some (record.epoch, x) ∧ r.value = .head x)
  closing : ∀ sequence, w.owner.phase = .closing sequence → ∀ r ∈ w.written,
    r.sequence < sequence ∨ r.sequence = sequence ∧ r.value = .tombstone false ∨
      r.sequence = sequence + 1 ∧ r.value = .tombstone true

/-- A seal of a snapshot the owner seals, or of a live volume's head. -/
def Owner.Seals (o : Owner D K) (job : SealJob D) : Prop :=
  (∃ job' ∈ o.seals, job.snapshot = job'.snapshot ∧ job.sequence = job'.sequence) ∨
    ∃ record, o.phase = .live record ∧ record.epoch ≠ 0 ∧ job.snapshot = record.head ∧
      job.sequence = record.epoch

section Turns

variable {w : World D K} {record : VolumeRecord}

theorem World.Sound.sequence_eq (hs : w.Sound) (hp : w.owner.phase = .live record) {sequence : Nat}
    {x : HeadValue D K} (h : w.owner.headValueOf record = some (sequence, x)) :
    sequence = record.epoch := by
  by_cases hepoch : record.epoch = 0
  · simp only [Owner.headValueOf, hepoch, if_true, Option.some.injEq, Prod.mk.injEq] at h
    rw [← h.1, hepoch]
  · cases hr : w.owner.recorded record.head with
    | some recorded =>
      simp only [Owner.headValueOf, hepoch, if_false, hr, Option.some.injEq, Prod.mk.injEq] at h
      exact h.1.symm
    | none =>
      obtain ⟨job, hjob, hhead, rfl, -⟩ := exists_seal_of_headValueOf hepoch hr h
      exact (hs.seals job hjob).2 record hp hhead

theorem wrote_iff (hp : w.owner.phase = .live record) :
    w.wrote = true ↔ record.epoch ≠ 0 ∧ ∃ r ∈ w.written, r.sequence = record.epoch := by
  simp [World.wrote, hp]

theorem World.Sound.change {o : Owner D K} (hs : w.Sound) (hphase : o.phase = w.owner.phase)
    (hplaced : ∀ head ∈ o.placedHead, w.owner.placedHead = some head)
    (hknown : ∀ id, (w.owner.snapshots id).isSome → (o.snapshots id).isSome)
    (hseals : ∀ job ∈ o.seals, w.owner.Seals job)
    (hhead : ∀ record, w.owner.phase = .live record → w.wrote →
      o.headValueOf record = w.owner.headValueOf record) :
    Sound { w with owner := o } where
  value := ⟨hs.value.one, fun head hh => hs.value.united head (hplaced head hh)⟩
  known record hp hepoch := hknown _ (hs.known record (hphase ▸ hp) hepoch)
  seals job hj := by
    rcases hseals job hj with ⟨job', hj', hsnap, hseq⟩ | ⟨record, hp, hepoch, hsnap, hseq⟩
    · rw [hsnap, hseq]
      exact ⟨hknown _ (hs.seals job' hj').1, fun r hr => (hs.seals job' hj').2 r (hphase ▸ hr)⟩
    · refine ⟨hsnap ▸ hknown _ (hs.known record hp hepoch), fun r hr _ => ?_⟩
      rw [hphase, hp] at hr
      rw [hseq, Phase.live.inj hr]
  live record hp r hr := by
    rw [hphase] at hp
    obtain ⟨hle, heq⟩ := hs.live record hp r hr
    refine ⟨hle, fun hseq => ?_⟩
    by_cases hepoch : record.epoch = 0
    · obtain ⟨x, hx, hvalue⟩ := heq hseq
      refine ⟨x, ?_, hvalue⟩
      simpa [Owner.headValueOf, hepoch, Owner.value] using hx
    · obtain ⟨x, hx, hvalue⟩ := heq hseq
      exact ⟨x, (hhead record hp ((wrote_iff hp).mpr ⟨hepoch, r, hr, hseq⟩)).trans hx, hvalue⟩
  closing sequence hp := hs.closing sequence (hphase ▸ hp)

theorem World.Sound.change_recorded {o : Owner D K} (hs : w.Sound)
    (hphase : o.phase = w.owner.phase)
    (hplaced : ∀ head ∈ o.placedHead, w.owner.placedHead = some head)
    (hsnap : o.snapshots = w.owner.snapshots) (hkeys : o.sealing = w.owner.sealing)
    (hseals : ∀ job ∈ o.seals, w.owner.Seals job)
    (hrecorded : w.wrote → w.owner.recordedHead.isSome) : Sound { w with owner := o } := by
  refine hs.change hphase hplaced (fun id h => hsnap ▸ h) hseals fun record hp hw => ?_
  have hsome := hrecorded hw
  simp only [Owner.recordedHead, hp] at hsome
  exact headValueOf_of_recorded (by simp only [Owner.recorded, hsnap]) hsome hkeys

theorem sound_take (hs : w.Sound) (id : Nat) : (w.step (.take id)).Sound := by
  simp only [World.step, Owner.take]
  split
  next record hp =>
    split
    next => exact hs
    next hfresh =>
      refine ⟨⟨hs.value.one, hs.value.united⟩, ?_, ?_, ?_, nofun⟩
      · rintro _ ⟨⟩ -
        simp
      · intro job hj
        have hknown := (hs.seals job hj).1
        have hne : job.snapshot ≠ id := fun heq => hfresh (heq ▸ hknown)
        refine ⟨by simpa [Function.update_of_ne hne] using hknown, ?_⟩
        rintro _ ⟨⟩ heq
        exact absurd heq hne
      · rintro _ ⟨⟩ r hr
        have hle := (hs.live record hp r hr).1
        exact ⟨Nat.le_succ_of_le hle, fun heq => absurd (heq ▸ hle) (Nat.not_succ_le_self _)⟩
  next => exact hs

theorem sound_destroy (hs : w.Sound) : (w.step .destroy).Sound := by
  simp only [World.step, Owner.destroy]
  split
  next record hp =>
    refine ⟨⟨hs.value.one, hs.value.united⟩, nofun, nofun, nofun, ?_⟩
    rintro _ ⟨⟩ r hr
    exact .inl (Nat.lt_succ_of_le ((hs.live record hp r hr).1.trans (le_max_left _ _)))
  next => exact hs

theorem World.Sound.exists_seal (hs : w.Sound) (hp : w.owner.phase = .live record) (hw : w.wrote)
    (hr : w.owner.recorded record.head = none) :
    ∃ job, w.owner.seals = some job ∧ job.snapshot = record.head ∧
      w.owner.headValueOf record =
        some (record.epoch, w.owner.value job.manifest job.content.acked) := by
  obtain ⟨hepoch, r, hmem, hseq⟩ := (wrote_iff hp).mp hw
  obtain ⟨x, hx, -⟩ := (hs.live record hp r hmem).2 hseq
  obtain ⟨job, hjob, hhead, -, rfl⟩ := exists_seal_of_headValueOf hepoch hr hx
  exact ⟨job, hjob, hhead, hx⟩

theorem sound_contentAck (hs : w.Sound) {snapshot : Nat} {holder : HostId}
    (hc : (Turn.contentAck snapshot holder).Keeps w) :
    (w.step (.contentAck snapshot holder)).Sound := by
  refine hs.change rfl (fun _ h => h) (fun _ h => h) ?_ fun record hp hw => ?_
  · intro job hj
    obtain ⟨job', hj', rfl⟩ := Option.mem_map.mp hj
    refine .inl ⟨job', hj', ?_⟩
    split <;> exact ⟨rfl, rfl⟩
  · cases hr : w.owner.recorded record.head with
    | some recorded => exact headValueOf_of_recorded rfl (by rw [hr]; rfl) rfl
    | none =>
      obtain ⟨job, hjob, hhead, -⟩ := hs.exists_seal hp hw hr
      have hacked := hc hw (by simp only [Owner.recordedHead, hp, hr]) job
        (by simp [Owner.headSeal, hp, hjob, hhead])
      have hsame : w.owner.foldContentAck snapshot holder = w.owner := by
        simp only [Owner.foldContentAck, hjob, Option.map_some]
        rw [if_neg fun h => h.2.2 (hacked h.2.1), ← hjob]
      rw [hsame]

theorem sound_recordPlaced (hs : w.Sound) (hc : (Turn.recordPlaced : Turn D K).Keeps w) :
    (w.step .recordPlaced).Sound := by
  simp only [World.step, Owner.recordPlacedSeals]
  split
  next job head hjob _ =>
    split
    next identity hmanifest =>
      split
      next =>
        refine hs.change rfl (fun _ h => h) (fun id h => ?_) nofun fun record hp hw => ?_
        · dsimp only
          split
          · simpa using h
          · exact h
        · by_cases hsnap : record.head = job.snapshot
          · obtain ⟨snapshot, hknown⟩ := Option.isSome_iff_exists.mp (hs.seals job hjob).1
            cases hr : w.owner.recorded record.head with
            | some recorded =>
              obtain ⟨was, region⟩ := recorded
              obtain ⟨hidentity, hacked⟩ := hc hw (was, region)
                (by simp only [Owner.recordedHead, hp, hr, Option.mem_def]) job
                (by simp [Owner.headSeal, hp, hjob, hsnap])
              refine headValueOf_of_recorded ?_ (by rw [hr]; rfl) rfl
              rw [hr]
              simp_all [Owner.recorded]
            | none =>
              obtain ⟨job', hjob', -, hvalue⟩ := hs.exists_seal hp hw hr
              obtain rfl : job = job' := Option.some.inj (hjob.symm.trans hjob')
              rw [hvalue]
              have hepoch := ((wrote_iff hp).mp hw).1
              simp [Owner.headValueOf, Owner.recorded, Owner.value, hepoch, hsnap, hknown,
                hmanifest]
          · cases hr : w.owner.recorded record.head with
            | some recorded =>
              refine headValueOf_of_recorded ?_ (by rw [hr]; rfl) rfl
              simp [Owner.recorded, hsnap]
            | none =>
              obtain ⟨job', hjob', hhead, -⟩ := hs.exists_seal hp hw hr
              exact absurd (Option.some.inj (hjob'.symm.trans hjob) ▸ hhead).symm hsnap
      next => exact hs
    next => exact hs
  next => exact hs

variable {r : Record D K}

theorem owedRecord_eq_some {o : Owner D K} {sequence : Nat} {value : Value D K}
    (h : o.owedRecord sequence value = some r) : r.sequence = sequence ∧ r.value = value := by
  simp only [Owner.owedRecord] at h
  split at h
  · obtain rfl := Option.some.inj h
    exact ⟨rfl, rfl⟩
  · cases h

theorem owedTombstone_eq_some {o : Owner D K} {sequence : Nat}
    (h : o.owedTombstone sequence = some r) :
    r.sequence = sequence ∧ r.value = .tombstone false ∨
      r.sequence = sequence + 1 ∧ r.value = .tombstone true := by
  simp only [Owner.owedTombstone, Option.bind_eq_bind, Option.bind_eq_some_iff] at h
  obtain ⟨retirement, hsucc, h⟩ := h
  obtain rfl := Register.checkedSucc_eq_some hsucc
  rcases Option.or_eq_some_iff.mp h with hfirst | ⟨-, hsecond⟩
  · split at hfirst
    · cases hfirst
    · exact .inl (owedRecord_eq_some hfirst)
  · exact .inr (owedRecord_eq_some hsecond)

theorem World.OneValue.write (h : w.OneValue)
    (hr : ∀ r' ∈ w.written, r'.sequence = r.sequence → r'.value = r.value) :
    OneValue { w with written := r :: w.written } where
  one a ha b hb heq := by
    rcases List.mem_cons.mp ha with rfl | ha' <;> rcases List.mem_cons.mp hb with rfl | hb'
    · rfl
    · exact (hr b hb' heq.symm).symm
    · exact hr a ha' heq
    · exact h.one a ha' b hb' heq
  united head hh host hm := by
    obtain ⟨r', hr', hrest⟩ := h.united head hh host hm
    exact ⟨r', List.mem_cons_of_mem _ hr', hrest⟩

theorem sound_period (hs : w.Sound) (ready : Bool) : (w.step (.period ready)).Sound := by
  cases hu : w.owner.unplacedHeads ready with
  | none =>
    simp only [World.step, hu]
    exact hs
  | some r =>
    simp only [World.step, hu, Option.toList_some, List.singleton_append]
    cases hp : w.owner.phase with
    | gone => simp [Owner.unplacedHeads, hp] at hu
    | live record =>
      simp only [Owner.unplacedHeads, hp, Option.bind_eq_bind, Option.bind_eq_some_iff] at hu
      obtain ⟨⟨sequence, x⟩, hx, hu⟩ := hu
      obtain rfl := hs.sequence_eq hp hx
      split at hu
      next =>
        obtain ⟨hseq, hvalue⟩ := owedRecord_eq_some hu
        refine ⟨hs.value.write fun r' hr' heq => ?_, hs.known, hs.seals, ?_,
          fun _ hc => (nomatch hp.symm.trans hc)⟩
        · obtain ⟨x', hx', hvalue'⟩ := (hs.live record hp r' hr').2 (heq.trans hseq)
          rw [hvalue', hvalue, (Prod.mk.inj (Option.some.inj (hx'.symm.trans hx))).2]
        · intro record' hp' r' hr'
          obtain rfl := Phase.live.inj (hp.symm.trans hp')
          rcases List.mem_cons.mp hr' with rfl | hr'
          · exact ⟨hseq.le, fun _ => ⟨x, hx, hvalue⟩⟩
          · exact hs.live record hp r' hr'
      next => cases hu
    | closing sequence =>
      simp only [Owner.unplacedHeads, hp] at hu
      have hnew := owedTombstone_eq_some hu
      refine ⟨hs.value.write fun r' hr' heq => ?_, hs.known, hs.seals,
        fun _ hc => (nomatch hp.symm.trans hc), ?_⟩
      · rcases hnew with ⟨hseq, hvalue⟩ | ⟨hseq, hvalue⟩ <;>
          rcases hs.closing sequence hp r' hr' with hlt | ⟨hseq', hvalue'⟩ | ⟨hseq', hvalue'⟩ <;>
          first | omega | rw [hvalue, hvalue']
      · intro sequence' hp' r' hr'
        obtain rfl := Phase.closing.inj (hp.symm.trans hp')
        rcases List.mem_cons.mp hr' with rfl | hr'
        · exact .inr hnew
        · exact hs.closing sequence hp r' hr'

theorem sound_acks (hs : w.Sound) (hr : r ∈ w.written) (placement : Placement) :
    (w.step (.acks r placement)).Sound := by
  refine ⟨⟨hs.value.one, ?_⟩, hs.known, hs.seals, hs.live, hs.closing⟩
  rintro _ ⟨⟩ host hm
  have hnew : host ∈ placement.acked → (host, r) ∈ placement.acked.map (·, r) ++ w.held :=
    fun hm => List.mem_append_left _ (List.mem_map.mpr ⟨host, hm, rfl⟩)
  have hold : ∀ head ∈ w.owner.placedHead, host ∈ head.placement.acked → ∃ r' ∈ w.written,
      (host, r') ∈ placement.acked.map (·, r) ++ w.held ∧ r'.sequence = head.sequence := by
    intro head hh hm
    obtain ⟨r', hr', hheld, hseq⟩ := hs.value.united head hh host hm
    exact ⟨r', hr', List.mem_append_right _ hheld, hseq⟩
  revert hm
  unfold Owner.unitedAcks
  cases hplaced : w.owner.placedHead with
  | none =>
    simp only [Option.getD_none, gt_iff_lt, lt_irrefl, if_false, List.nil_append]
    exact fun hm => ⟨r, hr, hnew (List.mem_of_mem_filter hm), rfl⟩
  | some entry =>
    simp only [Option.getD_some]
    split
    next => exact hold entry hplaced
    next hle =>
      intro hm
      rcases List.mem_append.mp hm with hm | hm
      · split at hm
        · cases hm
        next hge =>
          obtain ⟨r', hr', hheld, hseq⟩ := hold entry hplaced hm
          exact ⟨r', hr', hheld, hseq.trans (le_antisymm (not_lt.mp hle) (not_lt.mp hge))⟩
      · exact ⟨r, hr, hnew (List.mem_of_mem_filter hm), rfl⟩

theorem sound_step (t : Turn D K) (hs : w.Sound) (hc : t.Keeps w) : (w.step t).Sound := by
  cases t with
  | take id => exact sound_take hs id
  | startSeal content =>
    simp only [World.step, Owner.startSeal]
    split
    next record hp =>
      split
      next => exact hs
      next hepoch =>
        refine hs.change_recorded rfl (fun _ h => h) rfl rfl (fun job hj => ?_) hc
        obtain rfl := Option.some.inj hj
        exact .inr ⟨record, hp, hepoch, rfl, rfl⟩
    next => exact hs
  | dropSeal => exact hs.change_recorded rfl (fun _ h => h) rfl rfl nofun hc
  | archived manifest =>
    refine hs.change_recorded rfl (fun _ h => h) rfl rfl (fun job hj => ?_) hc
    obtain ⟨job', hj', rfl⟩ := Option.mem_map.mp hj
    exact .inl ⟨job', hj', rfl, rfl⟩
  | contentAck snapshot holder => exact sound_contentAck hs hc
  | recordPlaced => exact sound_recordPlaced hs hc
  | keys sealing =>
    refine hs.change rfl (fun _ h => h) (fun _ h => h) (fun job hj => .inl ⟨job, hj, rfl, rfl⟩) ?_
    intro record _ hw
    rw [show sealing = w.owner.sealing from hc hw]
  | configure quorum hostEpoch version place =>
    refine hs.change rfl (fun _ h => h) (fun _ h => h) (fun job hj => .inl ⟨job, hj, rfl, rfl⟩) ?_
    intro record hp hw
    cases hr : w.owner.recorded record.head with
    | some recorded => exact headValueOf_of_recorded rfl (by rw [hr]; rfl) rfl
    | none =>
      rw [show quorum = w.owner.quorum from hc hw (by simp only [Owner.recordedHead, hp, hr])]
      rfl
  | period ready => exact sound_period hs ready
  | acks r placement => exact sound_acks hs hc placement
  | restart hostEpoch => exact hs.change_recorded rfl nofun rfl rfl nofun hc
  | destroy => exact sound_destroy hs
  | retire =>
    exact ⟨⟨hs.value.one, nofun⟩, nofun, fun job hj => ⟨(hs.seals job hj).1, nofun⟩, nofun,
      nofun⟩

end Turns

/-- What was written of a volume so far is at its epoch, and is what its head's value is here. -/
def World.Begins (w : World D K) : Prop :=
  w.OneValue ∧ w.owner.seals = none ∧ ∃ record, w.owner.phase = .live record ∧
    (record.epoch ≠ 0 → (w.owner.snapshots record.head).isSome) ∧
    ∀ r ∈ w.written, r.sequence = record.epoch ∧
      ∃ x, w.owner.headValueOf record = some (record.epoch, x) ∧ r.value = .head x

theorem World.Begins.sound {w : World D K} (h : w.Begins) : w.Sound := by
  obtain ⟨hvalue, hseals, record, hp, hknown, hwritten⟩ := h
  refine ⟨hvalue, ?_, fun job hj => (nomatch hseals.symm.trans hj), ?_,
    fun _ hc => (nomatch hp.symm.trans hc)⟩
  · intro record' hp'
    obtain rfl := Phase.live.inj (hp.symm.trans hp')
    exact hknown
  · intro record' hp' r hr
    obtain rfl := Phase.live.inj (hp.symm.trans hp')
    exact ⟨(hwritten r hr).1.le, fun _ => (hwritten r hr).2⟩

/-- Three candidates, of which any two place a record. -/
def trio : Placement := ⟨[1, 2, 3], [], none, []⟩

def created : World Nat Nat where
  owner := ⟨1, ⟨1⟩, 4, 9, trio, .live ⟨0, 0, 0⟩, fun _ => none, none, none, none⟩
  written := []
  held := []

/-- A snapshot sealed and acknowledged by a second holder, and what follows. -/
def sealedThen (rest : List (Turn Nat Nat)) : List (Turn Nat Nat) :=
  [.take 5, .startSeal trio, .archived 77, .contentAck 5 2] ++ rest

/-- All three hold the content before the head is shipped, placed and recorded. -/
def recordedThen : List (Turn Nat Nat) :=
  sealedThen [.contentAck 5 3, .period true,
    .acks ⟨1, 4, 9, .head ⟨none, some 77, [1, 2, 3]⟩⟩ { trio with acked := [1, 2] },
    .recordPlaced, .period true]

theorem created_begins : created.Begins :=
  ⟨⟨nofun, nofun⟩, rfl, _, rfl, fun h => absurd rfl h, nofun⟩

end Slates.Heads
