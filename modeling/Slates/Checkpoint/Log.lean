import Slates.Checkpoint.Slots

/-!
The shard's recovery journal (`crates/vfs/src/checkpoint_log.rs`): a checkpoint, and a log of the
deltas since. A delta's frame is written payload first, then a zero header where the next frame will
go, then its own header.
-/

namespace Slates.Checkpoint

open Content (VfsError)
open Mem (u32Max u64Max)
open Merge (leBytes leNat)
open Spans

variable {I D : Type}

structure Journal where
  committed : Option CommittedSlot
  generation : Nat
  tail : Nat
  checkpointBytes : Nat
  loggedBytes : Nat
  deriving DecidableEq, Repr

namespace Journal

/-- `Journal::default`. -/
def empty : Journal := ⟨none, 0, 0, 0, 0⟩

/-- `LOG_PREFIX`: a frame's generation and its checkpoint's, eight bytes each. -/
def logPrefix : Nat := 16

def logPayload (generation base : Nat) (body : Bytes) : Bytes :=
  leBytes 8 generation ++ leBytes 8 base ++ body

/-- The committed slot and the last generation published, or what the memory says when the journal
knows of none. -/
def committedNow (cd : Codec I D) (j : Journal) (slots : Bytes) : Option CommittedSlot :=
  match j.committed with
  | some c => some (c.advancedTo j.generation)
  | none => committedSlot cd slots

def nextCheckpoint (cd : Codec I D) (j : Journal) (slots : Bytes) :
    Except VfsError CommittedSlot :=
  let committed := j.committedNow cd slots
  let generation := (committed.map CommittedSlot.generation).getD 0
  if generation + 1 ≤ u64Max then
    .ok ⟨generation + 1, (committed.map fun c => !c.second).getD false⟩
  else .error .fileTooLarge

/-- The journal after a checkpoint of `bytes` bytes. -/
def restarted (c : CommittedSlot) (bytes : Nat) : Journal := ⟨some c, c.generation, 0, bytes, 0⟩

/-- `Journal::checkpoint`. -/
def checkpoint (cd : Codec I D) (j : Journal) (slots : Bytes) (image : I) :
    List Write × Except VfsError Journal :=
  match j.nextCheckpoint cd slots with
  | .error refusal => ([], .error refusal)
  | .ok c =>
    match frame cd c.generation (cd.encodeImage image) (slotOf slots.length c.second) with
    | .error refusal => ([], .error refusal)
    | .ok (writes, total) => (writes, .ok (restarted c total))

def cut : List Nat → Bytes → List Bytes
  | [], bytes => [bytes]
  | n :: cuts, bytes => bytes.take n :: cut cuts (bytes.drop n)

/-- `Journal::begin_checkpoint` and `finish_checkpoint`, encoded in pieces. -/
def streamCheckpoint (cd : Codec I D) (j : Journal) (slots : Bytes) (image : I) (cuts : List Nat) :
    List Write × Except VfsError Journal :=
  match j.nextCheckpoint cd slots with
  | .error refusal => ([], .error refusal)
  | .ok c =>
    match stream cd c.generation (cut cuts (cd.encodeImage image))
      (slotOf slots.length c.second) with
    | (writes, .error refusal) => (writes, .error refusal)
    | (writes, .ok total) => (writes, .ok (restarted c total))

/-- `Journal::append_encoded`, of an encoded delta. -/
def append (cd : Codec I D) (j : Journal) (log : Bytes) (delta : D) :
    List Write × Except VfsError Journal :=
  let body := cd.encodeDelta delta
  match j.committed with
  | none => ([], .error .recoveryIncomplete)
  | some committed =>
    let generation := j.generation + 1
    let payload := logPayload generation committed.generation body
    let total := frameHeader + payload.length
    let end_ := j.tail + total
    if generation > u64Max then ([], .error .fileTooLarge)
    else if end_ > log.length then ([], .error .noSpace)
    else if payload.length > u32Max then ([], .error .fileTooLarge)
    else
      let payloadAt := j.tail + frameHeader
      ([⟨payloadAt, leBytes 8 generation ++ leBytes 8 committed.generation⟩,
          ⟨payloadAt + logPrefix, body⟩] ++
        (if end_ + frameHeader ≤ log.length then [⟨end_, List.replicate frameHeader 0⟩] else []) ++
        [⟨j.tail, headerOf cd payload⟩],
        .ok { j with
          generation := generation
          tail := end_
          loggedBytes := j.loggedBytes + total })

/-- `read_raw`: a frame's generation, its delta's bytes and its whole length. -/
def readRaw (cd : Codec I D) (log : Bytes) (at_ base : Nat) :
    Except VfsError (Option (Nat × Bytes × Nat)) :=
  if at_ + frameHeader > log.length then .ok none
  else
    match imageRead log at_ frameHeader with
    | .error refusal => .error refusal
    | .ok header =>
      let len := leNat (header.take 4)
      if len < logPrefix then .ok none
      else if at_ + frameHeader + len > log.length then .ok none
      else
        match imageRead log (at_ + frameHeader) len with
        | .error refusal => .error refusal
        | .ok payload =>
          if (cd.crc32c payload).toNat ≠ leNat (header.drop 4) then .ok none
          else if leNat ((payload.drop 8).take 8) ≠ base then .ok none
          else .ok (some (leNat (payload.take 8), payload.drop logPrefix, frameHeader + len))

def readFrame (cd : Codec I D) (log : Bytes) (at_ base : Nat) :
    Except VfsError (Option (Nat × D × Nat)) :=
  match readRaw cd log at_ base with
  | .error refusal => .error refusal
  | .ok none => .ok none
  | .ok (some (generation, body, total)) =>
    match cd.decodeDelta body with
    | none => .ok none
    | some delta => .ok (some (generation, delta, total))

/-- `u64::saturating_add(1)`. -/
def nextGeneration (generation : Nat) : Nat := min (generation + 1) u64Max

/-- The log's frames replayed over `base`; every frame takes room, which bounds the rounds. -/
def replay (cd : Codec I D) (log : Bytes) (base : Nat) :
    (rounds : Nat) → I → Journal → Except VfsError (I × Journal)
  | 0, image, j => .ok (image, j)
  | rounds + 1, image, j =>
    match readFrame cd log j.tail base with
    | .error refusal => .error refusal
    | .ok none => .ok (image, j)
    | .ok (some (generation, delta, total)) =>
      if generation ≠ nextGeneration j.generation then .ok (image, j)
      else
        match cd.apply image delta with
        | .error refusal => .error refusal
        | .ok image => replay cd log base rounds image { j with
          generation := generation
          tail := j.tail + total
          loggedBytes := j.loggedBytes + total }

/-- `Journal::recover`. -/
def recover (cd : Codec I D) (slots log : Bytes) : Except VfsError (Option I × Journal) :=
  match readCommitted cd slots with
  | .error refusal => .error refusal
  | .ok none => .ok (none, empty)
  | .ok (some (committed, image)) =>
    match replay cd log committed.generation (log.length + 1) image (restarted committed 0) with
    | .error refusal => .error refusal
    | .ok (image, j) => .ok (some image, j)

/-- The generations of the log's frames over `base`; no delta is decoded. -/
def follow (cd : Codec I D) (log : Bytes) (base : Nat) : (rounds generation at_ : Nat) → Nat
  | 0, generation, _ => generation
  | rounds + 1, generation, at_ =>
    match readRaw cd log at_ base with
    | .ok (some (next, _, total)) =>
      if next ≠ nextGeneration generation then generation
      else follow cd log base rounds next (at_ + total)
    | _ => generation

def committedGeneration (cd : Codec I D) (slots log : Bytes) : Nat :=
  match committedSlot cd slots with
  | none => 0
  | some committed =>
    follow cd log committed.generation (log.length + 1) committed.generation 0

end Journal

end Slates.Checkpoint
