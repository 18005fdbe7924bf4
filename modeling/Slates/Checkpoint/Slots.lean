import Slates.Library.Spans
import Slates.Merge.OpsDoc
import Slates.Checkpoint.Image

/-!
The double-buffered checkpoint memory (`crates/vfs/src/recover.rs`): two slots, each a frame over a
generation and an image; recovery takes the newer one that checks. A publication is the list of its
writes: a crash keeps the first of them.
-/

namespace Slates.Checkpoint

open Content (VfsError)
open Mem (u32Max)
open Merge (leBytes leNat)
open Spans

/-- How what is published is written down, and the frame checksum. -/
structure Wire (I D : Type) where
  encodeImage : I → Bytes
  decodeImage : Bytes → Except VfsError I
  encodeDelta : D → Bytes
  decodeDelta : Bytes → Option D
  crc32c : Bytes → UInt32
  decode_encodeImage : ∀ image, decodeImage (encodeImage image) = .ok image
  decode_encodeDelta : ∀ delta, decodeDelta (encodeDelta delta) = some delta

/-- A wire format with what a delta does to an image. -/
structure Codec (I D : Type) extends Wire I D where
  apply : I → D → Except VfsError I

/-! ## Memory -/

/-- `ImageRead::image_read`. -/
def imageRead (m : Bytes) (offset len : Nat) : Except VfsError Bytes :=
  if offset + len ≤ m.length then .ok (span m offset len) else .error .recoveryIncomplete

/-- One call of `image_write`. -/
structure Write where
  offset : Nat
  bytes : Bytes
  deriving DecidableEq, Repr

/-- `ImageWrite::image_write`. -/
def imageWrite (m : Bytes) (w : Write) : Except VfsError Bytes :=
  if w.offset + w.bytes.length ≤ m.length then .ok (patch m w.offset w.bytes) else .error .noSpace

def perform : Bytes → List Write → Bytes × Except VfsError Unit
  | m, [] => (m, .ok ())
  | m, w :: writes =>
    match imageWrite m w with
    | .ok m => perform m writes
    | .error refusal => (m, .error refusal)

/-! ## Frames -/

/-- `FRAME_HEADER` and `LOG_HEADER`: a length and a checksum of four bytes each. -/
def frameHeader : Nat := 8

def slotGenWidth : Nat := 8

variable {I D : Type}

/-- A frame's header over its payload. -/
def headerOf (cd : Codec I D) (payload : Bytes) : Bytes :=
  leBytes 4 payload.length ++ leBytes 4 (cd.crc32c payload).toNat

/-- A slot's payload: the generation's bytes, then the image's. -/
def slotPayload (generation : Nat) (content : Bytes) : Bytes :=
  leBytes slotGenWidth generation ++ content

structure Slot where
  offset : Nat
  len : Nat
  deriving DecidableEq, Repr

/-- `slots_of`: the first half of the memory, or the rest. -/
def slotOf (total : Nat) (second : Bool) : Slot :=
  if second then ⟨total / 2, total - total / 2⟩ else ⟨0, total / 2⟩

/-- `frame`: the header, the generation, the image. -/
def frame (cd : Codec I D) (generation : Nat) (content : Bytes) (slot : Slot) :
    Except VfsError (List Write × Nat) :=
  let payload := slotPayload generation content
  let total := frameHeader + payload.length
  if slot.len < total then .error .noSpace
  else if payload.length > u32Max then .error .fileTooLarge
  else .ok ([⟨slot.offset, headerOf cd payload⟩,
    ⟨slot.offset + frameHeader, leBytes slotGenWidth generation⟩,
    ⟨slot.offset + frameHeader + slotGenWidth, content⟩], total)

/-- `StreamedImage::flush` of every piece: the writes, and the bytes written. -/
def flushes (slot : Slot) : (written : Nat) → List Bytes → List Write × Except VfsError Nat
  | written, [] => ([], .ok written)
  | written, piece :: pieces =>
    if piece = [] then flushes slot written pieces
    else if frameHeader + written + piece.length > slot.len then ([], .error .noSpace)
    else
      let (writes, result) := flushes slot (written + piece.length) pieces
      (⟨slot.offset + frameHeader + written, piece⟩ :: writes, result)

/-- `StreamedImage::begin` to `finish`: the slot's old header zeroed, the payload in pieces, the new
header last. -/
def stream (cd : Codec I D) (generation : Nat) (pieces : List Bytes) (slot : Slot) :
    List Write × Except VfsError Nat :=
  if slot.len < frameHeader + slotGenWidth then ([], .error .noSpace)
  else
    let opening : List Write := [⟨slot.offset, List.replicate frameHeader 0⟩,
      ⟨slot.offset + frameHeader, leBytes slotGenWidth generation⟩]
    match flushes slot slotGenWidth pieces with
    | (writes, .error refusal) => (opening ++ writes, .error refusal)
    | (writes, .ok written) =>
      if written > u32Max then (opening ++ writes, .error .fileTooLarge)
      else (opening ++ writes ++
        [⟨slot.offset, headerOf cd (slotPayload generation pieces.flatten)⟩],
        .ok (frameHeader + written))

/-! ## Recovery -/

structure CommittedSlot where
  generation : Nat
  second : Bool
  deriving DecidableEq, Repr

/-- `CommittedSlot::advanced_to`. -/
def CommittedSlot.advancedTo (c : CommittedSlot) (generation : Nat) : CommittedSlot :=
  { c with generation := max generation c.generation }

def claim (m : Bytes) (slot : Slot) : Option Nat :=
  match imageRead m slot.offset frameHeader with
  | .error _ => none
  | .ok header =>
    let len := leNat (header.take 4)
    if len < slotGenWidth ∨ frameHeader + len > slot.len then none
    else
      match imageRead m (slot.offset + frameHeader) slotGenWidth with
      | .error _ => none
      | .ok generation => some (leNat generation)

def newestFirst (m : Bytes) : List Bool :=
  match claim m (slotOf m.length false), claim m (slotOf m.length true) with
  | some g0, some g1 => if g1 > g0 then [true, false] else [false, true]
  | some _, none => [false]
  | none, some _ => [true]
  | none, none => []

def verifiedFrame (cd : Codec I D) (m : Bytes) (second : Bool) :
    Except VfsError (Option (CommittedSlot × Bytes)) :=
  let slot := slotOf m.length second
  match imageRead m slot.offset frameHeader with
  | .error refusal => .error refusal
  | .ok header =>
    let len := leNat (header.take 4)
    if slotGenWidth ≤ len ∧ frameHeader + len ≤ slot.len then
      match imageRead m (slot.offset + frameHeader) len with
      | .error refusal => .error refusal
      | .ok payload =>
        if (cd.crc32c payload).toNat ≠ leNat (header.drop 4) then .ok none
        else .ok (some (⟨leNat (payload.take slotGenWidth), second⟩, payload))
    else .ok none

def firstVerified (cd : Codec I D) (m : Bytes) :
    List Bool → Except VfsError (Option (CommittedSlot × Bytes))
  | [] => .ok none
  | second :: rest =>
    match verifiedFrame cd m second with
    | .error refusal => .error refusal
    | .ok (some committed) => .ok (some committed)
    | .ok none => firstVerified cd m rest

def recoverCommitted (cd : Codec I D) (m : Bytes) :
    Except VfsError (Option (CommittedSlot × Bytes)) :=
  firstVerified cd m (newestFirst m)

/-- `ShardImage::read_committed`. -/
def readCommitted (cd : Codec I D) (m : Bytes) : Except VfsError (Option (CommittedSlot × I)) :=
  match recoverCommitted cd m with
  | .error refusal => .error refusal
  | .ok none => .ok none
  | .ok (some (committed, payload)) =>
    match cd.decodeImage (payload.drop slotGenWidth) with
    | .error refusal => .error refusal
    | .ok image => .ok (some (committed, image))

/-- `unframe`: the length of the slot's payload, when its frame checks. -/
def unframe (cd : Codec I D) (m : Bytes) (slot : Slot) : Except VfsError (Option Nat) :=
  if slot.len < frameHeader then .ok none
  else
    match imageRead m slot.offset frameHeader with
    | .error refusal => .error refusal
    | .ok header =>
      let len := leNat (header.take 4)
      if len = 0 then .ok none
      else if slot.len < frameHeader + len then .error .recoveryIncomplete
      else
        match imageRead m (slot.offset + frameHeader) len with
        | .error refusal => .error refusal
        | .ok payload =>
          if (cd.crc32c payload).toNat ≠ leNat (header.drop 4) then .error .recoveryIncomplete
          else .ok (some len)

def slotGeneration (cd : Codec I D) (m : Bytes) (slot : Slot) : Option Nat :=
  match unframe cd m slot with
  | .ok (some len) =>
    if len < slotGenWidth then none
    else
      match imageRead m (slot.offset + frameHeader) slotGenWidth with
      | .ok generation => some (leNat generation)
      | .error _ => none
  | _ => none

def committedSlot (cd : Codec I D) (m : Bytes) : Option CommittedSlot :=
  (newestFirst m).findSome? fun second =>
    (slotGeneration cd m (slotOf m.length second)).map fun generation => ⟨generation, second⟩

end Slates.Checkpoint
