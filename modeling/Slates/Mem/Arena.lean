import Slates.Mem.Trimming

/-!
The chunk arena of `crates/mem`: regions of bytes, each with a buddy of its own, and extents that
name a block of one of them.
-/

namespace Slates.Mem

/-- `arena::Extent`: a block of one region of one arena. -/
structure Extent where
  arena : Nat
  region : Nat
  block : Block
  deriving DecidableEq, Repr

namespace Extent

def offset (e : Extent) : Nat := e.block.offset

def len (e : Extent) : Nat := e.block.len

def foreign (e : Extent) (reason : ExtentRefusal) : MemError :=
  .foreignExtent e.offset e.len reason

end Extent

structure Slot (granule : Nat) where
  id : Nat
  size : Nat
  mem : Nat → UInt8
  buddy : Buddy
  sound : buddy.Sound
  steady : buddy.Steady
  uniform : buddy.granule = granule
  fits : buddy.regionBytes ≤ size

namespace Slot

variable {granule : Nat}

def fresh (id order : Nat) (h : 0 < granule) : Slot granule where
  id := id
  size := 2 ^ order * granule
  mem := fun _ => 0
  buddy := .new granule order
  sound := Buddy.sound_new h
  steady := ⟨rfl, nofun⟩
  uniform := rfl
  fits := le_refl _

def withBuddy (s : Slot granule) (b : Buddy) (h : Buddy.Kept s.buddy b) : Slot granule :=
  { s with
    buddy := b
    sound := h.sound
    steady := h.steady
    uniform := h.granule.trans s.uniform
    fits := by rw [Buddy.regionBytes, h.granule, h.maxOrder]; exact s.fits }

/-- `len` bytes of the region from `off` on, when it has them. -/
def read (s : Slot granule) (off len : Nat) : Option (List UInt8) :=
  if off + len ≤ s.size then some ((List.range len).map fun i => s.mem (off + i)) else none

def write (s : Slot granule) (off : Nat) (bytes : List UInt8) : Slot granule :=
  { s with mem := fun i =>
    if off ≤ i ∧ i < off + bytes.length then bytes.getD (i - off) 0 else s.mem i }

/-- `scrub`: zeros. -/
def scrub (s : Slot granule) (off len : Nat) : Slot granule :=
  { s with mem := fun i => if off ≤ i ∧ i < off + len then 0 else s.mem i }

def alloc (s : Slot granule) (len : Nat) : Except MemError (Block × Slot granule) :=
  match h : s.buddy.alloc len with
  | .error e => .error e
  | .ok (block, b) => .ok (block, s.withBuddy b (Buddy.alloc_kept s.sound s.steady h))

/-- A block freed: scrubbed, unless an image names it. -/
def free (s : Slot granule) (block : Block) : Except MemError (Slot granule) :=
  match h : s.buddy.freeOrDefer block with
  | .error e => .error e
  | .ok (deferred, b) =>
    let s := s.withBuddy b (Buddy.freeOrDefer_kept s.sound s.steady h)
    .ok (if deferred then s else s.scrub block.offset block.len)

/-- `ChunkArena::trim` in its region. Only what was written past the head is scrubbed. -/
def trim (s : Slot granule) (block : Block) (keep dirty : Nat) :
    Except MemError (Option (Option Block × Slot granule)) :=
  match h : s.buddy.trim block keep with
  | .error e => .error e
  | .ok none => .ok none
  | .ok (some (pieces, b)) =>
    let s := s.withBuddy b (Buddy.trim_kept s.sound s.steady h)
    let tail := block.offset + (pieces.map Block.len).sum
    let written := min (block.offset + dirty) (block.offset + block.len)
    .ok (some (pieces.head?, if written > tail then s.scrub tail (written - tail) else s))

/-- `ChunkArena::release_trimmed` in its region. -/
def freeTrimmed (s : Slot granule) (head : Block) (keep : Nat) : Except MemError (Slot granule) :=
  match h : s.buddy.freeOrDeferTrimmed head keep with
  | .error e => .error e
  | .ok (deferred, b) =>
    let span := s.buddy.granules keep * granule
    let s := s.withBuddy b (Buddy.freeOrDeferTrimmed_kept s.sound s.steady h)
    .ok (if deferred then s else s.scrub head.offset span)

def lock (s : Slot granule) (block : Block) : Except MemError (Slot granule) :=
  match h : s.buddy.lockBlock block with
  | .error e => .error e
  | .ok b => .ok (s.withBuddy b (Buddy.lockBlock_kept s.sound s.steady h))

end Slot

/-- `ChunkArena`. The slots stand in the order allocation tries them in. -/
structure ChunkArena (granule : Nat) where
  identity : Option Nat
  slots : List (Slot granule)
  granule_pow : ∃ k, granule = 2 ^ k
  ids : (slots.map Slot.id).Nodup

namespace ChunkArena

variable {granule : Nat}

theorem exists_two_pow (k : Nat) : ∃ j, 2 ^ k = 2 ^ j := ⟨k, rfl⟩

/-- `ChunkArena::new`, with one region added. -/
def new (identity k order : Nat) : ChunkArena (2 ^ k) where
  identity := some identity
  slots := [.fresh 0 order (Nat.two_pow_pos k)]
  granule_pow := exists_two_pow k
  ids := List.nodup_singleton _

/-- `ChunkArena::slot`. -/
def slot (a : ChunkArena granule) (id : Nat) : Option (Slot granule) :=
  a.slots.find? fun s => s.id = id

def setSlot (a : ChunkArena granule) (s : Slot granule) : ChunkArena granule :=
  { a with
    slots := a.slots.map fun t => if t.id = s.id then s else t
    ids := by
      have : (a.slots.map fun t => if t.id = s.id then s else t).map Slot.id =
          a.slots.map Slot.id := by
        rw [List.map_map]
        refine List.map_congr_left fun t _ => ?_
        simp only [Function.comp_apply]
        split
        · rename_i h
          exact h.symm
        · rfl
      rw [this]
      exact a.ids }

/-- The slots in their order, the first with room. -/
def firstFit (len : Nat) :
    List (Slot granule) → (largest : Nat) → Except MemError (Block × Slot granule)
  | [], largest => .error (.arenaExhausted len largest)
  | s :: rest, largest =>
    match s.alloc len with
    | .ok found => .ok found
    | .error (.arenaExhausted _ largestFree) => firstFit len rest (max largest largestFree)
    | .error (.tooLarge _ _) => firstFit len rest (max largest s.buddy.largestFree)
    | .error e => .error e

/-- `ChunkArena::exhausted`. -/
def exhausted (a : ChunkArena granule) (len largest : Nat) : MemError :=
  let max_ := (a.slots.map fun s => s.buddy.regionBytes).foldl max 0
  if len > max_ ∧ max_ > 0 then .tooLarge len max_ else .arenaExhausted len largest

/-- `ChunkArena::release_extent`. -/
def free (a : ChunkArena granule) (e : Extent) : Except MemError (ChunkArena granule) :=
  if a.identity ≠ some e.arena then .error (e.foreign .otherArena)
  else
    match a.slot e.region with
    | none => .error (e.foreign .noSuchRegion)
    | some s =>
      match s.free e.block with
      | .error refusal => .error refusal
      | .ok s => .ok (a.setSlot s)

/-- `ChunkArena::alloc`. Where the operating system refuses the pages (`prepared`), the block goes
back. -/
def alloc (a : ChunkArena granule) (prepared : Bool) (len : Nat) :
    Except MemError Extent × ChunkArena granule :=
  match a.identity with
  | none => (.error (.generationExhausted u32Max), a)
  | some identity =>
    match firstFit len a.slots 0 with
    | .error (.arenaExhausted _ largest) => (.error (a.exhausted len largest), a)
    | .error e => (.error e, a)
    | .ok (block, s) =>
      if prepared then (.ok ⟨identity, s.id, block⟩, a.setSlot s)
      else
        match s.free block with
        | .ok s => (.error .osRefused, a.setSlot s)
        | .error e => (.error e, a.setSlot s)

/-- `ChunkArena::lock_extent`; `locks` is the operating system's answer. -/
def lockExtent (a : ChunkArena granule) (locks : Bool) (e : Extent) :
    Except MemError (ChunkArena granule) :=
  if a.identity ≠ some e.arena then .error (e.foreign .otherArena)
  else
    match a.slot e.region with
    | none => .error (e.foreign .noSuchRegion)
    | some s =>
      if s.buddy.isLocked e.block then .ok a
      else if locks then
        match s.lock e.block with
        | .error refusal => .error refusal
        | .ok s => .ok (a.setSlot s)
      else .error (.lockRefused e.len)

/-- `ChunkArena::alloc_locked`. -/
def allocLocked (a : ChunkArena granule) (prepared locks : Bool) (len : Nat) :
    Except MemError Extent × ChunkArena granule :=
  match a.alloc prepared len with
  | (.error e, a) => (.error e, a)
  | (.ok e, a) =>
    match a.lockExtent locks e with
    | .ok a => (.ok e, a)
    | .error refusal =>
      match a.free e with
      | .ok a => (.error refusal, a)
      | .error refusal => (.error refusal, a)

/-- `ChunkArena::trim`. -/
def trim (a : ChunkArena granule) (e : Extent) (keep dirty : Nat) :
    Except MemError (Option (Option Extent × ChunkArena granule)) :=
  if a.identity ≠ some e.arena then .error (e.foreign .otherArena)
  else
    match a.slot e.region with
    | none => .error (e.foreign .noSuchRegion)
    | some s =>
      match s.trim e.block keep dirty with
      | .error refusal => .error refusal
      | .ok none => .ok none
      | .ok (some (head, s)) =>
        .ok (some (head.map fun b => ⟨e.arena, e.region, b⟩, a.setSlot s))

/-- `ChunkArena::free_trimmed`. -/
def freeTrimmed (a : ChunkArena granule) (head : Extent) (keep : Nat) :
    Except MemError (ChunkArena granule) :=
  if a.identity ≠ some head.arena then .error (head.foreign .otherArena)
  else
    match a.slot head.region with
    | none => .error (head.foreign .noSuchRegion)
    | some s =>
      match s.freeTrimmed head.block keep with
      | .error refusal => .error refusal
      | .ok s => .ok (a.setSlot s)

/-- A question about the region of an extent of this arena. -/
def asks (a : ChunkArena granule) (e : Extent) (q : Slot granule → Bool) : Bool :=
  a.identity == some e.arena &&
    match a.slot e.region with
    | some s => q s
    | none => false

/-- `ChunkArena::holds`. -/
def holds (a : ChunkArena granule) (e : Extent) : Bool := a.asks e fun s => s.buddy.holds e.block

/-- `ChunkArena::imaged`. -/
def imaged (a : ChunkArena granule) (e : Extent) : Bool :=
  a.asks e fun s => s.buddy.isImaged e.block

/-- `ChunkArena::is_locked`. -/
def isLocked (a : ChunkArena granule) (e : Extent) : Bool :=
  a.asks e fun s => s.buddy.isLocked e.block

/-- `ChunkArena::holds_trimmed`. -/
def holdsTrimmed (a : ChunkArena granule) (head : Extent) (keep : Nat) : Bool :=
  a.asks head fun s => s.buddy.holdsTrimmed head.block keep

/-- Whether any block waits for a publication: `deferred_bytes() > 0`. -/
def deferring (a : ChunkArena granule) : Bool :=
  a.slots.any fun s => (List.range (2 ^ s.buddy.maxOrder)).any s.buddy.deferred

/-- `len` bytes of a region. -/
def read (a : ChunkArena granule) (region off len : Nat) : Option (List UInt8) :=
  (a.slot region).bind fun s => s.read off len

/-- `ChunkArena::bytes`. -/
def bytes (a : ChunkArena granule) (e : Extent) : Option (List UInt8) :=
  a.read e.region e.offset e.len

/-- `ChunkArena::span`. -/
def span (a : ChunkArena granule) (head : Extent) (len : Nat) : Option (List UInt8) :=
  a.read head.region head.offset len

/-- Bytes put into an extent's block from `at_` on, through `ChunkArena::bytes_mut`. -/
def write (a : ChunkArena granule) (e : Extent) (at_ : Nat) (bytes : List UInt8) :
    ChunkArena granule :=
  match a.slot e.region with
  | some s => a.setSlot (s.write (e.offset + at_) bytes)
  | none => a

end ChunkArena

end Slates.Mem
