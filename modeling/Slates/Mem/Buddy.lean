import Slates.Library.Intervals
import Slates.Mem.Slab

/-!
The buddy allocator of `crates/mem`: blocks of a power of two granules, taken by halving larger
ones, given back by joining neighbours, and trimmed.
-/

namespace Slates.Mem

/-- What a granule's state byte says: no block, or one of `2 ^ order` granules. -/
inductive Mark
  | inside
  | free (order : Nat)
  | held (order : Nat)
  deriving DecidableEq, Repr

namespace Mark

def width : Mark → Option Nat
  | .inside => none
  | .free o => some (2 ^ o)
  | .held o => some (2 ^ o)

def heldOrder : Mark → Option Nat
  | .held o => some o
  | _ => none

/-- The order bits of the state byte; those of a granule that starts no block are zero. -/
def order : Mark → Nat
  | .inside => 0
  | .free o => o
  | .held o => o

theorem heldOrder_eq_some {m : Mark} {o : Nat} : m.heldOrder = some o ↔ m = .held o := by
  cases m <;> simp [heldOrder]

theorem width_pos {m : Mark} {n : Nat} (h : m.width = some n) : 0 < n := by
  cases m with
  | inside => cases h
  | free o => exact Option.some.inj h ▸ Nat.two_pow_pos o
  | held o => exact Option.some.inj h ▸ Nat.two_pow_pos o

end Mark

structure Block where
  offset : Nat
  len : Nat
  incarnation : Nat
  deriving DecidableEq, Repr

/-- A region's allocator. A free list holds the blocks linked last first, as the source's doubly
linked lists do; the bitmaps have a bit for each granule. -/
structure Buddy where
  granule : Nat
  maxOrder : Nat
  state : Nat → Mark
  heads : Nat → List Nat
  incarnations : Nat → Nat
  live : Nat → Bool
  committed : Nat → Bool
  deferred : Nat → Bool
  capture : Nat → Bool
  locked : Nat → Bool
  capturing : Bool
  imaged : Bool

namespace Buddy

/-- `Buddy::new`: one free block. -/
def new (granule maxOrder : Nat) : Buddy where
  granule := granule
  maxOrder := maxOrder
  state := put (fun _ => .inside) 0 (.free maxOrder)
  heads := put (fun _ => []) maxOrder [0]
  incarnations := fun _ => 0
  live := fun _ => false
  committed := fun _ => false
  deferred := fun _ => false
  capture := fun _ => false
  locked := fun _ => false
  capturing := false
  imaged := false

/-- `Buddy::new_imaged`: an image may name blocks from the start. -/
def newImaged (granule maxOrder : Nat) : Buddy := { new granule maxOrder with imaged := true }

def orderBytes (b : Buddy) (order : Nat) : Nat := 2 ^ order * b.granule

def regionBytes (b : Buddy) : Nat := 2 ^ b.maxOrder * b.granule

/-- The granules `len` bytes take. -/
def granules (b : Buddy) (len : Nat) : Nat := (max len 1 + (b.granule - 1)) / b.granule

/-- `Buddy::order_for`: the smallest order whose blocks hold `len` bytes. -/
def orderFor (b : Buddy) (len : Nat) : Except MemError Nat :=
  match (List.range (b.maxOrder + 1)).find? fun o => b.granules len ≤ 2 ^ o with
  | some o => .ok o
  | none => .error (.tooLarge len b.regionBytes)

def largestFree (b : Buddy) : Nat :=
  match (List.range (b.maxOrder + 1)).reverse.find? fun o => !(b.heads o).isEmpty with
  | some o => b.orderBytes o
  | none => 0

def setState (b : Buddy) (i : Nat) (m : Mark) : Buddy := { b with state := put b.state i m }

def link (b : Buddy) (i o : Nat) : Buddy := { b with heads := put b.heads o (i :: b.heads o) }

def unlink (b : Buddy) (i o : Nat) : Buddy :=
  { b with heads := put b.heads o ((b.heads o).erase i) }

/-- The upper halves from order `order + k` down to `order`, freed. -/
def split (b : Buddy) (index order : Nat) : Nat → Buddy
  | 0 => b
  | k + 1 =>
    let upper := index + 2 ^ (order + k)
    split ((b.setState upper (.free (order + k))).link upper (order + k)) index order k

def setLive (b : Buddy) (i : Nat) (on : Bool) : Buddy :=
  if b.imaged then { b with live := put b.live i on } else b

def hold (b : Buddy) (index order incarnation : Nat) : Buddy :=
  setLive { b with
    state := put b.state index (.held order)
    incarnations := put b.incarnations index incarnation } index true

/-- `Buddy::alloc`. -/
def alloc (b : Buddy) (len : Nat) : Except MemError (Block × Buddy) := do
  let order ← b.orderFor len
  match (List.range' order (b.maxOrder + 1 - order)).findSome?
      fun o => (b.heads o).head?.map fun i => (o, i) with
  | none => .error (.arenaExhausted len b.largestFree)
  | some (found, index) =>
    let incarnation := b.incarnations index + 1
    if incarnation > u64Max then .error (.generationExhausted index)
    else
      .ok (⟨index * b.granule, b.orderBytes order, incarnation⟩,
        ((b.unlink index found).split index order (found - order)).hold index order incarnation)

/-- `Buddy::validate`: the first granule and the order of a block that is held. -/
def validate (b : Buddy) (block : Block) : Except ExtentRefusal (Nat × Nat) :=
  if block.offset % b.granule ≠ 0 then .error .misaligned
  else
    match b.orderFor block.len with
    | .error _ => .error .wrongLength
    | .ok order =>
      if b.orderBytes order ≠ block.len then .error .wrongLength
      else
        let index := block.offset / b.granule
        if index % 2 ^ order ≠ 0 then .error .misaligned
        else if index ≥ 2 ^ b.maxOrder then .error .outOfRange
        else if b.state index ≠ .held order then .error .notAllocated
        else if b.incarnations index ≠ block.incarnation then .error .stale
        else .ok (index, order)

def foreign (block : Block) (reason : ExtentRefusal) : MemError :=
  .foreignExtent block.offset block.len reason

/-- Whether the committed image, or the one being captured, names the block at `i`. -/
def named (b : Buddy) (i : Nat) : Bool := b.committed i || (b.capturing && b.capture i)

def namedByAnImage (b : Buddy) (i : Nat) : Bool := b.imaged && b.named i

/-- `Buddy::imaged`. -/
def isImaged (b : Buddy) (block : Block) : Bool :=
  match b.validate block with
  | .ok (i, _) => b.namedByAnImage i
  | .error _ => false

/-- `Buddy::holds`. -/
def holds (b : Buddy) (block : Block) : Bool :=
  match b.validate block with
  | .ok (i, _) => !b.deferred i
  | .error _ => false

def isLocked (b : Buddy) (block : Block) : Bool :=
  match b.validate block with
  | .ok (i, _) => b.locked i
  | .error _ => false

/-- `Buddy::lock_block`. -/
def lockBlock (b : Buddy) (block : Block) : Except MemError Buddy :=
  match b.validate block with
  | .ok (i, _) => .ok { b with locked := put b.locked i true }
  | .error reason => .error (foreign block reason)

/-- The other half of the block twice as long: `index ^ (1 << order)`. -/
def buddyOf (index order : Nat) : Nat :=
  if index / 2 ^ order % 2 = 0 then index + 2 ^ order else index - 2 ^ order

/-- `Buddy::coalesce`, with the orders left to join. -/
def coalesce (b : Buddy) (index order : Nat) : Nat → Buddy × Nat × Nat
  | 0 => (b, index, order)
  | k + 1 =>
    let buddy := buddyOf index order
    if b.state buddy = .free order then
      coalesce ((b.unlink buddy order).setState (max buddy index) .inside) (min index buddy)
        (order + 1) k
    else (b, index, order)

/-- `Buddy::coalesce_free`. -/
def coalesceFree (b : Buddy) (index order : Nat) : Buddy :=
  match b.coalesce index order (b.maxOrder - order) with
  | (b, index, order) => (b.setState index (.free order)).link index order

/-- `Buddy::release`. -/
def release (b : Buddy) (index order : Nat) : Buddy :=
  coalesceFree { b.setLive index false with locked := put b.locked index false } index order

/-- `Buddy::free_or_defer`; whether it deferred. -/
def freeOrDefer (b : Buddy) (block : Block) : Except MemError (Bool × Buddy) :=
  match b.validate block with
  | .error reason => .error (foreign block reason)
  | .ok (index, order) =>
    if !b.namedByAnImage index then .ok (false, b.release index order)
    else if b.deferred index then .error (foreign block .notAllocated)
    else .ok (true, { b with deferred := put b.deferred index true })

/-- `pieces_of`: the blocks the set bits of `granules` make, largest first. -/
def piecesOf (at_ granules : Nat) : (below : Nat) → List (Nat × Nat)
  | 0 => []
  | k + 1 =>
    if granules.testBit k then (at_, k) :: piecesOf (at_ + 2 ^ k) granules k
    else piecesOf at_ granules k

/-- Where the pieces of a block at `index` end. -/
def piecesEnd (index : Nat) (pieces : List (Nat × Nat)) : Nat :=
  match pieces.getLast? with
  | some (p, o) => p + 2 ^ o
  | none => index

/-- The longest block that starts at `at_` and ends by `end_`, of at most `order`. -/
def tailOrder (at_ end_ order : Nat) : Nat :=
  ((List.range (order + 1)).reverse.find? fun o => at_ % 2 ^ o = 0 ∧ at_ + 2 ^ o ≤ end_).getD 0

def freeTail (b : Buddy) (at_ end_ order : Nat) : (fuel : Nat) → Buddy
  | 0 => b
  | fuel + 1 =>
    if at_ < end_ then
      let o := tailOrder at_ end_ order
      freeTail (b.coalesceFree at_ o) (at_ + 2 ^ o) end_ order fuel
    else b

/-- The incarnations of the pieces a trim keeps: the first stays the block it was. -/
def pieceIncarnation (b : Buddy) (block : Block) (index piece : Nat) : Nat :=
  if piece = index then block.incarnation else b.incarnations piece + 1

/-- `Buddy::trim`: the pieces kept, or nothing where the block stays whole. -/
def trim (b : Buddy) (block : Block) (keep : Nat) : Except MemError (Option (List Block × Buddy)) :=
  match b.validate block with
  | .error reason => .error (foreign block reason)
  | .ok (index, order) =>
    let granules := b.granules keep
    if granules ≥ 2 ^ order ∨ b.namedByAnImage index ∨ b.isLocked block then .ok none
    else
      let pieces := piecesOf index granules order
      match pieces.find? fun p => b.pieceIncarnation block index p.1 > u64Max with
      | some p => .error (.generationExhausted p.1)
      | none =>
        let kept := pieces.foldl (fun c p => c.hold p.1 p.2 (b.pieceIncarnation block index p.1)) b
        .ok (some (pieces.map fun p =>
            ⟨p.1 * b.granule, b.orderBytes p.2, b.pieceIncarnation block index p.1⟩,
          kept.freeTail (piecesEnd index pieces) (index + 2 ^ order) order (2 ^ order)))

/-- `Buddy::trimmed_blocks`: the blocks a chunk trimmed to `keep` bytes holds. -/
def trimmedBlocks (b : Buddy) (head : Block) (keep : Nat) : Except ExtentRefusal (List Block) :=
  match b.validate head with
  | .error reason => .error reason
  | .ok (index, order) =>
    let pieces := piecesOf index (b.granules keep) (order + 1)
    if pieces.head? ≠ some (index, order) then .error .wrongLength
    else if pieces.all fun p => b.state p.1 = .held p.2 then
      .ok (pieces.map fun p => ⟨p.1 * b.granule, b.orderBytes p.2, b.incarnations p.1⟩)
    else .error .notAllocated

def holdsTrimmed (b : Buddy) (head : Block) (keep : Nat) : Bool :=
  (b.trimmedBlocks head keep).isOk

/-- Each of several blocks freed or deferred in turn; whether any was deferred. -/
def freeOrDeferAll (b : Buddy) : List Block → Except MemError (Bool × Buddy)
  | [] => .ok (false, b)
  | block :: rest => do
    let (deferred, b) ← b.freeOrDefer block
    let (more, b) ← freeOrDeferAll b rest
    return (deferred || more, b)

/-- `Buddy::free_or_defer_trimmed`. -/
def freeOrDeferTrimmed (b : Buddy) (head : Block) (keep : Nat) : Except MemError (Bool × Buddy) :=
  match b.trimmedBlocks head keep with
  | .error reason => .error (foreign head reason)
  | .ok blocks => b.freeOrDeferAll blocks

/-- `Buddy::capture`: the next image names what is held and not deferred. -/
def beginCapture (b : Buddy) : Buddy :=
  let live := if b.imaged then b.live else fun i => (b.state i).heldOrder.isSome
  { b with
    live := live
    imaged := true
    capturing := true
    capture := fun i => live i && !b.deferred i }

/-- The deferred granules of `which`, in order. -/
def deferredOf (b : Buddy) (which : Nat → Bool) : List Nat :=
  (List.range (2 ^ b.maxOrder)).filter fun i => b.deferred i && which i

/-- Each deferred granule of `which` is released at the order its state byte has by then. -/
def releaseDeferred (b : Buddy) (which : Nat → Bool) : Buddy :=
  (b.deferredOf which).foldl
    (fun c i => { c with deferred := put c.deferred i false }.release i (c.state i).order) b

/-- `Buddy::commit_capture`: the deferred blocks the captured image does not name are released. A
release reads nothing of the committed image, so it is replaced first here. -/
def commitCapture (b : Buddy) : Buddy :=
  if b.capturing then
    { b with capturing := false, committed := b.capture }.releaseDeferred fun i => !b.capture i
  else b

/-- `Buddy::abandon_capture`. -/
def abandonCapture (b : Buddy) : Buddy :=
  if b.capturing then { b with capturing := false }.releaseDeferred fun i => !b.committed i
  else b

end Buddy

end Slates.Mem
