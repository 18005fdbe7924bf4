import Slates.Mem.Extents
import Slates.Content.Cipher

/-!
The chunk store of `crates/vfs`: bytes live in open extents until they are sealed into chunks, in
the clear or under a key, one granule a segment.
-/

namespace Slates.Content

open Mem

/-- What the operating system and the allocator answer, one request after the other. -/
structure Host where
  answers : Nat → Bool
  asked : Nat

def Host.ask (h : Host) : Bool × Host := (h.answers h.asked, { h with asked := h.asked + 1 })

structure ChunkSeal where
  key : Nat
  version : Nat
  tags : Handle
  segments : Nat
  deriving DecidableEq, Repr

/-- `Chunk`; its bytes' hash, which no seal computes, is left out. -/
structure Chunk where
  born : Nat
  len : Nat
  block : Mem.Extent
  sealing : Option ChunkSeal
  deriving DecidableEq, Repr

inductive ExtentSrc
  | chunk (chunk : Handle) (at_ : Nat)
  | zero
  deriving DecidableEq, Repr

structure Extent where
  off : Nat
  len : Nat
  src : ExtentSrc
  deriving DecidableEq, Repr

/-- The extent of an open file: a block written in place until it is sealed. -/
structure OpenExtent where
  off : Nat
  len : Nat
  block : Mem.Extent
  born : Nat
  dirtyTo : Nat
  deriving DecidableEq, Repr

/-- One call of the cipher's seal. -/
structure Request where
  key : KeyIdentity
  version : Nat
  index : Nat
  segment : List UInt8
  deriving DecidableEq, Repr

/-- `ChunkStore`, over an arena of granule `g`, without its counters and scratch. `host` holds the
answers of the system below, `requests` what the cipher was asked to seal, last first. -/
structure ChunkStore (g : Nat) where
  arena : ChunkArena g
  chunks : Slab Chunk
  page : Nat
  cipher : Option ShardCipher
  tags : Slab (List Tag)
  nextVersion : Nat
  host : Host
  requests : List Request
  page_pow : ∃ k, page = 2 ^ k
  page_le : 16 * page ≤ u32Max

namespace ChunkStore

variable {g : Nat}

/-- `ChunkStore::new` over a page of `2 ^ j` bytes, with a cipher set. -/
def new (arena : ChunkArena g) (j maxChunks : Nat) (cipher : Option ShardCipher)
    (answers : Nat → Bool) (h : 16 * 2 ^ j ≤ u32Max) : ChunkStore g where
  arena := arena
  chunks := .empty maxChunks
  page := 2 ^ j
  cipher := cipher
  tags := .empty maxChunks
  nextVersion := 0
  host := ⟨answers, 0⟩
  requests := []
  page_pow := ChunkArena.exists_two_pow j
  page_le := h

/-- The allocation unit: the arena's granule, at most a page. -/
def granule (s : ChunkStore g) : Nat := min g s.page

/-- The chunk size: sixteen pages. -/
def chunkBytes (s : ChunkStore g) : Nat := 16 * s.page

/-- The next answer of the system below. -/
def ask (s : ChunkStore g) : Bool × ChunkStore g := (s.host.ask.1, { s with host := s.host.ask.2 })

/-- `ChunkStore::granule_round`, and `ChunkStore::trimmed_size`. -/
def granuleRound (s : ChunkStore g) (len : Nat) : Nat :=
  (max len 1 + (s.granule - 1)) / s.granule * s.granule

/-- `ChunkStore::is_trimmed`. -/
def isTrimmed (s : ChunkStore g) (chunk : Chunk) : Bool :=
  s.granuleRound chunk.len > chunk.block.len

/-- `ChunkStore::stored_bytes`. -/
def storedBytes (s : ChunkStore g) (chunk : Chunk) : Nat :=
  if s.isTrimmed chunk then s.granuleRound chunk.len else chunk.block.len

/-! ## Sealing -/

/-- `TagStore::alloc`: a run of tags, when the allocator and the slab have room. -/
def allocTags (s : ChunkStore g) (segments : Nat) : Except VfsError Handle × ChunkStore g :=
  match s.ask with
  | (false, s) => (.error .noSpace, s)
  | (true, s) =>
    match s.tags.insert (List.replicate segments (List.replicate 16 0)) with
    | .ok (run, tags) => (.ok run, { s with tags := tags })
    | .error refusal => (.error (.memory refusal), s)

/-- `TagStore::free`. -/
def freeTags (s : ChunkStore g) (run : Handle) : Except VfsError (ChunkStore g) :=
  match s.tags.remove run with
  | .ok (_, tags) => .ok { s with tags := tags }
  | .error refusal => .error (.memory refusal)

/-- The segments of `left` granules from number `index` on: what the cipher was asked, and the bytes
and tags when it refused none. -/
def sealFrom (c : ShardCipher) (key version granule segments : Nat) :
    (index left : Nat) → List UInt8 → List Request × Option (List UInt8 × List Tag)
  | _, 0, _ => ([], some ([], []))
  | index, left + 1, bytes =>
    let segment := bytes.take granule
    let request := if index ≤ u32Max then
      (c.held key).toList.map fun h => ⟨h.identity, version, index, segment⟩ else []
    match if index ≤ u32Max then c.sealAs key version index (index + 1 = segments) segment
        else (segment, none) with
    | (_, none) => (request, none)
    | (sealed, some tag) =>
      match sealFrom c key version granule segments (index + 1) left (bytes.drop granule) with
      | (requests, some (rest, tags)) => (requests ++ request, some (sealed ++ rest, tag :: tags))
      | (requests, none) => (requests ++ request, none)

/-- `ChunkStore::seal_in_place`: every segment of the block's first `len` bytes sealed, or the
plaintext left. -/
def sealInPlace (s : ChunkStore g) (block : Mem.Extent) (len key version : Nat) (run : Handle)
    (segments : Nat) : Bool × ChunkStore g :=
  match s.ask with
  | (false, s) => (false, s)
  | (true, s) =>
    match s.arena.bytes block, s.cipher with
    | some bytes, some c =>
      if len ≤ bytes.length then
        match sealFrom c key version s.granule segments 0 segments (bytes.take len) with
        | (requests, some (sealed, tags)) =>
          (true, { s with
            arena := s.arena.write block 0 sealed
            tags := s.tags.modify run fun _ => tags
            requests := requests ++ s.requests })
        | (requests, none) => (false, { s with requests := requests ++ s.requests })
      else (false, s)
    | _, _ => (false, s)

/-- `ChunkStore::seal_block`. -/
def sealBlock (s : ChunkStore g) (block : Mem.Extent) (len key : Nat) :
    Option ChunkSeal × ChunkStore g :=
  let segments := max ((len + (s.granule - 1)) / s.granule) 1
  let version := s.nextVersion
  match s.allocTags segments with
  | (.error _, s) => (none, s)
  | (.ok run, s) =>
    match s.sealInPlace block len key version run segments with
    | (true, s) =>
      if version + 1 ≤ u64Max then
        let s := { s with nextVersion := version + 1 }
        if segments ≤ u32Max then (some ⟨key, version, run, segments⟩, s) else (none, s)
      else (none, s)
    | (false, s) =>
      match s.freeTags run with
      | .ok s => (none, s)
      | .error _ => (none, s)

def allocBlock (s : ChunkStore g) (len : Nat) (locked : Bool) :
    Except MemError Mem.Extent × ChunkStore g :=
  match s.ask with
  | (prepared, s) =>
    if locked then
      match s.ask with
      | (locks, s) =>
        match s.arena.allocLocked prepared locks len with
        | (result, arena) => (result, { s with arena := arena })
    else
      match s.arena.alloc prepared len with
      | (result, arena) => (result, { s with arena := arena })

/-- `ChunkStore::copied_out_of_image`: a new block with the first `len` bytes. -/
def copiedOutOfImage (s : ChunkStore g) (block : Mem.Extent) (len : Nat) :
    Option Mem.Extent × ChunkStore g :=
  match s.ask with
  | (false, s) => (none, s)
  | (true, s) =>
    match s.arena.bytes block with
    | none => (none, s)
    | some bytes =>
      if len ≤ bytes.length then
        match s.allocBlock block.len (s.arena.isLocked block) with
        | (.error _, s) => (none, s)
        | (.ok copy, s) =>
          if len ≤ copy.len then
            (some copy, { s with arena := s.arena.write copy 0 (bytes.take len) })
          else
            match s.arena.free copy with
            | .ok arena => (none, { s with arena := arena })
            | .error _ => (none, s)
      else (none, s)

/-- `ChunkStore::seal_where_safe`: in place, or beside it when an image names the block. -/
def sealWhereSafe (s : ChunkStore g) (block : Mem.Extent) (len key : Nat) :
    (Mem.Extent × Option ChunkSeal) × ChunkStore g :=
  if s.arena.imaged block then
    match s.copiedOutOfImage block len with
    | (none, s) => ((block, none), s)
    | (some copy, s) =>
      match s.sealBlock copy len key with
      | (sealing, s) => ((copy, sealing), s)
  else
    match s.sealBlock block len key with
    | (sealing, s) => ((block, sealing), s)

/-- `ChunkStore::hold_key`. -/
def holdKey (s : ChunkStore g) (key : Nat) : Except VfsError (ChunkStore g) :=
  match s.cipher with
  | none => .error .integrity
  | some c =>
    match c.hold key with
    | .ok c => .ok { s with cipher := some c }
    | .error refusal => .error refusal

/-- `ChunkStore::release_key`. -/
def releaseKey (s : ChunkStore g) (key : Nat) : Except VfsError (ChunkStore g) :=
  match s.cipher with
  | none => .error .integrity
  | some c =>
    match c.release key with
    | .ok c => .ok { s with cipher := some c }
    | .error refusal => .error refusal

/-- The hold a sealed chunk's record takes of its key. -/
def holdSeal (s : ChunkStore g) : Option ChunkSeal → Except VfsError (ChunkStore g)
  | none => .ok s
  | some sealing => s.holdKey sealing.key

/-- The chunk recorded, its key held first; both or neither. -/
def record (s : ChunkStore g) (chunk : Chunk) : Except VfsError Handle × ChunkStore g :=
  match s.holdSeal chunk.sealing with
  | .error refusal => (.error refusal, s)
  | .ok s =>
    match s.chunks.insert chunk with
    | .ok (handle, chunks) => (.ok handle, { s with chunks := chunks })
    | .error refusal =>
      match chunk.sealing with
      | none => (.error (.memory refusal), s)
      | some sealing =>
        match s.releaseKey sealing.key with
        | .ok s => (.error (.memory refusal), s)
        | .error other => (.error other, s)

/-- A refused record gives back the seal's tags, and the block copied to. -/
def giveBack (s : ChunkStore g) (refusal : VfsError) (sealing : Option ChunkSeal)
    (copy : Option Mem.Extent) : VfsError × ChunkStore g :=
  let (tagsBack, s) : Except VfsError Unit × ChunkStore g :=
    match sealing with
    | none => (.ok (), s)
    | some sealing =>
      match s.freeTags sealing.tags with
      | .ok s => (.ok (), s)
      | .error other => (.error other, s)
  let (copyBack, s) : Except VfsError Unit × ChunkStore g :=
    match copy with
    | none => (.ok (), s)
    | some copy =>
      match s.arena.free copy with
      | .ok arena => (.ok (), { s with arena := arena })
      | .error other => (.error (.memory other), s)
  (refusal.afterUndo id (tagsBack >>= fun _ => copyBack), s)

/-- `ChunkStore::trim_sealed`: the block cut to its chunk's length, where the arena can. -/
def trimSealed (s : ChunkStore g) (chunk : Handle) (block : Mem.Extent) (len dirty : Nat) :
    ChunkStore g :=
  match s.arena.trim block len dirty with
  | .ok (some (some head, arena)) =>
    { s with arena := arena, chunks := s.chunks.modify chunk fun c => { c with block := head } }
  | .ok (some (none, arena)) => { s with arena := arena }
  | .ok none => s
  | .error _ => s

end ChunkStore

/-- `ChunkStore::seal`: an open extent becomes a chunk, under `key` if there is a cipher. -/
def ChunkStore.seal {g : Nat} (s : ChunkStore g) (o : OpenExtent) (key : Option Nat) :
    Except VfsError (Option Extent) × ChunkStore g :=
  if o.len = 0 then
    match s.arena.free o.block with
    | .ok arena => (.ok none, { s with arena := arena })
    | .error refusal => (.error (.memory refusal), s)
  else
    let ((block, sealing), s) := match key, s.cipher with
      | some key, some _ => s.sealWhereSafe o.block o.len key
      | _, _ => ((o.block, none), s)
    let dirty := if block = o.block then o.dirtyTo else o.len
    match s.record ⟨o.born, min o.len u32Max, block, sealing⟩ with
    | (.error refusal, s) =>
      match s.giveBack refusal sealing (if block = o.block then none else some block) with
      | (refusal, s) => (.error refusal, s)
    | (.ok chunk, s) =>
      let s := if block = o.block then s else
        match s.arena.free o.block with
        | .ok arena => { s with arena := arena }
        | .error _ => s
      (.ok (some ⟨o.off, o.len, .chunk chunk 0⟩), s.trimSealed chunk block o.len dirty)

namespace ChunkStore

variable {g : Nat}

/-! ## Reading -/

/-- `copy_overlap`: the part of `bytes`, at file offset `base`, that a buffer at `off` covers. -/
def copyOverlap (bytes : List UInt8) (base off : Nat) (out : List UInt8) : List UInt8 :=
  out.mapIdx fun i b => if base ≤ off + i then (bytes[off + i - base]?).getD b else b

/-- The bytes `[from_, upto)` of a list, when it has them. -/
def slice (bytes : List UInt8) (from_ upto : Nat) : Option (List UInt8) :=
  if from_ ≤ upto ∧ upto ≤ bytes.length then some ((bytes.take upto).drop from_) else none

/-- One segment of a sealed chunk opened. -/
def openSegment (s : ChunkStore g) (c : ShardCipher) (chunk : Chunk) (sealing : ChunkSeal)
    (stored : List UInt8) (index : Nat) : Except VfsError (List UInt8) :=
  let start := index * s.granule
  let end_ := min (start + s.granule) chunk.len
  match slice stored start end_ with
  | none => .error .staleHandle
  | some source =>
    match ((s.tags.find sealing.tags).bind fun run => run[index]?) with
    | none => .error .integrity
    | some tag =>
      c.openAs sealing.key sealing.version index (index + 1 = sealing.segments) source tag

/-- The opened segment `[start, end_)` of a chunk put where a read of `[from_, upto)` has its bytes:
whole when the read covers it and the buffer has the place, else the part the read names. -/
def placeSegment (from_ upto base off start end_ : Nat) (plain out : List UInt8) : List UInt8 :=
  let fileAt := base + (max from_ start - from_)
  if from_ ≤ start ∧ end_ ≤ upto ∧ off ≤ fileAt ∧ fileAt - off + (end_ - start) ≤ out.length then
    out.take (fileAt - off) ++ plain ++ out.drop (fileAt - off + (end_ - start))
  else
    match slice plain (max from_ start - start) (min upto end_ - start) with
    | some part => copyOverlap part fileAt off out
    | none => out

/-- `ChunkStore::open_into`: the segments a read of `[from_, upto)` touches, placed in `out`. -/
def openInto (s : ChunkStore g) (chunk : Chunk) (sealing : ChunkSeal) (from_ upto base off : Nat)
    (out : List UInt8) : Except VfsError (List UInt8) :=
  match s.cipher, s.arena.span chunk.block (s.storedBytes chunk) with
  | none, _ => .error .integrity
  | some _, none => .error .staleHandle
  | some c, some stored =>
    let first := from_ / s.granule
    let last := min ((upto - 1) / s.granule) (sealing.segments - 1)
    (List.range' first (last + 1 - first)).foldlM (fun out index => do
      let plain ← s.openSegment c chunk sealing stored index
      return placeSegment from_ upto base off (index * s.granule)
        (min (index * s.granule + s.granule) chunk.len) plain out) out

/-- `ChunkStore::read_extent_into`. -/
def readExtentInto (s : ChunkStore g) (e : Extent) (off : Nat) (out : List UInt8) :
    Except VfsError (List UInt8) :=
  match e.src with
  | .zero => .ok out
  | .chunk handle at_ =>
    match s.chunks.find handle with
    | none => .error (.memory (Slab.stale handle))
    | some c =>
      let end_ := min (at_ + e.len) c.len
      let readEnd := off + out.length
      let extentEnd := e.off + (end_ - at_)
      let lo := max e.off off
      let hi := min extentEnd readEnd
      if lo ≥ hi then .ok out
      else
        match c.sealing with
        | some sealing => s.openInto c sealing (at_ + (lo - e.off)) (at_ + (hi - e.off)) lo off out
        | none =>
          match (s.arena.span c.block (s.storedBytes c)).bind fun bytes =>
              slice bytes (at_ + (lo - e.off)) (at_ + (hi - e.off)) with
          | some source => .ok (copyOverlap source lo off out)
          | none => .error .staleHandle

/-! ## Open extents -/

/-- `ChunkStore::alloc`: out of room while freed blocks wait, it asks for a publication. -/
def alloc (s : ChunkStore g) (len : Nat) (locked : Bool) :
    Except VfsError Mem.Extent × ChunkStore g :=
  match s.allocBlock len locked with
  | (.ok block, s) => (.ok block, s)
  | (.error (.arenaExhausted requested largest), s) =>
    (.error (if s.arena.deferring then .publishNeeded
      else .memory (.arenaExhausted requested largest)), s)
  | (.error refusal, s) => (.error (.memory refusal), s)

/-- `n` rounded up to a multiple of `m`. -/
def nextMultiple (n m : Nat) : Nat := (n + (m - 1)) / m * m

/-- `ChunkStore::open`. -/
def open_ (s : ChunkStore g) (off want born : Nat) (locked : Bool) :
    Except VfsError OpenExtent × ChunkStore g :=
  let want := min (max want 1) s.chunkBytes
  match s.alloc (nextMultiple want s.granule) locked with
  | (.ok block, s) => (.ok ⟨off, 0, block, born, 0⟩, s)
  | (.error refusal, s) => (.error refusal, s)

/-- `ChunkStore::move_into`: the first `keep` bytes carried into `block`. -/
def moveInto (s : ChunkStore g) (o : OpenExtent) (block : Mem.Extent) (keep : Nat) :
    Except VfsError OpenExtent × ChunkStore g :=
  match (s.arena.bytes o.block).bind fun bytes => slice bytes 0 keep with
  | some carry =>
    if keep ≤ block.len then
      let s := { s with arena := s.arena.write block 0 carry }
      match s.arena.free o.block with
      | .ok arena => (.ok { o with block := block, dirtyTo := keep }, { s with arena := arena })
      | .error refusal => (.error (.memory refusal), s)
    else
      match s.arena.free block with
      | .ok arena => (.error .staleHandle, { s with arena := arena })
      | .error refusal => (.error (.memory refusal), s)
  | none =>
    match s.arena.free block with
    | .ok arena => (.error .staleHandle, { s with arena := arena })
    | .error refusal => (.error (.memory refusal), s)

/-- `ChunkStore::grow`. -/
def grow (s : ChunkStore g) (o : OpenExtent) (need : Nat) :
    Except VfsError OpenExtent × ChunkStore g :=
  if need ≤ o.block.len then (.ok o, s)
  else if need > s.chunkBytes then (.error .fileTooLarge, s)
  else
    match s.alloc (nextMultiple need s.granule) (s.arena.isLocked o.block) with
    | (.error refusal, s) => (.error refusal, s)
    | (.ok block, s) => s.moveInto o block o.len

/-- `ChunkStore::write_open`: the extent, grown if need be, and whether the bytes are in. -/
def writeOpen (s : ChunkStore g) (o : OpenExtent) (at_ : Nat) (bytes : List UInt8) :
    Except VfsError OpenExtent × ChunkStore g :=
  let end_ := at_ + bytes.length
  match s.grow o end_ with
  | (.error refusal, s) => (.error refusal, s)
  | (.ok o, s) =>
    if end_ ≤ o.block.len then
      let gap := s.arena.write o.block o.len (List.replicate (at_ - o.len) 0)
      (.ok { o with len := max o.len end_, dirtyTo := max o.dirtyTo end_ },
        { s with arena := gap.write o.block at_ bytes })
    else (.error .staleHandle, s)

/-- `ChunkStore::open_bytes`. -/
def openBytes (s : ChunkStore g) (o : OpenExtent) : List UInt8 :=
  match s.arena.bytes o.block with
  | some bytes => bytes.take o.len
  | none => []

/-! ## Chunks let go and taken over -/

/-- `ChunkStore::free_chunk`. -/
def freeChunk (s : ChunkStore g) (handle : Handle) : Except VfsError Unit × ChunkStore g :=
  match s.chunks.remove handle with
  | .error refusal => (.error (.memory refusal), s)
  | .ok (chunk, chunks) =>
    let s := { s with chunks := chunks }
    match if s.isTrimmed chunk then s.arena.freeTrimmed chunk.block chunk.len
        else s.arena.free chunk.block with
    | .error refusal => (.error (.memory refusal), s)
    | .ok arena =>
      let s := { s with arena := arena }
      match chunk.sealing with
      | none => (.ok (), s)
      | some sealing =>
        match s.freeTags sealing.tags with
        | .error refusal => (.error refusal, s)
        | .ok s =>
          match s.releaseKey sealing.key with
          | .error refusal => (.error refusal, s)
          | .ok s => (.ok (), s)

/-- The tags a refused adoption took, given back. -/
def dropTags (s : ChunkStore g) (refusal : VfsError) (run : Handle) :
    Except VfsError Handle × ChunkStore g :=
  match s.freeTags run with
  | .ok s => (.error refusal, s)
  | .error other => (.error other, s)

/-- `ChunkStore::adopt_chunk`: a recovered chunk over a claimed block. -/
def adoptChunk (s : ChunkStore g) (chunk : Chunk) (sealed : Option (Nat × Nat × List Tag)) :
    Except VfsError Handle × ChunkStore g :=
  if s.isTrimmed chunk && !s.arena.holdsTrimmed chunk.block chunk.len then
    (.error .recoveryIncomplete, s)
  else
    match sealed with
    | none =>
      match s.chunks.insert { chunk with sealing := none } with
      | .ok (handle, chunks) => (.ok handle, { s with chunks := chunks })
      | .error refusal => (.error (.memory refusal), s)
    | some (key, version, tags) =>
      let segments := max ((chunk.len + (s.granule - 1)) / s.granule) 1
      if tags.length ≠ segments ∨ s.cipher.isNone then (.error .recoveryIncomplete, s)
      else
        match s.allocTags segments with
        | (.error refusal, s) => (.error refusal, s)
        | (.ok run, s) =>
          let s := { s with tags := s.tags.modify run fun _ => tags }
          if segments > u32Max then (.error .recoveryIncomplete, s)
          else
            match s.holdKey key with
            | .error refusal => s.dropTags refusal run
            | .ok s =>
              match s.chunks.insert
                { chunk with sealing := some ⟨key, version, run, segments⟩ } with
              | .ok (handle, chunks) => (.ok handle, { s with chunks := chunks })
              | .error refusal =>
                match s.freeTags run with
                | .error other => (.error other, s)
                | .ok s =>
                  match s.releaseKey key with
                  | .error other => (.error other, s)
                  | .ok s => (.error (.memory refusal), s)

end ChunkStore

end Slates.Content
