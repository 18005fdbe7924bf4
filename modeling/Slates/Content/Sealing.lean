import Slates.Content.Pass

/-!
Sealing an open extent. A refused seal must leave everything as it was, an admitted one must read
back as the extent's bytes (`SealsFaithfully`). The bytes are encrypted before the record is
admitted and nothing decrypts them again, so a refused record loses what was encrypted in place.
-/

namespace Slates.Content.ChunkStore

open Mem

variable {g : Nat} {s s' : ChunkStore g} {block : Mem.Extent} {len key : Nat}
  {bytes : List UInt8} {locked : Bool} {o : OpenExtent}

/-! ## What is stored -/

theorem le_granuleRound (s : ChunkStore g) (len : Nat) : len ≤ s.granuleRound len := by
  have := ChunkArena.le_granulesOf_mul s.granule_pos len
  rwa [ChunkArena.granulesOf] at this

theorem granuleRound_le (s : ChunkStore g) (len : Nat) :
    s.granuleRound len ≤ ChunkArena.granulesOf g len * g := by
  obtain ⟨k, hk⟩ := s.page_pow
  obtain ⟨m, hm⟩ := s.arena.granule_pow
  have hdvd : s.granule ∣ g := by
    rw [granule, hk, hm]
    rcases le_total k m with h | h
    · rw [Nat.min_eq_right (Nat.pow_le_pow_right (by norm_num) h)]
      exact Nat.pow_dvd_pow 2 h
    · rw [Nat.min_eq_left (Nat.pow_le_pow_right (by norm_num) h)]
  have hg := s.granule_pos
  obtain ⟨q, hq⟩ := hdvd
  have hle : max len 1 ≤ ChunkArena.granulesOf g len * g := by
    have h1 := ChunkArena.le_granulesOf_mul s.arena.granule_pos (max len 1)
    rwa [ChunkArena.granulesOf, Nat.max_assoc, Nat.max_self, ← ChunkArena.granulesOf] at h1
  obtain ⟨n, hn⟩ : ∃ n, ChunkArena.granulesOf g len * g = n * s.granule :=
    ⟨ChunkArena.granulesOf g len * q, by rw [Nat.mul_assoc, Nat.mul_comm q, ← hq]⟩
  rw [hn] at hle ⊢
  unfold granuleRound
  refine Nat.mul_le_mul_right _ (Nat.le_of_lt_succ ((Nat.div_lt_iff_lt_mul hg).2 ?_))
  rw [Nat.succ_mul]
  omega

theorem le_storedBytes (s : ChunkStore g) (c : Chunk) : c.len ≤ s.storedBytes c := by
  unfold storedBytes
  split
  · exact s.le_granuleRound c.len
  · rename_i h
    rw [isTrimmed, decide_eq_true_eq] at h
    exact (s.le_granuleRound c.len).trans (by omega)

/-- `raw` stands where the chunk's block starts, in a region with all its granules. -/
structure Stored (s : ChunkStore g) (c : Chunk) (raw : List UInt8) : Prop where
  fits : ∃ size, s.arena.view.size c.block.region = some size ∧
    c.block.offset + max (s.granuleRound c.len) c.block.len ≤ size
  read : s.arena.view.read c.block.region c.block.offset c.len = some raw

variable {c : Chunk} {raw : List UInt8}

theorem Stored.span (h : s.Stored c raw) :
    ∃ stored, s.arena.span c.block (s.storedBytes c) = some stored ∧
      stored.length = s.storedBytes c ∧ stored.take c.len = raw := by
  obtain ⟨size, hsize, hle⟩ := h.fits
  have hbytes : s.storedBytes c ≤ max (s.granuleRound c.len) c.block.len := by
    unfold storedBytes
    split
    · exact le_max_left _ _
    · exact le_max_right _ _
  have hread : s.arena.view.read c.block.region c.block.offset (s.storedBytes c) =
      some ((List.range (s.storedBytes c)).map fun k =>
        s.arena.view.byte c.block.region (c.block.offset + k)) := by
    rw [View.read, hsize, Option.bind_some, if_pos (by omega)]
  refine ⟨_, ?_, View.read_length hread, ?_⟩
  · exact (ChunkArena.read_eq ..).trans hread
  · have := View.read_take hread (s.le_storedBytes c)
    rw [h.read, Option.some.injEq] at this
    exact this.symm

theorem Stored.plain (h : s.Stored c bytes) (hc : c.sealing = none) : s.Plain c bytes := by
  obtain ⟨stored, hspan, hlen, htake⟩ := h.span
  have hle := s.le_storedBytes c
  refine ⟨View.read_length h.read, stored, hspan, by omega, ?_⟩
  rw [hc]
  exact htake

theorem piece_segment (bytes : List UInt8) (a n : Nat) :
    piece bytes a (min (a + n) bytes.length) = (bytes.drop a).take n := by
  refine List.ext_getElem? fun i => ?_
  simp only [piece, List.getElem?_drop, List.getElem?_take]
  by_cases h : i < n
  · rw [if_pos h]
    split
    · rfl
    · rw [List.getElem?_eq_none (by omega)]
  · rw [if_neg h, if_neg (by omega)]

theorem lt_segmentsOf {len index : Nat} (h : index * s.granule < len) :
    index < s.segmentsOf len := by
  rw [segmentsOf, lt_max_iff]
  left
  rw [Nat.lt_div_iff_mul_lt s.granule_pos]
  omega

theorem length_le_segmentsOf (s : ChunkStore g) (len : Nat) :
    len ≤ s.segmentsOf len * s.granule := by
  have h1 := Nat.lt_div_mul_add (a := len + (s.granule - 1)) s.granule_pos
  have h2 := Nat.mul_le_mul_right s.granule (le_max_left ((len + (s.granule - 1)) / s.granule) 1)
  rw [segmentsOf]
  omega

theorem Stored.openSegment {cipher : ShardCipher} {sealing : ChunkSeal} {stored : List UInt8}
    {tags : List Tag} {tag : Tag} {index : Nat} (h : s.Stored c raw)
    (hspan : s.arena.span c.block (s.storedBytes c) = some stored)
    (htags : s.tags.find sealing.tags = some tags) (htag : tags[index]? = some tag)
    (hindex : index * s.granule < c.len) :
    s.openSegment cipher c sealing stored index =
      cipher.openAs sealing.key sealing.version index (index + 1 = sealing.segments)
        ((raw.drop (index * s.granule)).take s.granule) tag := by
  obtain ⟨_, hspan', hlen, htake⟩ := h.span
  obtain rfl := Option.some.inj (hspan.symm.trans hspan')
  have hle := s.le_storedBytes c
  have hraw := View.read_length h.read
  have hcut : piece stored (index * s.granule) (min (index * s.granule + s.granule) c.len) =
      (raw.drop (index * s.granule)).take s.granule := by
    rw [← htake, ← piece_segment, piece_take (by rw [htake]; omega), htake, hraw]
  unfold ChunkStore.openSegment
  simp only [slice_eq (show index * s.granule ≤ min (index * s.granule + s.granule) c.len by omega)
    (show min (index * s.granule + s.granule) c.len ≤ stored.length by omega), htags,
    Option.bind_some, htag, hcut]

theorem Stored.plain_sealed {cipher : ShardCipher} {sealing : ChunkSeal}
    {tags : List Tag} (h : s.Stored c raw) (hc : c.sealing = some sealing)
    (hcipher : s.cipher = some cipher) (hsegments : sealing.segments = s.segmentsOf c.len)
    (htags : s.tags.find sealing.tags = some tags)
    (hopens : Opens cipher sealing.key sealing.version s.granule sealing.segments 0
      sealing.segments bytes raw tags) : s.Plain c bytes := by
  obtain ⟨stored, hspan, hlen, htake⟩ := h.span
  have hle := s.le_storedBytes c
  have hbytes : bytes.length = c.len := by rw [← hopens.length, View.read_length h.read]
  refine ⟨hbytes, stored, hspan, by omega, ?_⟩
  rw [hc]
  refine ⟨hsegments, cipher, hcipher, fun index hindex => ?_⟩
  obtain ⟨tag, htag, hopen⟩ := hopens.opens index (by
    rw [hsegments]
    exact lt_segmentsOf hindex)
  rw [Nat.zero_add] at hopen
  rw [h.openSegment hspan htags htag hindex, hopen, ← hbytes, piece_segment]

theorem stored_of_holds (hh : s.arena.holds c.block) (hlen : c.len ≤ c.block.len)
    (hread : s.arena.read c.block.region c.block.offset c.len = some bytes) : s.Stored c bytes := by
  obtain ⟨i, p, identity, -, hheld, he, -⟩ := ChunkArena.place_of_holds hh
  obtain ⟨size, hsize, hle⟩ := ChunkArena.held_within hheld
  have hoff : c.block.offset = i * g := by rw [he]; rfl
  have hblock : c.block.len = 2 ^ p * g := by rw [he]; rfl
  have hg := s.arena.granule_pos
  have hround : s.granuleRound c.len ≤ 2 ^ p * g := by
    refine (s.granuleRound_le c.len).trans (Nat.mul_le_mul_right g ?_)
    have hone : 1 ≤ 2 ^ p * g := Nat.mul_pos (Nat.two_pow_pos p) hg
    unfold ChunkArena.granulesOf
    refine Nat.le_of_lt_succ ((Nat.div_lt_iff_lt_mul hg).2 ?_)
    rw [Nat.succ_mul]
    omega
  rw [Nat.add_mul] at hle
  exact ⟨⟨size, hsize, by omega⟩, (ChunkArena.read_eq ..).symm.trans hread⟩

theorem trimSealed_spec {handle : Handle} (dirty : Nat)
    (hf : s.chunks.find handle = some c) (hh : s.arena.holds c.block) (hlen : c.len ≤ c.block.len)
    (hread : s.arena.read c.block.region c.block.offset c.len = some raw) :
    ∃ c', (s.trimSealed handle c.block c.len dirty).chunks.find handle = some c' ∧
      c'.len = c.len ∧ c'.sealing = c.sealing ∧
      (s.trimSealed handle c.block c.len dirty).Stored c' raw ∧
      (s.trimSealed handle c.block c.len dirty).page = s.page ∧
      (s.trimSealed handle c.block c.len dirty).cipher = s.cipher ∧
      (s.trimSealed handle c.block c.len dirty).tags = s.tags := by
  have hstored := stored_of_holds hh hlen hread
  unfold trimSealed
  split
  · rename_i head arena htrim
    obtain ⟨identity, i, p, q, -, hheld, he, ht, hhead, heq⟩ :=
      ChunkArena.trim_spec hh hlen htrim
    rw [Option.some.injEq] at heq
    obtain ⟨size, hsize, hle⟩ := hstored.fits
    have hoff : c.block.offset = i * g := by rw [he]; rfl
    have hblock : c.block.len = 2 ^ p * g := by rw [he]; rfl
    have hregion : head.region = c.block.region := by rw [heq]; rfl
    have hoffset : head.offset = c.block.offset := by rw [heq, hoff]; rfl
    have hq : 2 ^ q ≤ 2 ^ p := by
      have hmem := List.mem_of_mem_head? hhead
      have hend : i + 2 ^ q ≤ i + ChunkArena.granulesOf g c.len % 2 ^ p :=
        (Buddy.mem_piecesOf hmem).2
      have := Nat.mod_lt (ChunkArena.granulesOf g c.len) (Nat.two_pow_pos p)
      omega
    have hheadlen : head.len ≤ c.block.len := by
      rw [heq, hblock]
      exact Nat.mul_le_mul_right g hq
    refine ⟨{ c with block := head }, ?_, rfl, rfl, ⟨⟨size, ?_, ?_⟩, ?_⟩, rfl, rfl, rfl⟩
    · simp only
      rw [Slab.find_modify, if_pos rfl, hf, Option.map_some]
    · simp only
      rw [ht.size, hregion, hsize]
    · have hround : ChunkStore.granuleRound
          { s with
            arena := arena
            chunks := s.chunks.modify handle fun c => { c with block := head } } c.len =
          s.granuleRound c.len := rfl
      simp only [hround, hoffset]
      omega
    · have hlen' := ChunkArena.le_granulesOf_mul s.arena.granule_pos c.len
      simp only [hregion, hoffset]
      rw [← hstored.read]
      unfold View.read
      rw [ht.size, hsize]
      simp only [Option.bind_some]
      split
      · congr 1
        refine List.map_congr_left fun k hk => ?_
        rw [List.mem_range] at hk
        refine ht.byte _ _ (.inr (.inl ?_))
        rw [Nat.add_mul, hoff]
        omega
      · rfl
  · rename_i arena htrim
    obtain ⟨identity, i, p, q, -, -, -, -, -, heq⟩ := ChunkArena.trim_spec hh hlen htrim
    cases heq
  · exact ⟨c, hf, rfl, rfl, hstored, rfl, rfl, rfl⟩
  · exact ⟨c, hf, rfl, rfl, hstored, rfl, rfl, rfl⟩

/-! ## The copy out of an image -/

/-- Nothing but the arena and the answers used up is other. -/
structure Elsewhere (s s' : ChunkStore g) (asked : Nat) : Prop extends Rest s s' where
  tags : s'.tags = s.tags
  nextVersion : s'.nextVersion = s.nextVersion
  answers : s'.host.answers = s.host.answers
  asked : s'.host.asked = s.host.asked + asked

def allocAsks (locked : Bool) : Nat := if locked then 2 else 1

theorem allocBlock_outcome {out : Except MemError Mem.Extent}
    (h : s.allocBlock len locked = (out, s')) :
    Elsewhere s s' (allocAsks locked) ∧ ChunkArena.Outcome s.arena s'.arena len out := by
  unfold allocBlock ask Host.ask at h
  cases locked with
  | true =>
    simp only [if_true] at h
    obtain ⟨halloc, rfl⟩ := Prod.mk.injEq .. ▸ h
    exact ⟨⟨⟨rfl, rfl, rfl⟩, rfl, rfl, rfl, rfl⟩,
      ChunkArena.allocLocked_outcome (Prod.ext halloc rfl)⟩
  | false =>
    simp only [Bool.false_eq_true, if_false] at h
    obtain ⟨halloc, rfl⟩ := Prod.mk.injEq .. ▸ h
    exact ⟨⟨⟨rfl, rfl, rfl⟩, rfl, rfl, rfl, rfl⟩, ChunkArena.alloc_outcome (Prod.ext halloc rfl)⟩

def CopyRoom (s : ChunkStore g) (block : Mem.Extent) : Prop :=
  s.ask.1 = true ∧ ∃ copy s', s.ask.2.allocBlock block.len (s.arena.isLocked block) = (.ok copy, s')

def copyAsks (s : ChunkStore g) (block : Mem.Extent) : Nat := 1 + allocAsks (s.arena.isLocked block)

/-- What a copy did: the bytes stand in a new block too. -/
structure Copied (s s' : ChunkStore g) (block copy : Mem.Extent) (bytes : List UInt8) : Prop
    extends Elsewhere s s' (s.copyAsks block) where
  arena : ChunkArena.CopyAt s.arena s'.arena copy bytes
  le : block.len ≤ copy.len

theorem copiedOutOfImage_cases (hh : s.arena.holds block) (hlen : len ≤ block.len)
    (hb : s.arena.read block.region block.offset len = some bytes) :
    (¬ s.CopyRoom block ∧ (s.copiedOutOfImage block len).1 = none ∧
      Rest s (s.copiedOutOfImage block len).2 ∧
      (s.copiedOutOfImage block len).2.tags = s.tags ∧
      ChunkArena.Refused s.arena (s.copiedOutOfImage block len).2.arena) ∨
    ∃ copy, s.CopyRoom block ∧ (s.copiedOutOfImage block len).1 = some copy ∧
      Copied s (s.copiedOutOfImage block len).2 block copy bytes := by
  obtain ⟨all, hall, hle, htake⟩ := bytes_of_read hh hlen hb
  unfold copiedOutOfImage
  cases hask : s.ask with
  | mk answer t =>
  have ht : t = s.ask.2 := by rw [hask]
  have ha : answer = s.ask.1 := by rw [hask]
  have hta : t.arena = s.arena := by rw [ht]; rfl
  cases answer with
  | false =>
    refine .inl ⟨?_, rfl, ?_, ?_, ?_⟩
    · intro hroom
      rw [hroom.1] at ha
      cases ha
    · rw [ht]
      exact ⟨rfl, rfl, rfl⟩
    · rw [ht]
      rfl
    · rw [ht]
      exact .refl _
  | true =>
    simp only [hta, hall, if_pos hle]
    cases halloc : t.allocBlock block.len (s.arena.isLocked block) with
    | mk result u =>
    cases result with
    | error refusal =>
      obtain ⟨helse, href⟩ := allocBlock_outcome halloc
      refine .inl ⟨?_, rfl, ?_, ?_, ?_⟩
      · rintro ⟨-, copy, s', hok⟩
        rw [← ht, halloc] at hok
        cases hok
      · rw [ht] at helse
        exact ⟨helse.chunks, helse.page, helse.cipher⟩
      · rw [ht] at helse
        exact helse.tags
      · rw [hta] at href
        exact href
    | ok copy =>
      obtain ⟨helse, identity, r, i, p, hid, hal, hcopy, hfits⟩ := allocBlock_outcome halloc
      have hfit : block.len ≤ copy.len := by
        rw [hcopy]
        exact hfits.le s.arena.granule_pos
      simp only [if_pos (hlen.trans hfit), htake]
      rw [hta] at hid hal
      rw [ht] at helse
      refine .inr ⟨copy, ⟨ha.symm, copy, u, by rw [← ht, halloc]⟩, rfl, ?_⟩
      have hlength : bytes.length ≤ copy.len := by
        rw [ChunkArena.read_eq] at hb
        rw [View.read_length hb]
        exact hlen.trans hfit
      have hw := ChunkArena.write_spec (hcopy ▸ hal.holds_self hid : u.arena.holds copy) 0 bytes
      rw [show copy.region = r by rw [hcopy]; rfl, Nat.add_zero,
        show copy.offset = i * g by rw [hcopy]; rfl] at hw
      refine ⟨⟨⟨helse.chunks, helse.page, helse.cipher⟩, helse.tags, helse.nextVersion,
        helse.answers, ?_⟩, ⟨u.arena, identity, r, i, p, hid, hal, hcopy, hw, ?_⟩, hfit⟩
      · simp only
        rw [helse.asked, copyAsks, ← Nat.add_assoc]
        rfl
      · rw [hcopy] at hlength
        exact hlength

/-! ## The record -/

def keyHolds (s : ChunkStore g) (key : Nat) : Nat := (s.cipher.map fun c => c.holdsOf key).getD 0

theorem holdKey_ok (h : s.holdKey key = .ok s') : ∃ c c', s.cipher = some c ∧
    c.hold key = .ok c' ∧ s' = { s with cipher := some c' } := by
  unfold holdKey at h
  split at h
  · cases h
  · rename_i c hc
    split at h
    · rename_i c' hold
      cases h
      exact ⟨c, c', hc, hold, rfl⟩
    · cases h

structure Recorded (s s' : ChunkStore g) (chunk : Chunk) (handle : Handle) : Prop where
  arena : s'.arena = s.arena
  page : s'.page = s.page
  tags : s'.tags = s.tags
  found : s'.chunks.find handle = some chunk
  opens : ∀ c, s.cipher = some c → ∃ c', s'.cipher = some c' ∧ c'.openAs = c.openAs

structure NotRecorded (s s' : ChunkStore g) : Prop where
  arena : s'.arena = s.arena
  tags : s'.tags = s.tags
  holds : ∀ k, s'.keyHolds k = s.keyHolds k

theorem record_cases (s : ChunkStore g) (chunk : Chunk) :
    (0 < s.chunks.room ∧ (∀ sealing, chunk.sealing = some sealing →
        ∃ t, s.holdKey sealing.key = .ok t) ∧
      ∃ handle s', s.record chunk = (.ok handle, s') ∧ Recorded s s' chunk handle) ∨
    (¬ (0 < s.chunks.room ∧ ∀ sealing, chunk.sealing = some sealing →
        ∃ t, s.holdKey sealing.key = .ok t) ∧
      ∃ refusal s', s.record chunk = (.error refusal, s') ∧ NotRecorded s s') := by
  unfold record
  cases hs : chunk.sealing with
  | none =>
    simp only [holdSeal]
    cases hi : s.chunks.insert chunk with
    | ok found =>
      obtain ⟨handle, chunks⟩ := found
      refine .inl ⟨(Slab.insert_ok_iff _ _).1 ⟨handle, chunks, hi⟩, by simp, handle, _, rfl,
        rfl, rfl, rfl, (Slab.insert_spec hi).found, fun c hc => ⟨c, hc, rfl⟩⟩
    | error refusal =>
      refine .inr ⟨fun hroom => ?_, _, s, rfl, rfl, rfl, fun _ => rfl⟩
      obtain ⟨handle, chunks, hok⟩ := (Slab.insert_ok_iff s.chunks chunk).2 hroom.1
      rw [hi] at hok
      cases hok
  | some sealing =>
    simp only [holdSeal]
    cases hhold : s.holdKey sealing.key with
    | error refusal =>
      refine .inr ⟨fun hroom => ?_, refusal, s, rfl, rfl, rfl, fun _ => rfl⟩
      obtain ⟨t, ht⟩ := hroom.2 sealing rfl
      rw [hhold] at ht
      cases ht
    | ok t =>
      obtain ⟨c, c', hc, hold, rfl⟩ := holdKey_ok hhold
      simp only
      cases hi : s.chunks.insert chunk with
      | ok found =>
        obtain ⟨handle, chunks⟩ := found
        refine .inl ⟨(Slab.insert_ok_iff _ _).1 ⟨handle, chunks, hi⟩, ?_, handle, _, rfl,
          rfl, rfl, rfl, (Slab.insert_spec hi).found, ?_⟩
        · rintro _ ⟨rfl⟩
          exact ⟨_, hhold⟩
        · intro d hd
          obtain rfl : c = d := Option.some.inj (hc.symm.trans hd)
          exact ⟨c', rfl, (ShardCipher.hold_spec hold).openAs⟩
      | error refusal =>
        obtain ⟨c'', hrel, hcount⟩ := ShardCipher.release_after_hold hold
        simp only [releaseKey, hrel]
        refine .inr ⟨fun hroom => ?_, _, _, rfl, rfl, rfl, fun k => ?_⟩
        · obtain ⟨handle, chunks, hok⟩ := (Slab.insert_ok_iff s.chunks chunk).2 hroom.1
          rw [hi] at hok
          cases hok
        · simp only [keyHolds, hc, Option.map_some, Option.getD_some]
          exact hcount k

variable {c : ShardCipher}

theorem held_of_sealFrom {version granule segments index left : Nat}
    {sealed : List UInt8} {tags : List Tag} {requests : List Request}
    (h : sealFrom c key version granule segments index (left + 1) bytes =
      (requests, some (sealed, tags))) : ∃ v, c.held key = some v := by
  unfold sealFrom at h
  simp only at h
  split at h
  · cases h
  · rename_i first tag hseal
    split at hseal
    · unfold ShardCipher.sealAs at hseal
      split at hseal
      · rename_i v hv
        exact ⟨v, hv⟩
      · cases hseal
    · cases hseal

theorem holdKey_ok_iff {v : HeldKey} (hc : s.cipher = some c)
    (hv : c.held key = some v) : (∃ t, s.holdKey key = .ok t) ↔ s.keyHolds key < u64Max := by
  have hcount : s.keyHolds key = v.holds := by
    simp only [keyHolds, hc, Option.map_some, Option.getD_some, ShardCipher.holdsOf, hv]
  rw [hcount]
  unfold holdKey ShardCipher.hold
  simp only [hc, hv]
  by_cases hroom : v.holds + 1 ≤ u64Max
  · simp only [if_pos hroom]
    exact ⟨fun _ => hroom, fun _ => ⟨_, rfl⟩⟩
  · simp only [if_neg hroom]
    constructor
    · rintro ⟨t, ht⟩
      cases ht
    · omega

/-! ## The end of a seal -/

def finish (s : ChunkStore g) (o : OpenExtent) (block : Mem.Extent) (sealing : Option ChunkSeal) :
    Except VfsError (Option Extent) × ChunkStore g :=
  match s.record ⟨o.born, min o.len u32Max, block, sealing⟩ with
  | (.error refusal, s) =>
    match s.giveBack refusal sealing (if block = o.block then none else some block) with
    | (refusal, s) => (.error refusal, s)
  | (.ok chunk, s) =>
    let s := if block = o.block then s else
      match s.arena.free o.block with
      | .ok arena => { s with arena := arena }
      | .error _ => s
    (.ok (some ⟨o.off, o.len, .chunk chunk 0⟩), s.trimSealed chunk block o.len
      (if block = o.block then o.dirtyTo else o.len))

theorem seal_clear {key : Option Nat} (hlen : o.len ≠ 0) (hkey : key = none ∨ s.cipher = none) :
    s.seal o key = s.finish o o.block none := by
  unfold ChunkStore.seal
  rw [if_neg hlen]
  rcases hkey with rfl | hc
  · rfl
  · cases key with
    | none => rfl
    | some k =>
      rw [hc]
      rfl

theorem seal_keyed (hlen : o.len ≠ 0) (hc : s.cipher = some c) (k : Nat) :
    s.seal o (some k) = (s.sealWhereSafe o.block o.len k).2.finish o
      (s.sealWhereSafe o.block o.len k).1.1 (s.sealWhereSafe o.block o.len k).1.2 := by
  unfold ChunkStore.seal
  rw [if_neg hlen]
  simp only [hc]
  rfl

theorem seal_inPlace (hlen : o.len ≠ 0) (hc : s.cipher = some c)
    (him : s.arena.imaged o.block = false) (k : Nat) :
    s.seal o (some k) = (s.sealBlock o.block o.len k).2.finish o o.block
      (s.sealBlock o.block o.len k).1 := by
  rw [seal_keyed hlen hc, sealWhereSafe, him]
  rfl

theorem finish_stored (sealing : Option ChunkSeal) (hu32 : o.len ≤ u32Max)
    (hh : s.arena.holds block) (hown : s.arena.holds o.block) (hlen : o.len ≤ block.len)
    (hread : s.arena.read block.region block.offset o.len = some raw) (hroom : 0 < s.chunks.room)
    (hkey : ∀ sl, sealing = some sl → ∃ t, s.holdKey sl.key = .ok t) :
    ∃ handle s' c, s.finish o block sealing = (.ok (some ⟨o.off, o.len, .chunk handle 0⟩), s') ∧
      s'.chunks.find handle = some c ∧ c.len = o.len ∧ c.sealing = sealing ∧ s'.Stored c raw ∧
      s'.page = s.page ∧ s'.tags = s.tags ∧
      ∀ d, s.cipher = some d → ∃ d', s'.cipher = some d' ∧ d'.openAs = d.openAs := by
  have hmin : min o.len u32Max = o.len := Nat.min_eq_left hu32
  unfold finish
  rw [hmin]
  rcases record_cases s ⟨o.born, o.len, block, sealing⟩ with
    ⟨-, -, handle, t, hrec, hr⟩ | ⟨hno, -⟩
  · rw [hrec]
    dsimp only
    -- The store the trim starts from: the open extent's own block is gone if the bytes left it.
    generalize hu : (if block = o.block then t else _) = u
    have hmid : u.chunks = t.chunks ∧ u.page = t.page ∧ u.tags = t.tags ∧ u.cipher = t.cipher ∧
        u.arena.holds block ∧ u.arena.read block.region block.offset o.len = some raw := by
      rw [← hu]
      split
      · rw [hr.arena]
        exact ⟨rfl, rfl, rfl, rfl, hh, hread⟩
      · rename_i hne
        rw [hr.arena]
        obtain ⟨a', -, -, -, hfree, -⟩ := ChunkArena.free_spec hown
        rw [hfree]
        obtain ⟨h1, h2⟩ := ChunkArena.read_after_free hown hh hne hfree hlen
        exact ⟨rfl, rfl, rfl, rfl, h1, h2.trans hread⟩
    obtain ⟨hchunks, hpage, htags, hcipher, hheld, hraw⟩ := hmid
    obtain ⟨c', hfind, hclen, hcseal, hstored, hp, hci, hta⟩ := trimSealed_spec
      (if block = o.block then o.dirtyTo else o.len)
      (by rw [hchunks]; exact hr.found) hheld hlen hraw
    refine ⟨handle, _, c', rfl, hfind, hclen, hcseal, hstored, hp.trans (hpage.trans hr.page),
      hta.trans (htags.trans hr.tags), fun d hd => ?_⟩
    obtain ⟨d', hd', ho⟩ := hr.opens d hd
    exact ⟨d', by rw [hci, hcipher, hd'], ho⟩
  · exact absurd ⟨hroom, hkey⟩ hno

theorem reads_whole {h : Handle} {c : Chunk} {plain : List UInt8}
    (hfind : s.chunks.find h = some c) (hpl : s.Plain c plain) (hclen : c.len = o.len) (off : Nat)
    (out : List UInt8) : s.readExtentInto ⟨o.off, o.len, .chunk h 0⟩ off out =
      .ok (copyOverlap plain o.off off out) := by
  refine (readExtentInto_plain hfind hpl rfl off out).trans ?_
  rw [Nat.zero_add, piece, List.drop_zero, List.take_of_length_le (hpl.length.trans hclen).le]

structure GivenBack (s s' : ChunkStore g) (o : OpenExtent) (block : Mem.Extent)
    (sealing : Option ChunkSeal) : Prop where
  holds : ∀ k, s'.keyHolds k = s.keyHolds k
  stays : block = o.block → s'.arena = s.arena
  freed : block ≠ o.block → ∀ a, s.arena.free block = .ok a → s'.arena = a
  clear : sealing = none → s'.tags = s.tags
  tags : ∀ sl v tags, sealing = some sl → s.tags.remove sl.tags = .ok (v, tags) → s'.tags = tags

/-- The tags after a seal's run is given back. -/
def tagsWithout (s : ChunkStore g) : Option ChunkSeal → Slab (List Tag)
  | none => s.tags
  | some sealing =>
    match s.tags.remove sealing.tags with
    | .ok (_, tags) => tags
    | .error _ => s.tags

/-- The arena after a copy is given back. -/
def arenaWithout (s : ChunkStore g) : Option Mem.Extent → ChunkArena g
  | none => s.arena
  | some copy =>
    match s.arena.free copy with
    | .ok arena => arena
    | .error _ => s.arena

theorem giveBack_eq (s : ChunkStore g) (refusal : VfsError) (sealing : Option ChunkSeal)
    (copy : Option Mem.Extent) :
    (s.giveBack refusal sealing copy).2 =
      { s with tags := s.tagsWithout sealing, arena := s.arenaWithout copy } := by
  unfold giveBack freeTags tagsWithout arenaWithout
  cases sealing with
  | none =>
    cases copy with
    | none => rfl
    | some copy => cases hf : s.arena.free copy <;> simp only [hf]
  | some sealing =>
    cases copy with
    | none => cases hr : s.tags.remove sealing.tags <;> simp only [hr]
    | some copy =>
      cases hr : s.tags.remove sealing.tags <;> cases hf : s.arena.free copy <;> simp only [hr, hf]

theorem giveBack_spec (s : ChunkStore g) (refusal : VfsError) (o : OpenExtent) (block : Mem.Extent)
    (sealing : Option ChunkSeal) :
    GivenBack s (s.giveBack refusal sealing (if block = o.block then none else some block)).2 o
      block sealing := by
  rw [giveBack_eq]
  refine ⟨fun _ => rfl, fun h => ?_, fun h a ha => ?_, fun h => ?_, fun sl v tags h hr => ?_⟩
  · simp only [if_pos h, arenaWithout]
  · simp only [if_neg h, arenaWithout, ha]
  · simp only [h, tagsWithout]
  · simp only [h, tagsWithout, hr]

theorem finish_refused (s : ChunkStore g) (o : OpenExtent) (block : Mem.Extent)
    (sealing : Option ChunkSeal)
    (hno : ¬ (0 < s.chunks.room ∧ ∀ sl, sealing = some sl → ∃ t, s.holdKey sl.key = .ok t)) :
    ∃ refusal s', s.finish o block sealing = (.error refusal, s') ∧
      GivenBack s s' o block sealing := by
  unfold finish
  rcases record_cases s ⟨o.born, min o.len u32Max, block, sealing⟩ with
    ⟨h1, h2, -⟩ | ⟨-, refusal, t, hrec, hr⟩
  · exact absurd ⟨h1, h2⟩ hno
  · rw [hrec]
    have hg := giveBack_spec t refusal o block sealing
    refine ⟨_, _, rfl, fun k => (hg.holds k).trans (hr.holds k), fun h =>
      (hg.stays h).trans hr.arena,
      fun h a ha => hg.freed h a (by rw [hr.arena, ha]), fun h => (hg.clear h).trans hr.tags, ?_⟩
    intro sl v tags hs hrem
    exact hg.tags sl v tags hs (by rw [hr.tags, hrem])

/-! ## The seal -/

/-- The extent's plaintext, the tags, the blocks and the key holds are as they were. -/
structure Unchanged (s s' : ChunkStore g) (o : OpenExtent) : Prop where
  bytes : s'.openBytes o = s.openBytes o
  tags : ∀ h, s'.tags.find h = s.tags.find h
  blocks : ∀ x, s'.arena.holds x = s.arena.holds x
  keys : ∀ k, s'.keyHolds k = s.keyHolds k

/-- A refused seal changes nothing, an admitted one reads as the extent's bytes. -/
def SealsFaithfully (s : ChunkStore g) (o : OpenExtent) (key : Option Nat) : Prop :=
  match s.seal o key with
  | (.error _, s') => s.Unchanged s' o
  | (.ok none, _) => s.openBytes o = []
  | (.ok (some e), s') => e.off = o.off ∧ e.len = o.len ∧ ∀ off out,
      s'.readExtentInto e off out = .ok (copyOverlap (s.openBytes o) o.off off out)

/-- An open extent of this store: its block is held, and has room for its bytes. -/
structure Opened (s : ChunkStore g) (o : OpenExtent) : Prop where
  holds : s.arena.holds o.block = true
  len_le : o.len ≤ o.block.len
  len_le_chunk : o.len ≤ s.chunkBytes

structure SealPass (s : ChunkStore g) (o : OpenExtent) (key : Nat) (sealed : List UInt8) :
    Prop where
  copies : s.arena.imaged o.block = true → s.CopyRoom o.block
  encrypts : ∃ tags, s.Encrypts (if s.arena.imaged o.block then s.copyAsks o.block else 0)
    (s.openBytes o) key sealed tags

theorem Opened.read (h : s.Opened o) :
    s.arena.read o.block.region o.block.offset o.len = some (s.openBytes o) := by
  obtain ⟨bytes, hb, hlen⟩ := ChunkArena.read_of_holds h.holds (le_refl o.block.len)
  have hall : s.arena.bytes o.block = some bytes := hb
  rw [ChunkArena.read_eq] at hb ⊢
  rw [View.read_take hb h.len_le, openBytes, hall]

theorem Opened.length (h : s.Opened o) : (s.openBytes o).length = o.len := by
  have hr := h.read
  rw [ChunkArena.read_eq] at hr
  exact View.read_length hr

theorem Opened.len_le_u32 (h : s.Opened o) : o.len ≤ u32Max := h.len_le_chunk.trans s.page_le

theorem Opened.segments (h : s.Opened o) : s.segmentsOf o.len ≤ u32Max := by
  have hg := s.granule_pos
  have h1 : (o.len + (s.granule - 1)) / s.granule ≤ max o.len 1 := by
    refine Nat.le_of_lt_succ ((Nat.div_lt_iff_lt_mul hg).2 ?_)
    have := Nat.mul_le_mul_left (max o.len 1) hg
    rw [Nat.succ_mul]
    omega
  have h2 := h.len_le_u32
  have h3 : 1 ≤ u32Max := by decide
  rw [segmentsOf]
  omega

theorem openBytes_of_read (hh : s.arena.holds o.block) (hlen : o.len ≤ o.block.len)
    (hb : s.arena.read o.block.region o.block.offset o.len = some bytes) :
    s.openBytes o = bytes := by
  obtain ⟨all, hall, -, htake⟩ := bytes_of_read hh hlen hb
  rw [openBytes, hall]
  exact htake

theorem copyOverlap_whole (bytes : List UInt8) (off : Nat) :
    copyOverlap bytes off off (List.replicate bytes.length 0) = bytes := by
  refine List.ext_getElem? fun i => ?_
  rw [getElem?_copyOverlap]
  by_cases hi : i < bytes.length
  · rw [List.getElem?_replicate, if_pos hi, Option.map_some, if_pos (Nat.le_add_right off i),
      Nat.add_sub_cancel_left, List.getElem?_eq_getElem hi, Option.getD_some]
  · rw [List.getElem?_replicate, if_neg hi, Option.map_none,
      List.getElem?_eq_none (Nat.le_of_not_lt hi)]

theorem faithful_of_admitted {key : Option Nat} {e : Extent} {plain : List UInt8}
    (h : s.seal o key = (.ok (some e), s')) (hoff : e.off = o.off) (hlen : e.len = o.len)
    (hlength : plain.length = (s.openBytes o).length)
    (hread : ∀ off out, s'.readExtentInto e off out = .ok (copyOverlap plain o.off off out)) :
    s.SealsFaithfully o key ↔ plain = s.openBytes o := by
  unfold SealsFaithfully
  rw [h]
  constructor
  · rintro ⟨-, -, hr⟩
    have hsame := hr o.off (List.replicate plain.length 0)
    rw [hread, Except.ok.injEq, copyOverlap_whole, hlength, copyOverlap_whole] at hsame
    exact hsame
  · rintro rfl
    exact ⟨hoff, hlen, hread⟩

theorem faithful_of_refused {key : Option Nat} {refusal : VfsError}
    (h : s.seal o key = (.error refusal, s')) : s.SealsFaithfully o key ↔ s.Unchanged s' o := by
  unfold SealsFaithfully
  rw [h]

variable {key : Nat}

section Outcomes

variable {t : ChunkStore g} {k : Option Nat} {raw : List UInt8}

theorem faithful_clear (hs : s.seal o k = t.finish o block none) (ho : s.Opened o)
    (hh : t.arena.holds block) (hown : t.arena.holds o.block) (hlen : o.len ≤ block.len)
    (hread : t.arena.read block.region block.offset o.len = some raw) :
    (0 < t.chunks.room → (s.SealsFaithfully o k ↔ raw = s.openBytes o)) ∧
    (¬ 0 < t.chunks.room → ∃ s', GivenBack t s' o block none ∧
      (s.SealsFaithfully o k ↔ s.Unchanged s' o)) := by
  have hraw : raw.length = o.len := by
    rw [ChunkArena.read_eq] at hread
    exact View.read_length hread
  constructor
  · intro hroom
    obtain ⟨h, s', c, hfin, hfind, hclen, hseal, hstored, -⟩ := finish_stored none ho.len_le_u32 hh
      hown hlen hread hroom fun _ h => by cases h
    exact faithful_of_admitted (hs.trans hfin) rfl rfl (by rw [hraw, ho.length])
      (reads_whole hfind (hstored.plain hseal) hclen)
  · intro hroom
    obtain ⟨refusal, s', hfin, hg⟩ := finish_refused t o block none fun h => hroom h.1
    exact ⟨s', hg, faithful_of_refused (hs.trans hfin)⟩

theorem faithful_sealed {sl : ChunkSeal} {tags : List Tag}
    (hs : s.seal o k = t.finish o block (some sl)) (ho : s.Opened o)
    (hh : t.arena.holds block) (hown : t.arena.holds o.block) (hlen : o.len ≤ block.len)
    (hread : t.arena.read block.region block.offset o.len = some raw)
    (hc : t.cipher = some c) (hsegments : sl.segments = t.segmentsOf o.len)
    (htags : t.tags.find sl.tags = some tags)
    (hopens : Opens c sl.key sl.version t.granule sl.segments 0 sl.segments (s.openBytes o) raw
      tags) :
    (0 < t.chunks.room ∧ (∃ u, t.holdKey sl.key = .ok u) → s.SealsFaithfully o k) ∧
    (¬ (0 < t.chunks.room ∧ ∃ u, t.holdKey sl.key = .ok u) →
      ∃ s', GivenBack t s' o block (some sl) ∧ (s.SealsFaithfully o k ↔ s.Unchanged s' o)) := by
  constructor
  · rintro ⟨hroom, hhold⟩
    obtain ⟨h, s', ch, hfin, hfind, hclen, hseal, hstored, hpage, htg, hcipher⟩ :=
      finish_stored (some sl) ho.len_le_u32 hh hown hlen hread hroom
        (by rintro _ ⟨rfl⟩; exact hhold)
    obtain ⟨c', hc', hsame⟩ := hcipher c hc
    have hgr : s'.granule = t.granule := by rw [granule, granule, hpage]
    have hplain : s'.Plain ch (s.openBytes o) := by
      refine hstored.plain_sealed hseal hc' ?_ (htg ▸ htags) ⟨hopens.length, fun j hj => ?_⟩
      · rw [hsegments, hclen, segmentsOf, segmentsOf, hgr]
      · rw [hsame, hgr]
        exact hopens.opens j hj
    exact (faithful_of_admitted (hs.trans hfin) rfl rfl rfl (reads_whole hfind hplain hclen)).2 rfl
  · intro hno
    obtain ⟨refusal, s', hfin, hg⟩ := finish_refused t o block (some sl)
      fun h => hno ⟨h.1, h.2 sl rfl⟩
    exact ⟨s', hg, faithful_of_refused (hs.trans hfin)⟩

theorem unchanged_of_refused (ho : s.Opened o) (harena : ChunkArena.Refused s.arena s'.arena)
    (htags : ∀ h, s'.tags.find h = s.tags.find h) (hkeys : ∀ k, s'.keyHolds k = s.keyHolds k) :
    s.Unchanged s' o := by
  obtain ⟨hh, hr⟩ := ChunkArena.Keeps.holds harena.keeps harena.identity ho.holds
  exact ⟨openBytes_of_read hh ho.len_le ((hr _ ho.len_le).trans ho.read), htags, harena.holds,
    hkeys⟩

theorem Rest.keyHolds (h : Rest s t) (k : Nat) : t.keyHolds k = s.keyHolds k := by
  rw [ChunkStore.keyHolds, h.cipher, ChunkStore.keyHolds]

theorem Elsewhere.encrypts {n key : Nat} {x : List UInt8} {y : List Tag} (h : Elsewhere s t n) :
    t.Encrypts 0 bytes key x y ↔ s.Encrypts n bytes key x y := by
  constructor
  · rintro ⟨hroom, hanswered, hpass⟩
    rw [h.tags] at hroom
    rw [h.answers, h.asked] at hanswered
    rw [h.cipher, h.nextVersion, segmentsOf, h.granule] at hpass
    exact ⟨hroom, hanswered, hpass⟩
  · rintro ⟨hroom, hanswered, hpass⟩
    refine ⟨h.tags ▸ hroom, ?_, ?_⟩
    · rwa [h.answers, h.asked]
    · rwa [h.cipher, h.nextVersion, segmentsOf, h.granule]

theorem Encrypts.unique {n key : Nat} {x x' : List UInt8} {y y' : List Tag}
    (h : s.Encrypts n bytes key x y) (h' : s.Encrypts n bytes key x' y') : x = x' ∧ y = y' := by
  obtain ⟨c, requests, hc, hseal⟩ := h.pass
  obtain ⟨c', requests', hc', hseal'⟩ := h'.pass
  obtain rfl : c = c' := Option.some.inj (hc.symm.trans hc')
  rw [hseal] at hseal'
  cases hseal'
  exact ⟨rfl, rfl⟩

theorem Encrypts.only {n key : Nat} {x : List UInt8} {y : List Tag} {P : List UInt8 → Prop}
    (h : s.Encrypts n bytes key x y) : (∀ x, (∃ y, s.Encrypts n bytes key x y) → P x) ↔ P x := by
  refine ⟨fun hall => hall x ⟨y, h⟩, fun hx x' ⟨y', h'⟩ => ?_⟩
  rw [← (h.unique h').1]
  exact hx

theorem Encrypts.opens {n : Nat} {x : List UInt8} {y : List Tag}
    (h : s.Encrypts n bytes key x y) (hc : s.cipher = some c) :
    Opens c key s.nextVersion s.granule (s.segmentsOf bytes.length) 0 (s.segmentsOf bytes.length)
      bytes x y := by
  obtain ⟨c', requests, hc', hseal⟩ := h.pass
  obtain rfl : c = c' := Option.some.inj (hc.symm.trans hc')
  exact (sealFrom_seals _ (s.length_le_segmentsOf _) hseal).opens

theorem Encrypts.holdKey {n : Nat} {x : List UInt8} {y : List Tag}
    (h : s.Encrypts n bytes key x y) (hr : Rest s t) :
    (∃ u, t.holdKey key = .ok u) ↔ s.keyHolds key < u64Max := by
  obtain ⟨c, requests, hc, hseal⟩ := h.pass
  have hpos : s.segmentsOf bytes.length = s.segmentsOf bytes.length - 1 + 1 := by
    have : 1 ≤ s.segmentsOf bytes.length := le_max_right _ _
    omega
  obtain ⟨v, hv⟩ : ∃ v, c.held key = some v := by
    rw [hpos] at hseal
    exact held_of_sealFrom hseal
  rw [holdKey_ok_iff (hr.cipher.trans hc) hv, hr.keyHolds]

theorem seal_outcomes (ho : s.Opened o) (hs : s.seal o (some key) =
      (t.sealBlock block o.len key).2.finish o block (t.sealBlock block o.len key).1)
    (hrest : Rest s t) (htags : t.tags = s.tags) (hh : t.arena.holds block)
    (hown : t.arena.holds o.block) (hlen : o.len ≤ block.len)
    (hread : t.arena.read block.region block.offset o.len = some (s.openBytes o)) :
    ((∀ sealed tags, ¬ t.Encrypts 0 (s.openBytes o) key sealed tags) ∧
      (s.SealsFaithfully o (some key) ∨ ∃ u s', LeftAlone t u ∧ GivenBack u s' o block none ∧
        (s.SealsFaithfully o (some key) ↔ s.Unchanged s' o))) ∨
    ∃ sealed tags, t.Encrypts 0 (s.openBytes o) key sealed tags ∧
      (t.nextVersion < u64Max ∧
          (0 < s.chunks.room ∧ s.keyHolds key < u64Max → s.SealsFaithfully o (some key)) ∧
          (¬ (0 < s.chunks.room ∧ s.keyHolds key < u64Max) → ∃ u s' sl,
            SealedTo t u block sealed sl.tags tags ∧ GivenBack u s' o block (some sl) ∧
            (s.SealsFaithfully o (some key) ↔ s.Unchanged s' o)) ∨
        u64Max ≤ t.nextVersion ∧
          (s.SealsFaithfully o (some key) ↔ sealed = s.openBytes o ∧ 0 < s.chunks.room)) := by
  have hgr := hrest.granule
  have hseg : t.segmentsOf o.len = s.segmentsOf o.len := by rw [segmentsOf, segmentsOf, hgr]
  rcases sealBlock_cases hh hlen (by rw [hseg]; exact ho.segments) hread key with
    ⟨hno, hnone, hleft⟩ | ⟨sealed, tags, run, he, hto, hsealing⟩
  · refine .inl ⟨hno, ?_⟩
    rw [hnone] at hs
    obtain ⟨hyes, hnot⟩ := faithful_clear hs ho (by rw [hleft.arena]; exact hh)
      (by rw [hleft.arena]; exact hown) hlen (by rw [hleft.arena]; exact hread)
    by_cases hroom : 0 < (t.sealBlock block o.len key).2.chunks.room
    · exact .inl ((hyes hroom).2 rfl)
    · obtain ⟨s', hg, hiff⟩ := hnot hroom
      exact .inr ⟨_, s', hleft, hg, hiff⟩
  · refine .inr ⟨sealed, tags, he, ?_⟩
    obtain ⟨c, requests, hc, -⟩ := he.pass
    have hopens := he.opens hc
    rw [ho.length] at hopens
    have hslen : sealed.length = o.len := by rw [hopens.length, ho.length]
    have hroom : (t.sealBlock block o.len key).2.chunks.room = s.chunks.room := by
      rw [hto.chunks, hrest.chunks]
    have hh' : (t.sealBlock block o.len key).2.arena.holds block := by
      rw [hto.arena, ChunkArena.write_holds hh]
      exact hh
    have hown' : (t.sealBlock block o.len key).2.arena.holds o.block := by
      rw [hto.arena, ChunkArena.write_holds hh]
      exact hown
    have hread' : (t.sealBlock block o.len key).2.arena.read block.region block.offset o.len =
        some sealed := by
      rw [hto.arena, ← hslen]
      exact ChunkArena.write_read hh (by omega)
    by_cases hv : t.nextVersion + 1 ≤ u64Max
    · refine .inl ⟨hv, ?_⟩
      rw [if_pos hv] at hsealing
      rw [hsealing] at hs
      have hto_seg : (t.sealBlock block o.len key).2.segmentsOf o.len = t.segmentsOf o.len := by
        rw [segmentsOf, segmentsOf, hto.granule]
      obtain ⟨hyes, hnot⟩ := faithful_sealed hs ho hh' hown' hlen hread' (by rw [hto.cipher, hc])
        hto_seg.symm hto.found (by rw [hto.granule]; exact hopens)
      have hhold : (∃ u, (t.sealBlock block o.len key).2.holdKey key = .ok u) ↔
          s.keyHolds key < u64Max := by
        rw [he.holdKey hto.toRest, hrest.keyHolds]
      rw [hroom, hhold] at hyes hnot
      refine ⟨hyes, fun hn => ?_⟩
      obtain ⟨s', hg, hiff⟩ := hnot hn
      exact ⟨_, s', _, hto, hg, hiff⟩
    · refine .inr ⟨by omega, ?_⟩
      rw [if_neg hv] at hsealing
      rw [hsealing] at hs
      obtain ⟨hyes, hnot⟩ := faithful_clear hs ho hh' hown' hlen hread'
      rw [hroom] at hyes hnot
      by_cases hpos : 0 < s.chunks.room
      · rw [hyes hpos]
        exact ⟨fun h => ⟨h, hpos⟩, fun h => h.1⟩
      · -- The run of tags is kept by nobody, and nothing gives it back.
        obtain ⟨s', hg, hiff⟩ := hnot hpos
        rw [hiff]
        refine ⟨fun hun => ?_, fun h => absurd h.2 hpos⟩
        have hrun := hun.tags run
        rw [hg.clear rfl, hto.found, ← htags, hto.fresh] at hrun
        cases hrun

end Outcomes

/-- A pass that encrypts the bytes in place is followed by an admitted record, and one that finds no
version left encrypted nothing. -/
def SealAdmits (s : ChunkStore g) (o : OpenExtent) (key : Nat) (sealed : List UInt8) : Prop :=
  (u64Max ≤ s.nextVersion → sealed = s.openBytes o ∧ 0 < s.chunks.room) ∧
  (s.nextVersion < u64Max → s.arena.imaged o.block = false → sealed ≠ s.openBytes o →
    0 < s.chunks.room ∧ s.keyHolds key < u64Max)

private theorem faithful_empty (ho : s.Opened o) (key : Option Nat) (hlen : o.len = 0) :
    s.SealsFaithfully o key := by
  obtain ⟨a', -, -, -, hfree, -⟩ := ChunkArena.free_spec ho.holds
  unfold SealsFaithfully ChunkStore.seal
  rw [if_pos hlen, hfree]
  exact List.length_eq_zero_iff.1 (ho.length.trans hlen)

private theorem faithful_unkeyed {key : Option Nat} (ho : s.Opened o) (hlen : o.len ≠ 0)
    (hkey : key = none ∨ s.cipher = none) : s.SealsFaithfully o key := by
  obtain ⟨hyes, hnot⟩ := faithful_clear (seal_clear hlen hkey) ho ho.holds ho.holds ho.len_le
    ho.read
  by_cases hroom : 0 < s.chunks.room
  · exact (hyes hroom).2 rfl
  · obtain ⟨s', hg, hiff⟩ := hnot hroom
    refine hiff.2 (unchanged_of_refused ho ?_ (fun h => by rw [hg.clear rfl]) hg.holds)
    rw [hg.stays rfl]
    exact .refl _

private theorem faithful_inPlace (ho : s.Opened o) (hlen : o.len ≠ 0)
    (hc : s.cipher = some c) (him : s.arena.imaged o.block = false) :
    s.SealsFaithfully o (some key) ↔ ∀ sealed, s.SealPass o key sealed →
      s.SealAdmits o key sealed := by
  have hpass : ∀ sealed, s.SealPass o key sealed ↔
      ∃ tags, s.Encrypts 0 (s.openBytes o) key sealed tags := by
    intro sealed
    constructor
    · intro h
      have := h.encrypts
      rwa [him] at this
    · intro h
      exact ⟨fun h' => (by rw [him] at h'; cases h'), by rwa [him]⟩
  have hs := seal_inPlace hlen hc him key
  simp only [hpass]
  rcases seal_outcomes ho hs ⟨rfl, rfl, rfl⟩ rfl ho.holds ho.holds ho.len_le ho.read with
    ⟨hno, hout⟩ | ⟨sealed, tags, he, hout⟩
  · refine ⟨fun _ x h => absurd h (not_exists.2 (hno x)), fun _ => ?_⟩
    rcases hout with hf | ⟨u, s', hleft, hg, hiff⟩
    · exact hf
    · refine hiff.2 (unchanged_of_refused ho ?_ ?_ fun k => (hg.holds k).trans (hleft.keyHolds k))
      · rw [hg.stays rfl, hleft.arena]
        exact .refl _
      · intro h
        rw [hg.clear rfl, hleft.tags h]
  · rw [he.only, SealAdmits]
    rcases hout with ⟨hv, hyes, hnot⟩ | ⟨hv, hiff⟩
    · by_cases hroom : 0 < s.chunks.room ∧ s.keyHolds key < u64Max
      · exact ⟨fun _ => ⟨fun h => by omega, fun _ _ _ => hroom⟩, fun _ => hyes hroom⟩
      · -- The record is refused: the tags go back, the bytes stay encrypted.
        obtain ⟨u, s', sl, hto, hg, hiff⟩ := hnot hroom
        obtain ⟨tags', hrem⟩ := Slab.remove_ok hto.found
        have harena : s'.arena = s.arena.write o.block 0 sealed := (hg.stays rfl).trans hto.arena
        have hslen : sealed.length = o.len := by
          rw [(he.opens hc).length, ho.length]
        have hbytes : s'.openBytes o = sealed := by
          refine openBytes_of_read ?_ ho.len_le ?_
          · rw [harena, ChunkArena.write_holds ho.holds]
            exact ho.holds
          · rw [harena, ← hslen]
            exact ChunkArena.write_read ho.holds (by rw [hslen]; exact ho.len_le)
        rw [hiff]
        constructor
        · intro hun
          exact ⟨fun h => by omega, fun _ _ hne => absurd (hbytes.symm.trans hun.bytes) hne⟩
        · intro hadm
          have heq : sealed = s.openBytes o := by
            by_contra hne
            exact hroom (hadm.2 hv him hne)
          refine ⟨hbytes.trans heq, fun h => ?_, fun x => ?_,
            fun k => (hg.holds k).trans (hto.keyHolds k)⟩
          · rw [hg.tags sl _ _ rfl hrem]
            exact Slab.remove_restores hrem hto.fresh hto.others h
          · rw [harena, ChunkArena.write_holds ho.holds]
    · rw [hiff]
      exact ⟨fun h => ⟨fun _ => h, fun h' => by omega⟩, fun h => h.1 hv⟩

private theorem faithful_inCopy (ho : s.Opened o) (hlen : o.len ≠ 0)
    (hc : s.cipher = some c) (him : s.arena.imaged o.block = true) :
    s.SealsFaithfully o (some key) ↔ ∀ sealed, s.SealPass o key sealed →
      s.SealAdmits o key sealed := by
  have hwhere := seal_keyed hlen hc key
  rw [sealWhereSafe, if_pos him] at hwhere
  rcases copiedOutOfImage_cases ho.holds ho.len_le ho.read with
    ⟨hno, hnone, hrest, htags, href⟩ | ⟨copy, hroom, hsome, hcopied⟩
  · -- No copy: the chunk stands in the clear, in the block the image names.
    rw [show s.copiedOutOfImage o.block o.len = (none, (s.copiedOutOfImage o.block o.len).2) from
      Prod.ext hnone rfl] at hwhere
    simp only at hwhere
    refine ⟨fun _ x hx => absurd (hx.copies him) hno, fun _ => ?_⟩
    obtain ⟨hh, hr⟩ := ChunkArena.Keeps.holds href.keeps href.identity ho.holds
    obtain ⟨hyes, hnot⟩ := faithful_clear hwhere ho hh hh ho.len_le
      ((hr _ ho.len_le).trans ho.read)
    by_cases hpos : 0 < (s.copiedOutOfImage o.block o.len).2.chunks.room
    · exact (hyes hpos).2 rfl
    · obtain ⟨s', hg, hiff⟩ := hnot hpos
      refine hiff.2 (unchanged_of_refused ho ?_ ?_ fun k => (hg.holds k).trans (hrest.keyHolds k))
      · rw [hg.stays rfl]
        exact href
      · intro h
        rw [hg.clear rfl, htags]
  · rw [show s.copiedOutOfImage o.block o.len =
      (some copy, (s.copiedOutOfImage o.block o.len).2) from
      Prod.ext hsome rfl] at hwhere
    simp only at hwhere
    generalize (s.copiedOutOfImage o.block o.len).2 = t at hwhere hcopied
    have hat := hcopied.arena
    have hne : copy ≠ o.block := fun h => hat.not_held (h ▸ ho.holds)
    obtain ⟨hown, hkept⟩ := ChunkArena.Keeps.holds hat.keeps hat.identity ho.holds
    have hpass : ∀ sealed, s.SealPass o key sealed ↔
        ∃ tags, t.Encrypts 0 (s.openBytes o) key sealed tags := by
      intro sealed
      simp only [hcopied.encrypts]
      constructor
      · intro h
        have := h.encrypts
        rwa [if_pos him] at this
      · intro h
        exact ⟨fun _ => hroom, by rwa [if_pos him]⟩
    simp only [hpass]
    have hread := hat.read
    rw [ho.length] at hread
    rcases seal_outcomes ho hwhere hcopied.toRest hcopied.tags hat.holds hown
      (ho.len_le.trans hcopied.le) hread with ⟨hno, hout⟩ | ⟨sealed, tags, he, hout⟩
    · refine ⟨fun _ x h => absurd h (not_exists.2 (hno x)), fun _ => ?_⟩
      rcases hout with hf | ⟨u, s', hleft, hg, hiff⟩
      · exact hf
      · obtain ⟨a', -, -, -, hfree, -⟩ := ChunkArena.free_spec hat.holds
        refine hiff.2 (unchanged_of_refused ho ?_ ?_ fun k =>
          (hg.holds k).trans ((hleft.keyHolds k).trans (hcopied.keyHolds k)))
        · rw [hg.freed hne a' (by rw [hleft.arena, hfree])]
          exact hat.refused hfree
        · intro h
          rw [hg.clear rfl, hleft.tags h, hcopied.tags]
    · rw [he.only, SealAdmits]
      rw [hcopied.nextVersion] at hout
      rcases hout with ⟨hv, hyes, hnot⟩ | ⟨hv, hiff⟩
      · refine ⟨fun _ => ⟨fun h => by omega, fun _ h => by rw [him] at h; cases h⟩, fun _ => ?_⟩
        by_cases hpos : 0 < s.chunks.room ∧ s.keyHolds key < u64Max
        · exact hyes hpos
        · -- The copy goes back with its tags.
          obtain ⟨u, s', sl, hto, hg, hiff⟩ := hnot hpos
          obtain ⟨tags', hrem⟩ := Slab.remove_ok hto.found
          have hslen : sealed.length = (s.openBytes o).length :=
            (he.opens (hcopied.cipher.trans hc)).length
          have hat' : ChunkArena.CopyAt s.arena u.arena copy sealed := by
            rw [hto.arena]
            exact hat.write hslen
          obtain ⟨a', -, -, -, hfree, -⟩ := ChunkArena.free_spec hat'.holds
          refine hiff.2 (unchanged_of_refused ho ?_ ?_ fun k =>
            (hg.holds k).trans ((hto.keyHolds k).trans (hcopied.keyHolds k)))
          · rw [hg.freed hne a' hfree]
            exact hat'.refused hfree
          · intro h
            rw [hg.tags sl _ _ rfl hrem, ← hcopied.tags]
            exact Slab.remove_restores hrem hto.fresh hto.others h
      · rw [hiff]
        exact ⟨fun h => ⟨fun _ => h, fun h' => by omega⟩, fun h => h.1 hv⟩

/-- A seal is faithful exactly when what it encrypts becomes readable. -/
theorem seal_faithful_iff (ho : s.Opened o) (key : Option Nat) :
    s.SealsFaithfully o key ↔ ∀ k sealed, key = some k → o.len ≠ 0 → s.SealPass o k sealed →
      s.SealAdmits o k sealed := by
  by_cases hlen : o.len = 0
  · exact ⟨fun _ _ _ _ h => absurd hlen h, fun _ => faithful_empty ho key hlen⟩
  · cases key with
    | none => exact ⟨nofun, fun _ => faithful_unkeyed ho hlen (.inl rfl)⟩
    | some k =>
      cases hc : s.cipher with
      | none =>
        refine ⟨fun _ k sealed _ _ hp => ?_, fun _ => faithful_unkeyed ho hlen (.inr hc)⟩
        obtain ⟨tags, he⟩ := hp.encrypts
        obtain ⟨c, requests, hc', -⟩ := he.pass
        rw [hc] at hc'
        cases hc'
      | some c =>
        have hiff : s.SealsFaithfully o (some k) ↔
            ∀ sealed, s.SealPass o k sealed → s.SealAdmits o k sealed := by
          cases him : s.arena.imaged o.block with
          | true => exact faithful_inCopy ho hlen hc him
          | false => exact faithful_inPlace ho hlen hc him
        rw [hiff]
        constructor
        · rintro h _ sealed ⟨rfl⟩ -
          exact h sealed
        · exact fun h sealed => h k sealed rfl hlen

/-! ## A refused record -/

def shiftCipher : ShardCipher where
  aead := {
    sealSegment := fun _ _ _ _ segment => (segment.map (· + 1), some [])
    openSegment := fun _ _ _ _ segment _ => some (segment.map (· - 1))
    length_seal := fun _ _ _ _ _ => List.length_map _
    open_seal := by
      intro _ _ _ _ segment sealed _ h
      obtain ⟨rfl, -⟩ := Prod.mk.injEq .. ▸ h
      rw [List.map_map, Option.some.injEq]
      exact (List.map_congr_left fun x _ => UInt8.add_sub_cancel x 1).trans (List.map_id segment) }
  salt := 0
  keys := [some ⟨⟨0, 0⟩, 1⟩]
  free := []

/-- An open extent with `bytes` in it. -/
def opened (s : ChunkStore g) (bytes : List UInt8) : ChunkStore g × OpenExtent :=
  match s.open_ 0 bytes.length 0 false with
  | (.error _, s) => (s, ⟨0, 0, ⟨0, 0, 0, 0, 0⟩, 0, 0⟩)
  | (.ok o, s) =>
    match s.writeOpen o 0 bytes with
    | (.ok o, s) => (s, o)
    | (.error _, s) => (s, o)

/-- A store with one chunk in the clear, and an open extent. -/
def storeOf (chunks : Nat) : ChunkStore (2 ^ 2) × OpenExtent :=
  let s := ChunkStore.new (ChunkArena.new 1 2 2) 2 chunks (some shiftCipher) (fun _ => true)
    (by decide)
  let (s, o) := s.opened [9]
  (s.seal o none).2.opened [1, 2, 3]

/-- The chunk slab is full: the seal is refused with the bytes encrypted in place. -/
theorem refused_seal_keeps_ciphertext : (storeOf 1).1.Opened (storeOf 1).2 ∧
    ¬ (storeOf 1).1.SealsFaithfully (storeOf 1).2 (some 0) := by
  refine ⟨⟨by decide +kernel, by decide +kernel, by decide +kernel⟩, ?_⟩
  have hbefore : (storeOf 1).1.openBytes (storeOf 1).2 = [1, 2, 3] := by decide +kernel
  have hafter :
      ((storeOf 1).1.seal (storeOf 1).2 (some 0)).2.openBytes (storeOf 1).2 = [2, 3, 4] := by
    decide +kernel
  have hrefused : ∃ refusal, ((storeOf 1).1.seal (storeOf 1).2 (some 0)).1 = .error refusal :=
    ⟨.memory (.slabFull 1), by decide +kernel⟩
  obtain ⟨refusal, hr⟩ := hrefused
  rw [faithful_of_refused (Prod.ext hr rfl)]
  intro h
  have := h.bytes
  rw [hbefore, hafter] at this
  cases this

theorem seal_faithful_iff_admitted : (storeOf 2).1.Opened (storeOf 2).2 ∧
    ((storeOf 2).1.SealsFaithfully (storeOf 2).2 (some 0) ↔
      ∀ k sealed, some 0 = some k → (storeOf 2).2.len ≠ 0 →
        (storeOf 2).1.SealPass (storeOf 2).2 k sealed →
        (storeOf 2).1.SealAdmits (storeOf 2).2 k sealed) :=
  have ho : (storeOf 2).1.Opened (storeOf 2).2 :=
    ⟨by decide +kernel, by decide +kernel, by decide +kernel⟩
  ⟨ho, seal_faithful_iff ho (some 0)⟩

end Slates.Content.ChunkStore
