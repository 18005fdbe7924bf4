import Slates.Content.Sealing

/-!
A sealed window: trimmed or whole, sealed or in the clear, a chunk reads back as the bytes it was
made of, each segment opened under the index and the flag it was sealed with.
-/

namespace Slates.Content.ChunkStore

open Mem

variable {g : Nat} {s : ChunkStore g} {c : Chunk} {sealer : ShardCipher} {bytes : List UInt8}

/-- The chunk's block holds `bytes`: in the clear, or as a pass of `sealer` over them left it, and
the store opens as `sealer` does. -/
structure Window (s : ChunkStore g) (sealer : ShardCipher) (c : Chunk) (bytes : List UInt8) :
    Prop where
  length : bytes.length = c.len
  stored : ∃ raw, s.Stored c raw ∧
    match c.sealing with
    | none => raw = bytes
    | some sealing => sealing.segments = s.segmentsOf c.len ∧
      (∃ cipher, s.cipher = some cipher ∧ cipher.openAs = sealer.openAs) ∧
      ∃ tags requests, s.tags.find sealing.tags = some tags ∧
        sealFrom sealer sealing.key sealing.version s.granule sealing.segments 0 sealing.segments
          bytes = (requests, some (raw, tags))

/-- The segment `index` is opened as it was sealed: the same key, version, index and flag, over the
bytes and the tag its seal left. -/
def OpenedAsSealed (s : ChunkStore g) (sealer : ShardCipher) (c : Chunk) (sealing : ChunkSeal)
    (bytes : List UInt8) (index : Nat) : Prop :=
  ∃ cipher stored source tag, s.cipher = some cipher ∧
    s.arena.span c.block (s.storedBytes c) = some stored ∧
    sealer.sealAs sealing.key sealing.version index (index + 1 = sealing.segments)
      (piece bytes (index * s.granule) (min (index * s.granule + s.granule) c.len)) =
        (source, some tag) ∧
    s.openSegment cipher c sealing stored index =
      cipher.openAs sealing.key sealing.version index (index + 1 = sealing.segments) source tag

section Sealed

variable {sealing : ChunkSeal}

theorem Window.seals (h : s.Window sealer c bytes) (hc : c.sealing = some sealing) :
    sealing.segments = s.segmentsOf c.len ∧ ∃ cipher raw tags, s.cipher = some cipher ∧
      cipher.openAs = sealer.openAs ∧ s.Stored c raw ∧ s.tags.find sealing.tags = some tags ∧
      Seals sealer sealing.key sealing.version s.granule sealing.segments 0 sealing.segments bytes
        raw tags := by
  obtain ⟨raw, hstored, hs⟩ := h.stored
  rw [hc] at hs
  obtain ⟨hsegments, ⟨cipher, hcipher, hopen⟩, tags, requests, htags, hseal⟩ := hs
  refine ⟨hsegments, cipher, raw, tags, hcipher, hopen, hstored, htags, sealFrom_seals _ ?_ hseal⟩
  rw [h.length, hsegments]
  exact s.length_le_segmentsOf c.len

theorem Window.openedAsSealed (h : s.Window sealer c bytes) (hc : c.sealing = some sealing)
    {index : Nat} (hindex : index * s.granule < c.len) :
    s.OpenedAsSealed sealer c sealing bytes index := by
  obtain ⟨hsegments, cipher, raw, tags, hcipher, -, hstored, htags, hseals⟩ := h.seals hc
  obtain ⟨stored, hspan, hlen, htake⟩ := hstored.span
  obtain ⟨tag, htag, hseal⟩ := hseals.seals index (by
    rw [hsegments]
    exact lt_segmentsOf hindex)
  rw [Nat.zero_add] at hseal
  refine ⟨cipher, stored, _, tag, hcipher, hspan, ?_, hstored.openSegment hspan htags htag hindex⟩
  rw [← h.length, piece_segment]
  exact hseal

end Sealed

theorem Window.plain (h : s.Window sealer c bytes) : s.Plain c bytes := by
  cases hc : c.sealing with
  | none =>
    obtain ⟨raw, hstored, hs⟩ := h.stored
    rw [hc] at hs
    exact (hs ▸ hstored).plain hc
  | some sealing =>
    obtain ⟨hsegments, cipher, raw, tags, hcipher, hopen, hstored, htags, hseals⟩ := h.seals hc
    refine hstored.plain_sealed hc hcipher hsegments htags ⟨hseals.length, fun j hj => ?_⟩
    rw [hopen]
    exact hseals.opens.opens j hj

/-- **An admitted seal leaves a window** of the bytes that were open. -/
theorem seal_leaves_window {o : OpenExtent} {key : Nat} {sealed : List UInt8} {tags : List Tag}
    (ho : s.Opened o) (hlen : o.len ≠ 0) (hc : s.cipher = some sealer)
    (him : s.arena.imaged o.block = false)
    (he : s.Encrypts 0 (s.openBytes o) key sealed tags) (hv : s.nextVersion < u64Max)
    (hroom : 0 < s.chunks.room) (hhold : s.keyHolds key < u64Max) :
    ∃ h s' chunk, s.seal o (some key) = (.ok (some ⟨o.off, o.len, .chunk h 0⟩), s') ∧
      s'.chunks.find h = some chunk ∧ s'.Window sealer chunk (s.openBytes o) := by
  rcases sealBlock_cases ho.holds ho.len_le ho.segments ho.read key with
    ⟨hno, -⟩ | ⟨sealed', tags', run, he', hto, hsealing⟩
  · exact absurd he (hno _ _)
  obtain ⟨rfl, rfl⟩ := he.unique he'
  have hslen : sealed.length = o.len := by rw [(he.opens hc).length, ho.length]
  rw [seal_inPlace hlen hc him, hsealing, if_pos (show s.nextVersion + 1 ≤ u64Max from hv)]
  generalize (s.sealBlock o.block o.len key).2 = u at hto
  have hholds : u.arena.holds o.block := by
    rw [hto.arena, ChunkArena.write_holds ho.holds]
    exact ho.holds
  obtain ⟨h, s', chunk, hfin, hfind, hclen, hseal, hstored, hpage, htags, hcipher⟩ :=
    finish_stored (some ⟨key, s.nextVersion, run, s.segmentsOf o.len⟩) ho.len_le_u32 hholds hholds
      ho.len_le
      (by rw [hto.arena, ← hslen]; exact ChunkArena.write_read ho.holds (hslen ▸ ho.len_le))
      (hto.chunks ▸ hroom)
      (by rintro _ ⟨rfl⟩; exact (he.holdKey hto.toRest).mpr hhold)
  obtain ⟨c', requests, hc', hpass⟩ := he.pass
  obtain rfl : sealer = c' := Option.some.inj (hc.symm.trans hc')
  have hgr : s'.granule = s.granule := by rw [granule, hpage, hto.page, granule]
  refine ⟨h, s', chunk, hfin, hfind, ho.length.trans hclen.symm, sealed, hstored, ?_⟩
  rw [hseal]
  refine ⟨?_, hcipher sealer (hto.cipher.trans hc), tags, requests, htags ▸ hto.found, ?_⟩
  · rw [hclen, segmentsOf, segmentsOf, hgr]
  · rw [hgr, ← hpass, ho.length]

theorem sealed_window_reads_back {h : Handle} {e : Extent} {at_ : Nat}
    (hc : s.chunks.find h = some c) (hw : s.Window sealer c bytes) (he : e.src = .chunk h at_)
    (hsub : at_ + e.len ≤ c.len) (off : Nat) (out : List UInt8) :
    (∃ read, s.readExtentInto e off out = .ok read ∧ read.length = out.length ∧
      ∀ i, i < out.length → read[i]? =
        if e.off ≤ off + i ∧ off + i < e.off + e.len then bytes[at_ + (off + i - e.off)]?
        else out[i]?) ∧
    ∀ sealing, c.sealing = some sealing → ∀ index, index * s.granule < c.len →
      s.OpenedAsSealed sealer c sealing bytes index := by
  refine ⟨⟨_, readExtentInto_plain hc hw.plain he off out, List.length_mapIdx, fun i hi => ?_⟩,
    fun sealing hs index hindex => hw.openedAsSealed hs hindex⟩
  have hlen := hw.length
  rw [getElem?_copyOverlap, List.getElem?_eq_getElem hi, Option.map_some, piece]
  simp only [List.getElem?_drop, List.getElem?_take]
  by_cases hlo : e.off ≤ off + i
  · by_cases hhi : off + i < e.off + e.len
    · rw [if_pos hlo, if_pos (by omega), if_pos ⟨hlo, hhi⟩,
        List.getElem?_eq_getElem (l := bytes) (by omega), Option.getD_some]
    · rw [if_pos hlo, if_neg (by omega), if_neg fun h => hhi h.2, Option.getD_none]
  · rw [if_neg hlo, if_neg fun h => hlo h.1]

/-- A store whose one chunk has two segments, the second of them short. -/
def sealedStore : ChunkStore (2 ^ 2) :=
  let (s, o) := (ChunkStore.new (ChunkArena.new 1 2 2) 4 1 (some shiftCipher) (fun _ => true)
    (by decide)).opened [1, 2, 3, 4, 5, 6]
  (s.seal o (some 0)).2

def sealedChunk : Chunk := ⟨0, 6, ⟨1, 0, 0, 8, 1⟩, some ⟨0, 0, ⟨0, 0⟩, 2⟩⟩

theorem sealed_window_reads_back_part : sealedStore.chunks.find ⟨0, 0⟩ = some sealedChunk ∧
    ∃ read, sealedStore.readExtentInto ⟨10, 4, .chunk ⟨0, 0⟩ 1⟩ 11 [0, 0, 0, 0, 9] = .ok read ∧
      read.length = 5 ∧ read[2]? = some 5 ∧ read[4]? = some 9 := by
  have hc : sealedStore.chunks.find ⟨0, 0⟩ = some sealedChunk := by decide +kernel
  have hw : sealedStore.Window ⟨shiftCipher.aead, 0, [some ⟨⟨0, 0⟩, 2⟩], []⟩ sealedChunk
      [1, 2, 3, 4, 5, 6] :=
    ⟨rfl, [2, 3, 4, 5, 6, 7], ⟨⟨16, by decide +kernel, by decide +kernel⟩, by decide +kernel⟩,
      by decide +kernel, ⟨_, rfl, rfl⟩, [[], []], _, by decide +kernel, rfl⟩
  obtain ⟨⟨read, hread, hlen, hat⟩, -⟩ :=
    sealed_window_reads_back hc hw (e := ⟨10, 4, .chunk ⟨0, 0⟩ 1⟩) rfl
      (by decide) 11 [0, 0, 0, 0, 9]
  exact ⟨hc, read, hread, hlen, hat 2 (by decide), hat 4 (by decide)⟩

end Slates.Content.ChunkStore
