import Slates.Library.Runs
import Slates.Content.Sealing

/-!
The nonces a chunk store seals under: a key's identity, the version counter and the segment's index.
No two different segments may share all three (`NoncesUnique`), earlier lives included. The counter
moves only when a pass completes, so a pass the cipher refuses leaves its version to the next one.
-/

namespace Slates.Content

open Mem

variable {g : Nat}

/-- No two different segments were sealed under one key, version and index. -/
def NoncesUnique (requests : List Request) : Prop :=
  ∀ r ∈ requests, ∀ r' ∈ requests, r.key = r'.key → r.version = r'.version → r.index = r'.index →
    r.segment = r'.segment

instance (requests : List Request) : Decidable (NoncesUnique requests) :=
  inferInstanceAs (Decidable (∀ r ∈ requests, ∀ r' ∈ requests, r.key = r'.key →
    r.version = r'.version → r.index = r'.index → r.segment = r'.segment))

namespace ChunkStore

/-- The calls of a chunk store and of its cipher. `rearrange` stands for the calls that only move
blocks about. `restart` is the next life of the daemon: another store, over whatever the arena holds
then, and a cipher with another salt. -/
inductive Call (g : Nat)
  | open_ (off want born : Nat) (locked : Bool)
  | writeOpen (o : OpenExtent) (at_ : Nat) (bytes : List UInt8)
  | sealOpen (o : OpenExtent) (key : Option Nat)
  | freeChunk (handle : Handle)
  | keyForVolume (volume : Nat)
  | reference (identity : KeyIdentity)
  | releaseKey (key : Nat)
  | adoptChunk (chunk : Chunk) (sealed : Option (Nat × Nat × List Tag))
  | rearrange (arena : ChunkArena g)
  | restart (arena : ChunkArena g) (maxChunks salt : Nat)

def withCipher (s : ChunkStore g) (f : ShardCipher → Except VfsError ShardCipher) : ChunkStore g :=
  match s.cipher with
  | none => s
  | some c =>
    match f c with
    | .ok c => { s with cipher := some c }
    | .error _ => s

def call (s : ChunkStore g) : Call g → ChunkStore g
  | .open_ off want born locked => (s.open_ off want born locked).2
  | .writeOpen o at_ bytes => (s.writeOpen o at_ bytes).2
  | .sealOpen o key => (s.seal o key).2
  | .freeChunk handle => (s.freeChunk handle).2
  | .keyForVolume volume => s.withCipher fun c => (c.keyForVolume volume).map Prod.snd
  | .reference identity => s.withCipher fun c => (c.register identity).map Prod.snd
  | .releaseKey key => s.withCipher fun c => c.release key
  | .adoptChunk chunk sealed => (s.adoptChunk chunk sealed).2
  | .rearrange arena => { s with arena := arena }
  | .restart arena maxChunks salt =>
    { s with
      arena := arena
      chunks := .empty maxChunks
      cipher := s.cipher.map fun c => { c with salt := salt, keys := [], free := [] }
      tags := .empty maxChunks
      nextVersion := 0 }

/-! ## Calls that seal nothing -/

/-- The cipher was asked nothing, and seals under the same salt and version. -/
structure Quiet (s s' : ChunkStore g) : Prop where
  requests : s'.requests = s.requests
  nextVersion : s'.nextVersion = s.nextVersion
  page : s'.page = s.page
  salt : s'.cipher.map ShardCipher.salt = s.cipher.map ShardCipher.salt

variable {s s' s'' : ChunkStore g} {block : Mem.Extent} {len key segments version : Nat}
  {run : Handle} {o : OpenExtent}

theorem Quiet.refl (s : ChunkStore g) : Quiet s s := ⟨rfl, rfl, rfl, rfl⟩

theorem Quiet.trans (h : Quiet s s') (h' : Quiet s' s'') : Quiet s s'' :=
  ⟨h'.requests.trans h.requests, h'.nextVersion.trans h.nextVersion, h'.page.trans h.page,
    h'.salt.trans h.salt⟩

end ChunkStore

namespace ShardCipher

variable {c c' : ShardCipher} {key : Nat}

theorem salt_register {identity : KeyIdentity} (h : c.register identity = .ok (key, c')) :
    c'.salt = c.salt := by
  unfold register at h
  split at h
  · cases h
    rfl
  · split at h
    · split at h
      · cases h
        rfl
      · cases h
    · split at h
      · cases h
        rfl
      · cases h

theorem salt_hold (h : c.hold key = .ok c') : c'.salt = c.salt := (hold_spec h).salt

theorem salt_release (h : c.release key = .ok c') : c'.salt = c.salt := by
  unfold release at h
  split at h
  · cases h
  · split at h
    · cases h
    · split at h <;> cases h <;> rfl

theorem salt_keyForVolume {volume : Nat} (h : c.keyForVolume volume = .ok (key, c')) :
    c'.salt = c.salt := by
  unfold keyForVolume at h
  simp only [bind, Except.bind, pure, Except.pure] at h
  split at h
  · cases h
  · rename_i found hreg
    split at h
    · cases h
    · rename_i c'' hhold
      cases h
      exact (salt_hold hhold).trans (salt_register hreg)

end ShardCipher

namespace ChunkStore

variable {s s' s'' : ChunkStore g} {block : Mem.Extent} {len key segments version : Nat}
  {run : Handle} {o : OpenExtent}

theorem quiet_withCipher (s : ChunkStore g) {f : ShardCipher → Except VfsError ShardCipher}
    (hf : ∀ c c', f c = .ok c' → c'.salt = c.salt) : Quiet s (s.withCipher f) := by
  unfold withCipher
  split
  · exact .refl s
  · rename_i c hc
    split
    · rename_i c' hok
      refine ⟨rfl, rfl, rfl, ?_⟩
      simp only [hc, Option.map_some, hf c c' hok]
    · exact .refl s

theorem quiet_holdKey (h : s.holdKey key = .ok s') : Quiet s s' := by
  obtain ⟨c, c', hc, hold, rfl⟩ := holdKey_ok h
  refine ⟨rfl, rfl, rfl, ?_⟩
  simp only [hc, Option.map_some, ShardCipher.salt_hold hold]

theorem quiet_releaseKey (h : s.releaseKey key = .ok s') : Quiet s s' := by
  unfold releaseKey at h
  split at h
  · cases h
  · rename_i c hc
    split at h
    · rename_i c' hrel
      cases h
      refine ⟨rfl, rfl, rfl, ?_⟩
      simp only [hc, Option.map_some, ShardCipher.salt_release hrel]
    · cases h

theorem quiet_freeTags (h : s.freeTags run = .ok s') : Quiet s s' := by
  unfold freeTags at h
  split at h
  · cases h
    exact ⟨rfl, rfl, rfl, rfl⟩
  · cases h

theorem quiet_allocTags (s : ChunkStore g) (segments : Nat) : Quiet s (s.allocTags segments).2 := by
  rcases s.allocTags_spec segments with ⟨refusal, h, -⟩ | ⟨-, run, tags, -, h⟩
  · rw [h]
    exact ⟨rfl, rfl, rfl, rfl⟩
  · rw [h]
    exact ⟨rfl, rfl, rfl, rfl⟩

theorem quiet_record (s : ChunkStore g) (chunk : Chunk) : Quiet s (s.record chunk).2 := by
  have hins : ∀ (t : ChunkStore g) chunks, Quiet t { t with chunks := chunks } :=
    fun _ _ => ⟨rfl, rfl, rfl, rfl⟩
  unfold record
  cases hs : chunk.sealing with
  | none =>
    simp only [holdSeal]
    split
    · exact hins _ _
    · exact .refl s
  | some sealing =>
    simp only [holdSeal]
    split
    · exact .refl s
    · rename_i t ht
      have hq := quiet_holdKey ht
      split
      · exact hq.trans (hins _ _)
      · split
        · rename_i u hu
          exact hq.trans (quiet_releaseKey hu)
        · exact hq

theorem quiet_trimSealed (s : ChunkStore g) (handle : Handle) (block : Mem.Extent)
    (len dirty : Nat) :
    Quiet s (s.trimSealed handle block len dirty) := by
  unfold trimSealed
  split <;> exact ⟨rfl, rfl, rfl, rfl⟩

theorem quiet_finish (s : ChunkStore g) (o : OpenExtent) (block : Mem.Extent)
    (sealing : Option ChunkSeal) : Quiet s (s.finish o block sealing).2 := by
  have hrec := quiet_record s ⟨o.born, min o.len u32Max, block, sealing⟩
  unfold finish
  split
  · rename_i refusal t ht
    rw [ht] at hrec
    refine hrec.trans ?_
    simp only [giveBack_eq]
    exact ⟨rfl, rfl, rfl, rfl⟩
  · rename_i chunk t ht
    rw [ht] at hrec
    refine hrec.trans (Quiet.trans ?_ (quiet_trimSealed _ _ _ _ _))
    split
    · exact .refl t
    · split
      · exact ⟨rfl, rfl, rfl, rfl⟩
      · exact .refl t

theorem quiet_freeChunk (s : ChunkStore g) (handle : Handle) : Quiet s (s.freeChunk handle).2 := by
  unfold freeChunk
  split
  · exact .refl s
  · simp only
    split
    · exact ⟨rfl, rfl, rfl, rfl⟩
    · split
      · exact ⟨rfl, rfl, rfl, rfl⟩
      · have hmoved : ∀ chunks arena, Quiet s { s with chunks := chunks, arena := arena } :=
          fun _ _ => ⟨rfl, rfl, rfl, rfl⟩
        split
        · exact hmoved _ _
        · rename_i t ht
          split
          · exact (hmoved _ _).trans (quiet_freeTags ht)
          · rename_i u hu
            exact (hmoved _ _).trans ((quiet_freeTags ht).trans (quiet_releaseKey hu))

theorem quiet_adoptChunk (s : ChunkStore g) (chunk : Chunk)
    (sealed : Option (Nat × Nat × List Tag)) : Quiet s (s.adoptChunk chunk sealed).2 := by
  unfold adoptChunk
  split
  · exact .refl s
  · split
    · split
      · exact ⟨rfl, rfl, rfl, rfl⟩
      · exact .refl s
    · rename_i key version tags
      simp only
      split
      · exact .refl s
      · have hq := quiet_allocTags s (max ((chunk.len + (s.granule - 1)) / s.granule) 1)
        split
        · rename_i refusal t ht
          rw [ht] at hq
          exact hq
        · rename_i run t ht
          rw [ht] at hq
          have hq' : Quiet s { t with tags := t.tags.modify run fun _ => tags } :=
            ⟨hq.requests, hq.nextVersion, hq.page, hq.salt⟩
          split
          · exact hq'
          · split
            · unfold dropTags
              split
              · rename_i u hu
                exact hq'.trans (quiet_freeTags hu)
              · exact hq'
            · rename_i u hu
              have hu' := hq'.trans (quiet_holdKey hu)
              split
              · exact ⟨hu'.requests, hu'.nextVersion, hu'.page, hu'.salt⟩
              · split
                · exact hu'
                · rename_i v hv
                  split
                  · exact hu'.trans (quiet_freeTags hv)
                  · rename_i w hw
                    exact hu'.trans ((quiet_freeTags hv).trans (quiet_releaseKey hw))

theorem quiet_allocBlock (s : ChunkStore g) (len : Nat) (locked : Bool) :
    Quiet s (s.allocBlock len locked).2 := by
  unfold allocBlock ask
  cases locked <;> exact ⟨rfl, rfl, rfl, rfl⟩

theorem quiet_alloc (s : ChunkStore g) (len : Nat) (locked : Bool) :
    Quiet s (s.alloc len locked).2 := by
  have hq := quiet_allocBlock s len locked
  unfold alloc
  split <;> rename_i h <;> rw [h] at hq <;> exact hq

theorem quiet_open (s : ChunkStore g) (off want born : Nat) (locked : Bool) :
    Quiet s (s.open_ off want born locked).2 := by
  have hq := quiet_alloc s (nextMultiple (min (max want 1) s.chunkBytes) s.granule) locked
  unfold open_
  simp only
  split <;> rename_i h <;> rw [h] at hq <;> exact hq

theorem quiet_moveInto (s : ChunkStore g) (o : OpenExtent) (block : Mem.Extent) (keep : Nat) :
    Quiet s (s.moveInto o block keep).2 := by
  unfold moveInto
  split
  · split
    · simp only
      split <;> exact ⟨rfl, rfl, rfl, rfl⟩
    · split <;> exact ⟨rfl, rfl, rfl, rfl⟩
  · split <;> exact ⟨rfl, rfl, rfl, rfl⟩

theorem quiet_grow (s : ChunkStore g) (o : OpenExtent) (need : Nat) :
    Quiet s (s.grow o need).2 := by
  have hq := quiet_alloc s (nextMultiple need s.granule) (s.arena.isLocked o.block)
  unfold grow
  split
  · exact .refl s
  · split
    · exact .refl s
    · split
      · rename_i h
        rw [h] at hq
        exact hq
      · rename_i block t h
        rw [h] at hq
        exact hq.trans (quiet_moveInto t o block o.len)

theorem quiet_writeOpen (s : ChunkStore g) (o : OpenExtent) (at_ : Nat) (bytes : List UInt8) :
    Quiet s (s.writeOpen o at_ bytes).2 := by
  have hq := quiet_grow s o (at_ + bytes.length)
  unfold writeOpen
  simp only
  split
  · rename_i h
    rw [h] at hq
    exact hq
  · rename_i o' t h
    rw [h] at hq
    split
    · exact ⟨hq.requests, hq.nextVersion, hq.page, hq.salt⟩
    · exact hq

/-! ## The pass -/

structure OneEach (c : ShardCipher) (key version index : Nat) (requests : List Request) : Prop where
  of_key : ∀ r ∈ requests, ∃ v, c.held key = some v ∧ r.key = v.identity
  of_version : ∀ r ∈ requests, r.version = version
  le : ∀ r ∈ requests, index ≤ r.index
  once : ∀ r ∈ requests, ∀ r' ∈ requests, r.index = r'.index → r = r'

theorem OneEach.nil {c : ShardCipher} {key version index : Nat} : OneEach c key version index [] :=
  ⟨nofun, nofun, nofun, nofun⟩

/-- What sealing one segment asks. -/
def requestFor (c : ShardCipher) (key version index : Nat) (segment : List UInt8) : List Request :=
  if index ≤ u32Max then (c.held key).toList.map fun h => ⟨h.identity, version, index, segment⟩
  else []

theorem mem_requestFor {c : ShardCipher} {key version index : Nat} {segment : List UInt8}
    {r : Request}
    (hr : r ∈ requestFor c key version index segment) :
    ∃ v, c.held key = some v ∧ r = ⟨v.identity, version, index, segment⟩ := by
  rw [requestFor] at hr
  split at hr
  · obtain ⟨v, hv, rfl⟩ := List.mem_map.1 hr
    exact ⟨v, Option.mem_toList.1 hv, rfl⟩
  · cases hr

theorem OneEach.append {c : ShardCipher} {key version index : Nat} {rest : List Request}
    (h : OneEach c key version (index + 1) rest) (segment : List UInt8) :
    OneEach c key version index (rest ++ requestFor c key version index segment) := by
  refine ⟨fun r hr => ?_, fun r hr => ?_, fun r hr => ?_, fun r hr r' hr' he => ?_⟩
  · rcases List.mem_append.1 hr with hr | hr
    · exact h.of_key r hr
    · obtain ⟨v, hv, rfl⟩ := mem_requestFor hr
      exact ⟨v, hv, rfl⟩
  · rcases List.mem_append.1 hr with hr | hr
    · exact h.of_version r hr
    · obtain ⟨v, -, rfl⟩ := mem_requestFor hr
      rfl
  · rcases List.mem_append.1 hr with hr | hr
    · exact (Nat.le_succ index).trans (h.le r hr)
    · obtain ⟨v, -, rfl⟩ := mem_requestFor hr
      exact le_rfl
  · rcases List.mem_append.1 hr with hr | hr <;> rcases List.mem_append.1 hr' with hr' | hr'
    · exact h.once r hr r' hr' he
    · obtain ⟨v, -, rfl⟩ := mem_requestFor hr'
      exact absurd ((h.le r hr).trans he.le) (Nat.not_succ_le_self index)
    · obtain ⟨v, -, rfl⟩ := mem_requestFor hr
      exact absurd ((h.le r' hr').trans he.ge) (Nat.not_succ_le_self index)
    · obtain ⟨v, hv, rfl⟩ := mem_requestFor hr
      obtain ⟨v', hv', rfl⟩ := mem_requestFor hr'
      rw [Option.some.inj (hv.symm.trans hv')]

theorem sealFrom_once (c : ShardCipher) (key version granule segments : Nat) (left : Nat) :
    ∀ (index : Nat) (bytes : List UInt8), OneEach c key version index
      (sealFrom c key version granule segments index left bytes).1 := by
  induction left with
  | zero => exact fun _ _ => .nil
  | succ left ih =>
    intro index bytes
    unfold sealFrom
    simp only
    split
    · exact OneEach.nil.append (bytes.take granule)
    · have hrest := ih (index + 1) (bytes.drop granule)
      split
      · rename_i rs rest tags h
        rw [h] at hrest
        exact hrest.append (bytes.take granule)
      · rename_i rs h
        rw [h] at hrest
        exact hrest.append (bytes.take granule)

/-- The pass over the bytes of an extent of `len` bytes. -/
def pass (s : ChunkStore g) (c : ShardCipher) (key len : Nat) (bytes : List UInt8) :
    List Request × Option (List UInt8 × List Tag) :=
  sealFrom c key s.nextVersion s.granule (s.segmentsOf len) 0 (s.segmentsOf len) bytes

/-- The cipher was asked what a pass over `bytes` asks, and the counter moved if it completed. -/
structure Asked (s s' : ChunkStore g) (key len : Nat) (bytes : List UInt8) : Prop where
  asked : ∃ c, s.cipher = some c ∧ s'.requests = (s.pass c key len bytes).1 ++ s.requests ∧
    s'.nextVersion = if (s.pass c key len bytes).2.isSome ∧ s.nextVersion + 1 ≤ u64Max then
      s.nextVersion + 1 else s.nextVersion
  salt : s'.cipher.map ShardCipher.salt = s.cipher.map ShardCipher.salt

theorem Asked.quiet {bytes : List UInt8} (h : Asked s s' key len bytes) (hq : Quiet s' s'') :
    Asked s s'' key len bytes := by
  obtain ⟨c, hc, hr, hv⟩ := h.asked
  exact ⟨⟨c, hc, hq.requests.trans hr, hq.nextVersion.trans hv⟩, hq.salt.trans h.salt⟩

theorem sealInPlace_asks (s : ChunkStore g) (block : Mem.Extent) (len key version : Nat)
    (run : Handle) (segments : Nat) :
    ((s.sealInPlace block len key version run segments).1 = false ∧
      Quiet s (s.sealInPlace block len key version run segments).2) ∨
    ∃ all c, s.arena.bytes block = some all ∧ len ≤ all.length ∧ s.cipher = some c ∧
      (s.sealInPlace block len key version run segments).2.requests =
        (sealFrom c key version s.granule segments 0 segments (all.take len)).1 ++ s.requests ∧
      (s.sealInPlace block len key version run segments).1 =
        (sealFrom c key version s.granule segments 0 segments (all.take len)).2.isSome ∧
      (s.sealInPlace block len key version run segments).2.nextVersion = s.nextVersion ∧
      (s.sealInPlace block len key version run segments).2.cipher = s.cipher := by
  unfold sealInPlace
  split
  · rename_i t ht
    have : t = s.ask.2 := by rw [ht]
    subst this
    exact .inl ⟨rfl, rfl, rfl, rfl, rfl⟩
  · rename_i t ht
    have : t = s.ask.2 := by rw [ht]
    subst this
    split
    · rename_i all c hall hc
      split
      · rename_i hle
        have hgr : s.ask.2.granule = s.granule := rfl
        refine .inr ⟨all, c, hall, hle, hc, ?_⟩
        rw [hgr]
        split
        · rename_i requests sealed tags h
          rw [h]
          exact ⟨rfl, rfl, rfl, rfl⟩
        · rename_i requests h
          rw [h]
          exact ⟨rfl, rfl, rfl, rfl⟩
      · exact .inl ⟨rfl, rfl, rfl, rfl, rfl⟩
    · exact .inl ⟨rfl, rfl, rfl, rfl, rfl⟩

theorem sealBlock_asks (s : ChunkStore g) (block : Mem.Extent) (len key : Nat) :
    Quiet s (s.sealBlock block len key).2 ∨ ∃ all, s.arena.bytes block = some all ∧
      len ≤ all.length ∧ Asked s (s.sealBlock block len key).2 key len (all.take len) := by
  have hsegments : max ((len + (s.granule - 1)) / s.granule) 1 = s.segmentsOf len := rfl
  unfold sealBlock
  rw [hsegments]
  simp only
  have hq := quiet_allocTags s (s.segmentsOf len)
  rcases s.allocTags_spec (s.segmentsOf len) with ⟨refusal, halloc, -⟩ | ⟨-, run, tags, -, halloc⟩
  · rw [halloc] at hq ⊢
    exact .inl hq
  · rw [halloc] at hq ⊢
    have hcases := sealInPlace_asks { s with host := s.host.ask.2, tags := tags } block len key
      s.nextVersion run (s.segmentsOf len)
    simp only
    cases hin : ChunkStore.sealInPlace { s with host := s.host.ask.2, tags := tags } block len key
      s.nextVersion run (s.segmentsOf len) with
    | mk done u =>
    rw [hin] at hcases
    rcases hcases with ⟨hdone, hqu⟩ | ⟨all, c, hall, hle, hc, hreq, hdone, hver, hcip⟩
    · obtain rfl : done = false := hdone
      simp only
      split
      · rename_i v hv
        exact .inl (hq.trans (hqu.trans (quiet_freeTags hv)))
      · exact .inl (hq.trans hqu)
    · refine .inr ⟨all, hall, hle, ?_⟩
      have hpass : sealFrom c key s.nextVersion
          (ChunkStore.granule { s with host := s.host.ask.2, tags := tags }) (s.segmentsOf len) 0
          (s.segmentsOf len) (all.take len) = s.pass c key len (all.take len) := rfl
      rw [hpass] at hreq hdone
      have hsalt : u.cipher.map ShardCipher.salt = s.cipher.map ShardCipher.salt := by
        simp only at hcip
        rw [hcip]
      cases done with
      | true =>
        simp only at hdone ⊢
        by_cases hv : s.nextVersion + 1 ≤ u64Max
        · simp only [if_pos hv]
          split <;> exact ⟨⟨c, hc, hreq, by simp only [← hdone, hv, and_self, if_true]⟩, hsalt⟩
        · simp only [if_neg hv]
          exact ⟨⟨c, hc, hreq, by simp only [hv, and_false, if_false]; exact hver⟩, hsalt⟩
      | false =>
        have hasked : Asked s u key len (all.take len) := by
          refine ⟨⟨c, hc, hreq, ?_⟩, hsalt⟩
          simp only at hdone
          simp only [← hdone, Bool.false_eq_true, false_and, if_false]
          exact hver
        simp only
        split
        · rename_i v hv
          exact hasked.quiet (quiet_freeTags hv)
        · exact hasked

theorem copiedOutOfImage_copies {result : Option Mem.Extent}
    (h : s.copiedOutOfImage block len = (result, s')) :
    Quiet s s' ∧ ∀ copy, result = some copy → ∃ all, s.arena.bytes block = some all ∧
      len ≤ all.length ∧ s'.arena.holds copy ∧ len ≤ copy.len ∧
      s'.arena.read copy.region copy.offset len = some (all.take len) ∧ s'.cipher = s.cipher := by
  unfold copiedOutOfImage at h
  cases hask : s.ask with
  | mk answer t =>
  have ht : t = s.ask.2 := by rw [hask]
  have hq : Quiet s t := ht ▸ ⟨rfl, rfl, rfl, rfl⟩
  rw [hask] at h
  cases answer with
  | false =>
    cases h
    exact ⟨hq, nofun⟩
  | true =>
    simp only at h
    split at h
    · cases h
      exact ⟨hq, nofun⟩
    · rename_i all hall
      have hq' := hq.trans (quiet_allocBlock t block.len (t.arena.isLocked block))
      split at h
      · rename_i hle
        split at h
        · rename_i halloc
          cases h
          rw [halloc] at hq'
          exact ⟨hq', nofun⟩
        · rename_i copy u halloc
          rw [halloc] at hq'
          split at h
          · rename_i hfit
            cases h
            refine ⟨⟨hq'.requests, hq'.nextVersion, hq'.page, hq'.salt⟩, ?_⟩
            rintro _ ⟨⟩
            obtain ⟨helse, identity, r, i, p, hid, hal, hcopy, -⟩ := allocBlock_outcome halloc
            have hheld : u.arena.holds copy := hcopy ▸ hal.holds_self hid
            have hlen : (all.take len).length = len := by
              rw [List.length_take]
              omega
            refine ⟨all, by rw [ht] at hall; exact hall, hle, ?_, hfit, ?_, ?_⟩
            · simp only [ChunkArena.write_holds hheld]
              exact hheld
            · have := ChunkArena.write_read hheld (show (all.take len).length ≤ copy.len by omega)
              rwa [hlen] at this
            · rw [ht] at helse
              exact helse.cipher
          · split at h
            · cases h
              exact ⟨⟨hq'.requests, hq'.nextVersion, hq'.page, hq'.salt⟩, nofun⟩
            · cases h
              exact ⟨hq', nofun⟩
      · cases h
        exact ⟨hq, nofun⟩

/-- **What a seal asks of the cipher**: nothing, or what a pass asks. -/
theorem seal_asks (s : ChunkStore g) (o : OpenExtent) (key : Option Nat) :
    Quiet s (s.seal o key).2 ∨ ∃ k, key = some k ∧
      Asked s (s.seal o key).2 k o.len (s.openBytes o) := by
  by_cases hlen : o.len = 0
  · unfold ChunkStore.seal
    rw [if_pos hlen]
    split <;> exact .inl ⟨rfl, rfl, rfl, rfl⟩
  · by_cases hkey : key = none ∨ s.cipher = none
    · rw [seal_clear hlen hkey]
      exact .inl (quiet_finish ..)
    · obtain ⟨k, rfl⟩ : ∃ k, key = some k := Option.ne_none_iff_exists'.1 fun h => hkey (.inl h)
      obtain ⟨c, hc⟩ : ∃ c, s.cipher = some c :=
        Option.ne_none_iff_exists'.1 fun h => hkey (.inr h)
      have hopen : ∀ {all : List UInt8}, s.arena.bytes o.block = some all →
          all.take o.len = s.openBytes o := by
        intro all hall
        rw [openBytes, hall]
      rw [seal_keyed hlen hc]
      have hq := quiet_finish (s.sealWhereSafe o.block o.len k).2 o
        (s.sealWhereSafe o.block o.len k).1.1 (s.sealWhereSafe o.block o.len k).1.2
      suffices h : Quiet s (s.sealWhereSafe o.block o.len k).2 ∨
          Asked s (s.sealWhereSafe o.block o.len k).2 k o.len (s.openBytes o) by
        rcases h with h | h
        · exact .inl (h.trans hq)
        · exact .inr ⟨k, rfl, h.quiet hq⟩
      unfold sealWhereSafe
      split
      · cases hcopy : s.copiedOutOfImage o.block o.len with
        | mk result t =>
        obtain ⟨hqc, hcopied⟩ := copiedOutOfImage_copies hcopy
        cases result with
        | none => exact .inl hqc
        | some copy =>
          obtain ⟨all, hall, hle, hheld, hfit, hread, hcip⟩ := hcopied copy rfl
          simp only
          rcases sealBlock_asks t copy o.len k with hquiet | ⟨all', hall', -, hasked⟩
          · exact .inl (hqc.trans hquiet)
          · refine .inr ?_
            obtain ⟨all'', hall'', -, htake⟩ := bytes_of_read hheld hfit hread
            rw [hall', Option.some.injEq] at hall''
            rw [hall'', htake, hopen hall] at hasked
            obtain ⟨c', hc', hreq, hver⟩ := hasked.asked
            have hpass : t.pass c' k o.len (s.openBytes o) = s.pass c' k o.len (s.openBytes o) := by
              have hgr : t.granule = s.granule := by
                rw [granule, granule, hqc.page]
              rw [pass, pass, segmentsOf, segmentsOf, hgr, hqc.nextVersion]
            rw [hpass, hqc.requests] at hreq
            rw [hpass, hqc.nextVersion] at hver
            exact ⟨⟨c', hcip ▸ hc', hreq, hver⟩, hasked.salt.trans hqc.salt⟩
      · simp only
        rcases sealBlock_asks s o.block o.len k with hquiet | ⟨all, hall, -, hasked⟩
        · exact .inl hquiet
        · rw [hopen hall] at hasked
          exact .inr hasked

/-! ## Runs -/

/-- A seal under a key of this life, with a version left, whose segments the cipher refuses none of,
and a life whose salt no earlier one had. -/
def KeepsApart (s : ChunkStore g) : Call g → Prop
  | .sealOpen o key => ∀ k ∈ key, ∀ c ∈ s.cipher, ∀ v ∈ c.held k, v.identity.salt = c.salt ∧
      s.nextVersion < u64Max ∧ (s.pass c k o.len (s.openBytes o)).2.isSome = true
  | .restart _ _ salt => ∀ r ∈ s.requests, r.key.salt ≠ salt
  | _ => True

instance (s : ChunkStore g) : (a : Call g) → Decidable (s.KeepsApart a)
  | .sealOpen o key => inferInstanceAs (Decidable (∀ k ∈ key, ∀ c ∈ s.cipher, ∀ v ∈ c.held k,
      v.identity.salt = c.salt ∧ s.nextVersion < u64Max ∧
        (s.pass c k o.len (s.openBytes o)).2.isSome = true))
  | .restart _ _ salt => inferInstanceAs (Decidable (∀ r ∈ s.requests, r.key.salt ≠ salt))
  | .open_ .. | .writeOpen .. | .freeChunk .. | .keyForVolume .. | .reference .. | .releaseKey ..
  | .adoptChunk .. | .rearrange .. => .isTrue trivial

/-- Nonces are unique, and this life's are below the counter. -/
structure Apart (s : ChunkStore g) : Prop where
  unique : NoncesUnique s.requests
  below : ∀ r ∈ s.requests, ∀ c, s.cipher = some c → r.key.salt = c.salt → r.version < s.nextVersion

theorem Apart.quiet (h : Apart s) (hq : Quiet s s') : Apart s' := by
  refine ⟨hq.requests ▸ h.unique, fun r hr c hc hsalt => ?_⟩
  rw [hq.requests] at hr
  rw [hq.nextVersion]
  have hs := hq.salt
  rw [hc, Option.map_some, eq_comm, Option.map_eq_some_iff] at hs
  obtain ⟨d, hd, hds⟩ := hs
  exact h.below r hr d hd (hsalt.trans hds.symm)

theorem Apart.asked {k : Nat} {bytes : List UInt8} {c : ShardCipher} (h : Apart s)
    (ha : Asked s s' k len bytes) (hc : s.cipher = some c)
    (hkey : ∀ v, c.held k = some v → v.identity.salt = c.salt ∧ s.nextVersion < u64Max ∧
      (s.pass c k len bytes).2.isSome = true) : Apart s' := by
  obtain ⟨c', hc', hreq, hver⟩ := ha.asked
  obtain rfl : c = c' := Option.some.inj (hc.symm.trans hc')
  have hone :=
    sealFrom_once c k s.nextVersion s.granule (s.segmentsOf len) (s.segmentsOf len) 0 bytes
  change OneEach c k s.nextVersion 0 (s.pass c k len bytes).1 at hone
  -- A request of this pass and an earlier one are under different versions, or different keys.
  have hnew : ∀ r ∈ (s.pass c k len bytes).1, ∀ r' ∈ s.requests, r.key = r'.key →
      r.version ≠ r'.version := by
    intro r hr r' hr' hk hv
    obtain ⟨v, hheld, hid⟩ := hone.of_key r hr
    have hlt := h.below r' hr' c hc (by rw [← hk, hid]; exact (hkey v hheld).1)
    rw [← hv, hone.of_version r hr] at hlt
    exact lt_irrefl _ hlt
  refine ⟨?_, ?_⟩
  · rw [hreq]
    intro r hr r' hr' hk hv hi
    rcases List.mem_append.1 hr with hr | hr <;> rcases List.mem_append.1 hr' with hr' | hr'
    · rw [hone.once r hr r' hr' hi]
    · exact absurd hv (hnew r hr r' hr' hk)
    · exact absurd hv.symm (hnew r' hr' r hr hk.symm)
    · exact h.unique r hr r' hr' hk hv hi
  · intro r hr d hd hsalt
    have hs := ha.salt
    rw [hd, hc, Option.map_some, Option.map_some, Option.some.injEq] at hs
    rw [hreq] at hr
    rw [hver]
    rcases List.mem_append.1 hr with hr | hr
    · obtain ⟨v, hheld, -⟩ := hone.of_key r hr
      obtain ⟨-, hleft, hdone⟩ := hkey v hheld
      rw [if_pos ⟨hdone, hleft⟩, hone.of_version r hr]
      exact Nat.lt_succ_self _
    · have := h.below r hr c hc (hsalt.trans hs)
      split
      · exact Nat.lt_succ_of_lt this
      · exact this

theorem Apart.call (h : Apart s) (a : Call g) (ha : s.KeepsApart a) : Apart (s.call a) := by
  cases a with
  | open_ off want born locked => exact h.quiet (quiet_open ..)
  | writeOpen o at_ bytes => exact h.quiet (quiet_writeOpen ..)
  | sealOpen o key =>
    rcases seal_asks s o key with hq | ⟨k, rfl, hasked⟩
    · exact h.quiet hq
    · obtain ⟨c, hc, -, -⟩ := hasked.asked
      exact h.asked hasked hc fun v hv => ha k rfl c hc v hv
  | freeChunk handle => exact h.quiet (quiet_freeChunk ..)
  | keyForVolume volume =>
    refine h.quiet (quiet_withCipher s fun c c' hok => ?_)
    cases hf : c.keyForVolume volume with
    | error refusal =>
      rw [hf] at hok
      cases hok
    | ok found =>
      rw [hf] at hok
      cases hok
      exact ShardCipher.salt_keyForVolume hf
  | reference identity =>
    refine h.quiet (quiet_withCipher s fun c c' hok => ?_)
    cases hf : c.register identity with
    | error refusal =>
      rw [hf] at hok
      cases hok
    | ok found =>
      rw [hf] at hok
      cases hok
      exact ShardCipher.salt_register hf
  | releaseKey key => exact h.quiet (quiet_withCipher s fun _ _ => ShardCipher.salt_release)
  | adoptChunk chunk sealed => exact h.quiet (quiet_adoptChunk ..)
  | rearrange arena => exact h.quiet ⟨rfl, rfl, rfl, rfl⟩
  | restart arena maxChunks salt =>
    refine ⟨h.unique, fun r hr c hc hsalt => ?_⟩
    obtain ⟨d, -, rfl⟩ := Option.map_eq_some_iff.1 hc
    exact absurd hsalt (ha r hr)

/-- **Nonces are unique** over every run of a store that starts with nothing sealed and whose calls
keep them apart, over all the lives so far. -/
theorem nonces_unique_of_meets (s : ChunkStore g) (calls : List (Call g))
    (hstart : s.requests = []) (hmeets : Runs.Meets call KeepsApart s calls) (n : Nat) :
    NoncesUnique ((calls.take n).foldl call s).requests := by
  have hinit : Apart s := by
    refine ⟨?_, ?_⟩
    · rw [hstart]
      exact nofun
    · rw [hstart]
      exact nofun
  exact ((hmeets.take n).invariant (fun s a h ha => h.call a ha) hinit).unique

/-! ## A pass the cipher refuses -/

/-- A cipher that refuses a segment starting with 255. -/
def choosyCipher : ShardCipher where
  aead := {
    sealSegment := fun _ _ _ _ segment =>
      if segment.head? = some 255 then (segment, none) else (segment.map (· + 1), some [])
    openSegment := fun _ _ _ _ segment _ => some (segment.map (· - 1))
    length_seal := by
      intro _ _ _ _ segment
      split
      · rfl
      · exact List.length_map _
    open_seal := by
      intro _ _ _ _ segment sealed _ h
      split at h
      · cases h
      · obtain ⟨rfl, -⟩ := Prod.mk.injEq .. ▸ h
        rw [List.map_map, Option.some.injEq]
        exact (List.map_congr_left fun x _ => UInt8.add_sub_cancel x 1).trans
          (List.map_id segment) }
  salt := 0
  keys := []
  free := []

theorem four_le_page : 16 * 2 ^ 2 ≤ u32Max := by decide

def choosyStore : ChunkStore (2 ^ 2) :=
  .new (ChunkArena.new 1 2 2) 2 4 (some choosyCipher) (fun _ => true) four_le_page

def twoSeals (first second : List UInt8) : List (Call (2 ^ 2)) :=
  [.keyForVolume 7,
    .open_ 0 5 0 false,
    .writeOpen ⟨0, 0, ⟨1, 0, 0, 8, 1⟩, 0, 0⟩ 0 first,
    .sealOpen ⟨0, 5, ⟨1, 0, 0, 8, 1⟩, 0, 5⟩ (some 0),
    .open_ 0 4 0 false,
    .writeOpen ⟨0, 0, ⟨1, 0, 8, 4, 1⟩, 0, 0⟩ 0 second,
    .sealOpen ⟨0, 4, ⟨1, 0, 8, 4, 1⟩, 0, 4⟩ (some 0)]

/-- The first life's key named by a recovered record, and an extent sealed under this life's. -/
def nextLife : List (Call (2 ^ 2)) :=
  [.restart (ChunkArena.new 2 2 2) 4 1,
    .reference ⟨7, 0⟩,
    .keyForVolume 7,
    .open_ 0 4 0 false,
    .writeOpen ⟨0, 0, ⟨2, 0, 0, 4, 1⟩, 0, 0⟩ 0 [5, 5, 5, 5],
    .sealOpen ⟨0, 4, ⟨2, 0, 0, 4, 1⟩, 0, 4⟩ (some 1)]

/-- The first extent's second segment is refused; the second extent is then sealed under the same
key, version and index. -/
theorem refused_pass_repeats_nonce : choosyStore.requests = [] ∧
    ¬ NoncesUnique ((twoSeals [1, 2, 3, 4, 255] [5, 6, 7, 8]).foldl call choosyStore).requests := by
  refine ⟨rfl, ?_⟩
  decide +kernel

theorem nonces_unique_across_lives : choosyStore.requests = [] ∧
    (∃ r ∈ ((twoSeals [1, 2, 3, 4, 9] [5, 6, 7, 8] ++ nextLife).foldl call choosyStore).requests,
      r.key.salt = 1) ∧
    NoncesUnique (((twoSeals [1, 2, 3, 4, 9] [5, 6, 7, 8] ++ nextLife).take 13).foldl call
      choosyStore).requests :=
  ⟨rfl, by decide +kernel, nonces_unique_of_meets choosyStore _ rfl (by decide +kernel) 13⟩

end ChunkStore

end Slates.Content
