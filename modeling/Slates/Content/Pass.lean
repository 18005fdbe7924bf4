import Slates.Mem.Blocks
import Slates.Content.Reading

/-!
The seal of one block: every segment or none (`sealFrom_seals`, `sealBlock_cases`). The block is
left as it was, or holds the ciphertext, and its tags open it.
-/

namespace Slates.Content

open Mem

/-! ## Segments -/

private theorem append_cut {n : Nat} {xs first rest : List UInt8}
    (hfirst : first.length = (xs.take n).length) (hrest : rest.length = (xs.drop n).length) :
    (first ++ rest).take n = first ∧ (first ++ rest).drop n = rest := by
  rw [List.length_take] at hfirst
  rw [List.length_drop] at hrest
  by_cases h : n ≤ xs.length
  · have hn : first.length = n := by omega
    exact ⟨List.take_left' hn, List.drop_left' hn⟩
  · obtain rfl : rest = [] := List.length_eq_zero_iff.1 (by omega)
    rw [List.append_nil]
    exact ⟨List.take_of_length_le (by omega), List.drop_of_length_le (by omega)⟩

namespace ShardCipher

variable {c : ShardCipher} {key version index : Nat} {last : Bool} {segment sealed : List UInt8}
  {tag : Tag}

theorem length_sealAs : (c.sealAs key version index last segment).1.length = segment.length := by
  unfold sealAs
  split
  · exact c.aead.length_seal ..
  · rfl

theorem openAs_sealAs (h : c.sealAs key version index last segment = (sealed, some tag)) :
    c.openAs key version index last sealed tag = .ok segment := by
  unfold sealAs at h
  unfold openAs
  split at h
  · rename_i k hk
    simp only [c.aead.open_seal _ _ _ _ _ _ _ h]
  · cases h

theorem Holds.openAs {c' : ShardCipher} {n : Nat} (h : Holds c c' key n) :
    c'.openAs = c.openAs := by
  funext k version index last segment tag
  have hid := h.identity k
  unfold ShardCipher.openAs
  rw [h.aead]
  cases hk : c.held k with
  | none =>
    rw [hk, Option.map_none, Option.map_eq_none_iff] at hid
    rw [hid]
  | some v =>
    rw [hk, Option.map_some, Option.map_eq_some_iff] at hid
    obtain ⟨w, hw, hvw⟩ := hid
    rw [hw]
    simp only [hvw]

end ShardCipher

namespace ChunkStore

/-- What a pass over `left` segments left in place of them and as their tags. -/
structure Opens (c : ShardCipher) (key version granule segments index left : Nat)
    (bytes sealed : List UInt8) (tags : List Tag) : Prop where
  length : sealed.length = bytes.length
  opens : ∀ j, j < left → ∃ tag, tags[j]? = some tag ∧
    c.openAs key version (index + j) (index + j + 1 = segments)
      ((sealed.drop (j * granule)).take granule) tag = .ok ((bytes.drop (j * granule)).take granule)

structure Seals (c : ShardCipher) (key version granule segments index left : Nat)
    (bytes sealed : List UInt8) (tags : List Tag) : Prop where
  length : sealed.length = bytes.length
  seals : ∀ j, j < left → ∃ tag, tags[j]? = some tag ∧
    c.sealAs key version (index + j) (index + j + 1 = segments)
      ((bytes.drop (j * granule)).take granule) =
        ((sealed.drop (j * granule)).take granule, some tag)

theorem Seals.opens {c : ShardCipher} {key version granule segments index left : Nat}
    {bytes sealed : List UInt8} {tags : List Tag}
    (h : Seals c key version granule segments index left bytes sealed tags) :
    Opens c key version granule segments index left bytes sealed tags := by
  refine ⟨h.length, fun j hj => ?_⟩
  obtain ⟨tag, htag, hseal⟩ := h.seals j hj
  exact ⟨tag, htag, ShardCipher.openAs_sealAs hseal⟩

theorem sealFrom_seals {c : ShardCipher} {key version granule segments : Nat} (left : Nat) :
    ∀ {index : Nat} {bytes sealed : List UInt8} {tags : List Tag} {requests : List Request},
      bytes.length ≤ left * granule →
      sealFrom c key version granule segments index left bytes = (requests, some (sealed, tags)) →
      Seals c key version granule segments index left bytes sealed tags := by
  induction left with
  | zero =>
    intro index bytes sealed tags requests hlen h
    cases h
    obtain rfl : bytes = [] := List.length_eq_zero_iff.1 (by omega)
    exact ⟨rfl, nofun⟩
  | succ left ih =>
    intro index bytes sealed tags requests hlen h
    rw [Nat.succ_mul] at hlen
    unfold sealFrom at h
    simp only at h
    split at h
    · cases h
    · rename_i first tag hseal
      split at h
      · rename_i rs rest tags' hrest
        cases h
        have hcall : c.sealAs key version index (index + 1 = segments) (bytes.take granule) =
            (first, some tag) := by
          split at hseal
          · exact hseal
          · cases hseal
        have hfirst : first.length = (bytes.take granule).length :=
          (congrArg (fun p => p.1.length) hcall).symm.trans ShardCipher.length_sealAs
        have hr := ih (by rw [List.length_drop]; omega) hrest
        obtain ⟨htake, hdrop⟩ := append_cut hfirst hr.length
        refine ⟨?_, fun j hj => ?_⟩
        · rw [List.length_append, hfirst, hr.length, ← List.length_append, List.take_append_drop]
        · cases j with
          | zero =>
            refine ⟨tag, rfl, ?_⟩
            rw [Nat.zero_mul, List.drop_zero, List.drop_zero, htake]
            exact hcall
          | succ j =>
            obtain ⟨t, ht, ho⟩ := hr.seals j (by omega)
            refine ⟨t, by rw [List.getElem?_cons_succ, ht], ?_⟩
            rw [Nat.succ_mul, Nat.add_comm (j * granule), ← List.drop_drop, ← List.drop_drop, hdrop,
              show index + (j + 1) = index + 1 + j by omega]
            exact ho
      · cases h

/-! ## One block -/

variable {g : Nat} {s s' : ChunkStore g} {block : Mem.Extent} {len key version segments : Nat}
  {bytes : List UInt8} {run : Handle}

/-- A pass over `bytes` completes, answered from the system's `n`-th next answer on. -/
structure Encrypts (s : ChunkStore g) (n : Nat) (bytes : List UInt8) (key : Nat)
    (sealed : List UInt8) (tags : List Tag) : Prop where
  room : 0 < s.tags.room
  answered : ∀ i, i < 2 → s.host.answers (s.host.asked + n + i) = true
  pass : ∃ c requests, s.cipher = some c ∧
    sealFrom c key s.nextVersion s.granule (s.segmentsOf bytes.length) 0
      (s.segmentsOf bytes.length) bytes = (requests, some (sealed, tags))

theorem allocTags_spec (s : ChunkStore g) (segments : Nat) :
    (∃ refusal, s.allocTags segments = (.error refusal, { s with host := s.host.ask.2 }) ∧
      ¬ (s.host.answers s.host.asked = true ∧ 0 < s.tags.room)) ∨
    s.host.answers s.host.asked = true ∧ ∃ run tags,
      s.tags.insert (List.replicate segments (List.replicate 16 0)) = .ok (run, tags) ∧
      s.allocTags segments = (.ok run, { s with host := s.host.ask.2, tags := tags }) := by
  unfold allocTags ask Host.ask
  split
  · rename_i t heq
    obtain ⟨ha, rfl⟩ := Prod.mk.injEq .. ▸ heq
    exact .inl ⟨_, rfl, fun hn => by rw [hn.1] at ha; cases ha⟩
  · rename_i t heq
    obtain ⟨ha, rfl⟩ := Prod.mk.injEq .. ▸ heq
    split
    · rename_i run tags hins
      exact .inr ⟨ha, run, tags, hins, rfl⟩
    · rename_i refusal hins
      refine .inl ⟨_, rfl, fun hn => ?_⟩
      obtain ⟨run, tags, hok⟩ := (Slab.insert_ok_iff s.tags
        (List.replicate segments (List.replicate 16 0))).2 hn.2
      rw [hok] at hins
      cases hins

theorem bytes_of_read (hh : s.arena.holds block) (hlen : len ≤ block.len)
    (hb : s.arena.read block.region block.offset len = some bytes) :
    ∃ all, s.arena.bytes block = some all ∧ len ≤ all.length ∧ all.take len = bytes := by
  obtain ⟨all, hall, hlength⟩ := ChunkArena.read_of_holds hh (le_refl block.len)
  refine ⟨all, hall, by omega, ?_⟩
  rw [ChunkArena.read_eq] at hall hb
  rw [View.read_take hall hlen, Option.some.injEq] at hb
  exact hb

theorem sealInPlace_spec (hh : s.arena.holds block) (hlen : len ≤ block.len)
    (hb : s.arena.read block.region block.offset len = some bytes) :
    (∃ requests, s.sealInPlace block len key version run segments =
        (false, { s with host := s.host.ask.2, requests := requests }) ∧
      ¬ (s.host.answers s.host.asked = true ∧ ∃ c requests sealed tags, s.cipher = some c ∧
        sealFrom c key version s.granule segments 0 segments bytes =
          (requests, some (sealed, tags)))) ∨
    s.host.answers s.host.asked = true ∧ ∃ c requests sealed tags, s.cipher = some c ∧
      sealFrom c key version s.granule segments 0 segments bytes = (requests, some (sealed, tags)) ∧
      s.sealInPlace block len key version run segments = (true, { s with
        host := s.host.ask.2
        arena := s.arena.write block 0 sealed
        tags := s.tags.modify run fun _ => tags
        requests := requests ++ s.requests }) := by
  obtain ⟨all, hall, hle, htake⟩ := bytes_of_read hh hlen hb
  unfold sealInPlace ask Host.ask
  split
  · rename_i t heq
    obtain ⟨ha, rfl⟩ := Prod.mk.injEq .. ▸ heq
    exact .inl ⟨s.requests, rfl, fun hn => by rw [hn.1] at ha; cases ha⟩
  · rename_i t heq
    obtain ⟨ha, rfl⟩ := Prod.mk.injEq .. ▸ heq
    simp only [hall]
    cases hc : s.cipher with
    | none => exact .inl ⟨s.requests, rfl, fun ⟨_, _, _, _, _, hn, _⟩ => by cases hn⟩
    | some c =>
      simp only [if_pos hle, htake]
      split
      · rename_i requests sealed tags hseal
        exact .inr ⟨ha, c, requests, sealed, tags, rfl, hseal, rfl⟩
      · rename_i requests hseal
        refine .inl ⟨_, rfl, ?_⟩
        rintro ⟨-, c', requests', sealed, tags, hc', hok⟩
        cases hc'
        cases hseal.symm.trans hok

/-- Everything but the arena and the tags is as it was. -/
structure Rest (s s' : ChunkStore g) : Prop where
  chunks : s'.chunks = s.chunks
  page : s'.page = s.page
  cipher : s'.cipher = s.cipher

theorem Rest.granule (h : Rest s s') : s'.granule = s.granule := by
  rw [ChunkStore.granule, h.page, ChunkStore.granule]

structure LeftAlone (s s' : ChunkStore g) : Prop extends Rest s s' where
  arena : s'.arena = s.arena
  tags : ∀ h, s'.tags.find h = s.tags.find h

structure SealedTo (s s' : ChunkStore g) (block : Mem.Extent) (sealed : List UInt8) (run : Handle)
    (tags : List Tag) : Prop extends Rest s s' where
  arena : s'.arena = s.arena.write block 0 sealed
  fresh : s.tags.find run = none
  found : s'.tags.find run = some tags
  others : ∀ h, h ≠ run → s'.tags.find h = s.tags.find h

theorem sealBlock_cases (hh : s.arena.holds block) (hlen : len ≤ block.len)
    (hn : s.segmentsOf len ≤ u32Max)
    (hb : s.arena.read block.region block.offset len = some bytes) (key : Nat) :
    ((∀ sealed tags, ¬ s.Encrypts 0 bytes key sealed tags) ∧ (s.sealBlock block len key).1 = none ∧
      LeftAlone s (s.sealBlock block len key).2) ∨
    ∃ sealed tags run, s.Encrypts 0 bytes key sealed tags ∧
      SealedTo s (s.sealBlock block len key).2 block sealed run tags ∧
      (s.sealBlock block len key).1 = if s.nextVersion + 1 ≤ u64Max then
        some ⟨key, s.nextVersion, run, s.segmentsOf len⟩ else none := by
  have hbl : bytes.length = len := by
    rw [ChunkArena.read_eq] at hb
    exact View.read_length hb
  have hsegments : max ((len + (s.granule - 1)) / s.granule) 1 = s.segmentsOf len := rfl
  unfold sealBlock
  rw [hsegments]
  simp only
  rcases s.allocTags_spec (s.segmentsOf len) with
    ⟨refusal, halloc, hno⟩ | ⟨ha, run, tags, hins, halloc⟩
  · rw [halloc]
    refine .inl ⟨fun sealed tags he => hno ⟨he.answered 0 (by omega), he.room⟩, rfl,
      ⟨rfl, rfl, rfl⟩, rfl, fun _ => rfl⟩
  · rw [halloc]
    have hspec := Slab.insert_spec hins
    rcases @sealInPlace_spec g { s with host := s.host.ask.2, tags := tags } block len key
      s.nextVersion (s.segmentsOf len) bytes run hh hlen hb with
      ⟨requests, hpass, hno⟩ | ⟨ha', c, requests, sealed, tags', hc, hseal, hpass⟩
    · obtain ⟨tags', hrem⟩ := Slab.remove_ok hspec.found
      have hback := Slab.remove_restores hrem hspec.fresh hspec.rest
      simp only [hpass, freeTags, hrem]
      refine .inl ⟨?_, trivial, ⟨rfl, rfl, rfl⟩, rfl, hback⟩
      rintro sealed tags₁ ⟨-, hanswered, c, requests', hc, hseal⟩
      rw [hbl] at hseal
      exact hno ⟨hanswered 1 (by omega), c, requests', sealed, tags₁, hc, hseal⟩
    · have hfound := Slab.find_modify tags run run fun _ => tags'
      rw [if_pos rfl, hspec.found, Option.map_some] at hfound
      have hothers : ∀ h, h ≠ run → (tags.modify run fun _ => tags').find h = s.tags.find h := by
        intro h hne
        rw [Slab.find_modify, if_neg hne, hspec.rest h hne]
      refine .inr ⟨sealed, tags', run, ⟨?_, ?_, c, requests, hc, ?_⟩, ?_⟩
      · exact (Slab.insert_ok_iff s.tags _).1 ⟨run, tags, hins⟩
      · intro i hi
        interval_cases i
        · exact ha
        · exact ha'
      · rw [hbl]
        exact hseal
      · simp only [hpass]
        by_cases hv : s.nextVersion + 1 ≤ u64Max
        · simp only [if_pos hv, if_pos hn]
          exact ⟨⟨⟨rfl, rfl, rfl⟩, rfl, hspec.fresh, hfound, hothers⟩, trivial⟩
        · simp only [if_neg hv]
          exact ⟨⟨⟨rfl, rfl, rfl⟩, rfl, hspec.fresh, hfound, hothers⟩, trivial⟩

end ChunkStore

end Slates.Content
