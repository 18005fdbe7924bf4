import Slates.Content.Store

/-!
Reading a chunk back: its plaintext (`Plain`) is what its block holds in the clear or what its
segments open to, and a read of an extent takes its part of it (`readExtentInto_plain`).
-/

namespace Slates.Content.ChunkStore

open Mem

variable {g : Nat} {s s' : ChunkStore g}

/-! ## Buffers -/

theorem getElem?_copyOverlap (bytes : List UInt8) (base off : Nat) (out : List UInt8) (i : Nat) :
    (copyOverlap bytes base off out)[i]? =
      (out[i]?).map fun b => if base ≤ off + i then (bytes[off + i - base]?).getD b else b := by
  rw [copyOverlap, List.getElem?_mapIdx]

theorem copyOverlap_append (xs ys : List UInt8) (base off : Nat) (out : List UInt8) :
    copyOverlap ys (base + xs.length) off (copyOverlap xs base off out) =
      copyOverlap (xs ++ ys) base off out := by
  refine List.ext_getElem? fun i => ?_
  rw [getElem?_copyOverlap, getElem?_copyOverlap, getElem?_copyOverlap, Option.map_map]
  congr 1
  funext b
  simp only [Function.comp_apply]
  by_cases h1 : base + xs.length ≤ off + i
  · rw [if_pos h1, if_pos (by omega), if_pos (by omega), List.getElem?_append_right (by omega),
      Nat.sub_add_eq, List.getElem?_eq_none (l := xs) (by omega), Option.getD_none]
  · rw [if_neg h1]
    split
    · rw [List.getElem?_append_left (by omega)]
    · rfl

theorem copyOverlap_nil (base off : Nat) (out : List UInt8) :
    copyOverlap [] base off out = out := by
  refine List.ext_getElem? fun i => ?_
  rw [getElem?_copyOverlap]
  simp

theorem copyOverlap_outside (bytes : List UInt8) (base off : Nat) (out : List UInt8)
    (h : min (base + bytes.length) (off + out.length) ≤ max base off) :
    copyOverlap bytes base off out = out := by
  refine List.ext_getElem? fun i => ?_
  rw [getElem?_copyOverlap]
  cases hi : out[i]? with
  | none => rfl
  | some b =>
    have hlt := (List.getElem?_eq_some_iff.1 hi).1
    rw [Option.map_some]
    split
    · rw [List.getElem?_eq_none (by omega), Option.getD_none]
    · rfl

/-- The bytes `[a, b)` of a list. -/
def piece (bytes : List UInt8) (a b : Nat) : List UInt8 := (bytes.take b).drop a

variable {a b start end_ from_ upto : Nat} {bytes : List UInt8}

theorem copyOverlap_piece (bytes : List UInt8) (base off : Nat) (out : List UInt8)
    (ha : base + a ≤ off ∨ a = 0) (hb : off + out.length ≤ base + b ∨ bytes.length ≤ b) :
    copyOverlap (piece bytes a b) (base + a) off out = copyOverlap bytes base off out := by
  refine List.ext_getElem? fun i => ?_
  rw [getElem?_copyOverlap, getElem?_copyOverlap]
  cases hi : out[i]? with
  | none => rfl
  | some x =>
    have hlt := (List.getElem?_eq_some_iff.1 hi).1
    simp only [Option.map_some, piece, List.getElem?_drop, List.getElem?_take]
    by_cases h1 : base + a ≤ off + i
    · have h2 : base ≤ off + i := by omega
      rw [if_pos h1, if_pos h2, show a + (off + i - (base + a)) = off + i - base by omega]
      by_cases h3 : off + i - base < b
      · rw [if_pos h3]
      · rw [if_neg h3, List.getElem?_eq_none (l := bytes) (by omega)]
    · rw [if_neg h1, if_neg (by omega)]

theorem length_piece (bytes : List UInt8) (a b : Nat) :
    (piece bytes a b).length = min b bytes.length - a := by
  rw [piece, List.length_drop, List.length_take]

theorem piece_append (bytes : List UInt8) {c : Nat} (hab : a ≤ b) (hbc : b ≤ c) :
    piece bytes a b ++ piece bytes b c = piece bytes a c := by
  unfold piece
  refine List.ext_getElem? fun i => ?_
  rw [List.getElem?_append]
  simp only [List.length_drop, List.length_take, List.getElem?_drop, List.getElem?_take]
  split
  · rw [if_pos (by omega), if_pos (by omega)]
  · by_cases hlt : a + i < c
    · by_cases hb : b ≤ bytes.length
      · rw [if_pos (by omega), if_pos hlt]
        congr 1
        omega
      · rw [List.getElem?_eq_none (l := bytes) (by omega), ite_self,
          List.getElem?_eq_none (l := bytes) (by omega), ite_self]
    · rw [if_neg hlt]
      split
      · rw [List.getElem?_eq_none (by omega)]
      · rfl

theorem piece_piece (hb : start + b ≤ end_) :
    piece (piece bytes start end_) a b = piece bytes (start + a) (start + b) := by
  unfold piece
  refine List.ext_getElem? fun i => ?_
  simp only [List.getElem?_drop, List.getElem?_take]
  by_cases h : a + i < b
  · rw [if_pos h, if_pos (by omega), if_pos (by omega), Nat.add_assoc]
  · rw [if_neg h, if_neg (by omega)]

theorem piece_take {n : Nat} (hb : b ≤ n) : piece (bytes.take n) a b = piece bytes a b := by
  rw [piece, List.take_take, Nat.min_eq_left hb, piece]

theorem slice_eq (hab : a ≤ b) (hb : b ≤ bytes.length) :
    slice bytes a b = some (piece bytes a b) := if_pos ⟨hab, hb⟩

theorem slice_piece (hs : start ≤ a) (hab : a ≤ b) (hb : b ≤ end_) (hlen : end_ ≤ bytes.length) :
    slice (piece bytes start end_) (a - start) (b - start) = some (piece bytes a b) := by
  rw [slice_eq (by omega) (by rw [length_piece]; omega), piece_piece (by omega),
    Nat.add_sub_cancel' hs, Nat.add_sub_cancel' (by omega)]

theorem copyOverlap_inside {bytes out : List UInt8} {n off : Nat}
    (h : n + bytes.length ≤ out.length) :
    copyOverlap bytes (off + n) off out = out.take n ++ bytes ++ out.drop (n + bytes.length) := by
  refine List.ext_getElem? fun i => ?_
  rw [getElem?_copyOverlap]
  simp only [List.getElem?_append, List.length_append, List.length_take, List.getElem?_take,
    List.getElem?_drop]
  by_cases hlo : i < n
  · rw [if_pos (by omega), if_pos (by omega), if_pos hlo]
    simp [show ¬ off + n ≤ off + i by omega]
  by_cases hhi : i < n + bytes.length
  · rw [if_pos (by omega), if_neg (by omega), List.getElem?_eq_getElem (l := out) (by omega)]
    simp [show n ≤ i by omega, show i - min n out.length = i - n by omega,
      show off + i - (off + n) = i - n by omega,
      List.getElem?_eq_getElem (show i - n < bytes.length by omega)]
  · rw [if_neg (by omega), List.getElem?_eq_none (l := bytes) (by omega)]
    simp [show n + bytes.length + (i - (min n out.length + bytes.length)) = i by omega]

theorem placeSegment_piece {base off : Nat} {out : List UInt8}
    (hlo : max from_ start ≤ min upto end_) (hlen : end_ ≤ bytes.length) :
    placeSegment from_ upto base off start end_ (piece bytes start end_) out =
      copyOverlap (piece bytes (max from_ start) (min upto end_))
        (base + (max from_ start - from_)) off out := by
  unfold placeSegment
  simp only
  split
  case isTrue h =>
    have hl : (piece bytes start end_).length = end_ - start := by
      rw [length_piece, Nat.min_eq_left hlen]
    rw [Nat.max_eq_right h.1, Nat.min_eq_right h.2.1] at *
    rw [← hl, ← copyOverlap_inside (by omega), Nat.add_sub_cancel' h.2.2.1]
  case isFalse =>
    rw [slice_piece (by omega) hlo (by omega) hlen]

/-! ## Plaintext -/

theorem page_pos (s : ChunkStore g) : 0 < s.page := by
  obtain ⟨k, hk⟩ := s.page_pow
  rw [hk]
  exact Nat.two_pow_pos k

theorem granule_pos (s : ChunkStore g) : 0 < s.granule :=
  Nat.lt_min.2 ⟨s.arena.granule_pos, s.page_pos⟩

/-- The segments of a chunk of `len` bytes. -/
def segmentsOf (s : ChunkStore g) (len : Nat) : Nat := max ((len + (s.granule - 1)) / s.granule) 1

/-- What a chunk's bytes are, to a reader. -/
structure Plain (s : ChunkStore g) (c : Chunk) (bytes : List UInt8) : Prop where
  length : bytes.length = c.len
  stored : ∃ stored, s.arena.span c.block (s.storedBytes c) = some stored ∧
    c.len ≤ stored.length ∧
    match c.sealing with
    | none => stored.take c.len = bytes
    | some sealing => sealing.segments = s.segmentsOf c.len ∧ ∃ cipher, s.cipher = some cipher ∧
      ∀ index, index * s.granule < c.len → s.openSegment cipher c sealing stored index =
        .ok (piece bytes (index * s.granule) (min (index * s.granule + s.granule) c.len))

/-- Where a read of `[from_, upto)` stands when it comes to the segment `index`. -/
private def cut (s : ChunkStore g) (from_ upto index : Nat) : Nat :=
  max from_ (min upto (index * s.granule))

private theorem openInto_fold {cipher : ShardCipher} {c : Chunk} {sealing : ChunkSeal}
    {stored : List UInt8} (hlen : bytes.length = c.len)
    (hopen : ∀ index, index * s.granule < c.len → s.openSegment cipher c sealing stored index =
      .ok (piece bytes (index * s.granule) (min (index * s.granule + s.granule) c.len)))
    {base off : Nat} (hle : from_ ≤ upto) (hupto : upto ≤ c.len) (n : Nat) :
    ∀ first out, from_ / s.granule ≤ first → (∀ k, k < first + n → k * s.granule < upto) →
      (List.range' first n).foldlM (fun out index => do
        let plain ← s.openSegment cipher c sealing stored index
        return placeSegment from_ upto base off (index * s.granule)
          (min (index * s.granule + s.granule) c.len) plain out) out =
      (.ok (copyOverlap (piece bytes (s.cut from_ upto first) (s.cut from_ upto (first + n)))
        (base + (s.cut from_ upto first - from_)) off out) : Except VfsError (List UInt8)) := by
  induction n with
  | zero =>
    intro first out _ _
    rw [List.range'_zero, List.foldlM_nil, Nat.add_zero, piece,
      List.drop_eq_nil_of_le (by rw [List.length_take]; omega), copyOverlap_nil]
    rfl
  | succ n ih =>
    intro first out hfirst hk
    have hstart := hk first (by omega)
    have hfrom := Nat.lt_mul_of_div_lt (Nat.lt_succ_of_le hfirst) s.granule_pos
    have hlo : max from_ (first * s.granule) = s.cut from_ upto first := by
      rw [cut]
      omega
    have hhi : min upto (min (first * s.granule + s.granule) c.len) =
        s.cut from_ upto (first + 1) := by
      rw [Nat.succ_mul] at hfrom
      rw [cut, Nat.succ_mul]
      omega
    have hmono :
        ∀ k, s.cut from_ upto k ≤ s.cut from_ upto (k + n) ∧ s.cut from_ upto k ≤ upto := by
      intro k
      have := Nat.mul_le_mul_right s.granule (Nat.le_add_right k n)
      unfold cut
      omega
    have hnext : s.cut from_ upto first ≤ s.cut from_ upto (first + 1) := by
      rw [cut, cut, Nat.succ_mul]
      omega
    have hlast := hmono (first + 1)
    rw [List.range'_succ, List.foldlM_cons, hopen first (by omega)]
    simp only [bind, Except.bind, pure, Except.pure]
    rw [placeSegment_piece (by omega) (by omega), hlo, hhi]
    have hrest := ih (first + 1) (copyOverlap (piece bytes (s.cut from_ upto first)
      (s.cut from_ upto (first + 1))) (base + (s.cut from_ upto first - from_)) off out) (by omega)
      fun k hlt => hk k (by omega)
    simp only [bind, Except.bind, pure, Except.pure] at hrest
    have hat : base + (s.cut from_ upto (first + 1) - from_) =
        base + (s.cut from_ upto first - from_) +
          (piece bytes (s.cut from_ upto first) (s.cut from_ upto (first + 1))).length := by
      rw [length_piece]
      have : from_ ≤ s.cut from_ upto first := le_max_left _ _
      omega
    rw [hrest, hat, copyOverlap_append, piece_append _ hnext hlast.1, Nat.add_right_comm,
      Nat.add_assoc]

private theorem openInto_plain {c : Chunk} {sealing : ChunkSeal} (hp : s.Plain c bytes)
    (hs : c.sealing = some sealing) (base off : Nat) (out : List UInt8) (hlt : from_ < upto)
    (hupto : upto ≤ c.len) :
    s.openInto c sealing from_ upto base off out =
      .ok (copyOverlap (piece bytes from_ upto) base off out) := by
  obtain ⟨stored, hspan, -, hsealed⟩ := hp.stored
  rw [hs] at hsealed
  obtain ⟨hsegments, cipher, hcipher, hopen⟩ := hsealed
  have hg := s.granule_pos
  unfold openInto
  rw [hcipher, hspan]
  simp only
  have hlast : min ((upto - 1) / s.granule) (sealing.segments - 1) = (upto - 1) / s.granule := by
    refine Nat.min_eq_left ?_
    have h1 : (upto - 1) / s.granule ≤ (c.len - 1) / s.granule := Nat.div_le_div_right (by omega)
    have h2 : (c.len + (s.granule - 1)) / s.granule = (c.len - 1) / s.granule + 1 := by
      rw [show c.len + (s.granule - 1) = c.len - 1 + s.granule by omega, Nat.add_div_right _ hg]
    rw [hsegments, segmentsOf]
    omega
  have hfirst : from_ / s.granule ≤ (upto - 1) / s.granule := Nat.div_le_div_right (by omega)
  have hdown : from_ / s.granule * s.granule ≤ from_ := Nat.div_mul_le_self _ _
  have hup := Nat.lt_mul_of_div_lt (Nat.lt_add_one ((upto - 1) / s.granule)) hg
  have hstart : (upto - 1) / s.granule * s.granule ≤ upto - 1 := Nat.div_mul_le_self _ _
  rw [hlast]
  refine (openInto_fold hp.length hopen hlt.le hupto _ _ out (le_refl _) fun k hk => ?_).trans ?_
  · have := Nat.mul_le_mul_right s.granule (show k ≤ (upto - 1) / s.granule by omega)
    omega
  · have hto : s.cut from_ upto (from_ / s.granule) = from_ := by
      rw [cut]
      omega
    have hend : s.cut from_ upto (from_ / s.granule + ((upto - 1) / s.granule + 1 -
        from_ / s.granule)) = upto := by
      rw [show from_ / s.granule + ((upto - 1) / s.granule + 1 - from_ / s.granule) =
        (upto - 1) / s.granule + 1 by omega, cut]
      omega
    rw [hto, hend, Nat.sub_self, Nat.add_zero]

theorem readExtentInto_plain {h : Handle} {c : Chunk} {e : Extent} {at_ : Nat}
    (hc : s.chunks.find h = some c) (hp : s.Plain c bytes) (he : e.src = .chunk h at_) (off : Nat)
    (out : List UInt8) :
    s.readExtentInto e off out =
      .ok (copyOverlap (piece bytes at_ (at_ + e.len)) e.off off out) := by
  have hlength : (piece bytes at_ (at_ + e.len)).length = min (at_ + e.len) c.len - at_ := by
    rw [length_piece, hp.length]
  unfold readExtentInto
  rw [he]
  simp only [hc, ge_iff_le]
  split
  case isTrue hle =>
    rw [copyOverlap_outside _ _ _ _ (by omega)]
  case isFalse hlt =>
    have hpart : copyOverlap (piece bytes (at_ + (max e.off off - e.off))
        (at_ + (min (e.off + (min (at_ + e.len) c.len - at_)) (off + out.length) - e.off)))
        (max e.off off) off out = copyOverlap (piece bytes at_ (at_ + e.len)) e.off off out := by
      rw [← copyOverlap_piece (piece bytes at_ (at_ + e.len)) e.off off out
        (a := max e.off off - e.off)
        (b := min (e.off + (min (at_ + e.len) c.len - at_)) (off + out.length) - e.off)
        (by omega) (by omega), piece_piece (by omega)]
      congr 1
      omega
    cases hs : c.sealing with
    | some sealing =>
      simp only
      rw [openInto_plain hp hs _ _ _ (by omega) (by omega), hpart]
    | none =>
      obtain ⟨stored, hspan, hle, hclear⟩ := hp.stored
      rw [hs] at hclear
      simp only [hspan, Option.bind_some]
      rw [slice_eq (by omega) (by omega)]
      simp only
      rw [← hpart, ← hclear, piece_take (by omega)]

end Slates.Content.ChunkStore
