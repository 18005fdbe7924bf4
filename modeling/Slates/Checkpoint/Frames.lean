import Slates.Checkpoint.Log

/-!
What a reader makes of the memory: the payload of the frame that stands at a place and checks. Every
reader of the slots and of the log is this one function.
-/

namespace Slates.Checkpoint

open Mem (u32Max u64Max)
open Merge (leBytes leNat leBytes_length leNat_leBytes)
open Spans

variable {I D : Type} {cd : Codec I D} {m m' : Bytes} {at_ limit least : Nat} {p q : Bytes}

/-- The frame's payload, when its length is in bounds and its checksum right. -/
def framed (cd : Codec I D) (m : Bytes) (at_ limit least : Nat) : Option Bytes :=
  let len := leNat (span m at_ 4)
  if least ≤ len ∧ frameHeader + len ≤ limit then
    let payload := span m (at_ + frameHeader) len
    if (cd.crc32c payload).toNat = leNat (span m (at_ + 4) 4) then some payload else none
  else none

/-- The checksum accepts under the frame's header only the frame's own bytes. -/
def OnlyWhole (cd : Codec I D) (m : Bytes) (at_ : Nat) (q : Bytes) : Prop :=
  span m at_ frameHeader = headerOf cd q →
    cd.crc32c (span m (at_ + frameHeader) q.length) = cd.crc32c q →
      span m (at_ + frameHeader) q.length = q

instance : Decidable (OnlyWhole cd m at_ q) := by
  unfold OnlyWhole
  infer_instance

theorem framed_eq (hl : least ≤ leNat (span m at_ 4))
    (hfit : frameHeader + leNat (span m at_ 4) ≤ limit) :
    framed cd m at_ limit least =
      if (cd.crc32c (span m (at_ + frameHeader) (leNat (span m at_ 4)))).toNat =
          leNat (span m (at_ + 4) 4)
        then some (span m (at_ + frameHeader) (leNat (span m at_ 4))) else none :=
  if_pos ⟨hl, hfit⟩

theorem framed_some (h : framed cd m at_ limit least = some p) :
    least ≤ leNat (span m at_ 4) ∧ frameHeader + leNat (span m at_ 4) ≤ limit ∧
      p = span m (at_ + frameHeader) (leNat (span m at_ 4)) ∧
      (cd.crc32c p).toNat = leNat (span m (at_ + 4) 4) := by
  simp only [framed] at h
  split at h
  · rename_i hb
    split at h
    · rename_i hc
      cases h
      exact ⟨hb.1, hb.2, rfl, hc⟩
    · cases h
  · cases h

theorem framed_length (hm : at_ + limit ≤ m.length) (h : framed cd m at_ limit least = some p) :
    p.length = leNat (span m at_ 4) := by
  obtain ⟨-, hl, rfl, -⟩ := framed_some h
  exact length_span (by omega)

theorem framed_none (h : leNat (span m at_ 4) < least) : framed cd m at_ limit least = none :=
  if_neg fun hb => absurd hb.1 (by omega)

theorem span_header_low (m : Bytes) (at_ : Nat) : span m at_ 4 = (span m at_ frameHeader).take 4 :=
  (span_take (by decide)).symm

theorem span_header_high (m : Bytes) (at_ : Nat) :
    span m (at_ + 4) 4 = (span m at_ frameHeader).drop 4 :=
  (span_drop m at_ frameHeader 4).symm

theorem framed_congr (hh : span m' at_ frameHeader = span m at_ frameHeader)
    (hp : frameHeader + leNat (span m at_ 4) ≤ limit →
      span m' (at_ + frameHeader) (leNat (span m at_ 4)) =
        span m (at_ + frameHeader) (leNat (span m at_ 4))) :
    framed cd m' at_ limit least = framed cd m at_ limit least := by
  have hlow : span m' at_ 4 = span m at_ 4 := by rw [span_header_low, hh, ← span_header_low]
  have hhigh : span m' (at_ + 4) 4 = span m (at_ + 4) 4 := by
    rw [span_header_high, hh, ← span_header_high]
  simp only [framed, hlow, hhigh]
  by_cases hb : least ≤ leNat (span m at_ 4) ∧ frameHeader + leNat (span m at_ 4) ≤ limit
  · rw [if_pos hb, if_pos hb, hp hb.2]
  · rw [if_neg hb, if_neg hb]

theorem span_within {o n o' n' : Nat} (h : span m' o n = span m o n) (ho : o ≤ o')
    (hn : o' + n' ≤ o + n) : span m' o' n' = span m o' n' := by
  have hsub (x : Bytes) : span x o' n' = ((span x o n).drop (o' - o)).take n' := by
    rw [span_drop, span_take (by omega), Nat.add_sub_cancel' ho]
  rw [hsub m', h, ← hsub m]

theorem framed_of_span (h : span m' at_ limit = span m at_ limit) :
    framed cd m' at_ limit least = framed cd m at_ limit least := by
  by_cases hl : frameHeader ≤ limit
  · exact framed_congr (span_within h (Nat.le_refl _) (by omega))
      fun hb => span_within h (by omega) (by omega)
  · have hnone (x : Bytes) : framed cd x at_ limit least = none :=
      if_neg fun hb => absurd hb.2 (by omega)
    rw [hnone, hnone]

theorem header_words (hq : q.length ≤ u32Max) (h : span m at_ frameHeader = headerOf cd q) :
    leNat (span m at_ 4) = q.length ∧ leNat (span m (at_ + 4) 4) = (cd.crc32c q).toNat := by
  have hlow : (headerOf cd q).take 4 = leBytes 4 q.length := by
    rw [headerOf, List.take_left' (leBytes_length 4 _)]
  have hhigh : (headerOf cd q).drop 4 = leBytes 4 (cd.crc32c q).toNat := by
    rw [headerOf, List.drop_left' (leBytes_length 4 _)]
  have hcrc : (cd.crc32c q).toNat < 256 ^ 4 := (cd.crc32c q).toNat_lt
  rw [span_header_low, span_header_high, h, hlow, hhigh, leNat_leBytes, leNat_leBytes]
  exact ⟨Nat.mod_eq_of_lt (by simp only [u32Max] at hq; omega), Nat.mod_eq_of_lt hcrc⟩

theorem framed_whole (hq : q.length ≤ u32Max) (hl : least ≤ q.length)
    (hfit : frameHeader + q.length ≤ limit) (hh : span m at_ frameHeader = headerOf cd q)
    (hp : span m (at_ + frameHeader) q.length = q) : framed cd m at_ limit least = some q := by
  obtain ⟨hlen, hcrc⟩ := header_words hq hh
  rw [framed_eq (by omega) (by omega), hlen, hp, hcrc, if_pos rfl]

theorem framed_header (hq : q.length ≤ u32Max) (hh : span m at_ frameHeader = headerOf cd q)
    (hw : OnlyWhole cd m at_ q) :
    framed cd m at_ limit least = none ∨ framed cd m at_ limit least = some q := by
  rcases hf : framed cd m at_ limit least with _ | p
  · exact .inl rfl
  · obtain ⟨-, -, hp, hc⟩ := framed_some hf
    obtain ⟨hlen, hcrc⟩ := header_words hq hh
    rw [hlen] at hp
    rw [hcrc] at hc
    have hsame : cd.crc32c (span m (at_ + frameHeader) q.length) = cd.crc32c q := by
      rw [← hp]
      exact UInt32.toNat_inj.mp hc
    exact .inr (congrArg some (hp.trans (hw hh hsame)))

/-! ## The slots -/

def accepted (cd : Codec I D) (m : Bytes) (second : Bool) : Option Bytes :=
  framed cd m (slotOf m.length second).offset (slotOf m.length second).len slotGenWidth

/-- The generation a frame carries, in a slot or in the log. -/
def genOf (p : Bytes) : Nat := leNat (p.take 8)

theorem slotOf_within (total : Nat) (second : Bool) :
    (slotOf total second).offset + (slotOf total second).len ≤ total := by
  cases second <;> simp only [slotOf, Bool.false_eq_true, if_false, if_true] <;> omega

theorem slotOf_apart (total : Nat) (second : Bool) :
    (slotOf total second).offset + (slotOf total second).len ≤ (slotOf total !second).offset ∨
      (slotOf total !second).offset + (slotOf total !second).len ≤
        (slotOf total second).offset := by
  cases second <;>
    simp only [slotOf, Bool.not_false, Bool.not_true, Bool.false_eq_true, if_false, if_true] <;>
      omega

variable {second : Bool} {g : Nat}

theorem imageRead_ok {o n : Nat} (h : o + n ≤ m.length) : imageRead m o n = .ok (span m o n) :=
  if_pos h

theorem claim_bounds (h : claim m (slotOf m.length second) = some g) :
    slotGenWidth ≤ leNat (span m (slotOf m.length second).offset 4) ∧
      frameHeader + leNat (span m (slotOf m.length second).offset 4) ≤
        (slotOf m.length second).len := by
  unfold claim imageRead at h
  split at h
  · cases h
  · rename_i header hr
    split at hr
    · cases hr
      simp only [← span_header_low] at h
      split at h
      · cases h
      · rename_i hb
        omega
    · cases hr

theorem claim_accepted (h : accepted cd m second = some p) :
    claim m (slotOf m.length second) = some (genOf p) := by
  obtain ⟨hl, hfit, hp, -⟩ := framed_some h
  have hin := slotOf_within m.length second
  simp only [slotGenWidth] at hl
  unfold claim
  rw [imageRead_ok (by omega)]
  simp only [← span_header_low]
  rw [if_neg (by simp only [slotGenWidth]; omega),
    imageRead_ok (by simp only [slotGenWidth]; omega)]
  rw [genOf, hp, span_take hl]
  rfl

theorem verifiedFrame_eq (h : claim m (slotOf m.length second) = some g) :
    verifiedFrame cd m second =
      .ok ((accepted cd m second).map fun p => (⟨genOf p, second⟩, p)) := by
  obtain ⟨hl, hfit⟩ := claim_bounds h
  have hin := slotOf_within m.length second
  simp only [verifiedFrame]
  rw [imageRead_ok (by omega)]
  simp only [← span_header_low, ← span_header_high]
  rw [if_pos ⟨hl, hfit⟩, imageRead_ok (by omega), accepted, framed_eq hl hfit]
  by_cases hc : (cd.crc32c (span m ((slotOf m.length second).offset + frameHeader)
      (leNat (span m (slotOf m.length second).offset 4)))).toNat =
        leNat (span m ((slotOf m.length second).offset + 4) 4)
  · rw [if_pos hc]
    exact if_neg (not_not.mpr hc)
  · rw [if_neg hc]
    exact if_pos hc

theorem slotGeneration_eq (h : claim m (slotOf m.length second) = some g) :
    slotGeneration cd m (slotOf m.length second) = (accepted cd m second).map genOf := by
  obtain ⟨hl, hfit⟩ := claim_bounds h
  have hin := slotOf_within m.length second
  have hl' : 8 ≤ leNat (span m (slotOf m.length second).offset 4) := hl
  simp only [slotGeneration, unframe]
  rw [if_neg (by omega), imageRead_ok (by omega)]
  simp only [← span_header_low, ← span_header_high]
  rw [if_neg (by omega), if_neg (by omega), imageRead_ok (by omega), accepted, framed_eq hl hfit]
  by_cases hc : (cd.crc32c (span m ((slotOf m.length second).offset + frameHeader)
      (leNat (span m (slotOf m.length second).offset 4)))).toNat =
        leNat (span m ((slotOf m.length second).offset + 4) 4)
  · simp only [hc, ne_eq, not_true_eq_false, if_false, if_true, Option.map_some]
    rw [if_neg (by simp only [slotGenWidth]; omega),
      imageRead_ok (by simp only [slotGenWidth]; omega), genOf, span_take hl']
    rfl
  · simp only [ne_eq, hc, not_false_eq_true, if_true, if_false, Option.map_none]

theorem claim_of_mem_newestFirst (h : second ∈ newestFirst m) :
    ∃ g, claim m (slotOf m.length second) = some g := by
  unfold newestFirst at h
  split at h
  · rename_i g0 g1 h0 h1
    cases second
    · exact ⟨g0, h0⟩
    · exact ⟨g1, h1⟩
  · rename_i g0 h0 h1
    cases List.mem_singleton.mp h
    exact ⟨g0, h0⟩
  · rename_i g1 h0 h1
    cases List.mem_singleton.mp h
    exact ⟨g1, h1⟩
  · cases h

theorem firstVerified_eq (l : List Bool)
    (h : ∀ second ∈ l, ∃ g, claim m (slotOf m.length second) = some g) :
    firstVerified cd m l = .ok (l.findSome? fun second =>
      (accepted cd m second).map fun p => (⟨genOf p, second⟩, p)) := by
  induction l with
  | nil => rfl
  | cons second rest ih =>
    obtain ⟨g, hg⟩ := h second List.mem_cons_self
    rw [firstVerified, verifiedFrame_eq hg, List.findSome?_cons]
    rcases accepted cd m second with _ | p
    · exact ih fun s hs => h s (List.mem_cons_of_mem _ hs)
    · rfl

theorem committedSlot_eq : committedSlot cd m = (newestFirst m).findSome? fun second =>
    (accepted cd m second).map fun p => ⟨genOf p, second⟩ := by
  unfold committedSlot
  have hall : ∀ second ∈ newestFirst m, ∃ g, claim m (slotOf m.length second) = some g :=
    fun _ => claim_of_mem_newestFirst
  generalize newestFirst m = l at hall ⊢
  induction l with
  | nil => rfl
  | cons second rest ih =>
    obtain ⟨g, hg⟩ := hall second List.mem_cons_self
    rw [List.findSome?_cons, List.findSome?_cons, slotGeneration_eq hg, Option.map_map]
    rcases accepted cd m second with _ | p
    · exact ih fun s hs => hall s (List.mem_cons_of_mem _ hs)
    · rfl

theorem findSome_newestFirst {β : Type} (f : Bool → Bytes → β) (h : accepted cd m second = some p)
    (hother : ∀ q, accepted cd m (!second) = some q → genOf q < genOf p) :
    (newestFirst m).findSome? (fun s => (accepted cd m s).map (f s)) = some (f second p) := by
  have hclaim := claim_accepted h
  rcases hq : accepted cd m (!second) with _ | q
  · cases second <;> simp only [Bool.not_false, Bool.not_true] at hq <;>
      simp only [newestFirst, hclaim] <;> split <;> try split
    all_goals simp_all
  · have hless := hother q hq
    have hclaim' := claim_accepted hq
    cases second
    · simp only [Bool.not_false] at hclaim'
      simp only [newestFirst, hclaim, hclaim']
      rw [if_neg (by omega), List.findSome?_cons, h]
      rfl
    · simp only [Bool.not_true] at hclaim'
      simp only [newestFirst, hclaim, hclaim']
      rw [if_pos (by omega), List.findSome?_cons, h]
      rfl

theorem recoverCommitted_some (h : accepted cd m second = some p)
    (hother : ∀ q, accepted cd m (!second) = some q → genOf q < genOf p) :
    recoverCommitted cd m = .ok (some (⟨genOf p, second⟩, p)) ∧
      committedSlot cd m = some ⟨genOf p, second⟩ := by
  rw [recoverCommitted, firstVerified_eq _ fun _ => claim_of_mem_newestFirst, committedSlot_eq]
  exact ⟨congrArg Except.ok
    (findSome_newestFirst (fun s p => (CommittedSlot.mk (genOf p) s, p)) h hother),
    findSome_newestFirst (fun s p => CommittedSlot.mk (genOf p) s) h hother⟩

theorem recoverCommitted_none (h : ∀ second, accepted cd m second = none) :
    recoverCommitted cd m = .ok none ∧ committedSlot cd m = none := by
  rw [recoverCommitted, firstVerified_eq _ fun _ => claim_of_mem_newestFirst, committedSlot_eq]
  constructor
  · refine congrArg Except.ok (List.findSome?_eq_none_iff.mpr fun s _ => ?_)
    rw [h s]
    rfl
  · refine List.findSome?_eq_none_iff.mpr fun s _ => ?_
    rw [h s]
    rfl

end Slates.Checkpoint
