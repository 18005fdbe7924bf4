import Slates.Checkpoint.Frames

/-!
What the writes of a publication, all of them or the first few, make of the frames in memory.
-/

namespace Slates.Checkpoint

open Content (VfsError)
open Mem (u32Max u64Max)
open Merge (leBytes leNat leBytes_length leNat_leBytes)
open Spans

variable {I D : Type} {cd : Codec I D} {m : Bytes} {lo hi : Nat}

def after (m : Bytes) (writes : List Write) : Bytes := (perform m writes).1

def Inside (lo hi : Nat) (writes : List Write) : Prop :=
  ∀ w ∈ writes, lo ≤ w.offset ∧ w.offset + w.bytes.length ≤ hi

variable {writes : List Write}

theorem Inside.mono {lo' hi' : Nat} (h : Inside lo hi writes) (hlo : lo' ≤ lo)
    (hhi : hi ≤ hi') : Inside lo' hi' writes :=
  fun w hw => ⟨hlo.trans (h w hw).1, (h w hw).2.trans hhi⟩

theorem Inside.take {writes : List Write} (h : Inside lo hi writes) (k : Nat) :
    Inside lo hi (writes.take k) :=
  fun w hw => h w (List.mem_of_mem_take hw)

variable {w : Write} {outcome : Except VfsError Nat}

theorem Inside.cons (hw : lo ≤ w.offset)
    (hw' : w.offset + w.bytes.length ≤ hi) (h : Inside lo hi writes) : Inside lo hi (w :: writes) :=
  List.forall_mem_cons.mpr ⟨⟨hw, hw'⟩, h⟩

theorem Inside.nil : Inside lo hi [] := fun _ h => absurd h List.not_mem_nil

theorem Inside.append {xs ys : List Write} (hx : Inside lo hi xs) (hy : Inside lo hi ys) :
    Inside lo hi (xs ++ ys) :=
  fun w hw => (List.mem_append.mp hw).elim (hx w) (hy w)

@[simp] theorem after_nil (m : Bytes) : after m [] = m := rfl

theorem after_cons (h : w.offset + w.bytes.length ≤ m.length) :
    after m (w :: writes) = after (patch m w.offset w.bytes) writes := by
  rw [after, perform, imageWrite, if_pos h]
  rfl

theorem after_inside (h : Inside lo hi writes) (hm : hi ≤ m.length) :
    (after m writes).length = m.length ∧
      ∀ o n, o + n ≤ lo ∨ hi ≤ o → span (after m writes) o n = span m o n := by
  induction writes generalizing m with
  | nil => exact ⟨rfl, fun _ _ _ => rfl⟩
  | cons w writes ih =>
    obtain ⟨hlo, hhi⟩ := h w List.mem_cons_self
    have hin : w.offset + w.bytes.length ≤ m.length := hhi.trans hm
    have hlen := length_patch hin
    obtain ⟨hl, hs⟩ := ih (fun w' hw' => h w' (List.mem_cons_of_mem _ hw'))
      (m := patch m w.offset w.bytes) (by omega)
    rw [after_cons hin]
    refine ⟨hl.trans hlen, fun o n hd => (hs o n hd).trans (span_patch_apart hin ?_)⟩
    omega

theorem after_append {xs ys : List Write} (h : Inside lo hi xs) (hm : hi ≤ m.length) :
    after m (xs ++ ys) = after (after m xs) ys := by
  induction xs generalizing m with
  | nil => rfl
  | cons w xs ih =>
    have hin : w.offset + w.bytes.length ≤ m.length := (h w List.mem_cons_self).2.trans hm
    rw [List.cons_append, after_cons hin, after_cons hin]
    exact ih (fun w' hw' => h w' (List.mem_cons_of_mem _ hw')) (by rw [length_patch hin]; omega)

theorem span_after_last (h : Inside lo hi writes) (hm : hi ≤ m.length)
    (hw : w.offset + w.bytes.length ≤ m.length) :
    span (after m (writes ++ [w])) w.offset w.bytes.length = w.bytes := by
  have hlen := (after_inside h hm).1
  rw [after_append h hm, after_cons (by omega), after_nil]
  exact span_patch_self (by omega)

theorem span_after_first (h : Inside lo hi writes) (hm : hi ≤ m.length)
    (hw : w.offset + w.bytes.length ≤ m.length) (hclear : w.offset + w.bytes.length ≤ lo) :
    span (after m (w :: writes)) w.offset w.bytes.length = w.bytes := by
  have hlen := length_patch hw
  rw [after_cons hw,
    (after_inside h (m := patch m w.offset w.bytes) (by omega)).2 _ _ (.inl hclear)]
  exact span_patch_self hw

theorem span_after_two {o : Nat} {a b : Bytes} {rest : List Write}
    (h : Inside (o + a.length + b.length) hi rest) (hm : hi ≤ m.length)
    (hab : o + a.length + b.length ≤ hi) :
    span (after m (⟨o, a⟩ :: ⟨o + a.length, b⟩ :: rest)) o (a.length + b.length) = a ++ b := by
  have ha : o + a.length ≤ m.length := by omega
  have htail : Inside (o + a.length) hi (⟨o + a.length, b⟩ :: rest) :=
    Inside.cons (Nat.le_refl _) hab (h.mono (by omega) (Nat.le_refl _))
  rw [span_add]
  congr 1
  · exact span_after_first (w := ⟨o, a⟩) htail hm ha (Nat.le_refl _)
  · have hlen := length_patch ha
    rw [after_cons ha]
    exact span_after_first (m := patch m o a) (w := ⟨o + a.length, b⟩) h (by omega)
      (by dsimp only; omega) (Nat.le_refl _)

/-! ## A payload laid down in pieces -/

variable {slot : Slot}

theorem flushes_inside (slot : Slot) (written : Nat) (pieces : List Bytes)
    (hfit : frameHeader + written ≤ slot.len) :
    Inside (slot.offset + frameHeader + written) (slot.offset + slot.len)
      (flushes slot written pieces).1 := by
  induction pieces generalizing written with
  | nil => exact Inside.nil
  | cons piece pieces ih =>
    rw [flushes]
    split
    · exact ih _ hfit
    · split
      · exact Inside.nil
      · exact Inside.cons (Nat.le_refl _) (by dsimp only; omega)
          ((ih _ (by omega)).mono (by omega) (Nat.le_refl _))

theorem flushes_ok (slot : Slot) (written : Nat) (pieces : List Bytes) {total : Nat}
    (hfit : frameHeader + written ≤ slot.len) (h : (flushes slot written pieces).2 = .ok total)
    (hm : slot.offset + slot.len ≤ m.length) :
    total = written + pieces.flatten.length ∧ frameHeader + total ≤ slot.len ∧
      span (after m (flushes slot written pieces).1) (slot.offset + frameHeader + written)
        pieces.flatten.length = pieces.flatten := by
  induction pieces generalizing written m with
  | nil =>
    cases h
    exact ⟨rfl, hfit, by simp [span]⟩
  | cons piece pieces ih =>
    rw [flushes] at h ⊢
    split at h
    · rename_i hnil
      rw [if_pos hnil, hnil]
      exact ih _ hfit h hm
    · rename_i hne
      split at h
      · cases h
      · rename_i hroom
        rw [if_neg hne, if_neg hroom]
        have hin : slot.offset + frameHeader + written + piece.length ≤ m.length := by omega
        obtain ⟨ht, hf, hs⟩ := ih (m := patch m (slot.offset + frameHeader + written) piece)
          _ (by omega) h (by rw [length_patch hin]; omega)
        refine ⟨by rw [ht, List.flatten_cons, List.length_append]; omega, hf, ?_⟩
        rw [List.flatten_cons, List.length_append, span_add]
        congr 1
        · exact span_after_first (flushes_inside slot _ pieces (by omega)) hm hin
            (by dsimp only; omega)
        · rw [after_cons hin, Nat.add_assoc (slot.offset + frameHeader)]
          exact hs

/-! ## A checkpoint's writes -/

/-- What a checkpoint of `q` may have made of its slot: nothing yet, no frame, or that one. -/
structure InProgress (cd : Codec I D) (m m' : Bytes) (second : Bool) (q : Bytes) : Prop where
  length : m'.length = m.length
  other : accepted cd m' (!second) = accepted cd m (!second)
  frame : m' = m ∨ accepted cd m' second = none ∨ accepted cd m' second = some q

variable {second : Bool} {generation : Nat} {q : Bytes}

theorem InProgress.refl (cd : Codec I D) (m : Bytes) (second : Bool) (q : Bytes) :
    InProgress cd m m second q := ⟨rfl, rfl, .inl rfl⟩

theorem length_slotPayload (generation : Nat) (content : Bytes) :
    (slotPayload generation content).length = slotGenWidth + content.length := by
  rw [slotPayload, List.length_append, leBytes_length]

theorem genOf_slotPayload (content : Bytes) (h : generation ≤ u64Max) :
    genOf (slotPayload generation content) = generation := by
  rw [genOf, slotPayload, slotGenWidth, List.take_left' (leBytes_length 8 _), leNat_leBytes]
  exact Nat.mod_eq_of_lt (by simp only [u64Max] at h; omega)

theorem length_headerOf (cd : Codec I D) (q : Bytes) : (headerOf cd q).length = frameHeader := by
  rw [headerOf, List.length_append, leBytes_length, leBytes_length]
  rfl

theorem inProgress_of_inside (h : Inside (slotOf m.length second).offset
      ((slotOf m.length second).offset + (slotOf m.length second).len) writes)
    (hf : after m writes = m ∨ accepted cd (after m writes) second = none ∨
      accepted cd (after m writes) second = some q) :
    InProgress cd m (after m writes) second q := by
  obtain ⟨hlen, hout⟩ := after_inside h (slotOf_within m.length second)
  refine ⟨hlen, ?_, hf⟩
  unfold accepted
  rw [hlen]
  exact framed_of_span (hout _ _ (by have := slotOf_apart m.length second; omega))

section

variable (hs : slot = slotOf m.length second) (hq : q.length ≤ u32Max)
  (hfit : frameHeader + q.length ≤ slot.len)

include hs hq hfit

theorem inProgress_header (h : Inside (slot.offset + frameHeader) (slot.offset + slot.len) writes)
    (hw : OnlyWhole cd (after m (⟨slot.offset, headerOf cd q⟩ :: writes)) slot.offset q) :
    InProgress cd m (after m (⟨slot.offset, headerOf cd q⟩ :: writes)) second q := by
  have hin : slot.offset + slot.len ≤ m.length := hs ▸ slotOf_within m.length second
  have hlenh := length_headerOf cd q
  have hall : Inside slot.offset (slot.offset + slot.len)
      (⟨slot.offset, headerOf cd q⟩ :: writes) :=
    Inside.cons (Nat.le_refl _) (by dsimp only; omega) (h.mono (by omega) (Nat.le_refl _))
  have hhead := span_after_first (w := ⟨slot.offset, headerOf cd q⟩) h hin (by dsimp only; omega)
    (by dsimp only; omega)
  rw [hlenh] at hhead
  refine inProgress_of_inside (hs ▸ hall) (.inr ?_)
  rw [accepted, (after_inside hall hin).1, ← hs]
  exact framed_header hq hhead hw

theorem accepted_whole (cd : Codec I D) (hl : slotGenWidth ≤ q.length)
    (h : Inside slot.offset (slot.offset + slot.len) writes)
    (hhead : span (after m writes) slot.offset frameHeader = headerOf cd q)
    (hbody : span (after m writes) (slot.offset + frameHeader) q.length = q) :
    InProgress cd m (after m writes) second q ∧ accepted cd (after m writes) second = some q := by
  have hin : slot.offset + slot.len ≤ m.length := hs ▸ slotOf_within m.length second
  have hacc : accepted cd (after m writes) second = some q := by
    rw [accepted, (after_inside h hin).1, ← hs]
    exact framed_whole hq hl hfit hhead hbody
  exact ⟨inProgress_of_inside (hs ▸ h) (.inr (.inr hacc)), hacc⟩

end

/-- The payload's two writes of `frame`. -/
def frameBody (slot : Slot) (generation : Nat) (content : Bytes) : List Write :=
  [⟨slot.offset + frameHeader, leBytes slotGenWidth generation⟩,
    ⟨slot.offset + frameHeader + slotGenWidth, content⟩]

variable {content : Bytes} {writes : List Write} {total : Nat}

theorem frame_ok (h : frame cd generation content slot = .ok (writes, total)) :
    frameHeader + (slotPayload generation content).length ≤ slot.len ∧
      (slotPayload generation content).length ≤ u32Max ∧
      writes = ⟨slot.offset, headerOf cd (slotPayload generation content)⟩ ::
        frameBody slot generation content := by
  simp only [frame] at h
  split at h
  · cases h
  · split at h
    · cases h
    · cases h
      exact ⟨by omega, by omega, rfl⟩

theorem frameBody_inside (hfit : frameHeader + (slotPayload generation content).length ≤ slot.len) :
    Inside (slot.offset + frameHeader) (slot.offset + slot.len)
      (frameBody slot generation content) := by
  rw [length_slotPayload] at hfit
  refine Inside.cons (Nat.le_refl _) ?_ (Inside.cons (Nat.le_add_right _ _) ?_ Inside.nil)
  · dsimp only
    rw [leBytes_length]
    omega
  · dsimp only
    omega

theorem span_frameBody (hm : slot.offset + slot.len ≤ m.length)
    (hfit : frameHeader + (slotPayload generation content).length ≤ slot.len) :
    span (after m (frameBody slot generation content)) (slot.offset + frameHeader)
      (slotPayload generation content).length = slotPayload generation content := by
  have hgen : (leBytes slotGenWidth generation).length = slotGenWidth := leBytes_length _ _
  rw [length_slotPayload] at hfit ⊢
  have htwo := span_after_two (m := m) (o := slot.offset + frameHeader)
    (a := leBytes slotGenWidth generation) (b := content) Inside.nil hm (by omega)
  rw [hgen] at htwo
  exact htwo

/-- `frame` leaves the slot untouched, without a frame, or with this one. -/
theorem frame_spec (hs : slot = slotOf m.length second)
    (h : frame cd generation content slot = .ok (writes, total)) :
    (∀ k, OnlyWhole cd (after m (writes.take k)) slot.offset (slotPayload generation content) →
        InProgress cd m (after m (writes.take k)) second (slotPayload generation content)) ∧
      InProgress cd m (after m writes) second (slotPayload generation content) ∧
      accepted cd (after m writes) second = some (slotPayload generation content) := by
  obtain ⟨hfit, hsmall, rfl⟩ := frame_ok h
  have hm : slot.offset + slot.len ≤ m.length := hs ▸ slotOf_within m.length second
  have hbody := frameBody_inside hfit
  have hlenh := length_headerOf cd (slotPayload generation content)
  constructor
  · intro k hw
    cases k with
    | zero => exact InProgress.refl cd m second _
    | succ k => exact inProgress_header hs hsmall hfit (hbody.take k) hw
  · have hhead :
        slot.offset + (headerOf cd (slotPayload generation content)).length ≤ m.length := by
      omega
    refine accepted_whole hs hsmall hfit cd (by rw [length_slotPayload]; omega)
      (Inside.cons (Nat.le_refl _) (by dsimp only; omega) (hbody.mono (by omega) (Nat.le_refl _)))
        ?_ ?_
    · have hfirst := span_after_first
        (w := ⟨slot.offset, headerOf cd (slotPayload generation content)⟩) hbody hm hhead
        (by dsimp only; omega)
      rw [hlenh] at hfirst
      exact hfirst
    · rw [after_cons hhead]
      exact span_frameBody (by rw [length_patch hhead]; exact hm) hfit

/-! ## A streamed checkpoint's writes -/

/-- The write that zeroes a slot's header. -/
def zeroed (slot : Slot) : Write := ⟨slot.offset, List.replicate frameHeader 0⟩

theorem span_zero_header {o : Nat} (h : span m o frameHeader = List.replicate frameHeader 0) :
    leNat (span m o 4) = 0 := by
  rw [span_header_low, h]
  rfl

section

variable (hs : slot = slotOf m.length second) (hl : frameHeader ≤ slot.len)

include hs hl

theorem accepted_zeroed (cd : Codec I D) (q : Bytes)
    (h : Inside (slot.offset + frameHeader) (slot.offset + slot.len) writes) :
    InProgress cd m (after m (zeroed slot :: writes)) second q ∧
      accepted cd (after m (zeroed slot :: writes)) second = none := by
  have hin : slot.offset + slot.len ≤ m.length := hs ▸ slotOf_within m.length second
  have hw : (zeroed slot).bytes.length = frameHeader := List.length_replicate
  have hall : Inside slot.offset (slot.offset + slot.len) (zeroed slot :: writes) :=
    Inside.cons (Nat.le_refl _) (by simp only [zeroed] at hw ⊢; omega)
      (h.mono (by omega) (Nat.le_refl _))
  have hhead := span_after_first (w := zeroed slot) h hin (by simp only [zeroed] at hw ⊢; omega)
    (by simp only [zeroed] at hw ⊢; omega)
  rw [hw] at hhead
  have hnone : accepted cd (after m (zeroed slot :: writes)) second = none := by
    rw [accepted, (after_inside hall hin).1, ← hs]
    refine framed_none (lt_of_eq_of_lt ?_ (by decide : 0 < slotGenWidth))
    exact span_zero_header hhead
  exact ⟨inProgress_of_inside (hs ▸ hall) (.inr (.inl hnone)), hnone⟩

end

theorem stream_cases {pieces : List Bytes} (hm : slot.offset + slot.len ≤ m.length)
    (h : stream cd generation pieces slot = (writes, outcome)) :
    (writes = [] ∧ ∃ refusal, outcome = .error refusal) ∨
      ∃ mid, frameHeader ≤ slot.len ∧
        Inside (slot.offset + frameHeader) (slot.offset + slot.len) mid ∧
        ((writes = zeroed slot :: mid ∧ ∃ refusal, outcome = .error refusal) ∨
          (writes = zeroed slot :: mid ++
              [⟨slot.offset, headerOf cd (slotPayload generation pieces.flatten)⟩] ∧
            (∃ total, outcome = .ok total) ∧
            (slotPayload generation pieces.flatten).length ≤ u32Max ∧
            frameHeader + (slotPayload generation pieces.flatten).length ≤ slot.len ∧
            span (after m (zeroed slot :: mid)) (slot.offset + frameHeader)
              (slotPayload generation pieces.flatten).length =
                slotPayload generation pieces.flatten)) := by
  simp only [stream] at h
  split at h
  · cases h
    exact .inl ⟨rfl, _, rfl⟩
  · rename_i hroom
    have hgen : (leBytes slotGenWidth generation).length = slotGenWidth := leBytes_length _ _
    have hws := flushes_inside slot slotGenWidth pieces (by omega)
    have hmid : Inside (slot.offset + frameHeader) (slot.offset + slot.len)
        (⟨slot.offset + frameHeader, leBytes slotGenWidth generation⟩ ::
          (flushes slot slotGenWidth pieces).1) :=
      Inside.cons (Nat.le_refl _) (by dsimp only; omega) (hws.mono (by omega) (Nat.le_refl _))
    refine .inr ⟨_, by omega, hmid, ?_⟩
    split at h
    · rename_i ws refusal hf
      cases h
      rw [hf]
      exact .inl ⟨rfl, _, rfl⟩
    · rename_i ws written hf
      split at h
      · cases h
        rw [hf]
        exact .inl ⟨rfl, _, rfl⟩
      · rename_i hsmall
        cases h
        have hw : (zeroed slot).bytes.length = frameHeader := List.length_replicate
        have hzero : (zeroed slot).offset + (zeroed slot).bytes.length ≤ m.length := by
          simp only [zeroed] at hw ⊢
          omega
        have hlen1 := length_patch hzero
        have hfirst : slot.offset + frameHeader + (leBytes slotGenWidth generation).length ≤
            (patch m (zeroed slot).offset (zeroed slot).bytes).length := by omega
        obtain ⟨ht, hroom', hs⟩ :=
          flushes_ok slot slotGenWidth pieces (by omega) (congrArg Prod.snd hf)
          (m := patch (patch m (zeroed slot).offset (zeroed slot).bytes) (slot.offset + frameHeader)
            (leBytes slotGenWidth generation)) (by rw [length_patch hfirst]; omega)
        rw [hf]
        refine .inr ⟨rfl, ⟨_, rfl⟩, ?_⟩
        rw [length_slotPayload]
        refine ⟨by omega, by omega, ?_⟩
        rw [after_cons hzero, span_add, slotPayload]
        congr 1
        · have hback := span_after_first (m := patch m (zeroed slot).offset (zeroed slot).bytes)
            (w := ⟨slot.offset + frameHeader, leBytes slotGenWidth generation⟩) hws
            (by omega) hfirst (by dsimp only; omega)
          rw [hgen, hf] at hback
          exact hback
        · rw [after_cons hfirst]
          rw [hf] at hs
          exact hs

/-- The slot is untouched, or holds no frame, until the last write of one not refused. -/
theorem stream_spec {pieces : List Bytes} (hs : slot = slotOf m.length second)
    (h : stream cd generation pieces slot = (writes, outcome)) :
    (∀ k, k < writes.length →
        InProgress cd m (after m (writes.take k)) second (slotPayload generation pieces.flatten) ∧
          (after m (writes.take k) = m ∨ accepted cd (after m (writes.take k)) second = none)) ∧
      InProgress cd m (after m writes) second (slotPayload generation pieces.flatten) ∧
      (∀ total, outcome = .ok total → accepted cd (after m writes) second =
        some (slotPayload generation pieces.flatten)) ∧
      (∀ refusal, outcome = .error refusal →
        after m writes = m ∨ accepted cd (after m writes) second = none) := by
  have hm : slot.offset + slot.len ≤ m.length := hs ▸ slotOf_within m.length second
  obtain ⟨rfl, e, rfl⟩ | ⟨mid, hl, hmid, hrest⟩ := stream_cases hm h
  · refine ⟨fun k hk => absurd hk (Nat.not_lt_zero k), InProgress.refl _ _ _ _, ?_, ?_⟩
    · rintro _ ⟨⟩
    · exact fun _ _ => .inl rfl
  · -- the first writes of either form: none, or the zeroed header and pieces
    have hpart (k : Nat) :
        InProgress cd m (after m ((zeroed slot :: mid).take k)) second
            (slotPayload generation pieces.flatten) ∧
          (after m ((zeroed slot :: mid).take k) = m ∨
            accepted cd (after m ((zeroed slot :: mid).take k)) second = none) := by
      cases k with
      | zero => exact ⟨InProgress.refl _ _ _ _, .inl rfl⟩
      | succ k =>
        have hz := accepted_zeroed hs hl cd (slotPayload generation pieces.flatten)
          (hmid.take k)
        exact ⟨hz.1, .inr hz.2⟩
    obtain ⟨rfl, e, rfl⟩ | ⟨rfl, ⟨total, rfl⟩, hsmall, hfit, hbody⟩ := hrest
    · have hwhole := hpart (zeroed slot :: mid).length
      rw [List.take_length] at hwhole
      refine ⟨fun k _ => hpart k, hwhole.1, ?_, fun _ _ => hwhole.2⟩
      rintro _ ⟨⟩
    · have hlenh := length_headerOf cd (slotPayload generation pieces.flatten)
      have hw : (zeroed slot).bytes.length = frameHeader := List.length_replicate
      have hzm : Inside slot.offset (slot.offset + slot.len) (zeroed slot :: mid) :=
        Inside.cons (Nat.le_refl _) (by simp only [zeroed] at hw ⊢; omega)
          (hmid.mono (by omega) (Nat.le_refl _))
      have hlast : Inside slot.offset (slot.offset + frameHeader)
          [⟨slot.offset, headerOf cd (slotPayload generation pieces.flatten)⟩] :=
        Inside.cons (Nat.le_refl _) (by dsimp only; omega) Inside.nil
      have hwhole := accepted_whole hs hsmall hfit cd (by rw [length_slotPayload]; omega)
        (hzm.append (hlast.mono (Nat.le_refl _) (by omega)))
        (by
          have hback := span_after_last
            (w := ⟨slot.offset, headerOf cd (slotPayload generation pieces.flatten)⟩) hzm hm
            (by dsimp only; omega)
          rw [hlenh] at hback
          exact hback)
        (by
          rw [after_append hzm hm,
            (after_inside hlast (by rw [(after_inside hzm hm).1]; omega)).2 _ _
            (.inr (Nat.le_refl _))]
          exact hbody)
      refine ⟨fun k hk => ?_, hwhole.1, fun _ _ => hwhole.2, ?_⟩
      · rw [List.take_append_of_le_length
          (by simp only [List.length_append, List.length_singleton] at hk; omega)]
        exact hpart k
      · rintro _ ⟨⟩

end Slates.Checkpoint
