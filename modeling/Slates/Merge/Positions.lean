import Slates.Library.Splice
import Slates.Merge.Verdict

/-!
Content ops as patches, and where they move positions. The byte splice is the library's
(`applyWith_eq_splice`), the mapper's pass finds the push of its patches, and along deltas that
replay (`Evolves`) a mapped range keeps its bytes and its order.
-/

namespace Slates.Merge

/-! ## Ops as patches -/

/-- An op as a patch that adds `added`. -/
def Op.patchWith {α : Type} (added : Op → List α) (op : Op) : Patch α :=
  ⟨op.offset, op.touchedRange.len, added op⟩

theorem Op.touchedRange_start (op : Op) : op.touchedRange.start = op.offset := by
  cases h : op.kind <;> simp [Op.touchedRange, h]

theorem Op.touchedRange_moved (op : Op) (offset : Nat) :
    ({ op with offset := offset } : Op).touchedRange = ⟨offset, op.touchedRange.len⟩ := by
  cases h : op.kind <;> simp [Op.touchedRange, h]

theorem Op.patchWith_stop {α : Type} (added : Op → List α) (op : Op) :
    (op.patchWith added).stop = op.touchedRange.stop := by
  cases h : op.kind <;> simp [Op.patchWith, Patch.stop, Range.stop, Op.touchedRange, h]

/-- The splice's loop over any kind of elements, `added` giving those each op adds. -/
def applyWith {α : Type} (added : Op → List α) (base : List α) : Nat → List Op → List α
  | pos, [] => base.drop pos
  | pos, op :: ops =>
    (base.take op.offset).drop pos ++ added op ++
      applyWith added base (op.advance base.length (max pos op.offset)) ops

theorem applyFrom_eq_applyWith (base postState : Bytes) (pos : Nat) (ops : List Op) :
    applyFrom base postState pos ops = applyWith (Op.added postState) base pos ops := by
  induction ops generalizing pos with
  | nil => rfl
  | cons op ops ih => rw [applyFrom, applyWith, ih]

variable {pos n : Nat} {ops : List Op} {op : Op}

theorem applyWith_eq_splice {α : Type} {added : Op → List α} {base : List α}
    (hord : InOrder base.length pos (ops.map (Op.patchWith added)))
    (htrunc : ∀ op ∈ ops, op.kind = .truncate → op.offset + op.len = base.length) :
    applyWith added base pos ops = splice base pos (ops.map (Op.patchWith added)) := by
  induction ops generalizing pos with
  | nil => rfl
  | cons op ops ih =>
    have hpos : pos ≤ op.offset := hord.1
    have hnext : op.advance base.length (max pos op.offset) = (op.patchWith added).stop := by
      rw [Nat.max_eq_right hpos, op.patchWith_stop]
      cases hk : op.kind with
      | truncate =>
        have := htrunc op (List.mem_cons_self ..) hk
        simp [Op.advance, Op.touchedRange, Range.stop, hk, this]
      | _ => simp [Op.advance, Op.touchedRange, Range.stop, hk]
    rw [applyWith, hnext, List.map_cons, splice,
      ih hord.2 fun o ho => htrunc o (List.mem_cons_of_mem _ ho)]
    rfl

/-- Ops that record the coordinates of patches. -/
def Records {α : Type} (ops : List Op) (ps : List (Patch α)) : Prop :=
  ops.map effectOf = ps.map (fun p => some (p.offset, p.len, p.added.length))

theorem Records.nil {α : Type} {ps : List (Patch α)} (h : Records [] ps) : ps = [] := by
  simpa [Records] using h.symm

theorem Records.cons {α : Type} {ps : List (Patch α)} (h : Records (op :: ops) ps) :
    ∃ p rest, ps = p :: rest ∧ effectOf op = some (p.offset, p.len, p.added.length) ∧
      Records ops rest := by
  cases ps with
  | nil => simp [Records] at h
  | cons p rest =>
    simp only [Records, List.map_cons, List.cons.injEq] at h
    exact ⟨p, rest, rfl, h.1, h.2⟩

theorem effectOf_patchWith {α : Type} {added : Op → List α} (hk : op.kind.isContent = true)
    (hadded : (added op).length = if op.kind.addsContent then op.len else 0) :
    effectOf op = some ((op.patchWith added).offset, (op.patchWith added).len,
      (op.patchWith added).added.length) := by
  cases h : op.kind <;> simp [h, OpKind.isContent, OpKind.addsContent] at hk hadded <;>
    simp [effectOf, Op.patchWith, Op.touchedRange, h, hadded]

theorem length_added {postState : Bytes}
    (hsrc : op.kind.addsContent = true → op.src + op.len ≤ postState.length) :
    (op.added postState).length = if op.kind.addsContent then op.len else 0 := by
  unfold Op.added
  split
  · rename_i ha
    have := hsrc ha
    rw [spanBytes, List.length_take, List.length_drop]
    omega
  · rfl

/-! ## The position map -/

theorem Range.not_overlaps_iff {a b : Range} : a.overlaps b = false ↔
    (a.stop ≤ b.start ∨ b.stop ≤ a.start) ∧ ¬ (a.len = 0 ∧ b.len = 0 ∧ a.start = b.start) := by
  unfold Range.overlaps Range.stop
  split_ifs <;> simp <;> omega

def Anchored {α : Type} (ps : List (Patch α)) (range : Range) : Prop :=
  ∃ p ∈ ps, p.len = 0 ∧ range.len = 0 ∧ p.offset = range.start

theorem shiftThrough_eq_some {α : Type} {ps : List (Patch α)} {range : Range} {shift shift' : Int}
    (hrec : Records ops ps) (hord : InOrder n pos ps)
    (h : shiftThrough range ops shift = some shift') :
    shift' = shift + push ps range.start ∧ Clear ps range.start range.len ∧
      ¬ Anchored ps range := by
  induction ops generalizing ps pos shift with
  | nil =>
    cases hrec.nil
    cases h
    refine ⟨by simp, nofun, ?_⟩
    rintro ⟨p, hp, -⟩
    cases hp
  | cons op ops ih =>
    obtain ⟨p, rest, rfl, heff, hrest⟩ := hrec.cons
    simp only [shiftThrough, heff] at h
    split at h
    · cases h
    rename_i hover
    obtain ⟨hside, htie⟩ := Range.not_overlaps_iff.mp (by simpa using hover)
    unfold Range.stop at hside
    have hstop : p.stop = p.offset + p.len := rfl
    split at h
    · rename_i hbefore
      obtain ⟨hshift, hclear, hanchor⟩ := ih hrest hord.2 h
      refine ⟨?_, ?_, ?_⟩
      · have hgrow : p.growth = (p.added.length : Int) - p.len := rfl
        rw [push_cons, if_pos (hstop.trans_le hbefore), hshift, hgrow]
        ring
      · intro q hq
        rcases List.mem_cons.mp hq with rfl | hq
        · exact .inl hbefore
        · exact hclear q hq
      · rintro ⟨q, hq, htie'⟩
        rcases List.mem_cons.mp hq with rfl | hq
        · exact htie htie'
        · exact hanchor ⟨q, hq, htie'⟩
    · rename_i hbefore
      have hpast : range.start + range.len ≤ p.offset := hside.resolve_left hbefore
      have hlt : range.start < p.stop := by omega
      rw [if_pos (by unfold Range.stop; exact hpast)] at h
      cases h
      refine ⟨by rw [push_past hord.2 hlt, add_zero], ?_, ?_⟩
      · intro q hq
        rcases List.mem_cons.mp hq with rfl | hq
        · exact .inr hpast
        · have := hord.2.pos_le_offset hq
          exact .inr (by omega)
      · rintro ⟨q, hq, htie'⟩
        rcases List.mem_cons.mp hq with rfl | hq
        · exact htie htie'
        · have := hord.2.pos_le_offset hq
          omega

theorem mapThroughOne_eq_shifted {α : Type} {ps : List (Patch α)} {range next : Range}
    (hrec : Records ops ps) (hord : InOrder n 0 ps) (h : mapThroughOne ops range = .shifted next) :
    next.len = range.len ∧ (next.start : Int) = range.start + push ps range.start ∧
      Clear ps range.start range.len ∧ ¬ Anchored ps range := by
  unfold mapThroughOne at h
  split at h
  · cases h
  rename_i shift hs
  obtain ⟨hshift, hclear, hanchor⟩ := shiftThrough_eq_some hrec hord hs
  cases h
  have hpos := le_push hord (Nat.zero_le range.start)
  refine ⟨rfl, ?_, hclear, hanchor⟩
  push_cast at hpos
  rw [hshift, zero_add]
  exact Int.toNat_of_nonneg hpos

/-! ## Files along their deltas -/

section Evolves

variable {α : Type}

/-- `ops` say how the file `old` became `new`. -/
def Replays (old : List α) (ops : List Op) (new : List α) : Prop :=
  ∃ ps, Records ops ps ∧ InOrder old.length 0 ps ∧ splice old 0 ps = new

theorem Replays.refl (bytes : List α) : Replays bytes [] bytes :=
  ⟨[], rfl, Nat.zero_le _, rfl⟩

variable {old new : List α} {deltas : List (List Op)}

theorem Replays.eq_of_nil (h : Replays old [] new) : new = old := by
  obtain ⟨ps, hrec, -, hnew⟩ := h
  cases hrec.nil
  simpa [splice] using hnew.symm

/-- A file that went through deltas, oldest first. -/
inductive Evolves : List α → List (List Op) → List α → Prop
  | refl (bytes : List α) : Evolves bytes [] bytes
  | step {old mid new : List α} {ops : List Op} {deltas : List (List Op)} :
      Replays old ops mid → Evolves mid deltas new → Evolves old (ops :: deltas) new

theorem mapRange_len {range mapped : Range} (h : mapRange deltas range = .shifted mapped) :
    mapped.len = range.len := by
  induction deltas generalizing range with
  | nil => cases h; rfl
  | cons ops deltas ih =>
    rw [mapRange] at h
    split at h
    · rename_i next hnext
      unfold mapThroughOne at hnext
      split at hnext
      · cases hnext
      · cases hnext
        exact (ih h).trans rfl
    · cases h

/-- **A mapped range** lies inside the last file, and holds the bytes it held. -/
theorem Evolves.range_mapped {range mapped : Range} (he : Evolves old deltas new)
    (hin : range.stop ≤ old.length) (hmap : mapRange deltas range = .shifted mapped) :
    mapped.stop ≤ new.length ∧
      (new.drop mapped.start).take mapped.len = (old.drop range.start).take range.len := by
  induction he generalizing range with
  | refl bytes =>
    cases hmap
    exact ⟨hin, rfl⟩
  | @step old mid new ops deltas hr _ ih =>
    obtain ⟨ps, hrec, hord, hmid⟩ := hr
    rw [mapRange] at hmap
    split at hmap
    · rename_i next hnext
      obtain ⟨hlen, hstart, hclear, -⟩ := mapThroughOne_eq_shifted hrec hord hnext
      have hpush := push_le hord hclear hin
      have hsize := length_splice hord
      rw [hmid] at hsize
      have hstop : next.stop ≤ mid.length := by
        unfold Range.stop
        omega
      obtain ⟨hstop', hspan⟩ := ih hstop hmap
      refine ⟨hstop', hspan.trans ?_⟩
      have hwindow := take_drop_splice hord hclear (Nat.zero_le _)
        (d := next.start) (by push_cast; omega)
      rw [hmid] at hwindow
      rw [hlen, hwindow]
    · cases hmap

/-- **Mapping keeps order.** -/
theorem Evolves.mapped_mono {a b a' b' : Range} (he : Evolves old deltas new)
    (hab : a.stop ≤ b.start) (ha : mapRange deltas a = .shifted a')
    (hb : mapRange deltas b = .shifted b') : a'.stop ≤ b'.start := by
  induction he generalizing a b with
  | refl bytes =>
    cases ha
    cases hb
    exact hab
  | @step old mid new ops deltas hr _ ih =>
    obtain ⟨ps, hrec, hord, -⟩ := hr
    rw [mapRange] at ha hb
    split at ha
    · rename_i nexta hnexta
      split at hb
      · rename_i nextb hnextb
        obtain ⟨hlen, hstart, hclear, -⟩ := mapThroughOne_eq_shifted hrec hord hnexta
        obtain ⟨-, hstart', -, -⟩ := mapThroughOne_eq_shifted hrec hord hnextb
        have hpush := push_mono hord hclear hab
        refine ih ?_ ha hb
        unfold Range.stop
        omega
      · cases hb
    · cases ha

end Evolves

/-! ## Soundness -/

def opGrowth (op : Op) : Int :=
  match effectOf op with
  | some (_, oldLen, newLen) => (newLen : Int) - oldLen
  | none => 0

/-- Sorted by offset, apart and inside the file before, and exactly what made it the file after. -/
structure DeltaSound (old : Bytes) (ops : List Op) (new : Bytes) : Prop where
  sorted : ops.Pairwise (fun a b => a.offset ≤ b.offset)
  apart : ops.Pairwise (fun a b => a.touchedRange.stop ≤ b.offset)
  inside : ∀ op ∈ ops, op.touchedRange.stop ≤ old.length
  applied : ∃ ps : List (Patch UInt8), Records ops ps ∧ splice old 0 ps = new
  length : (new.length : Int) = old.length + (ops.map opGrowth).sum

theorem touchedRange_of_effectOf {offset oldLen newLen : Nat}
    (h : effectOf op = some (offset, oldLen, newLen)) :
    op.offset = offset ∧ op.touchedRange.stop = offset + oldLen := by
  cases hk : op.kind <;> simp [effectOf, hk] at h <;>
    simp [Op.touchedRange, Range.stop, hk, h]

theorem Records.sound {α : Type} {old : List α} {ps : List (Patch α)} (hrec : Records ops ps)
    (hord : InOrder old.length pos ps) :
    ops.Pairwise (fun a b => a.touchedRange.stop ≤ b.offset) ∧
      (∀ op ∈ ops, pos ≤ op.offset ∧ op.touchedRange.stop ≤ old.length) ∧
      (ops.map opGrowth).sum = growths ps := by
  induction ops generalizing ps pos with
  | nil =>
    cases hrec.nil
    exact ⟨.nil, nofun, rfl⟩
  | cons op ops ih =>
    obtain ⟨p, rest, rfl, heff, hrest⟩ := hrec.cons
    obtain ⟨hpair, hall, hsum⟩ := ih hrest hord.2
    obtain ⟨hoffset, hstop⟩ := touchedRange_of_effectOf heff
    have hend : p.stop = p.offset + p.len := rfl
    refine ⟨List.pairwise_cons.mpr ⟨fun b hb => ?_, hpair⟩, ?_, ?_⟩
    · have := (hall b hb).1
      omega
    · intro o ho
      rcases List.mem_cons.mp ho with rfl | ho
      · have := hord.1
        have := hord.2.le
        omega
      · have := (hall o ho).1
        have := hord.1
        exact ⟨by omega, (hall o ho).2⟩
    · have hgrow : opGrowth op = p.growth := by
        rw [opGrowth, heff]
        rfl
      rw [List.map_cons, List.sum_cons, hsum, hgrow, growths_cons]

theorem Replays.sound {old new : Bytes} (h : Replays old ops new) : DeltaSound old ops new := by
  obtain ⟨ps, hrec, hord, hnew⟩ := h
  obtain ⟨hpair, hall, hsum⟩ := Records.sound hrec hord
  refine ⟨hpair.imp fun {a b} hab => ?_, hpair, fun op hop => (hall op hop).2,
    ⟨ps, hrec, hnew⟩, ?_⟩
  · have hstart := a.touchedRange_start
    unfold Range.stop at hab
    omega
  · rw [← hnew, length_splice hord, hsum]
    simp

end Slates.Merge
