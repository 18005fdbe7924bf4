import Mathlib

/-!
Patches of a list, in order and apart, and the positions they push: `push_mono`, `take_drop_splice`
for a window no patch meets, and `sublist_splice` for what no patch removes.
-/

namespace Slates

/-- `len` elements at `offset` give way to `added`. -/
structure Patch (α : Type) where
  offset : Nat
  len : Nat
  added : List α
  deriving DecidableEq

namespace Patch

variable {α : Type}

def stop (p : Patch α) : Nat := p.offset + p.len

def growth (p : Patch α) : Int := (p.added.length : Int) - p.len

theorem offset_le_stop (p : Patch α) : p.offset ≤ p.stop := Nat.le_add_right _ _

end Patch

section Splice

variable {α : Type}

/-- In order, apart, and inside a list of `n` elements from `pos` on. -/
def InOrder (n : Nat) : Nat → List (Patch α) → Prop
  | pos, [] => pos ≤ n
  | pos, p :: ps => pos ≤ p.offset ∧ InOrder n p.stop ps

/-- The list from `pos` on, patched. -/
def splice (base : List α) : Nat → List (Patch α) → List α
  | pos, [] => base.drop pos
  | pos, p :: ps => (base.take p.offset).drop pos ++ p.added ++ splice base p.stop ps

def growths (ps : List (Patch α)) : Int := (ps.map Patch.growth).sum

@[simp] theorem growths_nil : growths ([] : List (Patch α)) = 0 := rfl

@[simp] theorem growths_cons (p : Patch α) (ps : List (Patch α)) :
    growths (p :: ps) = p.growth + growths ps := by
  simp [growths]

namespace InOrder

variable {n pos : Nat} {p : Patch α} {ps : List (Patch α)}

theorem le (h : InOrder n pos ps) : pos ≤ n := by
  induction ps generalizing pos with
  | nil => exact h
  | cons p ps ih => exact (h.1.trans p.offset_le_stop).trans (ih h.2)

theorem pos_le_offset (h : InOrder n pos ps) (hp : p ∈ ps) : pos ≤ p.offset := by
  induction ps generalizing pos with
  | nil => cases hp
  | cons q ps ih =>
    rcases List.mem_cons.mp hp with rfl | hp
    · exact h.1
    · exact (h.1.trans q.offset_le_stop).trans (ih h.2 hp)

theorem stop_le (h : InOrder n pos ps) (hp : p ∈ ps) : p.stop ≤ n := by
  induction ps generalizing pos with
  | nil => cases hp
  | cons q ps ih =>
    rcases List.mem_cons.mp hp with rfl | hp
    · exact h.2.le
    · exact ih h.2 hp

end InOrder

variable {ps : List (Patch α)} {pos : Nat} {n : Nat}

theorem inOrder_iff :
    InOrder n pos ps ↔
      ps.Pairwise (fun p q => p.stop ≤ q.offset) ∧
        (∀ p ∈ ps, pos ≤ p.offset ∧ p.stop ≤ n) ∧ pos ≤ n := by
  induction ps generalizing pos with
  | nil => simp [InOrder]
  | cons p ps ih =>
    rw [InOrder, ih, List.pairwise_cons]
    constructor
    · rintro ⟨hpos, hpair, hall, hstop⟩
      refine ⟨⟨fun q hq => (hall q hq).1, hpair⟩, ?_, (hpos.trans p.offset_le_stop).trans hstop⟩
      intro q hq
      rcases List.mem_cons.mp hq with rfl | hq
      · exact ⟨hpos, hstop⟩
      · exact ⟨(hpos.trans p.offset_le_stop).trans (hall q hq).1, (hall q hq).2⟩
    · rintro ⟨⟨hfirst, hpair⟩, hall, -⟩
      obtain ⟨hpos, hstop⟩ := hall p (List.mem_cons_self ..)
      exact ⟨hpos, hpair, fun q hq => ⟨hfirst q hq, (hall q (List.mem_cons_of_mem _ hq)).2⟩, hstop⟩

variable {base : List α} {start len stop : Nat}

theorem length_splice (h : InOrder base.length pos ps) :
    ((splice base pos ps).length : Int) = base.length - pos + growths ps := by
  induction ps generalizing pos with
  | nil =>
    have hle : pos ≤ base.length := h
    simp [splice]
    omega
  | cons p ps ih =>
    obtain ⟨hpos, hrest⟩ := h
    have hstop := hrest.le
    have hgrow : p.growth = (p.added.length : Int) - p.len := rfl
    have hend : p.stop = p.offset + p.len := rfl
    have hchunk : ((base.take p.offset).drop pos).length = p.offset - pos := by
      simp
      omega
    rw [splice, List.length_append, List.length_append, hchunk, growths_cons]
    push_cast
    rw [ih hrest, hgrow]
    omega

/-! ## Positions -/

/-- How far the patches before `start` push it. -/
def push (ps : List (Patch α)) (start : Nat) : Int :=
  growths (ps.filter (fun p => p.stop ≤ start))

@[simp] theorem push_nil (start : Nat) : push ([] : List (Patch α)) start = 0 := rfl

theorem push_cons (p : Patch α) (ps : List (Patch α)) (start : Nat) :
    push (p :: ps) start = if p.stop ≤ start then p.growth + push ps start else push ps start := by
  by_cases h : p.stop ≤ start <;> simp [push, h]

theorem push_append (ps qs : List (Patch α)) (start : Nat) :
    push (ps ++ qs) start = push ps start + push qs start := by
  simp [push, growths]

theorem push_eq_zero (h : ∀ p ∈ ps, start < p.stop) : push ps start = 0 := by
  rw [push, List.filter_eq_nil_iff.mpr fun p hp => by simpa using h p hp]
  rfl

theorem push_past {p : Patch α} (h : InOrder n p.stop ps)
    (hlt : start < p.stop) : push (p :: ps) start = 0 := by
  refine push_eq_zero fun q hq => ?_
  rcases List.mem_cons.mp hq with rfl | hq
  · exact hlt
  · exact lt_of_lt_of_le hlt ((h.pos_le_offset hq).trans q.offset_le_stop)

theorem push_length (h : InOrder n pos ps) : push ps n = growths ps := by
  rw [push, List.filter_eq_self.mpr fun p hp => by simpa using h.stop_le hp]

theorem le_push (h : InOrder n pos ps) (hle : pos ≤ start) :
    (pos : Int) ≤ start + push ps start := by
  induction ps generalizing pos with
  | nil => simpa using hle
  | cons p ps ih =>
    obtain ⟨hpos, hrest⟩ := h
    by_cases hstop : p.stop ≤ start
    · have hgrow : p.growth = (p.added.length : Int) - p.len := rfl
      have hend : p.stop = p.offset + p.len := rfl
      have := ih hrest hstop
      rw [push_cons, if_pos hstop]
      omega
    · rw [push_past hrest (by omega)]
      omega

/-- No patch meets the window of `len` elements at `start`. -/
def Clear (ps : List (Patch α)) (start len : Nat) : Prop :=
  ∀ p ∈ ps, p.stop ≤ start ∨ start + len ≤ p.offset

/-- **Order is kept**: a clear window stays before what it was before. -/
theorem push_mono {later : Nat} (h : InOrder n pos ps)
    (hclear : Clear ps start len) (hle : start + len ≤ later) :
    (start : Int) + len + push ps start ≤ later + push ps later := by
  induction ps generalizing pos with
  | nil =>
    simp
    omega
  | cons p ps ih =>
    have hrest : Clear ps start len := fun q hq => hclear q (List.mem_cons_of_mem _ hq)
    by_cases hstop : p.stop ≤ start
    · have := ih h.2 hrest
      rw [push_cons, push_cons, if_pos hstop, if_pos (hstop.trans (by omega))]
      omega
    · have hpast : start + len ≤ p.offset :=
        (hclear p (List.mem_cons_self ..)).resolve_left hstop
      have hlater := le_push (show InOrder n (start + len) (p :: ps) from ⟨hpast, h.2⟩) hle
      rw [push_past h.2 (by omega)]
      push_cast at hlater
      omega

theorem push_le (h : InOrder n pos ps) (hclear : Clear ps start len) (hle : start + len ≤ n) :
    (start : Int) + len + push ps start ≤ n + growths ps := by
  have := push_mono h hclear hle
  rwa [push_length h] at this

/-! ## Windows -/

theorem length_chunk {offset : Nat} (h : offset ≤ base.length) :
    ((base.take offset).drop pos).length = offset - pos := by
  rw [List.length_drop, List.length_take, Nat.min_eq_left h]

theorem take_splice (h : InOrder base.length stop ps) :
    (splice base pos ps).take (stop - pos) = (base.take stop).drop pos := by
  cases ps with
  | nil => rw [splice, List.drop_take]
  | cons p ps =>
    have hle := h.1
    have hlen := p.offset_le_stop.trans h.2.le
    rw [splice, List.append_assoc, List.take_append_of_le_length (by rw [length_chunk hlen]; omega),
      List.drop_take, List.drop_take, List.take_take, Nat.min_eq_left (by omega)]

theorem drop_splice (h : InOrder base.length stop ps)
    (hle : pos ≤ stop) : (splice base pos ps).drop (stop - pos) = splice base stop ps := by
  cases ps with
  | nil =>
    rw [splice, splice, List.drop_drop]
    congr 1
    omega
  | cons p ps =>
    have hlen := p.offset_le_stop.trans h.2.le
    rw [splice, splice, List.append_assoc, List.append_assoc,
      List.drop_append_of_le_length (by rw [length_chunk hlen]; have := h.1; omega), List.drop_drop,
      Nat.add_sub_cancel' hle]

theorem drop_splice_cons {p : Patch α} (h : InOrder base.length pos (p :: ps)) :
    (splice base pos (p :: ps)).drop (p.offset - pos + p.added.length) = splice base p.stop ps := by
  have hlen := p.offset_le_stop.trans h.2.le
  have hchunk : ((base.take p.offset).drop pos ++ p.added).length =
      p.offset - pos + p.added.length := by
    rw [List.length_append, length_chunk hlen]
  rw [splice, ← hchunk, List.drop_left]

/-- **A clear window is kept**, where its start was pushed to. -/
theorem take_drop_splice (h : InOrder base.length pos ps)
    (hclear : Clear ps start len) (hpos : pos ≤ start) {d : Nat}
    (hd : (d : Int) = start - pos + push ps start) :
    ((splice base pos ps).drop d).take len = (base.drop start).take len := by
  induction ps generalizing pos d with
  | nil =>
    have hd' : d = start - pos := by
      simp at hd
      omega
    rw [splice, List.drop_drop, hd', Nat.add_sub_cancel' hpos]
  | cons p ps ih =>
    have hgrow : p.growth = (p.added.length : Int) - p.len := rfl
    have hend : p.stop = p.offset + p.len := rfl
    by_cases hstop : p.stop ≤ start
    · rw [push_cons, if_pos hstop] at hd
      have hfirst := h.1
      have hback := le_push h.2 hstop
      have hsplit : d = (p.offset - pos + p.added.length) +
          (d - (p.offset - pos + p.added.length)) := by omega
      rw [hsplit, ← List.drop_drop, drop_splice_cons h]
      exact ih h.2 (fun q hq => hclear q (List.mem_cons_of_mem _ hq)) hstop (by omega)
    · have hpast : start + len ≤ p.offset :=
        (hclear p (List.mem_cons_self ..)).resolve_left hstop
      rw [push_past h.2 (by omega)] at hd
      have hd' : d = start - pos := by omega
      have hwindow : (splice base start (p :: ps)).take (start + len - start) =
          (base.take (start + len)).drop start :=
        take_splice (show InOrder base.length (start + len) (p :: ps) from ⟨hpast, h.2⟩)
      rw [Nat.add_sub_cancel_left, List.drop_take, Nat.add_sub_cancel_left] at hwindow
      rw [hd', drop_splice (show InOrder base.length start (p :: ps) from ⟨by omega, h.2⟩) hpos,
        hwindow]

/-- **A kept element has one origin**: it stood clear of the patches, and was pushed. -/
theorem getElem?_splice {k : Nat} {x : α}
    (h : InOrder base.length pos ps) (hx : ∀ p ∈ ps, x ∉ p.added)
    (hk : (splice base pos ps)[k]? = some x) :
    ∃ i, pos ≤ i ∧ base[i]? = some x ∧ Clear ps i 1 ∧ (k : Int) + pos = i + push ps i := by
  induction ps generalizing pos k with
  | nil =>
    rw [splice, List.getElem?_drop] at hk
    exact ⟨pos + k, Nat.le_add_right _ _, hk, nofun, by simp; omega⟩
  | cons p ps ih =>
    have hgrow : p.growth = (p.added.length : Int) - p.len := rfl
    have hend : p.stop = p.offset + p.len := rfl
    have hfirst := h.1
    have hchunk : ((base.take p.offset).drop pos).length = p.offset - pos :=
      length_chunk (p.offset_le_stop.trans h.2.le)
    rw [splice, List.append_assoc, List.getElem?_append, hchunk] at hk
    split_ifs at hk with hbefore
    · -- before the patch
      rw [List.getElem?_drop, List.getElem?_take_of_lt (by omega)] at hk
      refine ⟨pos + k, Nat.le_add_right _ _, hk, fun q hq => .inr ?_, ?_⟩
      · rcases List.mem_cons.mp hq with rfl | hq
        · omega
        · have := h.2.pos_le_offset hq
          omega
      · rw [push_past h.2 (by omega)]
        push_cast
        ring
    rw [List.getElem?_append] at hk
    split_ifs at hk with hadded
    · exact absurd (List.mem_of_getElem? hk) (hx p (List.mem_cons_self ..))
    · -- past it
      obtain ⟨i, hle, hbase, hclear, hpush⟩ :=
        ih h.2 (fun q hq => hx q (List.mem_cons_of_mem _ hq)) hk
      refine ⟨i, by omega, hbase, List.forall_mem_cons.mpr ⟨.inl hle, hclear⟩, ?_⟩
      rw [push_cons, if_pos hle]
      omega

theorem push_lt_succ {i : Nat} {q : Patch α} (h : InOrder n pos ps)
    (hclear : Clear ps i 1) (hq : q ∈ ps) (hoffset : q.offset = i + 1) (hlen : q.len = 0)
    (hadded : q.added ≠ []) : push ps i < push ps (i + 1) := by
  obtain ⟨xs, ys, rfl⟩ := List.append_of_mem hq
  have hsub : (xs ++ ys).Sublist (xs ++ q :: ys) :=
    (List.Sublist.refl xs).append (List.sublist_cons_self q ys)
  have hrest : InOrder n pos (xs ++ ys) := by
    obtain ⟨hpair, hall, hle⟩ := inOrder_iff.mp h
    exact inOrder_iff.mpr ⟨hpair.sublist hsub, fun p hp => hall p (hsub.subset hp), hle⟩
  have hmono := push_mono hrest (fun p hp => hclear p (hsub.subset hp)) le_rfl
  have hgrow : q.growth = (q.added.length : Int) - q.len := rfl
  have hend : q.stop = q.offset + q.len := rfl
  have hpositive := List.length_pos_iff.mpr hadded
  -- the rest pushes no less at the second, and the patch itself counts only there
  rw [push_append, push_append] at hmono
  rw [push_append, push_append, push_cons, push_cons, if_neg (by omega), if_pos (by omega)]
  push_cast at hmono
  omega

/-- **What no patch removes stays**, in its order. -/
theorem sublist_splice {keep : α → Bool} (h : InOrder base.length pos ps)
    (hkept : ∀ p ∈ ps, ∀ x ∈ (base.drop p.offset).take p.len, keep x = false) :
    ((base.drop pos).filter keep).Sublist ((splice base pos ps).filter keep) := by
  induction ps generalizing pos with
  | nil => exact List.Sublist.refl _
  | cons p ps ih =>
    have hfirst := h.1
    -- the list from `pos`: up to the patch, what the patch removes, the rest
    have hsplit : base.drop pos = (base.take p.offset).drop pos ++
        ((base.drop p.offset).take p.len ++ base.drop p.stop) := by
      rw [Patch.stop, ← List.drop_drop, List.take_append_drop, List.drop_take]
      conv_lhs => rw [← List.take_append_drop (p.offset - pos) (base.drop pos)]
      rw [List.drop_drop, Nat.add_sub_cancel' hfirst]
    have hgone : ((base.drop p.offset).take p.len).filter keep = [] :=
      List.filter_eq_nil_iff.mpr fun x hx => by
        simp [hkept p (List.mem_cons_self ..) x hx]
    rw [hsplit, splice, List.append_assoc, List.filter_append, List.filter_append,
      List.filter_append, List.filter_append, hgone, List.nil_append]
    refine List.Sublist.append (List.Sublist.refl _) ?_
    exact (ih h.2 fun q hq => hkept q (List.mem_cons_of_mem _ hq)).trans
      (List.sublist_append_right _ _)

end Splice

end Slates
