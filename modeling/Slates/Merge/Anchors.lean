import Slates.Merge.Provenance

/-!
Where the ranges and points of a file go (`crates/merge/src/map.rs`). A range is shifted exactly
when its bytes stay together, but for ops of no bytes. For a point the map looks only at the ops
listed before the first that lies past it; one that takes no bytes and lands on the point hides
where it went, and the engine then reads at the base's own offset.
-/

namespace Slates.Merge

/-! ## Anchors -/

/-- How far the effects before a point move it, what is inserted at it included. -/
def netBefore (ops : List Op) (point : Nat) : Int :=
  ((ops.filter (fun op => op.touchedRange.stop ≤ point)).map opGrowth).sum

def pointAfter (point : Nat) (ops : List Op) : Nat := (point + netBefore ops point).toNat

def headPosition (deltas : List (List Op)) (point : Nat) : Nat := deltas.foldl pointAfter point

/-- The op does not lie past the point. -/
def Op.near (point : Nat) (op : Op) : Bool :=
  !(op.kind.isContent && decide (point ≤ op.offset ∧ point < op.touchedRange.stop))

/-- The ops the map looks at for a point: those listed before the first that lies past it. -/
def seen (ops : List Op) (point : Nat) : List Op := ops.takeWhile (Op.near point)

def unseen (ops : List Op) (point : Nat) : List Op := ops.dropWhile (Op.near point)

/-- The op holds the point strictly inside, or takes no bytes and lands on it. -/
def Op.meets (point : Nat) (op : Op) : Bool :=
  op.kind.isContent && op.touchedRange.overlaps ⟨point, 0⟩

/-- Where the map has a point after the deltas. -/
def anchorAt : List (List Op) → Nat → Option Nat
  | [], point => some point
  | ops :: deltas, point =>
    if (seen ops point).any (Op.meets point) then none
    else anchorAt deltas (pointAfter point (seen ops point))

def OpKind.inserts : OpKind → Bool
  | .insert | .extend => true
  | _ => false

/-- No op holds the point strictly inside, and no insertion lands on it. -/
def Misses (ops : List Op) (point : Nat) : Prop :=
  ∀ op ∈ ops, ¬ (op.offset < point ∧ point < op.touchedRange.stop) ∧
    ¬ (op.kind.inserts ∧ op.offset = point)

def AnchorClear : List (List Op) → Nat → Prop
  | [], _ => True
  | ops :: deltas, point => Misses ops point ∧ AnchorClear deltas (pointAfter point ops)

/-- Some insertion on the point is listed after an op that lies past the point. -/
def Overlooks : List (List Op) → Nat → Prop
  | [], _ => False
  | ops :: deltas, point =>
    (∃ op ∈ unseen ops point, op.kind.inserts ∧ op.offset = point) ∨
      Overlooks deltas (pointAfter point (seen ops point))

/-- Some content op on the point has no bytes, and is no insertion. -/
def Stumbles : List (List Op) → Nat → Prop
  | [], _ => False
  | ops :: deltas, point =>
    (∃ op ∈ seen ops point, op.touchedRange.len = 0 ∧ op.kind.isContent ∧ !op.kind.inserts ∧
        op.offset = point) ∨
      Stumbles deltas (pointAfter point ops)

section Anchors

variable {ops : List Op} {deltas : List (List Op)} {point : Nat}

theorem range_of_effectOf {op : Op} {offset oldLen newLen : Nat}
    (h : effectOf op = some (offset, oldLen, newLen)) :
    Range.mk offset oldLen = op.touchedRange := by
  cases hk : op.kind <;> simp_all [effectOf, Op.touchedRange]

theorem netBefore_cons (op : Op) (ops : List Op) (point : Nat) : netBefore (op :: ops) point =
    (if op.touchedRange.stop ≤ point then opGrowth op else 0) + netBefore ops point := by
  unfold netBefore
  rw [List.filter_cons]
  split_ifs <;> simp_all

theorem netBefore_append (ops ops' : List Op) (point : Nat) :
    netBefore (ops ++ ops') point = netBefore ops point + netBefore ops' point := by
  simp [netBefore]

theorem netBefore_perm {ops' : List Op} (h : ops'.Perm ops) (point : Nat) :
    netBefore ops' point = netBefore ops point :=
  ((h.filter _).map _).sum_eq

/-- **A range that no op meets** is moved by what lies before it. -/
theorem shiftThrough_clear {range : Range} {shift : Int}
    (hclear : ∀ op ∈ ops, op.touchedRange.overlaps range = false)
    (hsorted : ops.Pairwise (fun a b => a.offset ≤ b.offset)) :
    shiftThrough range ops shift = some (shift + netBefore ops range.start) := by
  induction ops generalizing shift with
  | nil => simp [shiftThrough, netBefore]
  | cons op ops ih =>
    obtain ⟨hover, hrest⟩ := List.forall_mem_cons.mp hclear
    obtain ⟨hfirst, hsorted⟩ := List.pairwise_cons.mp hsorted
    have hnet := netBefore_cons op ops range.start
    cases heff : effectOf op with
    | none =>
      have hzero : opGrowth op = 0 := by rw [opGrowth, heff]
      simp only [shiftThrough, heff]
      rw [ih hrest hsorted, hnet, hzero, ite_self, zero_add]
    | some effect =>
      obtain ⟨offset, oldLen, newLen⟩ := effect
      obtain ⟨rfl, hstop⟩ := touchedRange_of_effectOf heff
      have hstart := op.touchedRange_start
      have hend := op.touchedRange.stop_eq
      have hat : Range.mk op.offset oldLen = op.touchedRange := range_of_effectOf heff
      simp only [shiftThrough, heff, hat, hover, Bool.false_eq_true, if_false]
      have hside := Range.not_overlaps_iff.mp hover
      by_cases hbefore : op.touchedRange.stop ≤ range.start
      · rw [if_pos (by omega), ih hrest hsorted, hnet, if_pos hbefore, opGrowth, heff, add_assoc]
      · -- the rest lies further still
        have hpast : netBefore ops range.start = 0 := by
          rw [netBefore, List.filter_eq_nil_iff.mpr fun q hq hle => ?_]
          · rfl
          have hend := q.touchedRange.stop_eq
          have hspan := range.stop_eq
          have := of_decide_eq_true hle
          have := (Range.not_overlaps_iff.mp (hrest q hq)).2
          have := hfirst q hq
          have := q.touchedRange_start
          omega
        rw [if_neg (by omega), if_pos (by omega), hnet, if_neg hbefore, hpast]
        simp

/-- **A range that an op meets**, where no op met comes after one at which the map stops. -/
theorem shiftThrough_met {range : Range} {shift : Int} {op : Op}
    (hsorted : ops.Pairwise (fun a b => a.offset ≤ b.offset)) (hop : op ∈ ops)
    (hcontent : op.kind.isContent = true) (hover : op.touchedRange.overlaps range = true)
    (hstop : ∀ a ∈ ops, range.stop ≤ a.offset → op.offset < a.offset) :
    shiftThrough range ops shift = none := by
  induction ops generalizing shift with
  | nil => cases hop
  | cons first ops ih =>
    obtain ⟨hfirst, hsorted⟩ := List.pairwise_cons.mp hsorted
    obtain ⟨hhere, hstop⟩ := List.forall_mem_cons.mp hstop
    have hlater : ∀ {shift : Int}, op ∈ ops → shiftThrough range ops shift = none :=
      fun hmem => ih hsorted hmem hstop
    cases heff : effectOf first with
    | none =>
      rcases List.mem_cons.mp hop with rfl | hop
      · cases hk : op.kind <;> simp [effectOf, OpKind.isContent, hk] at heff hcontent
      · simp only [shiftThrough, heff]
        exact hlater hop
    | some effect =>
      obtain ⟨offset, oldLen, newLen⟩ := effect
      rw [shiftThrough, heff]
      dsimp only
      rw [range_of_effectOf heff]
      obtain ⟨rfl, hends⟩ := touchedRange_of_effectOf heff
      rcases List.mem_cons.mp hop with rfl | hop
      · rw [if_pos hover]
      split_ifs with hmeets hbefore hpast
      · rfl
      · exact hlater hop
      · exact absurd (hhere hpast) (not_lt.mpr (hfirst op hop))
      · exact hlater hop

/-- **What the map does with a point**, whatever the ops. -/
theorem shiftThrough_point (shift : Int) :
    shiftThrough ⟨point, 0⟩ ops shift =
      if (seen ops point).any (Op.meets point) then none
      else some (shift + netBefore (seen ops point) point) := by
  induction ops generalizing shift with
  | nil => simp [shiftThrough, seen, netBefore]
  | cons op ops ih =>
    cases heff : effectOf op with
    | none =>
      have hzero : opGrowth op = 0 := by rw [opGrowth, heff]
      have hkind : op.kind.isContent = false := by
        cases hk : op.kind <;> simp [effectOf, OpKind.isContent, hk] at heff ⊢
      have hseen : seen (op :: ops) point = op :: seen ops point := by simp [seen, Op.near, hkind]
      rw [shiftThrough, heff, hseen, List.any_cons, Op.meets, hkind, netBefore_cons, hzero,
        ite_self, zero_add]
      exact ih shift
    | some effect =>
      obtain ⟨offset, oldLen, newLen⟩ := effect
      have hkind : op.kind.isContent = true := by
        cases hk : op.kind <;> simp [effectOf, OpKind.isContent, hk] at heff ⊢
      rw [shiftThrough, heff]
      dsimp only
      rw [range_of_effectOf heff]
      have hgrowth : opGrowth op = (newLen : Int) - oldLen := by rw [opGrowth, heff]
      obtain ⟨rfl, hends⟩ := touchedRange_of_effectOf heff
      have hstart := op.touchedRange_start
      have hend := op.touchedRange.stop_eq
      have hfrom : (Range.mk point 0).start = point := rfl
      have hpoint : (Range.mk point 0).stop = point := rfl
      cases hover : op.touchedRange.overlaps ⟨point, 0⟩ with
      | true =>
        have hnear : ¬ (point ≤ op.offset ∧ point < op.touchedRange.stop) := by
          rintro ⟨hle, hlt⟩
          have hapart : op.touchedRange.overlaps ⟨point, 0⟩ = false :=
            Range.not_overlaps_iff.mpr ⟨.inr (by omega), fun hboth => by omega⟩
          rw [hapart] at hover
          cases hover
        have hseen : seen (op :: ops) point = op :: seen ops point := by
          rw [seen, List.takeWhile_cons, if_pos (by simp only [Op.near, hkind]; simp; omega)]
          rfl
        rw [if_pos rfl, hseen, List.any_cons, Op.meets, hkind, hover]
        rfl
      | false =>
        rw [if_neg (by simp)]
        have hside := Range.not_overlaps_iff.mp hover
        by_cases hbefore : op.touchedRange.stop ≤ point
        · have hseen : seen (op :: ops) point = op :: seen ops point := by
            rw [seen, List.takeWhile_cons, if_pos (by simp only [Op.near, hkind]; simp; omega)]
            rfl
          rw [if_pos (by omega), ih, hseen, List.any_cons, Op.meets, hkind, hover,
            netBefore_cons, if_pos hbefore, hgrowth, add_assoc]
          rfl
        · have hseen : seen (op :: ops) point = [] := by
            rw [seen, List.takeWhile_cons, if_neg (by simp only [Op.near, hkind]; simp; omega)]
          rw [if_neg (by omega), if_pos (by rw [hpoint]; omega), hseen]
          simp [netBefore]

theorem mapThroughOne_point :
    mapThroughOne ops ⟨point, 0⟩ = if (seen ops point).any (Op.meets point) then .overlaps
      else .shifted ⟨pointAfter point (seen ops point), 0⟩ := by
  rw [mapThroughOne, shiftThrough_point]
  split_ifs
  · rfl
  · rw [zero_add]
    rfl

/-- **Where the map has a point.** -/
theorem mapRange_point :
    mapRange deltas ⟨point, 0⟩ =
      (anchorAt deltas point).elim .overlaps fun head => .shifted ⟨head, 0⟩ := by
  induction deltas generalizing point with
  | nil => rfl
  | cons ops deltas ih =>
    rw [mapRange, mapThroughOne_point, anchorAt]
    split_ifs
    · rfl
    · exact ih

/-- A point that all the ops miss is passed, unless an op of no bytes is on it. -/
theorem passes_iff (hmiss : Misses ops point) :
    (seen ops point).any (Op.meets point) = false ↔
      ¬ ∃ op ∈ seen ops point, op.touchedRange.len = 0 ∧ op.kind.isContent ∧ !op.kind.inserts ∧
        op.offset = point := by
  rw [← Bool.not_eq_true, not_iff_not, List.any_eq_true]
  refine exists_congr fun op => and_congr_right fun hop => ?_
  obtain ⟨hinside, hinsert⟩ := hmiss op ((List.takeWhile_sublist _).subset hop)
  have hstart := op.touchedRange_start
  have hend := op.touchedRange.stop_eq
  rw [Op.meets, Bool.and_eq_true, ← Bool.not_eq_false (Range.overlaps _ _), Range.not_overlaps_iff]
  dsimp only [Range.stop] at hinside hend ⊢
  cases hk : op.kind <;>
    simp [OpKind.isContent, OpKind.inserts, Op.touchedRange, hk] at hinside hinsert hstart ⊢ <;>
    omega

/-! ### Sorted deltas -/

variable (hsorted : ops.Pairwise (fun a b => a.offset ≤ b.offset))

include hsorted

/-- What the map does not look at starts at the point or past it. -/
theorem le_of_mem_unseen {op : Op} (hop : op ∈ unseen ops point) :
    point ≤ op.offset := by
  induction ops with
  | nil => simp [unseen] at hop
  | cons first ops ih =>
    obtain ⟨hfirst, hsorted⟩ := List.pairwise_cons.mp hsorted
    rw [unseen, List.dropWhile_cons] at hop
    split_ifs at hop with hpast
    · exact ih hsorted hop
    · have hle : point ≤ first.offset := by
        simp only [Op.near, Bool.not_eq_true', Bool.not_eq_false, Bool.and_eq_true,
          decide_eq_true_eq] at hpast
        exact hpast.2.1
      rcases List.mem_cons.mp hop with rfl | hop
      · exact hle
      · exact hle.trans (hfirst op hop)

/-- Where the rest has no insertion on the point it does not move it. -/
theorem pointAfter_seen (hrest : ∀ op ∈ unseen ops point,
    ¬ (op.kind.inserts ∧ op.offset = point)) :
    pointAfter point ops = pointAfter point (seen ops point) := by
  have hsplit : seen ops point ++ unseen ops point = ops := List.takeWhile_append_dropWhile
  have hzero : netBefore (unseen ops point) point = 0 := by
    rw [netBefore]
    refine List.sum_eq_zero fun growth hgrowth => ?_
    obtain ⟨op, hop, rfl⟩ := List.mem_map.mp hgrowth
    obtain ⟨hop, hbefore⟩ := List.mem_filter.mp hop
    have hbefore := of_decide_eq_true hbefore
    have hle := le_of_mem_unseen hsorted hop
    have hno := hrest op hop
    have hend := op.touchedRange.stop_eq
    have hstart := op.touchedRange_start
    have hat : op.offset = point := by omega
    have hempty : op.touchedRange.len = 0 := by omega
    cases hk : op.kind <;> simp [opGrowth, effectOf, Op.touchedRange, OpKind.inserts, hk, hat]
      at hempty hno ⊢ <;> omega
  rw [pointAfter, pointAfter]
  nth_rewrite 1 [← hsplit]
  rw [netBefore_append, hzero, add_zero]

/-- A point the map passes is missed by all the ops, unless an insertion on it is not looked at. -/
theorem misses_iff (hpass : (seen ops point).any (Op.meets point) = false) :
    Misses ops point ↔ ∀ op ∈ unseen ops point, ¬ (op.kind.inserts ∧ op.offset = point) := by
  have hsplit : seen ops point ++ unseen ops point = ops := List.takeWhile_append_dropWhile
  constructor
  · intro hmiss op hop
    exact (hmiss op (hsplit ▸ List.mem_append_right _ hop)).2
  · intro hrest op hop
    have hstart := op.touchedRange_start
    have hend := op.touchedRange.stop_eq
    rw [← hsplit, List.mem_append] at hop
    rcases hop with hop | hop
    · have hmeets := List.any_eq_false.mp hpass op hop
      rw [Op.meets, Bool.and_eq_true, not_and, Bool.not_eq_true, Range.not_overlaps_iff] at hmeets
      dsimp only [Range.stop] at hmeets hend ⊢
      cases hk : op.kind <;>
        simp [OpKind.isContent, OpKind.inserts, Op.touchedRange, hk] at hmeets hstart ⊢ <;> omega
    · have hle := le_of_mem_unseen hsorted hop
      exact ⟨by omega, hrest op hop⟩

omit hsorted

variable (hdeltas : ∀ ops ∈ deltas, ops.Pairwise (fun a b => a.offset ≤ b.offset))

include hdeltas

theorem anchorClear_iff (hpass : (anchorAt deltas point).isSome) :
    AnchorClear deltas point ↔ ¬ Overlooks deltas point := by
  induction deltas generalizing point with
  | nil => simp [AnchorClear, Overlooks]
  | cons ops deltas ih =>
    obtain ⟨hsorted, hdeltas⟩ := List.forall_mem_cons.mp hdeltas
    rw [anchorAt] at hpass
    split_ifs at hpass with hmet
    · cases hpass
    rw [AnchorClear, Overlooks, not_or, ← ih hdeltas hpass,
      misses_iff hsorted (by simpa using hmet)]
    refine (and_congr_left' ?_).trans (and_congr_right fun hrest => ?_)
    · push Not
      rfl
    · rw [pointAfter_seen hsorted (by push Not at hrest ⊢; exact hrest)]

/-- **A clear point** is moved by what lies before it, or hidden by an op of no bytes. -/
theorem anchorAt_of_clear (hclear : AnchorClear deltas point) :
    (¬ Stumbles deltas point → anchorAt deltas point = some (headPosition deltas point)) ∧
      (Stumbles deltas point → anchorAt deltas point = none) := by
  induction deltas generalizing point with
  | nil => exact ⟨fun _ => rfl, False.elim⟩
  | cons ops deltas ih =>
    obtain ⟨hsorted, hdeltas⟩ := List.forall_mem_cons.mp hdeltas
    have hafter : pointAfter point ops = pointAfter point (seen ops point) :=
      pointAfter_seen hsorted fun op hop =>
        (hclear.1 op ((List.dropWhile_sublist _).subset hop)).2
    obtain ⟨hgoes, hstops⟩ := ih hdeltas hclear.2
    rw [hafter] at hgoes hstops
    have hpasses := passes_iff hclear.1
    rw [Stumbles, anchorAt, hafter]
    split_ifs with hmet
    · have hon := not_not.mp (mt hpasses.mpr (by simp [hmet]))
      exact ⟨fun hno => absurd (.inl hon) hno, fun _ => rfl⟩
    · have hoff := hpasses.mp (by simpa using hmet)
      refine ⟨fun hno => ?_, fun hst => hstops (hst.resolve_left hoff)⟩
      rw [hgoes fun hst => hno (.inr hst), headPosition, headPosition, List.foldl_cons, hafter]

/-- **The map of a point is right**, exactly unless it passes an insertion it did not look at, or an
op of no bytes stops it. -/
theorem isSome_anchorAt_iff : ((anchorAt deltas point).isSome ↔ AnchorClear deltas point) ↔
    ¬ ((anchorAt deltas point).isSome ∧ Overlooks deltas point) ∧
      ¬ (AnchorClear deltas point ∧ Stumbles deltas point) := by
  have hseen : (anchorAt deltas point).isSome →
      (AnchorClear deltas point ↔ ¬ Overlooks deltas point) := anchorClear_iff hdeltas
  have hclear : AnchorClear deltas point →
      ((anchorAt deltas point).isSome ↔ ¬ Stumbles deltas point) := by
    intro hclear
    obtain ⟨hgoes, hstops⟩ := anchorAt_of_clear hdeltas hclear
    refine ⟨fun hsome hst => ?_, fun hno => by rw [hgoes hno]; rfl⟩
    rw [hstops hst] at hsome
    cases hsome
  tauto

end Anchors

/-! ## Provenance -/

/-- The tags of an op's own bytes: none of them is of the base. -/
def Op.fresh (op : Op) : List (Option Nat) :=
  if op.kind.addsContent then List.replicate op.len none else []

/-- At one offset what takes no bytes comes first. -/
def Op.Before (a b : Op) : Prop :=
  a.offset < b.offset ∨ a.offset = b.offset ∧ a.touchedRange.len ≤ b.touchedRange.len

instance : DecidableRel Op.Before := fun _ _ => inferInstanceAs (Decidable (_ ∨ _))

def arranged (ops : List Op) : List Op := ops.insertionSort Op.Before

def patches (ops : List Op) : List (Patch (Option Nat)) :=
  (arranged ops).map (Op.patchWith Op.fresh)

/-- Where the bytes of the next version come from, tagged with their place in the base. -/
def carry (tags : List (Option Nat)) (ops : List Op) : List (Option Nat) :=
  splice tags 0 (patches ops)

/-- The base bytes of `range` stand together at `start`. -/
def StandsAt (range : Range) (tags : List (Option Nat)) (start : Nat) : Prop :=
  (tags.drop start).take range.len = (List.range' range.start range.len).map some

/-- Content ops in bounds, sorted by offset, no two of which overlap. -/
structure Laid (n : Nat) (ops : List Op) : Prop where
  content : ∀ op ∈ ops, op.kind.isContent = true
  sorted : ops.Pairwise (fun a b => a.offset ≤ b.offset)
  apart : ops.Pairwise (fun a b => a.touchedRange.overlaps b.touchedRange = false)
  inside : ∀ op ∈ ops, op.touchedRange.stop ≤ n

/-- Every delta is laid out for the version it changes. -/
def Tracked : List (Option Nat) → List (List Op) → Prop
  | _, [] => True
  | tags, ops :: deltas => Laid tags.length ops ∧ Tracked (carry tags ops) deltas

/-- In some version an op of no bytes lies strictly inside the range. -/
def Pricked (range : Range) : List (Option Nat) → List (List Op) → Prop
  | _, [] => False
  | tags, ops :: deltas =>
    (∃ start, StandsAt range tags start ∧
      ∃ op ∈ ops, op.len = 0 ∧ start < op.offset ∧ op.offset < start + range.len) ∨
      Pricked range (carry tags ops) deltas

/-- A base position stands in one place only. -/
def Untwinned (tags : List (Option Nat)) : Prop :=
  ∀ i j t : Nat, tags[i]? = some (some t) → tags[j]? = some (some t) → i = j

section Tags

variable {tags : List (Option Nat)} {ops : List Op} {op : Op} {range : Range} {start : Nat}

theorem mem_arranged : op ∈ arranged ops ↔ op ∈ ops := List.mem_insertionSort _

theorem arranged_before (ops : List Op) : (arranged ops).Pairwise Op.Before := by
  have : Std.Total Op.Before := ⟨fun a b => by unfold Op.Before; omega⟩
  have : IsTrans Op Op.Before := ⟨fun a b c => by unfold Op.Before; omega⟩
  exact List.pairwise_insertionSort _ ops

theorem Laid.records (h : Laid tags.length ops) : Records (arranged ops) (patches ops) := by
  rw [Records, patches, List.map_map]
  refine List.map_congr_left fun op hop =>
    effectOf_patchWith (h.content op (mem_arranged.mp hop)) ?_
  unfold Op.fresh
  split <;> simp

/-- Arranged, each op ends before the next one starts. -/
theorem Laid.stop_le (h : Laid tags.length ops) :
    (arranged ops).Pairwise (fun a b => a.touchedRange.stop ≤ b.offset) := by
  have hapart : (arranged ops).Pairwise
      (fun a b => a.touchedRange.overlaps b.touchedRange = false) := by
    refine (List.perm_insertionSort _ ops).symm.pairwise h.apart fun {a b} hab => ?_
    rw [Range.not_overlaps_iff] at hab ⊢
    omega
  refine ((arranged_before ops).and hapart).imp fun {a b} ⟨hbefore, hab⟩ => ?_
  have hside := Range.not_overlaps_iff.mp hab
  have ha := a.touchedRange_start
  have hb := b.touchedRange_start
  unfold Op.Before at hbefore
  unfold Range.stop at hside ⊢
  omega

theorem Laid.inOrder (h : Laid tags.length ops) : InOrder tags.length 0 (patches ops) := by
  refine inOrder_iff.mpr
    ⟨List.pairwise_map.mpr (h.stop_le.imp fun {a b} hab => ?_), ?_, Nat.zero_le _⟩
  · rwa [a.patchWith_stop]
  · intro p hp
    obtain ⟨op, hop, rfl⟩ := List.mem_map.mp hp
    exact ⟨Nat.zero_le _, (op.patchWith_stop _).trans_le (h.inside op (mem_arranged.mp hop))⟩

theorem Laid.origin (h : Laid tags.length ops) {k t : Nat}
    (hk : (carry tags ops)[k]? = some (some t)) :
    ∃ i, tags[i]? = some (some t) ∧ Clear (patches ops) i 1 ∧
      (k : Int) = i + push (patches ops) i := by
  obtain ⟨i, -, htag, hclear, hpush⟩ := getElem?_splice h.inOrder (fun p hp => by
    obtain ⟨op, -, rfl⟩ := List.mem_map.mp hp
    simp [Op.patchWith, Op.fresh]) hk
  exact ⟨i, htag, hclear, by simpa using hpush⟩

theorem Untwinned.carry (hone : Untwinned tags) (h : Laid tags.length ops) :
    Untwinned (carry tags ops) := by
  intro i j t hi hj
  obtain ⟨i', hi', -, hpush⟩ := h.origin hi
  obtain ⟨j', hj', -, hpush'⟩ := h.origin hj
  cases hone i' j' t hi' hj'
  omega

theorem StandsAt.getElem? (h : StandsAt range tags start) {j : Nat} (hj : j < range.len) :
    tags[start + j]? = some (some (range.start + j)) := by
  have := congrArg (·[j]?) h
  simpa [List.getElem?_take_of_lt hj, List.getElem?_range' hj] using this

/-- **One delta, seen from the bytes**: a range still together was met by no op of some bytes. -/
theorem Laid.apart_of_standsAt (h : Laid tags.length ops) (hone : Untwinned tags)
    (hlen : 0 < range.len) (hat : StandsAt range tags start) {k : Nat}
    (hk : StandsAt range (carry tags ops) k) (hop : op ∈ ops) (hsome : 0 < op.len) :
    op.touchedRange.overlaps ⟨start, range.len⟩ = false := by
  have hbyte : ∀ j < range.len, Clear (patches ops) (start + j) 1 ∧
      (k : Int) = start + push (patches ops) (start + j) := by
    intro j hj
    obtain ⟨i, htag, hclear, hpush⟩ := h.origin (hk.getElem? hj)
    cases hone i (start + j) _ htag (hat.getElem? hj)
    exact ⟨hclear, by push_cast at hpush; omega⟩
  have hp : op.patchWith Op.fresh ∈ patches ops := List.mem_map_of_mem (mem_arranged.mpr hop)
  have hend : (op.patchWith Op.fresh).stop =
      (op.patchWith Op.fresh).offset + (op.patchWith Op.fresh).len := rfl
  have hstop := op.patchWith_stop Op.fresh
  refine Range.not_overlaps_iff.mpr ⟨?_, fun hempty => hlen.ne' hempty.2.1⟩
  rw [op.touchedRange_start, ← hstop]
  by_contra hmeets
  change ¬ (_ ∨ start + range.len ≤ (op.patchWith Op.fresh).offset) at hmeets
  change ¬ ((op.patchWith Op.fresh).stop ≤ start ∨ _) at hmeets
  -- it misses every byte, so it inserts between two of them
  have hfirst := (hbyte 0 hlen).1 _ hp
  obtain ⟨j, hj⟩ : ∃ j, (op.patchWith Op.fresh).offset = start + j + 1 :=
    ⟨(op.patchWith Op.fresh).offset - start - 1, by omega⟩
  have hnext := (hbyte (j + 1) (by omega)).1 _ hp
  have hempty : (op.patchWith Op.fresh).len = 0 := by omega
  have hadded : (op.patchWith Op.fresh).added ≠ [] := by
    have hkind := h.content op hop
    cases hk : op.kind <;>
      simp [hk, Op.patchWith, Op.touchedRange, OpKind.isContent] at hkind hempty <;>
      simp [Op.patchWith, Op.fresh, OpKind.addsContent, hk] <;> omega
  have hparted := push_lt_succ h.inOrder (hbyte j (by omega)).1 hp hj hempty hadded
  have hhere := (hbyte j (by omega)).2
  have hthere := (hbyte (j + 1) (by omega)).2
  rw [← add_assoc] at hthere
  omega

/-- A range that no op meets goes where the arranged ops push it. -/
theorem Laid.standsAt (h : Laid tags.length ops) (hat : StandsAt range tags start)
    (hclear : ∀ op ∈ ops, op.touchedRange.overlaps ⟨start, range.len⟩ = false) :
    ∃ k, mapThroughOne ops ⟨start, range.len⟩ = .shifted ⟨k, range.len⟩ ∧
      StandsAt range (Merge.carry tags ops) k := by
  have hmap : mapThroughOne (arranged ops) ⟨start, range.len⟩ =
      mapThroughOne ops ⟨start, range.len⟩ := by
    have hsorted : (arranged ops).Pairwise (fun a b => a.offset ≤ b.offset) :=
      (arranged_before ops).imp fun {a b} hab => by unfold Op.Before at hab; omega
    rw [mapThroughOne, mapThroughOne, shiftThrough_clear hclear h.sorted,
      shiftThrough_clear (fun op hop => hclear op (mem_arranged.mp hop)) hsorted,
      netBefore_perm (show (arranged ops).Perm ops from List.perm_insertionSort _ ops)]
  have hshifted : ∃ k, mapThroughOne ops ⟨start, range.len⟩ = .shifted ⟨k, range.len⟩ := by
    rw [mapThroughOne, shiftThrough_clear hclear h.sorted]
    exact ⟨_, rfl⟩
  obtain ⟨k, hk⟩ := hshifted
  refine ⟨k, hk, ?_⟩
  rw [← hmap] at hk
  obtain ⟨-, hstart, hmissed, -⟩ := mapThroughOne_eq_shifted h.records h.inOrder hk
  dsimp only at hstart hmissed
  exact (take_drop_splice h.inOrder hmissed (Nat.zero_le _) (by push_cast; omega)).trans hat

/-- A range of some bytes that an op meets: the map says so wherever the op is listed. -/
theorem Laid.overlaps (h : Laid tags.length ops) (hlen : 0 < range.len) (hop : op ∈ ops)
    (hover : op.touchedRange.overlaps ⟨start, range.len⟩ = true) :
    mapThroughOne ops ⟨start, range.len⟩ = .overlaps := by
  have hstart := op.touchedRange_start
  rw [mapThroughOne, shiftThrough_met h.sorted hop (h.content op hop) hover fun a _ hpast => ?_]
  by_contra hle
  have hapart : op.touchedRange.overlaps ⟨start, range.len⟩ = false :=
    Range.not_overlaps_iff.mpr ⟨.inr (by omega), fun hboth => hlen.ne' hboth.2.1⟩
  rw [hapart] at hover
  cases hover

/-- **The map of a range**: its bytes stay together, and no op of no bytes lies inside. -/
theorem mapRange_shifted_iff {deltas : List (List Op)} (hone : Untwinned tags)
    (hlen : 0 < range.len) (ht : Tracked tags deltas) (hat : StandsAt range tags start)
    (r : Range) :
    mapRange deltas ⟨start, range.len⟩ = .shifted r ↔
      ((∀ version ∈ deltas.scanl carry tags, ∃ k, StandsAt range version k) ∧
        r.len = range.len ∧ StandsAt range (deltas.foldl carry tags) r.start) ∧
        ¬ Pricked range tags deltas := by
  have hsame : ∀ k, StandsAt range tags k → k = start := fun k hk =>
    hone _ _ _ (hk.getElem? hlen) (hat.getElem? hlen)
  induction deltas generalizing tags start with
  | nil =>
    simp only [mapRange, List.scanl_nil, List.mem_singleton, forall_eq, List.foldl_nil, Pricked,
      not_false_eq_true, and_true]
    constructor
    · rintro ⟨⟩
      exact ⟨⟨start, hat⟩, rfl, hat⟩
    · rintro ⟨-, hl, hr⟩
      cases r
      cases hl
      cases hsame _ hr
      rfl
  | cons ops deltas ih =>
    rw [mapRange, List.scanl_cons, List.foldl_cons, List.forall_mem_cons, Pricked]
    by_cases hclear : ∀ op ∈ ops, op.touchedRange.overlaps ⟨start, range.len⟩ = false
    · obtain ⟨k, hmap, hk⟩ := ht.1.standsAt hat hclear
      have hunpricked : ¬ ∃ at', StandsAt range tags at' ∧
          ∃ op ∈ ops, op.len = 0 ∧ at' < op.offset ∧ op.offset < at' + range.len := by
        rintro ⟨at', hat', op, hop, -, hafter, hbefore⟩
        cases hsame _ hat'
        have hside := (Range.not_overlaps_iff.mp (hclear op hop)).1
        have hstart := op.touchedRange_start
        dsimp only [Range.stop] at hside
        omega
      have hnext := hone.carry ht.1
      have hrest := ih hnext ht.2 hk fun k' hk' =>
        hnext _ _ _ (hk'.getElem? hlen) (hk.getElem? hlen)
      have hhere : ∃ k, StandsAt range tags k := ⟨start, hat⟩
      simp only [hmap]
      rw [not_or, and_iff_right hunpricked, and_iff_right hhere]
      exact hrest
    · push Not at hclear
      obtain ⟨op, hop, hmeets⟩ := hclear
      have hover : op.touchedRange.overlaps ⟨start, range.len⟩ = true := by simpa using hmeets
      simp only [ht.1.overlaps hlen hop hover, reduceCtorEq, false_iff]
      rintro ⟨⟨⟨-, hall⟩, -⟩, hno⟩
      obtain ⟨k, hk⟩ := hall (carry tags ops) (by cases deltas <;> simp)
      refine hno (.inl ⟨start, hat, op, hop, ?_⟩)
      have hempty : op.len = 0 := by
        by_contra hsome
        rw [ht.1.apart_of_standsAt hone hlen hat hk hop (Nat.pos_of_ne_zero hsome)] at hover
        cases hover
      have hstart := op.touchedRange_start
      have htouched : op.touchedRange.len = 0 := by
        cases hkind : op.kind <;> simp [Op.touchedRange, hkind, hempty]
      refine ⟨hempty, ?_⟩
      by_contra hout
      have hapart : op.touchedRange.overlaps ⟨start, range.len⟩ = false := by
        refine Range.not_overlaps_iff.mpr ⟨?_, fun hboth => hlen.ne' hboth.2.1⟩
        dsimp only [Range.stop]
        omega
      rw [hapart] at hover
      cases hover

end Tags

def baseTags (n : Nat) : List (Option Nat) := (List.range n).map some

theorem standsAt_baseTags {n : Nat} {range : Range} (h : range.stop ≤ n) :
    StandsAt range (baseTags n) range.start := by
  unfold Range.stop at h
  refine List.ext_getElem ?_ ?_ <;> simp [baseTags]
  omega

theorem Tracked.sorted {tags : List (Option Nat)} {deltas : List (List Op)}
    (h : Tracked tags deltas) :
    ∀ ops ∈ deltas, ops.Pairwise (fun a b => a.offset ≤ b.offset) := by
  induction deltas generalizing tags with
  | nil => nofun
  | cons ops deltas ih => exact List.forall_mem_cons.mpr ⟨h.1.sorted, ih h.2⟩

theorem untwinned_baseTags (n : Nat) : Untwinned (baseTags n) := by
  intro i j t hi hj
  simp only [baseTags, List.getElem?_map, Option.map_eq_some_iff, Option.some.injEq,
    exists_eq_right, List.getElem?_eq_some_iff, List.getElem_range] at hi hj
  obtain ⟨-, rfl⟩ := hi
  exact hj.2.symm

theorem foldl_mem_scanl (tags : List (Option Nat)) (deltas : List (List Op)) :
    deltas.foldl carry tags ∈ deltas.scanl carry tags := by
  induction deltas generalizing tags with
  | nil => simp
  | cons ops deltas ih =>
    rw [List.foldl_cons, List.scanl_cons]
    exact List.mem_cons_of_mem _ (ih _)

namespace Green

theorem errWindows_overwrites {g : Green} {inc : Increment} {path : Path} {ops : List Op}
    {current : Bytes} (hcurrent : g.content.current[path]? = some current)
    (hkinds : ∀ op ∈ ops, (movedOp (g.deltasSince inc.base path) op).isNone = true →
      op.kind = .overwrite) :
    errWindows ((g.mergeContent inc path ops).map Option.toList) =
      ((ops.filter (fun op => (movedOp (g.deltasSince inc.base path) op).isNone)).filter (fun op =>
        !identicalSpan (g.deltasSince inc.base path) current inc.postState op)).map
          (fun op => ⟨path, op.touchedRange, .overlap⟩) := by
  have hfind : (ops.filter (fun op => (movedOp (g.deltasSince inc.base path) op).isNone)).find?
      (fun op => op.kind != .overwrite) = none :=
    List.find?_eq_none.mpr fun op hop => by
      simpa using hkinds op (List.mem_filter.mp hop).1 (List.mem_filter.mp hop).2
  simp only [mergeContent, hcurrent, hfind]
  split_ifs with hdiffers hmapped
  · rfl
  · rw [not_not.mp hdiffers]
    rfl
  · rw [not_not.mp hdiffers]
    rfl

/-- The head has the agent's bytes at `start`. -/
def HasAt (current agent : Bytes) (start : Nat) : Prop :=
  start + agent.length ≤ current.length ∧ spanBytes current start agent.length = agent

instance (current agent : Bytes) (start : Nat) : Decidable (HasAt current agent start) :=
  inferInstanceAs (Decidable (_ ∧ _))

/-- Where pass two reads: where the map has the start, or the base's own offset. -/
def readAt (deltas : List (List Op)) (point : Nat) : Nat := (anchorAt deltas point).getD point

theorem identicalSpan_iff {deltas : List (List Op)} {current postState : Bytes} {op : Op} :
    identicalSpan deltas current postState op = true ↔
      HasAt current (spanBytes postState op.src op.len) (readAt deltas op.offset) := by
  rw [identicalSpan, mapRange_point, readAt]
  cases anchorAt deltas op.offset <;>
    simp only [Option.elim, Option.getD, Bool.and_eq_true, beq_iff_eq] <;>
    exact and_congr decide_eq_true_iff Iff.rfl

/-- An increment at `base` that writes one byte of `a`. -/
def writeByte (id : Digest) (base offset : Nat) (byte : UInt8) : Increment :=
  ⟨id, base, ⟨⟨["a"]⟩, [⟨.overwrite, 0, 0, offset, 1, 0⟩]⟩, [byte], []⟩

end Green

end Slates.Merge
