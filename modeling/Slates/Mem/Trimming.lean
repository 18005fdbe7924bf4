import Slates.Mem.Layout

/-!
Trimming and images: a trim leaves the pieces a chunk's bytes take (`trim_spec`), the end of a
capture settles what is deferred (`releaseDeferred_spec`), and no call leaves the region unsound
(`Kept`).
-/

namespace Slates.Mem.Buddy

variable {b b' : Buddy} {g i j o k n : Nat} {block : Block}

/-! ## Trimming -/

/-- Between publications, and with only the blocks an image names deferred. -/
structure Steady (b : Buddy) : Prop where
  idle : b.capturing = false
  deferred_named : ∀ i, b.deferred i → b.named i

theorem Steady.not_deferred (h : b.Steady) (hn : b.named i = false) : b.deferred i = false := by
  rw [Bool.eq_false_iff]
  intro hd
  have := h.deferred_named i hd
  rw [hn] at this
  cases this

private theorem mod_two_pow_succ (n k : Nat) :
    n % 2 ^ (k + 1) = n % 2 ^ k + 2 ^ k * (n.testBit k).toNat := by
  rw [Nat.mod_pow_succ, Nat.toNat_testBit]

variable {a e keep : Nat}

theorem piecesOf_cons (h : n % 2 ^ k ≠ 0) :
    ∃ q, q < k ∧ piecesOf a n k = (a, q) :: piecesOf (a + 2 ^ q) n q ∧
      n % 2 ^ k = 2 ^ q + n % 2 ^ q := by
  induction k with
  | zero => exact absurd (by rw [Nat.pow_zero, Nat.mod_one]) h
  | succ k ih =>
    rw [mod_two_pow_succ] at h ⊢
    rw [piecesOf]
    cases hbit : n.testBit k with
    | true =>
      exact ⟨k, Nat.lt_succ_self k, by simp, by simp; omega⟩
    | false =>
      simp only [hbit, Bool.toNat_false, Nat.mul_zero, Nat.add_zero] at h ⊢
      obtain ⟨q, hq, hp, hm⟩ := ih h
      exact ⟨q, Nat.lt_succ_of_lt hq, by simpa using hp, hm⟩

theorem piecesOf_nil (h : n % 2 ^ k = 0) : piecesOf a n k = [] := by
  induction k with
  | zero => rfl
  | succ k ih =>
    rw [mod_two_pow_succ] at h
    rw [piecesOf]
    cases hbit : n.testBit k with
    | true =>
      have := Nat.two_pow_pos k
      simp only [hbit, Bool.toNat_true] at h
      omega
    | false =>
      simp only [hbit, Bool.toNat_false, Nat.mul_zero, Nat.add_zero] at h
      simpa using ih h

/-- What of a function the pieces replace. -/
def putAll {β : Type} (f : Nat → β) (pieces : List (Nat × Nat)) (v : Nat × Nat → β) : Nat → β :=
  pieces.foldl (fun f p => put f p.1 (v p)) f

theorem putAll_of_notMem {β : Type} {f : Nat → β} {pieces : List (Nat × Nat)} {v : Nat × Nat → β}
    (h : ∀ p ∈ pieces, p.1 ≠ j) : putAll f pieces v j = f j := by
  induction pieces generalizing f with
  | nil => rfl
  | cons p pieces ih =>
    rw [putAll, List.foldl_cons]
    refine (ih fun q hq => h q (List.mem_cons_of_mem p hq)).trans ?_
    exact put_of_ne _ _ (Ne.symm (h p List.mem_cons_self))

theorem mem_piecesOf {p : Nat × Nat} (h : p ∈ piecesOf a n k) :
    a ≤ p.1 ∧ p.1 + 2 ^ p.2 ≤ a + n % 2 ^ k := by
  induction k using Nat.strong_induction_on generalizing a with
  | _ k ih =>
    by_cases hm : n % 2 ^ k = 0
    · rw [piecesOf_nil hm] at h
      cases h
    · obtain ⟨q, hq, hp, hsum⟩ := piecesOf_cons (a := a) hm
      rw [hp] at h
      rcases List.mem_cons.1 h with rfl | h
      · exact ⟨le_refl a, by simp only; omega⟩
      · have := ih q hq h
        omega

theorem putAll_of_mem {β : Type} {f : Nat → β} {v : Nat × Nat → β} {p : Nat × Nat}
    (h : p ∈ piecesOf a n k) : putAll f (piecesOf a n k) v p.1 = v p := by
  induction k using Nat.strong_induction_on generalizing a f with
  | _ k ih =>
    by_cases hm : n % 2 ^ k = 0
    · rw [piecesOf_nil hm] at h
      cases h
    · obtain ⟨q, hq, hp, -⟩ := piecesOf_cons (a := a) hm
      rw [hp] at h ⊢
      rcases List.mem_cons.1 h with rfl | h
      · rw [putAll, List.foldl_cons]
        refine (putAll_of_notMem (v := v) fun r hr hra => ?_).trans (put_self _ _ _)
        have := (mem_piecesOf hr).1
        have := Nat.two_pow_pos q
        simp only at hra
        omega
      · exact ih q hq h

theorem hold_width (b : Buddy) (i o incarnation : Nat) :
    (b.hold i o incarnation).width = put (b.lift i).width i (some (2 ^ o)) := by
  rw [width_lift, put_put]
  funext j
  rw [width, hold_state]
  exact congrFun (width_setState b i (.held o)) j

theorem hold_heldOrder (b : Buddy) (i o incarnation : Nat) :
    (b.hold i o incarnation).heldOrder = put b.heldOrder i (some o) :=
  funext (heldOrder_put (hold_state b i o incarnation))

theorem hold_pieces (hs : b.Sound) (inc : Nat → Nat) (ha : 2 ^ k ∣ a)
    (hv : b.width.Vacant a (e - a)) (hlt : a + n % 2 ^ k < e) (he : e ≤ 2 ^ b.maxOrder) :
    ∀ c, c = (piecesOf a n k).foldl (fun c p => c.hold p.1 p.2 (inc p.1)) b →
      c.Sound ∧ Frame b c ∧ c.width.Vacant (a + n % 2 ^ k) (e - (a + n % 2 ^ k)) ∧
        c.heldOrder = putAll b.heldOrder (piecesOf a n k) (fun p => some p.2) ∧
        c.incarnations = putAll b.incarnations (piecesOf a n k) (fun p => inc p.1) ∧
        c.locked = b.locked ∧
        ∀ g, b.width.Covers g ∨ (a ≤ g ∧ g < a + n % 2 ^ k) → c.width.Covers g := by
  induction k using Nat.strong_induction_on generalizing b a with
  | _ k ih =>
    rintro c rfl
    by_cases hm : n % 2 ^ k = 0
    · rw [piecesOf_nil hm, hm]
      exact ⟨hs, .refl b, hv, rfl, rfl, rfl, fun g hg => hg.resolve_right (by omega)⟩
    · obtain ⟨q, hq, hp, hsum⟩ := piecesOf_cons (a := a) hm
      have hdvd : 2 ^ q ∣ a := (Nat.pow_dvd_pow 2 hq.le).trans ha
      have hgap : b.Gap a q :=
        hs.gap (hv.part (le_refl a) (by omega)) hdvd (by omega)
      rw [hp, hsum, List.foldl_cons]
      have hvac : (b.hold a q (inc a)).width.Vacant (a + 2 ^ q) (e - (a + 2 ^ q)) := by
        rw [hold_width, width_lift]
        exact ((hv.part (Nat.le_add_right _ _) (by omega)).drop a).place (.inr (le_refl _))
      have hframe := Frame.hold b a q (inc a)
      have hfills : ∀ g, b.width.Covers g → b.Fills a q g := fun g => fills_of_covers fun m hm => by
        rw [width_none_of_vacant (hv.part (le_refl a) (by omega)) (Nat.two_pow_pos q)] at hm
        cases hm
      obtain ⟨h1, h2, h3, h4, h5, h6, h7⟩ := ih q hq (hgap.hold (inc a))
        (Nat.dvd_add_self_right.2 hdvd) hvac (by omega) (hframe.maxOrder ▸ he) _ rfl
      refine ⟨h1, hframe.trans h2, ?_, ?_, ?_, ?_, fun g hg => h7 g ?_⟩
      · rwa [← Nat.add_assoc]
      · rw [h4, hold_heldOrder]
        rfl
      · rw [h5, putAll, putAll, List.foldl_cons]
        simp only [hold, setLive_incarnations]
      · rw [h6]
        simp only [hold, setLive_locked]
      · rcases hg with hcov | ⟨hle, hlt⟩
        · exact .inl ((hfills g hcov).hold (inc a))
        · by_cases hq' : g < a + 2 ^ q
          · exact .inl (Fills.hold (.inr ⟨hle, hq'⟩) (inc a))
          · exact .inr ⟨by omega, by omega⟩

theorem tailOrder_spec (h : a < e) (o : Nat) :
    2 ^ tailOrder a e o ∣ a ∧ a + 2 ^ tailOrder a e o ≤ e := by
  unfold tailOrder
  cases hf : (List.range (o + 1)).reverse.find?
    (fun p => decide (a % 2 ^ p = 0 ∧ a + 2 ^ p ≤ e)) with
  | none => simpa using h
  | some p =>
    have := List.find?_some hf
    simp only [decide_eq_true_eq] at this
    exact ⟨Nat.dvd_of_mod_eq_zero this.1, this.2⟩

theorem freeTail_spec (hs : b.Sound) (o fuel : Nat) (hv : a < e → b.width.Vacant a (e - a))
    (he : e ≤ 2 ^ b.maxOrder) :
    (b.freeTail a e o fuel).Sound ∧ Frame b (b.freeTail a e o fuel) ∧
      (b.freeTail a e o fuel).heldOrder = b.heldOrder ∧
      (b.freeTail a e o fuel).incarnations = b.incarnations ∧
      (b.freeTail a e o fuel).locked = b.locked ∧
      (e - a ≤ fuel → ∀ g, b.width.Covers g ∨ (a ≤ g ∧ g < e) →
        (b.freeTail a e o fuel).width.Covers g) := by
  induction fuel generalizing b a with
  | zero =>
    exact ⟨hs, .refl b, rfl, rfl, rfl, fun hle g hg => hg.resolve_right (by omega)⟩
  | succ fuel ih =>
    rw [freeTail]
    split
    · rename_i hlt
      obtain ⟨hdvd, hle⟩ := tailOrder_spec hlt o
      generalize tailOrder a e o = q at *
      have hpos := Nat.two_pow_pos q
      have hvq : b.width.Vacant a (2 ^ q) := (hv hlt).part (le_refl a) (by omega)
      have hnone : b.width a = none := width_none_of_vacant hvq hpos
      have hfreed := coalesceFree_spec (hs.gap hvq hdvd (by omega)) (hs.not_live hnone)
      have hheld : (b.lift a).heldOrder = b.heldOrder := by
        rw [heldOrder_lift_eq]
        funext j
        by_cases hj : j = a
        · subst hj
          rw [put_self]
          cases h : b.heldOrder j with
          | none => rfl
          | some p =>
            rw [width_of_held h] at hnone
            cases hnone
        · rw [put_of_ne _ _ hj]
      obtain ⟨h1, h2, h3, h4, h5, h6⟩ := ih (a := a + 2 ^ q) hfreed.sound (by
        intro hlt'
        refine hfreed.vacant _ _ (by omega) ?_ (.inl (le_refl _))
        rw [width_lift]
        exact ((hv hlt).part (Nat.le_add_right _ _) (by omega)).drop a) (hfreed.frame.maxOrder ▸ he)
      refine ⟨h1, hfreed.frame.trans h2, h3.trans (hfreed.held.trans hheld),
        h4.trans hfreed.incarnations, h5.trans hfreed.locked, fun hfuel g hg => h6 (by omega) g ?_⟩
      rcases hg with hcov | ⟨hle', hlt'⟩
      · refine .inl (hfreed.covers g (fills_of_covers (fun m hm => ?_) hcov))
        rw [hnone] at hm
        cases hm
      · by_cases hq : g < a + 2 ^ q
        · exact .inl (hfreed.covers g (.inr ⟨hle', hq⟩))
        · exact .inr ⟨by omega, hlt'⟩
    · exact ⟨hs, .refl b, rfl, rfl, rfl, fun _ g hg => hg.resolve_right (by omega)⟩

theorem piecesEnd_piecesOf (a n k : Nat) : piecesEnd a (piecesOf a n k) = a + n % 2 ^ k := by
  induction k using Nat.strong_induction_on generalizing a with
  | _ k ih =>
    by_cases hm : n % 2 ^ k = 0
    · rw [piecesOf_nil hm, hm]
      rfl
    · obtain ⟨q, hq, hp, hsum⟩ := piecesOf_cons (a := a) hm
      have hrec := ih q hq (a + 2 ^ q)
      rw [hp, hsum, ← Nat.add_assoc, ← hrec]
      unfold piecesEnd
      cases piecesOf (a + 2 ^ q) n q with
      | nil => rfl
      | cons r rest =>
        rw [List.getLast?_cons_cons]
        cases hl : (r :: rest).getLast? with
        | none => simp at hl
        | some p => rfl

theorem Gap.part (h : b.Gap i o) (hk : k ≤ o) : b.Gap i k := by
  have hle := Nat.pow_le_pow_right (n := 2) (by norm_num) hk
  refine ⟨h.sound, h.vacant.part (le_refl i) (by omega), (Nat.pow_dvd_pow 2 hk).trans h.aligned, ?_,
    h.live⟩
  have := h.within
  omega

theorem granules_pos (hg : 0 < b.granule) (len : Nat) : 0 < b.granules len := by
  refine Nat.div_pos ?_ hg
  have := le_max_right len 1
  omega

/-- The block at `i` is the pieces its first `keep` bytes take, every other as it was. -/
structure Trimmed (b : Buddy) (i o keep : Nat) (b' : Buddy) : Prop where
  sound : b'.Sound
  frame : Frame b b'
  shorter : b.granules keep < 2 ^ o
  unnamed : b.named i = false
  held : b'.heldOrder =
    putAll b.heldOrder (piecesOf i (b.granules keep) o) (fun p => some p.2)
  incarnations : b'.incarnations = putAll b.incarnations (piecesOf i (b.granules keep) o)
    (fun p => if p.1 = i then b.incarnations i else b.incarnations p.1 + 1)
  covers : ∀ g, b.width.Covers g → b'.width.Covers g

theorem trim_spec_of (hs : b.Sound) (hd : ∀ j, b.named j = false → b.deferred j = false)
    {pieces : List Block} (h : b.trim block keep = .ok (some (pieces, b'))) :
    ∃ i o, b.heldOrder i = some o ∧ block = b.blockAt i o ∧ Trimmed b i o keep b' ∧
      pieces = (piecesOf i (b.granules keep) o).map fun p => b'.blockAt p.1 p.2 := by
  unfold trim at h
  split at h
  · cases h
  · rename_i i o hv
    obtain ⟨hh, rfl⟩ := (validate_eq_ok hs).1 hv
    refine ⟨i, o, hh, rfl, ?_⟩
    simp only at h
    split at h
    · cases h
    · rename_i hcond
      rw [not_or, not_or, not_le, Bool.not_eq_true, hs.namedByAnImage_eq] at hcond
      obtain ⟨hshort, hunnamed, -⟩ := hcond
      split at h
      · cases h
      · rw [piecesEnd_piecesOf, Nat.mod_eq_of_lt hshort] at h
        cases h
        have hinc : ∀ p, b.pieceIncarnation (b.blockAt i o) i p =
            if p = i then b.incarnations i else b.incarnations p + 1 := fun p => rfl
        simp only [hinc]
        have hpos := granules_pos hs.granule_pos keep
        have hmod : b.granules keep % 2 ^ o = b.granules keep := Nat.mod_eq_of_lt hshort
        obtain ⟨q, hq, hp, hsum⟩ :=
          piecesOf_cons (a := i) (n := b.granules keep) (k := o) (by omega)
        have hgap := hs.gap_held hh hunnamed (hd i hunnamed)
        have hle := Nat.pow_le_pow_right (n := 2) (by norm_num) hq
        have hwithin := hgap.within
        -- The first piece stands where the block stood; the others in the room after it.
        have hvac : (b.hold i q (b.incarnations i)).width.Vacant (i + 2 ^ q)
            (i + 2 ^ o - (i + 2 ^ q)) := by
          rw [hold_width]
          exact (hgap.vacant.part (Nat.le_add_right _ _) (by omega)).place (.inr (le_refl _))
        have hframe := Frame.hold b i q (b.incarnations i)
        obtain ⟨h1, h2, h3, h4, h5, -, h7⟩ := hold_pieces
          ((hgap.part hq.le).hold (b.incarnations i))
          (fun p => if p = i then b.incarnations i else b.incarnations p + 1)
          (Nat.dvd_add_self_right.2 ((Nat.pow_dvd_pow 2 hq.le).trans hgap.aligned)) hvac (by omega)
          (hframe.maxOrder ▸ hwithin) _ rfl
        have hfold : (piecesOf i (b.granules keep) o).foldl (fun c p => c.hold p.1 p.2
            (if p.1 = i then b.incarnations i else b.incarnations p.1 + 1)) b =
              (piecesOf (i + 2 ^ q) (b.granules keep) q).foldl (fun c p => c.hold p.1 p.2
                (if p.1 = i then b.incarnations i else b.incarnations p.1 + 1))
                (b.hold i q (b.incarnations i)) := by
          rw [hp, List.foldl_cons, if_pos rfl]
        rw [hfold]
        generalize (piecesOf (i + 2 ^ q) (b.granules keep) q).foldl (fun c p => c.hold p.1 p.2
          (if p.1 = i then b.incarnations i else b.incarnations p.1 + 1))
          (b.hold i q (b.incarnations i)) = c at *
        have hmax : c.maxOrder = b.maxOrder := (hframe.trans h2).maxOrder
        obtain ⟨t1, t2, t3, t4, -, t6⟩ := freeTail_spec (a := i + b.granules keep) (e := i + 2 ^ o)
          h1 o (2 ^ o) (fun _ => by
            have : i + 2 ^ q + b.granules keep % 2 ^ q = i + b.granules keep := by omega
            rwa [this] at h3) (hmax ▸ hwithin)
        have hincs : (c.freeTail (i + b.granules keep) (i + 2 ^ o) o (2 ^ o)).incarnations =
            putAll b.incarnations (piecesOf i (b.granules keep) o)
              (fun p => if p.1 = i then b.incarnations i else b.incarnations p.1 + 1) := by
          rw [t4, h5, hp, putAll, putAll, List.foldl_cons, if_pos rfl]
          simp only [hold, setLive_incarnations]
        refine ⟨⟨t1, hframe.trans (h2.trans t2), hshort, hunnamed, ?_, hincs, fun g hg => ?_⟩, ?_⟩
        · rw [t3, h4, hold_heldOrder, hp]
          rfl
        · -- The block's granules: the first piece, the others, the tail.
          refine t6 (by omega) g ?_
          have hfills : b.Fills i o g := fills_of_covers (fun n hn => by
            rw [width_of_held hh] at hn
            exact (Option.some.inj hn).symm) hg
          rcases hfills with hcov | ⟨hle', hlt'⟩
          · exact .inl (h7 g (.inl (Fills.hold (.inl hcov) _)))
          · by_cases hfirst : g < i + 2 ^ q
            · exact .inl (h7 g (.inl (Fills.hold (.inr ⟨hle', hfirst⟩) _)))
            · by_cases hkept : g < i + b.granules keep
              · exact .inl (h7 g (.inr ⟨by omega, by omega⟩))
              · exact .inr ⟨by omega, hlt'⟩
        · refine List.map_congr_left fun p hmem => ?_
          rw [blockAt, hincs, putAll_of_mem hmem, orderBytes, orderBytes,
            (hframe.trans (h2.trans t2)).granule]

theorem trim_spec (hs : b.Sound) (ht : b.Steady) {pieces : List Block}
    (h : b.trim block keep = .ok (some (pieces, b'))) :
    ∃ i o, b.heldOrder i = some o ∧ block = b.blockAt i o ∧ Trimmed b i o keep b' ∧
      pieces = (piecesOf i (b.granules keep) o).map fun p => b'.blockAt p.1 p.2 :=
  trim_spec_of hs (fun _ => ht.not_deferred) h

/-! ## The image -/

theorem sound_new {granule maxOrder : Nat} (hg : 0 < granule) : (new granule maxOrder).Sound := by
  have hstate : ∀ i, (new granule maxOrder).state i = if i = 0 then .free maxOrder else .inside :=
    fun _ => rfl
  have hwidth : ∀ i n, (new granule maxOrder).width i = some n → i = 0 ∧ n = 2 ^ maxOrder := by
    intro i n h
    rw [width, hstate] at h
    split at h
    · rename_i hi
      exact ⟨hi, (Option.some.inj h).symm⟩
    · cases h
  refine ⟨hg, ?_, ?_, ?_, ?_, ?_, by simp [named, new], by simp [new], by simp [new]⟩
  · intro i n h
    obtain ⟨rfl, -⟩ := hwidth i n h
    exact Nat.dvd_zero n
  · intro i n h
    obtain ⟨rfl, rfl⟩ := hwidth i n h
    rw [Nat.zero_add]
    exact le_refl _
  · intro i j n m hi hj hij
    exact absurd ((hwidth i n hi).1.trans (hwidth j m hj).1.symm) hij
  · intro i o
    rw [hstate]
    simp only [new, put]
    by_cases hi : i = 0
    · by_cases ho : o = maxOrder
      · simp [ho, hi]
      · simp [ho, hi, Ne.symm ho]
    · by_cases ho : o = maxOrder <;> simp [ho, hi]
  · intro o
    simp only [new, put]
    split <;> simp

theorem sound_newImaged {granule maxOrder : Nat} (hg : 0 < granule) :
    (newImaged granule maxOrder).Sound :=
  { sound_new hg with
    named_held := by simp [named, newImaged, new]
    live_held := by simp [newImaged, new]
    deferred_held := by simp [newImaged, new] }

theorem covers_new (granule maxOrder : Nat) (hg : g < 2 ^ maxOrder) :
    (new granule maxOrder).width.Covers g :=
  ⟨0, 2 ^ maxOrder, rfl, Nat.zero_le g, by rwa [Nat.zero_add]⟩

theorem sound_beginCapture (hs : b.Sound) : b.beginCapture.Sound := by
  have hlive : ∀ i, b.beginCapture.live i → (b.heldOrder i).isSome := by
    intro i hi
    simp only [beginCapture] at hi
    split at hi
    · exact (hs.live_held i hi).1
    · exact hi
  refine { hs with
    named_held := fun i hi => ⟨?_, rfl⟩
    live_held := fun i hi => ⟨hlive i hi, rfl⟩ }
  rcases Bool.or_eq_true_iff.1 hi with hc | hc
  · exact (hs.named_held i (by rw [named]; simp [show b.committed i = true from hc])).1
  · exact hlive i (Bool.and_eq_true_iff.1 (Bool.and_eq_true_iff.1 hc).2).1

theorem Sound.of_deferred (hs : b.Sound) (i : Nat) :
    { b with deferred := put b.deferred i false }.Sound := by
  refine { hs with deferred_held := fun j hj => ?_ }
  by_cases hji : j = i
  · subst hji
    simp at hj
  · exact hs.deferred_held j ((put_of_ne b.deferred false hji) ▸ hj)

structure Settled (b : Buddy) (gone : List Nat) (b' : Buddy) : Prop where
  sound : b'.Sound
  granule : b'.granule = b.granule
  maxOrder : b'.maxOrder = b.maxOrder
  incarnations : b'.incarnations = b.incarnations
  named : b'.named = b.named
  capturing : b'.capturing = b.capturing
  held : ∀ j, b'.heldOrder j = if j ∈ gone then none else b.heldOrder j
  deferred : ∀ j, b'.deferred j = if j ∈ gone then false else b.deferred j
  covers : ∀ g, b.width.Covers g → b'.width.Covers g

theorem order_of_held (h : b.heldOrder i = some o) : (b.state i).order = o := by
  rw [heldOrder, Mark.heldOrder_eq_some] at h
  rw [h]
  rfl

theorem settle (hs : b.Sound) (l : List Nat) (hl : l.Nodup)
    (hheld : ∀ i ∈ l, (b.heldOrder i).isSome ∧ b.named i = false) :
    Settled b l (l.foldl (fun c i =>
      { c with deferred := put c.deferred i false }.release i (c.state i).order) b) := by
  induction l generalizing b with
  | nil =>
    exact ⟨hs, rfl, rfl, rfl, rfl, rfl, fun _ => by simp, fun _ => by simp, fun _ => id⟩
  | cons p l ih =>
    obtain ⟨hfirst, hunnamed⟩ := hheld p List.mem_cons_self
    obtain ⟨o, ho⟩ := Option.isSome_iff_exists.1 hfirst
    rw [List.nodup_cons] at hl
    have hr := release_spec (hs.of_deferred p) ho hunnamed (put_self _ _ _)
    rw [List.foldl_cons, order_of_held ho]
    have hrest := ih hr.sound hl.2 (by
      intro q hq
      have hne : q ≠ p := fun h => hl.1 (h ▸ hq)
      obtain ⟨h1, h2⟩ := hheld q (List.mem_cons_of_mem p hq)
      rw [hr.held, put_of_ne _ _ hne, hr.frame.named]
      exact ⟨h1, h2⟩)
    refine ⟨hrest.sound, hrest.granule.trans hr.frame.granule,
      hrest.maxOrder.trans hr.frame.maxOrder, hrest.incarnations.trans hr.incarnations,
      hrest.named.trans (funext hr.frame.named), hrest.capturing.trans hr.frame.capturing, ?_, ?_,
      fun g hg => hrest.covers g (hr.covers g hg)⟩
    · intro j
      rw [hrest.held, hr.held]
      by_cases hj : j = p
      · rw [hj, put_self]
        simp
      · rw [put_of_ne _ _ hj]
        simp only [List.mem_cons, hj, false_or]
        rfl
    · intro j
      rw [hrest.deferred, hr.frame.deferred]
      by_cases hj : j = p
      · simp [hj]
      · simp only [List.mem_cons, hj, false_or, put_of_ne _ _ hj]

theorem mem_deferredOf (hs : b.Sound) {which : Nat → Bool} :
    i ∈ b.deferredOf which ↔ b.deferred i ∧ which i := by
  rw [deferredOf, List.mem_filter, Bool.and_eq_true_iff, List.mem_range, and_iff_right_iff_imp]
  rintro ⟨hd, -⟩
  obtain ⟨o, ho⟩ := Option.isSome_iff_exists.1 (hs.deferred_held i hd)
  have hin := hs.within i _ (width_of_held ho)
  have hpos := Nat.two_pow_pos o
  omega

theorem releaseDeferred_spec (hs : b.Sound) {which : Nat → Bool}
    (hw : ∀ i, which i → b.named i = false) :
    Settled b (b.deferredOf which) (b.releaseDeferred which) := by
  refine settle hs _ (List.nodup_range.filter _) fun i hi => ?_
  rw [mem_deferredOf hs] at hi
  exact ⟨hs.deferred_held i hi.1, hw i hi.2⟩

theorem Sound.committing (hs : b.Sound) (hc : b.capturing) :
    { b with capturing := false, committed := b.capture }.Sound := by
  refine { hs with named_held := fun i hi => ?_ }
  have hi : b.capture i = true := by simpa [named] using hi
  exact hs.named_held i (by simp [named, hc, hi])

theorem Sound.abandoning (hs : b.Sound) : { b with capturing := false }.Sound := by
  refine { hs with named_held := fun i hi => ?_ }
  have hi : b.committed i = true := by simpa [named] using hi
  exact hs.named_held i (by simp [named, hi])

theorem commitCapture_spec (hs : b.Sound) (hc : b.capturing) :
    Settled { b with capturing := false, committed := b.capture }
      (({ b with capturing := false, committed := b.capture } : Buddy).deferredOf
        fun i => !b.capture i) b.commitCapture := by
  rw [commitCapture, if_pos hc]
  exact releaseDeferred_spec (hs.committing hc) fun i hi => by
    simpa [named] using hi

theorem abandonCapture_spec (hs : b.Sound) (hc : b.capturing) :
    Settled { b with capturing := false }
      (({ b with capturing := false } : Buddy).deferredOf fun i => !b.committed i)
      b.abandonCapture := by
  rw [abandonCapture, if_pos hc]
  exact releaseDeferred_spec hs.abandoning fun i hi => by
    simpa [named] using hi

/-! ## What every call keeps -/

/-- A buddy that may stand for `b`'s region after a call. -/
structure Kept (b b' : Buddy) : Prop where
  sound : b'.Sound
  steady : b'.Steady
  granule : b'.granule = b.granule
  maxOrder : b'.maxOrder = b.maxOrder

theorem Steady.frame (h : b.Steady) (hf : Frame b b') : b'.Steady :=
  ⟨hf.capturing.trans h.idle, fun i hi => hf.named i ▸ h.deferred_named i (hf.deferred ▸ hi)⟩

theorem Kept.of_frame (ht : b.Steady) (hs : b'.Sound) (hf : Frame b b') : Kept b b' :=
  ⟨hs, ht.frame hf, hf.granule, hf.maxOrder⟩

theorem Kept.trans {c : Buddy} (h : Kept b b') (h' : Kept b' c) : Kept b c :=
  ⟨h'.sound, h'.steady, h'.granule.trans h.granule, h'.maxOrder.trans h.maxOrder⟩

theorem alloc_kept (hs : b.Sound) (ht : b.Steady) {len : Nat}
    (h : b.alloc len = .ok (block, b')) : Kept b b' := by
  obtain ⟨i, o, -, htook, -⟩ := alloc_spec hs h
  exact .of_frame ht htook.sound htook.frame

theorem freeOrDefer_cases (hs : b.Sound) (hd : ∀ j, b.named j = false → b.deferred j = false)
    {d : Bool} (h : b.freeOrDefer block = .ok (d, b')) :
    ∃ i o, b.heldOrder i = some o ∧ (b.named i = false ∧ Released b i b' ∨
      b.named i ∧ b' = { b with deferred := put b.deferred i true }) := by
  unfold freeOrDefer at h
  split at h
  · cases h
  · rename_i i o hv
    obtain ⟨hh, rfl⟩ := (validate_eq_ok hs).1 hv
    refine ⟨i, o, hh, ?_⟩
    rw [hs.namedByAnImage_eq] at h
    split at h
    · rename_i hn
      rw [Bool.not_eq_true'] at hn
      cases h
      exact .inl ⟨hn, release_spec hs hh hn (hd i hn)⟩
    · rename_i hn
      rw [Bool.not_eq_true', Bool.not_eq_false] at hn
      split at h
      · cases h
      · cases h
        exact .inr ⟨hn, rfl⟩

theorem Sound.deferring (hs : b.Sound) (hh : b.heldOrder i = some o) :
    { b with deferred := put b.deferred i true }.Sound := by
  refine { hs with deferred_held := fun j hj => ?_ }
  by_cases hji : j = i
  · rw [hji]
    exact Option.isSome_iff_exists.2 ⟨o, hh⟩
  · exact hs.deferred_held j ((put_of_ne b.deferred true hji) ▸ hj)

theorem named_of_deferring (hd : ∀ j, b.deferred j → b.named j) (hn : b.named i) (j : Nat)
    (hj : { b with deferred := put b.deferred i true }.deferred j) :
    { b with deferred := put b.deferred i true }.named j := by
  by_cases hji : j = i
  · rw [hji]
    exact hn
  · exact hd j ((put_of_ne b.deferred true hji) ▸ hj)

theorem freeOrDefer_kept (hs : b.Sound) (ht : b.Steady) {d : Bool}
    (h : b.freeOrDefer block = .ok (d, b')) : Kept b b' := by
  obtain ⟨i, o, hh, ⟨-, hr⟩ | ⟨hn, rfl⟩⟩ := freeOrDefer_cases hs (fun _ => ht.not_deferred) h
  · exact .of_frame ht hr.sound hr.frame
  · exact ⟨hs.deferring hh, ⟨ht.idle, named_of_deferring ht.deferred_named hn⟩, rfl, rfl⟩

theorem freeOrDeferAll_kept (hs : b.Sound) (ht : b.Steady) {blocks : List Block} {d : Bool}
    (h : b.freeOrDeferAll blocks = .ok (d, b')) : Kept b b' := by
  induction blocks generalizing b d with
  | nil =>
    cases h
    exact ⟨hs, ht, rfl, rfl⟩
  | cons block rest ih =>
    rw [freeOrDeferAll] at h
    cases h1 : b.freeOrDefer block with
    | error e =>
      rw [h1] at h
      cases h
    | ok r =>
      obtain ⟨d1, c⟩ := r
      have hk := freeOrDefer_kept hs ht h1
      rw [h1] at h
      simp only [bind, Except.bind] at h
      cases h2 : c.freeOrDeferAll rest with
      | error e =>
        rw [h2] at h
        cases h
      | ok r =>
        obtain ⟨d2, c'⟩ := r
        rw [h2] at h
        cases h
        exact hk.trans (ih hk.sound hk.steady h2)

theorem freeOrDeferTrimmed_kept (hs : b.Sound) (ht : b.Steady) {d : Bool}
    (h : b.freeOrDeferTrimmed block keep = .ok (d, b')) : Kept b b' := by
  unfold freeOrDeferTrimmed at h
  split at h
  · cases h
  · exact freeOrDeferAll_kept hs ht h

theorem trim_kept (hs : b.Sound) (ht : b.Steady) {pieces : List Block}
    (h : b.trim block keep = .ok (some (pieces, b'))) : Kept b b' := by
  obtain ⟨i, o, -, -, htrim, -⟩ := trim_spec hs ht h
  exact .of_frame ht htrim.sound htrim.frame

theorem lockBlock_eq (h : b.lockBlock block = .ok b') : ∃ l, b' = { b with locked := l } := by
  unfold lockBlock at h
  split at h <;> cases h
  exact ⟨_, rfl⟩

theorem lockBlock_kept (hs : b.Sound) (ht : b.Steady) (h : b.lockBlock block = .ok b') :
    Kept b b' := by
  obtain ⟨l, rfl⟩ := lockBlock_eq h
  exact ⟨{ hs with }, ⟨ht.idle, ht.deferred_named⟩, rfl, rfl⟩

theorem Settled.kept {which : Nat → Bool} (hs : b.Sound) (hcap : b.capturing = false)
    (hwhich : ∀ i, b.named i = false → which i = true)
    (h : Settled b (b.deferredOf which) b') : Kept b b' := by
  refine ⟨h.sound, ⟨h.capturing.trans hcap, fun i hi => ?_⟩, h.granule, h.maxOrder⟩
  rw [h.deferred] at hi
  rw [h.named]
  split at hi
  · cases hi
  · rename_i hnot
    rw [mem_deferredOf hs] at hnot
    by_contra hn
    exact hnot ⟨hi, hwhich i (by simpa using hn)⟩

end Slates.Mem.Buddy
