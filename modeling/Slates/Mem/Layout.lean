import Slates.Mem.Buddy

/-!
The layout of a buddy's region. `Buddy.Sound`: no two blocks overlap, the free lists name the free
ones, and what an image names is held. An allocation takes a free block (`alloc_spec`), a release
gives one back (`release_spec`), and no granule is lost on the way (their `covers`).
-/

namespace Slates.Mem.Buddy

variable {b b' : Buddy} {g i j o k n : Nat} {block : Block}

/-- The blocks of a region, free and held, by first granule. -/
def width (b : Buddy) : Widths := fun i => (b.state i).width

/-- The order of the block held from `i` on. -/
def heldOrder (b : Buddy) (i : Nat) : Option Nat := (b.state i).heldOrder

structure Sound (b : Buddy) : Prop where
  granule_pos : 0 < b.granule
  aligned : ∀ i n, b.width i = some n → n ∣ i
  within : ∀ i n, b.width i = some n → i + n ≤ 2 ^ b.maxOrder
  apart : b.width.Apart
  listed : ∀ i o, i ∈ b.heads o ↔ b.state i = .free o
  nodup : ∀ o, (b.heads o).Nodup
  named_held : ∀ i, b.named i → (b.heldOrder i).isSome ∧ b.imaged
  live_held : ∀ i, b.live i → (b.heldOrder i).isSome ∧ b.imaged
  deferred_held : ∀ i, b.deferred i → (b.heldOrder i).isSome

/-- What no allocation, release or trim of a block changes. -/
structure Frame (b b' : Buddy) : Prop where
  granule : b'.granule = b.granule
  maxOrder : b'.maxOrder = b.maxOrder
  committed : b'.committed = b.committed
  deferred : b'.deferred = b.deferred
  capture : b'.capture = b.capture
  capturing : b'.capturing = b.capturing
  imaged : b'.imaged = b.imaged

namespace Frame

theorem refl (b : Buddy) : Frame b b := ⟨rfl, rfl, rfl, rfl, rfl, rfl, rfl⟩

theorem trans {c : Buddy} (h : Frame b b') (h' : Frame b' c) : Frame b c :=
  ⟨h'.granule.trans h.granule, h'.maxOrder.trans h.maxOrder, h'.committed.trans h.committed,
    h'.deferred.trans h.deferred, h'.capture.trans h.capture, h'.capturing.trans h.capturing,
    h'.imaged.trans h.imaged⟩

theorem named (h : Frame b b') (i : Nat) : b'.named i = b.named i := by
  rw [Buddy.named, Buddy.named, h.committed, h.capturing, h.capture]

end Frame

theorem width_pos (h : b.width i = some n) : 0 < n := Mark.width_pos h

theorem width_of_held (h : b.heldOrder i = some o) : b.width i = some (2 ^ o) := by
  rw [heldOrder, Mark.heldOrder_eq_some] at h
  rw [width, h]
  rfl

theorem not_named_of_free (hs : b.Sound) (h : b.heldOrder i = none) : b.named i = false := by
  rw [Bool.eq_false_iff]
  intro hn
  have := (hs.named_held i hn).1
  rw [h] at this
  cases this

theorem Sound.namedByAnImage_eq (hs : b.Sound) (i : Nat) : b.namedByAnImage i = b.named i := by
  unfold namedByAnImage
  cases hn : b.named i with
  | false => rw [Bool.and_false]
  | true => rw [(hs.named_held i hn).2]; rfl

theorem width_setState (b : Buddy) (i : Nat) (m : Mark) :
    (b.setState i m).width = put b.width i m.width := by
  funext j
  by_cases h : j = i
  · subst h
    simp [width, setState]
  · simp [width, setState, put_of_ne _ _ h]

@[simp] theorem setState_state (b : Buddy) (i : Nat) (m : Mark) :
    (b.setState i m).state = put b.state i m := rfl

@[simp] theorem link_state (b : Buddy) (i o : Nat) : (b.link i o).state = b.state := rfl

@[simp] theorem unlink_state (b : Buddy) (i o : Nat) : (b.unlink i o).state = b.state := rfl

theorem Frame.setState (b : Buddy) (i : Nat) (m : Mark) : Frame b (b.setState i m) :=
  ⟨rfl, rfl, rfl, rfl, rfl, rfl, rfl⟩

theorem Frame.setLive (b : Buddy) (i : Nat) (on : Bool) : Frame b (b.setLive i on) := by
  unfold Buddy.setLive
  split
  · exact ⟨rfl, rfl, rfl, rfl, rfl, rfl, rfl⟩
  · exact .refl b

@[simp] theorem setLive_state (b : Buddy) (i : Nat) (on : Bool) :
    (b.setLive i on).state = b.state := by
  unfold Buddy.setLive
  split <;> rfl

@[simp] theorem setLive_heads (b : Buddy) (i : Nat) (on : Bool) :
    (b.setLive i on).heads = b.heads := by
  unfold Buddy.setLive
  split <;> rfl

@[simp] theorem setLive_incarnations (b : Buddy) (i : Nat) (on : Bool) :
    (b.setLive i on).incarnations = b.incarnations := by
  unfold Buddy.setLive
  split <;> rfl

@[simp] theorem setLive_locked (b : Buddy) (i : Nat) (on : Bool) :
    (b.setLive i on).locked = b.locked := by
  unfold Buddy.setLive
  split <;> rfl

theorem Frame.link (b : Buddy) (i o : Nat) : Frame b (b.link i o) :=
  ⟨rfl, rfl, rfl, rfl, rfl, rfl, rfl⟩

theorem Frame.unlink (b : Buddy) (i o : Nat) : Frame b (b.unlink i o) :=
  ⟨rfl, rfl, rfl, rfl, rfl, rfl, rfl⟩

theorem Frame.hold (b : Buddy) (i o incarnation : Nat) : Frame b (b.hold i o incarnation) :=
  have h : Frame b { b with
      state := put b.state i (.held o), incarnations := put b.incarnations i incarnation } :=
    ⟨rfl, rfl, rfl, rfl, rfl, rfl, rfl⟩
  h.trans (.setLive _ i true)

/-! ## Gaps -/

/-- The region with no block at `i`. -/
def lift (b : Buddy) (i : Nat) : Buddy :=
  { b with state := put b.state i .inside, live := put b.live i false }

structure Gap (b : Buddy) (i o : Nat) : Prop where
  sound : (b.lift i).Sound
  vacant : (b.lift i).width.Vacant i (2 ^ o)
  aligned : 2 ^ o ∣ i
  within : i + 2 ^ o ≤ 2 ^ b.maxOrder
  live : b.live i → b.imaged

/-- Granule `g` is in a block, or in the gap at `i`. -/
def Fills (b : Buddy) (i o g : Nat) : Prop :=
  (b.lift i).width.Covers g ∨ (i ≤ g ∧ g < i + 2 ^ o)

theorem width_lift (b : Buddy) (i : Nat) : (b.lift i).width = put b.width i none :=
  width_setState b i .inside

theorem lift_state_of_ne (h : j ≠ i) : (b.lift i).state j = b.state j := put_of_ne _ _ h

theorem lift_heldOrder_of_ne (h : j ≠ i) : (b.lift i).heldOrder j = b.heldOrder j := by
  rw [heldOrder, lift_state_of_ne h, heldOrder]

theorem heldOrder_lift (b : Buddy) (i : Nat) : (b.lift i).heldOrder i = none := by
  simp [heldOrder, lift, Mark.heldOrder]

private theorem Gap.fill (h : b.Gap i o) {m : Mark} (hm : m.width = some (2 ^ o)) :
    (b.setState i m).width.Apart ∧ (∀ j n, (b.setState i m).width j = some n → n ∣ j) ∧
      ∀ j n, (b.setState i m).width j = some n → j + n ≤ 2 ^ b.maxOrder := by
  have hw : (b.setState i m).width = put (b.lift i).width i (some (2 ^ o)) := by
    rw [width_setState, width_lift, put_put, hm]
  rw [hw]
  refine ⟨h.sound.apart.place h.vacant, ?_, ?_⟩
  · intro j n hj
    by_cases hji : j = i
    · subst hji
      rw [put_self, Option.some.injEq] at hj
      exact hj ▸ h.aligned
    · rw [put_of_ne _ _ hji] at hj
      exact h.sound.aligned j n hj
  · intro j n hj
    by_cases hji : j = i
    · subst hji
      rw [put_self, Option.some.injEq] at hj
      exact hj ▸ h.within
    · rw [put_of_ne _ _ hji] at hj
      exact h.sound.within j n hj

theorem fills_of_covers (hw : ∀ n, b.width i = some n → n = 2 ^ o) (h : b.width.Covers g) :
    b.Fills i o g := by
  rw [Fills, width_lift]
  exact h.drop hw

theorem Fills.setState (h : b.Fills i o g) {m : Mark} (hm : m.width = some (2 ^ o)) :
    (b.setState i m).width.Covers g := by
  rw [width_setState, hm]
  rw [Fills, width_lift] at h
  exact .place h

theorem Gap.not_listed (h : b.Gap i o) (p : Nat) : i ∉ b.heads p := by
  intro hi
  have := (h.sound.listed i p).1 hi
  simp [lift] at this

theorem Gap.listed (h : b.Gap i o) {j p : Nat} (hj : j ≠ i) :
    j ∈ b.heads p ↔ b.state j = .free p := by
  rw [← lift_state_of_ne hj]
  exact h.sound.listed j p

theorem Gap.not_named (h : b.Gap i o) : b.named i = false :=
  not_named_of_free (b := b.lift i) h.sound (heldOrder_lift b i)

theorem Gap.free (h : b.Gap i o) (hl : b.live i = false) :
    ((b.setState i (.free o)).link i o).Sound := by
  obtain ⟨hapart, haligned, hwithin⟩ := h.fill (m := .free o) rfl
  have hheld : ∀ j, ((b.setState i (.free o)).link i o).heldOrder j = (b.lift i).heldOrder j := by
    intro j
    by_cases hj : j = i
    · subst hj
      simp [heldOrder, setState, link, lift, Mark.heldOrder]
    · simp [heldOrder, setState, link, lift, put_of_ne _ _ hj]
  refine ⟨h.sound.granule_pos, haligned, hwithin, hapart, ?_, ?_, ?_, ?_, ?_⟩
  · intro j p
    by_cases hp : p = o
    · subst hp
      simp only [link, put_self, List.mem_cons, setState]
      by_cases hj : j = i
      · subst hj
        simp
      · rw [put_of_ne _ _ hj, h.listed hj]
        simp [hj]
    · simp only [link, put_of_ne _ _ hp, setState]
      by_cases hj : j = i
      · subst hj
        simp only [put_self, Mark.free.injEq]
        exact ⟨fun hi => absurd hi (h.not_listed p), fun heq => absurd heq.symm hp⟩
      · rw [put_of_ne _ _ hj]
        exact h.listed hj
  · intro p
    by_cases hp : p = o
    · subst hp
      simp only [link, put_self]
      exact List.nodup_cons.2 ⟨h.not_listed p, h.sound.nodup p⟩
    · simp only [link, put_of_ne _ _ hp]
      exact h.sound.nodup p
  · intro j hj
    rw [hheld]
    exact h.sound.named_held j hj
  · intro j hj
    rw [hheld]
    refine h.sound.live_held j ?_
    by_cases hji : j = i
    · subst hji
      exact absurd hj (by simp [setState, link, hl])
    · rw [lift]
      simp only [put_of_ne _ _ hji]
      exact hj
  · intro j hj
    rw [hheld]
    exact h.sound.deferred_held j hj

theorem Gap.hold (h : b.Gap i o) (incarnation : Nat) : (b.hold i o incarnation).Sound := by
  obtain ⟨hapart, haligned, hwithin⟩ := h.fill (m := .held o) rfl
  have hframe : Frame b (b.hold i o incarnation) := .hold b i o incarnation
  have hstate : (b.hold i o incarnation).state = (b.setState i (.held o)).state := by
    simp [Buddy.hold, setState]
  have hheads : (b.hold i o incarnation).heads = b.heads := by simp [Buddy.hold]
  have hwidth : (b.hold i o incarnation).width = (b.setState i (.held o)).width := by
    funext j
    rw [width, width, hstate]
  have hheld : ∀ j, j ≠ i → (b.hold i o incarnation).heldOrder j = (b.lift i).heldOrder j := by
    intro j hj
    rw [lift_heldOrder_of_ne hj, heldOrder, hstate, heldOrder, setState_state, put_of_ne _ _ hj]
  have hself : (b.hold i o incarnation).heldOrder i = some o := by
    rw [heldOrder, hstate, setState_state, put_self]
    rfl
  refine ⟨hframe.granule ▸ h.sound.granule_pos, hwidth ▸ haligned, ?_, hwidth ▸ hapart, ?_, ?_,
    ?_, ?_, ?_⟩
  · rw [hwidth, hframe.maxOrder]
    exact hwithin
  · intro j p
    rw [hheads, hstate, setState_state]
    by_cases hj : j = i
    · subst hj
      simp [h.not_listed p]
    · simp only [put_of_ne _ _ hj]
      exact h.listed hj
  · rw [hheads]
    exact h.sound.nodup
  · intro j hj
    by_cases hji : j = i
    · rw [hji, hframe.named, h.not_named] at hj
      cases hj
    · rw [hheld j hji, hframe.imaged]
      exact h.sound.named_held j (hframe.named j ▸ hj)
  · intro j hj
    by_cases hji : j = i
    · rw [hji, hself, hframe.imaged]
      refine ⟨rfl, ?_⟩
      subst hji
      by_cases himaged : b.imaged
      · exact himaged
      · refine h.live ?_
        simpa [Buddy.hold, Buddy.setLive, himaged] using hj
    · rw [hheld j hji, hframe.imaged]
      refine h.sound.live_held j ?_
      rw [lift]
      simp only [put_of_ne _ _ hji]
      revert hj
      simp only [Buddy.hold, Buddy.setLive]
      split
      · simp only [put_of_ne _ _ hji]
        exact id
      · exact id
  · intro j hj
    by_cases hji : j = i
    · rw [hji, hself]
      rfl
    · rw [hheld j hji]
      exact h.sound.deferred_held j (hframe.deferred ▸ hj)

theorem Sound.not_live (hs : b.Sound) (hw : b.width i = none) : b.live i = false := by
  rw [Bool.eq_false_iff]
  intro hl
  obtain ⟨p, hp⟩ := Option.isSome_iff_exists.1 (hs.live_held i hl).1
  rw [width_of_held hp] at hw
  cases hw

theorem width_none_of_vacant (hv : b.width.Vacant i n) (hn : 0 < n) : b.width i = none :=
  hv.none hn fun _ hm => width_pos hm

theorem Sound.gap (hs : b.Sound) (hv : b.width.Vacant i (2 ^ o)) (ha : 2 ^ o ∣ i)
    (hw : i + 2 ^ o ≤ 2 ^ b.maxOrder) : b.Gap i o := by
  have hnone : b.width i = none := width_none_of_vacant hv (Nat.two_pow_pos o)
  have hlive : b.live i = false := hs.not_live hnone
  have hlift : b.lift i = b := by
    have hinside : b.state i = .inside := by
      revert hnone
      unfold width
      cases b.state i <;> simp [Mark.width]
    have h1 : put b.state i .inside = b.state := by
      funext j
      by_cases hj : j = i
      · rw [hj, put_self, hinside]
      · rw [put_of_ne _ _ hj]
    have h2 : put b.live i false = b.live := by
      funext j
      by_cases hj : j = i
      · rw [hj, put_self, hlive]
      · rw [put_of_ne _ _ hj]
    rw [lift, h1, h2]
  exact ⟨hlift.symm ▸ hs, hlift.symm ▸ hv, ha, hw, fun h => absurd h (by simp [hlive])⟩

theorem Sound.gap_unlink (hs : b.Sound) (hf : b.state i = .free o) : (b.unlink i o).Gap i o := by
  have hwi : b.width i = some (2 ^ o) := by rw [width, hf]; rfl
  have hwidth : ((b.unlink i o).lift i).width = put b.width i none := width_lift (b.unlink i o) i
  have hfree : b.heldOrder i = none := by rw [heldOrder, hf]; rfl
  have hheld :
      ∀ j, (b.heldOrder j).isSome → ((b.unlink i o).lift i).heldOrder j = b.heldOrder j := by
    intro j hj
    have hji : j ≠ i := by
      rintro rfl
      rw [hfree] at hj
      cases hj
    exact lift_heldOrder_of_ne (b := b.unlink i o) hji
  refine ⟨⟨hs.granule_pos, ?_, ?_, hwidth ▸ hs.apart.drop i, ?_, ?_, ?_, ?_, ?_⟩, ?_,
    hs.aligned i _ hwi, hs.within i _ hwi, fun h => (hs.live_held i h).2⟩
  · intro j n hj
    rw [hwidth] at hj
    exact hs.aligned j n (Widths.of_put_none hj).2
  · intro j n hj
    rw [hwidth] at hj
    exact hs.within j n (Widths.of_put_none hj).2
  · intro j p
    simp only [lift, unlink]
    by_cases hp : p = o
    · subst hp
      rw [put_self, (hs.nodup p).mem_erase_iff, hs.listed]
      by_cases hj : j = i
      · simp [hj]
      · simp [hj, put_of_ne _ _ hj]
    · rw [put_of_ne _ _ hp, hs.listed]
      by_cases hj : j = i
      · subst hj
        rw [hf, put_self]
        simp [Ne.symm hp]
      · rw [put_of_ne _ _ hj]
  · intro p
    simp only [lift, unlink]
    by_cases hp : p = o
    · subst hp
      rw [put_self]
      exact (hs.nodup p).erase i
    · rw [put_of_ne _ _ hp]
      exact hs.nodup p
  · intro j hj
    have hj := hs.named_held j hj
    rw [hheld j hj.1]
    exact hj
  · intro j hj
    by_cases hji : j = i
    · subst hji
      simp [lift] at hj
    · simp only [lift, put_of_ne _ _ hji] at hj
      have hj := hs.live_held j hj
      rw [hheld j hj.1]
      exact hj
  · intro j hj
    have hj := hs.deferred_held j hj
    rw [hheld j hj]
    exact hj
  · rw [hwidth]
    exact hs.apart.vacant_drop hwi

theorem Gap.halve (h : b.Gap i (o + 1)) :
    ((b.setState (i + 2 ^ o) (.free o)).link (i + 2 ^ o) o).Gap i o := by
  have hpos := Nat.two_pow_pos o
  have hne : i + 2 ^ o ≠ i := by omega
  have hdouble : 2 ^ (o + 1) = 2 ^ o + 2 ^ o := by rw [Nat.pow_succ]; omega
  have hdvd : 2 ^ o ∣ i := (Nat.pow_dvd_pow 2 (Nat.le_succ o)).trans h.aligned
  have hupper : (b.lift i).Gap (i + 2 ^ o) o :=
    h.sound.gap (h.vacant.part (by omega) (by omega)) (Nat.dvd_add_self_right.2 hdvd) (by
      have := h.within
      simp only [lift]
      omega)
  have hlift : ((b.setState (i + 2 ^ o) (.free o)).link (i + 2 ^ o) o).lift i =
      ((b.lift i).setState (i + 2 ^ o) (.free o)).link (i + 2 ^ o) o := by
    have : put (put b.state (i + 2 ^ o) (.free o)) i .inside =
        put (put b.state i .inside) (i + 2 ^ o) (.free o) := by
      funext j
      by_cases hj : j = i
      · rw [hj, put_self, put_of_ne _ _ hne.symm, put_self]
      · rw [put_of_ne _ _ hj]
        by_cases hj' : j = i + 2 ^ o
        · rw [hj', put_self, put_self]
        · rw [put_of_ne _ _ hj', put_of_ne _ _ hj', put_of_ne _ _ hj]
    simp only [setState, link, lift, this]
  have hlive : (b.lift i).live (i + 2 ^ o) = false :=
    h.sound.not_live (width_none_of_vacant (n := 2 ^ o) (h.vacant.part (by omega) (by omega)) hpos)
  refine ⟨hlift ▸ hupper.free hlive, ?_, hdvd, ?_, fun hl => h.live hl⟩
  · rw [hlift]
    have hw : (((b.lift i).setState (i + 2 ^ o) (.free o)).link (i + 2 ^ o) o).width =
        put (b.lift i).width (i + 2 ^ o) (some (2 ^ o)) := width_setState (b.lift i) _ _
    rw [hw]
    exact (h.vacant.part (le_refl i) (by omega)).place (.inl (le_refl _))
  · have := h.within
    simp only [setState, link]
    omega

theorem Fills.halve (hgap : b.Gap i (o + 1)) (h : b.Fills i (o + 1) g) :
    ((b.setState (i + 2 ^ o) (.free o)).link (i + 2 ^ o) o).Fills i o g := by
  have hpos := Nat.two_pow_pos o
  have hdouble : 2 ^ (o + 1) = 2 ^ o + 2 ^ o := by rw [Nat.pow_succ]; omega
  have hne : i + 2 ^ o ≠ i := by omega
  have hnone : (b.lift i).width (i + 2 ^ o) = none :=
    width_none_of_vacant (n := 2 ^ o) (hgap.vacant.part (by omega) (by omega)) hpos
  have hwidth : (((b.setState (i + 2 ^ o) (.free o)).link (i + 2 ^ o) o).lift i).width =
      put (b.lift i).width (i + 2 ^ o) (some (2 ^ o)) := by
    rw [width_lift, width_lift, ← put_comm _ hne.symm]
    exact congrArg (put · i none) (width_setState b (i + 2 ^ o) (.free o))
  rw [Fills, hwidth]
  rcases h with hcov | ⟨hle, hlt⟩
  · exact .inl (.place (hcov.drop fun m hm => by rw [hnone] at hm; cases hm))
  · by_cases hg : g < i + 2 ^ o
    · exact .inr ⟨hle, hg⟩
    · exact .inl (.place (.inr ⟨by omega, by omega⟩))

/-! ## Allocation -/

theorem heldOrder_put (h : b'.state = put b.state i (.held o)) (j : Nat) :
    b'.heldOrder j = put b.heldOrder i (some o) j := by
  by_cases hj : j = i
  · rw [hj, put_self, heldOrder, h, put_self]
    rfl
  · rw [put_of_ne _ _ hj, heldOrder, h, put_of_ne _ _ hj, heldOrder]

@[simp] theorem hold_state (b : Buddy) (i o incarnation : Nat) :
    (b.hold i o incarnation).state = put b.state i (.held o) := by
  simp [hold]

theorem Fills.hold (h : b.Fills i o g) (incarnation : Nat) :
    (b.hold i o incarnation).width.Covers g := by
  have hwidth : (b.hold i o incarnation).width = (b.setState i (.held o)).width := by
    funext j
    rw [width, width, hold_state, setState_state]
  rw [hwidth]
  exact h.setState rfl

theorem split_spec (h : b.Gap i (o + k)) :
    (b.split i o k).Gap i o ∧ Frame b (b.split i o k) ∧
      (b.split i o k).incarnations = b.incarnations ∧ (b.split i o k).locked = b.locked ∧
      (∀ j, ((b.split i o k).lift i).heldOrder j = (b.lift i).heldOrder j) ∧
      ∀ g, b.Fills i (o + k) g → (b.split i o k).Fills i o g := by
  induction k generalizing b with
  | zero => exact ⟨h, .refl b, rfl, rfl, fun _ => rfl, fun _ => id⟩
  | succ k ih =>
    have hne : i + 2 ^ (o + k) ≠ i := by
      have := Nat.two_pow_pos (o + k)
      omega
    obtain ⟨hgap, hframe, hinc, hlock, hheld, hfills⟩ := ih (Gap.halve (o := o + k) h)
    refine ⟨hgap, (Frame.setState b _ _).trans ((Frame.link _ _ _).trans hframe), hinc, hlock, ?_,
      fun g hg => hfills g (hg.halve (o := o + k) h)⟩
    intro j
    rw [split, hheld]
    by_cases hj : j = i
    · rw [hj, heldOrder_lift, heldOrder_lift]
    · rw [lift_heldOrder_of_ne hj, lift_heldOrder_of_ne hj]
      by_cases hj' : j = i + 2 ^ (o + k)
      · -- The upper half started no block.
        have hnone : (b.lift i).width (i + 2 ^ (o + k)) = none :=
          width_none_of_vacant (n := 2 ^ (o + k)) (h.vacant.part (Nat.le_add_right _ _) (by
            rw [← Nat.add_assoc, Nat.pow_succ]
            omega)) (Nat.two_pow_pos _)
        rw [width_lift, put_of_ne _ _ hne, ← hj', width] at hnone
        rw [hj', heldOrder, link, setState_state, put_self, ← hj', heldOrder]
        revert hnone
        cases b.state j <;> simp [Mark.width, Mark.heldOrder]
      · rw [heldOrder, heldOrder, link, setState_state, put_of_ne _ _ hj']

/-- What an allocation did: a block of order `o` is held where a free one was. -/
structure Took (b b' : Buddy) (i o : Nat) : Prop where
  sound : b'.Sound
  frame : Frame b b'
  free : b.heldOrder i = none
  held : b'.heldOrder = put b.heldOrder i (some o)
  incarnations : b'.incarnations = put b.incarnations i (b.incarnations i + 1)
  locked : b'.locked = b.locked
  covers : ∀ g, b.width.Covers g → b'.width.Covers g

theorem alloc_spec (hs : b.Sound) {len : Nat} (h : b.alloc len = .ok (block, b')) :
    ∃ i o, b.orderFor len = .ok o ∧ Took b b' i o ∧
      block = ⟨i * b.granule, b.orderBytes o, b.incarnations i + 1⟩ := by
  unfold alloc at h
  cases ho : b.orderFor len with
  | error e =>
    rw [ho] at h
    cases h
  | ok o =>
    rw [ho] at h
    simp only [bind, Except.bind] at h
    split at h
    · cases h
    · rename_i found index hfind
      split at h
      · cases h
      · cases h
        obtain ⟨found', hmem, hhead⟩ := List.exists_of_findSome?_eq_some hfind
        obtain ⟨index', hindex, heq⟩ := Option.map_eq_some_iff.1 hhead
        cases heq
        have hfree : b.state index = .free found :=
          (hs.listed index found).1 (List.mem_of_mem_head? hindex)
        have hle : o ≤ found := (List.mem_range'_1.1 hmem).1
        obtain ⟨d, rfl⟩ := Nat.exists_eq_add_of_le hle
        obtain ⟨hgap, hframe, hinc, hlock, hheld, hfills⟩ := split_spec (hs.gap_unlink hfree)
        have hnone : b.heldOrder index = none := by
          rw [heldOrder, hfree]
          rfl
        rw [Nat.add_sub_cancel_left]
        refine ⟨index, o, rfl, ⟨hgap.hold _, ?_, hnone, ?_, ?_, ?_, fun g hg => ?_⟩, rfl⟩
        · exact (Frame.unlink b _ _).trans (hframe.trans (.hold _ _ _ _))
        · funext j
          have hstate : (((b.unlink index (o + d)).split index o d).hold index o
              (b.incarnations index + 1)).state =
                put ((b.unlink index (o + d)).split index o d).state index (.held o) := by
            simp [hold]
          rw [heldOrder_put hstate]
          by_cases hj : j = index
          · rw [hj, put_self, put_self]
          · rw [put_of_ne _ _ hj, put_of_ne _ _ hj]
            have := hheld j
            rwa [lift_heldOrder_of_ne hj, lift_heldOrder_of_ne hj] at this
        · simp only [hold, setLive_incarnations, hinc]
          rfl
        · simp only [hold, setLive_locked, hlock]
          rfl
        · refine Fills.hold (hfills g (fills_of_covers (b := b.unlink index (o + d)) ?_ hg)) _
          intro n hn
          rw [width, unlink_state, hfree] at hn
          exact (Option.some.inj hn).symm

/-! ## Release -/

theorem buddyOf_even (h : i / 2 ^ o % 2 = 0) : buddyOf i o = i + 2 ^ o := if_pos h

theorem buddyOf_odd (h : i / 2 ^ o % 2 = 1) : buddyOf i o = i - 2 ^ o := if_neg (by omega)

theorem buddyOf_pair (h : 2 ^ o ∣ i) :
    2 ^ (o + 1) ∣ min i (buddyOf i o) ∧
      ((min i (buddyOf i o) = i ∧ buddyOf i o = i + 2 ^ o) ∨
        (min i (buddyOf i o) = buddyOf i o ∧ i = buddyOf i o + 2 ^ o)) := by
  obtain ⟨q, rfl⟩ := h
  have hpos := Nat.two_pow_pos o
  have hdiv : 2 ^ o * q / 2 ^ o = q := Nat.mul_div_cancel_left q hpos
  rcases Nat.mod_two_eq_zero_or_one q with hq | hq
  · rw [buddyOf_even (by rw [hdiv, hq]), Nat.min_eq_left (Nat.le_add_right _ _)]
    obtain ⟨r, rfl⟩ := Nat.dvd_of_mod_eq_zero hq
    exact ⟨⟨r, by rw [Nat.pow_succ, Nat.mul_assoc]⟩, .inl ⟨rfl, rfl⟩⟩
  · rw [buddyOf_odd (by rw [hdiv, hq])]
    obtain ⟨r, rfl⟩ : ∃ r, q = 2 * r + 1 := ⟨q / 2, by omega⟩
    have hsub : 2 ^ o * (2 * r + 1) - 2 ^ o = 2 ^ o * (2 * r) := by
      rw [Nat.mul_succ, Nat.add_sub_cancel]
    rw [hsub, Nat.min_eq_right (Nat.mul_le_mul_left _ (by omega))]
    exact ⟨⟨r, by rw [Nat.pow_succ, Nat.mul_assoc]⟩, .inr ⟨rfl, by rw [Nat.mul_succ]⟩⟩

theorem Gap.join (h : b.Gap i o) (hl : b.live i = false) (hf : b.state (buddyOf i o) = .free o) :
    ((b.unlink (buddyOf i o) o).setState (max (buddyOf i o) i) .inside).lift
        (min i (buddyOf i o)) = ((b.lift i).unlink (buddyOf i o) o).lift (buddyOf i o) ∧
      ((b.unlink (buddyOf i o) o).setState (max (buddyOf i o) i) .inside).Gap
        (min i (buddyOf i o)) (o + 1) ∧
      ((b.unlink (buddyOf i o) o).setState (max (buddyOf i o) i) .inside).live
        (min i (buddyOf i o)) = false := by
  obtain ⟨hdvd, hpair⟩ := buddyOf_pair h.aligned
  have hpos := Nat.two_pow_pos o
  have hne : buddyOf i o ≠ i := by rcases hpair with h | h <;> omega
  have hf' : (b.lift i).state (buddyOf i o) = .free o := by rw [lift_state_of_ne hne, hf]
  have hbuddy := h.sound.gap_unlink hf'
  have hlive : b.live (buddyOf i o) = false := by
    rw [Bool.eq_false_iff]
    intro hb
    have := (h.sound.live_held (buddyOf i o) ((put_of_ne b.live false hne).trans hb)).1
    rw [heldOrder, hf'] at this
    cases this
  have hlift : ((b.unlink (buddyOf i o) o).setState (max (buddyOf i o) i) .inside).lift
      (min i (buddyOf i o)) = ((b.lift i).unlink (buddyOf i o) o).lift (buddyOf i o) := by
    have hstate : put (put b.state (max (buddyOf i o) i) .inside) (min i (buddyOf i o)) .inside =
        put (put b.state i .inside) (buddyOf i o) .inside := by
      funext j
      simp only [put]
      rcases hpair with ⟨hmin, hb⟩ | ⟨hmin, hb⟩
      · rw [hmin, show max (buddyOf i o) i = buddyOf i o by omega]
        split_ifs <;> rfl
      · rw [hmin, show max (buddyOf i o) i = i by omega]
    have hlives : put b.live (min i (buddyOf i o)) false =
        put (put b.live i false) (buddyOf i o) false := by
      funext j
      simp only [put]
      rcases hpair with ⟨hmin, -⟩ | ⟨hmin, -⟩
      · rw [hmin]
        split_ifs with h1 h2
        · rfl
        · rfl
        · rw [‹j = _›, hlive]
        · rfl
      · rw [hmin]
        split_ifs with h1 h2
        · rfl
        · rw [h2, hl]
        · rfl
    simp only [setState, unlink, lift, hstate, hlives]
  have hvi : (((b.lift i).unlink (buddyOf i o) o).lift (buddyOf i o)).width.Vacant i (2 ^ o) := by
    rw [width_lift]
    exact h.vacant.drop _
  have hdouble : 2 ^ (o + 1) = 2 ^ o + 2 ^ o := by rw [Nat.pow_succ]; omega
  refine ⟨hlift, ⟨hlift ▸ hbuddy.sound, ?_, hdvd, ?_, ?_⟩, ?_⟩
  · rw [hlift, hdouble]
    rcases hpair with ⟨hmin, hb⟩ | ⟨hmin, hb⟩
    · rw [hmin]
      exact hvi.join (hb ▸ hbuddy.vacant) fun _ _ => width_pos
    · rw [hmin]
      refine hbuddy.vacant.join ?_ fun _ _ => width_pos
      rw [← hb]
      exact hvi
  · have h1 := h.within
    have h2 := hbuddy.within
    simp only [setState, unlink, lift] at h2 ⊢
    rcases hpair with h | h <;> omega
  · intro hm
    rcases hpair with ⟨hmin, -⟩ | ⟨hmin, -⟩
    · rw [hmin] at hm
      exact h.live hm
    · rw [hmin] at hm
      exact absurd hm (by simp [setState, unlink, hlive])
  · rcases hpair with ⟨hmin, -⟩ | ⟨hmin, -⟩
    · rw [hmin]
      exact hl
    · rw [hmin]
      exact hlive

theorem Fills.join (h : b.Fills i o g) (hgap : b.Gap i o) (hl : b.live i = false)
    (hf : b.state (buddyOf i o) = .free o) :
    ((b.unlink (buddyOf i o) o).setState (max (buddyOf i o) i) .inside).Fills
      (min i (buddyOf i o)) (o + 1) g := by
  obtain ⟨-, hpair⟩ := buddyOf_pair hgap.aligned
  have hpos := Nat.two_pow_pos o
  have hne : buddyOf i o ≠ i := by rcases hpair with h | h <;> omega
  have hdouble : 2 ^ (o + 1) = 2 ^ o + 2 ^ o := by rw [Nat.pow_succ]; omega
  rw [Fills, (hgap.join hl hf).1, width_lift, hdouble]
  have hdrop :
      (b.lift i).width.Covers g → Widths.Covers (put (b.lift i).width (buddyOf i o) none) g ∨
      (buddyOf i o ≤ g ∧ g < buddyOf i o + 2 ^ o) := fun hcov => hcov.drop fun m hm => by
    rw [width, lift_state_of_ne hne, hf] at hm
    exact (Option.some.inj hm).symm
  rcases h with hcov | hin
  · rcases hdrop hcov with hcov | hin
    · exact .inl hcov
    · refine .inr ?_
      rcases hpair with h | h <;> omega
  · refine .inr ?_
    rcases hpair with h | h <;> omega

/-- What joining a gap with its free neighbours did. -/
structure Joined (b : Buddy) (i o : Nat) (b' : Buddy) (i' o' : Nat) : Prop where
  gap : b'.Gap i' o'
  live : b'.live i' = false
  frame : Frame b b'
  incarnations : b'.incarnations = b.incarnations
  locked : b'.locked = b.locked
  held : (b'.lift i').heldOrder = (b.lift i).heldOrder
  fills : ∀ g, b.Fills i o g → b'.Fills i' o' g
  /-- Room elsewhere stays room. -/
  vacant : ∀ a m, 0 < m → (b.lift i).width.Vacant a m → i + 2 ^ o ≤ a ∨ a + m ≤ i →
    (b'.lift i').width.Vacant a m ∧ (i' + 2 ^ o' ≤ a ∨ a + m ≤ i')

theorem coalesce_spec (h : b.Gap i o) (hl : b.live i = false) (k : Nat) :
    Joined b i o (b.coalesce i o k).1 (b.coalesce i o k).2.1 (b.coalesce i o k).2.2 := by
  induction k generalizing b i o with
  | zero => exact ⟨h, hl, .refl b, rfl, rfl, rfl, fun _ => id, fun a m _ hv hd => ⟨hv, hd⟩⟩
  | succ k ih =>
    rw [coalesce]
    split
    · rename_i hf
      obtain ⟨hlift, hgap, hlive⟩ := h.join hl hf
      have hrec := ih hgap hlive
      obtain ⟨-, hpair⟩ := buddyOf_pair h.aligned
      have hpos := Nat.two_pow_pos o
      have hne : buddyOf i o ≠ i := by rcases hpair with h | h <;> omega
      have hf' : (b.lift i).state (buddyOf i o) = .free o := by rw [lift_state_of_ne hne, hf]
      refine ⟨hrec.gap, hrec.live,
        (Frame.unlink b _ _).trans ((Frame.setState _ _ _).trans hrec.frame),
        hrec.incarnations, hrec.locked, ?_, fun g hg => hrec.fills g (hg.join h hl hf), ?_⟩
      · rw [hrec.held, hlift]
        funext j
        by_cases hj : j = buddyOf i o
        · rw [hj, heldOrder_lift, heldOrder, hf']
          rfl
        · rw [lift_heldOrder_of_ne hj]
          rfl
      · intro a m hm hv hd
        -- The buddy's own block is apart from the room, so the joined one is.
        have hbw : (b.lift i).width (buddyOf i o) = some (2 ^ o) := by rw [width, hf']; rfl
        have hb := hv _ _ hbw
        refine hrec.vacant a m hm ?_ ?_
        · rw [hlift, width_lift]
          exact hv.drop _
        · have hdouble : 2 ^ (o + 1) = 2 ^ o + 2 ^ o := by rw [Nat.pow_succ]; omega
          rw [hdouble]
          rcases hpair with h | h <;> omega
    · exact ⟨h, hl, .refl b, rfl, rfl, rfl, fun _ => id, fun a m _ hv hd => ⟨hv, hd⟩⟩

/-- What freeing a gap did. -/
structure Freed (b : Buddy) (i o : Nat) (b' : Buddy) : Prop where
  sound : b'.Sound
  frame : Frame b b'
  incarnations : b'.incarnations = b.incarnations
  locked : b'.locked = b.locked
  held : b'.heldOrder = (b.lift i).heldOrder
  covers : ∀ g, b.Fills i o g → b'.width.Covers g
  vacant : ∀ a m, 0 < m → (b.lift i).width.Vacant a m → i + 2 ^ o ≤ a ∨ a + m ≤ i →
    b'.width.Vacant a m

theorem coalesceFree_spec (h : b.Gap i o) (hl : b.live i = false) :
    Freed b i o (b.coalesceFree i o) := by
  have hj := coalesce_spec h hl (b.maxOrder - o)
  unfold coalesceFree
  generalize b.coalesce i o (b.maxOrder - o) = r at hj
  obtain ⟨c, i', o'⟩ := r
  refine ⟨hj.gap.free hj.live, hj.frame.trans ((Frame.setState _ _ _).trans (.link _ _ _)),
    hj.incarnations, hj.locked, ?_, fun g hg => (hj.fills g hg).setState rfl, ?_⟩
  · rw [← hj.held]
    funext j
    by_cases hji : j = i'
    · rw [hji, heldOrder_lift]
      simp [heldOrder, Mark.heldOrder]
    · rw [lift_heldOrder_of_ne hji]
      simp [heldOrder, put_of_ne _ _ hji]
  · intro a m hm hv hd
    obtain ⟨hv', hd'⟩ := hj.vacant a m hm hv hd
    have hw : ((c.setState i' (.free o')).link i' o').width =
        put (c.lift i').width i' (some (2 ^ o')) := by
      rw [width_lift, put_put]
      exact width_setState c i' _
    rw [hw]
    exact hv'.place hd'.symm

theorem Sound.gap_held (hs : b.Sound) (hh : b.heldOrder i = some o) (hn : b.named i = false)
    (hd : b.deferred i = false) : b.Gap i o := by
  have hwi := width_of_held hh
  have hheld : b.state i = .held o := Mark.heldOrder_eq_some.1 hh
  refine ⟨⟨hs.granule_pos, ?_, ?_, width_lift b i ▸ hs.apart.drop i, ?_, hs.nodup, ?_, ?_,
    ?_⟩, width_lift b i ▸ hs.apart.vacant_drop hwi, hs.aligned i _ hwi,
    hs.within i _ hwi, fun h => (hs.live_held i h).2⟩
  · intro j n hj
    rw [width_lift] at hj
    exact hs.aligned j n (Widths.of_put_none hj).2
  · intro j n hj
    rw [width_lift] at hj
    exact hs.within j n (Widths.of_put_none hj).2
  · intro j p
    by_cases hj : j = i
    · subst hj
      simp [lift, hs.listed, hheld]
    · rw [lift_state_of_ne hj]
      exact hs.listed j p
  · intro j hj
    have hji : j ≠ i := by
      rintro rfl
      rw [show (b.lift j).named j = b.named j from rfl, hn] at hj
      cases hj
    rw [lift_heldOrder_of_ne hji]
    exact hs.named_held j hj
  · intro j hj
    by_cases hji : j = i
    · subst hji
      simp [lift] at hj
    · simp only [lift, put_of_ne _ _ hji] at hj
      rw [lift_heldOrder_of_ne hji]
      exact hs.live_held j hj
  · intro j hj
    have hji : j ≠ i := by
      rintro rfl
      rw [show (b.lift j).deferred j = b.deferred j from rfl, hd] at hj
      cases hj
    rw [lift_heldOrder_of_ne hji]
    exact hs.deferred_held j hj

theorem Gap.of_lift_eq (h : b.Gap i o) (hl : b'.lift i = b.lift i) (hlive : b'.live i → b'.imaged) :
    b'.Gap i o := by
  refine ⟨hl ▸ h.sound, hl ▸ h.vacant, h.aligned, ?_, hlive⟩
  have : (b'.lift i).maxOrder = (b.lift i).maxOrder := by rw [hl]
  rw [show b'.maxOrder = b.maxOrder from this]
  exact h.within

theorem Gap.of_locked (h : b.Gap i o) (locked : Nat → Bool) : { b with locked := locked }.Gap i o :=
  ⟨{ h.sound with }, h.vacant, h.aligned, h.within, h.live⟩

theorem setLive_lift (b : Buddy) (i : Nat) (on : Bool) : (b.setLive i on).lift i = b.lift i := by
  unfold setLive
  split
  · simp only [lift, put_put]
  · rfl

/-- The block at `i` is held no more, every other as it was. -/
structure Released (b : Buddy) (i : Nat) (b' : Buddy) : Prop where
  sound : b'.Sound
  frame : Frame b b'
  incarnations : b'.incarnations = b.incarnations
  held : b'.heldOrder = put b.heldOrder i none
  locked : b'.locked = put b.locked i false
  covers : ∀ g, b.width.Covers g → b'.width.Covers g

theorem heldOrder_lift_eq (b : Buddy) (i : Nat) :
    (b.lift i).heldOrder = put b.heldOrder i none := by
  funext j
  by_cases hj : j = i
  · rw [hj, heldOrder_lift, put_self]
  · rw [lift_heldOrder_of_ne hj, put_of_ne _ _ hj]

theorem release_spec (hs : b.Sound) (hh : b.heldOrder i = some o) (hn : b.named i = false)
    (hd : b.deferred i = false) : Released b i (b.release i o) := by
  have hlive : (b.setLive i false).live i = false := by
    unfold setLive
    split
    · exact put_self b.live i false
    · rename_i himaged
      rw [Bool.eq_false_iff]
      exact fun hl => himaged (hs.live_held i hl).2
  have hgap : (b.setLive i false).Gap i o :=
    (hs.gap_held hh hn hd).of_lift_eq (setLive_lift b i false) (by simp [hlive])
  have hfreed := coalesceFree_spec (hgap.of_locked (put b.locked i false)) hlive
  have hframe := Frame.setLive b i false
  refine ⟨hfreed.sound, ⟨hfreed.frame.granule.trans hframe.granule,
    hfreed.frame.maxOrder.trans hframe.maxOrder, hfreed.frame.committed.trans hframe.committed,
    hfreed.frame.deferred.trans hframe.deferred, hfreed.frame.capture.trans hframe.capture,
    hfreed.frame.capturing.trans hframe.capturing, hfreed.frame.imaged.trans hframe.imaged⟩,
    ?_, ?_, hfreed.locked, fun g hg => hfreed.covers g ?_⟩
  · rw [release, hfreed.incarnations]
    exact setLive_incarnations b i false
  · rw [release, hfreed.held, ← heldOrder_lift_eq, ← setLive_lift b i false]
    rfl
  · have hfills : b.Fills i o g := fills_of_covers (fun n hn => by
      rw [width_of_held hh] at hn
      exact (Option.some.inj hn).symm) hg
    rw [Fills, ← setLive_lift b i false] at hfills
    exact hfills

/-! ## Names of blocks -/

/-- The block held from `i` on, as it is named. -/
def blockAt (b : Buddy) (i o : Nat) : Block := ⟨i * b.granule, b.orderBytes o, b.incarnations i⟩

theorem granules_orderBytes (hg : 0 < b.granule) (o : Nat) :
    b.granules (b.orderBytes o) = 2 ^ o := by
  have hpos : 0 < 2 ^ o * b.granule := Nat.mul_pos (Nat.two_pow_pos o) hg
  rw [granules, orderBytes, Nat.max_eq_left hpos]
  rw [Nat.div_eq_of_lt_le]
  · omega
  · rw [Nat.succ_mul]
    omega

theorem orderFor_orderBytes (hg : 0 < b.granule) (ho : o ≤ b.maxOrder) :
    b.orderFor (b.orderBytes o) = .ok o := by
  have hfind : (List.range (b.maxOrder + 1)).find?
      (fun p => decide (b.granules (b.orderBytes o) ≤ 2 ^ p)) = some o := by
    rw [granules_orderBytes hg, List.find?_range_eq_some]
    refine ⟨by simp, by simpa using Nat.lt_succ_of_le ho, fun j hj => ?_⟩
    simpa using Nat.pow_lt_pow_right (by norm_num) hj
  rw [orderFor, hfind]

theorem validate_eq_ok (hs : b.Sound) :
    b.validate block = .ok (i, o) ↔ b.heldOrder i = some o ∧ block = b.blockAt i o := by
  rw [heldOrder, Mark.heldOrder_eq_some]
  constructor
  · intro h
    unfold validate at h
    split at h
    · cases h
    · rename_i hoff
      split at h
      · cases h
      · rename_i order ho
        simp only at h
        split_ifs at h with h1 h2 h3 h4 h5
        cases h
        rw [not_not] at hoff h1 h4 h5
        refine ⟨h4, ?_⟩
        obtain ⟨off, len, inc⟩ := block
        rw [blockAt, Block.mk.injEq]
        exact ⟨(Nat.div_mul_cancel (Nat.dvd_of_mod_eq_zero hoff)).symm, h1.symm, h5.symm⟩
  · rintro ⟨hstate, rfl⟩
    have hw : b.width i = some (2 ^ o) := by rw [width, hstate]; rfl
    have hwithin := hs.within i _ hw
    have hpos := Nat.two_pow_pos o
    have ho : o ≤ b.maxOrder := by
      by_contra hlt
      have := Nat.pow_lt_pow_right (a := 2) (by norm_num) (Nat.lt_of_not_le hlt)
      omega
    unfold validate
    simp only [blockAt, Nat.mul_mod_left, ne_eq, not_true_eq_false, if_false,
      orderFor_orderBytes hs.granule_pos ho, Nat.mul_div_cancel i hs.granule_pos]
    rw [if_neg (by simpa using Nat.mod_eq_zero_of_dvd (hs.aligned i _ hw)), if_neg (by omega),
      if_neg (by simp [hstate])]

theorem holds_iff (hs : b.Sound) :
    b.holds block ↔ ∃ i o, b.heldOrder i = some o ∧ block = b.blockAt i o ∧
      b.deferred i = false := by
  unfold holds
  constructor
  · intro h
    split at h
    · rename_i i o hv
      obtain ⟨hh, hb⟩ := (validate_eq_ok hs).1 hv
      exact ⟨i, o, hh, hb, by simpa using h⟩
    · cases h
  · rintro ⟨i, o, hh, hb, hd⟩
    rw [(validate_eq_ok hs).2 ⟨hh, hb⟩]
    simp [hd]

theorem freeOrDefer_spec (hs : b.Sound) (hh : b.heldOrder i = some o) (hd : b.deferred i = false) :
    (b.namedByAnImage i = false ∧ b.freeOrDefer (b.blockAt i o) = .ok (false, b.release i o)) ∨
      (b.namedByAnImage i = true ∧ b.freeOrDefer (b.blockAt i o) =
        .ok (true, { b with deferred := put b.deferred i true })) := by
  unfold freeOrDefer
  rw [(validate_eq_ok hs).2 ⟨hh, rfl⟩]
  cases hn : b.namedByAnImage i with
  | false => exact .inl ⟨rfl, by simp [hn]⟩
  | true => exact .inr ⟨rfl, by simp [hn, hd]⟩

end Slates.Mem.Buddy
