import Slates.Mem.Trimming

/-!
The buddy over whole runs, with captures left open while blocks are taken and given back: while an
image names a block, nothing is handed out where it lies, and what was given back is free once no
image names it. A capture is closed before the next one opens.
-/

namespace Slates.Mem.Buddy

variable {b b' c : Buddy} {i j o p keep : Nat} {block : Block}

/-- One call that succeeded. A capture is closed before the next one opens. `free_or_defer_trimmed`
is a `free` of each piece in turn. -/
inductive Step : Buddy → Buddy → Prop
  | alloc {b b' : Buddy} {len : Nat} {block : Block} (h : b.alloc len = .ok (block, b')) : Step b b'
  | free {b b' : Buddy} {block : Block} {d : Bool} (h : b.freeOrDefer block = .ok (d, b')) :
    Step b b'
  | trim {b b' : Buddy} {block : Block} {keep : Nat} {pieces : List Block}
    (h : b.trim block keep = .ok (some (pieces, b'))) : Step b b'
  | lock {b b' : Buddy} {block : Block} (h : b.lockBlock block = .ok b') : Step b b'
  | capture {b : Buddy} (h : b.capturing = false) : Step b b.beginCapture
  | commit (b : Buddy) : Step b b.commitCapture
  | abandon (b : Buddy) : Step b b.abandonCapture

/-- The buddies a run of calls makes of a fresh region, started imaged or not. -/
def Reachable (granule maxOrder : Nat) (b : Buddy) : Prop :=
  ∃ fresh ∈ [new granule maxOrder, newImaged granule maxOrder], Relation.ReflTransGen Step fresh b

/-- The region is laid out soundly, every granule is in a block, and only what an image names is
deferred. -/
structure Orderly (b : Buddy) : Prop where
  sound : b.Sound
  covered : ∀ g < 2 ^ b.maxOrder, b.width.Covers g
  deferred_named : ∀ i, b.deferred i → b.named i

theorem Orderly.not_deferred (h : b.Orderly) (j : Nat) (hn : b.named j = false) :
    b.deferred j = false := by
  rw [Bool.eq_false_iff]
  intro hd
  rw [h.deferred_named j hd] at hn
  cases hn

theorem Orderly.frame (h : b.Orderly) (hs : b'.Sound) (hf : Frame b b')
    (hcov : ∀ g, b.width.Covers g → b'.width.Covers g) : b'.Orderly :=
  ⟨hs, fun g hg => hcov g (h.covered g (hf.maxOrder ▸ hg)),
    fun i hi => hf.named i ▸ h.deferred_named i (hf.deferred ▸ hi)⟩

/-- The block at `i` is the one that stood there. -/
structure Stands (b b' : Buddy) (i : Nat) : Prop where
  held : b'.heldOrder i = b.heldOrder i
  incarnation : b'.incarnations i = b.incarnations i
  granule : b'.granule = b.granule

theorem Stands.trans (h : Stands b b' i) (h' : Stands b' c i) : Stands b c i :=
  ⟨h'.held.trans h.held, h'.incarnation.trans h.incarnation, h'.granule.trans h.granule⟩

/-! ## What one call does -/

theorem Took.ne (h : Took b b' j o) (hheld : (b.heldOrder i).isSome) : i ≠ j := by
  rintro rfl
  rw [h.free] at hheld
  cases hheld

theorem Took.stands (h : Took b b' j o) (hheld : (b.heldOrder i).isSome) : Stands b b' i := by
  have hij := h.ne hheld
  refine ⟨?_, ?_, h.frame.granule⟩
  · rw [h.held, put_of_ne _ _ hij]
  · rw [h.incarnations, put_of_ne _ _ hij]

theorem Released.stands (h : Released b j b') (hij : i ≠ j) : Stands b b' i := by
  refine ⟨?_, ?_, h.frame.granule⟩
  · rw [h.held, put_of_ne _ _ hij]
  · rw [h.incarnations]

theorem Trimmed.stands (hs : b.Sound) (h : Trimmed b j o keep b') (hj : b.heldOrder j = some o)
    (hheld : (b.heldOrder i).isSome) (hij : i ≠ j) : Stands b b' i := by
  obtain ⟨p, hp⟩ := Option.isSome_iff_exists.1 hheld
  have hout : ∀ q ∈ piecesOf j (b.granules keep) o, q.1 ≠ i := by
    rintro q hq rfl
    have hmem := mem_piecesOf hq
    rw [Nat.mod_eq_of_lt h.shorter] at hmem
    have hshort := h.shorter
    have hpos := Nat.two_pow_pos q.2
    have hpos' := Nat.two_pow_pos p
    rcases hs.apart _ _ _ _ (width_of_held hj) (width_of_held hp)
      (Ne.symm hij) with hle | hle <;> omega
  refine ⟨?_, ?_, h.frame.granule⟩
  · rw [h.held, putAll_of_notMem hout]
  · rw [h.incarnations, putAll_of_notMem hout]

theorem Orderly.free (h : b.Orderly) {d : Bool} (hf : b.freeOrDefer block = .ok (d, b')) :
    b'.Orderly ∧ (∀ i, b.named i → Stands b b' i) ∧ b'.capture = b.capture ∧
      ∀ i, b.deferred i → b'.deferred i := by
  obtain ⟨j, o, hj, ⟨hn, hr⟩ | ⟨hn, rfl⟩⟩ := freeOrDefer_cases h.sound h.not_deferred hf
  · refine ⟨h.frame hr.sound hr.frame hr.covers, fun i hi => hr.stands ?_, hr.frame.capture,
      fun i hi => by rwa [hr.frame.deferred]⟩
    rintro rfl
    rw [hn] at hi
    cases hi
  · refine ⟨⟨h.sound.deferring hj, h.covered, named_of_deferring h.deferred_named hn⟩,
      fun _ _ => ⟨rfl, rfl, rfl⟩, rfl, fun i hi => ?_⟩
    by_cases hij : i = j
    · rw [hij]
      exact put_self b.deferred j true
    · exact (put_of_ne b.deferred true hij).trans hi

theorem Settled.orderly {which : Nat → Bool} (hs : b.Sound)
    (hcov : ∀ g < 2 ^ b.maxOrder, b.width.Covers g) (hidle : b.capturing = false)
    (hwhich : ∀ i, which i = !b.named i) (h : Settled b (b.deferredOf which) b') :
    b'.Orderly ∧ ∀ i, b'.named i → Stands b b' i := by
  have hk := h.kept hs hidle fun i hi => by rw [hwhich, hi]; rfl
  refine ⟨⟨hk.sound, fun g hg => h.covers g (hcov g (h.maxOrder ▸ hg)), hk.steady.deferred_named⟩,
    fun i hi => ⟨?_, by rw [h.incarnations], h.granule⟩⟩
  rw [h.held, if_neg]
  rw [mem_deferredOf hs, hwhich, ← h.named, hi]
  simp

theorem Orderly.commit (h : b.Orderly) :
    b.commitCapture.Orderly ∧ ∀ i, b.commitCapture.named i → Stands b b.commitCapture i := by
  by_cases hc : b.capturing
  · obtain ⟨ho, hst⟩ := (commitCapture_spec h.sound hc).orderly (h.sound.committing hc) h.covered
      rfl fun i => by simp [named]
    exact ⟨ho, fun i hi => { hst i hi with }⟩
  · rw [commitCapture, if_neg hc]
    exact ⟨h, fun _ _ => ⟨rfl, rfl, rfl⟩⟩

theorem Orderly.abandon (h : b.Orderly) :
    b.abandonCapture.Orderly ∧ ∀ i, b.abandonCapture.named i → Stands b b.abandonCapture i := by
  by_cases hc : b.capturing
  · obtain ⟨ho, hst⟩ := (abandonCapture_spec h.sound hc).orderly h.sound.abandoning h.covered rfl
      fun i => by simp [named]
    exact ⟨ho, fun i hi => { hst i hi with }⟩
  · rw [abandonCapture, if_neg hc]
    exact ⟨h, fun _ _ => ⟨rfl, rfl, rfl⟩⟩

theorem Orderly.capture (h : b.Orderly) (hidle : b.capturing = false) : b.beginCapture.Orderly := by
  refine ⟨sound_beginCapture h.sound, h.covered, fun i hi => ?_⟩
  have hn : b.named i = true := h.deferred_named i hi
  rw [named, hidle] at hn
  simp only [Bool.false_and, Bool.or_false] at hn
  rw [named, show b.beginCapture.committed i = true from hn]
  rfl

theorem Orderly.step (h : b.Orderly) (hstep : Step b b') :
    b'.Orderly ∧ ∀ i, b.named i → b'.named i → Stands b b' i := by
  have hheld : ∀ i, b.named i → (b.heldOrder i).isSome := fun i hi => (h.sound.named_held i hi).1
  cases hstep with
  | alloc ha =>
    obtain ⟨j, o, -, ht, -⟩ := alloc_spec h.sound ha
    exact ⟨h.frame ht.sound ht.frame ht.covers, fun i hi _ => ht.stands (hheld i hi)⟩
  | free hf =>
    obtain ⟨ho, hst, -⟩ := h.free hf
    exact ⟨ho, fun i hi _ => hst i hi⟩
  | trim ht =>
    obtain ⟨j, o, hj, -, htr, -⟩ := trim_spec_of h.sound h.not_deferred ht
    refine ⟨h.frame htr.sound htr.frame htr.covers, fun i hi _ =>
      htr.stands h.sound hj (hheld i hi) ?_⟩
    rintro rfl
    rw [htr.unnamed] at hi
    cases hi
  | lock hl =>
    obtain ⟨l, rfl⟩ := lockBlock_eq hl
    exact ⟨⟨{ h.sound with }, h.covered, h.deferred_named⟩, fun _ _ _ => ⟨rfl, rfl, rfl⟩⟩
  | capture hidle => exact ⟨h.capture hidle, fun _ _ _ => ⟨rfl, rfl, rfl⟩⟩
  | commit => exact ⟨h.commit.1, fun i _ hi => h.commit.2 i hi⟩
  | abandon => exact ⟨h.abandon.1, fun i _ hi => h.abandon.2 i hi⟩

/-! ## Whole runs -/

theorem Reachable.orderly {granule maxOrder : Nat} (hg : 0 < granule)
    (h : Reachable granule maxOrder b) : b.Orderly := by
  obtain ⟨fresh, hfresh, hrun⟩ := h
  induction hrun with
  | refl =>
    simp only [List.mem_cons, List.not_mem_nil, or_false] at hfresh
    rcases hfresh with rfl | rfl
    · exact ⟨sound_new hg, fun _ => covers_new granule maxOrder, fun i hi => by cases hi⟩
    · exact ⟨sound_newImaged hg, fun _ => covers_new granule maxOrder, fun i hi => by cases hi⟩
  | tail _ hstep ih => exact (ih.step hstep).1

theorem Reachable.tail {granule maxOrder : Nat} (h : Reachable granule maxOrder b)
    (hstep : Step b b') : Reachable granule maxOrder b' :=
  let ⟨fresh, hfresh, hrun⟩ := h
  ⟨fresh, hfresh, hrun.tail hstep⟩

theorem Orderly.run (h : b.Orderly) (hn : b.named i)
    (hrun : Relation.ReflTransGen (fun c d => Step c d ∧ d.named i) b c) :
    c.Orderly ∧ c.named i ∧ Stands b c i := by
  induction hrun with
  | refl => exact ⟨h, hn, rfl, rfl, rfl⟩
  | tail _ hstep ih =>
    obtain ⟨ho, hni, hst⟩ := ih
    obtain ⟨ho', hst'⟩ := ho.step hstep.1
    exact ⟨ho', hstep.2, hst.trans (hst' i hni hstep.2)⟩

theorem Sound.blocks_apart (hs : b.Sound) (hi : b.heldOrder i = some o)
    (hj : b.heldOrder j = some p)
    (hij : i ≠ j) :
    (i + 2 ^ o) * b.granule ≤ j * b.granule ∨ (j + 2 ^ p) * b.granule ≤ i * b.granule :=
  (hs.apart _ _ _ _ (width_of_held hi) (width_of_held hj) hij).imp (Nat.mul_le_mul_right _)
    (Nat.mul_le_mul_right _)

/-- Any two blocks the region validates, given back or not, are one block or lie apart in it. -/
theorem validated_apart {granule maxOrder : Nat} (hg : 0 < granule)
    (hb : Reachable granule maxOrder b) {x y : Block} {m n : Nat × Nat}
    (hx : b.validate x = .ok m) (hy : b.validate y = .ok n) :
    x.offset + x.len ≤ b.regionBytes ∧
      (x = y ∨ x.offset + x.len ≤ y.offset ∨ y.offset + y.len ≤ x.offset) := by
  have hs := (hb.orderly hg).sound
  obtain ⟨hi, rfl⟩ := (validate_eq_ok hs).1 hx
  obtain ⟨hj, rfl⟩ := (validate_eq_ok hs).1 hy
  simp only [blockAt, orderBytes, ← Nat.add_mul]
  refine ⟨Nat.mul_le_mul_right _ (hs.within _ _ (width_of_held hi)), ?_⟩
  by_cases hmn : m.1 = n.1
  · rw [← hmn, hi, Option.some.injEq] at hj
    rw [hmn, hj]
    exact .inl rfl
  · exact .inr (hs.blocks_apart hi hj hmn)

theorem Sound.alloc_apart (hs : b.Sound) (hi : b.heldOrder i = some o) {len : Nat}
    (ha : b.alloc len = .ok (block, b')) :
    block.offset + block.len ≤ i * b.granule ∨ (i + 2 ^ o) * b.granule ≤ block.offset := by
  obtain ⟨j, p, -, ht, rfl⟩ := alloc_spec hs ha
  have hheld : (b.heldOrder i).isSome := by rw [hi]; rfl
  have hi' := (ht.stands hheld).held.trans hi
  have hj' : b'.heldOrder j = some p := by rw [ht.held, put_self]
  rw [orderBytes, ← Nat.add_mul, ← ht.frame.granule]
  exact (ht.sound.blocks_apart hi' hj' (ht.ne hheld)).symm

/-- For as long as an image names a block, the block stands, and no allocation hands out its bytes.
-/
theorem named_never_handed_out {granule maxOrder : Nat} (hg : 0 < granule)
    (hb : Reachable granule maxOrder b) (hn : b.named i)
    (hrun : Relation.ReflTransGen (fun c d => Step c d ∧ d.named i) b c) :
    ∃ o, b.heldOrder i = some o ∧ c.heldOrder i = some o ∧ c.incarnations i = b.incarnations i ∧
      ∀ len block d, c.alloc len = .ok (block, d) →
        block.offset + block.len ≤ i * b.granule ∨ (i + 2 ^ o) * b.granule ≤ block.offset := by
  have h := hb.orderly hg
  obtain ⟨o, ho⟩ := Option.isSome_iff_exists.1 (h.sound.named_held i hn).1
  obtain ⟨hc, -, hst⟩ := h.run hn hrun
  have hco : c.heldOrder i = some o := hst.held.trans ho
  refine ⟨o, ho, hco, hst.incarnation, fun len block d ha => ?_⟩
  rw [← hst.granule]
  exact hc.sound.alloc_apart hco ha

/-- A block taken and imaged. -/
def imagedOnce : Buddy :=
  match (new 4 1).alloc 3 with
  | .ok (_, b) => b.beginCapture.commitCapture
  | .error _ => new 4 1

/-- The block given back while the image names it. -/
def givenBack : Buddy :=
  match imagedOnce.freeOrDefer ⟨0, 4, 1⟩ with
  | .ok (_, b) => b
  | .error _ => imagedOnce

theorem reachable_imagedOnce : Reachable 4 1 imagedOnce := by
  have htaken : ∃ block b, (new 4 1).alloc 3 = .ok (block, b) ∧
      imagedOnce = b.beginCapture.commitCapture ∧ b.capturing = false := ⟨_, _, rfl, rfl, rfl⟩
  obtain ⟨block, b, h, himaged, hidle⟩ := htaken
  rw [himaged]
  exact ⟨_, List.mem_cons_self,
    ((Relation.ReflTransGen.single (.alloc h)).tail (.capture hidle)).tail (.commit _)⟩

theorem step_givenBack : Step imagedOnce givenBack :=
  .free (show imagedOnce.freeOrDefer ⟨0, 4, 1⟩ = .ok (true, givenBack) from rfl)

theorem validated_apart_imagedOnce : ∃ b : Buddy, 0 + 4 ≤ b.regionBytes ∧
    ((⟨0, 4, 1⟩ : Block) = ⟨4, 4, 1⟩ ∨ 0 + 4 ≤ 4 ∨ 4 + 4 ≤ 0) := by
  obtain ⟨b, h, hx, hy⟩ : ∃ b, imagedOnce.alloc 3 = .ok (⟨4, 4, 1⟩, b) ∧
    b.validate ⟨0, 4, 1⟩ = .ok (0, 0) ∧ b.validate ⟨4, 4, 1⟩ = .ok (1, 0) := ⟨_, rfl, rfl, rfl⟩
  exact ⟨b, validated_apart (by decide) (reachable_imagedOnce.tail (.alloc h)) hx hy⟩

theorem named_never_handed_out_givenBack :
    ∃ o, imagedOnce.heldOrder 0 = some o ∧ givenBack.heldOrder 0 = some o ∧
      givenBack.incarnations 0 = imagedOnce.incarnations 0 ∧
      ∀ len block d, givenBack.alloc len = .ok (block, d) →
        block.offset + block.len ≤ 0 * imagedOnce.granule ∨
          (0 + 2 ^ o) * imagedOnce.granule ≤ block.offset :=
  named_never_handed_out (by decide) reachable_imagedOnce rfl
    (.single ⟨step_givenBack, rfl⟩)

theorem Orderly.waits (h : b.Orderly) (hopen : b.capturing) (hd : b.deferred i)
    (hout : b.capture i = false) (hstep : Step b b') (hstill : b'.capturing) :
    b'.deferred i ∧ b'.capture i = false := by
  cases hstep with
  | alloc ha =>
    obtain ⟨j, o, -, ht, -⟩ := alloc_spec h.sound ha
    rw [ht.frame.deferred, ht.frame.capture]
    exact ⟨hd, hout⟩
  | free hf =>
    obtain ⟨-, -, hcap, hdef⟩ := h.free hf
    rw [hcap]
    exact ⟨hdef i hd, hout⟩
  | trim ht =>
    obtain ⟨j, o, -, -, htr, -⟩ := trim_spec_of h.sound h.not_deferred ht
    rw [htr.frame.deferred, htr.frame.capture]
    exact ⟨hd, hout⟩
  | lock hl =>
    obtain ⟨l, rfl⟩ := lockBlock_eq hl
    exact ⟨hd, hout⟩
  | capture hidle =>
    rw [hidle] at hopen
    cases hopen
  | commit =>
    rw [(commitCapture_spec h.sound hopen).capturing] at hstill
    cases hstill
  | abandon =>
    rw [(abandonCapture_spec h.sound hopen).capturing] at hstill
    cases hstill

/-- Granule `g` is in a block of the free lists. -/
def Free (b : Buddy) (g : Nat) : Prop := ∃ j p, j ∈ b.heads p ∧ j ≤ g ∧ g < j + 2 ^ p

theorem Orderly.free_of_not_held (h : b.Orderly) {g : Nat} (hg : g < 2 ^ b.maxOrder)
    (hout : ∀ j p, b.heldOrder j = some p → j + 2 ^ p ≤ g ∨ g < j) : b.Free g := by
  obtain ⟨j, n, hj, hle, hlt⟩ := h.covered g hg
  unfold width at hj
  cases hstate : b.state j with
  | inside =>
    rw [hstate] at hj
    cases hj
  | free p =>
    rw [hstate] at hj
    cases hj
    exact ⟨j, p, (h.sound.listed j p).2 hstate, hle, hlt⟩
  | held p =>
    rw [hstate] at hj
    cases hj
    have := hout j p (Mark.heldOrder_eq_some.2 hstate)
    omega

/-- A block given back before a capture is free once that capture is committed, whatever happens
while it is open: every granule of it is in a free block. -/
theorem deferred_freed_by_commit {granule maxOrder : Nat} (hg : 0 < granule)
    (hb : Reachable granule maxOrder b) (hidle : b.capturing = false) (hd : b.deferred i)
    (hrun : Relation.ReflTransGen (fun c d => Step c d ∧ d.capturing) b.beginCapture c) :
    ∃ o, b.heldOrder i = some o ∧ c.commitCapture.deferred i = false ∧
      ∀ g, i ≤ g → g < i + 2 ^ o → c.commitCapture.Free g := by
  obtain ⟨o, hheld⟩ := Option.isSome_iff_exists.1 ((hb.orderly hg).sound.deferred_held i hd)
  have hinv : c.Orderly ∧ c.capturing ∧ c.deferred i ∧ c.capture i = false ∧
      c.heldOrder i = some o := by
    induction hrun with
    | refl =>
      exact ⟨(hb.orderly hg).capture hidle, rfl, hd, by simp [beginCapture, hd], hheld⟩
    | tail _ hstep ih =>
      obtain ⟨ho, hopen, hdef, hout, hat⟩ := ih
      obtain ⟨ho', hstands⟩ := ho.step hstep.1
      obtain ⟨hdef', hout'⟩ := ho.waits hopen hdef hout hstep.1 hstep.2
      have hst := hstands i (ho.deferred_named i hdef) (ho'.deferred_named i hdef')
      exact ⟨ho', hstep.2, hdef', hout', hst.held.trans hat⟩
  obtain ⟨ho, hopen, hdef, hout, hat⟩ := hinv
  have hset := commitCapture_spec ho.sound hopen
  have hgone : i ∈ ({ c with capturing := false, committed := c.capture } : Buddy).deferredOf
      fun i => !c.capture i := by
    rw [mem_deferredOf (ho.sound.committing hopen), hout]
    exact ⟨hdef, rfl⟩
  refine ⟨o, hheld, by rw [hset.deferred, if_pos hgone], fun g hle hlt => ?_⟩
  have hwithin := ho.sound.within i _ (width_of_held hat)
  refine ho.commit.1.free_of_not_held ?_ fun j p hj => ?_
  · rw [hset.maxOrder]
    exact Nat.lt_of_lt_of_le hlt hwithin
  · -- What is held after the commit was held before it, beside the block.
    rw [hset.held] at hj
    split at hj
    · cases hj
    · rename_i hnot
      have hne : j ≠ i := fun h => hnot (h ▸ hgone)
      have hj : c.heldOrder j = some p := hj
      have := ho.sound.apart _ _ _ _ (width_of_held hj) (width_of_held hat) hne
      omega

theorem deferred_freed_by_commit_givenBack :
    ∃ o, givenBack.heldOrder 0 = some o ∧
      givenBack.beginCapture.commitCapture.deferred 0 = false ∧
      ∀ g, 0 ≤ g → g < 0 + 2 ^ o → givenBack.beginCapture.commitCapture.Free g :=
  deferred_freed_by_commit (by decide) (reachable_imagedOnce.tail step_givenBack) rfl rfl
    .refl

end Slates.Mem.Buddy
