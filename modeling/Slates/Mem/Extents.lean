import Slates.Mem.Arena

/-!
What the arena's calls do to the extents it holds: held extents share no byte (`apart_of_holds`),
and each call touches the bytes of its own extent only.
-/

namespace Slates.Mem

namespace Slot

variable {granule : Nat} {s s' : Slot granule} {i o len : Nat} {block : Block}

/-- The bytes of the region outside `[off, off + len)` are those of `s`. -/
structure Same (s s' : Slot granule) (off len : Nat) : Prop where
  id : s'.id = s.id
  size : s'.size = s.size
  mem : ∀ i, i < off ∨ off + len ≤ i → s'.mem i = s.mem i

theorem Same.trans {t : Slot granule} {off : Nat} (h : Same s s' off len) (h' : Same s' t off len) :
    Same s t off len :=
  ⟨h'.id.trans h.id, h'.size.trans h.size, fun i hi => (h'.mem i hi).trans (h.mem i hi)⟩

theorem Same.widen {off off' len' : Nat} (h : Same s s' off len) (hlo : off' ≤ off)
    (hhi : off + len ≤ off' + len') : Same s s' off' len' :=
  ⟨h.id, h.size, fun i hi => h.mem i (by omega)⟩

theorem same_withBuddy (s : Slot granule) (b : Buddy) (h : Buddy.Kept s.buddy b) (off len : Nat) :
    Same s (s.withBuddy b h) off len := ⟨rfl, rfl, fun _ _ => rfl⟩

theorem same_scrub (s : Slot granule) (off len : Nat) : Same s (s.scrub off len) off len :=
  ⟨rfl, rfl, fun i hi => by rw [scrub]; exact if_neg (by omega)⟩

theorem write_mem (s : Slot granule) (off : Nat) (bytes : List UInt8) (i : Nat) :
    (s.write off bytes).mem i =
      if off ≤ i ∧ i < off + bytes.length then bytes.getD (i - off) 0 else s.mem i := rfl

theorem alloc_spec (h : s.alloc len = .ok (block, s')) :
    ∃ i o, s.buddy.orderFor len = .ok o ∧ Buddy.Took s.buddy s'.buddy i o ∧
      block = s'.buddy.blockAt i o ∧ s'.mem = s.mem ∧ s'.id = s.id ∧ s'.size = s.size := by
  unfold alloc at h
  split at h
  · cases h
  · rename_i block' b hb
    cases h
    obtain ⟨i, o, ho, ht, rfl⟩ := Buddy.alloc_spec s.sound hb
    refine ⟨i, o, ho, ht, ?_, rfl, rfl, rfl⟩
    rw [Buddy.blockAt]
    simp only [withBuddy, ht.incarnations, put_self, ht.frame.granule, Buddy.orderBytes]

theorem free_spec (hh : s.buddy.heldOrder i = some o) (hd : s.buddy.deferred i = false) :
    ∃ s', s.free (s.buddy.blockAt i o) = .ok s' ∧
      Same s s' (i * s.buddy.granule) (s.buddy.orderBytes o) ∧
      ((s.buddy.named i = false ∧ Buddy.Released s.buddy i s'.buddy) ∨
        (s.buddy.named i = true ∧
          s'.buddy = { s.buddy with deferred := put s.buddy.deferred i true })) := by
  unfold free
  rcases Buddy.freeOrDefer_spec s.sound hh hd with ⟨hn, hf⟩ | ⟨hn, hf⟩
  · rw [s.sound.namedByAnImage_eq] at hn
    have hr := Buddy.release_spec s.sound hh hn hd
    split
    · rename_i e he
      rw [hf] at he
      cases he
    · rename_i d b hb
      rw [hf] at hb
      cases hb
      refine ⟨_, rfl, ?_, .inl ⟨hn, hr⟩⟩
      exact (same_withBuddy s _ _ _ _).trans (same_scrub _ _ _)
  · rw [s.sound.namedByAnImage_eq] at hn
    split
    · rename_i e he
      rw [hf] at he
      cases he
    · rename_i d b hb
      rw [hf] at hb
      cases hb
      exact ⟨s.withBuddy _ (Buddy.freeOrDefer_kept s.sound s.steady hf), rfl,
        same_withBuddy s _ _ _ _, .inr ⟨hn, rfl⟩⟩

theorem lock_spec (h : s.lock block = .ok s') :
    (∃ locked, s'.buddy = { s.buddy with locked := locked }) ∧ s'.mem = s.mem ∧ s'.id = s.id ∧
      s'.size = s.size := by
  unfold lock at h
  split at h
  · cases h
  · rename_i b hb
    cases h
    exact ⟨Buddy.lockBlock_eq hb, rfl, rfl, rfl⟩

theorem sum_piecesOf (b : Buddy) (a n k : Nat) :
    ((Buddy.piecesOf a n k).map fun p => b.orderBytes p.2).sum = n % 2 ^ k * b.granule := by
  induction k using Nat.strong_induction_on generalizing a with
  | _ k ih =>
    by_cases hm : n % 2 ^ k = 0
    · rw [Buddy.piecesOf_nil hm, hm, Nat.zero_mul]
      rfl
    · obtain ⟨q, hq, hp, hsum⟩ := Buddy.piecesOf_cons (a := a) hm
      rw [hp, List.map_cons, List.sum_cons, ih q hq, hsum, Nat.add_mul]
      rfl

theorem trim_spec {keep dirty : Nat} {head : Option Block} (hk : keep ≤ block.len)
    (h : s.trim block keep dirty = .ok (some (head, s'))) :
    ∃ i o, s.buddy.heldOrder i = some o ∧ block = s.buddy.blockAt i o ∧
      Buddy.Trimmed s.buddy i o keep s'.buddy ∧
      (∃ q, (Buddy.piecesOf i (s.buddy.granules keep) o).head? = some (i, q) ∧
        head = some (s'.buddy.blockAt i q)) ∧
      Same s s' (block.offset + s.buddy.granules keep * s.buddy.granule)
        (block.len - s.buddy.granules keep * s.buddy.granule) := by
  unfold trim at h
  split at h
  · cases h
  · cases h
  · rename_i pieces b hb
    cases h
    obtain ⟨i, o, hh, rfl, ht, rfl⟩ := Buddy.trim_spec s.sound s.steady hb
    have hgr : (b.blockAt i o).len = (s.buddy.blockAt i o).len := by
      simp only [Buddy.blockAt, Buddy.orderBytes, ht.frame.granule]
    have hsum : ((((Buddy.piecesOf i (s.buddy.granules keep) o).map
        fun p => b.blockAt p.1 p.2).map Block.len).sum) =
          s.buddy.granules keep * s.buddy.granule := by
      rw [List.map_map]
      have : (Block.len ∘ fun p : Nat × Nat => b.blockAt p.1 p.2) = fun p => b.orderBytes p.2 := rfl
      rw [this, sum_piecesOf, Nat.mod_eq_of_lt ht.shorter, ht.frame.granule]
    have hle : s.buddy.granules keep * s.buddy.granule ≤ s.buddy.orderBytes o :=
      Nat.mul_le_mul_right _ ht.shorter.le
    refine ⟨i, o, hh, rfl, ?_, ?_, ?_⟩
    · split
      · exact ht
      · exact ht
    · have hpos := Buddy.granules_pos s.sound.granule_pos keep
      obtain ⟨q, -, hp, -⟩ := Buddy.piecesOf_cons (a := i) (n := s.buddy.granules keep) (k := o) (by
        rw [Nat.mod_eq_of_lt ht.shorter]
        omega)
      have hhead : ((Buddy.piecesOf i (s.buddy.granules keep) o).map
          fun p => b.blockAt p.1 p.2).head? = some (b.blockAt i q) := by
        rw [hp]
        rfl
      refine ⟨q, by rw [hp]; rfl, ?_⟩
      split
      · exact hhead
      · exact hhead
    · rw [hsum]
      have hlen : (s.buddy.blockAt i o).len = s.buddy.orderBytes o := rfl
      split
      · rename_i hw
        refine (same_withBuddy s _ _ _ _).trans ((same_scrub _ _ _).widen (le_refl _) ?_)
        rw [hlen] at hw ⊢
        omega
      · exact same_withBuddy s _ _ _ _

end Slot

namespace ChunkArena

variable {granule : Nat} {a a' : ChunkArena granule} {e x : Extent} {r i o off n : Nat}

/-! ## Slots -/

theorem slot_id {s : Slot granule} (h : a.slot r = some s) : s.id = r := by
  simpa using List.find?_some h

theorem slot_setSlot {s t : Slot granule} (ht : a.slot s.id = some t) (r : Nat) :
    (a.setSlot s).slot r = if r = s.id then some s else a.slot r := by
  -- a replaced slot has the number it had, so the same one is found
  have hmap : (a.setSlot s).slot r = (a.slot r).map fun t => if t.id = s.id then s else t := by
    unfold slot setSlot
    rw [List.find?_map]
    congr 2
    funext t
    by_cases h : t.id = s.id <;> simp [h]
  rw [hmap]
  by_cases hr : r = s.id
  · subst hr
    rw [if_pos rfl, ht, Option.map_some, if_pos (slot_id ht)]
  · rw [if_neg hr]
    cases hu : a.slot r with
    | none => rfl
    | some u => rw [Option.map_some, if_neg (by rwa [slot_id hu])]

end ChunkArena

/-! ## Places -/

def put2 {β : Type} (f : Nat → Nat → β) (r i : Nat) (v : β) : Nat → Nat → β :=
  put f r (put (f r) i v)

theorem put2_self {β : Type} (f : Nat → Nat → β) (r i : Nat) (v : β) : put2 f r i v r i = v := by
  rw [put2, put_self, put_self]

theorem put2_of_ne {β : Type} (f : Nat → Nat → β) {r i s j : Nat} (v : β)
    (h : (s, j) ≠ (r, i)) : put2 f r i v s j = f s j := by
  unfold put2
  by_cases hs : s = r
  · subst hs
    rw [put_self, put_of_ne _ _ fun hj => h (by rw [hj])]
  · rw [put_of_ne _ _ hs]

/-- Blocks held at places, a place being a region and a granule, and their bytes. -/
@[ext]
structure View where
  held : Nat → Nat → Option Nat
  deferred : Nat → Nat → Bool
  named : Nat → Nat → Bool
  incarnation : Nat → Nat → Nat
  byte : Nat → Nat → UInt8
  size : Nat → Option Nat

namespace View

variable {granule : Nat} {v v' v'' : View} {P Q : Nat → Nat → Prop} {r i o off n : Nat}

/-- The bytes of a region, when it has them. -/
def read (v : View) (r off len : Nat) : Option (List UInt8) :=
  (v.size r).bind fun size =>
    if off + len ≤ size then some ((List.range len).map fun i => v.byte r (off + i)) else none

/-- Every block of `P` is held as it was, with the bytes it had. -/
structure Frames (granule : Nat) (v v' : View) (P : Nat → Nat → Prop) : Prop where
  size : v'.size = v.size
  held : ∀ r i, P r i → v'.held r i = v.held r i
  deferred : ∀ r i, P r i → v'.deferred r i = v.deferred r i
  named : ∀ r i, P r i → v'.named r i = v.named r i
  incarnation : ∀ r i, P r i → v'.incarnation r i = v.incarnation r i
  byte : ∀ r i o k, P r i → v.held r i = some o → i * granule ≤ k → k < (i + 2 ^ o) * granule →
    v'.byte r k = v.byte r k

theorem Frames.refl (v : View) (P : Nat → Nat → Prop) : Frames granule v v P :=
  ⟨rfl, fun _ _ _ => rfl, fun _ _ _ => rfl, fun _ _ _ => rfl, fun _ _ _ => rfl,
    fun _ _ _ _ _ _ _ _ => rfl⟩

theorem Frames.mono (h : Frames granule v v' P) (hq : ∀ r i, Q r i → P r i) :
    Frames granule v v' Q :=
  ⟨h.size, fun r i hi => h.held r i (hq r i hi), fun r i hi => h.deferred r i (hq r i hi),
    fun r i hi => h.named r i (hq r i hi), fun r i hi => h.incarnation r i (hq r i hi),
    fun r i o k hi => h.byte r i o k (hq r i hi)⟩

theorem Frames.trans (h : Frames granule v v' P) (h' : Frames granule v' v'' P) :
    Frames granule v v'' P where
  size := h'.size.trans h.size
  held r i hi := (h'.held r i hi).trans (h.held r i hi)
  deferred r i hi := (h'.deferred r i hi).trans (h.deferred r i hi)
  named r i hi := (h'.named r i hi).trans (h.named r i hi)
  incarnation r i hi := (h'.incarnation r i hi).trans (h.incarnation r i hi)
  byte r i o k hi hh hlo hhi :=
    (h'.byte r i o k hi ((h.held r i hi).trans hh) hlo hhi).trans (h.byte r i o k hi hh hlo hhi)

theorem Frames.read (h : Frames granule v v' P) (hp : P r i) (hh : v.held r i = some o)
    (hlo : i * granule ≤ off) (hhi : off + n ≤ (i + 2 ^ o) * granule) :
    v'.read r off n = v.read r off n := by
  unfold View.read
  rw [h.size]
  cases v.size r with
  | none => rfl
  | some size =>
    simp only [Option.bind_some]
    split
    · congr 1
      refine List.map_congr_left fun k hk => ?_
      rw [List.mem_range] at hk
      exact h.byte r i o _ hp hh (by omega) (by omega)
    · rfl

end View

namespace ChunkArena

variable {granule : Nat} {a a' : ChunkArena granule} {e x : Extent} {r i o off n len : Nat}

def view (a : ChunkArena granule) : View where
  held r i := (a.slot r).bind fun s => s.buddy.heldOrder i
  deferred r i := (a.slot r).any fun s => s.buddy.deferred i
  named r i := (a.slot r).any fun s => s.buddy.named i
  incarnation r i := ((a.slot r).map fun s => s.buddy.incarnations i).getD 0
  byte r i := ((a.slot r).map fun s => s.mem i).getD 0
  size r := (a.slot r).map Slot.size

/-- The extent that names the block of order `o` at a place. -/
def extentAt (a : ChunkArena granule) (identity r i o : Nat) : Extent :=
  ⟨identity, r, ⟨i * granule, 2 ^ o * granule, a.view.incarnation r i⟩⟩

theorem view_held_of_slot {s : Slot granule} (h : a.slot r = some s) :
    a.view.held r = s.buddy.heldOrder := by
  funext i
  simp [view, h]

theorem view_incarnation_of_slot {s : Slot granule} (h : a.slot r = some s) :
    a.view.incarnation r = s.buddy.incarnations := by
  funext i
  simp [view, h]

theorem view_deferred_of_slot {s : Slot granule} (h : a.slot r = some s) :
    a.view.deferred r = s.buddy.deferred := by
  funext i
  simp [view, h]

theorem view_named_of_slot {s : Slot granule} (h : a.slot r = some s) :
    a.view.named r = s.buddy.named := by
  funext i
  simp [view, h]

theorem view_byte_of_slot {s : Slot granule} (h : a.slot r = some s) : a.view.byte r = s.mem := by
  funext i
  simp [view, h]

theorem view_setSlot {s t : Slot granule} (ht : a.slot s.id = some t) :
    (a.setSlot s).view = ⟨put a.view.held s.id s.buddy.heldOrder,
      put a.view.deferred s.id s.buddy.deferred, put a.view.named s.id s.buddy.named,
      put a.view.incarnation s.id s.buddy.incarnations, put a.view.byte s.id s.mem,
      put a.view.size s.id (some s.size)⟩ := by
  have hself : (a.setSlot s).slot s.id = some s := by rw [slot_setSlot ht, if_pos rfl]
  have hne : ∀ r, r ≠ s.id → (a.setSlot s).slot r = a.slot r := by
    intro r hr
    rw [slot_setSlot ht, if_neg hr]
  unfold view
  congr 1
  all_goals
    funext r
    by_cases hr : r = s.id
    · subst hr
      simp [hself]
    · simp [hne r hr, put_of_ne _ _ hr]

section

variable {s s' : Slot granule} (hslot : a.slot s'.id = some s)

include hslot

theorem deferred_setSlot (h : s'.buddy.deferred = s.buddy.deferred) :
    (a.setSlot s').view.deferred = a.view.deferred := by
  rw [view_setSlot hslot, h, ← view_deferred_of_slot hslot, put_eq_self]

theorem named_setSlot (h : s'.buddy.named = s.buddy.named) :
    (a.setSlot s').view.named = a.view.named := by
  rw [view_setSlot hslot, h, ← view_named_of_slot hslot, put_eq_self]

theorem incarnation_setSlot (h : s'.buddy.incarnations = s.buddy.incarnations) :
    (a.setSlot s').view.incarnation = a.view.incarnation := by
  rw [view_setSlot hslot, h, ← view_incarnation_of_slot hslot, put_eq_self]

theorem held_setSlot (h : s'.buddy.heldOrder = s.buddy.heldOrder) :
    (a.setSlot s').view.held = a.view.held := by
  rw [view_setSlot hslot, h, ← view_held_of_slot hslot, put_eq_self]

theorem byte_setSlot (h : s'.mem = s.mem) : (a.setSlot s').view.byte = a.view.byte := by
  rw [view_setSlot hslot, h, ← view_byte_of_slot hslot, put_eq_self]

theorem size_setSlot (h : s'.size = s.size) : (a.setSlot s').view.size = a.view.size := by
  rw [view_setSlot hslot, h, show some s.size = a.view.size s'.id by simp [view, hslot],
    put_eq_self]

end

theorem setSlot_setSlot {s s' : Slot granule} (hid : s'.id = s.id) :
    (a.setSlot s).setSlot s' = a.setSlot s' := by
  unfold setSlot
  congr 1
  rw [List.map_map]
  refine List.map_congr_left fun t _ => ?_
  by_cases ht : t.id = s.id <;> simp [ht, hid]

theorem held_within (h : a.view.held r i = some o) :
    ∃ size, a.view.size r = some size ∧ (i + 2 ^ o) * granule ≤ size := by
  simp only [view] at h ⊢
  cases hs : a.slot r with
  | none =>
    rw [hs] at h
    cases h
  | some s =>
    rw [hs, Option.bind_some] at h
    refine ⟨s.size, rfl, le_trans ?_ s.fits⟩
    rw [Buddy.regionBytes, s.uniform]
    exact Nat.mul_le_mul_right _ (s.sound.within i _ (Buddy.width_of_held h))

variable {j p identity : Nat} {prepared locks : Bool} {a'' : ChunkArena granule}
  {bytes : List UInt8}

theorem held_apart (hi : a.view.held r i = some o) (hj : a.view.held r j = some p) (hij : i ≠ j) :
    (i + 2 ^ o) * granule ≤ j * granule ∨ (j + 2 ^ p) * granule ≤ i * granule := by
  simp only [view] at hi hj
  cases hs : a.slot r with
  | none =>
    rw [hs] at hi
    cases hi
  | some s =>
    rw [hs, Option.bind_some] at hi hj
    exact (s.sound.apart i j _ _ (Buddy.width_of_held hi) (Buddy.width_of_held hj) hij).imp
      (Nat.mul_le_mul_right granule) (Nat.mul_le_mul_right granule)

theorem held_of_deferred (h : a.view.deferred r i) : (a.view.held r i).isSome := by
  simp only [view] at h ⊢
  cases hs : a.slot r with
  | none =>
    rw [hs] at h
    cases h
  | some s =>
    rw [hs] at h
    exact s.sound.deferred_held i h

theorem deferred_of_free (h : a.view.held r i = none) : a.view.deferred r i = false := by
  rw [Bool.eq_false_iff]
  intro hd
  have := held_of_deferred hd
  rw [h] at this
  cases this

theorem named_of_free (h : a.view.held r i = none) : a.view.named r i = false := by
  simp only [view] at h ⊢
  cases hs : a.slot r with
  | none => rfl
  | some s =>
    rw [hs, Option.bind_some] at h
    exact Buddy.not_named_of_free s.sound h

theorem asks_iff {q : Slot granule → Bool} :
    a.asks e q ↔ a.identity = some e.arena ∧ ∃ s, a.slot e.region = some s ∧ q s := by
  unfold asks
  rw [Bool.and_eq_true_iff, beq_iff_eq]
  refine and_congr_right fun _ => ?_
  cases a.slot e.region <;> simp

theorem blockAt_eq (s : Slot granule) (i o : Nat) :
    s.buddy.blockAt i o = ⟨i * granule, 2 ^ o * granule, s.buddy.incarnations i⟩ := by
  rw [Buddy.blockAt, Buddy.orderBytes, s.uniform]

theorem holds_iff : a.holds e ↔ a.identity = some e.arena ∧ ∃ i o,
    a.view.held e.region i = some o ∧ e.block = ⟨i * granule, 2 ^ o * granule,
      a.view.incarnation e.region i⟩ ∧ a.view.deferred e.region i = false := by
  rw [holds, asks_iff]
  refine and_congr_right fun _ => ⟨?_, ?_⟩
  · rintro ⟨s, hs, hh⟩
    obtain ⟨i, o, h1, h2, h3⟩ := (Buddy.holds_iff s.sound).1 hh
    refine ⟨i, o, ?_, ?_, ?_⟩
    · rw [view_held_of_slot hs, h1]
    · rw [view_incarnation_of_slot hs, h2, blockAt_eq]
    · rw [view_deferred_of_slot hs, h3]
  · rintro ⟨i, o, h1, h2, h3⟩
    cases hs : a.slot e.region with
    | none => simp [view, hs] at h1
    | some s =>
      rw [view_held_of_slot hs] at h1
      rw [view_incarnation_of_slot hs] at h2
      rw [view_deferred_of_slot hs] at h3
      exact ⟨s, rfl, (Buddy.holds_iff s.sound).2 ⟨i, o, h1, by rw [h2, blockAt_eq], h3⟩⟩

theorem place_of_holds (h : a.holds e) : ∃ i o identity, a.identity = some identity ∧
    a.view.held e.region i = some o ∧ e = a.extentAt identity e.region i o ∧
      a.view.deferred e.region i = false := by
  obtain ⟨hid, i, o, hh, hb, hd⟩ := holds_iff.1 h
  refine ⟨i, o, e.arena, hid, hh, ?_, hd⟩
  obtain ⟨arena, region, block⟩ := e
  simp only at hb
  rw [extentAt, hb]

theorem holds_extentAt (hid : a.identity = some identity) (hh : a.view.held r i = some o)
    (hd : a.view.deferred r i = false) : a.holds (a.extentAt identity r i o) :=
  holds_iff.2 ⟨hid, i, o, hh, rfl, hd⟩

theorem read_eq (a : ChunkArena granule) (r off len : Nat) :
    a.read r off len = a.view.read r off len := by
  unfold read View.read
  simp only [view]
  cases hs : a.slot r with
  | none => rfl
  | some s => rfl

/-! ## Allocation -/

theorem slot_of_mem {s : Slot granule} (h : s ∈ a.slots) : a.slot s.id = some s := by
  have hids := a.ids
  unfold slot
  revert h hids
  induction a.slots with
  | nil => nofun
  | cons t rest ih =>
    intro h hids
    rw [List.map_cons, List.nodup_cons] at hids
    rw [List.find?_cons]
    rcases List.mem_cons.1 h with rfl | h
    · simp
    · have hne : t.id ≠ s.id := fun heq => hids.1 (heq ▸ List.mem_map_of_mem h)
      simp only [hne, decide_false]
      exact ih h hids.2

theorem firstFit_mem {slots : List (Slot granule)} {largest : Nat} {block : Block}
    {s' : Slot granule} (h : firstFit len slots largest = .ok (block, s')) :
    ∃ s ∈ slots, s.alloc len = .ok (block, s') := by
  induction slots generalizing largest with
  | nil => cases h
  | cons s rest ih =>
    rw [firstFit] at h
    split at h
    · rename_i found hs
      cases h
      exact ⟨s, List.mem_cons_self, hs⟩
    · obtain ⟨t, ht, hs⟩ := ih h
      exact ⟨t, List.mem_cons_of_mem s ht, hs⟩
    · obtain ⟨t, ht, hs⟩ := ih h
      exact ⟨t, List.mem_cons_of_mem s ht, hs⟩
    · cases h

/-- A block is held where none was, and nothing else changed. -/
structure Allocated (a a' : ChunkArena granule) (r i o : Nat) : Prop where
  identity : a'.identity = a.identity
  free : a.view.held r i = none
  held : a'.view.held = put2 a.view.held r i (some o)
  incarnation : a'.view.incarnation =
    put2 a.view.incarnation r i (a.view.incarnation r i + 1)
  deferred : a'.view.deferred = a.view.deferred
  named : a'.view.named = a.view.named
  byte : a'.view.byte = a.view.byte
  size : a'.view.size = a.view.size

/-- Every block held is as it was. -/
abbrev Keeps (a a' : ChunkArena granule) : Prop :=
  View.Frames granule a.view a'.view fun r i => (a.view.held r i).isSome

theorem Allocated.keeps (h : Allocated a a' r i o) : Keeps a a' := by
  have hne : ∀ s j, (a.view.held s j).isSome → (s, j) ≠ (r, i) := by
    rintro s j hs heq
    cases heq
    rw [h.free] at hs
    cases hs
  refine ⟨h.size, fun s j hs => ?_, fun s j _ => by rw [h.deferred], fun s j _ => by rw [h.named],
    fun s j hs => ?_, fun s j p k _ _ _ _ => by rw [h.byte]⟩
  · rw [h.held, put2_of_ne _ _ (hne s j hs)]
  · rw [h.incarnation, put2_of_ne _ _ (hne s j hs)]

theorem Allocated.holds_self (h : Allocated a a' r i o) (hid : a.identity = some identity) :
    a'.holds (a'.extentAt identity r i o) := by
  refine holds_extentAt (h.identity.trans hid) ?_ ?_
  · rw [h.held, put2_self]
  · rw [h.deferred]
    exact deferred_of_free h.free

/-- The granules `len` bytes take. -/
def granulesOf (granule len : Nat) : Nat := (max len 1 + (granule - 1)) / granule

/-- As many granules as `len` bytes take, rounded to a power of two. -/
def FitsBlock (granule len o : Nat) : Prop := ∀ q, o ≤ q ↔ granulesOf granule len ≤ 2 ^ q

theorem orderFor_fits {b : Buddy} (h : b.orderFor len = .ok o) : FitsBlock b.granule len o := by
  unfold Buddy.orderFor at h
  split at h
  · rename_i p hp
    cases h
    rw [List.find?_range_eq_some] at hp
    obtain ⟨hok, -, hmin⟩ := hp
    intro q
    constructor
    · intro hq
      exact le_trans (of_decide_eq_true hok) (Nat.pow_le_pow_right (by norm_num) hq)
    · intro hq
      by_contra hlt
      have := hmin q (Nat.lt_of_not_le hlt)
      rw [Bool.not_eq_true', decide_eq_false_iff_not] at this
      exact this hq
  · cases h

private theorem allocated_setSlot {s s' : Slot granule} (hslot : a.slot s'.id = some s)
    (ht : Buddy.Took s.buddy s'.buddy i o) (hm : s'.mem = s.mem) (hsize : s'.size = s.size) :
    Allocated a (a.setSlot s') s'.id i o := by
  refine ⟨rfl, ?_, ?_, ?_, deferred_setSlot hslot ht.frame.deferred,
    named_setSlot hslot (funext ht.frame.named), byte_setSlot hslot hm, size_setSlot hslot hsize⟩
  · rw [view_held_of_slot hslot, ht.free]
  · rw [view_setSlot hslot, put2, view_held_of_slot hslot, ht.held]
  · rw [view_setSlot hslot, put2, view_incarnation_of_slot hslot, ht.incarnations]

/-! ## Release -/

/-- The block is held no more, or waits for the image that names it. -/
structure Freed (a a' : ChunkArena granule) (r i : Nat) : Prop where
  identity : a'.identity = a.identity
  held : a'.view.held =
    if a.view.named r i then a.view.held else put2 a.view.held r i none
  deferred : a'.view.deferred =
    if a.view.named r i then put2 a.view.deferred r i true else a.view.deferred
  incarnation : a'.view.incarnation = a.view.incarnation
  named : a'.view.named = a.view.named
  size : a'.view.size = a.view.size
  byte : ∀ o, a.view.held r i = some o → ∀ s k, s ≠ r ∨ k < i * granule ∨
    (i + 2 ^ o) * granule ≤ k → a'.view.byte s k = a.view.byte s k

private theorem freed_setSlot {s s' : Slot granule} (hslot : a.slot s'.id = some s)
    (hh : s.buddy.heldOrder i = some o)
    (hsame : Slot.Same s s' (i * s.buddy.granule) (s.buddy.orderBytes o))
    (hb : (s.buddy.named i = false ∧ Buddy.Released s.buddy i s'.buddy) ∨
      (s.buddy.named i = true ∧
        s'.buddy = { s.buddy with deferred := put s.buddy.deferred i true })) :
    Freed a (a.setSlot s') s'.id i := by
  have hview := view_setSlot hslot
  have hnamed : a.view.named s'.id i = s.buddy.named i := by rw [view_named_of_slot hslot]
  have hbyte : ∀ o, a.view.held s'.id i = some o → ∀ r k, r ≠ s'.id ∨ k < i * granule ∨
      (i + 2 ^ o) * granule ≤ k → (a.setSlot s').view.byte r k = a.view.byte r k := by
    intro p hp r k hk
    rw [view_held_of_slot hslot, hh, Option.some.injEq] at hp
    subst hp
    rw [hview]
    by_cases hr : r = s'.id
    · subst hr
      simp only [put_self]
      rw [view_byte_of_slot hslot]
      refine hsame.mem k ?_
      rw [s.uniform, Buddy.orderBytes, s.uniform, ← Nat.add_mul]
      exact hk.resolve_left (not_not.2 rfl)
    · simp only [put_of_ne _ _ hr]
  have hsize := size_setSlot hslot hsame.size
  rcases hb with ⟨hn, hr⟩ | ⟨hn, hr⟩
  · refine ⟨rfl, ?_, ?_, incarnation_setSlot hslot hr.incarnations,
      named_setSlot hslot (funext hr.frame.named), hsize, hbyte⟩
    · rw [hnamed, hn, if_neg (by simp), hview, put2, view_held_of_slot hslot, hr.held]
    · rw [hnamed, hn, if_neg (by simp), deferred_setSlot hslot hr.frame.deferred]
  · refine ⟨rfl, ?_, ?_, incarnation_setSlot hslot (by rw [hr]),
      named_setSlot hslot (by rw [hr]; rfl), hsize, hbyte⟩
    · rw [hnamed, hn, if_pos rfl, held_setSlot hslot (by rw [hr]; rfl)]
    · rw [hnamed, hn, if_pos rfl, hview, put2, view_deferred_of_slot hslot]
      simp only [hr]

theorem free_spec (h : a.holds e) : ∃ a' i o identity, a.free e = .ok a' ∧
    a.identity = some identity ∧ a.view.held e.region i = some o ∧
    e = a.extentAt identity e.region i o ∧ Freed a a' e.region i := by
  obtain ⟨i, o, identity, hid, hh, he, hd⟩ := place_of_holds h
  cases hs : a.slot e.region with
  | none => simp [view, hs] at hh
  | some s =>
    have hsid : s.id = e.region := slot_id hs
    have hh' : s.buddy.heldOrder i = some o := by rw [← view_held_of_slot hs, hh]
    have hd' : s.buddy.deferred i = false := by rw [← view_deferred_of_slot hs, hd]
    obtain ⟨s', hfree, hsame, hb⟩ := Slot.free_spec hh' hd'
    have hblock : e.block = s.buddy.blockAt i o := by
      rw [blockAt_eq, ← view_incarnation_of_slot hs]
      exact congrArg Extent.block he
    have hid' : s'.id = e.region := hsame.id.trans hsid
    have hslot : a.slot s'.id = some s := by rw [hid', hs]
    refine ⟨a.setSlot s', i, o, identity, ?_, hid, hh, he, hid' ▸ freed_setSlot hslot hh' hsame hb⟩
    have harena : a.identity = some e.arena := by rw [hid, he]; rfl
    unfold free
    rw [if_neg (not_not.2 harena), hs]
    simp only [hblock, hfree]

theorem Freed.frames (h : Freed a a' r i) (hh : a.view.held r i = some o) :
    View.Frames granule a.view a'.view fun s j => (a.view.held s j).isSome ∧ (s, j) ≠ (r, i) := by
  refine ⟨h.size, ?_, ?_, fun _ _ _ => by rw [h.named], fun _ _ _ => by rw [h.incarnation], ?_⟩
  · rintro s j ⟨-, hne⟩
    rw [h.held]
    split
    · rfl
    · exact put2_of_ne _ _ hne
  · rintro s j ⟨-, hne⟩
    rw [h.deferred]
    split
    · exact put2_of_ne _ _ hne
    · rfl
  · rintro s j p k ⟨-, hne⟩ hp hlo hhi
    refine h.byte o hh s k ?_
    by_cases hs : s = r
    · subst hs
      refine .inr ?_
      have hji : j ≠ i := fun hji => hne (by rw [hji])
      have := held_apart hp hh hji
      omega
    · exact .inl hs

/-! ## Refused and locked allocations -/

/-- Whatever was held is as it was, and nothing else is held. -/
structure Refused (a a' : ChunkArena granule) : Prop where
  identity : a'.identity = a.identity
  held : a'.view.held = a.view.held
  deferred : a'.view.deferred = a.view.deferred
  named : a'.view.named = a.view.named
  keeps : Keeps a a'

theorem Refused.refl (a : ChunkArena granule) : Refused a a := ⟨rfl, rfl, rfl, rfl, .refl _ _⟩

theorem Refused.holds (h : Refused a a') (x : Extent) : a'.holds x = a.holds x := by
  rw [Bool.eq_iff_iff, holds_iff, holds_iff, h.identity, h.held, h.deferred]
  refine and_congr_right fun _ => exists_congr fun i => exists_congr fun o => ?_
  refine and_congr_right fun hh => ?_
  rw [h.keeps.incarnation x.region i (by rw [hh]; rfl)]

theorem Allocated.freed (h : Allocated a a' r i o) (h' : Freed a' a'' r i) : Refused a a'' := by
  have hn : a'.view.named r i = false := by
    rw [h.named]
    exact named_of_free h.free
  have hheld : a'.view.held r i = some o := by rw [h.held, put2_self]
  have hrow : a''.view.held = a.view.held := by
    rw [h'.held, hn, if_neg (by simp), h.held]
    simp only [put2, put_self, put_put]
    rw [← h.free, put_eq_self, put_eq_self]
  have hdef : a''.view.deferred = a.view.deferred := by
    rw [h'.deferred, hn, if_neg (by simp), h.deferred]
  refine ⟨h'.identity.trans h.identity, hrow, hdef, h'.named.trans h.named, ?_⟩
  refine h.keeps.trans ((h'.frames hheld).mono fun s j hs => ?_)
  have hne : (s, j) ≠ (r, i) := by
    rintro heq
    cases heq
    rw [h.free] at hs
    cases hs
  exact ⟨by rwa [h.held, put2_of_ne _ _ hne], hne⟩

/-- What an allocation of `len` bytes leaves. -/
def Outcome (a a' : ChunkArena granule) (len : Nat) : Except MemError Extent → Prop
  | .ok e => ∃ identity r i o, a.identity = some identity ∧ Allocated a a' r i o ∧
      e = a'.extentAt identity r i o ∧ FitsBlock granule len o
  | .error _ => Refused a a'

theorem alloc_outcome {out : Except MemError Extent} (h : a.alloc prepared len = (out, a')) :
    Outcome a a' len out := by
  unfold alloc at h
  split at h
  · cases h
    exact .refl a
  · rename_i identity hident
    split at h
    · cases h
      exact .refl a
    · cases h
      exact .refl a
    · rename_i block s' hfit
      obtain ⟨s, hmem, hs⟩ := firstFit_mem hfit
      obtain ⟨i, o, ho, ht, rfl, hm, hsid, hsize⟩ := Slot.alloc_spec hs
      have hslot : a.slot s'.id = some s := hsid ▸ slot_of_mem hmem
      have hself : (a.setSlot s').slot s'.id = some s' := by rw [slot_setSlot hslot, if_pos rfl]
      have hal := allocated_setSlot hslot ht hm hsize
      split at h
      · cases h
        refine ⟨identity, s'.id, i, o, hident, hal, ?_, s.uniform ▸ orderFor_fits ho⟩
        rw [extentAt, view_incarnation_of_slot hself, blockAt_eq]
      · -- The block goes back: it was free, so no image names it.
        have hh : s'.buddy.heldOrder i = some o := by rw [ht.held, put_self]
        have hd : s'.buddy.deferred i = false := by
          rw [ht.frame.deferred]
          exact s.steady.not_deferred (Buddy.not_named_of_free s.sound ht.free)
        obtain ⟨s'', hfree, hsame, hb⟩ := Slot.free_spec hh hd
        rw [hfree] at h
        cases h
        have hid : s''.id = s'.id := hsame.id
        have hfreed := freed_setSlot (hid ▸ hself) hh hsame hb
        rw [setSlot_setSlot hid, hid] at hfreed
        exact hal.freed hfreed

theorem lockExtent_ok (h : a.lockExtent locks e = .ok a') :
    a'.identity = a.identity ∧ a'.view = a.view := by
  unfold lockExtent at h
  split at h
  · cases h
  · split at h
    · cases h
    · rename_i s hs
      split at h
      · cases h
        exact ⟨rfl, rfl⟩
      · split at h
        · split at h
          · cases h
          · rename_i s' hlock
            cases h
            obtain ⟨⟨locked, hb⟩, hm, hid, hsize⟩ := Slot.lock_spec hlock
            have hslot : a.slot s'.id = some s := by rw [hid, slot_id hs, hs]
            exact ⟨rfl, View.ext (held_setSlot hslot (by rw [hb]; rfl))
              (deferred_setSlot hslot (by rw [hb])) (named_setSlot hslot (by rw [hb]; rfl))
              (incarnation_setSlot hslot (by rw [hb])) (byte_setSlot hslot hm)
              (size_setSlot hslot hsize)⟩
        · cases h

theorem extentAt_of_view (hv : a'.view = a.view) (identity r i o : Nat) :
    a'.extentAt identity r i o = a.extentAt identity r i o := by
  rw [extentAt, extentAt, hv]

theorem Allocated.of_view (h : Allocated a a' r i o) (hid : a''.identity = a'.identity)
    (hv : a''.view = a'.view) : Allocated a a'' r i o :=
  ⟨hid.trans h.identity, h.free, hv ▸ h.held, hv ▸ h.incarnation, hv ▸ h.deferred, hv ▸ h.named,
    hv ▸ h.byte, hv ▸ h.size⟩

theorem granule_pos (a : ChunkArena granule) : 0 < granule := by
  obtain ⟨k, hk⟩ := a.granule_pow
  rw [hk]
  exact Nat.two_pow_pos k

theorem extentAt_inj {identity' : Nat}
    (h : a.extentAt identity r i o = a.extentAt identity' r j p) :
    i = j :=
  Nat.eq_of_mul_eq_mul_right a.granule_pos (congrArg (fun e => e.block.offset) h)

theorem allocLocked_outcome {out : Except MemError Extent}
    (h : a.allocLocked prepared locks len = (out, a')) : Outcome a a' len out := by
  unfold allocLocked at h
  split at h
  · rename_i e' b halloc
    cases h
    exact alloc_outcome halloc
  · rename_i e' b halloc
    obtain ⟨identity, r, i, o, hident, hal, he, hfits⟩ := alloc_outcome halloc
    split at h
    · rename_i c hlock
      cases h
      obtain ⟨hid, hv⟩ := lockExtent_ok hlock
      exact ⟨identity, r, i, o, hident, hal.of_view hid hv, by rw [he, extentAt_of_view hv], hfits⟩
    · have hb : b.holds e' := he ▸ hal.holds_self hident
      obtain ⟨c, j, p, identity', hfree, -, -, he', hfreed⟩ := free_spec hb
      rw [hfree] at h
      cases h
      have hr : e'.region = r := by rw [he]; rfl
      rw [hr] at he' hfreed
      rw [he] at he'
      obtain rfl := extentAt_inj he'
      exact hal.freed hfreed

theorem le_granulesOf_mul (hg : 0 < granule) (len : Nat) :
    len ≤ granulesOf granule len * granule := by
  unfold granulesOf
  have := Nat.lt_div_mul_add (a := max len 1 + (granule - 1)) hg
  have := le_max_left len 1
  omega

theorem FitsBlock.le (h : FitsBlock granule len o) (hg : 0 < granule) : len ≤ 2 ^ o * granule :=
  (le_granulesOf_mul hg len).trans (Nat.mul_le_mul_right _ ((h o).1 (le_refl o)))

/-! ## Writing -/

/-- What a write did: some bytes are others. -/
structure Written (a a' : ChunkArena granule) (r off : Nat) (bytes : List UInt8) : Prop where
  identity : a'.identity = a.identity
  held : a'.view.held = a.view.held
  deferred : a'.view.deferred = a.view.deferred
  named : a'.view.named = a.view.named
  incarnation : a'.view.incarnation = a.view.incarnation
  size : a'.view.size = a.view.size
  byte : ∀ s k, a'.view.byte s k = if s = r ∧ off ≤ k ∧ k < off + bytes.length then
    bytes.getD (k - off) 0 else a.view.byte s k

theorem write_spec (h : a.holds e) (at_ : Nat) (bytes : List UInt8) :
    Written a (a.write e at_ bytes) e.region (e.offset + at_) bytes := by
  obtain ⟨i, o, identity, -, hh, -, -⟩ := place_of_holds h
  unfold write
  cases hs : a.slot e.region with
  | none => simp [view, hs] at hh
  | some s =>
    have hslot : a.slot (s.write (e.offset + at_) bytes).id = some s := by
      rw [show (s.write (e.offset + at_) bytes).id = s.id from rfl, slot_id hs, hs]
    have hid : (s.write (e.offset + at_) bytes).id = e.region := slot_id (s := s) hs
    have hview := view_setSlot hslot
    rw [hid] at hview
    simp only
    refine ⟨rfl, held_setSlot hslot rfl, deferred_setSlot hslot rfl, named_setSlot hslot rfl,
      incarnation_setSlot hslot rfl, size_setSlot hslot rfl, ?_⟩
    · intro r k
      rw [hview]
      by_cases hr : r = e.region
      · subst hr
        simp only [put_self, true_and]
        rw [Slot.write_mem, view_byte_of_slot hs]
      · simp only [put_of_ne _ _ hr, hr, false_and, if_false]

theorem Written.holds (h : Written a a' r off bytes) (x : Extent) : a'.holds x = a.holds x := by
  rw [Bool.eq_iff_iff, holds_iff, holds_iff, h.identity, h.held, h.deferred, h.incarnation]

theorem Written.extentAt (h : Written a a' r off bytes) (identity s i o : Nat) :
    a'.extentAt identity s i o = a.extentAt identity s i o := by
  rw [ChunkArena.extentAt, ChunkArena.extentAt, h.incarnation]

theorem Written.frames (h : Written a a' r off bytes) (hh : a.view.held r i = some o)
    (hlo : i * granule ≤ off) (hhi : off + bytes.length ≤ (i + 2 ^ o) * granule) :
    View.Frames granule a.view a'.view fun s j => (s, j) ≠ (r, i) := by
  refine ⟨h.size, fun _ _ _ => by rw [h.held], fun _ _ _ => by rw [h.deferred],
    fun _ _ _ => by rw [h.named], fun _ _ _ => by rw [h.incarnation], ?_⟩
  intro s j p k hne hp hklo hkhi
  rw [h.byte, if_neg]
  rintro ⟨rfl, h1, h2⟩
  have hji : j ≠ i := fun hji => hne (by rw [hji])
  have := held_apart hp hh hji
  omega

theorem Written.read_self (h : Written a a' r off bytes) (hh : a.view.held r i = some o)
    (hhi : off + bytes.length ≤ (i + 2 ^ o) * granule) :
    a'.view.read r off bytes.length = some bytes := by
  obtain ⟨size, hsize, hle⟩ := held_within hh
  rw [View.read, h.size, hsize, Option.bind_some, if_pos (by omega)]
  congr 1
  refine List.ext_getElem (by simp) fun k h1 h2 => ?_
  rw [List.getElem_map, List.getElem_range, h.byte, if_pos ⟨rfl, by omega, by omega⟩,
    Nat.add_sub_cancel_left, List.getD_eq_getElem?_getD, List.getElem?_eq_getElem h2,
    Option.getD_some]

/-! ## Trimming -/

/-- The block at `i` is the pieces its first `keep` bytes take, their bytes unchanged. -/
structure Trimmed (a a' : ChunkArena granule) (r i o keep : Nat) : Prop where
  identity : a'.identity = a.identity
  shorter : granulesOf granule keep < 2 ^ o
  held : a'.view.held = put a.view.held r (Buddy.putAll (a.view.held r)
    (Buddy.piecesOf i (granulesOf granule keep) o) fun p => some p.2)
  incarnation : a'.view.incarnation = put a.view.incarnation r
    (Buddy.putAll (a.view.incarnation r) (Buddy.piecesOf i (granulesOf granule keep) o)
      fun p => if p.1 = i then a.view.incarnation r i else a.view.incarnation r p.1 + 1)
  deferred : a'.view.deferred = a.view.deferred
  named : a'.view.named = a.view.named
  size : a'.view.size = a.view.size
  byte : ∀ s k, s ≠ r ∨ k < (i + granulesOf granule keep) * granule ∨
    (i + 2 ^ o) * granule ≤ k → a'.view.byte s k = a.view.byte s k

theorem trim_spec {keep dirty : Nat} {head : Option Extent} (h : a.holds e) (hk : keep ≤ e.len)
    (ht : a.trim e keep dirty = .ok (some (head, a'))) :
    ∃ identity i o q, a.identity = some identity ∧ a.view.held e.region i = some o ∧
      e = a.extentAt identity e.region i o ∧ Trimmed a a' e.region i o keep ∧
      (Buddy.piecesOf i (granulesOf granule keep) o).head? = some (i, q) ∧
      head = some (a'.extentAt identity e.region i q) := by
  obtain ⟨i, o, identity, hid, hh, he, hd⟩ := place_of_holds h
  have harena : e.arena = identity := by rw [he]; rfl
  refine ⟨identity, i, o, ?_⟩
  unfold trim at ht
  rw [if_neg (not_not.2 (by rw [hid, harena]))] at ht
  cases hs : a.slot e.region with
  | none => simp [view, hs] at hh
  | some s =>
    rw [hs] at ht
    simp only at ht
    cases htrim : s.trim e.block keep dirty with
    | error refusal =>
      rw [htrim] at ht
      cases ht
    | ok result =>
      cases result with
      | none =>
        rw [htrim] at ht
        cases ht
      | some result =>
        obtain ⟨block, s'⟩ := result
        rw [htrim] at ht
        cases ht
        obtain ⟨j, p, hj, hblock, htr, ⟨q, hhead, rfl⟩, hsame⟩ := Slot.trim_spec hk htrim
        have hji : j = i := by
          have hoff := congrArg (fun e => e.block.offset) he
          simp only [hblock, blockAt_eq] at hoff
          exact Nat.eq_of_mul_eq_mul_right a.granule_pos hoff
        subst hji
        have hpo : p = o := by
          rw [view_held_of_slot hs, hj, Option.some.injEq] at hh
          exact hh
        subst hpo
        have hsid : s'.id = e.region := hsame.id.trans (slot_id hs)
        have hslot : a.slot s'.id = some s := by rw [hsid, hs]
        have hgr : s.buddy.granules keep = granulesOf granule keep := by
          rw [Buddy.granules, s.uniform, granulesOf]
        have hview := view_setSlot hslot
        rw [hsid] at hview
        rw [hgr] at hhead hsame
        refine ⟨q, hid, hh, he, ⟨rfl, hgr ▸ htr.shorter, ?_, ?_,
          deferred_setSlot hslot htr.frame.deferred, named_setSlot hslot (funext htr.frame.named),
          size_setSlot hslot hsame.size, ?_⟩, hhead, ?_⟩
        · rw [hview, htr.held, hgr, view_held_of_slot hs]
        · rw [hview, htr.incarnations, hgr, view_incarnation_of_slot hs]
        · intro r k hk'
          rw [hview]
          by_cases hr : r = e.region
          · subst hr
            simp only [put_self]
            rw [view_byte_of_slot hs]
            refine hsame.mem k ?_
            rw [hblock, blockAt_eq, s.uniform]
            have hle := Nat.mul_le_mul_right granule (hgr ▸ htr.shorter).le
            simp only [Nat.add_mul] at hk' ⊢
            omega
          · simp only [put_of_ne _ _ hr]
        · have hself : (a.setSlot s').slot e.region = some s' := by
            rw [slot_setSlot hslot, if_pos hsid.symm]
          rw [Option.map_some, ChunkArena.extentAt, view_incarnation_of_slot hself, blockAt_eq,
            harena]

end ChunkArena

end Slates.Mem
