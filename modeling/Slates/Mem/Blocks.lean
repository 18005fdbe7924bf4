import Slates.Mem.Extents

/-!
The blocks a holder of extents works with: a held extent's bytes are there to be read, a block
is untouched by what happens to another, and a copy put in a new block can be given back.
-/

namespace Slates.Mem

namespace View

variable {v : View} {r off n m : Nat} {bytes : List UInt8}

theorem read_length (h : v.read r off n = some bytes) : bytes.length = n := by
  unfold read at h
  cases hs : v.size r with
  | none =>
    rw [hs] at h
    cases h
  | some size =>
    rw [hs, Option.bind_some] at h
    split at h
    · cases h
      rw [List.length_map, List.length_range]
    · cases h

theorem read_take (h : v.read r off n = some bytes) (hm : m ≤ n) :
    v.read r off m = some (bytes.take m) := by
  unfold read at h ⊢
  cases hs : v.size r with
  | none =>
    rw [hs] at h
    cases h
  | some size =>
    rw [hs, Option.bind_some] at h
    rw [Option.bind_some]
    split at h
    · cases h
      rw [if_pos (by omega), ← List.map_take, List.take_range, Nat.min_eq_left hm]
    · cases h

end View

namespace ChunkArena

variable {granule : Nat} {a a' a'' : ChunkArena granule} {e x : Extent} {r i p off n : Nat}
  {bytes : List UInt8}

theorem read_of_holds (h : a.holds e) (hn : n ≤ e.len) :
    ∃ bytes, a.read e.region e.offset n = some bytes ∧ bytes.length = n := by
  obtain ⟨i, o, identity, -, hh, he, -⟩ := place_of_holds h
  obtain ⟨size, hsize, hle⟩ := held_within hh
  have hoff : e.offset = i * granule := by rw [he]; rfl
  have hlen : e.len = 2 ^ o * granule := by rw [he]; rfl
  rw [Nat.add_mul] at hle
  have hread : a.view.read e.region e.offset n =
      some ((List.range n).map fun k => a.view.byte e.region (e.offset + k)) := by
    rw [View.read, hsize, Option.bind_some, if_pos (by omega)]
  exact ⟨_, (read_eq ..).trans hread, View.read_length hread⟩

theorem read_after_free (he : a.holds e)
    (hx : a.holds x) (hne : x ≠ e) (hf : a.free e = .ok a') (hn : n ≤ x.len) :
    a'.holds x ∧ a'.read x.region x.offset n = a.read x.region x.offset n := by
  obtain ⟨b, i, p, identity, hfree, hid, hheld, heq, hfreed⟩ := free_spec he
  rw [hf] at hfree
  cases hfree
  obtain ⟨j, q, identity', hid', hheld', heq', hd⟩ := place_of_holds hx
  obtain rfl : identity = identity' := Option.some.inj (hid.symm.trans hid')
  have hplace : (x.region, j) ≠ (e.region, i) := by
    intro h
    rw [Prod.mk.injEq] at h
    obtain ⟨hr, rfl⟩ := h
    rw [hr, hheld, Option.some.injEq] at hheld'
    rw [hr, ← hheld', ← heq] at heq'
    exact hne heq'
  have hfr := hfreed.frames hheld
  have hsome : (a.view.held x.region j).isSome ∧ (x.region, j) ≠ (e.region, i) :=
    ⟨by rw [hheld']; rfl, hplace⟩
  have hoff : x.offset = j * granule := by rw [heq']; rfl
  have hlen : x.len = 2 ^ q * granule := by rw [heq']; rfl
  refine ⟨ChunkArena.holds_iff.2 ⟨?_, j, q, ?_, ?_, ?_⟩, ?_⟩
  · rw [hfreed.identity, hid, heq']
    rfl
  · rw [hfr.held _ _ hsome, hheld']
  · rw [hfr.incarnation _ _ hsome]
    exact congrArg Extent.block heq'
  · rw [hfr.deferred _ _ hsome, hd]
  · rw [read_eq, read_eq]
    exact hfr.read hsome hheld' (le_of_eq hoff.symm) (by rw [Nat.add_mul]; omega)

theorem Keeps.holds (hk : Keeps a a') (hid : a'.identity = a.identity) (hx : a.holds x) :
    a'.holds x ∧ ∀ n, n ≤ x.len → a'.read x.region x.offset n = a.read x.region x.offset n := by
  obtain ⟨j, q, identity, hid', hheld, heq, hd⟩ := place_of_holds hx
  have hsome : (a.view.held x.region j).isSome := by
    rw [hheld]
    rfl
  have hoff : x.offset = j * granule := by rw [heq]; rfl
  have hlen : x.len = 2 ^ q * granule := by rw [heq]; rfl
  refine ⟨ChunkArena.holds_iff.2 ⟨?_, j, q, ?_, ?_, ?_⟩, fun n hn => ?_⟩
  · rw [hid, hid', heq]
    rfl
  · rw [hk.held _ _ hsome, hheld]
  · rw [hk.incarnation _ _ hsome]
    exact congrArg Extent.block heq
  · rw [hk.deferred _ _ hsome, hd]
  · rw [read_eq, read_eq]
    exact hk.read hsome hheld (le_of_eq hoff.symm) (by rw [Nat.add_mul]; omega)

theorem write_holds (h : a.holds e) (x : Extent) (bytes : List UInt8) :
    (a.write e 0 bytes).holds x = a.holds x := (write_spec h 0 bytes).holds x

theorem write_read (h : a.holds e) (hlen : bytes.length ≤ e.len) :
    (a.write e 0 bytes).read e.region e.offset bytes.length = some bytes := by
  obtain ⟨i, o, identity, -, hheld, heq, -⟩ := place_of_holds h
  have hw := write_spec h 0 bytes
  have hoff : e.offset = i * granule := by rw [heq]; rfl
  have hl : e.len = 2 ^ o * granule := by rw [heq]; rfl
  rw [read_eq]
  exact hw.read_self hheld (by rw [Nat.add_mul]; omega)

/-! ## A copy in a new block -/

theorem Written.again {bytes' : List UInt8} (h : Written a a' r off bytes)
    (h' : Written a' a'' r off bytes') (hlen : bytes'.length = bytes.length) :
    Written a a'' r off bytes' := by
  refine ⟨h'.identity.trans h.identity, h'.held.trans h.held, h'.deferred.trans h.deferred,
    h'.named.trans h.named, h'.incarnation.trans h.incarnation, h'.size.trans h.size, ?_⟩
  intro s k
  rw [h'.byte]
  split
  · rfl
  · rename_i hne
    rw [h.byte, if_neg (by rwa [← hlen])]

structure CopyAt (a a' : ChunkArena granule) (copy : Extent) (bytes : List UInt8) : Prop where
  place : ∃ mid identity r i p, a.identity = some identity ∧ Allocated a mid r i p ∧
    copy = mid.extentAt identity r i p ∧ Written mid a' r (i * granule) bytes ∧
    bytes.length ≤ 2 ^ p * granule

namespace CopyAt

variable {copy : Extent}

section

variable (h : CopyAt a a' copy bytes)

include h

theorem identity : a'.identity = a.identity := by
  obtain ⟨mid, _, r, i, p, -, hal, -, hw, -⟩ := h.place
  exact hw.identity.trans hal.identity

theorem holds : a'.holds copy := by
  obtain ⟨mid, identity, r, i, p, hid, hal, hcopy, hw, -⟩ := h.place
  rw [hw.holds, hcopy]
  exact hal.holds_self hid

theorem not_held : ¬ a.holds copy := by
  obtain ⟨mid, identity, r, i, p, hid, hal, hcopy, -, -⟩ := h.place
  intro hold
  obtain ⟨-, j, q, hheld, hblock, -⟩ := ChunkArena.holds_iff.1 hold
  have hr : copy.region = r := by rw [hcopy]; rfl
  have hoff : j * granule = i * granule := by
    rw [hcopy] at hblock
    exact (congrArg Block.offset hblock).symm
  rw [hr, Nat.eq_of_mul_eq_mul_right a.granule_pos hoff, hal.free] at hheld
  cases hheld

theorem read : a'.read copy.region copy.offset bytes.length = some bytes := by
  obtain ⟨mid, identity, r, i, p, hid, hal, hcopy, hw, hlen⟩ := h.place
  have hheld : mid.view.held r i = some p := by rw [hal.held, put2_self]
  rw [read_eq, hcopy]
  exact hw.read_self hheld (by rw [Nat.add_mul]; omega)

theorem keeps : Keeps a a' := by
  obtain ⟨mid, identity, r, i, p, hid, hal, hcopy, hw, hlen⟩ := h.place
  have hheld : mid.view.held r i = some p := by rw [hal.held, put2_self]
  refine hal.keeps.trans ((hw.frames hheld (le_refl _) (by rw [Nat.add_mul]; omega)).mono ?_)
  rintro s j hs heq
  cases heq
  rw [hal.free] at hs
  cases hs

theorem write {bytes' : List UInt8}
    (hlen : bytes'.length = bytes.length) : CopyAt a (a'.write copy 0 bytes') copy bytes' := by
  obtain ⟨mid, identity, r, i, p, hid, hal, hcopy, hw, hle⟩ := h.place
  have hw' := write_spec h.holds 0 bytes'
  rw [show copy.region = r by rw [hcopy]; rfl, Nat.add_zero,
    show copy.offset = i * granule by rw [hcopy]; rfl] at hw'
  exact ⟨mid, identity, r, i, p, hid, hal, hcopy, hw.again hw' hlen, by omega⟩

theorem refused (hf : a'.free copy = .ok a'') : Refused a a'' := by
  obtain ⟨mid, identity, r, i, p, hid, hal, hcopy, hw, hlen⟩ := h.place
  obtain ⟨b, j, q, identity', hfree, -, hheld, heq, hfreed⟩ := free_spec h.holds
  rw [hf] at hfree
  cases hfree
  have hr : copy.region = r := by rw [hcopy]; rfl
  rw [hr] at hheld heq hfreed
  rw [hcopy, hw.extentAt] at heq
  obtain rfl := extentAt_inj heq
  have hfreed' : Freed mid a'' r i := by
    refine ⟨hfreed.identity.trans hw.identity, ?_, ?_, hfreed.incarnation.trans hw.incarnation,
      hfreed.named.trans hw.named, hfreed.size.trans hw.size, ?_⟩
    · rw [hfreed.held, hw.named, hw.held]
    · rw [hfreed.deferred, hw.named, hw.deferred]
    · intro o ho s k hk
      rw [hfreed.byte o (by rw [hw.held, ho]) s k hk, hw.byte, if_neg]
      have hop : o = p := by
        rw [hal.held, put2_self, Option.some.injEq] at ho
        exact ho.symm
      rintro ⟨rfl, h1, h2⟩
      rw [hop, Nat.add_mul] at hk
      omega
  exact hal.freed hfreed'

end

end CopyAt

end ChunkArena

end Slates.Mem
