import Mathlib

/-!
The slab of `crates/mem`: records in numbered slots, each named by a handle with the slot's
generation (`insert_spec`, `remove_spec`). A slot whose generations are used up is retired.
-/

namespace Slates.Mem

inductive ExtentRefusal
  | otherArena | noSuchRegion | misaligned | wrongLength | outOfRange | notAllocated | stale
  | claimed
  deriving DecidableEq, Repr

/-- The refusals of `MemError` the modelled calls make. -/
inductive MemError
  | staleHandle (index generation : Nat)
  | slabFull (capacity : Nat)
  | arenaExhausted (requested largestFree : Nat)
  | tooLarge (len max : Nat)
  | lockRefused (requested : Nat)
  | osRefused
  | foreignExtent (offset len : Nat) (reason : ExtentRefusal)
  | generationExhausted (index : Nat)
  deriving DecidableEq, Repr

/-- The largest `u32`. -/
def u32Max : Nat := 2 ^ 32 - 1

/-- The largest `u64`. -/
def u64Max : Nat := 2 ^ 64 - 1

structure Handle where
  index : Nat
  generation : Nat
  deriving DecidableEq, Repr

namespace Slab

inductive Body (α : Type)
  | vacant
  | occupied (value : α)
  | retired
  deriving DecidableEq

structure Slot (α : Type) where
  generation : Nat
  body : Body α
  deriving DecidableEq

end Slab

/-- `free` is the chain of vacant slots that the source threads through the slots. -/
structure Slab (α : Type) where
  slots : List (Slab.Slot α)
  free : List Nat
  maxSlots : Nat
  generationLimit : Nat
  lastRetired : Option Nat
  free_vacant : ∀ i ∈ free, ∃ g, slots[i]? = some ⟨g, .vacant⟩
  free_nodup : free.Nodup

namespace Slab

variable {α : Type}

/-- `Slab::new`. -/
def empty (maxSlots : Nat) : Slab α where
  slots := []
  free := []
  maxSlots := maxSlots
  generationLimit := u32Max
  lastRetired := none
  free_vacant := nofun
  free_nodup := .nil

/-- `Slab::get`, as an option. -/
def find (s : Slab α) (h : Handle) : Option α :=
  match s.slots[h.index]? with
  | some ⟨g, .occupied v⟩ => if g = h.generation then some v else none
  | _ => none

def stale (h : Handle) : MemError := .staleHandle h.index h.generation

/-- `Slab::room`, within the 32 bits of an index: slots an insertion can still take. -/
def room (s : Slab α) : Nat := s.free.length + (min s.maxSlots (u32Max + 1) - s.slots.length)

def noSlot (s : Slab α) : MemError :=
  match s.lastRetired with
  | some index => .generationExhausted index
  | none => .slabFull s.maxSlots

def reuse (s : Slab α) (v : α) (i g : Nat) (rest : List Nat) (h : s.free = i :: rest) : Slab α :=
  { s with
    slots := s.slots.set i ⟨g, .occupied v⟩
    free := rest
    free_vacant := by
      intro j hj
      have hnd := s.free_nodup
      rw [h, List.nodup_cons] at hnd
      have hij : i ≠ j := fun hij => hnd.1 (hij ▸ hj)
      obtain ⟨g', hg'⟩ := s.free_vacant j (h ▸ List.mem_cons_of_mem i hj)
      exact ⟨g', by rw [List.getElem?_set_ne hij, hg']⟩
    free_nodup := by
      have hnd := s.free_nodup
      rw [h, List.nodup_cons] at hnd
      exact hnd.2 }

def push (s : Slab α) (v : α) : Slab α :=
  { s with
    slots := s.slots ++ [⟨0, .occupied v⟩]
    free_vacant := by
      intro i hi
      obtain ⟨g, hg⟩ := s.free_vacant i hi
      refine ⟨g, ?_⟩
      rw [List.getElem?_append_left (List.getElem?_eq_some_iff.1 hg).1, hg] }

/-- `Slab::insert`. A slot past the 32 bits of an index is refused; the source has pushed it by
then, and no handle names it. -/
def insert (s : Slab α) (v : α) : Except MemError (Handle × Slab α) :=
  match h : s.free with
  | i :: rest =>
    match s.slots[i]? with
    | some slot => .ok (⟨i, slot.generation⟩, s.reuse v i slot.generation rest h)
    | none => .error (.slabFull s.maxSlots)
  | [] =>
    if s.slots.length ≥ s.maxSlots then .error s.noSlot
    else if s.slots.length > u32Max then .error (.slabFull s.maxSlots)
    else .ok (⟨s.slots.length, 0⟩, s.push v)

/-- The record of slot `i` gone and its slot free again at generation `g`. -/
def vacateSlot (s : Slab α) (i g : Nat) {old : Slot α} (h : s.slots[i]? = some old)
    (ho : old.body ≠ .vacant) : Slab α :=
  { s with
    slots := s.slots.set i ⟨g, .vacant⟩
    free := i :: s.free
    free_vacant := by
      intro j hj
      rcases List.mem_cons.1 hj with rfl | hj
      · exact ⟨g, List.getElem?_set_self (List.getElem?_eq_some_iff.1 h).1⟩
      · obtain ⟨g', hg'⟩ := s.free_vacant j hj
        refine ⟨g', ?_⟩
        rw [List.getElem?_set_ne, hg']
        rintro rfl
        rw [h, Option.some.injEq] at hg'
        exact ho (by rw [hg'])
    free_nodup := by
      refine List.nodup_cons.2 ⟨fun hi => ?_, s.free_nodup⟩
      obtain ⟨g', hg'⟩ := s.free_vacant i hi
      rw [h, Option.some.injEq] at hg'
      exact ho (by rw [hg']) }

def putSlot (s : Slab α) (i : Nat) (new : Slot α) {old : Slot α} (h : s.slots[i]? = some old)
    (ho : old.body ≠ .vacant) : Slab α :=
  { s with
    slots := s.slots.set i new
    free_vacant := by
      intro j hj
      obtain ⟨g', hg'⟩ := s.free_vacant j hj
      refine ⟨g', ?_⟩
      rw [List.getElem?_set_ne, hg']
      rintro rfl
      rw [h, Option.some.injEq] at hg'
      exact ho (by rw [hg']) }

/-- `Slab::remove`. -/
def remove (s : Slab α) (h : Handle) : Except MemError (α × Slab α) :=
  match hs : s.slots[h.index]? with
  | some ⟨g, .occupied v⟩ =>
    if g ≠ h.generation then .error (stale h)
    else if g + 1 ≤ s.generationLimit then .ok (v, s.vacateSlot h.index (g + 1) hs nofun)
    else
      .ok (v, { s.putSlot h.index ⟨g, .retired⟩ hs nofun with lastRetired := some h.index })
  | _ => .error (stale h)

/-- `Slab::get_mut`, with what is done to the record. -/
def modify (s : Slab α) (h : Handle) (f : α → α) : Slab α :=
  match hs : s.slots[h.index]? with
  | some ⟨g, .occupied v⟩ =>
    if g = h.generation then s.putSlot h.index ⟨g, .occupied (f v)⟩ hs nofun else s
  | _ => s

/-! ## What the handles name afterwards -/

variable {s s' : Slab α} {h k : Handle} {v : α}

theorem find_eq_some :
    s.find h = some v ↔ s.slots[h.index]? = some ⟨h.generation, .occupied v⟩ := by
  unfold find
  split
  · rename_i g w heq
    rw [heq]
    by_cases hg : g = h.generation <;> simp [hg]
  · rename_i hne
    constructor
    · nofun
    · intro heq
      exact absurd heq (hne _ _)

theorem find_of_slots_ne (hs : s'.slots[h.index]? = s.slots[h.index]?) : s'.find h = s.find h := by
  unfold find
  rw [hs]

structure Inserted (s : Slab α) (v : α) (h : Handle) (s' : Slab α) : Prop where
  /-- The handle named nothing, and names the record now. -/
  fresh : s.find h = none
  found : s'.find h = some v
  /-- Every other handle names what it named. -/
  rest : ∀ k, k ≠ h → s'.find k = s.find k

theorem insert_spec (hi : s.insert v = .ok (h, s')) : Inserted s v h s' := by
  unfold insert at hi
  split at hi
  · rename_i i rest hfree
    obtain ⟨g, hg⟩ := s.free_vacant i (hfree ▸ List.mem_cons_self)
    rw [hg] at hi
    cases hi
    have hlt := (List.getElem?_eq_some_iff.1 hg).1
    refine ⟨?_, ?_, ?_⟩
    · cases hf : s.find ⟨i, g⟩ with
      | none => rfl
      | some w =>
        rw [find_eq_some] at hf
        rw [hf] at hg
        cases hg
    · rw [find_eq_some]
      exact List.getElem?_set_self hlt
    · intro k hk
      by_cases hki : i = k.index
      · cases hf : s.find k with
        | some w =>
          rw [find_eq_some, ← hki, hg] at hf
          cases hf
        | none =>
          cases hf' : (s.reuse v i g rest hfree).find k with
          | none => rfl
          | some w =>
            rw [find_eq_some] at hf'
            simp only [reuse, ← hki, List.getElem?_set_self hlt, Option.some.injEq,
              Slot.mk.injEq] at hf'
            obtain ⟨i', g'⟩ := k
            obtain ⟨rfl, -⟩ := hf'
            obtain rfl : i = i' := hki
            exact absurd rfl hk
      · exact find_of_slots_ne (List.getElem?_set_ne hki)
  · split_ifs at hi
    · cases hi
      refine ⟨?_, ?_, ?_⟩
      · cases hf : s.find ⟨s.slots.length, 0⟩ with
        | none => rfl
        | some w =>
          rw [find_eq_some] at hf
          simp at hf
      · rw [find_eq_some]
        exact List.getElem?_concat_length
      · intro k hk
        by_cases hki : k.index < s.slots.length
        · exact find_of_slots_ne (List.getElem?_append_left hki)
        · have hnone : s.find k = none := by
            unfold find
            rw [List.getElem?_eq_none (by omega)]
          rw [hnone]
          cases hf : (s.push v).find k with
          | none => rfl
          | some w =>
            rw [find_eq_some] at hf
            obtain ⟨hlt, hk'⟩ := List.getElem?_eq_some_iff.1 hf
            simp only [push, List.length_append, List.length_cons, List.length_nil] at hlt
            obtain ⟨i', g'⟩ := k
            obtain rfl : i' = s.slots.length := by
              simp only at hki hlt
              omega
            simp only [push, List.getElem_concat_length, Slot.mk.injEq] at hk'
            obtain ⟨rfl, -⟩ := hk'
            exact absurd rfl hk

theorem insert_ok_iff (s : Slab α) (v : α) : (∃ h s', s.insert v = .ok (h, s')) ↔ 0 < s.room := by
  unfold insert room
  split
  · rename_i i rest hfree
    obtain ⟨g, hg⟩ := s.free_vacant i (hfree ▸ List.mem_cons_self)
    have hpos : 0 < s.free.length := hfree ▸ Nat.succ_pos _
    rw [hg]
    exact ⟨fun _ => Nat.add_pos_left hpos _, fun _ => ⟨_, _, rfl⟩⟩
  · rename_i hfree
    have hzero : s.free.length = 0 := hfree ▸ rfl
    split_ifs
    · exact ⟨fun ⟨_, _, h⟩ => (by cases h), by omega⟩
    · exact ⟨fun ⟨_, _, h⟩ => (by cases h), by omega⟩
    · exact ⟨fun _ => by omega, fun _ => ⟨_, _, rfl⟩⟩

structure Removed (s : Slab α) (h : Handle) (v : α) (s' : Slab α) : Prop where
  found : s.find h = some v
  gone : s'.find h = none
  rest : ∀ k, k ≠ h → s'.find k = s.find k

private theorem find_set_other {new : Slot α} (hs : s'.slots = s.slots.set h.index new)
    (hf : s.find h = some v) (hnew : ∀ w, new ≠ ⟨k.generation, .occupied w⟩) (hk : k ≠ h) :
    s'.find k = s.find k := by
  rw [find_eq_some] at hf
  have hlt := (List.getElem?_eq_some_iff.1 hf).1
  by_cases hki : h.index = k.index
  · cases hf' : s.find k with
    | some w =>
      rw [find_eq_some, ← hki, hf, Option.some.injEq, Slot.mk.injEq] at hf'
      exact absurd (by cases h; cases k; simp_all) hk
    | none =>
      cases hg : s'.find k with
      | none => rfl
      | some w =>
        rw [find_eq_some, hs, ← hki, List.getElem?_set_self hlt, Option.some.injEq] at hg
        exact absurd hg (hnew w)
  · exact find_of_slots_ne (hs ▸ List.getElem?_set_ne hki)

theorem remove_spec (hr : s.remove h = .ok (v, s')) : Removed s h v s' := by
  unfold remove at hr
  split at hr
  · rename_i g w hs
    by_cases hg : g = h.generation
    · subst hg
      have hf : s.find h = some w := find_eq_some.2 hs
      have hlt := (List.getElem?_eq_some_iff.1 hs).1
      rw [if_neg (by simp)] at hr
      split at hr
      · cases hr
        refine ⟨hf, ?_, fun k hk => find_set_other rfl hf (by simp) hk⟩
        simp only [find, vacateSlot, List.getElem?_set_self hlt]
      · cases hr
        refine ⟨hf, ?_, fun k hk => find_set_other rfl hf (by simp) hk⟩
        simp only [find, putSlot, List.getElem?_set_self hlt]
    · rw [if_pos hg] at hr
      cases hr
  · cases hr

theorem remove_restores {t : Slab α} (hr : s.remove h = .ok (v, s')) (hfresh : t.find h = none)
    (hrest : ∀ k, k ≠ h → s.find k = t.find k) (k : Handle) : s'.find k = t.find k := by
  have hremoved := remove_spec hr
  by_cases hk : k = h
  · rw [hk, hremoved.gone, hfresh]
  · rw [hremoved.rest k hk, hrest k hk]

theorem remove_ok (hf : s.find h = some v) : ∃ s', s.remove h = .ok (v, s') := by
  have hs := find_eq_some.1 hf
  unfold remove
  split
  · rename_i g w heq
    rw [hs] at heq
    cases heq
    rw [if_neg (by simp)]
    split
    · exact ⟨_, rfl⟩
    · exact ⟨_, rfl⟩
  · rename_i hne
    exact absurd hs (hne _ _)

theorem find_modify (s : Slab α) (h k : Handle) (f : α → α) :
    (s.modify h f).find k = if k = h then (s.find k).map f else s.find k := by
  unfold modify
  split
  · rename_i g v hs
    by_cases hg : g = h.generation
    · subst hg
      have hf : s.find h = some v := find_eq_some.2 hs
      have hlt := (List.getElem?_eq_some_iff.1 hs).1
      rw [if_pos rfl]
      by_cases hk : k = h
      · subst hk
        rw [if_pos rfl, hf, Option.map_some, find_eq_some]
        exact List.getElem?_set_self hlt
      · rw [if_neg hk]
        by_cases hgen : k.generation = h.generation
        · have hki : h.index ≠ k.index := by
            intro hki
            exact hk (by cases h; cases k; simp_all)
          exact find_of_slots_ne (List.getElem?_set_ne hki)
        · refine find_set_other rfl hf (fun w hw => hgen ?_) hk
          rw [Slot.mk.injEq] at hw
          exact hw.1.symm
    · rw [if_neg hg]
      split
      · rename_i hk
        subst hk
        have hf : s.find k = none := by
          unfold find
          rw [hs]
          exact if_neg hg
        rw [hf]
        rfl
      · rfl
  · rename_i hne
    split
    · rename_i hk
      subst hk
      have hf : s.find k = none := by
        unfold find
        split
        · rename_i heq
          exact absurd heq (hne _ _)
        · rfl
      rw [hf]
      rfl
    · rfl

end Slab

end Slates.Mem
