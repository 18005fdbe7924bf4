import Slates.Mem.Slab

/-!
A slab over its whole life: the handles that name a record are those handed out and not removed,
and none is handed out twice, whatever slots are used again.
-/

namespace Slates.Mem.Slab

variable {α : Type} {s s' : Slab α} {h k : Handle} {v : α}

/-- `Slab::with_generation_limit`. -/
def withGenerationLimit (s : Slab α) (limit : Nat) : Slab α := { s with generationLimit := limit }

/-- No later slot names `h`: its slot is past its generation, or retired. -/
def Spent (s : Slab α) (h : Handle) : Prop :=
  ∃ slot, s.slots[h.index]? = some slot ∧ (h.generation < slot.generation ∨ slot.body = .retired)

/-- Generations only grow and a retired slot stays as it is. -/
def Ages (s s' : Slab α) : Prop :=
  ∀ (i : Nat) (slot : Slot α), s.slots[i]? = some slot →
    ∃ slot' : Slot α, s'.slots[i]? = some slot' ∧
      slot.generation ≤ slot'.generation ∧ (slot.body = .retired → slot' = slot)

theorem Spent.ages (hs : s.Spent h) (ha : Ages s s') : s'.Spent h := by
  obtain ⟨slot, hslot, hpast⟩ := hs
  obtain ⟨slot', hslot', hle, hkept⟩ := ha _ _ hslot
  refine ⟨slot', hslot', hpast.imp (fun hlt => lt_of_lt_of_le hlt hle) fun hret => ?_⟩
  rw [hkept hret, hret]

theorem Ages.refl (s : Slab α) : Ages s s := fun _ slot hi => ⟨slot, hi, le_refl _, fun _ => rfl⟩

theorem Ages.of_set {i : Nat} {old new : Slot α} (hi : s.slots[i]? = some old)
    (hslots : s'.slots = s.slots.set i new) (hle : old.generation ≤ new.generation)
    (hlive : old.body ≠ .retired) : Ages s s' := by
  intro j slot hj
  by_cases hij : i = j
  · subst hij
    rw [hi, Option.some.injEq] at hj
    subst hj
    refine ⟨new, ?_, hle, fun hret => absurd hret hlive⟩
    rw [hslots, List.getElem?_set_self (List.getElem?_eq_some_iff.1 hi).1]
  · exact ⟨slot, by rw [hslots, List.getElem?_set_ne hij, hj], le_refl _, fun _ => rfl⟩

theorem ages_insert (hi : s.insert v = .ok (h, s')) : Ages s s' := by
  unfold insert at hi
  split at hi
  · rename_i i rest hfree
    obtain ⟨g, hg⟩ := s.free_vacant i (hfree ▸ List.mem_cons_self)
    rw [hg] at hi
    cases hi
    exact .of_set hg rfl (le_refl _) (by simp)
  · split_ifs at hi
    · cases hi
      intro j slot hj
      refine ⟨slot, ?_, le_refl _, fun _ => rfl⟩
      rw [push, List.getElem?_append_left (List.getElem?_eq_some_iff.1 hj).1, hj]

theorem insert_not_spent (hi : s.insert v = .ok (h, s')) : ¬ s.Spent h := by
  rintro ⟨slot, hslot, hpast⟩
  unfold insert at hi
  split at hi
  · rename_i i rest hfree
    obtain ⟨g, hg⟩ := s.free_vacant i (hfree ▸ List.mem_cons_self)
    rw [hg] at hi
    cases hi
    rw [hg, Option.some.injEq] at hslot
    subst hslot
    rcases hpast with hlt | hret
    · exact absurd hlt (lt_irrefl _)
    · cases hret
  · split_ifs at hi
    · cases hi
      simp at hslot

theorem ages_remove (hr : s.remove h = .ok (v, s')) : Ages s s' ∧ s'.Spent h := by
  unfold remove at hr
  split at hr
  · rename_i g w hs
    have hlt := (List.getElem?_eq_some_iff.1 hs).1
    split at hr
    · cases hr
    · rename_i hg
      rw [not_not] at hg
      subst hg
      split at hr
      · cases hr
        exact ⟨.of_set hs rfl (Nat.le_succ _) (by simp),
          _, List.getElem?_set_self hlt, .inl (Nat.lt_succ_self _)⟩
      · cases hr
        exact ⟨.of_set hs rfl (le_refl _) (by simp), _, List.getElem?_set_self hlt, .inr rfl⟩
  · cases hr

theorem ages_modify (s : Slab α) (h : Handle) (f : α → α) : Ages s (s.modify h f) := by
  unfold modify
  split
  · rename_i g w hs
    split
    · exact .of_set hs rfl (le_refl _) (by simp)
    · exact .refl s
  · exact .refl s

/-! ## A slab's life -/

/-- The calls that change a slab; `discard` is a `remove` whose record is dropped. -/
inductive Call (α : Type)
  | insert (v : α)
  | remove (h : Handle)
  | modify (h : Handle) (f : α → α)

/-- A slab, the handles it handed out and those removed from it, newest first. -/
structure Life (α : Type) where
  slab : Slab α
  handed : List Handle
  removed : List Handle

def Life.call (l : Life α) : Call α → Life α
  | .insert v =>
    match l.slab.insert v with
    | .ok (h, s) => { l with slab := s, handed := h :: l.handed }
    | .error _ => l
  | .remove h =>
    match l.slab.remove h with
    | .ok (_, s) => { l with slab := s, removed := h :: l.removed }
    | .error _ => l
  | .modify h f => { l with slab := l.slab.modify h f }

def Life.run (l : Life α) (calls : List (Call α)) : Life α := calls.foldl Life.call l

/-- The life of a slab from its making on. -/
def Life.start (maxSlots limit : Nat) : Life α :=
  ⟨(empty maxSlots).withGenerationLimit limit, [], []⟩

structure Life.Accounted (l : Life α) : Prop where
  live : ∀ h, (l.slab.find h).isSome ↔ h ∈ l.handed ∧ h ∉ l.removed
  spent : ∀ h ∈ l.removed, l.slab.Spent h
  once : l.handed.Nodup

namespace Life.Accounted

variable {l : Life α}

theorem insert (ha : l.Accounted) (hi : l.slab.insert v = .ok (h, s)) :
    Accounted { l with slab := s, handed := h :: l.handed } := by
  have hins := insert_spec hi
  have hold : h ∉ l.removed := fun hr => insert_not_spent hi (ha.spent h hr)
  have hnew : h ∉ l.handed := by
    intro hh
    have := (ha.live h).2 ⟨hh, hold⟩
    rw [hins.fresh] at this
    cases this
  refine ⟨fun k => ?_, fun k hk => (ha.spent k hk).ages (ages_insert hi),
    List.nodup_cons.2 ⟨hnew, ha.once⟩⟩
  by_cases hk : k = h
  · subst hk
    simp [hins.found, hold]
  · simp [hins.rest k hk, ha.live k, hk]

theorem remove (ha : l.Accounted) (hr : l.slab.remove h = .ok (v, s)) :
    Accounted { l with slab := s, removed := h :: l.removed } := by
  have hrem := remove_spec hr
  obtain ⟨hages, hspent⟩ := ages_remove hr
  refine ⟨fun k => ?_, fun k hk => ?_, ha.once⟩
  · by_cases hk : k = h
    · subst hk
      simp [hrem.gone]
    · simp [hrem.rest k hk, ha.live k, hk]
  · rcases List.mem_cons.1 hk with rfl | hk
    · exact hspent
    · exact (ha.spent k hk).ages hages

theorem call (ha : l.Accounted) (c : Call α) : (l.call c).Accounted := by
  cases c with
  | insert v =>
    rw [Life.call]
    cases hi : l.slab.insert v with
    | ok r => exact ha.insert hi
    | error e => exact ha
  | remove h =>
    rw [Life.call]
    cases hr : l.slab.remove h with
    | ok r => exact ha.remove hr
    | error e => exact ha
  | modify h f =>
    refine ⟨fun k => ?_, fun k hk => (ha.spent k hk).ages (ages_modify _ h f), ha.once⟩
    refine Iff.trans ?_ (ha.live k)
    rw [Life.call, find_modify]
    split <;> simp

theorem run (ha : l.Accounted) (calls : List (Call α)) : (l.run calls).Accounted := by
  induction calls generalizing l with
  | nil => exact ha
  | cons c calls ih => exact ih (ha.call c)

end Life.Accounted

theorem Life.accounted_start (maxSlots limit : Nat) :
    (Life.start maxSlots limit : Life α).Accounted :=
  ⟨fun h => by simp [start, withGenerationLimit, empty, find], nofun, .nil⟩

/-- No handle is handed out twice, and those that name a record are the ones not removed since. -/
theorem handles_never_repeat (maxSlots limit : Nat) (calls : List (Call α)) :
    ((Life.start maxSlots limit).run calls).handed.Nodup ∧
      ∀ h, (((Life.start maxSlots limit).run calls).slab.find h).isSome ↔
        h ∈ ((Life.start maxSlots limit).run calls).handed ∧
          h ∉ ((Life.start maxSlots limit).run calls).removed :=
  have ha := (Life.accounted_start maxSlots limit).run calls
  ⟨ha.once, ha.live⟩

end Slates.Mem.Slab
