import Slates.Library.Versioned

/-!
What becomes of one key in one step, when a declared value wins over one moved there and that over a
removal (`Written.comm`).
-/

open Std (ExtTreeMap TransOrd LawfulEqOrd)

namespace Slates

section Written

variable {V : Type}

/-- A key that held `old` holds `new`. -/
inductive Written (declared moved : V → Prop) (removed : Prop) (old : Option V) :
    Option V → Prop
  | declare {v : V} : declared v → (∀ w, declared w → w = v) →
      Written declared moved removed old (some v)
  | move {v : V} : (∀ w, ¬ declared w) → moved v → (∀ w, moved w → w = v) →
      Written declared moved removed old (some v)
  | remove : (∀ w, ¬ declared w) → (∀ w, ¬ moved w) → removed →
      Written declared moved removed old none
  | keep : (∀ w, ¬ declared w) → (∀ w, ¬ moved w) → ¬ removed →
      Written declared moved removed old old

def Touch (declared moved : V → Prop) (removed : Prop) : Prop :=
  (∃ v, declared v) ∨ (∃ v, moved v) ∨ removed

variable {d m d' m' : V → Prop} {r r' : Prop} {old new new' : Option V}

theorem Written.isSome_iff (h : Written d m r old new) :
    new.isSome ↔ (∃ v, d v) ∨ (∃ v, m v) ∨ (old.isSome ∧ ¬ r) := by
  cases h with
  | declare hv _ => exact ⟨fun _ => .inl ⟨_, hv⟩, fun _ => rfl⟩
  | move _ hv _ => exact ⟨fun _ => .inr (.inl ⟨_, hv⟩), fun _ => rfl⟩
  | remove hnd hnm hr =>
    refine ⟨nofun, ?_⟩
    rintro (⟨v, hv⟩ | ⟨v, hv⟩ | ⟨-, hn⟩)
    · exact absurd hv (hnd v)
    · exact absurd hv (hnm v)
    · exact absurd hr hn
  | keep hnd hnm hr =>
    refine ⟨fun hin => .inr (.inr ⟨hin, hr⟩), ?_⟩
    rintro (⟨v, hv⟩ | ⟨v, hv⟩ | ⟨hin, -⟩)
    · exact absurd hv (hnd v)
    · exact absurd hv (hnm v)
    · exact hin

theorem Written.congr_removed (h : Written d m r old new)
    (hr : (∀ v, ¬ d v) → (∀ v, ¬ m v) → (r ↔ r')) : Written d m r' old new := by
  cases h with
  | declare hv hu => exact .declare hv hu
  | move hnd hv hu => exact .move hnd hv hu
  | remove hnd hnm h => exact .remove hnd hnm ((hr hnd hnm).mp h)
  | keep hnd hnm h => exact .keep hnd hnm (mt (hr hnd hnm).mpr h)

end Written

/-! ## Versioned maps -/

namespace Versioned

variable {K V : Type} [Ord K] [TransOrd K]

/-- What a version did to one key of a versioned map. -/
structure Wrote (m m' : Versioned K V) (version : Nat) (k : K) (declared moved : V → Prop)
    (removed : Prop) : Prop where
  value : Written declared moved removed m.current[k]? m'.current[k]?
  touched : Touch declared moved removed → m'.changedAt k = version
  untouched : ¬ Touch declared moved removed → m'.changedAt k = m.changedAt k

variable {k : K} {changes early late : List (K × Option V)}

theorem Wrote.congr {m m' : Versioned K V} {version : Nat} {d mv d' mv' : V → Prop} {r r' : Prop}
    (h : Wrote m m' version k d mv r) (hd : ∀ v, d v ↔ d' v) (hm : ∀ v, mv v ↔ mv' v)
    (hr : (∀ v, ¬ d v) → (∀ v, ¬ mv v) → (r ↔ r')) : Wrote m m' version k d' mv' r' := by
  rw [funext fun v => propext (hd v), funext fun v => propext (hm v)] at h
  simp only [hd, hm] at hr
  have htouch : Touch d' mv' r ↔ Touch d' mv' r' := by
    by_cases hput : (∃ v, d' v) ∨ (∃ v, mv' v)
    · rcases hput with hput | hput
      · exact ⟨fun _ => .inl hput, fun _ => .inl hput⟩
      · exact ⟨fun _ => .inr (.inl hput), fun _ => .inr (.inl hput)⟩
    · rw [not_or, not_exists, not_exists] at hput
      rw [Touch, Touch, hr hput.1 hput.2]
  refine ⟨?_, fun ht => h.touched (htouch.mpr ht), fun ht => h.untouched (mt htouch.mp ht)⟩
  exact h.value.congr_removed hr

theorem Wrote.mem_iff {m m' : Versioned K V} {version : Nat} {d mv : V → Prop} {r : Prop}
    (h : Wrote m m' version k d mv r) :
    k ∈ m'.current ↔ (∃ v, d v) ∨ (∃ v, mv v) ∨ (k ∈ m.current ∧ ¬ r) := by
  rw [ExtTreeMap.mem_iff_isSome_getElem?, ExtTreeMap.mem_iff_isSome_getElem?]
  exact h.value.isSome_iff

section

omit [Ord K] [TransOrd K]

variable [DecidableEq K]

theorem getLast?_changesOf {w : Option V} (hmem : (k, w) ∈ changes)
    (hall : ∀ w', (k, w') ∈ changes → w' = w) : (changesOf changes k).getLast? = some w := by
  have hne := List.ne_nil_of_mem ((mem_changesOf changes k w).mpr hmem)
  have hlast := (mem_changesOf changes k _).mp (List.getLast_mem hne)
  rw [List.getLast?_eq_getLast_of_ne_nil hne, hall _ hlast]

theorem changesOf_eq_nil : changesOf changes k = [] ↔ ∀ w, (k, w) ∉ changes := by
  rw [List.eq_nil_iff_forall_not_mem]
  exact forall_congr' fun w => not_congr (mem_changesOf changes k w)

end

variable [LawfulEqOrd K] [DecidableEq K]

theorem wrote_writeAll (m : Versioned K V) (version : Nat) (hlate : (k, none) ∉ late) :
    Wrote m (m.writeAll version (early ++ late)) version k
      (fun v => (changesOf late k).getLast? = some (some v))
      (fun v => (changesOf early k).getLast? = some (some v))
      ((changesOf early k).getLast? = some none) where
  value := by
    rw [writeAll_append, current_writeAll, current_writeAll]
    cases hl : (changesOf late k).getLast? with
    | some last =>
      cases last with
      | none => exact absurd ((mem_changesOf late k _).mp (List.mem_of_getLast? hl)) hlate
      | some v => exact .declare rfl fun w hw => by cases hw; rfl
    | none =>
      cases he : (changesOf early k).getLast? with
      | none => exact .keep nofun nofun nofun
      | some last =>
        cases last with
        | none => exact .remove nofun nofun rfl
        | some v => exact .move nofun rfl fun w hw => by cases hw; rfl
  touched := by
    intro ht
    rw [changedAt_writeAll, changesOf_append, if_neg]
    intro hnil
    obtain ⟨hearly, hlate⟩ := List.append_eq_nil_iff.mp hnil
    simp [Touch, hearly, hlate] at ht
  untouched := by
    intro ht
    rw [changedAt_writeAll, changesOf_append, if_pos]
    have hearly : changesOf early k = [] := by
      rw [← List.getLast?_eq_none_iff]
      cases he : (changesOf early k).getLast? with
      | none => rfl
      | some last =>
        cases last with
        | none => exact absurd (.inr (.inr he)) ht
        | some v => exact absurd (.inr (.inl ⟨v, he⟩)) ht
    have hlate' : changesOf late k = [] := by
      rw [← List.getLast?_eq_none_iff]
      cases hl : (changesOf late k).getLast? with
      | none => rfl
      | some last =>
        cases last with
        | none => exact absurd ((mem_changesOf late k _).mp (List.mem_of_getLast? hl)) hlate
        | some v => exact absurd (.inl ⟨v, hl⟩) ht
    rw [hearly, hlate', List.nil_append]

theorem wrote_writeAll_of_mem (m : Versioned K V) (version : Nat) (hlate : (k, none) ∉ late)
    (hdeclared : ∀ v w, (k, some v) ∈ late → (k, some w) ∈ late → w = v)
    (hmoved : ∀ v, (k, some v) ∈ early → (changesOf early k).getLast? = some (some v)) :
    Wrote m (m.writeAll version (early ++ late)) version k (fun v => (k, some v) ∈ late)
      (fun v => (k, some v) ∈ early) ((k, none) ∈ early) := by
  have hmem : ∀ {changes : List (K × Option V)} {w}, (changesOf changes k).getLast? = some w →
      (k, w) ∈ changes := fun h => (mem_changesOf _ k _).mp (List.mem_of_getLast? h)
  refine (wrote_writeAll m version hlate).congr (fun v => ⟨hmem, fun hv => ?_⟩)
    (fun v => ⟨hmem, hmoved v⟩) fun _ hnm => ⟨hmem, fun hr => ?_⟩
  · refine getLast?_changesOf hv fun w hw => ?_
    cases w with
    | none => exact absurd hw hlate
    | some w => rw [hdeclared v w hv hw]
  · refine getLast?_changesOf hr fun w hw => ?_
    cases w with
    | none => rfl
    | some w => exact absurd (hmoved w hw) (hnm w)

theorem wrote_writeAll_of_iff {m : Versioned K V} {version : Nat} {d mv : V → Prop} {r : Prop}
    (hd : ∀ v, (k, some v) ∈ late ↔ d v) (hlate : (k, none) ∉ late)
    (hm : ∀ v, (k, some v) ∈ early ↔ mv v) (hr : (k, none) ∈ early ↔ r)
    (hdeclared : ∀ v w, d v → d w → w = v) (hmoved : ∀ v w, mv v → mv w → w = v)
    (hkept : ∀ v, mv v → ¬ r) : Wrote m (m.writeAll version (early ++ late)) version k d mv r := by
  simp only [← hd, ← hm, ← hr] at hdeclared hmoved hkept
  refine (wrote_writeAll_of_mem m version hlate hdeclared fun v hv =>
    getLast?_changesOf hv fun w hw => ?_).congr hd hm fun _ _ => hr
  cases w with
  | none => exact absurd hw (hkept v hv)
  | some w => rw [hmoved v w hv hw]

section Fold

variable {E : Type} {step : Versioned K V → E → Versioned K V} {events : List E} {version : Nat}

omit [LawfulEqOrd K] [DecidableEq K] in
theorem foldl_eq_writeAll {write : E → Option (K × Option V)} (m : Versioned K V)
    (h : ∀ e ∈ events, ∀ m, step m e = m.writeAll version (write e).toList) :
    events.foldl step m = m.writeAll version (events.filterMap write) := by
  induction events generalizing m with
  | nil => rfl
  | cons e events ih =>
    rw [List.foldl_cons, h e List.mem_cons_self, ih _ fun e he => h e (List.mem_cons_of_mem _ he),
      ← writeAll_append, List.filterMap_cons]
    cases write e <;> rfl

theorem foldl_takes (takes : E → K → Prop) (m : Versioned K V)
    (h : ∀ e ∈ events, ∀ m : Versioned K V, ∃ writes, step m e = m.writeAll version writes ∧
      ∀ k w, (k, w) ∈ writes ↔ w = none ∧ takes e k ∧ k ∈ m.current) :
    ∃ writes, events.foldl step m = m.writeAll version writes ∧
      ∀ k w, (k, w) ∈ writes ↔ w = none ∧ (∃ e ∈ events, takes e k) ∧ k ∈ m.current := by
  induction events using List.reverseRecOn with
  | nil => exact ⟨[], rfl, by simp⟩
  | append_singleton events e ih =>
    obtain ⟨writes, heq, hmem⟩ := ih fun e he => h e (List.mem_append_left _ he)
    obtain ⟨last, hlast, hmem'⟩ := h e (by simp) (m.writeAll version writes)
    refine ⟨writes ++ last, by rw [List.foldl_concat, heq, hlast, writeAll_append], fun k w => ?_⟩
    simp only [List.mem_append, hmem, hmem', List.mem_singleton, or_and_right, exists_or,
      exists_eq_left]
    have hleft : k ∈ (m.writeAll version writes).current ↔ k ∈ m.current ∧ (k, none) ∉ writes := by
      have hwrote : Wrote m (m.writeAll version (writes ++ [])) version k _ _ _ :=
        wrote_writeAll_of_mem m version (by simp) (by simp) fun v hv => by
          cases ((hmem ..).mp hv).1
      rw [List.append_nil] at hwrote
      simpa [hmem] using hwrote.mem_iff
    constructor
    · rintro (⟨hw, ht, hk⟩ | ⟨hw, ht, hk⟩)
      · exact ⟨hw, .inl ⟨ht, hk⟩⟩
      · exact ⟨hw, .inr ⟨ht, (hleft.mp hk).1⟩⟩
    · rintro ⟨rfl, ht | ⟨ht, hk⟩⟩
      · exact .inl ⟨rfl, ht⟩
      · -- still there, or taken by an earlier event
        by_cases hgone : (k, none) ∈ writes
        · exact .inl ((hmem ..).mp hgone)
        · exact .inr ⟨rfl, ht, hleft.mpr ⟨hk, hgone⟩⟩

end Fold

end Versioned

end Slates
