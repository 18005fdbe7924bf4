import Mathlib

/-!
Tables built from a list of keys, and lists kept as sets.
-/

open Std (ExtTreeMap TransOrd LawfulEqOrd)

namespace Slates

section Collect

variable {K V : Type} [Ord K] [TransOrd K] [LawfulEqOrd K]

theorem getElem?_insert_if [DecidableEq K] (m : ExtTreeMap K V) (k a : K) (v : V) :
    (m.insert k v)[a]? = if k = a then some v else m[a]? := by
  rw [ExtTreeMap.getElem?_insert]
  exact if_congr Std.compare_eq_iff_eq rfl rfl

theorem getElem?_erase_if [DecidableEq K] (m : ExtTreeMap K V) (k a : K) :
    (m.erase k)[a]? = if k = a then none else m[a]? := by
  rw [ExtTreeMap.getElem?_erase]
  exact if_congr Std.compare_eq_iff_eq rfl rfl

omit [LawfulEqOrd K] in
theorem values_eq_map_toList (m : ExtTreeMap K V) : m.values = m.toList.map Prod.snd := by
  obtain ⟨t⟩ := m
  induction t using Std.ExtDTreeMap.inductionOn with
  | mk t =>
    change t.values = (Std.DTreeMap.Const.toList t).map Prod.snd
    rw [Std.DTreeMap.values, Std.DTreeMap.Const.toList,
      Std.DTreeMap.Internal.Impl.values_eq_map_snd,
      Std.DTreeMap.Internal.Impl.Const.toList_eq_toListModel_map, List.map_map]
    rfl

theorem foldl_insert_toList [DecidableEq K] (m : ExtTreeMap K V) :
    m.toList.foldl (fun table held => table.insert held.1 held.2) ∅ = m := by
  rw [← ExtTreeMap.ofList_eq_foldl]
  refine ExtTreeMap.ext_getElem? fun k => ?_
  cases hk : m[k]? with
  | some v =>
    exact ExtTreeMap.getElem?_ofList_of_mem Std.ReflCmp.compare_self ExtTreeMap.distinct_keys_toList
      (ExtTreeMap.mem_toList_iff_getElem?_eq_some.mpr hk)
  | none =>
    refine ExtTreeMap.getElem?_ofList_of_contains_eq_false ?_
    rw [ExtTreeMap.map_fst_toList_eq_keys, List.contains_eq_mem, decide_eq_false_iff_not,
      ExtTreeMap.mem_keys, ← ExtTreeMap.isSome_getElem?_iff_mem, hk]
    simp

theorem mem_values_iff (m : ExtTreeMap K V) {v : V} : v ∈ m.values ↔ ∃ k : K, m[k]? = some v := by
  rw [values_eq_map_toList]
  constructor
  · intro h
    obtain ⟨⟨k, w⟩, hmem, rfl⟩ := List.mem_map.mp h
    exact ⟨k, ExtTreeMap.mem_toList_iff_getElem?_eq_some.mp hmem⟩
  · rintro ⟨k, hk⟩
    exact List.mem_map.mpr ⟨(k, v), ExtTreeMap.mem_toList_iff_getElem?_eq_some.mpr hk, rfl⟩

theorem nodup_keys (m : ExtTreeMap K V) : m.keys.Nodup :=
  ExtTreeMap.distinct_keys.imp fun h heq => h (Std.compare_eq_iff_eq.mpr heq)

/-- What `f` gives each of the keys. -/
def collect (keys : List K) (f : K → Option V) : ExtTreeMap K V :=
  keys.foldl (fun m k => (f k).elim m (m.insert k)) ∅

theorem getElem?_collect [DecidableEq K] (keys : List K) (f : K → Option V) (k : K) :
    (collect keys f)[k]? = if k ∈ keys then f k else none := by
  induction keys using List.reverseRecOn with
  | nil => simp [collect]
  | append_singleton keys k' ih =>
    rw [collect, List.foldl_append]
    change ((f k').elim (collect keys f) ((collect keys f).insert k'))[k]? = _
    cases hf : f k' with
    | none =>
      rw [Option.elim_none, ih]
      by_cases hk : k = k' <;> by_cases hin : k ∈ keys <;> simp_all
    | some v =>
      rw [Option.elim_some, getElem?_insert_if, ih]
      by_cases hk : k = k'
      · simp [hk, hf]
      · by_cases hin : k ∈ keys <;> simp [Ne.symm hk, hk, hin]

theorem mem_collect_some [DecidableEq K] {keys : List K} {f : K → V} {k : K} :
    k ∈ collect keys (fun k => some (f k)) ↔ k ∈ keys := by
  rw [ExtTreeMap.mem_iff_isSome_getElem?, getElem?_collect]
  by_cases hk : k ∈ keys <;> simp [hk]

end Collect

end Slates
