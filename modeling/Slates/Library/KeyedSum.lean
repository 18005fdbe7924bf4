import Mathlib

/-!
The sum of what finitely many keys hold: `total_eq_sum` reads it off any list of the held values,
`total_update` keeps it.
-/

namespace Slates

section KeyedSum

variable {K B M : Type}

/-- The sum of the values that the keys hold. -/
noncomputable def total [AddCommMonoid M] (φ : B → M) (f : K → Option B) : M :=
  finsum fun k => (f k).elim 0 φ

/-- A key's part of the sum changes by this much. -/
def change [AddCommGroup M] (φ : B → M) (old new : Option B) : M := new.elim 0 φ - old.elim 0 φ

theorem total_eq_sum [AddCommMonoid M] (φ : B → M) {f : K → Option B} {l : List (K × B)}
    (hkeys : (l.map Prod.fst).Nodup) (hmem : ∀ k b, (k, b) ∈ l ↔ f k = some b) :
    total φ f = (l.map (fun e => φ e.2)).sum := by
  classical
  have hsupport :
      Function.support (fun k => (f k).elim 0 φ) ⊆ ((l.map Prod.fst).toFinset : Set K) := by
    intro k hk
    cases hf : f k with
    | none => simp [hf] at hk
    | some b =>
      rw [Finset.mem_coe, List.mem_toFinset]
      exact List.mem_map.mpr ⟨(k, b), (hmem k b).mpr hf, rfl⟩
  rw [total, finsum_eq_sum_of_support_subset _ hsupport, List.sum_toFinset _ hkeys, List.map_map]
  congr 1
  apply List.map_congr_left
  intro e he
  have hf : f e.1 = some e.2 := (hmem e.1 e.2).mp he
  simp [hf]

/-- **Keeping a sum** up with the keys that may have changed. -/
theorem total_update [AddCommGroup M] (φ : B → M) {old new : K → Option B} {dirty : List K}
    (hdirty : dirty.Nodup) (hsame : ∀ k, k ∉ dirty → old k = new k)
    (hfinite : {k | new k ≠ none}.Finite) :
    total φ old + (dirty.map (fun k => change φ (old k) (new k))).sum = total φ new := by
  classical
  have hnew : (Function.support fun k => (new k).elim 0 φ).Finite := by
    refine hfinite.subset fun k hk hn => ?_
    rw [Function.mem_support, hn] at hk
    exact hk rfl
  have hchange :
      (Function.support fun k => change φ (old k) (new k)) ⊆ (dirty.toFinset : Set K) := by
    intro k hk
    by_contra hn
    rw [Finset.mem_coe, List.mem_toFinset] at hn
    rw [Function.mem_support, change, hsame k hn, sub_self] at hk
    exact hk rfl
  have hsum : (dirty.map (fun k => change φ (old k) (new k))).sum =
      finsum fun k => change φ (old k) (new k) := by
    rw [finsum_eq_sum_of_support_subset _ hchange, List.sum_toFinset _ hdirty]
  have hold : (fun k => (old k).elim 0 φ) =
      fun k => (new k).elim 0 φ - change φ (old k) (new k) := by
    funext k
    rw [change, sub_sub_cancel]
  rw [hsum, total, total, hold, finsum_sub_distrib hnew ((Finset.finite_toSet _).subset hchange),
    sub_add_cancel]

end KeyedSum

end Slates
