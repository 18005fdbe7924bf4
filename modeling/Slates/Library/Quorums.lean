import Mathlib

/-!
Quorums of a list of hosts: two that together count more than the list have a host in common, also
where a host stands in the list more than once.
-/

namespace Slates.Quorums

variable {α : Type} {whole xs ys : List α}

theorem exists_common [DecidableEq α] (hxs : xs.Nodup) (hys : ys.Nodup)
    (hsubx : ∀ x ∈ xs, x ∈ whole)
    (hsuby : ∀ y ∈ ys, y ∈ whole) (hlt : whole.length < xs.length + ys.length) :
    ∃ x ∈ xs, x ∈ ys := by
  have hcard : whole.toFinset.card < xs.toFinset.card + ys.toFinset.card := by
    rw [List.toFinset_card_of_nodup hxs, List.toFinset_card_of_nodup hys]
    exact (List.toFinset_card_le whole).trans_lt hlt
  obtain ⟨x, hx⟩ := Finset.inter_nonempty_of_card_lt_card_add_card
    (fun x hx => List.mem_toFinset.mpr (hsubx x (List.mem_toFinset.mp hx)))
    (fun y hy => List.mem_toFinset.mpr (hsuby y (List.mem_toFinset.mp hy))) hcard
  rw [Finset.mem_inter, List.mem_toFinset, List.mem_toFinset] at hx
  exact ⟨x, hx.1, hx.2⟩

/-- Two properties counted more often than the list is long share a member. -/
theorem exists_both {p q : α → Bool} (h : whole.length < whole.countP p + whole.countP q) :
    ∃ x ∈ whole, p x ∧ q x := by
  by_contra hnone
  push Not at hnone
  have hle : whole.countP q ≤ whole.countP fun x => !p x := by
    refine List.countP_mono_left fun x hx hq => ?_
    cases hp : p x with
    | false => rfl
    | true => exact absurd hq (hnone x hx hp)
  have hsum := List.length_eq_countP_add_countP p (l := whole)
  have hnot : (whole.countP fun x => !p x) = whole.countP fun x => decide ¬ p x = true :=
    List.countP_congr fun x _ => by simp
  omega

theorem countP_add_length_le (hxs : xs.Nodup) (hsub : ∀ x ∈ xs, x ∈ whole) (p : α → Bool) :
    whole.countP p + xs.length ≤ xs.countP p + whole.length := by
  have hmissed : (xs.countP fun x => ¬ p x) ≤ whole.countP fun x => ¬ p x :=
    (hxs.subperm hsub).countP_le _
  have hwhole := List.length_eq_countP_add_countP p (l := whole)
  have hpart := List.length_eq_countP_add_countP p (l := xs)
  omega

theorem countP_lt_of_fast {fast : ℕ} {p q : α → Bool} (hxs : xs.Nodup)
    (hsub : ∀ x ∈ xs, x ∈ whole) (hfast : fast ≤ whole.countP p)
    (hmeet : 2 * whole.length < 2 * fast + xs.length) (hpq : ∀ x ∈ xs, p x → ¬ q x) :
    xs.countP q < xs.countP p ∧ xs.countP q + whole.length < fast + xs.length := by
  have hkept := countP_add_length_le hxs hsub p
  have hother : xs.countP q ≤ xs.countP fun x => ¬ p x :=
    List.countP_mono_left fun x hx hq => decide_eq_true fun hp => hpq x hx hp hq
  have hpart := List.length_eq_countP_add_countP p (l := xs)
  omega

theorem lt_countP_of_descending (f : α → ℕ) (xs : List α) {k x q : ℕ}
    (hx : ((xs.map f).insertionSort (· ≥ ·))[k]? = some x) (hq : q ≤ x) :
    k < xs.countP fun a => q ≤ f a := by
  set sorted := (xs.map f).insertionSort (· ≥ ·) with hsorted
  have hdown : sorted.Pairwise (· ≥ ·) := List.pairwise_insertionSort _ _
  obtain ⟨hk, rfl⟩ := List.getElem?_eq_some_iff.mp hx
  have htake : (sorted.take (k + 1)).countP (fun n => q ≤ n) = k + 1 := by
    have hall : (sorted.take (k + 1)).countP (fun n => decide (q ≤ n)) =
        (sorted.take (k + 1)).length := by
      refine List.countP_eq_length.mpr fun n hn => decide_eq_true ?_
      obtain ⟨i, hi, rfl⟩ := List.getElem_of_mem hn
      rw [List.length_take] at hi
      rw [List.getElem_take]
      rcases Nat.lt_or_ge i k with hik | hik
      · exact hq.trans (List.pairwise_iff_getElem.mp hdown i k (by omega) hk hik)
      · obtain rfl : i = k := by omega
        exact hq
    rw [hall, List.length_take_of_le hk]
  calc k < (sorted.take (k + 1)).countP fun n => q ≤ n := by omega
    _ ≤ sorted.countP fun n => q ≤ n := (List.take_sublist _ _).countP_le
    _ = (xs.map f).countP fun n => q ≤ n := (List.perm_insertionSort _ _).countP_eq _
    _ = xs.countP fun a => q ≤ f a := List.countP_map

end Slates.Quorums
