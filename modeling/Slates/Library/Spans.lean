import Mathlib

/-!
A memory as a list of cells: the span of it from an offset on, and a patch written over it. What is
written is read back, and a span apart from it is untouched.
-/

namespace Slates.Spans

variable {α : Type}

/-- The `n` cells from `off` on. -/
def span (m : List α) (off n : Nat) : List α := (m.drop off).take n

/-- The memory with `xs` written over it from `off` on. -/
def patch (m : List α) (off : Nat) (xs : List α) : List α :=
  m.take off ++ xs ++ m.drop (off + xs.length)

variable {m xs : List α} {off o n k : Nat}

theorem length_span (h : o + n ≤ m.length) : (span m o n).length = n := by
  rw [span, List.length_take, List.length_drop]
  omega

theorem length_patch (h : off + xs.length ≤ m.length) : (patch m off xs).length = m.length := by
  rw [patch, List.length_append, List.length_append, List.length_take, List.length_drop]
  omega

theorem getElem?_span (m : List α) (o n i : Nat) :
    (span m o n)[i]? = if i < n then m[o + i]? else none := by
  rw [span, List.getElem?_take, List.getElem?_drop]

theorem getElem?_patch (h : off + xs.length ≤ m.length) (i : Nat) :
    (patch m off xs)[i]? = if off ≤ i ∧ i < off + xs.length then xs[i - off]? else m[i]? := by
  have hto : (m.take off).length = off := by
    rw [List.length_take]
    omega
  unfold patch
  rw [List.getElem?_append, List.length_append, hto]
  by_cases h1 : i < off + xs.length
  · rw [if_pos h1, List.getElem?_append, hto]
    by_cases h2 : i < off
    · rw [if_pos h2, if_neg (by omega), List.getElem?_take, if_pos h2]
    · rw [if_neg h2, if_pos (by omega)]
  · rw [if_neg h1, if_neg (by omega), List.getElem?_drop]
    congr 1
    omega

theorem span_patch_self (h : off + xs.length ≤ m.length) :
    span (patch m off xs) off xs.length = xs := by
  refine List.ext_getElem? fun i => ?_
  rw [getElem?_span, getElem?_patch h]
  by_cases hi : i < xs.length
  · rw [if_pos hi, if_pos ⟨by omega, by omega⟩, Nat.add_sub_cancel_left]
  · rw [if_neg hi, List.getElem?_eq_none (by omega)]

theorem span_patch_apart (h : off + xs.length ≤ m.length)
    (hd : o + n ≤ off ∨ off + xs.length ≤ o) : span (patch m off xs) o n = span m o n := by
  refine List.ext_getElem? fun i => ?_
  rw [getElem?_span, getElem?_span, getElem?_patch h]
  by_cases hi : i < n
  · rw [if_pos hi, if_pos hi, if_neg (by omega)]
  · rw [if_neg hi, if_neg hi]

theorem span_add (m : List α) (o n k : Nat) :
    span m o (n + k) = span m o n ++ span m (o + n) k := by
  rw [span, span, span, List.take_add, List.drop_drop]

theorem span_take (h : k ≤ n) : (span m o n).take k = span m o k := by
  rw [span, span, List.take_take, Nat.min_eq_left h]

theorem span_drop (m : List α) (o n k : Nat) : (span m o n).drop k = span m (o + k) (n - k) := by
  rw [span, span, List.drop_take, List.drop_drop]

end Slates.Spans
