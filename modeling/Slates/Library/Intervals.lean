import Mathlib

/-!
Families of intervals of the naturals, each given by its first point and its width, no two of
which meet: an interval may be put where none meets it, taken away, and cut, and what the family
covers follows.
-/

namespace Slates

section Put

variable {β : Type}

def put (f : Nat → β) (i : Nat) (v : β) : Nat → β := fun j => if j = i then v else f j

@[simp] theorem put_self (f : Nat → β) (i : Nat) (v : β) : put f i v i = v :=
  if_pos rfl

theorem put_of_ne (f : Nat → β) {i j : Nat} (v : β) (h : j ≠ i) : put f i v j = f j :=
  if_neg h

theorem put_put (f : Nat → β) (i : Nat) (v v' : β) : put (put f i v) i v' = put f i v' := by
  funext j
  by_cases h : j = i
  · subst h
    rw [put_self, put_self]
  · rw [put_of_ne _ _ h, put_of_ne _ _ h, put_of_ne _ _ h]

theorem put_comm (f : Nat → β) {i j : Nat} {v v' : β} (h : i ≠ j) :
    put (put f j v') i v = put (put f i v) j v' := by
  funext k
  by_cases hi : k = i
  · subst hi
    rw [put_self, put_of_ne _ _ h, put_self]
  · rw [put_of_ne _ _ hi]
    by_cases hj : k = j
    · rw [hj, put_self, put_self]
    · rw [put_of_ne _ _ hj, put_of_ne _ _ hj, put_of_ne _ _ hi]

theorem put_eq_self (f : Nat → β) (i : Nat) : put f i (f i) = f := by
  funext j
  by_cases h : j = i
  · rw [h, put_self]
  · rw [put_of_ne _ _ h]

end Put

/-- The widths of a family of intervals, by first point. -/
abbrev Widths : Type := Nat → Option Nat

namespace Widths

variable {w : Widths} {g i j n m : Nat}

/-- Some interval of the family has `g` in it. -/
def Covers (w : Widths) (g : Nat) : Prop := ∃ i n, w i = some n ∧ i ≤ g ∧ g < i + n

/-- No two intervals of the family meet. -/
def Apart (w : Widths) : Prop :=
  ∀ i j n m, w i = some n → w j = some m → i ≠ j → i + n ≤ j ∨ j + m ≤ i

def Vacant (w : Widths) (i n : Nat) : Prop :=
  ∀ j m, w j = some m → i + n ≤ j ∨ j + m ≤ i

theorem Apart.place (h : w.Apart) (hv : w.Vacant i n) : Apart (put w i (some n)) := by
  intro a b k l ha hb hab
  by_cases hai : a = i
  · subst hai
    rw [put_self, Option.some.injEq] at ha
    subst ha
    rw [put_of_ne _ _ (Ne.symm hab)] at hb
    exact hv b l hb
  · rw [put_of_ne _ _ hai] at ha
    by_cases hbi : b = i
    · subst hbi
      rw [put_self, Option.some.injEq] at hb
      subst hb
      exact (hv a k ha).symm
    · rw [put_of_ne _ _ hbi] at hb
      exact h a b k l ha hb hab

theorem of_put_none (h : put w i none j = some m) : j ≠ i ∧ w j = some m := by
  by_cases hji : j = i
  · subst hji
    simp at h
  · exact ⟨hji, by rwa [put_of_ne _ _ hji] at h⟩

theorem Covers.drop (h : w.Covers g) (hi : ∀ m, w i = some m → m = n) :
    Covers (put w i none) g ∨ (i ≤ g ∧ g < i + n) := by
  obtain ⟨j, m, hj, hle, hlt⟩ := h
  by_cases hji : j = i
  · subst hji
    rw [← hi m hj]
    exact .inr ⟨hle, hlt⟩
  · exact .inl ⟨j, m, by rwa [put_of_ne _ _ hji], hle, hlt⟩

theorem Covers.place (h : Covers (put w i none) g ∨ (i ≤ g ∧ g < i + n)) :
    Covers (put w i (some n)) g := by
  rcases h with ⟨j, m, hj, hle, hlt⟩ | ⟨hle, hlt⟩
  · obtain ⟨hji, hj⟩ := of_put_none hj
    exact ⟨j, m, by rwa [put_of_ne _ _ hji], hle, hlt⟩
  · exact ⟨i, n, put_self _ _ _, hle, hlt⟩

theorem Apart.drop (h : w.Apart) (i : Nat) : Apart (put w i none) := by
  intro a b k l ha hb hab
  exact h a b k l (of_put_none ha).2 (of_put_none hb).2 hab

theorem Apart.vacant_drop (h : w.Apart) (hi : w i = some n) : Vacant (put w i none) i n := by
  intro j m hj
  obtain ⟨hji, hj⟩ := of_put_none hj
  exact h i j n m hi hj (Ne.symm hji)

theorem Vacant.drop (h : w.Vacant i n) (j : Nat) : Vacant (put w j none) i n :=
  fun _ _ ha => h _ _ (of_put_none ha).2

theorem Vacant.part (h : w.Vacant i n) (hij : i ≤ j) (hm : j + m ≤ i + n) : w.Vacant j m := by
  intro a k ha
  rcases h a k ha with h | h <;> omega

theorem Vacant.place (h : w.Vacant i n) (hij : i + n ≤ j ∨ j + m ≤ i) :
    Vacant (put w j (some m)) i n := by
  intro a k ha
  by_cases haj : a = j
  · subst haj
    rw [put_self, Option.some.injEq] at ha
    subst ha
    exact hij
  · rw [put_of_ne _ _ haj] at ha
    exact h a k ha

theorem Vacant.join (h : w.Vacant i n) (h' : w.Vacant (i + n) m)
    (hw : ∀ j k, w j = some k → 0 < k) : w.Vacant i (n + m) := by
  intro a k ha
  have := hw a k ha
  rcases h a k ha with h | h <;> rcases h' a k ha with h' | h' <;> omega

theorem Vacant.none (h : w.Vacant i n) (hn : 0 < n) (hw : ∀ m, w i = some m → 0 < m) :
    w i = none := by
  cases hi : w i with
  | none => rfl
  | some m =>
    have := hw m hi
    rcases h i m hi with h | h <;> omega

end Widths

end Slates
