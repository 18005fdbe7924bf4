import Mathlib

/-!
Runs of a step function, conditions on their actions, and the induction over them.
-/

namespace Slates.Runs

variable {S A : Type} {step : S → A → S} {C : S → A → Prop} {s : S} {actions : List A}

/-- A condition on every action of a run, in the state it meets. -/
def Meets (step : S → A → S) (C : S → A → Prop) : S → List A → Prop
  | _, [] => True
  | s, a :: actions => C s a ∧ Meets step C (step s a) actions

instance Meets.decidable (step : S → A → S) (C : S → A → Prop) [∀ s a, Decidable (C s a)] :
    (s : S) → (actions : List A) → Decidable (Meets step C s actions)
  | _, [] => .isTrue trivial
  | s, a :: actions =>
    have := Meets.decidable step C (step s a) actions
    inferInstanceAs (Decidable (C s a ∧ Meets step C (step s a) actions))

theorem Meets.take (h : Meets step C s actions) (n : Nat) : Meets step C s (actions.take n) := by
  induction actions generalizing s n with
  | nil =>
    rw [List.take_nil]
    trivial
  | cons a actions ih =>
    cases n with
    | zero => trivial
    | succ n => exact ⟨h.1, ih h.2 n⟩

theorem Meets.mono {D : S → A → Prop} (h : Meets step C s actions)
    (hcd : ∀ s a, C s a → D s a) : Meets step D s actions := by
  induction actions generalizing s with
  | nil => trivial
  | cons a actions ih => exact ⟨hcd s a h.1, ih h.2⟩

theorem meets_append {more : List A} :
    Meets step C s (actions ++ more) ↔
      Meets step C s actions ∧ Meets step C (actions.foldl step s) more := by
  induction actions generalizing s with
  | nil => exact (iff_of_eq (true_and _)).symm
  | cons a actions ih => exact (and_congr_right fun _ => ih).trans and_assoc.symm

theorem Meets.between (h : Meets step C s actions) {n k : Nat} (hnk : n ≤ k) :
    ∃ more, actions.take k = actions.take n ++ more ∧
      Meets step C ((actions.take n).foldl step s) more := by
  have hsplit : actions.take k = actions.take n ++ (actions.take k).drop n := by
    conv_lhs => rw [← List.take_append_drop n (actions.take k)]
    rw [List.take_take, min_eq_left hnk]
  have hrest := h.take k
  rw [hsplit, meets_append] at hrest
  exact ⟨_, hsplit, hrest.2⟩

theorem meets_iff_getElem? :
    Meets step C s actions ↔
      ∀ n a, actions[n]? = some a → C ((actions.take n).foldl step s) a := by
  induction actions generalizing s with
  | nil => exact iff_of_true trivial fun _ _ h => absurd h (by simp)
  | cons a actions ih =>
    constructor
    · intro h n b hb
      cases n with
      | zero => exact Option.some.inj hb ▸ h.1
      | succ n => exact ih.mp h.2 n b hb
    · intro h
      exact ⟨h 0 a rfl, ih.mpr fun n b hb => h (n + 1) b hb⟩

/-- **The induction over runs.** -/
theorem Meets.invariant {P : S → Prop} (h : Meets step C s actions)
    (hstep : ∀ s a, P s → C s a → P (step s a)) (hp : P s) : P (actions.foldl step s) := by
  induction actions generalizing s with
  | nil => exact hp
  | cons a actions ih => exact ih h.2 (hstep s a hp h.1)

end Slates.Runs
