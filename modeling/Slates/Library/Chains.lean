import Mathlib

/-!
Chains of forwardings: a partial function followed from a place until it leads no further.
-/

namespace Slates.Chains

variable {α : Type}

/-- `n` forwardings lead from the first place to the second, where none leads on. -/
inductive Leads (next : α → Option α) : ℕ → α → α → Prop
  | done {x : α} (h : next x = none) : Leads next 0 x x
  | step {n : ℕ} {x y z : α} (h : next x = some y) (hrest : Leads next n y z) :
      Leads next (n + 1) x z

variable {next next' : α → Option α} {n k : ℕ} {x y z : α}

theorem Leads.length_unique {w : α} (h : Leads next n x z) (h' : Leads next k x w) : n = k := by
  induction h generalizing k with
  | done h =>
    cases h' with
    | done => rfl
    | step hstep => exact absurd (h.symm.trans hstep) (by simp)
  | step h _ ih =>
    cases h' with
    | done hdone => exact absurd (hdone.symm.trans h) (by simp)
    | step hstep hrest =>
      obtain rfl := Option.some.inj (h.symm.trans hstep)
      rw [ih hrest]

theorem Leads.next_ne (h : Leads next n x z) (hxy : next x = some y) : y ≠ x := by
  rintro rfl
  cases h with
  | done hdone => exact absurd (hdone.symm.trans hxy) (by simp)
  | step hstep hrest =>
    obtain rfl := Option.some.inj (hxy.symm.trans hstep)
    have := hrest.length_unique (.step hstep hrest)
    omega

/-- One more forwarding: the chains that ended in `y` are one longer. -/
theorem Leads.forwarded {w : α} (h : Leads next n x z) (hsame : ∀ v, v ≠ y → next' v = next v)
    (hstop : next y = none) (hy : next' y = some w) (hw : next' w = none) :
    z ≠ y ∧ Leads next' n x z ∨ z = y ∧ Leads next' (n + 1) x w := by
  induction h with
  | @done x h =>
    by_cases hx : x = y
    · exact .inr ⟨hx, .step (hx ▸ hy) (.done hw)⟩
    · exact .inl ⟨hx, .done ((hsame x hx).trans h)⟩
  | @step n x v z h _ ih =>
    have hx : x ≠ y := by
      rintro rfl
      rw [hstop] at h
      cases h
    have hnext : next' x = some v := (hsame x hx).trans h
    exact ih.imp (.imp_right (.step hnext)) (.imp_right (.step hnext))

/-- A forwarding changed: the chains that went through `y` end where it leads now, no longer than
they were. -/
theorem Leads.redirected {w : α} (h : Leads next n x z) (hsame : ∀ v, v ≠ y → next' v = next v)
    (hold : next y ≠ none) (hy : next' y = some w) (hw : next' w = none) :
    z ≠ y ∧ Leads next' n x z ∨ ∃ k ≤ n, Leads next' k x w := by
  induction h with
  | @done x h =>
    have hx : x ≠ y := by
      rintro rfl
      exact hold h
    exact .inl ⟨hx, .done ((hsame x hx).trans h)⟩
  | @step n x v z h _ ih =>
    by_cases hx : x = y
    · exact .inr ⟨1, by omega, .step (hx ▸ hy) (.done hw)⟩
    have hnext : next' x = some v := (hsame x hx).trans h
    exact ih.imp (.imp_right (.step hnext))
      fun ⟨k, hk, hleads⟩ => ⟨k + 1, by omega, .step hnext hleads⟩

end Slates.Chains
