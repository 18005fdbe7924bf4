import Slates.Merge.Writes

/-!
Runs of a green: accepted submits (`committed`), folds, and the running identity brought to the
head; the rest only moves counters and the rejected-result cache.
-/

namespace Slates.Merge

namespace Green

def committed (g : Green) (inc : Increment) : Green :=
  { (g.countHits inc (resolve inc)).commit (g.acceptedEffects inc (resolve inc)) (g.head + 1) with
    accepted := g.accepted.insert inc.id (g.head + 1) }

section Committed

variable (g : Green) (inc : Increment)

@[simp] theorem committed_content : (g.committed inc).content =
    g.content.writeAll (g.head + 1) (contentWrites (g.acceptedEffects inc (resolve inc))) := by
  simp only [committed, commit_content, countHits]

@[simp] theorem committed_specials : (g.committed inc).specials = g.specials.writeAll (g.head + 1)
    ((g.acceptedEffects inc (resolve inc)).filterMap Effect.specialWrite) := by
  simp only [committed, commit_specials, countHits]

@[simp] theorem committed_dirs : (g.committed inc).dirs = g.dirs.writeAll (g.head + 1)
    ((g.acceptedEffects inc (resolve inc)).filterMap Effect.dirWrite) := by
  simp only [committed, commit_dirs, countHits]

@[simp] theorem committed_symlinks : (g.committed inc).symlinks = g.symlinks.writeAll (g.head + 1)
    ((g.acceptedEffects inc (resolve inc)).filterMap Effect.symlinkWrite) := by
  simp only [committed, commit_symlinks, countHits]

@[simp] theorem committed_hardlinks : (g.committed inc).hardlinks =
    g.hardlinks.writeAll (g.head + 1)
      ((g.acceptedEffects inc (resolve inc)).filterMap Effect.hardlinkWrite) := by
  simp only [committed, commit_hardlinks, countHits]

@[simp] theorem committed_modes : (g.committed inc).modes =
    (g.acceptedEffects inc (resolve inc)).foldl (Effect.onModes (g.head + 1)) g.modes := by
  simp only [committed, commit_modes, countHits]

@[simp] theorem committed_xattrs : (g.committed inc).xattrs =
    (g.acceptedEffects inc (resolve inc)).foldl (Effect.onXattrs (g.head + 1)) g.xattrs := by
  simp only [committed, commit_xattrs, countHits]

@[simp] theorem committed_deltas : (g.committed inc).deltas =
    g.deltas ++ [deltaOf (g.acceptedEffects inc (resolve inc))] := by
  simp only [committed, commit_deltas, countHits]

@[simp] theorem committed_head : (g.committed inc).head = g.head + 1 := by
  simp [head]

end Committed

def opened (h : Blake3) : Option Origin → Green
  | none => new
  | some origin => withOrigin h origin

structure Commits (g : Green) (inc : Increment) : Prop where
  fresh : g.Fresh inc
  accepts : g.Accepts inc (resolve inc)

/-- Counters and the rejected-result cache are not part of the merge state. -/
def quiet (g : Green) (hits : Nat) (cache : RejectedCache) : Green :=
  { g with fastPathHits := hits, rejected := cache }

variable {g : Green}

theorem submit_of_commits {inc : Increment} (h : g.Commits inc) :
    g.submit inc = (g.committed inc, .accepted (g.head + 1)) :=
  submit_of_accepts h.fresh h.accepts

theorem submit_outcome (g : Green) (inc : Increment) :
    (∃ version, g.accepted[inc.id]? = some version ∧ g.submit inc = (g, .accepted version)) ∨
      (g.Commits inc ∧ g.submit inc = (g.committed inc, .accepted (g.head + 1))) ∨
      ∃ hits cache windows, g.submit inc = (g.quiet hits cache, .conflict windows) := by
  cases hacc : g.accepted[inc.id]? with
  | some version => exact .inl ⟨version, rfl, by simp [submit, hacc]⟩
  | none =>
    cases hrej : g.rejected.entries[inc.id]? with
    | some windows =>
      exact .inr (.inr ⟨g.fastPathHits, g.rejected, windows, by simp [submit, hacc, hrej, quiet]⟩)
    | none =>
      have hf : g.Fresh inc := ⟨hacc, hrej⟩
      by_cases ha : g.Accepts inc (resolve inc)
      · exact .inr (.inl ⟨⟨hf, ha⟩, submit_of_commits ⟨hf, ha⟩⟩)
      · obtain ⟨windows, hs⟩ := submit_of_not_accepts hf ha
        exact .inr (.inr ⟨_, _, windows, hs⟩)

theorem submit_cases (g : Green) (inc : Increment) :
    (g.Commits inc ∧ (g.submit inc).1 = g.committed inc) ∨
      (¬ g.Commits inc ∧ ∃ hits cache, (g.submit inc).1 = g.quiet hits cache) := by
  by_cases hc : g.Commits inc
  · exact .inl ⟨hc, by rw [submit_of_commits hc]⟩
  refine .inr ⟨hc, ?_⟩
  rcases submit_outcome g inc with ⟨version, -, hs⟩ | ⟨hcommits, -⟩ | ⟨hits, cache, windows, hs⟩
  · exact ⟨g.fastPathHits, g.rejected, by rw [hs]; rfl⟩
  · exact absurd hcommits hc
  · exact ⟨hits, cache, by rw [hs]⟩

theorem rebase_fst (g : Green) (inc : Increment) : (g.rebase inc).1 = g := by
  unfold rebase
  dsimp only
  split <;> rfl

theorem foldHistoryBefore_fst (h : Blake3) (g : Green) (floor : Nat) :
    (g.foldHistoryBefore h floor).1 =
      if floor ≤ g.foldedBelow then g
      else if g.identityVersion < floor then (g.foldIdentity h).folded floor
      else g.folded floor := by
  unfold foldHistoryBefore
  split
  · rfl
  · dsimp only
    split <;> rfl

/-- A condition on every submit of a run, in the state it meets. -/
def RunMeets (C : Green → Increment → Prop) (h : Blake3) : Green → List Command → Prop
  | _, [] => True
  | g, c :: cs => (∀ inc, c = .submit inc → C g inc) ∧ RunMeets C h (g.step h c) cs

section Invariant

variable {P : Green → Prop} {h : Blake3}
  (hquiet : ∀ g hits cache, P g → P (g.quiet hits cache))
  (hidentity : ∀ g, P g → P (g.foldIdentity h))
  (hfold : ∀ g floor, P g → P (g.foldHistoryBefore h floor).1)

include hfold in
theorem foldSteps_invariant (budget : Nat) {steps : Nat} (hp : P g) :
    P (foldSteps h budget steps g).1 := by
  induction steps generalizing g with
  | zero => exact hp
  | succ steps ih =>
    rw [foldSteps]
    split
    · exact ih (hfold g (g.foldedBelow + 1) hp)
    · exact hp

include hquiet hidentity hfold in
theorem step_invariant {c : Command} (hp : P g)
    (hcommit : ∀ inc, c = .submit inc → g.Commits inc → P (g.committed inc)) :
    P (g.step h c) := by
  cases c with
  | submit inc =>
    rcases submit_cases g inc with ⟨hc, hs⟩ | ⟨-, hits, cache, hs⟩
    · rw [step, hs]
      exact hcommit inc rfl hc
    · rw [step, hs]
      exact hquiet g hits cache hp
  | rebase inc =>
    rw [step, rebase_fst]
    exact hp
  | headIdentity => exact hidentity g hp
  | foldHistoryBefore floor => exact hfold g floor hp
  | foldHistoryToBudget floor budget => exact foldSteps_invariant hfold budget hp
  | setRejectedBudget bytes => exact hquiet g g.fastPathHits _ hp
  | forgetRejected id => exact hquiet g g.fastPathHits _ hp

include hquiet hidentity hfold in
/-- **The induction over runs.** -/
theorem run_invariant {C : Green → Increment → Prop}
    (hcommit : ∀ g inc, P g → C g inc → g.Commits inc → P (g.committed inc))
    {commands : List Command} (hp : P g) (hmeets : RunMeets C h g commands) :
    P (g.run h commands) := by
  induction commands generalizing g with
  | nil => exact hp
  | cons c cs ih =>
    obtain ⟨hc, hrest⟩ := hmeets
    refine ih ?_ hrest
    exact step_invariant hquiet hidentity hfold hp
      fun inc heq hcommits => hcommit g inc hp (hc inc heq) hcommits

end Invariant

theorem foldHistoryBefore_invariant {P : Green → Prop} {h : Blake3}
    (hidentity : ∀ g, P g → P (g.foldIdentity h)) (hfolded : ∀ g floor, P g → P (g.folded floor))
    (g : Green) (floor : Nat) (hp : P g) : P (g.foldHistoryBefore h floor).1 := by
  rw [foldHistoryBefore_fst]
  split
  · exact hp
  · split
    · exact hfolded _ floor (hidentity g hp)
    · exact hfolded g floor hp

theorem run_cons (h : Blake3) (g : Green) (c : Command) (cs : List Command) :
    g.run h (c :: cs) = (g.step h c).run h cs := rfl

theorem run_append (h : Blake3) (g : Green) (older newer : List Command) :
    g.run h (older ++ newer) = (g.run h older).run h newer := by
  simp only [run, List.foldl_append]

variable {C : Green → Increment → Prop} {commands : List Command}

theorem RunMeets.imp {C' : Green → Increment → Prop} {h : Blake3}
    (hmeets : RunMeets C h g commands) (himp : ∀ g inc, C g inc → C' g inc) :
    RunMeets C' h g commands := by
  induction commands generalizing g with
  | nil => trivial
  | cons c cs ih => exact ⟨fun inc heq => himp g inc (hmeets.1 inc heq), ih hmeets.2⟩

theorem RunMeets.of_append {h : Blake3} {older newer : List Command}
    (hmeets : RunMeets C h g (older ++ newer)) :
    RunMeets C h g older ∧ RunMeets C h (g.run h older) newer := by
  induction older generalizing g with
  | nil => exact ⟨trivial, hmeets⟩
  | cons c cs ih =>
    obtain ⟨holder, hnewer⟩ := ih hmeets.2
    exact ⟨⟨hmeets.1, holder⟩, hnewer⟩

theorem RunMeets.take {h : Blake3} {g : Green} (hmeets : RunMeets C h g commands) (n : Nat) :
    RunMeets C h g (commands.take n) := by
  rw [← List.take_append_drop n commands] at hmeets
  exact hmeets.of_append.1

theorem runMeets_true (h : Blake3) (g : Green) (commands : List Command) :
    RunMeets (fun _ _ => True) h g commands := by
  induction commands generalizing g with
  | nil => trivial
  | cons c cs ih => exact ⟨fun _ _ => trivial, ih _⟩

/-! ## Ghost values -/

section Ghost

variable {T : Type} (onCommit : Green → Increment → T → T) (h : Blake3)

/-- A value carried along a run that moves when an increment commits. -/
def ghostStep (g : Green) (t : T) : Command → T
  | .submit inc => if (g.submit inc).1.head = g.head then t else onCommit g inc t
  | _ => t

def ghostRun : Green → T → List Command → T
  | _, t, [] => t
  | g, t, c :: cs => ghostRun (g.step h c) (ghostStep onCommit g t c) cs

theorem ghostRun_append (g : Green) (t : T) (older newer : List Command) :
    ghostRun onCommit h g t (older ++ newer) =
      ghostRun onCommit h (g.run h older) (ghostRun onCommit h g t older) newer := by
  induction older generalizing g t with
  | nil => rfl
  | cons c cs ih => exact ih _ _

theorem ghostStep_of_commits {inc : Increment} (hc : g.Commits inc) (t : T) :
    ghostStep onCommit g t (.submit inc) = onCommit g inc t := by
  have hhead : (g.submit inc).1.head = g.head + 1 := by
    rw [submit_of_commits hc, committed_head]
  rw [ghostStep, if_neg (by omega)]

theorem ghostStep_of_not_commits {inc : Increment} (hc : ¬ g.Commits inc) (t : T) :
    ghostStep onCommit g t (.submit inc) = t := by
  rcases submit_cases g inc with ⟨hcommits, -⟩ | ⟨-, hits, cache, hs⟩
  · exact absurd hcommits hc
  · rw [ghostStep, hs]
    exact if_pos rfl

/-- The induction over runs, with a ghost. -/
theorem ghost_invariant {P : Green → T → Prop} {C : Green → Increment → Prop}
    (hquiet : ∀ g t hits cache, P g t → P (g.quiet hits cache) t)
    (hidentity : ∀ g t, P g t → P (g.foldIdentity h) t)
    (hfold : ∀ g t floor, P g t → P (g.foldHistoryBefore h floor).1 t)
    (hcommit : ∀ g t inc, P g t → C g inc → g.Commits inc →
      P (g.committed inc) (onCommit g inc t)) {t : T} {commands : List Command} (hp : P g t)
    (hmeets : RunMeets C h g commands) :
    P (g.run h commands) (ghostRun onCommit h g t commands) := by
  induction commands generalizing g t with
  | nil => exact hp
  | cons c cs ih =>
    obtain ⟨hc, hrest⟩ := hmeets
    refine ih ?_ hrest
    -- only a submit can move the ghost
    have hstill : (∀ inc, c ≠ .submit inc) → P (g.step h c) (ghostStep onCommit g t c) := by
      intro hne
      have hghost : ghostStep onCommit g t c = t := by
        cases c with
        | submit inc => exact absurd rfl (hne inc)
        | _ => rfl
      rw [hghost]
      exact step_invariant (fun g' => hquiet g' t) (fun g' => hidentity g' t)
        (fun g' => hfold g' t) hp fun inc heq => absurd heq (hne inc)
    cases c with
    | submit inc =>
      rcases submit_cases g inc with ⟨hcommits, hs⟩ | ⟨hnot, hits, cache, hs⟩
      · rw [step, hs, ghostStep_of_commits onCommit hcommits]
        exact hcommit g t inc hp (hc inc rfl) hcommits
      · rw [step, hs, ghostStep_of_not_commits onCommit hnot]
        exact hquiet g t hits cache hp
    | _ => exact hstill nofun

end Ghost

end Green

end Slates.Merge
