import Slates.Merge.Folding

/-!
Recovery. Replaying the increments a run accepted on a fresh green accepts each at the version the
run gave it and rebuilds the green the run left (`chain_rebuilds`), histories from the folded floor
on.
-/

namespace Slates.Merge

namespace Green

/-- The increments a run answers as accepted, with their versions. -/
def chain (h : Blake3) : Green → List Command → List (Increment × Nat)
  | _, [] => []
  | g, .submit inc :: cs =>
    match (g.submit inc).2 with
    | .accepted version => (inc, version) :: chain h (g.step h (.submit inc)) cs
    | .conflict _ => chain h (g.step h (.submit inc)) cs
  | g, c :: cs => chain h (g.step h c) cs

def replay : Green → List Increment → Green × List Outcome
  | g, [] => (g, [])
  | g, inc :: incs =>
    let (last, outcomes) := replay (g.submit inc).1 incs
    (last, (g.submit inc).2 :: outcomes)

/-- No read from `g`'s folded floor on tells them apart, nothing does if `g` was never folded. -/
structure Rebuilds (g r : Green) : Prop where
  content : Versioned.AgreeFrom g.foldedBelow g.content r.content
  specials : Versioned.AgreeFrom g.foldedBelow g.specials r.specials
  dirs : Versioned.AgreeFrom g.foldedBelow g.dirs r.dirs
  modes : Versioned.AgreeFrom g.foldedBelow g.modes r.modes
  symlinks : Versioned.AgreeFrom g.foldedBelow g.symlinks r.symlinks
  hardlinks : Versioned.AgreeFrom g.foldedBelow g.hardlinks r.hardlinks
  xattrs : Versioned.AgreeFrom g.foldedBelow g.xattrs r.xattrs
  deltas : g.deltas = r.deltas
  accepted : g.accepted = r.accepted
  whole : g.foldedBelow = 0 → g.content = r.content ∧ g.specials = r.specials ∧ g.dirs = r.dirs ∧
    g.modes = r.modes ∧ g.symlinks = r.symlinks ∧ g.hardlinks = r.hardlinks ∧ g.xattrs = r.xattrs

theorem committed_foldedBelow (g : Green) (inc : Increment) :
    (g.committed inc).foldedBelow = g.foldedBelow := by
  obtain ⟨_, he⟩ := commit_eq (g.countHits inc (resolve inc))
    (g.acceptedEffects inc (resolve inc)) (g.head + 1)
  rw [committed, he]
  rfl

theorem committed_rejected (g : Green) (inc : Increment) :
    (g.committed inc).rejected = g.rejected := by
  obtain ⟨_, he⟩ := commit_eq (g.countHits inc (resolve inc))
    (g.acceptedEffects inc (resolve inc)) (g.head + 1)
  rw [committed, he]
  rfl

namespace Rebuilds

variable {g r : Green} {inc : Increment}

theorem refl (g : Green) : g.Rebuilds g :=
  ⟨.refl _ _, .refl _ _, .refl _ _, .refl _ _, .refl _ _, .refl _ _, .refl _ _, rfl, rfl,
    fun _ => ⟨rfl, rfl, rfl, rfl, rfl, rfl, rfl⟩⟩

theorem quiet (h : g.Rebuilds r) (hits : Nat) (cache : RejectedCache) :
    (g.quiet hits cache).Rebuilds r :=
  ⟨h.content, h.specials, h.dirs, h.modes, h.symlinks, h.hardlinks, h.xattrs, h.deltas, h.accepted,
    h.whole⟩

theorem foldIdentity (hr : g.Rebuilds r) (h : Blake3) : (g.foldIdentity h).Rebuilds r :=
  ⟨hr.content, hr.specials, hr.dirs, hr.modes, hr.symlinks, hr.hardlinks, hr.xattrs, hr.deltas,
    hr.accepted, hr.whole⟩

private theorem agree_folded {K V : Type} [Ord K] [Std.TransOrd K] [Std.LawfulEqOrd K]
    [DecidableEq K] {m m' : Versioned K V} {below floor : Nat}
    (h : Versioned.AgreeFrom below m m') (hle : below ≤ floor) :
    Versioned.AgreeFrom floor (m.foldBelow floor) m' :=
  (Versioned.agreeFrom_foldBelow m floor floor le_rfl).symm.trans (h.mono hle)

theorem folded (h : g.Rebuilds r) {floor : Nat} (hlt : g.foldedBelow < floor) :
    (g.folded floor).Rebuilds r :=
  ⟨agree_folded h.content hlt.le, agree_folded h.specials hlt.le, agree_folded h.dirs hlt.le,
    agree_folded h.modes hlt.le, agree_folded h.symlinks hlt.le, agree_folded h.hardlinks hlt.le,
    agree_folded h.xattrs hlt.le, h.deltas, h.accepted, fun hz => by
      have hfloor : floor = 0 := hz
      omega⟩

theorem foldHistoryBefore (hr : g.Rebuilds r) (h : Blake3) (floor : Nat) :
    (g.foldHistoryBefore h floor).1.Rebuilds r := by
  rw [foldHistoryBefore_fst]
  split
  · exact hr
  · rename_i hlt
    split
    · exact (hr.foldIdentity h).folded (show g.foldedBelow < floor by omega)
    · exact hr.folded (by omega)

theorem sameFrom (h : g.Rebuilds r) :
    SameFrom g.foldedBelow g { r with rejected := g.rejected, fastPathHits := g.fastPathHits } :=
  ⟨h.content, h.specials, h.dirs, h.modes, h.symlinks, h.hardlinks, h.xattrs, h.deltas, h.accepted,
    rfl, rfl⟩

theorem head (h : g.Rebuilds r) : g.head = r.head := by rw [Green.head, Green.head, h.deltas]

theorem decide (h : g.Rebuilds r) (hb : g.foldedBelow ≤ inc.base) :
    g.decide inc (resolve inc) = r.decide inc (resolve inc) :=
  h.sameFrom.decide hb (resolve inc)

theorem accepts (h : g.Rebuilds r) (hb : g.foldedBelow ≤ inc.base)
    (ha : g.Accepts inc (resolve inc)) :
    r.Accepts inc (resolve inc) ∧
      g.acceptedEffects inc (resolve inc) = r.acceptedEffects inc (resolve inc) := by
  have hd := (decide_eq_ok_iff g inc (resolve inc) _).mpr ⟨ha, rfl⟩
  rw [h.decide hb] at hd
  exact (decide_eq_ok_iff r inc (resolve inc) _).mp hd

theorem committed (h : g.Rebuilds r) (hb : g.foldedBelow ≤ inc.base)
    (ha : g.Accepts inc (resolve inc)) : (g.committed inc).Rebuilds (r.committed inc) := by
  have heffects := (h.accepts hb ha).2
  have hfloor := committed_foldedBelow g inc
  have hsame := h.sameFrom.commit (g.acceptedEffects inc (resolve inc)) (g.head + 1)
  refine ⟨?_, ?_, ?_, ?_, ?_, ?_, ?_, ?_, ?_, ?_⟩
  · rw [hfloor, committed_content, committed_content, ← heffects, ← h.head]
    simpa using hsame.content
  · rw [hfloor, committed_specials, committed_specials, ← heffects, ← h.head]
    simpa using hsame.specials
  · rw [hfloor, committed_dirs, committed_dirs, ← heffects, ← h.head]
    simpa using hsame.dirs
  · rw [hfloor, committed_modes, committed_modes, ← heffects, ← h.head]
    simpa using hsame.modes
  · rw [hfloor, committed_symlinks, committed_symlinks, ← heffects, ← h.head]
    simpa using hsame.symlinks
  · rw [hfloor, committed_hardlinks, committed_hardlinks, ← heffects, ← h.head]
    simpa using hsame.hardlinks
  · rw [hfloor, committed_xattrs, committed_xattrs, ← heffects, ← h.head]
    simpa using hsame.xattrs
  · rw [committed_deltas, committed_deltas, ← heffects, h.deltas]
  · show g.accepted.insert inc.id (g.head + 1) = r.accepted.insert inc.id (r.head + 1)
    rw [h.accepted, h.head]
  · intro hz
    rw [hfloor] at hz
    obtain ⟨h1, h2, h3, h4, h5, h6, h7⟩ := h.whole hz
    simp only [committed_content, committed_specials, committed_dirs, committed_modes,
      committed_symlinks, committed_hardlinks, committed_xattrs, ← heffects, ← h.head, h1, h2, h3,
      h4, h5, h6, h7, and_self]

end Rebuilds

/-- `r` is a replay that has kept up with `g`: it never rejected anything. -/
structure Recovers (g r : Green) : Prop where
  rebuilds : g.Rebuilds r
  unrejected : ∀ id : Digest, r.rejected.entries[id]? = none

theorem Recovers.submit_accepted {g r : Green} {inc : Increment} {version : Nat}
    (hr : g.Recovers r) (hb : g.foldedBelow ≤ inc.base)
    (hout : (g.submit inc).2 = .accepted version) :
    (r.submit inc).2 = .accepted version ∧ (g.submit inc).1.Recovers (r.submit inc).1 := by
  rcases submit_outcome g inc with ⟨v, hprior, hs⟩ | ⟨hc, hs⟩ | ⟨hits, cache, windows, hs⟩
  · -- an identity already in the chain is answered from the idempotency record
    rw [hs] at hout ⊢
    have hprior' : r.accepted[inc.id]? = some v := by rw [← hr.rebuilds.accepted, hprior]
    have hs' : r.submit inc = (r, .accepted v) := by simp [submit, hprior']
    rw [hs']
    exact ⟨hout, hr⟩
  · have hfresh : r.Fresh inc :=
      ⟨by rw [← hr.rebuilds.accepted, hc.fresh.accepted], hr.unrejected inc.id⟩
    have hcr : r.Commits inc := ⟨hfresh, (hr.rebuilds.accepts hb hc.accepts).1⟩
    rw [hs] at hout ⊢
    rw [submit_of_commits hcr, ← hr.rebuilds.head]
    refine ⟨hout, hr.rebuilds.committed hb hc.accepts, ?_⟩
    rw [committed_rejected]
    exact hr.unrejected
  · rw [hs] at hout
    cases hout

theorem Recovers.submit_conflict {g r : Green} {inc : Increment} {windows : List ConflictWindow}
    (hr : g.Recovers r) (hout : (g.submit inc).2 = .conflict windows) :
    (g.submit inc).1.Recovers r := by
  rcases submit_outcome g inc with ⟨v, -, hs⟩ | ⟨-, hs⟩ | ⟨hits, cache, _, hs⟩
  · rw [hs] at hout
    cases hout
  · rw [hs] at hout
    cases hout
  · rw [hs]
    exact ⟨hr.rebuilds.quiet hits cache, hr.unrejected⟩

theorem Recovers.step {g r : Green} (hr : g.Recovers r) (h : Blake3) {c : Command}
    (hc : ∀ inc, c ≠ .submit inc) : (g.step h c).Recovers r := by
  refine step_invariant (P := fun live => live.Recovers r) ?_ ?_ ?_ hr
    fun inc heq => absurd heq (hc inc)
  · exact fun _ hits cache hp => ⟨hp.rebuilds.quiet hits cache, hp.unrejected⟩
  · exact fun _ hp => ⟨hp.rebuilds.foldIdentity h, hp.unrejected⟩
  · exact fun _ floor hp => ⟨hp.rebuilds.foldHistoryBefore h floor, hp.unrejected⟩

theorem Recovers.run {h : Blake3} {g r : Green} {commands : List Command} (hr : g.Recovers r)
    (hmeets : RunMeets (fun g inc => g.foldedBelow ≤ inc.base) h g commands) :
    (r.replay ((g.chain h commands).map Prod.fst)).2 =
        (g.chain h commands).map (fun entry => .accepted entry.2) ∧
      (g.run h commands).Recovers (r.replay ((g.chain h commands).map Prod.fst)).1 := by
  induction commands generalizing g r with
  | nil => exact ⟨rfl, hr⟩
  | cons c cs ih =>
    obtain ⟨hbase, hrest⟩ := hmeets
    have hstill : (∀ inc, c ≠ .submit inc) → g.chain h (c :: cs) = (g.step h c).chain h cs := by
      intro hne
      cases c with
      | submit inc => exact absurd rfl (hne inc)
      | _ => rfl
    cases c with
    | submit inc =>
      rw [run_cons]
      cases hout : (g.submit inc).2 with
      | accepted version =>
        obtain ⟨hsame, hnext⟩ := hr.submit_accepted (hbase inc rfl) hout
        obtain ⟨houts, hlast⟩ := ih hnext hrest
        simp only [chain, hout, List.map_cons, replay, hsame, List.cons.injEq, true_and]
        exact ⟨houts, hlast⟩
      | conflict windows =>
        simp only [chain, hout]
        exact ih (hr.submit_conflict hout) hrest
    | _ =>
      rw [hstill nofun, run_cons]
      exact ih (hr.step h nofun) hrest

theorem Recovers.opened (h : Blake3) (origin : Option Origin) :
    (opened h origin).Recovers (opened h origin) := by
  refine ⟨.refl _, fun id => ?_⟩
  cases origin <;> rfl

/-- **Recovery from the durable chain.** Replaying what a run accepted on a fresh green accepts each
increment again, at the same version, and rebuilds the live green. -/
theorem chain_rebuilds (h : Blake3) (origin : Option Origin) (commands : List Command)
    (hmeets : RunMeets (fun g inc => g.foldedBelow ≤ inc.base) h (opened h origin) commands) :
    ((opened h origin).replay (((opened h origin).chain h commands).map Prod.fst)).2 =
        ((opened h origin).chain h commands).map (fun entry => .accepted entry.2) ∧
      ((opened h origin).run h commands).Rebuilds
        ((opened h origin).replay (((opened h origin).chain h commands).map Prod.fst)).1 := by
  obtain ⟨houts, hlast⟩ := (Recovers.opened h origin).run hmeets
  exact ⟨houts, hlast.rebuilds⟩

/-- An increment at base 0 that creates a file of one byte. -/
def createFile (id : Digest) (path : Path) (byte : UInt8) : Increment :=
  ⟨id, 0, ⟨⟨[path]⟩, [⟨.create, 0, 0, 0, 0, u64Max⟩, ⟨.extend, 0, 0, 0, 1, 0⟩]⟩, [byte], []⟩

/-- Two creations of `a` that disagree, and one of `b`: the second is turned away. -/
def disputedA : List Command :=
  [.submit (createFile 1 "a" 1), .submit (createFile 2 "a" 2), .submit (createFile 3 "b" 3)]

theorem chain_rebuilds_disputedA :
    (opened .zero none).chain .zero disputedA =
        [(createFile 1 "a" 1, 1), (createFile 3 "b" 3, 2)] ∧
      ((opened .zero none).replay (((opened .zero none).chain .zero disputedA).map Prod.fst)).2 =
          ((opened .zero none).chain .zero disputedA).map (fun entry => .accepted entry.2) ∧
        ((opened .zero none).run .zero disputedA).Rebuilds
          ((opened .zero none).replay
            (((opened .zero none).chain .zero disputedA).map Prod.fst)).1 := by
  refine ⟨by rfl, chain_rebuilds .zero none disputedA ?_⟩
  refine ⟨?_, ?_, ?_, trivial⟩
  all_goals
    rintro inc ⟨⟩
    decide

end Green

end Slates.Merge
