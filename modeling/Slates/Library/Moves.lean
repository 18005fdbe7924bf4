import Slates.Library.Completeness

/-!
Moves of one node. They leave the other nodes, and the logs of the terms the others lead, as they
were.
-/

namespace Slates.Consensus

variable {N E C : Type} [DecidableEq N] {K : Scheme N E C}

namespace State

def initial : State N E where
  term := fun _ => 0
  vote := fun _ => none
  log := fun _ => []
  lead := fun _ => none
  stood := fun _ _ _ => False
  ballot := fun _ _ _ _ => False
  acked := fun _ _ _ => False
  chosen := fun _ _ _ => False

omit [DecidableEq N] in
theorem Sound.initial : Sound K (initial : State N E) where
  voting := ⟨False.elim, False.elim, False.elim, False.elim, False.elim, False.elim, False.elim⟩
  rooted := by
    refine ⟨fun he => absurd he (by simp [State.initial]), fun v i e he => ?_, False.elim,
      False.elim, False.elim, ?_, ?_, ?_, ?_⟩
    · simp [State.initial] at he
    all_goals
      intros
      simp_all [State.initial]
  choices := fun _ _ _ h => h.elim
  reigns := by
    refine ⟨?_, ?_, ?_⟩ <;>
    · intros
      simp_all [State.initial]
  acks := ⟨False.elim, False.elim, False.elim, False.elim, False.elim⟩

omit [DecidableEq N] in
theorem Grows.refl (s : State N E) : Grows s s :=
  ⟨fun hr => ⟨_, hr, rfl, rfl, rfl, List.prefix_rfl⟩, id, id, id, id⟩

omit [DecidableEq N] in
theorem Grows.trans {s s' s'' : State N E} (h : Grows s s') (h' : Grows s' s'') : Grows s s'' where
  lead hr := by
    obtain ⟨r', hr', hnode, hstart, hvoters, hlog⟩ := h.lead hr
    obtain ⟨r'', hr'', hnode', hstart', hvoters', hlog'⟩ := h'.lead hr'
    exact ⟨r'', hr'', hnode'.trans hnode, hstart'.trans hstart, hvoters'.trans hvoters,
      hlog.trans hlog'⟩
  ballot hb := h'.ballot (h.ballot hb)
  acked ha := h'.acked (h.acked ha)
  chosen hc := h'.chosen (h.chosen hc)
  stood hs := h'.stood (h.stood hs)

theorem term_le_of_steps {s s' : State N E} (h : Relation.ReflTransGen (Step K) s s') (w : N) :
    s.term w ≤ s'.term w := by
  induction h with
  | refl => exact le_rfl
  | tail _ hstep ih => exact ih.trans (hstep.term_le w)

/-- A run of moves of the node `v`. -/
structure Moves (K : Scheme N E C) (v : N) (s s' : State N E) : Prop where
  steps : Relation.ReflTransGen (Step K) s s'
  term : ∀ w ≠ v, s'.term w = s.term w
  vote : ∀ w ≠ v, s'.vote w = s.vote w
  log : ∀ w ≠ v, s'.log w = s.log w
  own : ∀ {t r}, s.lead t = some r → r.node ≠ v → s'.lead t = some r
  fresh : ∀ {t r}, s'.lead t = some r → (∃ q, s.lead t = some q ∧ q.node = r.node) ∨ r.node = v
  ballots : ∀ {w u c entries}, s'.ballot w u c entries → w ≠ v → s.ballot w u c entries
  stands : ∀ {u c entries}, s'.stood u c entries →
    s.stood u c entries ∨ c = v ∧ s.term v < u

namespace Moves

variable {s s' s'' : State N E} {v : N}

theorem refl (v : N) (s : State N E) : Moves K v s s where
  steps := .refl
  term _ _ := rfl
  vote _ _ := rfl
  log _ _ := rfl
  own hr _ := hr
  fresh hr := .inl ⟨_, hr, rfl⟩
  ballots hb _ := hb
  stands := .inl

theorem trans (h : Moves K v s s') (h' : Moves K v s' s'') : Moves K v s s'' where
  steps := h.steps.trans h'.steps
  term w hw := (h'.term w hw).trans (h.term w hw)
  vote w hw := (h'.vote w hw).trans (h.vote w hw)
  log w hw := (h'.log w hw).trans (h.log w hw)
  own hr hne := h'.own (h.own hr hne) hne
  fresh hr := by
    rcases h'.fresh hr with ⟨q, hq, hnode⟩ | hv
    · rcases h.fresh hq with ⟨p, hp, hpq⟩ | hv
      · exact .inl ⟨p, hp, hpq.trans hnode⟩
      · exact .inr (hnode ▸ hv)
    · exact .inr hv
  ballots hb hw := h.ballots (h'.ballots hb hw) hw
  stands hs := by
    rcases h'.stands hs with hs | ⟨hc, hlt⟩
    · exact h.stands hs
    · exact .inr ⟨hc, (term_le_of_steps h.steps v).trans_lt hlt⟩

theorem grows (h : Moves K v s s') : Grows s s' := by
  have hsteps := h.steps
  clear h
  induction hsteps with
  | refl => exact .refl s
  | tail _ hstep ih => exact ih.trans hstep.grows

theorem sound (h : Moves K v s s') (hs : Sound K s) : Sound K s' := by
  have hsteps := h.steps
  clear h
  induction hsteps with
  | refl => exact hs
  | tail _ hstep ih => exact ih.step hstep

theorem stood {u : ℕ} {c : N} {entries : List E} (h : Moves K v s s')
    (hs : s.stood u c entries) : s'.stood u c entries :=
  h.grows.stood hs

/-- A win the node came to by its own moves, in a term it had before them, was one before them. -/
theorem won_before {u : ℕ} {entries : List E} {Q : Set N} (h : Moves K v s s')
    (hw : Won K s' u v entries Q) (hs : Sound K s) (hu : u ≤ s.term v) : Won K s u v entries Q := by
  have hstood : s.stood u v entries := by
    rcases h.stands hw.stood with hstood | ⟨-, hlt⟩
    · exact hstood
    · omega
  refine ⟨hstood, hw.decides, fun w hmem => ?_⟩
  by_cases hself : w = v
  · subst hself
    exact hs.voting.stood_ballot hstood
  · obtain ⟨ys, hb⟩ := hw.ballots w hmem
    exact ⟨ys, h.ballots hb hself⟩

theorem single (hstep : Step K s s') (hterm : ∀ w ≠ v, s'.term w = s.term w)
    (hvote : ∀ w ≠ v, s'.vote w = s.vote w) (hlog : ∀ w ≠ v, s'.log w = s.log w)
    (hlead : s'.lead = s.lead)
    (hballots : ∀ {w u c entries}, s'.ballot w u c entries → w ≠ v → s.ballot w u c entries)
    (hstood : s'.stood = s.stood) : Moves K v s s' where
  steps := .single hstep
  term := hterm
  vote := hvote
  log := hlog
  own hr _ := hlead ▸ hr
  fresh hr := .inl ⟨_, hlead ▸ hr, rfl⟩
  ballots := hballots
  stands hs := .inl (hstood ▸ hs)

variable {t n : ℕ} {r : Reign N E}

theorem raise (ht : s.term v < t) :
    Moves K v s { s with
      term := Function.update s.term v t, vote := Function.update s.vote v none } :=
  single (.raise v t ht) (fun _ hw => Function.update_of_ne hw _ _)
    (fun _ hw => Function.update_of_ne hw _ _) (fun _ _ => rfl) rfl (fun hb _ => hb) rfl

theorem stand (v : N) : Moves K v s (s.standing v) where
  steps := .single (.stand v)
  term _ hw := Function.update_of_ne hw _ _
  vote _ hw := Function.update_of_ne hw _ _
  log _ _ := rfl
  own hr _ := hr
  fresh hr := .inl ⟨_, hr, rfl⟩
  ballots := by
    rintro w u c entries (hb | ⟨rfl, -⟩) hw
    · exact hb
    · exact absurd rfl hw
  stands := by
    rintro u c entries (hs | ⟨rfl, rfl, -⟩)
    · exact .inl hs
    · exact .inr ⟨rfl, Nat.lt_succ_self _⟩

theorem grant {c : N} {entries : List E} (hstood : s.stood (s.term v) c entries)
    (hfree : s.vote v = none ∨ s.vote v = some c) (hlog : K.UpToDate entries (s.log v)) :
    Moves K v s { s with
      vote := Function.update s.vote v (some c)
      ballot := fun w u d entries =>
        s.ballot w u d entries ∨ w = v ∧ u = s.term v ∧ d = c ∧ entries = s.log v } :=
  single (.grant v c entries hstood hfree hlog) (fun _ _ => rfl)
    (fun _ hw => Function.update_of_ne hw _ _) (fun _ _ => rfl) rfl
    (fun hb hw => hb.resolve_right fun hnew => hw hnew.1) rfl

theorem pledge {c : N} (hfree : s.vote v = none ∨ s.vote v = some c) :
    Moves K v s { s with vote := Function.update s.vote v (some c) } :=
  single (.pledge v c hfree) (fun _ _ => rfl) (fun _ hw => Function.update_of_ne hw _ _)
    (fun _ _ => rfl) rfl (fun hb _ => hb) rfl

theorem adopt {X log : List E} (hlead : s.lead t = some r) (hX : X <+: r.log) (hterm : s.term v ≤ t)
    (hlog : X <+: s.log v ∧ log = s.log v ∨ ¬ X <+: s.log v ∧ log = X) :
    Moves K v s { s with
      term := Function.update s.term v t
      vote := if s.term v = t then s.vote else Function.update s.vote v none
      log := Function.update s.log v log } := by
  refine single (.adopt v t r X hlead hX hterm log hlog)
    (fun _ hw => Function.update_of_ne hw _ _) (fun w hw => ?_)
    (fun _ hw => Function.update_of_ne hw _ _) rfl (fun hb _ => hb) rfl
  dsimp only
  split_ifs
  · rfl
  · exact Function.update_of_ne hw _ _

theorem ack (hlead : s.lead (s.term v) = some r) (hn : n ≤ r.log.length)
    (hheld : r.log.take n <+: s.log v) :
    Moves K v s { s with acked := fun w t m => s.acked w t m ∨ w = v ∧ t = s.term v ∧ m = n } :=
  single (.ack v r n hlead hn hheld) (fun _ _ => rfl) (fun _ _ => rfl) (fun _ _ => rfl) rfl
    (fun hb _ => hb) rfl

theorem choose {e : E} {Q : Set N} (hlead : s.lead t = some r) (hn : r.log[n]? = some e)
    (he : K.term e = t) (hQ : K.decides (K.cfg r.log) Q)
    (hacked : ∀ w ∈ Q, ∃ m, n < m ∧ s.acked w t m) :
    Moves K v s { s with
      chosen := fun u m len => s.chosen u m len ∨ u = t ∧ m = n + 1 ∧ len = r.log.length } :=
  single (.choose t r n e Q hlead hn he hQ hacked) (fun _ _ => rfl) (fun _ _ => rfl)
    (fun _ _ => rfl) rfl (fun hb _ => hb) rfl

theorem elect {Q : Set N} (hstood : s.stood (s.term v) v (s.log v))
    (hfree : s.lead (s.term v) = none) (hQ : K.decides (K.cfg (s.log v)) Q)
    (hballots : ∀ w ∈ Q, ∃ entries, s.ballot w (s.term v) v entries) :
    Moves K v s { s with
      lead := Function.update s.lead (s.term v) (some ⟨v, s.log v, s.log v, Q⟩) } where
  steps := .single (.elect v Q hstood hfree hQ hballots)
  term _ _ := rfl
  vote _ _ := rfl
  log _ _ := rfl
  own := by
    intro t r hr _
    have hne : t ≠ s.term v := by
      rintro rfl
      rw [hfree] at hr
      exact absurd hr (by simp)
    exact (Function.update_of_ne hne _ _).trans hr
  fresh := by
    intro t r hr
    rcases lead_update hr with ⟨-, hr⟩ | ⟨-, rfl⟩
    · exact .inl ⟨r, hr, rfl⟩
    · exact .inr rfl
  ballots hb _ := hb
  stands := .inl

theorem extend {e : E} (hlead : s.lead t = some r) (hnode : r.node = v) (hterm : s.term v = t)
    (hlog : s.log v = r.log) (he : K.term e = t)
    (hconfig : ∀ c, K.config e = some c → K.next (K.cfg r.log) c ∧ s.Settled K t r.log) :
    Moves K v s { s with
      log := Function.update s.log v (r.log ++ [e])
      lead := Function.update s.lead t (some { r with log := r.log ++ [e] }) } where
  steps := by
    subst hnode
    exact .single (.extend t r e hlead hterm hlog he hconfig)
  term _ _ := rfl
  vote _ _ := rfl
  log _ hw := Function.update_of_ne hw _ _
  own := by
    intro u q hq hne
    have hu : u ≠ t := by
      rintro rfl
      exact hne (Option.some.inj (hq.symm.trans hlead) ▸ hnode)
    exact (Function.update_of_ne hu _ _).trans hq
  fresh := by
    intro u q hq
    rcases lead_update hq with ⟨-, hq⟩ | ⟨-, rfl⟩
    · exact .inl ⟨q, hq, rfl⟩
    · exact .inr hnode
  ballots hb _ := hb
  stands := .inl

end Moves

end State

end Slates.Consensus
