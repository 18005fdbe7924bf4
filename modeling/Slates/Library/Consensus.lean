import Mathlib

/-!
Logs replicated term by term: a leader is voted into a term, the others take up parts of its log,
and what a deciding set has taken up is chosen. A log's last configuration says which sets decide.
-/

namespace Slates.Consensus

/-- Two deciding sets meet when their configurations are the same, when one follows the other, and
when both follow a third. -/
structure Scheme (N E C : Type) where
  term : E → ℕ
  config : E → Option C
  base : C
  decides : C → Set N → Prop
  next : C → C → Prop
  meet_same : ∀ {c Q R}, decides c Q → decides c R → (Q ∩ R).Nonempty
  meet_next : ∀ {c d Q R}, next c d → decides c Q → decides d R → (Q ∩ R).Nonempty
  meet_fork : ∀ {c d f Q R}, next c d → next c f → decides d Q → decides f R → (Q ∩ R).Nonempty

/-- The log and the voters a leader was elected with, and the log it has come to. -/
structure Reign (N E : Type) where
  node : N
  start : List E
  log : List E
  voters : Set N

/-- The nodes, and what has happened: who led each term, who stood with which log, the votes cast,
what was acknowledged to the leader of a term, and what was chosen in a term (a size, and how long
the leader's log was). -/
structure State (N E : Type) where
  term : N → ℕ
  vote : N → Option N
  log : N → List E
  lead : ℕ → Option (Reign N E)
  stood : ℕ → N → List E → Prop
  ballot : N → ℕ → N → List E → Prop
  acked : N → ℕ → ℕ → Prop
  chosen : ℕ → ℕ → ℕ → Prop

variable {N E C : Type} (K : Scheme N E C)

section Prefixes

variable {α : Type} {xs ys : List α}

theorem getElem?_of_isPrefix (h : xs <+: ys) {i : ℕ} {x : α} (hx : xs[i]? = some x) :
    ys[i]? = some x := by
  obtain ⟨hi, rfl⟩ := List.getElem?_eq_some_iff.mp hx
  exact List.prefix_iff_getElem?.mp h i hi

theorem take_eq_of_isPrefix (h : xs <+: ys) {n : ℕ} (hn : n ≤ xs.length) :
    ys.take n = xs.take n := by
  obtain ⟨zs, rfl⟩ := h
  exact List.take_append_of_le_length hn

end Prefixes

namespace Scheme

/-- The configuration a log carries last. -/
def cfg (entries : List E) : C := entries.foldl (fun c e => (K.config e).getD c) K.base

def lastTerm (entries : List E) : ℕ := (entries.getLast?.map K.term).getD 0

/-- A log a voter may vote for: it ends later, or as late and at least as long. -/
def UpToDate (candidate voter : List E) : Prop :=
  K.lastTerm voter < K.lastTerm candidate ∨
    K.lastTerm candidate = K.lastTerm voter ∧ voter.length ≤ candidate.length

/-- No configuration is carried here. -/
def Plain (entries : List E) : Prop := ∀ e ∈ entries, K.config e = none

variable {K}

theorem cfg_append_plain {xs ys : List E} (h : K.Plain ys) : K.cfg (xs ++ ys) = K.cfg xs := by
  induction ys using List.reverseRecOn with
  | nil => rw [List.append_nil]
  | append_singleton ys e ih =>
    rw [← List.append_assoc, cfg, List.foldl_append, List.foldl_cons, List.foldl_nil,
      h e (by simp), Option.getD_none]
    exact ih fun x hx => h x (List.mem_append_left _ hx)

theorem cfg_append_config {xs ys : List E} {e : E} {c : C} (he : K.config e = some c)
    (h : K.Plain ys) : K.cfg (xs ++ e :: ys) = c := by
  have hone : xs ++ e :: ys = (xs ++ [e]) ++ ys := by simp
  rw [hone, cfg_append_plain h, cfg, List.foldl_append, List.foldl_cons, List.foldl_nil, he,
    Option.getD_some]

theorem plain_or_last (entries : List E) :
    K.Plain entries ∨ ∃ xs e ys c, entries = xs ++ e :: ys ∧ K.config e = some c ∧ K.Plain ys := by
  induction entries with
  | nil => exact .inl fun e he => absurd he (by simp)
  | cons x entries ih =>
    rcases ih with hplain | ⟨xs, e, ys, c, rfl, he, hys⟩
    · cases hx : K.config x with
      | none =>
        refine .inl fun e he => ?_
        rcases List.mem_cons.mp he with rfl | he
        · exact hx
        · exact hplain e he
      | some c => exact .inr ⟨[], x, entries, c, rfl, hx, hplain⟩
    · exact .inr ⟨x :: xs, e, ys, c, rfl, he, hys⟩

end Scheme

namespace State

/-- What was chosen in a term at most `t`, and all that stands before it. -/
def Fixed (s : State N E) (t : ℕ) (entries : List E) : Prop :=
  entries = [] ∨ ∃ u n len r, u ≤ t ∧ s.chosen u n len ∧ s.lead u = some r ∧
    entries <+: r.log.take n

/-- The last configuration of a log was chosen. -/
def Settled (s : State N E) (t : ℕ) (entries : List E) : Prop :=
  ∃ P, s.Fixed t P ∧ P <+: entries ∧ K.Plain (entries.drop P.length)

/-- The node stands for its next term, and votes for itself. -/
abbrev standing [DecidableEq N] (s : State N E) (v : N) : State N E := { s with
  term := Function.update s.term v (s.term v + 1)
  vote := Function.update s.vote v (some v)
  stood := fun u c entries =>
    s.stood u c entries ∨ u = s.term v + 1 ∧ c = v ∧ entries = s.log v
  ballot := fun w u c entries =>
    s.ballot w u c entries ∨ w = v ∧ u = s.term v + 1 ∧ c = v ∧ entries = s.log v }

/-- The node leads its term, over its own log. -/
abbrev elected (s : State N E) (c : N) (Q : Set N) : State N E := { s with
  lead := Function.update s.lead (s.term c) (some ⟨c, s.log c, s.log c, Q⟩) }

/-- The leader's log grows by an entry. -/
abbrev extended [DecidableEq N] (s : State N E) (t : ℕ) (r : Reign N E) (e : E) : State N E :=
  { s with
    log := Function.update s.log r.node (r.log ++ [e])
    lead := Function.update s.lead t (some { r with log := r.log ++ [e] }) }

/-- A candidate with the votes of a deciding set leads; a node takes up a part of the log of the
leader of its term or a later one; what a deciding set acknowledged is chosen. -/
inductive Step [DecidableEq N] (s : State N E) : State N E → Prop
  | raise (v : N) (t : ℕ) (ht : s.term v < t) :
      Step s { s with term := Function.update s.term v t, vote := Function.update s.vote v none }
  | stand (v : N) : Step s (s.standing v)
  | grant (v c : N) (entries : List E) (hstood : s.stood (s.term v) c entries)
      (hfree : s.vote v = none ∨ s.vote v = some c) (hlog : K.UpToDate entries (s.log v)) :
      Step s { s with
        vote := Function.update s.vote v (some c)
        ballot := fun w u d entries =>
          s.ballot w u d entries ∨ w = v ∧ u = s.term v ∧ d = c ∧ entries = s.log v }
  | pledge (v c : N) (hfree : s.vote v = none ∨ s.vote v = some c) :
      Step s { s with vote := Function.update s.vote v (some c) }
  | elect (c : N) (Q : Set N) (hstood : s.stood (s.term c) c (s.log c))
      (hfree : s.lead (s.term c) = none) (hQ : K.decides (K.cfg (s.log c)) Q)
      (hballots : ∀ v ∈ Q, ∃ entries, s.ballot v (s.term c) c entries) :
      Step s (s.elected c Q)
  | extend (t : ℕ) (r : Reign N E) (e : E) (hlead : s.lead t = some r)
      (hterm : s.term r.node = t) (hlog : s.log r.node = r.log) (he : K.term e = t)
      (hconfig : ∀ c, K.config e = some c → K.next (K.cfg r.log) c ∧ s.Settled K t r.log) :
      Step s (s.extended t r e)
  | adopt (v : N) (t : ℕ) (r : Reign N E) (X : List E) (hlead : s.lead t = some r)
      (hX : X <+: r.log) (hterm : s.term v ≤ t) (log : List E)
      (hlog : X <+: s.log v ∧ log = s.log v ∨ ¬ X <+: s.log v ∧ log = X) :
      Step s { s with
        term := Function.update s.term v t
        vote := if s.term v = t then s.vote else Function.update s.vote v none
        log := Function.update s.log v log }
  | ack (v : N) (r : Reign N E) (n : ℕ) (hlead : s.lead (s.term v) = some r)
      (hn : n ≤ r.log.length) (hheld : r.log.take n <+: s.log v) :
      Step s { s with acked := fun w t m => s.acked w t m ∨ w = v ∧ t = s.term v ∧ m = n }
  | choose (t : ℕ) (r : Reign N E) (n : ℕ) (e : E) (Q : Set N) (hlead : s.lead t = some r)
      (hn : r.log[n]? = some e) (he : K.term e = t) (hQ : K.decides (K.cfg r.log) Q)
      (hacked : ∀ v ∈ Q, ∃ m, n < m ∧ s.acked v t m) :
      Step s { s with
        chosen := fun u m len => s.chosen u m len ∨ u = t ∧ m = n + 1 ∧ len = r.log.length }

/-- Every entry stands where the leader of its term put it, over that leader's log. -/
def Grounded (s : State N E) (entries : List E) : Prop :=
  ∀ i e, entries[i]? = some e → ∃ r, s.lead (K.term e) = some r ∧ entries.take (i + 1) <+: r.log

variable {K} {s s' : State N E}

/-- What has happened stays: every leader is there, its log perhaps longer. -/
structure Grows (s s' : State N E) : Prop where
  lead : ∀ {t r}, s.lead t = some r → ∃ r', s'.lead t = some r' ∧ r'.node = r.node ∧
    r'.start = r.start ∧ r'.voters = r.voters ∧ r.log <+: r'.log
  ballot : ∀ {v u c entries}, s.ballot v u c entries → s'.ballot v u c entries
  acked : ∀ {v t n}, s.acked v t n → s'.acked v t n
  chosen : ∀ {t n len}, s.chosen t n len → s'.chosen t n len
  stood : ∀ {u c entries}, s.stood u c entries → s'.stood u c entries

variable {t u i : ℕ} {r : Reign N E}

theorem lead_same {s s' : State N E} (h : s'.lead = s.lead) (hr : s.lead t = some r) :
    ∃ r', s'.lead t = some r' ∧ r'.node = r.node ∧
      r'.start = r.start ∧ r'.voters = r.voters ∧ r.log <+: r'.log :=
  ⟨r, by rw [h]; exact hr, rfl, rfl, rfl, List.prefix_rfl⟩

theorem Step.grows [DecidableEq N] (h : Step K s s') : Grows s s' := by
  cases h with
  | elect c Q hstood hfree hQ hballots =>
    refine ⟨fun {t r} hr => ?_, id, id, id, id⟩
    have hne : t ≠ s.term c := by
      rintro rfl
      rw [hfree] at hr
      exact absurd hr (by simp)
    exact ⟨r, by rw [← hr]; exact Function.update_of_ne hne _ _, rfl, rfl, rfl, List.prefix_rfl⟩
  | extend t r e hlead hterm hlog he hconfig =>
    refine ⟨fun {u q} hq => ?_, id, id, id, id⟩
    by_cases hu : u = t
    · subst hu
      obtain rfl : r = q := Option.some.inj (hlead.symm.trans hq)
      exact ⟨_, Function.update_self _ _ _, rfl, rfl, rfl, List.prefix_append _ _⟩
    · exact ⟨q, by rw [← hq]; exact Function.update_of_ne hu _ _, rfl, rfl, rfl, List.prefix_rfl⟩
  | raise => exact ⟨lead_same rfl, id, id, id, id⟩
  | pledge => exact ⟨lead_same rfl, id, id, id, id⟩
  | stand => exact ⟨lead_same rfl, .inl, id, id, .inl⟩
  | grant => exact ⟨lead_same rfl, .inl, id, id, id⟩
  | adopt => exact ⟨lead_same rfl, id, id, id, id⟩
  | ack => exact ⟨lead_same rfl, id, .inl, id, id⟩
  | choose => exact ⟨lead_same rfl, id, id, .inl, id⟩

theorem Fixed.grows {entries : List E} (h : s.Fixed t entries) (hg : Grows s s') :
    s'.Fixed t entries := by
  rcases h with rfl | ⟨u, n, len, r, hu, hchosen, hr, hpre⟩
  · exact .inl rfl
  · obtain ⟨r', hr', -, -, -, hlog⟩ := hg.lead hr
    exact .inr ⟨u, n, len, r', hu, hg.chosen hchosen, hr', hpre.trans (hlog.take n)⟩

theorem Grounded.grows {entries : List E} (h : s.Grounded K entries) (hg : Grows s s') :
    s'.Grounded K entries := by
  intro i e he
  obtain ⟨r, hr, hpre⟩ := h i e he
  obtain ⟨r', hr', -, -, -, hlog⟩ := hg.lead hr
  exact ⟨r', hr', hpre.trans hlog⟩

theorem Grounded.of_isPrefix {xs ys : List E} (h : s.Grounded K ys) (hxs : xs <+: ys) :
    s.Grounded K xs := by
  intro i e he
  obtain ⟨r, hr, hpre⟩ := h i e (getElem?_of_isPrefix hxs he)
  refine ⟨r, hr, List.IsPrefix.trans ?_ hpre⟩
  exact hxs.take _

structure Voting (K : Scheme N E C) (s : State N E) : Prop where
  stood_le : ∀ {u c entries}, s.stood u c entries → u ≤ s.term c
  stood_unique : ∀ {u c xs ys}, s.stood u c xs → s.stood u c ys → xs = ys
  stood_ballot : ∀ {u c entries}, s.stood u c entries → ∃ ys, s.ballot c u c ys
  ballot_le : ∀ {v u c entries}, s.ballot v u c entries → u ≤ s.term v
  ballot_vote : ∀ {v c entries}, s.ballot v (s.term v) c entries → s.vote v = some c
  ballot_unique : ∀ {v u c d xs ys}, s.ballot v u c xs → s.ballot v u d ys → c = d
  upToDate : ∀ {v u c entries}, s.ballot v u c entries →
    ∃ ys, s.stood u c ys ∧ K.UpToDate ys entries

structure Rooted (K : Scheme N E C) (s : State N E) : Prop where
  log_le : ∀ {v e}, e ∈ s.log v → K.term e ≤ s.term v
  log_grounded : ∀ v, s.Grounded K (s.log v)
  stood_lt : ∀ {u c entries e}, s.stood u c entries → e ∈ entries → K.term e < u
  stood_grounded : ∀ {u c entries}, s.stood u c entries → s.Grounded K entries
  ballot_grounded : ∀ {v u c entries}, s.ballot v u c entries → s.Grounded K entries
  lead_stood : ∀ {u r}, s.lead u = some r → s.stood u r.node r.start
  lead_start : ∀ {u r}, s.lead u = some r → r.start <+: r.log
  lead_own : ∀ {u r i e}, s.lead u = some r → r.start.length ≤ i → r.log[i]? = some e →
    K.term e = u
  lead_grounded : ∀ {u r}, s.lead u = some r → s.Grounded K r.log

theorem Rooted.start_lt (h : Rooted K s) {e : E} (hr : s.lead u = some r) (hi : i < r.start.length)
    (he : r.log[i]? = some e) : K.term e < u := by
  refine h.stood_lt (h.lead_stood hr) (List.mem_of_getElem? (i := i) ?_)
  rw [← he]
  exact (List.prefix_iff_getElem?.mp (h.lead_start hr) i hi) ▸ List.getElem?_eq_getElem hi

theorem Rooted.lead_le (h : Rooted K s) {e : E} (hr : s.lead u = some r) (he : r.log[i]? = some e) :
    K.term e ≤ u := by
  by_cases hi : i < r.start.length
  · exact (h.start_lt hr hi he).le
  · exact (h.lead_own hr (not_lt.mp hi) he).le

theorem Rooted.later (h : Rooted K s) {term : N → ℕ} (hterm : ∀ v, s.term v ≤ term v)
    (vote : N → Option N) (acked : N → ℕ → ℕ → Prop) (chosen : ℕ → ℕ → ℕ → Prop) :
    Rooted K { s with term := term, vote := vote, acked := acked, chosen := chosen } :=
  { h with log_le := fun he => (h.log_le he).trans (hterm _) }

section Moves

variable [DecidableEq N]

variable {v c : N} {t : ℕ} {r : Reign N E}

theorem le_update {f : N → ℕ} (h : f v ≤ t) (w : N) : f w ≤ Function.update f v t w := by
  by_cases hw : w = v
  · subst hw
    rwa [Function.update_self]
  · rw [Function.update_of_ne hw]

theorem Voting.later (h : Voting K s) (ht : s.term v ≤ t) (log : N → List E) :
    Voting K { s with
      term := Function.update s.term v t
      vote := if s.term v = t then s.vote else Function.update s.vote v none
      log := log } :=
  { h with
    stood_le hs := (h.stood_le hs).trans (le_update ht _)
    ballot_le hb := (h.ballot_le hb).trans (le_update ht _)
    ballot_vote := by
      intro w c entries hb
      change s.ballot w (Function.update s.term v t w) c entries at hb
      change (if s.term v = t then s.vote else Function.update s.vote v none) w = some c
      by_cases hw : w = v
      · subst hw
        rw [Function.update_self] at hb
        have heq : s.term w = t := le_antisymm ht (h.ballot_le hb)
        rw [if_pos heq]
        exact h.ballot_vote (heq ▸ hb)
      · rw [Function.update_of_ne hw] at hb
        split_ifs
        · exact h.ballot_vote hb
        · rw [Function.update_of_ne hw]
          exact h.ballot_vote hb }

theorem Voting.stand (h : Voting K s) (v : N) : Voting K (s.standing v) where
  stood_le := by
    rintro u c entries (hs | ⟨rfl, rfl, rfl⟩)
    · exact (h.stood_le hs).trans (le_update (Nat.le_succ _) _)
    · simp
  stood_unique := by
    rintro u c xs ys (hx | ⟨rfl, rfl, rfl⟩) (hy | ⟨hu, hc, rfl⟩)
    · exact h.stood_unique hx hy
    · subst hu hc
      exact absurd (h.stood_le hx) (by omega)
    · exact absurd (h.stood_le hy) (by omega)
    · rfl
  stood_ballot := by
    rintro u c entries (hs | ⟨rfl, rfl, rfl⟩)
    · obtain ⟨ys, hb⟩ := h.stood_ballot hs
      exact ⟨ys, .inl hb⟩
    · exact ⟨_, .inr ⟨rfl, rfl, rfl, rfl⟩⟩
  ballot_le := by
    rintro w u c entries (hb | ⟨rfl, rfl, rfl, rfl⟩)
    · exact (h.ballot_le hb).trans (le_update (Nat.le_succ _) _)
    · simp
  ballot_vote := by
    rintro w c entries (hb | ⟨rfl, -, rfl, -⟩) <;> dsimp only at *
    · by_cases hw : w = v
      · subst hw
        rw [Function.update_self] at hb
        exact absurd (h.ballot_le hb) (by omega)
      · rw [Function.update_of_ne hw] at hb ⊢
        exact h.ballot_vote hb
    · rw [Function.update_self]
  ballot_unique := by
    rintro w u c d xs ys (hx | ⟨rfl, rfl, rfl, rfl⟩) (hy | ⟨hw, hu, rfl, rfl⟩)
    · exact h.ballot_unique hx hy
    · subst hw hu
      exact absurd (h.ballot_le hx) (by omega)
    · exact absurd (h.ballot_le hy) (by omega)
    · rfl
  upToDate := by
    rintro w u c entries (hb | ⟨rfl, rfl, rfl, rfl⟩)
    · obtain ⟨ys, hys, hup⟩ := h.upToDate hb
      exact ⟨ys, .inl hys, hup⟩
    · exact ⟨_, .inr ⟨rfl, rfl, rfl⟩, .inr ⟨rfl, le_rfl⟩⟩

theorem Voting.pledge (h : Voting K s) (hfree : s.vote v = none ∨ s.vote v = some c) :
    Voting K { s with vote := Function.update s.vote v (some c) } := by
  refine { h with ballot_vote := ?_ }
  intro w d entries hb
  dsimp only
  by_cases hw : w = v
  · subst hw
    rw [h.ballot_vote hb] at hfree
    have hd : d = c := by simpa using hfree
    rw [hd, Function.update_self]
  · rw [Function.update_of_ne hw]
    exact h.ballot_vote hb

theorem Voting.grant (h : Voting K s) {entries : List E} (hstood : s.stood (s.term v) c entries)
    (hfree : s.vote v = none ∨ s.vote v = some c) (hlog : K.UpToDate entries (s.log v)) :
    Voting K { s with
      vote := Function.update s.vote v (some c)
      ballot := fun w u d entries =>
        s.ballot w u d entries ∨ w = v ∧ u = s.term v ∧ d = c ∧ entries = s.log v } where
  stood_le := h.stood_le
  stood_unique := h.stood_unique
  stood_ballot hs := (h.stood_ballot hs).imp fun _ => .inl
  ballot_le := by
    rintro w u d ys (hb | ⟨rfl, rfl, rfl, rfl⟩)
    · exact h.ballot_le hb
    · exact le_rfl
  ballot_vote := by
    rintro w d ys (hb | ⟨rfl, -, rfl, -⟩)
    · exact (h.pledge hfree).ballot_vote hb
    · exact Function.update_self ..
  ballot_unique := by
    have hsame : ∀ {d ys}, s.ballot v (s.term v) d ys → d = c := by
      intro d ys hb
      rw [h.ballot_vote hb] at hfree
      simpa using hfree
    rintro w u d f xs ys (hx | ⟨rfl, rfl, rfl, rfl⟩) (hy | ⟨hw, hu, rfl, rfl⟩)
    · exact h.ballot_unique hx hy
    · subst hw hu
      exact hsame hx
    · exact (hsame hy).symm
    · rfl
  upToDate := by
    rintro w u d ys (hb | ⟨rfl, rfl, rfl, rfl⟩)
    · exact h.upToDate hb
    · exact ⟨entries, hstood, hlog⟩

theorem Voting.step (h : Voting K s) (hs : Step K s s') : Voting K s' := by
  cases hs with
  | raise v t ht =>
    have hlater := h.later ht.le s.log
    rwa [if_neg ht.ne] at hlater
  | stand v => exact h.stand v
  | grant v c entries hstood hfree hlog => exact h.grant hstood hfree hlog
  | pledge v c hfree => exact h.pledge hfree
  | adopt v t r X hlead hX hterm log hlog => exact h.later hterm _
  | _ => exact { h with }

theorem Rooted.stand (h : Rooted K s) (v : N) : Rooted K (s.standing v) :=
  { h with
    log_le := fun he => (h.log_le he).trans (le_update (Nat.le_succ _) _)
    stood_lt := by
      rintro u c entries e (hs | ⟨rfl, rfl, rfl⟩) he
      · exact h.stood_lt hs he
      · exact Nat.lt_succ_of_le (h.log_le he)
    stood_grounded := by
      rintro u c entries (hs | ⟨rfl, rfl, rfl⟩)
      · exact h.stood_grounded hs
      · exact h.log_grounded c
    ballot_grounded := by
      rintro w u c entries (hb | ⟨rfl, rfl, rfl, rfl⟩)
      · exact h.ballot_grounded hb
      · exact h.log_grounded _
    lead_stood := fun hr => .inl (h.lead_stood hr) }

omit [DecidableEq N] in
theorem lead_update {f : ℕ → Option (Reign N E)} {u : ℕ} {q : Reign N E}
    (h : Function.update f t (some q) u = some r) : u ≠ t ∧ f u = some r ∨ u = t ∧ r = q := by
  by_cases hu : u = t
  · subst hu
    rw [Function.update_self] at h
    exact .inr ⟨rfl, (Option.some.inj h).symm⟩
  · rw [Function.update_of_ne hu] at h
    exact .inl ⟨hu, h⟩

omit [DecidableEq N] in
theorem forall_lead {f : ℕ → Option (Reign N E)} {P : ℕ → Reign N E → Prop} {q : Reign N E}
    {u : ℕ} (h : Function.update f t (some q) u = some r) (hold : ∀ {u r}, f u = some r → P u r)
    (hnew : P t q) : P u r := by
  rcases lead_update h with ⟨-, h⟩ | ⟨rfl, rfl⟩
  · exact hold h
  · exact hnew

omit [DecidableEq N] in
theorem Rooted.elect (h : Rooted K s) {Q : Set N} (hstood : s.stood (s.term c) c (s.log c))
    (hg : Grows s (s.elected c Q)) : Rooted K (s.elected c Q) := by
  refine ⟨h.log_le, fun v => (h.log_grounded v).grows hg, h.stood_lt,
    fun hs => (h.stood_grounded hs).grows hg, fun hb => (h.ballot_grounded hb).grows hg,
    fun hr => forall_lead hr h.lead_stood hstood,
    fun hr => forall_lead hr h.lead_start List.prefix_rfl, ?_, fun hr =>
      forall_lead hr (fun hr => (h.lead_grounded hr).grows hg) ((h.log_grounded c).grows hg)⟩
  intro u r i e hr hi he
  rcases lead_update hr with ⟨-, hr⟩ | ⟨rfl, rfl⟩
  · exact h.lead_own hr hi he
  · rw [List.getElem?_eq_none hi] at he
    exact absurd he (by simp)

omit [DecidableEq N] in
theorem Grounded.concat {entries : List E} {e : E} (h : s.Grounded K entries)
    (hlead : s.lead (K.term e) = some r) (hr : entries ++ [e] <+: r.log) :
    s.Grounded K (entries ++ [e]) := by
  intro i x hx
  rcases lt_or_ge i entries.length with hi | hi
  · rw [List.getElem?_append_left hi] at hx
    rw [List.take_append_of_le_length hi]
    exact h i x hx
  · have hlt := (List.getElem?_eq_some_iff.mp hx).1
    rw [List.length_append, List.length_singleton] at hlt
    obtain rfl : i = entries.length := by omega
    rw [List.getElem?_concat_length] at hx
    obtain rfl := Option.some.inj hx
    refine ⟨r, hlead, ?_⟩
    rwa [List.take_of_length_le (by simp)]

theorem Rooted.extend (h : Rooted K s) {e : E} (hlead : s.lead t = some r)
    (hterm : s.term r.node = t) (he : K.term e = t) (hg : Grows s (s.extended t r e)) :
    Rooted K (s.extended t r e) := by
  have hnew := ((h.lead_grounded hlead).grows hg).concat (e := e)
    (by rw [he]; exact Function.update_self _ _ _) List.prefix_rfl
  refine ⟨?_, ?_, h.stood_lt, fun hs => (h.stood_grounded hs).grows hg,
    fun hb => (h.ballot_grounded hb).grows hg,
    fun hq => forall_lead hq h.lead_stood (h.lead_stood (r := r) hlead), fun hq =>
      forall_lead hq h.lead_start ((h.lead_start hlead).trans (List.prefix_append _ _)), ?_,
    fun hq => forall_lead hq (fun hq => (h.lead_grounded hq).grows hg) hnew⟩
  · intro v x hx
    dsimp only at hx ⊢
    by_cases hv : v = r.node
    · subst hv
      rw [Function.update_self, List.mem_append, List.mem_singleton] at hx
      rcases hx with hx | rfl
      · obtain ⟨i, hi⟩ := List.mem_iff_getElem?.mp hx
        exact hterm ▸ h.lead_le hlead hi
      · rw [he, hterm]
    · rw [Function.update_of_ne hv] at hx
      exact h.log_le hx
  · intro v
    by_cases hv : v = r.node
    · subst hv
      dsimp only
      rw [Function.update_self]
      exact hnew
    · dsimp only
      rw [Function.update_of_ne hv]
      exact (h.log_grounded v).grows hg
  · intro u q i x hq hi hx
    rcases lead_update hq with ⟨-, hq⟩ | ⟨rfl, rfl⟩
    · exact h.lead_own hq hi hx
    · rcases lt_or_ge i r.log.length with hlt | hge
      · rw [List.getElem?_append_left hlt] at hx
        exact h.lead_own hlead hi hx
      · rw [List.getElem?_append_right hge, List.getElem?_singleton] at hx
        split_ifs at hx
        rw [← Option.some.inj hx]
        exact he

theorem Rooted.adopt (h : Rooted K s) {X log : List E} (hlead : s.lead t = some r)
    (hX : X <+: r.log) (hterm : s.term v ≤ t) (hlog : log = s.log v ∨ log = X)
    (vote : N → Option N) :
    Rooted K { s with
      term := Function.update s.term v t
      vote := vote
      log := Function.update s.log v log } := by
  refine { h with log_le := ?_, log_grounded := ?_ }
  · intro w e he
    dsimp only at he ⊢
    by_cases hw : w = v
    · subst hw
      rw [Function.update_self] at he ⊢
      rcases hlog with rfl | rfl
      · exact (h.log_le he).trans hterm
      · obtain ⟨i, hi⟩ := List.mem_iff_getElem?.mp (hX.mem he)
        exact h.lead_le hlead hi
    · rw [Function.update_of_ne hw] at he ⊢
      exact h.log_le he
  · intro w
    change s.Grounded K (Function.update s.log v log w)
    by_cases hw : w = v
    · subst hw
      rw [Function.update_self]
      rcases hlog with rfl | rfl
      · exact h.log_grounded w
      · exact (h.lead_grounded hlead).of_isPrefix hX
    · rw [Function.update_of_ne hw]
      exact h.log_grounded w

theorem Rooted.step (h : Rooted K s) (hs : Step K s s') : Rooted K s' := by
  have hg := hs.grows
  cases hs with
  | raise v t ht => exact h.later (le_update ht.le) _ _ _
  | stand v => exact h.stand v
  | grant v c entries hstood hfree hlog =>
    refine { h with ballot_grounded := ?_ }
    rintro w u d ys (hb | ⟨rfl, rfl, rfl, rfl⟩)
    · exact h.ballot_grounded hb
    · exact h.log_grounded w
  | pledge v c hfree => exact h.later (fun _ => le_rfl) _ _ _
  | elect c Q hstood hfree hQ hballots => exact h.elect hstood hg
  | extend t r e hlead hterm hlog he hconfig => exact h.extend hlead hterm he hg
  | adopt v t r X hlead hX hterm log hlog =>
    exact h.adopt hlead hX hterm (hlog.imp And.right And.right) _
  | ack v r n hlead hn hheld => exact h.later (fun _ => le_rfl) _ _ _
  | choose t r n e Q hlead hn he hQ hacked => exact h.later (fun _ => le_rfl) _ _ _

end Moves

end State

end Slates.Consensus
