import Slates.Library.Consensus

/-!
What is chosen stays: every later leader starts with it. Two chosen logs agree as far as both go,
and a term has one leader.
-/

namespace Slates.Consensus

variable {N E C : Type} {K : Scheme N E C}

namespace State

variable {s s' : State N E}

def FixedBefore (s : State N E) (t k : ℕ) (entries : List E) : Prop :=
  entries = [] ∨ ∃ u n len r, (u < t ∨ u = t ∧ len ≤ k) ∧ s.chosen u n len ∧ s.lead u = some r ∧
    entries <+: r.log.take n

variable {t k n : ℕ} {entries xs ys P : List E} {r q : Reign N E} {x y e : E}

theorem FixedBefore.grows (h : s.FixedBefore t k entries) (hg : Grows s s') :
    s'.FixedBefore t k entries := by
  rcases h with rfl | ⟨u, n, len, r, hu, hchosen, hr, hpre⟩
  · exact .inl rfl
  · obtain ⟨r', hr', -, -, -, hlog⟩ := hg.lead hr
    exact .inr ⟨u, n, len, r', hu, hg.chosen hchosen, hr', hpre.trans (hlog.take n)⟩

def Lost (s : State N E) (t b : ℕ) (entries : List E) : Prop :=
  ∃ w r, t < w ∧ w < b ∧ s.lead w = some r ∧ ¬ entries <+: r.start

theorem Lost.grows {b : ℕ} (h : s.Lost t b entries) (hg : Grows s s') : s'.Lost t b entries := by
  obtain ⟨w, r, ht, hb, hr, hnot⟩ := h
  obtain ⟨r', hr', -, hstart, -, -⟩ := hg.lead hr
  exact ⟨w, r', ht, hb, hr', by rwa [hstart]⟩

theorem Lost.mono {b d : ℕ} (h : s.Lost t b entries) (hbd : b ≤ d) : s.Lost t d entries := by
  obtain ⟨w, r, ht, hb, hr, hnot⟩ := h
  exact ⟨w, r, ht, hb.trans_le hbd, hr, hnot⟩

/-- Choices: a deciding set of the leader's configuration acknowledged them. -/
def Choices (K : Scheme N E C) (s : State N E) : Prop :=
  ∀ t n len, s.chosen t n len → ∃ r Q, s.lead t = some r ∧ r.start.length < n ∧ n ≤ len ∧
    len ≤ r.log.length ∧ K.decides (K.cfg (r.log.take len)) Q ∧
    ∀ v ∈ Q, ∃ m, n ≤ m ∧ s.acked v t m

/-- Elected by a deciding set of the configuration of their first log; each configuration they
entered follows one chosen by then. -/
structure Reigns (K : Scheme N E C) (s : State N E) : Prop where
  decides : ∀ {u r}, s.lead u = some r → K.decides (K.cfg r.start) r.voters
  ballots : ∀ {u r v}, s.lead u = some r → v ∈ r.voters → ∃ entries, s.ballot v u r.node entries
  config : ∀ {u r k e c}, s.lead u = some r → r.start.length ≤ k → r.log[k]? = some e →
    K.config e = some c → K.next (K.cfg (r.log.take k)) c ∧
      ∃ P, s.FixedBefore u k P ∧ P <+: r.log.take k ∧ K.Plain ((r.log.take k).drop P.length)

/-- What was acknowledged is still there, unless a later leader started without it. -/
structure Acks (K : Scheme N E C) (s : State N E) : Prop where
  le : ∀ {v t n}, s.acked v t n → t ≤ s.term v
  lead : ∀ {v t n}, s.acked v t n → ∃ r, s.lead t = some r ∧ n ≤ r.log.length
  log : ∀ {v t n r m}, s.acked v t n → s.lead t = some r → m ≤ n →
    r.log.take m <+: s.log v ∨ s.Lost t (s.term v + 1) (r.log.take m)
  ballot : ∀ {v t n r m u c entries}, s.acked v t n → s.lead t = some r → m ≤ n →
    s.ballot v u c entries → t < u → r.log.take m <+: entries ∨ s.Lost t (u + 1) (r.log.take m)
  voter : ∀ {v t n r u q}, s.acked v t n → s.lead t = some r → s.lead u = some q →
    v ∈ q.voters → t < u → ∃ entries, K.UpToDate q.start entries ∧ s.Grounded K entries ∧
      ∀ m ≤ n, r.log.take m <+: entries ∨ s.Lost t u (r.log.take m)

/-- All that the moves keep. -/
structure Sound (K : Scheme N E C) (s : State N E) : Prop where
  voting : Voting K s
  rooted : Rooted K s
  choices : Choices K s
  reigns : Reigns K s
  acks : Acks K s

theorem Reigns.of_lead_eq (h : Reigns K s) (hlead : s'.lead = s.lead) (hg : Grows s s') :
    Reigns K s' where
  decides hr := h.decides (hlead ▸ hr)
  ballots hr hv := by
    obtain ⟨entries, hb⟩ := h.ballots (hlead ▸ hr) hv
    exact ⟨entries, hg.ballot hb⟩
  config hr hk he hc := by
    obtain ⟨hnext, P, hP, hpre, hplain⟩ := h.config (hlead ▸ hr) hk he hc
    exact ⟨hnext, P, hP.grows hg, hpre, hplain⟩

theorem Reigns.elect (h : Reigns K s) {c : N} {Q : Set N} (hQ : K.decides (K.cfg (s.log c)) Q)
    (hballots : ∀ v ∈ Q, ∃ entries, s.ballot v (s.term c) c entries)
    (hg : Grows s (s.elected c Q)) : Reigns K (s.elected c Q) := by
  refine ⟨fun hr => forall_lead hr h.decides hQ,
    fun hr => forall_lead hr h.ballots (hballots _), ?_⟩
  intro u r k e d hr hk he hd
  rcases lead_update hr with ⟨-, hr⟩ | ⟨rfl, rfl⟩
  · obtain ⟨hnext, P, hP, hpre, hplain⟩ := h.config hr hk he hd
    exact ⟨hnext, P, hP.grows hg, hpre, hplain⟩
  · rw [List.getElem?_eq_none hk] at he
    exact absurd he (by simp)

theorem Acks.old (h : Acks K s) (hg : Grows s s') {v : N} (ha : s.acked v t n)
    (hr : s'.lead t = some r) : ∃ q, s.lead t = some q ∧ ∀ m ≤ n, r.log.take m = q.log.take m := by
  obtain ⟨q, hq, hn⟩ := h.lead ha
  obtain ⟨r', hr', -, -, -, hlog⟩ := hg.lead hq
  obtain rfl : r' = r := Option.some.inj (hr'.symm.trans hr)
  exact ⟨q, hq, fun m hm => take_eq_of_isPrefix hlog (hm.trans hn)⟩

variable {u : ℕ}

section Moves

variable [DecidableEq N]

theorem Choices.step (h : Choices K s) (hroot : Rooted K s) (hs : Step K s s') : Choices K s' := by
  have hold : ∀ t n len, s.chosen t n len → ∃ r Q, s'.lead t = some r ∧ r.start.length < n ∧
      n ≤ len ∧ len ≤ r.log.length ∧ K.decides (K.cfg (r.log.take len)) Q ∧
      ∀ v ∈ Q, ∃ m, n ≤ m ∧ s'.acked v t m := by
    intro t n len hchosen
    obtain ⟨r, Q, hr, hstart, hn, hlen, hQ, hacked⟩ := h t n len hchosen
    obtain ⟨r', hr', -, hstart', -, hlog⟩ := hs.grows.lead hr
    refine ⟨r', Q, hr', by rwa [hstart'], hn, hlen.trans hlog.length_le, ?_, ?_⟩
    · rwa [take_eq_of_isPrefix hlog hlen]
    · intro v hv
      obtain ⟨m, hm, ha⟩ := hacked v hv
      exact ⟨m, hm, hs.grows.acked ha⟩
  cases hs with
  | choose t r n e Q hlead hn he hQ hacked =>
    rintro u m len (hchosen | ⟨rfl, rfl, rfl⟩)
    · exact hold u m len hchosen
    · refine ⟨r, Q, hlead, ?_, (List.getElem?_eq_some_iff.mp hn).1, le_rfl, ?_, hacked⟩
      · refine Nat.lt_succ_of_le (not_lt.mp fun hlt => ?_)
        exact (hroot.start_lt hlead hlt hn).ne he
      · rwa [List.take_length]
  | _ => exact hold

theorem Reigns.extend (h : Reigns K s) (hchoices : Choices K s) {t : ℕ} {r : Reign N E} {e : E}
    (hlead : s.lead t = some r)
    (hconfig : ∀ c, K.config e = some c → K.next (K.cfg r.log) c ∧ s.Settled K t r.log)
    (hg : Grows s (s.extended t r e)) : Reigns K (s.extended t r e) := by
  refine ⟨fun hq => forall_lead hq h.decides (h.decides (r := r) hlead),
    fun hq => forall_lead hq h.ballots (h.ballots (r := r) hlead), ?_⟩
  intro u q k x c hq hk hx hc
  rcases lead_update hq with ⟨-, hq⟩ | ⟨rfl, rfl⟩
  · obtain ⟨hnext, P, hP, hpre, hplain⟩ := h.config hq hk hx hc
    exact ⟨hnext, P, hP.grows hg, hpre, hplain⟩
  dsimp only at hk hx ⊢
  rcases lt_or_ge k r.log.length with hlt | hge
  · rw [List.getElem?_append_left hlt] at hx
    rw [List.take_append_of_le_length hlt.le]
    obtain ⟨hnext, P, hP, hpre, hplain⟩ := h.config hlead hk hx hc
    exact ⟨hnext, P, hP.grows hg, hpre, hplain⟩
  · have hlt := (List.getElem?_eq_some_iff.mp hx).1
    rw [List.length_append, List.length_singleton] at hlt
    obtain rfl : k = r.log.length := by omega
    rw [List.getElem?_concat_length] at hx
    obtain rfl := Option.some.inj hx
    rw [List.take_append_of_le_length le_rfl, List.take_length]
    obtain ⟨hnext, P, hP, hpre, hplain⟩ := hconfig c hc
    refine ⟨hnext, P, FixedBefore.grows ?_ hg, hpre, hplain⟩
    rcases hP with rfl | ⟨w, n, len, q, hw, hchosen, hq, hPq⟩
    · exact .inl rfl
    · refine .inr ⟨w, n, len, q, ?_, hchosen, hq, hPq⟩
      rcases hw.lt_or_eq with hlt | rfl
      · exact .inl hlt
      · obtain ⟨q', -, hq', -, -, hlen, -, -⟩ := hchoices w n len hchosen
        obtain rfl : q' = r := Option.some.inj (hq'.symm.trans hlead)
        exact .inr ⟨rfl, hlen⟩

theorem Reigns.step (h : Reigns K s) (hchoices : Choices K s) (hs : Step K s s') : Reigns K s' := by
  have hg := hs.grows
  cases hs with
  | elect c Q hstood hfree hQ hballots => exact h.elect hQ hballots hg
  | extend t r e hlead hterm hlog he hconfig => exact h.extend hchoices hlead hconfig hg
  | _ => exact h.of_lead_eq rfl hg

theorem Step.term_le (hs : Step K s s') (v : N) : s.term v ≤ s'.term v := by
  cases hs with
  | raise w t ht => exact le_update ht.le v
  | stand w => exact le_update (Nat.le_succ _) v
  | adopt w t r X hlead hX hterm log hlog => exact le_update hterm v
  | _ => exact le_rfl

theorem Step.acked (hs : Step K s s') {v : N} {t n : ℕ} (h : s'.acked v t n) :
    s.acked v t n ∨ t = s.term v ∧ s'.term = s.term ∧ s'.log = s.log ∧ s'.lead = s.lead ∧
      s'.ballot = s.ballot ∧ ∃ r, s.lead t = some r ∧ n ≤ r.log.length ∧
        r.log.take n <+: s.log v := by
  cases hs with
  | ack w r m hlead hm hheld =>
    rcases h with h | ⟨rfl, rfl, rfl⟩
    · exact .inl h
    · exact .inr ⟨rfl, rfl, rfl, rfl, rfl, r, hlead, hm, hheld⟩
  | _ => exact .inl h

theorem Step.ballot (hs : Step K s s') {v c : N} {entries : List E} (h : s'.ballot v u c entries) :
    s.ballot v u c entries ∨ entries = s.log v ∧ s.term v ≤ u := by
  cases hs with
  | stand w =>
    rcases h with h | ⟨rfl, rfl, rfl, rfl⟩
    · exact .inl h
    · exact .inr ⟨rfl, Nat.le_succ _⟩
  | grant w d ys hstood hfree hlog =>
    rcases h with h | ⟨rfl, rfl, rfl, rfl⟩
    · exact .inl h
    · exact .inr ⟨rfl, le_rfl⟩
  | _ => exact .inl h

theorem Step.lead (hs : Step K s s') {u : ℕ} {q : Reign N E} (h : s'.lead u = some q) :
    (∃ r, s.lead u = some r ∧ r.start = q.start ∧ r.voters = q.voters) ∨
      s.lead u = none ∧ s.stood u q.node q.start ∧
        ∀ v ∈ q.voters, ∃ entries, s.ballot v u q.node entries := by
  cases hs with
  | elect c Q hstood hfree hQ hballots =>
    rcases lead_update h with ⟨-, hq⟩ | ⟨rfl, rfl⟩
    · exact .inl ⟨q, hq, rfl, rfl⟩
    · exact .inr ⟨hfree, hstood, hballots⟩
  | extend t r e hlead hterm hlog he hconfig =>
    rcases lead_update h with ⟨-, hq⟩ | ⟨rfl, rfl⟩
    · exact .inl ⟨q, hq, rfl, rfl⟩
    · exact .inl ⟨r, hlead, rfl, rfl⟩
  | _ => exact .inl ⟨q, h, rfl, rfl⟩

theorem Step.log (hs : Step K s s') (hroot : Rooted K s) {v : N} {t : ℕ} {r : Reign N E}
    {P : List E} (hr : s.lead t = some r) (ht : t ≤ s.term v) (hP : P <+: r.log)
    (hheld : P <+: s.log v) : P <+: s'.log v ∨ s'.Lost t (s'.term v + 1) P := by
  cases hs with
  | extend u q e hlead hterm hlog he hconfig =>
    by_cases hv : v = q.node
    · subst hv
      dsimp only
      rw [Function.update_self]
      exact .inl ((hlog ▸ hheld).trans (List.prefix_append _ _))
    · dsimp only
      rw [Function.update_of_ne hv]
      exact .inl hheld
  | adopt w u q X hlead hX hterm log hlog =>
    by_cases hv : v = w
    swap
    · dsimp only
      rw [Function.update_of_ne hv]
      exact .inl hheld
    subst hv
    dsimp only [Lost]
    rw [Function.update_self, Function.update_self]
    rcases hlog with ⟨-, rfl⟩ | ⟨hnot, rfl⟩
    · exact .inl hheld
    by_cases hPX : P <+: log
    · exact .inl hPX
    -- were both parts of one log, the shorter would start the longer
    have hnone : ¬ P <+: q.log := by
      intro hPq
      rcases List.prefix_or_prefix_of_prefix hPq hX with h | h
      · exact hPX h
      · exact hnot (h.trans hheld)
    rcases (ht.trans hterm).lt_or_eq with hlt | rfl
    · exact .inr ⟨u, q, hlt, Nat.lt_succ_self u, hlead,
        fun h => hnone (h.trans (hroot.lead_start hlead))⟩
    · obtain rfl : r = q := Option.some.inj (hr.symm.trans hlead)
      exact absurd hP hnone
  | _ => exact .inl hheld

theorem Acks.step (h : Acks K s) (hvoting : Voting K s) (hroot : Rooted K s)
    (hreigns : Reigns K s) (hs : Step K s s') : Acks K s' := by
  have hg := hs.grows
  refine ⟨?_, ?_, ?_, ?_, ?_⟩
  · intro v t n ha
    rcases hs.acked ha with ha | ⟨rfl, hterm, -⟩
    · exact (h.le ha).trans (hs.term_le v)
    · rw [hterm]
  · intro v t n ha
    rcases hs.acked ha with ha | ⟨rfl, -, -, hlead, -, r, hr, hn, -⟩
    · obtain ⟨r, hr, hn⟩ := h.lead ha
      obtain ⟨r', hr', -, -, -, hlog⟩ := hg.lead hr
      exact ⟨r', hr', hn.trans hlog.length_le⟩
    · exact ⟨r, hlead ▸ hr, hn⟩
  · intro v t n r m ha hr hm
    rcases hs.acked ha with ha | ⟨rfl, -, hlog, hlead, -, q, hq, hn, hheld⟩
    · obtain ⟨q, hq, htake⟩ := h.old hg ha hr
      rw [htake m hm]
      rcases h.log ha hq hm with hheld | hlost
      · exact hs.log hroot hq (h.le ha) (List.take_prefix _ _) hheld
      · exact .inr ((hlost.grows hg).mono (Nat.succ_le_succ (hs.term_le v)))
    · obtain rfl : q = r := Option.some.inj (hq.symm.trans (hlead ▸ hr))
      rw [hlog]
      exact .inl ((List.take_prefix_take_left hm).trans hheld)
  · intro v t n r m u c entries ha hr hm hb htu
    rcases hs.acked ha with ha | ⟨rfl, -, -, -, hballot, -⟩
    · obtain ⟨q, hq, htake⟩ := h.old hg ha hr
      rw [htake m hm]
      rcases hs.ballot hb with hb | ⟨rfl, hterm⟩
      · exact (h.ballot ha hq hm hb htu).imp_right fun hlost => hlost.grows hg
      · exact (h.log ha hq hm).imp_right fun hlost =>
          (hlost.grows hg).mono (Nat.succ_le_succ hterm)
    · rw [hballot] at hb
      exact absurd (hvoting.ballot_le hb) (not_le.mpr htu)
  · intro v t n r u q ha hr hq hv htu
    rcases hs.acked ha with ha | ⟨rfl, -, -, hlead, -⟩
    · obtain ⟨r₀, hr₀, htake⟩ := h.old hg ha hr
      rcases hs.lead hq with ⟨q₀, hq₀, hstart, hvoters⟩ | ⟨hnone, hstood, hballots⟩
      · obtain ⟨entries, hup, hground, hkept⟩ := h.voter ha hr₀ hq₀ (hvoters ▸ hv) htu
        refine ⟨entries, hstart ▸ hup, hground.grows hg, fun m hm => ?_⟩
        rw [htake m hm]
        exact (hkept m hm).imp_right fun hlost => hlost.grows hg
      · obtain ⟨entries, hb⟩ := hballots v hv
        obtain ⟨ys, hys, hup⟩ := hvoting.upToDate hb
        rw [hvoting.stood_unique hys hstood] at hup
        refine ⟨entries, hup, (hroot.ballot_grounded hb).grows hg, fun m hm => ?_⟩
        rw [htake m hm]
        refine (h.ballot ha hr₀ hm hb htu).imp_right fun hlost => ?_
        obtain ⟨w, p, htw, hwu, hp, hnot⟩ := hlost
        -- the term had no leader when the vote was cast
        have hne : w ≠ u := by
          rintro rfl
          rw [hnone] at hp
          exact absurd hp (by simp)
        exact Lost.grows ⟨w, p, htw, by omega, hp, hnot⟩ hg
    · rw [hlead] at hq
      obtain ⟨entries, hb⟩ := hreigns.ballots hq hv
      exact absurd (hvoting.ballot_le hb) (not_le.mpr htu)

theorem Sound.step (h : Sound K s) (hs : Step K s s') : Sound K s' where
  voting := h.voting.step hs
  rooted := h.rooted.step hs
  choices := h.choices.step h.rooted hs
  reigns := h.reigns.step h.choices hs
  acks := h.acks.step h.voting h.rooted h.reigns hs

end Moves

theorem Rooted.term_mono (h : Rooted K s) (hg : s.Grounded K entries) {i j : ℕ} (hij : i ≤ j)
    (hx : entries[i]? = some x) (hy : entries[j]? = some y) : K.term x ≤ K.term y := by
  obtain ⟨r, hr, hpre⟩ := hg j y hy
  refine h.lead_le hr (getElem?_of_isPrefix hpre (i := i) ?_)
  rwa [List.getElem?_take_of_lt (Nat.lt_succ_of_le hij)]

/-- Grounded logs with an entry of one term at one place agree up to there. -/
theorem Grounded.take_eq (hx : s.Grounded K xs) (hy : s.Grounded K ys) (hxk : xs[k]? = some x)
    (hyk : ys[k]? = some y) (hterm : K.term x = K.term y) : xs.take (k + 1) = ys.take (k + 1) := by
  obtain ⟨r, hr, hxr⟩ := hx k x hxk
  obtain ⟨q, hq, hyq⟩ := hy k y hyk
  rw [hterm] at hr
  obtain rfl : r = q := Option.some.inj (hr.symm.trans hq)
  have hxlen := (List.getElem?_eq_some_iff.mp hxk).1
  have hylen := (List.getElem?_eq_some_iff.mp hyk).1
  refine (List.prefix_of_prefix_length_le hxr hyq ?_).eq_of_length ?_ <;>
  · rw [List.length_take, List.length_take]
    omega

theorem lastTerm_of_getLast? (h : entries.getLast? = some e) : K.lastTerm entries = K.term e := by
  rw [Scheme.lastTerm, h, Option.map_some, Option.getD_some]

theorem Rooted.of_last (h : Rooted K s) (hg : s.Grounded K entries)
    (he : entries.getLast? = some e) :
    ∃ r, s.lead (K.term e) = some r ∧ r.start <+: entries ∧ entries <+: r.log := by
  rw [List.getLast?_eq_getElem?] at he
  obtain ⟨r, hr, hpre⟩ := hg _ e he
  have hlt := (List.getElem?_eq_some_iff.mp he).1
  rw [List.take_of_length_le (by omega)] at hpre
  refine ⟨r, hr, List.prefix_of_prefix_length_le (h.lead_start hr) hpre ?_, hpre⟩
  by_contra hshort
  exact (h.start_lt hr (i := entries.length - 1) (by omega)
    (getElem?_of_isPrefix hpre he)).ne rfl

theorem Rooted.carries (h : Rooted K s) {u : ℕ} {candidate voter : List E} (hr : s.lead t = some r)
    (hstart : r.start.length < n) (hn : n ≤ r.log.length) (hc : s.Grounded K candidate)
    (hlt : ∀ e ∈ candidate, K.term e < u) (hv : s.Grounded K voter)
    (hup : K.UpToDate candidate voter) (hheld : r.log.take n <+: voter)
    (hbetween : ∀ w q, t < w → w < u → s.lead w = some q → r.log.take n <+: q.start) :
    r.log.take n <+: candidate := by
  have hlen : (r.log.take n).length = n := List.length_take_of_le hn
  obtain ⟨y, hy⟩ : ∃ y, voter.getLast? = some y := by
    refine ⟨_, List.getLast?_eq_some_getLast ?_⟩
    rintro rfl
    have := hheld.length_le
    rw [hlen, List.length_nil] at this
    omega
  -- the voter's log ends in the term of the choice or later
  have hty : t ≤ K.term y := by
    obtain ⟨x, hx⟩ : ∃ x, r.log[n - 1]? = some x :=
      ⟨_, List.getElem?_eq_getElem (by omega)⟩
    have hterm : K.term x = t := h.lead_own hr (by omega) hx
    have hxv : voter[n - 1]? = some x := by
      refine getElem?_of_isPrefix hheld ?_
      rwa [List.getElem?_take_of_lt (by omega)]
    rw [List.getLast?_eq_getElem?] at hy
    have hle := hheld.length_le
    rw [hlen] at hle
    exact hterm ▸ h.term_mono hv (by omega) hxv hy
  obtain ⟨x, hx⟩ : ∃ x, candidate.getLast? = some x := by
    refine ⟨_, List.getLast?_eq_some_getLast ?_⟩
    rintro rfl
    rcases hup with hup | ⟨-, hup⟩
    · simp [Scheme.lastTerm] at hup
    · have := hheld.length_le
      rw [hlen] at this
      rw [List.length_nil] at hup
      omega
  obtain ⟨q, hq, hqstart, hqlog⟩ := h.of_last hc hx
  rw [Scheme.UpToDate, lastTerm_of_getLast? hx, lastTerm_of_getLast? hy] at hup
  have htx : t ≤ K.term x := by omega
  rcases htx.lt_or_eq with hlater | hsame
  · exact (hbetween _ q hlater (hlt x (List.mem_of_getLast? hx)) hq).trans hqstart
  · rw [← hsame] at hq
    obtain rfl : r = q := Option.some.inj (hr.symm.trans hq)
    refine List.prefix_of_prefix_length_le (List.take_prefix _ _) hqlog ?_
    rw [hlen]
    have hle := hheld.length_le
    rw [hlen] at hle
    omega

def Anchored (K : Scheme N E C) (xs ys : List E) : Prop :=
  ∀ k e c, xs[k]? = some e → K.config e = some c → K.next (K.cfg (xs.take k)) c ∧
    ∃ P, P <+: xs.take k ∧ P <+: ys ∧ K.Plain ((xs.take k).drop P.length)

theorem exists_common_prefix (xs ys : List E) :
    ∃ D, D <+: xs ∧ D <+: ys ∧ ∀ P, P <+: xs → P <+: ys → P <+: D := by
  classical
  induction xs generalizing ys with
  | nil => exact ⟨[], List.prefix_rfl, List.nil_prefix, fun P hP _ => hP⟩
  | cons x xs ih =>
    cases ys with
    | nil => exact ⟨[], List.nil_prefix, List.prefix_rfl, fun P _ hP => hP⟩
    | cons y ys =>
      by_cases hxy : x = y
      · subst hxy
        obtain ⟨D, hDx, hDy, hD⟩ := ih ys
        refine ⟨x :: D, List.cons_prefix_cons.mpr ⟨rfl, hDx⟩, List.cons_prefix_cons.mpr ⟨rfl, hDy⟩,
          fun P hPx hPy => ?_⟩
        cases P with
        | nil => exact List.nil_prefix
        | cons p P =>
          rw [List.cons_prefix_cons] at hPx hPy ⊢
          exact ⟨hPx.1, hD P hPx.2 hPy.2⟩
      · refine ⟨[], List.nil_prefix, List.nil_prefix, fun P hPx hPy => ?_⟩
        cases P with
        | nil => exact List.prefix_rfl
        | cons p P =>
          rw [List.cons_prefix_cons] at hPx hPy
          exact absurd (hPx.1.symm.trans hPy.1) hxy

theorem Anchored.cfg {D : List E} (h : Anchored K xs ys) (hx : D <+: xs)
    (hD : ∀ P, P <+: xs → P <+: ys → P <+: D) :
    K.cfg xs = K.cfg D ∨ K.next (K.cfg D) (K.cfg xs) := by
  obtain ⟨zs, rfl⟩ := hx
  rcases Scheme.plain_or_last (K := K) zs with hplain | ⟨us, e, vs, c, rfl, he, hvs⟩
  · exact .inl (Scheme.cfg_append_plain hplain)
  · right
    have hsplit : D ++ (us ++ e :: vs) = (D ++ us) ++ e :: vs := by simp
    rw [hsplit] at h hD ⊢
    have hget : ((D ++ us) ++ e :: vs)[(D ++ us).length]? = some e := by simp
    obtain ⟨hnext, P, hP, hPy, hplain⟩ := h _ e c hget he
    rw [List.take_left] at hnext hP hplain
    have hPD : P <+: D := hD P (hP.trans (List.prefix_append _ _)) hPy
    have hus : K.Plain us := by
      intro x hx
      refine hplain x ?_
      rw [List.drop_append_of_le_length hPD.length_le]
      exact List.mem_append_right _ hx
    rw [Scheme.cfg_append_plain hus] at hnext
    rwa [Scheme.cfg_append_config he hvs]

/-- **Deciding sets meet** when each log's configurations are anchored in the other. -/
theorem Anchored.meet {Q R : Set N} (hxy : Anchored K xs ys) (hyx : Anchored K ys xs)
    (hQ : K.decides (K.cfg xs) Q) (hR : K.decides (K.cfg ys) R) : (Q ∩ R).Nonempty := by
  obtain ⟨D, hx, hy, hD⟩ := exists_common_prefix xs ys
  rcases hxy.cfg hx hD with hcx | hcx <;>
    rcases hyx.cfg hy (fun P hPy hPx => hD P hPx hPy) with hcy | hcy
  · rw [hcx] at hQ
    rw [hcy] at hR
    exact K.meet_same hQ hR
  · rw [hcx] at hQ
    exact K.meet_next hcy hQ hR
  · rw [hcy] at hR
    rw [Set.inter_comm]
    exact K.meet_next hcx hR hQ
  · exact K.meet_fork hcx hcy hQ hR

theorem Sound.anchored (h : Sound K s) (hg : s.Grounded K entries) {ys : List E}
    (hfixed : ∀ {k e P}, entries[k]? = some e → P <+: entries.take k →
      s.FixedBefore (K.term e) k P → P <+: ys) : Anchored K entries ys := by
  intro k e c he hc
  obtain ⟨r, hr, hpre⟩ := hg k e he
  have hlog : r.log[k]? = some e := by
    refine getElem?_of_isPrefix hpre ?_
    rwa [List.getElem?_take_of_lt (Nat.lt_succ_self k)]
  have hown : r.start.length ≤ k :=
    not_lt.mp fun hlt => (h.rooted.start_lt hr hlt hlog).ne rfl
  have htake : r.log.take k = entries.take k := by
    have hlt := (List.getElem?_eq_some_iff.mp he).1
    rw [take_eq_of_isPrefix hpre (by rw [List.length_take]; omega), List.take_take,
      min_eq_left (Nat.le_succ k)]
  obtain ⟨hnext, P, hP, hpre, hplain⟩ := h.reigns.config hr hown hlog hc
  rw [htake] at hnext hpre hplain
  exact ⟨hnext, P, hpre, hfixed he hpre hP, hplain⟩

/-- A log with the votes of a deciding set for the term `u`: each voter's log had all the voter had
acknowledged, leaders before `b` apart. -/
structure Winner (K : Scheme N E C) (s : State N E) (u b : ℕ) (start : List E) (Q : Set N) :
    Prop where
  grounded : s.Grounded K start
  lt : ∀ e ∈ start, K.term e < u
  decides : K.decides (K.cfg start) Q
  voter : ∀ {v t n r}, v ∈ Q → s.acked v t n → s.lead t = some r → t < u →
    ∃ entries, K.UpToDate start entries ∧ s.Grounded K entries ∧
      ∀ m ≤ n, r.log.take m <+: entries ∨ s.Lost t b (r.log.take m)

section Winners

variable {u b : ℕ} {start : List E} {Q : Set N}

/-- Up to term `b`, leaders start with all chosen before them. -/
def CompleteBelow (s : State N E) (b : ℕ) : Prop :=
  ∀ t n len r w q, s.chosen t n len → s.lead t = some r → t < w → w < b →
    s.lead w = some q → r.log.take n <+: q.start

theorem Winner.anchored (h : Sound K s) (hw : Winner K s u b start Q) (hub : u ≤ b)
    (hprior : s.CompleteBelow b) {t n len : ℕ} {r : Reign N E} (hchosen : s.chosen t n len)
    (hr : s.lead t = some r) (htu : t < u) (hnot : ¬ r.log.take n <+: start) :
    Anchored K start (r.log.take len) := by
  obtain ⟨r', -, hr', hstart, hn, hlen, -, -⟩ := h.choices t n len hchosen
  obtain rfl : r = r' := Option.some.inj (hr.symm.trans hr')
  refine h.anchored hw.grounded fun {k e P} he hP hfixed => ?_
  rcases hfixed with rfl | ⟨w, m, len', q, hwe, hm, hq, hPq⟩
  · exact List.nil_prefix
  have heu := hw.lt e (List.mem_of_getElem? he)
  have hwu : w < u := by omega
  have hPstart : P <+: start := hP.trans (List.take_prefix _ _)
  have hPlog : P <+: q.log := hPq.trans (List.take_prefix _ _)
  rcases lt_trichotomy w t with hlt | rfl | hgt
  · -- chosen before the term of the choice: its leader started with it
    refine (hPq.trans (hprior w m len' q t r hm hq hlt (by omega) hr)).trans ?_
    refine List.prefix_of_prefix_length_le (h.rooted.lead_start hr) (List.take_prefix _ _) ?_
    rw [List.length_take]
    omega
  · obtain rfl : r = q := Option.some.inj (hr.symm.trans hq)
    rcases le_or_gt P.length len with hle | hgt
    · exact List.prefix_take_iff.mpr ⟨hPlog, hle⟩
    · refine absurd (List.IsPrefix.trans ?_ hPstart) hnot
      refine List.prefix_of_prefix_length_le (List.take_prefix _ _) hPlog ?_
      rw [List.length_take]
      omega
  · -- chosen after it: that leader started with the choice
    have hchoice : r.log.take n <+: q.log :=
      (hprior t n len r w q hchosen hr hgt (by omega) hq).trans (h.rooted.lead_start hq)
    rcases List.prefix_or_prefix_of_prefix hPlog hchoice with hPc | hcP
    · exact hPc.trans (List.take_prefix_take_left hn)
    · exact absurd (hcP.trans hPstart) hnot

/-- A winner has what was chosen in earlier terms, by induction on the choice's term and the length
of its log. -/
theorem Winner.complete (h : Sound K s) (hw : Winner K s u b start Q) (hub : u ≤ b)
    (hprior : s.CompleteBelow b) {t n len : ℕ} {r : Reign N E} (hchosen : s.chosen t n len)
    (hr : s.lead t = some r) (htu : t < u) : r.log.take n <+: start := by
  induction t using Nat.strong_induction_on generalizing n len r with
  | _ t iht =>
    induction len using Nat.strong_induction_on generalizing n with
    | _ len ihlen =>
      by_contra hnot
      obtain ⟨r', R, hr', hstart, hn, hlen, hR, hacked⟩ := h.choices t n len hchosen
      obtain rfl : r = r' := Option.some.inj (hr.symm.trans hr')
      have hback := hw.anchored h hub hprior hchosen hr htu hnot
      have hforth : Anchored K (r.log.take len) start := by
        have hg := (h.rooted.lead_grounded hr).of_isPrefix (List.take_prefix len r.log)
        refine h.anchored hg fun {k e P} he _ hfixed => ?_
        rcases hfixed with rfl | ⟨w, m, len', q, hwe, hm, hq, hPq⟩
        · exact List.nil_prefix
        have het : K.term e ≤ t :=
          h.rooted.lead_le hr (getElem?_of_isPrefix (List.take_prefix _ _) he)
        have hk := (List.getElem?_eq_some_iff.mp he).1
        rw [List.length_take] at hk
        rcases (show w < t ∨ w = t ∧ len' < len by omega) with hlt | ⟨rfl, hlt⟩
        · exact hPq.trans (iht w hlt hm hq (hlt.trans htu))
        · obtain rfl : r = q := Option.some.inj (hr.symm.trans hq)
          exact hPq.trans (ihlen len' hlt hm)
      obtain ⟨v, hvR, hvQ⟩ := hforth.meet hback hR hw.decides
      obtain ⟨m, hnm, ha⟩ := hacked v hvR
      obtain ⟨entries, hup, hground, hkept⟩ := hw.voter hvQ ha hr htu
      rcases hkept n hnm with hheld | ⟨w, q, htw, hwb, hq, hlost⟩
      · exact hnot (h.rooted.carries hr hstart (hn.trans hlen) hw.grounded hw.lt hground hup hheld
          fun w q htw hwu hq => hprior t n len r w q hchosen hr htw (by omega) hq)
      · exact hlost (hprior t n len r w q hchosen hr htw hwb hq)

end Winners

/-- **Leader completeness**: a leader starts with all chosen in earlier terms. -/
theorem Sound.complete (h : Sound K s) {len : ℕ} (hchosen : s.chosen t n len)
    (hr : s.lead t = some r) (hq : s.lead u = some q) (htu : t < u) : r.log.take n <+: q.start := by
  induction u using Nat.strong_induction_on generalizing t n len r q with
  | _ u ih =>
    have hw : Winner K s u u q.start q.voters :=
      ⟨h.rooted.stood_grounded (h.rooted.lead_stood hq),
        fun e he => h.rooted.stood_lt (h.rooted.lead_stood hq) he, h.reigns.decides hq,
        fun hv ha hr htu => h.acks.voter ha hr hq hv htu⟩
    exact hw.complete h le_rfl
      (fun t n len r w q hchosen hr htw hwu hq => ih w hwu hchosen hr hq htw) hchosen hr htu

/-- The candidate `c` has the votes to lead term `u`, whether or not it came to lead it. -/
structure Won (K : Scheme N E C) (s : State N E) (u : ℕ) (c : N) (entries : List E) (Q : Set N) :
    Prop where
  stood : s.stood u c entries
  decides : K.decides (K.cfg entries) Q
  ballots : ∀ v ∈ Q, ∃ ys, s.ballot v u c ys

section Elections

variable {c d : N} {Q Q' : Set N} {entries' : List E}

theorem Won.winner (hw : Won K s u c entries Q) (h : Sound K s) :
    Winner K s u (u + 1) entries Q := by
  refine ⟨h.rooted.stood_grounded hw.stood, fun e he => h.rooted.stood_lt hw.stood he, hw.decides,
    ?_⟩
  intro v t n q hv ha hq htu
  obtain ⟨ys, hb⟩ := hw.ballots v hv
  obtain ⟨zs, hzs, hup⟩ := h.voting.upToDate hb
  rw [h.voting.stood_unique hzs hw.stood] at hup
  exact ⟨ys, hup, h.rooted.ballot_grounded hb, fun m hm => h.acks.ballot ha hq hm hb htu⟩

theorem Won.complete (hw : Won K s u c entries Q) (h : Sound K s) {e : E} {k : ℕ} {P : List E}
    (he : K.term e < u) (hP : s.FixedBefore (K.term e) k P) : P <+: entries := by
  rcases hP with rfl | ⟨w, m, len, q, hwe, hm, hq, hPq⟩
  · exact List.nil_prefix
  · refine hPq.trans ((hw.winner h).complete h (Nat.le_succ u) ?_ hm hq (by omega))
    exact fun t n len r w q hchosen hr htw _ hq => h.complete hchosen hr hq htw

/-- **One winner a term.** -/
theorem Won.unique (hw : Won K s u c entries Q) (hw' : Won K s u d entries' Q') (h : Sound K s) :
    c = d := by
  have hforth : Anchored K entries entries' :=
    h.anchored (h.rooted.stood_grounded hw.stood) fun he _ hP =>
      hw'.complete h (h.rooted.stood_lt hw.stood (List.mem_of_getElem? he)) hP
  have hback : Anchored K entries' entries :=
    h.anchored (h.rooted.stood_grounded hw'.stood) fun he _ hP =>
      hw.complete h (h.rooted.stood_lt hw'.stood (List.mem_of_getElem? he)) hP
  obtain ⟨v, hv, hv'⟩ := hforth.meet hback hw.decides hw'.decides
  obtain ⟨xs, hx⟩ := hw.ballots v hv
  obtain ⟨ys, hy⟩ := hw'.ballots v hv'
  exact h.voting.ballot_unique hx hy

theorem Sound.won (h : Sound K s) (hr : s.lead u = some r) : Won K s u r.node r.start r.voters :=
  ⟨h.rooted.lead_stood hr, h.reigns.decides hr, fun _ hv => h.reigns.ballots hr hv⟩

theorem Won.grows (hw : Won K s u c entries Q) (hg : Grows s s') : Won K s' u c entries Q :=
  ⟨hg.stood hw.stood, hw.decides, fun v hv => (hw.ballots v hv).imp fun _ => hg.ballot⟩

end Elections

/-- **One leader a term.** -/
theorem Sound.sole (h : Sound K s) {u : ℕ} {c : N} {Q : Set N} (hstood : s.stood u c entries)
    (hQ : K.decides (K.cfg entries) Q) (hballots : ∀ v ∈ Q, ∃ ys, s.ballot v u c ys)
    (hr : s.lead u = some r) : r.node = c :=
  (h.won hr).unique ⟨hstood, hQ, hballots⟩ h

theorem Sound.fixed_lead (h : Sound K s) (hP : s.Fixed t P) (htu : t ≤ u)
    (hr : s.lead u = some r) : P <+: r.log := by
  rcases hP with rfl | ⟨w, n, len, q, hw, hchosen, hq, hPq⟩
  · exact List.nil_prefix
  rcases (hw.trans htu).lt_or_eq with hlt | rfl
  · exact (hPq.trans (h.complete hchosen hq hr hlt)).trans (h.rooted.lead_start hr)
  · obtain rfl : r = q := Option.some.inj (hr.symm.trans hq)
    exact hPq.trans (List.take_prefix _ _)

end State

end Slates.Consensus
