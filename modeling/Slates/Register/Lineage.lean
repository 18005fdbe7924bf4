import Slates.Register.Copysets
import Slates.Register.Retirements

/-!
Who an object of a retired host belongs to. The chronicle of a run keeps every takeover and
confirmation. A lineage that reads as settled was confirmed along the object's line of successors,
and one still owed names who owes it (`lineage_sound_run`), unless nobody was left to take the
object over.
-/

open Std (ExtTreeMap)
open Relation (ReflTransGen)

namespace Slates.Register

/-- The host the object ranked first then, and the takeovers the retired host had not confirmed, by
host and version. -/
structure Takeover where
  departed : HostId
  version : Nat
  first : Option HostId
  carried : List (HostId × Nat)
  deriving DecidableEq

structure Chronicle where
  takeovers : List Takeover
  confirmations : List (HostId × Nat × HostId)

namespace Chronicle

/-- `s` is in the object's line from `t`, in the takeover `u`: the host ranked first when `t`'s host
retired, then each successor's successor. -/
inductive InLine (c : Chronicle) : Takeover → HostId → Takeover → Prop
  | first {t : Takeover} {s : HostId} : t.first = some s → InLine c t s t
  | next {t u v : Takeover} {s s' : HostId} : t.first = some s → u ∈ c.takeovers →
      u.departed = s → (t.departed, t.version) ∈ u.carried → InLine c u s' v → InLine c t s' v

/-- Some host in the line confirmed the takeover that carried the object to it. -/
def Confirmed (c : Chronicle) (t : Takeover) : Prop :=
  ∃ s u, c.InLine t s u ∧ (u.departed, u.version, s) ∈ c.confirmations

/-- It is a member, has not confirmed `u` and has not retired since. -/
structure Owes (c : Chronicle) (config : RegionalConfiguration) (s : HostId) (u : Takeover) :
    Prop where
  member : s ∈ config.members
  unconfirmed : (u.departed, u.version, s) ∉ c.confirmations
  last : ∀ w ∈ c.takeovers, w.departed = s → (u.departed, u.version) ∉ w.carried

/-- Nothing is forgotten. -/
structure Extends (c c' : Chronicle) : Prop where
  takeovers : ∀ t ∈ c.takeovers, t ∈ c'.takeovers
  confirmations : ∀ e ∈ c.confirmations, e ∈ c'.confirmations

variable {c c' : Chronicle} {t u : Takeover} {s : HostId}

theorem Extends.refl (c : Chronicle) : c.Extends c := ⟨fun _ h => h, fun _ h => h⟩

theorem InLine.mono (h : c.InLine t s u) (hext : c.Extends c') : c'.InLine t s u := by
  induction h with
  | first hfirst => exact .first hfirst
  | next hfirst hu hdeparted hcarried _ ih =>
    exact .next hfirst (hext.takeovers _ hu) hdeparted hcarried ih

theorem Confirmed.mono (h : c.Confirmed t) (hext : c.Extends c') : c'.Confirmed t := by
  obtain ⟨s, u, hline, hin⟩ := h
  exact ⟨s, u, hline.mono hext, hext.confirmations _ hin⟩

theorem Confirmed.of_first (hfirst : t.first = some s)
    (hin : (t.departed, t.version, s) ∈ c.confirmations) : c.Confirmed t :=
  ⟨s, t, .first hfirst, hin⟩

theorem Confirmed.of_carried (hfirst : t.first = some s) (hu : u ∈ c.takeovers)
    (hdeparted : u.departed = s) (hcarried : (t.departed, t.version) ∈ u.carried)
    (h : c.Confirmed u) : c.Confirmed t := by
  obtain ⟨s', v, hline, hin⟩ := h
  exact ⟨s', v, .next hfirst hu hdeparted hcarried hline, hin⟩

end Chronicle

namespace RegionalConfiguration

/-! ## The chronicle of a run -/

def takeoverOf (config : RegionalConfiguration) (object : ObjectId) (member : HostId)
    (scatter : UInt64) (version : Nat) : Takeover where
  departed := member
  version
  first := (config.leave member scatter version).successor member object
  carried := (config.unconfirmedBy member).map fun d =>
    (d, (config.retired[d]?.map (·.version)).getD 0)

def noteRetire (config : RegionalConfiguration) (object : ObjectId) (c : Chronicle)
    (member : HostId) (scatter : UInt64) : Chronicle :=
  if member ∈ config.members then
    (checkedSucc config.version).elim c fun version =>
      { c with takeovers := c.takeovers ++ [config.takeoverOf object member scatter version] }
  else c

def note (config : RegionalConfiguration) (object : ObjectId) (c : Chronicle) : Change → Chronicle
  | .retire member scatter => config.noteRetire object c member scatter
  | .takeOver dead scatter =>
    if (config.takeOver dead scatter).isSome then config.noteRetire object c dead scatter else c
  | .confirm departed successor =>
    if (config.confirm departed successor).isSome then
      { c with confirmations := c.confirmations ++
          [(departed, (config.retired[departed]?.map (·.version)).getD 0, successor)] }
    else c
  | _ => c

def run (config : RegionalConfiguration) (changes : List Change) : RegionalConfiguration :=
  changes.foldl apply config

def chronicle (object : ObjectId) : RegionalConfiguration → Chronicle → List Change → Chronicle
  | _, c, [] => c
  | config, c, change :: changes =>
    chronicle object (config.apply change) (config.note object c change) changes

def RunMeets (C : RegionalConfiguration → Change → Prop) :
    RegionalConfiguration → List Change → Prop
  | _, [] => True
  | config, change :: changes => C config change ∧ RunMeets C (config.apply change) changes

/-- The retirement drops no other past the bound. -/
def WithinBound (config : RegionalConfiguration) (member : HostId) (scatter : UInt64) : Prop :=
  member ∈ config.members → ∀ version, checkedSucc config.version = some version →
    (config.leave member scatter version).pruneRetirements.retired.size ≤
      (config.leave member scatter version).pruneRetirements.retirementBound

/-- Another member is in a cohort the object is recovered through. -/
def Recoverable (config : RegionalConfiguration) (object : ObjectId) (member : HostId) : Prop :=
  member ∈ config.members → ∃ host ∈ config.members, host ≠ member ∧
    ((∃ settled, config.settledOf member = some settled ∧
        host ∈ settled.cohort member object config.quorum) ∨
      ∃ d ∈ config.unconfirmedBy member, host ∈ (config.recoveryCohorts d object).flatten)

/-- Retirements keep within the bound and leave somebody to take over. -/
def KeepsLine (object : ObjectId) (config : RegionalConfiguration) : Change → Prop
  | .retire member scatter =>
    config.WithinBound member scatter ∧ config.Recoverable object member
  | .takeOver dead scatter => config.WithinBound dead scatter ∧ config.Recoverable object dead
  | _ => True

/-! ## What a run keeps -/

/-- `t` is the kept retirement of its host. -/
def Keeps (config : RegionalConfiguration) (t : Takeover) : Prop :=
  ∃ r, config.retired[t.departed]? = some r ∧ r.version = t.version

structure Noted (config : RegionalConfiguration) (object : ObjectId) (c : Chronicle) (d : HostId)
    (r : Retirement) (t : Takeover) : Prop where
  mem : t ∈ c.takeovers
  departed : t.departed = d
  version : t.version = r.version
  first : t.first = config.successor d object
  carries : ∀ x ∈ r.unconfirmed, ∃ rx, config.retired[x]? = some rx ∧ (x, rx.version) ∈ t.carried
  carried : ∀ x n, (x, n) ∈ t.carried → x ∈ r.unconfirmed ∧
    ∃ rx, config.retired[x]? = some rx ∧ rx.version = n

/-- Each survivor is a member, has confirmed or carries the takeover. -/
structure Kept (config : RegionalConfiguration) (object : ObjectId) (c : Chronicle) (d : HostId)
    (r : Retirement) : Prop where
  noted : ∃ t, config.Noted object c d r t
  version : r.version ≤ config.version
  confirmed : ∀ s ∈ r.confirmed, (d, r.version, s) ∈ c.confirmations
  survivors : ∀ s ∈ r.survivors, s ∈ config.members ∨ s ∈ r.confirmed ∨
    ∃ t ∈ c.takeovers, t.departed = s ∧ (d, r.version) ∈ t.carried
  among : ∀ s ∈ r.survivors, s ∈ config.recoveryHosts d
  later : ∀ s ∈ r.survivors, ∀ rs, config.retired[s]? = some rs → r.version < rs.version

/-- The configuration and the chronicle agree. -/
structure Traced (object : ObjectId) (config : RegionalConfiguration) (c : Chronicle) : Prop where
  apart : ∀ h ∈ config.members, h ∉ config.retired
  neighbours : ∀ h ∈ config.members, h ∈ config.neighbourhoods
  kept : ∀ d r, config.retired[d]? = some r → config.Kept object c d r
  dropped : ∀ t ∈ c.takeovers, ¬ config.Keeps t → c.Confirmed t
  first : ∀ t ∈ c.takeovers, ∃ s, t.first = some s
  versions : ∀ t ∈ c.takeovers, t.version ≤ config.version
  unique : ∀ t ∈ c.takeovers, ∀ u ∈ c.takeovers, t.version = u.version → t = u

structure LineageSound (object : ObjectId) (config : RegionalConfiguration) (c : Chronicle) :
    Prop where
  settled : ∀ t ∈ c.takeovers, config.lineage t.departed object = .settled → c.Confirmed t
  owed : ∀ t ∈ c.takeovers, ∀ s u, c.InLine t s u → c.Owes config s u →
    config.lineage t.departed object = .successor u.departed s

/-! ## The walk -/

variable {r : Retirement}

section Walk

variable {object : ObjectId} {config : RegionalConfiguration} {c : Chronicle} {t : Takeover}

def keptFrom (config : RegionalConfiguration) (version : Nat) : List (HostId × Retirement) :=
  config.retired.toList.filter fun e => version ≤ e.2.version

theorem length_keptFrom_le (version : Nat) :
    (config.keptFrom version).length ≤ config.retired.size := by
  rw [← ExtTreeMap.length_toList]
  exact List.length_filter_le ..

theorem mem_keptFrom {d : HostId} (hr : config.retired[d]? = some r) :
    (d, r) ∈ config.keptFrom r.version :=
  List.mem_filter.mpr ⟨ExtTreeMap.mem_toList_iff_getElem?_eq_some.mpr hr, by simp⟩

theorem length_keptFrom_lt {d : HostId} (hr : config.retired[d]? = some r)
    {version : Nat} (hlt : r.version < version) :
    (config.keptFrom version).length < (config.keptFrom r.version).length := by
  have hsub : config.keptFrom version =
      (config.keptFrom r.version).filter fun e => version ≤ e.2.version := by
    rw [keptFrom, keptFrom, List.filter_filter]
    refine List.filter_congr fun e _ => ?_
    by_cases he : version ≤ e.2.version
    · simp [he, hlt.le.trans he]
    · simp [he]
  rw [hsub, List.length_filter_lt_length_iff_exists]
  exact ⟨(d, r), mem_keptFrom hr, by simpa using hlt⟩

theorem Traced.noted (h : Traced object config c) (ht : t ∈ c.takeovers)
    (hr : config.retired[t.departed]? = some r) (hv : r.version = t.version) :
    config.Noted object c t.departed r t := by
  obtain ⟨u, hu⟩ := (h.kept _ r hr).noted
  rw [← h.unique u hu.mem t ht (hu.version.trans hv)] at *
  exact hu

theorem Traced.keeps_of_carried (h : Traced object config c) {u : Takeover} (hu : u ∈ c.takeovers)
    (hkeeps : config.Keeps u) (hcarried : (t.departed, t.version) ∈ u.carried) :
    config.Keeps t := by
  obtain ⟨r, hr, hv⟩ := hkeeps
  obtain ⟨-, rx, hrx, hvx⟩ := (h.noted hu hr hv).carried _ _ hcarried
  exact ⟨rx, hrx, hvx⟩

theorem Traced.first_cases (h : Traced object config c) (ht : t ∈ c.takeovers)
    (hr : config.retired[t.departed]? = some r) (hv : r.version = t.version) {s : HostId}
    (hs : t.first = some s) :
    s ∈ config.members ∨ c.Confirmed t ∨
      ∃ u ∈ c.takeovers, u.departed = s ∧ (t.departed, t.version) ∈ u.carried := by
  have hfirst := (h.noted ht hr hv).first
  have hsurvivor := successor_mem hr (hfirst.symm.trans hs)
  rcases (h.kept _ r hr).survivors s hsurvivor with hm | hconfirmed | ⟨u, hu, hd, hcarried⟩
  · exact .inl hm
  · refine .inr (.inl (.of_first hs ?_))
    rw [← hv]
    exact (h.kept _ r hr).confirmed s hconfirmed
  · exact .inr (.inr ⟨u, hu, hd, hv ▸ hcarried⟩)

theorem lineageWithin_of_kept {d s : HostId} {steps : Nat} (hd : d ∈ config.retired)
    (hs : config.successor d object = some s) :
    config.lineageWithin object (steps + 1) d =
      if s ∈ config.retired then config.lineageWithin object steps s
      else if s ∈ config.members then .successor d s else .settled := by
  rw [lineageWithin, if_neg (not_not.mpr hd), hs]

theorem Traced.confirmed_of_settled (h : Traced object config c) {steps : Nat}
    (ht : t ∈ c.takeovers)
    (hsteps : config.Keeps t → (config.keptFrom t.version).length ≤ steps)
    (hsettled : config.lineageWithin object steps t.departed = .settled) : c.Confirmed t := by
  induction steps generalizing t with
  | zero =>
    refine h.dropped t ht fun hkeeps => ?_
    obtain ⟨r, hr, hv⟩ := hkeeps
    have hpos := List.length_pos_of_mem (mem_keptFrom hr)
    have hle := hsteps ⟨r, hr, hv⟩
    rw [hv] at hpos
    omega
  | succ steps ih =>
    cases hr : config.retired[t.departed]? with
    | none =>
      refine h.dropped t ht fun ⟨r, hr', _⟩ => ?_
      rw [hr] at hr'
      cases hr'
    | some r =>
      by_cases hv : r.version = t.version
      swap
      · -- the host has retired again since
        refine h.dropped t ht fun ⟨r', hr', hv'⟩ => hv ?_
        cases hr.symm.trans hr'
        exact hv'
      obtain ⟨s, hs⟩ := h.first t ht
      have hsucc := (h.noted ht hr hv).first.symm.trans hs
      rw [lineageWithin_of_kept (mem_of_getElem? hr) hsucc] at hsettled
      rcases h.first_cases ht hr hv hs with hm | hconfirmed | ⟨u, hu, hd, hcarried⟩
      · rw [if_neg (h.apart s hm), if_pos hm] at hsettled
        cases hsettled
      · exact hconfirmed
      · refine .of_carried hs hu hd hcarried ?_
        by_cases hkeeps : config.Keeps u
        · -- the walk goes on through `u`
          obtain ⟨ru, hru, hvu⟩ := hkeeps
          have hlater := (h.kept _ r hr).later s (successor_mem hr hsucc) ru (hd ▸ hru)
          have hlt := length_keptFrom_lt hr hlater
          have hle := hsteps ⟨r, hr, hv⟩
          rw [if_pos (hd ▸ mem_of_getElem? hru), ← hd] at hsettled
          refine ih hu (fun _ => ?_) hsettled
          rw [← hvu]
          rw [hv] at hlt
          omega
        · exact h.dropped u hu hkeeps

theorem Traced.lineageWithin_of_owes (h : Traced object config c) {s : HostId} {u : Takeover}
    (ht : t ∈ c.takeovers) (hline : c.InLine t s u) (howes : c.Owes config s u) :
    config.Keeps t ∧ ∀ steps, (config.keptFrom t.version).length ≤ steps →
      config.lineageWithin object steps t.departed = .successor u.departed s := by
  induction hline with
  | @first t s hfirst =>
    have hkeeps : config.Keeps t := by
      by_contra hnot
      obtain ⟨s', v, hline, hin⟩ := h.dropped t ht hnot
      cases hline with
      | first hfirst' =>
        rw [hfirst] at hfirst'
        cases hfirst'
        exact howes.unconfirmed hin
      | next hfirst' hu hd hcarried _ =>
        rw [hfirst] at hfirst'
        cases hfirst'
        exact howes.last _ hu hd hcarried
    refine ⟨hkeeps, fun steps hsteps => ?_⟩
    obtain ⟨r, hr, hv⟩ := hkeeps
    have hpos := List.length_pos_of_mem (mem_keptFrom hr)
    rw [hv] at hpos
    obtain ⟨steps, rfl⟩ := Nat.exists_eq_succ_of_ne_zero (show steps ≠ 0 by omega)
    rw [lineageWithin_of_kept (mem_of_getElem? hr) ((h.noted ht hr hv).first.symm.trans hfirst),
      if_neg (h.apart s howes.member), if_pos howes.member]
  | @next t u v s s' hfirst hu hd hcarried _ ih =>
    obtain ⟨hkeeps, hwalk⟩ := ih hu howes
    have hkeepst := h.keeps_of_carried hu hkeeps hcarried
    refine ⟨hkeepst, fun steps hsteps => ?_⟩
    obtain ⟨r, hr, hv⟩ := hkeepst
    obtain ⟨ru, hru, hvu⟩ := hkeeps
    have hsucc := (h.noted ht hr hv).first.symm.trans hfirst
    have hlater := (h.kept _ r hr).later s (successor_mem hr hsucc) ru (hd ▸ hru)
    have hlt := length_keptFrom_lt hr hlater
    rw [hv, hvu] at hlt
    obtain ⟨steps, rfl⟩ := Nat.exists_eq_succ_of_ne_zero (show steps ≠ 0 by omega)
    rw [lineageWithin_of_kept (mem_of_getElem? hr) hsucc, if_pos (hd ▸ mem_of_getElem? hru), ← hd]
    exact hwalk steps (by omega)

theorem Traced.lineageSound (h : Traced object config c) : LineageSound object config c where
  settled _ ht hsettled :=
    h.confirmed_of_settled ht (fun _ => (length_keptFrom_le _).trans (Nat.le_succ _)) hsettled
  owed _ ht _ _ hline howes :=
    (h.lineageWithin_of_owes ht hline howes).2 _ ((length_keptFrom_le _).trans (Nat.le_succ _))

end Walk

/-! ## One change -/

section Step

variable {object : ObjectId} {config config' : RegionalConfiguration} {c c' : Chronicle}

theorem Traced.closed (h : Traced object config c) : config.Closed := by
  intro d r hr x hx
  obtain ⟨t, ht⟩ := (h.kept d r hr).noted
  obtain ⟨rx, hrx, -⟩ := ht.carries x hx
  exact mem_of_getElem? hrx

variable {d host : HostId}

theorem SameFrom.of_agree (hd : d ∈ config.retired) (hquorum : config.quorum = config'.quorum)
    (h : ∀ k r, ReflTransGen (Search.Edge config.carried) d k → config.retired[k]? = some r →
      ∃ r', config'.retired[k]? = some r' ∧ r.Same r') : config.SameFrom config' d := by
  refine ⟨hquorum, fun k hk => ?_⟩
  obtain ⟨r, hr⟩ := exists_getElem? (mem_of_reach hd hk)
  obtain ⟨r', hr', hsame⟩ := h k r hk hr
  exact ⟨r, r', hr, hr', hsame⟩

theorem Kept.step {r r' : Retirement} (h : config.Kept object c d r) (hclosed : config.Closed)
    (hfrom : config.SameFrom config' d) (hr : config.retired[d]? = some r)
    (hr' : config'.retired[d]? = some r') (hext : c.Extends c')
    (hversion : config.version ≤ config'.version)
    (hconfirmed : ∀ s ∈ r'.confirmed, s ∈ r.confirmed ∨ (d, r.version, s) ∈ c'.confirmations)
    (hkeep : ∀ s ∈ r.confirmed, s ∈ r'.confirmed)
    (hsurvivors : ∀ s ∈ r.survivors, s ∈ config.members → s ∈ config'.members ∨
      s ∈ r'.confirmed ∨ ∃ t ∈ c'.takeovers, t.departed = s ∧ (d, r.version) ∈ t.carried)
    (hlater : ∀ (s : HostId) (rs' : Retirement), config'.retired[s]? = some rs' →
      (∃ rs, config.retired[s]? = some rs ∧ rs.version = rs'.version) ∨
        config.version < rs'.version) : config'.Kept object c' d r' := by
  obtain ⟨a, b, ha, hb, hsame⟩ := hfrom.kept d .refl
  rw [hr] at ha
  rw [hr'] at hb
  cases ha
  cases hb
  obtain ⟨t, ht⟩ := h.noted
  have hcarried : ∀ {x rx}, x ∈ r.unconfirmed → config.retired[x]? = some rx →
      ∃ b, config'.retired[x]? = some b ∧ rx.version = b.version := by
    intro x rx hx hrx
    obtain ⟨a, b, ha, hb, hab⟩ := hfrom.kept x
      (.single ⟨r.unconfirmed, by rw [RegionalConfiguration.carried, hr, Option.map_some], hx,
        isSome_carried.mpr (mem_of_getElem? hrx)⟩)
    rw [hrx] at ha
    cases ha
    exact ⟨b, hb, hab.version⟩
  refine ⟨⟨t, hext.takeovers t ht.mem, ht.departed, ht.version.trans hsame.version, ?_, ?_, ?_⟩,
    ?_, ?_, ?_, ?_, ?_⟩
  · exact ht.first.trans (hfrom.successor hclosed).symm
  · intro x hx
    rw [← hsame.unconfirmed] at hx
    obtain ⟨rx, hrx, hin⟩ := ht.carries x hx
    obtain ⟨b, hb, hversion⟩ := hcarried hx hrx
    exact ⟨b, hb, hversion ▸ hin⟩
  · intro x n hin
    obtain ⟨hx, rx, hrx, hn⟩ := ht.carried x n hin
    obtain ⟨b, hb, hversion⟩ := hcarried hx hrx
    exact ⟨hsame.unconfirmed ▸ hx, b, hb, hversion ▸ hn⟩
  · rw [← hsame.version]
    exact h.version.trans hversion
  · intro s hs
    rw [← hsame.version]
    rcases hconfirmed s hs with hold | hin
    · exact hext.confirmations _ (h.confirmed s hold)
    · exact hin
  · intro s hs
    rw [← hsame.survivors] at hs
    rw [← hsame.version]
    rcases h.survivors s hs with hm | hin | ⟨u, hu, hd, hin⟩
    · exact hsurvivors s hs hm
    · exact .inr (.inl (hkeep s hin))
    · exact .inr (.inr ⟨u, hext.takeovers u hu, hd, hin⟩)
  · intro s hs
    rw [hfrom.mem_recoveryHosts hclosed]
    exact h.among s (hsame.survivors ▸ hs)
  · intro s hs rs' hrs'
    rw [← hsame.version]
    rcases hlater s rs' hrs' with ⟨rs, hrs, hv⟩ | hlt
    · rw [← hv]
      exact h.later s (hsame.survivors ▸ hs) rs hrs
    · exact lt_of_le_of_lt h.version hlt

theorem Traced.quiet (h : Traced object config c) (hretired : config'.retired = config.retired)
    (hquorum : config'.quorum = config.quorum)
    (hmembers : ∀ m ∈ config.members, m ∈ config'.members)
    (hapart : ∀ m ∈ config'.members, m ∉ config.retired)
    (hneighbours : ∀ m ∈ config'.members, m ∈ config'.neighbourhoods)
    (hversion : config.version ≤ config'.version) : Traced object config' c where
  apart m hm := hretired ▸ hapart m hm
  neighbours := hneighbours
  kept d r hr := by
    have hr' : config.retired[d]? = some r := hretired ▸ hr
    have hfrom : config.SameFrom config' d :=
      .of_agree (mem_of_getElem? hr') hquorum.symm fun k rk _ hk => ⟨rk, hretired ▸ hk, .refl rk⟩
    exact (h.kept d r hr').step h.closed hfrom hr' hr (.refl c) hversion
      (fun _ hs => .inl hs) (fun _ hs => hs) (fun s _ hm => .inl (hmembers s hm))
      fun s rs hrs => .inl ⟨rs, hretired ▸ hrs, rfl⟩
  dropped t ht hnot := by
    refine h.dropped t ht fun ⟨r, hr, hv⟩ => hnot ⟨r, hretired ▸ hr, hv⟩
  first := h.first
  versions t ht := (h.versions t ht).trans hversion
  unique := h.unique

/-! Dropping what is done -/

theorem isDone_iff : config.isDone d = true ↔
    (∀ (x : HostId) (r : Retirement), config.retired[x]? = some r → d ∉ r.unconfirmed) ∧
      ∀ host ∈ config.recoveryHosts d, config.owesConfirmation d host = false := by
  simp only [isDone, Bool.and_eq_true, Bool.not_eq_true', List.any_eq_false, Prod.forall,
    ExtTreeMap.mem_toList_iff_getElem?_eq_some, decide_eq_true_eq, Bool.not_eq_true]

theorem owesConfirmation_iff : config.owesConfirmation d host = true ↔
    host ∈ config.members ∧ ∃ r, config.retired[d]? = some r ∧ host ∈ r.survivors ∧
      host ∉ r.confirmed := by
  simp only [owesConfirmation, Bool.and_eq_true, decide_eq_true_eq, Option.any_eq_true]

theorem Traced.confirmed_of_isDone (h : Traced object config c) {t : Takeover}
    (ht : t ∈ c.takeovers) (hr : config.retired[t.departed]? = some r)
    (hv : r.version = t.version) (hdone : config.isDone t.departed = true) : c.Confirmed t := by
  obtain ⟨hunreferenced, hnone⟩ := isDone_iff.mp hdone
  obtain ⟨s, hs⟩ := h.first t ht
  have hsurvivor := successor_mem hr ((h.noted ht hr hv).first.symm.trans hs)
  rcases h.first_cases ht hr hv hs with hm | hconfirmed | ⟨u, hu, hd, hcarried⟩
  · -- a member that owes nothing has confirmed
    have hin : s ∈ r.confirmed := by
      by_contra hnot
      have howes := owesConfirmation_iff.mpr ⟨hm, r, hr, hsurvivor, hnot⟩
      rw [hnone s ((h.kept _ r hr).among s hsurvivor)] at howes
      cases howes
    refine .of_first hs ?_
    rw [← hv]
    exact (h.kept _ r hr).confirmed s hin
  · exact hconfirmed
  · refine .of_carried hs hu hd hcarried (h.dropped u hu fun ⟨ru, hru, hvu⟩ => ?_)
    exact hunreferenced _ ru hru ((h.noted hu hru hvu).carried _ _ hcarried).1

theorem Traced.drop (h : Traced object config c) (hdone : config.isDone d = true) :
    Traced object (config.drop d) c := by
  have hunreferenced := (isDone_iff.mp hdone).1
  have hget : ∀ k, (config.drop d).retired[k]? = if d = k then none else config.retired[k]? :=
    fun k => getElem?_erase_if _ _ _
  have hold : ∀ {k : HostId} {r : Retirement}, (config.drop d).retired[k]? = some r →
      d ≠ k ∧ config.retired[k]? = some r := by
    intro k r hr
    rw [hget] at hr
    split at hr
    · cases hr
    · exact ⟨by assumption, hr⟩
  refine ⟨fun m hm hin => ?_, h.neighbours, fun k r hr => ?_, fun t ht hnot => ?_, h.first,
    h.versions, h.unique⟩
  · obtain ⟨r, hr⟩ := exists_getElem? hin
    exact h.apart m hm (mem_of_getElem? (hold hr).2)
  · obtain ⟨hne, hr'⟩ := hold hr
    have hfrom : config.SameFrom (config.drop d) k := by
      refine .of_agree (mem_of_getElem? hr') rfl fun x rx hx hrx => ⟨rx, ?_, .refl rx⟩
      rw [hget, if_neg, hrx]
      -- nothing leads to `d`
      rintro rfl
      rcases Relation.ReflTransGen.cases_tail hx with heq | ⟨y, -, ks, hks, hin, -⟩
      · exact hne heq
      · obtain ⟨ry, hry, rfl⟩ := Option.map_eq_some_iff.mp hks
        exact hunreferenced y ry hry hin
    exact (h.kept k r hr').step h.closed hfrom hr' hr (.refl c) le_rfl
      (fun _ hs => .inl hs) (fun _ hs => hs) (fun _ _ hm => .inl hm)
      fun x rx hrx => .inl ⟨rx, (hold hrx).2, rfl⟩
  · by_cases hkeeps : config.Keeps t
    · obtain ⟨r, hr, hv⟩ := hkeeps
      by_cases htd : d = t.departed
      · exact h.confirmed_of_isDone ht hr hv (htd ▸ hdone)
      · refine absurd ⟨r, ?_, hv⟩ hnot
        rw [hget, if_neg htd, hr]
    · exact h.dropped t ht hkeeps

theorem Traced.pruneRetirements (h : Traced object config c) :
    Traced object config.pruneRetirements c := by
  rw [RegionalConfiguration.pruneRetirements]
  generalize config.retired.size = steps
  induction steps generalizing config with
  | zero => exact h
  | succ steps ih =>
    rw [pruneWithin]
    split
    · rename_i d hfind
      exact ih (h.drop (List.find?_some hfind))
    · exact h

/-! Confirmations and retirements -/

theorem Traced.confirm (h : Traced object config c) {s : HostId} {r : Retirement} {version : Nat}
    (hr : config.retired[d]? = some r) (hversion : config.version ≤ version) :
    Traced object
      { config with
        retired := config.retired.insert d
          { r with confirmed := r.confirmed.orderedInsert (· ≤ ·) s }
        version }
      { c with confirmations := c.confirmations ++ [(d, r.version, s)] } := by
  set r' : Retirement := { r with confirmed := r.confirmed.orderedInsert (· ≤ ·) s }
  set config' : RegionalConfiguration :=
    { config with retired := config.retired.insert d r', version }
  set c' : Chronicle := { c with confirmations := c.confirmations ++ [(d, r.version, s)] }
  have hext : c.Extends c' := ⟨fun _ ht => ht, fun _ he => List.mem_append_left _ he⟩
  have hget : ∀ k, config'.retired[k]? = if d = k then some r' else config.retired[k]? :=
    fun k => getElem?_insert_if _ _ _ _
  have hsame : ∀ (k : HostId) (rk : Retirement), config.retired[k]? = some rk →
      ∃ rk', config'.retired[k]? = some rk' ∧ rk.Same rk' := by
    intro k rk hrk
    rw [hget]
    split_ifs with hk
    · rw [← hk, hr] at hrk
      cases hrk
      exact ⟨r', rfl, rfl, rfl, rfl, rfl⟩
    · exact ⟨rk, hrk, .refl rk⟩
  have hold : ∀ (k : HostId) (rk' : Retirement), config'.retired[k]? = some rk' →
      ∃ rk, config.retired[k]? = some rk ∧ rk.Same rk' ∧
        (∀ x ∈ rk.confirmed, x ∈ rk'.confirmed) ∧
        ∀ x ∈ rk'.confirmed, x ∈ rk.confirmed ∨ (k, rk.version, x) ∈ c'.confirmations := by
    intro k rk' hrk'
    rw [hget] at hrk'
    split at hrk'
    · rename_i hk
      cases hrk'
      subst hk
      refine ⟨r, hr, ⟨rfl, rfl, rfl, rfl⟩, fun x hx => ?_, fun x hx => ?_⟩
      · exact (List.mem_orderedInsert _).mpr (.inr hx)
      · rcases (List.mem_orderedInsert _).mp hx with rfl | hx
        · exact .inr (by simp [c'])
        · exact .inl hx
    · exact ⟨rk', hrk', .refl rk', fun _ hx => hx, fun _ hx => .inl hx⟩
  refine ⟨fun m hm hin => ?_, h.neighbours, fun k rk' hrk' => ?_, fun t ht hnot => ?_, h.first,
    fun t ht => (h.versions t ht).trans hversion, h.unique⟩
  · obtain ⟨rm', hrm'⟩ := exists_getElem? hin
    obtain ⟨rm, hrm, -⟩ := hold m rm' hrm'
    exact h.apart m hm (mem_of_getElem? hrm)
  · obtain ⟨rk, hrk, -, hkeep, hconfirmed⟩ := hold k rk' hrk'
    have hfrom : config.SameFrom config' k :=
      .of_agree (mem_of_getElem? hrk) rfl fun x rx _ hrx => hsame x rx hrx
    refine (h.kept k rk hrk).step h.closed hfrom hrk hrk' hext hversion
      hconfirmed hkeep (fun _ _ hm => .inl hm) fun x rx' hrx' => .inl ?_
    obtain ⟨rx, hrx, hrr, -⟩ := hold x rx' hrx'
    exact ⟨rx, hrx, hrr.version⟩
  · refine (h.dropped t ht fun ⟨rt, hrt, hv⟩ => hnot ?_).mono hext
    obtain ⟨rt', hrt', hrr⟩ := hsame _ rt hrt
    exact ⟨rt', hrt', hrr.version.symm.trans hv⟩

theorem mem_cohort {settled : Settled} {owner : HostId} {quorum : Quorum}
    (h : host ∈ settled.cohort owner object quorum) : host = owner ∨ host ∈ settled.hosts := by
  rw [Settled.cohort] at h
  rcases @candidatesFor_cases quorum owner settled.hosts settled.domains object with
    ⟨hcand, -⟩ | ⟨-, group, hgroup, hcand, -⟩
  · rw [hcand] at h
    exact .inl (List.mem_singleton.mp h)
  · rw [hcand] at h
    rcases List.mem_cons.mp h with rfl | h
    · exact .inl rfl
    · obtain ⟨e, he, rfl⟩ := List.mem_map.mp h
      exact .inr (mem_usable.mp (mem_usable_of_mem_group hgroup he)).1

theorem mem_unconfirmedBy {member : HostId} :
    d ∈ config.unconfirmedBy member ↔ config.owesConfirmation d member = true := by
  rw [unconfirmedBy, List.mem_filter, ExtTreeMap.mem_keys, and_iff_right_iff_imp]
  intro h
  obtain ⟨-, r, hr, -⟩ := owesConfirmation_iff.mp h
  exact mem_of_getElem? hr

theorem mem_survivorsAt {member : HostId} {settled : Settled} :
    host ∈ config.survivorsAt member settled ↔
      (host ∈ settled.hosts ∨
        ∃ d ∈ config.unconfirmedBy member, host ∈ config.recoveryHosts d) ∧
      host ≠ member ∧ host ∈ config.members := by
  rw [survivorsAt, mem_sortDedup, List.mem_filter, List.mem_append, List.mem_flatMap]
  simp

/-- The retirement of `member` and what it leads to, before anything is dropped. -/
structure Left (config : RegionalConfiguration) (member : HostId) (scatter : UInt64)
    (version : Nat) (r : Retirement) : Prop where
  get : ∀ k, (config.leave member scatter version).retired[k]? =
    if member = k then some r else config.retired[k]?
  version : r.version = version
  settled : config.settledOf member = some r.settled
  survivors : r.survivors = config.survivorsAt member r.settled
  confirmed : r.confirmed = []
  unconfirmed : r.unconfirmed = config.unconfirmedBy member

theorem Traced.left (h : Traced object config c) {member : HostId} (hm : member ∈ config.members)
    (scatter : UInt64) (version : Nat) : ∃ r, config.Left member scatter version r := by
  obtain ⟨n, hn⟩ := exists_getElem? (h.neighbours member hm)
  obtain ⟨settled, hsettled⟩ : ∃ settled, config.settledOf member = some settled := by
    rw [settledOf, hn]
    cases config.settled[member]? <;> exact ⟨_, rfl⟩
  refine ⟨⟨version, settled, config.survivorsAt member settled, [], config.unconfirmedBy member⟩,
    fun k => ?_, rfl, hsettled, rfl, rfl, rfl⟩
  rw [leave, hsettled]
  exact getElem?_insert_if _ _ _ _

section Leave

variable {member : HostId} {scatter : UInt64} {version : Nat} {r : Retirement}

theorem mem_carried {rd : Retirement} (hrd : config.retired[d]? = some rd)
    (howes : config.owesConfirmation d member = true) :
    (d, rd.version) ∈ (config.takeoverOf object member scatter version).carried := by
  refine List.mem_map.mpr ⟨d, mem_unconfirmedBy.mpr howes, ?_⟩
  rw [hrd]
  rfl

section Left

variable (hleft : config.Left member scatter version r) {k : HostId} {rk : Retirement}

include hleft

theorem Left.self : (config.leave member scatter version).retired[member]? = some r := by
  rw [hleft.get, if_pos rfl]

theorem Left.cases (hrk : (config.leave member scatter version).retired[k]? = some rk) :
    (k = member ∧ rk = r) ∨ (k ≠ member ∧ config.retired[k]? = some rk) := by
  rw [hleft.get] at hrk
  split_ifs at hrk with hk
  · exact .inl ⟨hk.symm, (Option.some.inj hrk).symm⟩
  · exact .inr ⟨Ne.symm hk, hrk⟩

theorem Left.get_old (hnot : member ∉ config.retired) (hrk : config.retired[k]? = some rk) :
    (config.leave member scatter version).retired[k]? = some rk := by
  rw [hleft.get, if_neg, hrk]
  rintro rfl
  exact hnot (mem_of_getElem? hrk)

theorem Left.sameFrom (hnot : member ∉ config.retired) {d : HostId} (hd : d ∈ config.retired) :
    config.SameFrom (config.leave member scatter version) d :=
  .of_agree hd rfl fun _ rk _ hrk => ⟨rk, hleft.get_old hnot hrk, .refl rk⟩

theorem Left.recovers (hnot : member ∉ config.retired) (hclosed : config.Closed)
    (P : HostId → Settled → Prop)
    (h : P member r.settled ∨ ∃ d ∈ config.unconfirmedBy member,
      ∃ owner ∈ config.recoveryOwners d, ∃ rx, config.retired[owner]? = some rx ∧
        P owner rx.settled) :
    ∃ owner ∈ (config.leave member scatter version).recoveryOwners member, ∃ rx,
      (config.leave member scatter version).retired[owner]? = some rx ∧ P owner rx.settled := by
  have hself := hleft.self
  rcases h with hP | ⟨d, hd, hrest⟩
  · exact ⟨member, mem_recoveryOwners.mpr ⟨mem_of_getElem? hself, .refl⟩, r, hself, hP⟩
  · obtain ⟨-, rd, hrd, -⟩ := owesConfirmation_iff.mp (mem_unconfirmedBy.mp hd)
    obtain ⟨owner, howner, rx, hrx, hP⟩ :=
      ((hleft.sameFrom hnot (mem_of_getElem? hrd)).recovers_iff hclosed P).mpr hrest
    obtain ⟨hkept, hpath⟩ := mem_recoveryOwners.mp howner
    refine ⟨owner, mem_recoveryOwners.mpr ⟨mem_of_getElem? hself, .head ?_ hpath⟩, rx, hrx, hP⟩
    refine ⟨r.unconfirmed, ?_, ?_, isSome_carried.mpr hkept⟩
    · rw [carried, hself, Option.map_some]
    · rw [hleft.unconfirmed]
      exact hd

theorem Left.exists_successor (htraced : Traced object config c) (hm : member ∈ config.members)
    (hrec : config.Recoverable object member) :
    ∃ s, (config.leave member scatter version).successor member object = some s := by
  obtain ⟨host, hhost, hne, hin⟩ := hrec hm
  refine @RegionalConfiguration.exists_successor _ _ host _ r hleft.self ?_ ?_
  · rw [hleft.survivors, mem_survivorsAt]
    refine ⟨?_, hne, hhost⟩
    rcases hin with ⟨settled, hsettled, hin⟩ | ⟨d, hd, hin⟩
    · rw [hleft.settled] at hsettled
      cases hsettled
      exact .inl ((mem_cohort hin).resolve_left hne)
    · obtain ⟨owner, howner, rx, hrx, hin⟩ := mem_recoveryCohorts.mp hin
      refine .inr ⟨d, hd, mem_recoveryHosts.mpr ⟨owner, howner, rx, hrx, ?_⟩⟩
      refine (mem_cohort hin).resolve_left ?_
      rintro rfl
      exact htraced.apart host hhost (mem_of_getElem? hrx)
  · refine mem_recoveryCohorts.mpr (hleft.recovers (htraced.apart member hm) htraced.closed
      (fun owner settled => host ∈ settled.cohort owner object config.quorum) ?_)
    rcases hin with ⟨settled, hsettled, hin⟩ | ⟨d, hd, hin⟩
    · rw [hleft.settled] at hsettled
      cases hsettled
      exact .inl hin
    · exact .inr ⟨d, hd, mem_recoveryCohorts.mp hin⟩

theorem Left.kept (h : Traced object config c) (hm : member ∈ config.members) :
    (config.leave member scatter version).Kept object { c with
      takeovers := c.takeovers ++ [config.takeoverOf object member scatter version] } member r := by
  have hnot := h.apart member hm
  refine ⟨⟨_, List.mem_append_right _ (List.mem_singleton_self _), rfl, hleft.version.symm, rfl,
    fun x hx => ?_, fun x n hin => ?_⟩, hleft.version.le, ?_, fun s hs => ?_,
    fun s hs => ?_, fun s hs rs hrs => ?_⟩
  · rw [hleft.unconfirmed] at hx
    obtain ⟨-, rx, hrx, -⟩ := owesConfirmation_iff.mp (mem_unconfirmedBy.mp hx)
    exact ⟨rx, hleft.get_old hnot hrx, mem_carried hrx (mem_unconfirmedBy.mp hx)⟩
  · obtain ⟨d, hd, heq⟩ := List.mem_map.mp hin
    obtain ⟨-, rd, hrd, -⟩ := owesConfirmation_iff.mp (mem_unconfirmedBy.mp hd)
    cases heq
    exact ⟨hleft.unconfirmed ▸ hd, rd, hleft.get_old hnot hrd, by rw [hrd]; rfl⟩
  · rw [hleft.confirmed]
    exact nofun
  all_goals rw [hleft.survivors, mem_survivorsAt] at hs
  · exact .inl (mem_members_leave.mpr ⟨hs.2.2, hs.2.1⟩)
  · refine mem_recoveryHosts.mpr (hleft.recovers hnot h.closed (fun _ settled =>
      s ∈ settled.hosts) (hs.1.imp_right fun ⟨d, hd, hin⟩ => ⟨d, hd, ?_⟩))
    exact mem_recoveryHosts.mp hin
  · rcases hleft.cases hrs with ⟨heq, -⟩ | ⟨-, hrs⟩
    · exact absurd heq hs.2.1
    · exact absurd (mem_of_getElem? hrs) (h.apart s hs.2.2)

end Left

theorem Traced.leave (h : Traced object config c) (hm : member ∈ config.members)
    (hversion : checkedSucc config.version = some version)
    (hrec : config.Recoverable object member) :
    Traced object (config.leave member scatter version)
      { c with takeovers := c.takeovers ++ [config.takeoverOf object member scatter version] } := by
  have hv := checkedSucc_eq_some hversion
  have hlt : config.version < version := by omega
  have hnot := h.apart member hm
  obtain ⟨r, hleft⟩ := h.left hm scatter version
  set config' := config.leave member scatter version
  set t := config.takeoverOf object member scatter version
  set c' : Chronicle := { c with takeovers := c.takeovers ++ [t] }
  have hext : c.Extends c' := ⟨fun _ ht => List.mem_append_left _ ht, fun _ he => he⟩
  have hnew : ∀ u ∈ c'.takeovers, u ∈ c.takeovers ∨ u = t := fun u hu =>
    (List.mem_append.mp hu).imp_right List.mem_singleton.mp
  have ht : t ∈ c'.takeovers := by simp [c']
  refine ⟨fun host hhost hin => ?_, fun host hhost => ?_, fun k rk hrk => ?_, fun u hu hdrop => ?_,
    fun u hu => ?_, fun u hu => ?_, fun u hu w hw huw => ?_⟩
  · obtain ⟨hhost, hne⟩ := mem_members_leave.mp hhost
    obtain ⟨rh, hrh⟩ := exists_getElem? hin
    rcases hleft.cases hrh with ⟨heq, -⟩ | ⟨-, hrh⟩
    · exact hne heq
    · exact h.apart host hhost (mem_of_getElem? hrh)
  · exact mem_collect_some.mpr hhost
  · rcases hleft.cases hrk with ⟨rfl, rfl⟩ | ⟨hne, hrk'⟩
    · exact hleft.kept h hm
    · refine (h.kept k rk hrk').step h.closed (hleft.sameFrom hnot (mem_of_getElem? hrk')) hrk' hrk
        hext hlt.le (fun _ hs => .inl hs) (fun _ hs => hs) (fun s hs hsm => ?_)
        fun s rs hrs => ?_
      · by_cases hsm' : s = member
        · subst hsm'
          by_cases hconfirmed : s ∈ rk.confirmed
          · exact .inr (.inl hconfirmed)
          · exact .inr (.inr ⟨t, ht, rfl, mem_carried hrk'
              (owesConfirmation_iff.mpr ⟨hsm, rk, hrk', hs, hconfirmed⟩)⟩)
        · exact .inl (mem_members_leave.mpr ⟨hsm, hsm'⟩)
      · rcases hleft.cases hrs with ⟨-, rfl⟩ | ⟨-, hrs⟩
        · exact .inr (hleft.version ▸ hlt)
        · exact .inl ⟨rs, hrs, rfl⟩
  · rcases hnew u hu with hu | rfl
    · exact (h.dropped u hu fun ⟨ru, hru, hvu⟩ =>
        hdrop ⟨ru, hleft.get_old hnot hru, hvu⟩).mono hext
    · exact absurd ⟨r, hleft.self, hleft.version⟩ hdrop
  · rcases hnew u hu with hu | rfl
    · exact h.first u hu
    · exact hleft.exists_successor h hm hrec
  · rcases hnew u hu with hu | rfl
    · exact (h.versions u hu).trans hlt.le
    · exact le_rfl
  · have htv : t.version = version := rfl
    rcases hnew u hu with hu | rfl <;> rcases hnew w hw with hw | rfl
    · exact h.unique u hu w hw huw
    · have := h.versions u hu
      omega
    · have := h.versions w hw
      omega
    · rfl

end Leave

theorem boundRetirements_of_le (h : config.retired.size ≤ config.retirementBound) :
    config.boundRetirements = config := by
  rw [boundRetirements]
  cases config.retired.size with
  | zero => rfl
  | succ steps =>
    rw [boundWithin, if_neg]
    exact Nat.not_lt.mpr h

theorem Traced.retire (h : Traced object config c) {member : HostId} {scatter : UInt64}
    (hbound : config.WithinBound member scatter) (hrec : config.Recoverable object member) :
    Traced object ((config.retire member scatter).getD config)
      (config.noteRetire object c member scatter) := by
  rw [RegionalConfiguration.retire, noteRetire]
  split_ifs with hm
  · cases hversion : checkedSucc config.version with
    | none => exact h
    | some version =>
      rw [Option.map_some, Option.getD_some, boundRetirements_of_le (hbound hm version hversion)]
      exact (h.leave hm hversion hrec).pruneRetirements
  · exact h

theorem Traced.admitMember (h : Traced object config c) (member : HostId) (domain : Option DomainId)
    (scatter : UInt64) :
    Traced object ((config.admitMember member domain scatter).getD config) c := by
  rw [RegionalConfiguration.admitMember]
  split
  · rename_i hadmits
    cases hversion : checkedSucc config.version with
    | none => exact h
    | some version =>
      have hv := checkedSucc_eq_some hversion
      simp only [admits, Bool.and_eq_true, Bool.not_eq_true', List.any_eq_false] at hadmits
      have hnot : member ∉ config.retired := by
        intro hin
        obtain ⟨r, hr⟩ := exists_getElem? hin
        exact hadmits.2 (member, r) (ExtTreeMap.mem_toList_iff_getElem?_eq_some.mpr hr) (by simp)
      refine h.quiet rfl rfl (fun m hm => ?_) (fun m hm => ?_) (fun m hm => ?_) ?_
      · exact (List.mem_insertionSort _).mpr (List.mem_append_left _ hm)
      · rcases List.mem_append.mp ((List.mem_insertionSort _).mp hm) with hm | hm
        · exact h.apart m hm
        · rw [List.mem_singleton.mp hm]
          exact hnot
      · exact mem_collect_some.mpr hm
      · show config.version ≤ version
        omega
  · exact h

theorem Traced.settle (h : Traced object config c) (owner : HostId) (generation : Nat) :
    Traced object ((config.settle owner generation).getD config) c := by
  rw [RegionalConfiguration.settle]
  split
  · cases hversion : checkedSucc config.version with
    | none => exact h
    | some version =>
      have hv := checkedSucc_eq_some hversion
      rw [Option.bind_some]
      cases config.neighbourhoods[owner]? with
      | none => exact h
      | some n =>
        exact h.quiet rfl rfl (fun _ hm => hm) h.apart h.neighbours
          (show config.version ≤ version by omega)
  · exact h

theorem pruneWithin_epochs (epochs : HostMap HostEpoch) (steps : Nat)
    (config : RegionalConfiguration) :
    pruneWithin steps { config with epochs } = { pruneWithin steps config with epochs } := by
  induction steps generalizing config with
  | zero => rfl
  | succ steps ih =>
    have hsame : { config with epochs }.retired.keys.find? (isDone { config with epochs }) =
        config.retired.keys.find? config.isDone := rfl
    rw [pruneWithin, pruneWithin, hsame]
    cases config.retired.keys.find? config.isDone with
    | none => rfl
    | some departed => exact ih (config.drop departed)

theorem WithinBound.fence {member : HostId} {scatter : UInt64}
    (h : config.WithinBound member scatter) (epochs : HostMap HostEpoch) :
    WithinBound { config with epochs } member scatter := by
  intro hm version hversion
  have hprune : (leave { config with epochs } member scatter version).pruneRetirements =
      { (config.leave member scatter version).pruneRetirements with epochs } :=
    pruneWithin_epochs epochs _ (config.leave member scatter version)
  rw [hprune]
  exact h hm version hversion

/-- **One change** keeps the chronicle. -/
theorem Traced.apply (h : Traced object config c) {change : Change}
    (hkeeps : KeepsLine object config change) :
    Traced object (config.apply change) (config.note object c change) := by
  cases change with
  | admitMember member domain scatter => exact h.admitMember member domain scatter
  | retire member scatter => exact h.retire hkeeps.1 hkeeps.2
  | takeOver dead scatter =>
    rw [RegionalConfiguration.apply, note, takeOver]
    cases hbumped : checkedSucc (config.epochs[dead]?.getD firstEpoch) with
    | none => exact h
    | some bumped =>
      cases hversion : checkedSucc config.version with
      | none => exact h
      | some version =>
        have hfenced : Traced object { config with epochs := config.epochs.insert dead bumped } c :=
          h.quiet rfl rfl (fun _ hm => hm) h.apart h.neighbours le_rfl
        exact hfenced.retire (hkeeps.1.fence _) hkeeps.2
  | settle owner generation => exact h.settle owner generation
  | confirm departed successor =>
    rw [RegionalConfiguration.apply, note, RegionalConfiguration.confirm]
    split
    · rename_i howes
      cases hversion : checkedSucc config.version with
      | none => exact h
      | some version =>
        have hv := checkedSucc_eq_some hversion
        rw [Option.bind_some]
        cases hr : config.retired[departed]? with
        | none => exact h
        | some r => exact (h.confirm hr (by omega)).pruneRetirements
    · exact h
  | mirrorAdopt o adoption =>
    change Traced object ((config.assignAdoption o adoption).getD config) c
    cases hnext : config.assignAdoption o adoption with
    | none => exact h
    | some next =>
      obtain ⟨version, hversion, rfl⟩ := exists_assignAdoption hnext
      exact h.quiet rfl rfl (fun _ hm => hm) h.apart h.neighbours
        ((Nat.le_succ _).trans (checkedSucc_eq_some hversion).ge)
  | mirrorAdopted o successor =>
    change Traced object ((config.adopted o successor).getD config) c
    cases hnext : config.adopted o successor with
    | none => exact h
    | some next =>
      obtain ⟨version, hversion, rfl⟩ := exists_adopted hnext
      exact h.quiet rfl rfl (fun _ hm => hm) h.apart h.neighbours
        ((Nat.le_succ _).trans (checkedSucc_eq_some hversion).ge)

end Step

theorem traced_formed (object : ObjectId) (members : List HostId) (quorum : Quorum)
    (domains : HostMap DomainId) (scatter : UInt64) (hasMirror : Bool) :
    Traced object (formed members quorum domains scatter hasMirror) ⟨[], []⟩ where
  apart _ _ := ExtTreeMap.not_mem_empty
  neighbours _ hm := mem_collect_some.mpr hm
  kept d r hr := by
    rw [show (formed members quorum domains scatter hasMirror).retired = ∅ from rfl,
      ExtTreeMap.getElem?_empty] at hr
    cases hr
  dropped := nofun
  first := nofun
  versions := nofun
  unique := nofun

theorem Traced.run {object : ObjectId} {config : RegionalConfiguration} {c : Chronicle}
    (h : Traced object config c) {changes : List Change}
    (hmeets : RunMeets (KeepsLine object) config changes) :
    Traced object (config.run changes) (chronicle object config c changes) := by
  induction changes generalizing config c with
  | nil => exact h
  | cons change changes ih => exact ih (h.apply hmeets.1) hmeets.2

theorem RunMeets.take {C : RegionalConfiguration → Change → Prop} {config : RegionalConfiguration}
    {changes : List Change} (h : RunMeets C config changes) (n : Nat) :
    RunMeets C config (changes.take n) := by
  induction changes generalizing config n with
  | nil =>
    rw [List.take_nil]
    trivial
  | cons change changes ih =>
    cases n with
    | zero => trivial
    | succ n => exact ⟨h.1, ih h.2 n⟩

/-- **Lineage.** In a run whose retirements keep within the bound and leave somebody to take over,
every lineage is sound. -/
theorem lineage_sound_run (members : List HostId) (quorum : Quorum) (domains : HostMap DomainId)
    (scatter : UInt64) (hasMirror : Bool) (object : ObjectId) (changes : List Change)
    (hmeets : RunMeets (KeepsLine object) (formed members quorum domains scatter hasMirror)
      changes) (n : Nat) :
    LineageSound object ((formed members quorum domains scatter hasMirror).run (changes.take n))
      (chronicle object (formed members quorum domains scatter hasMirror) ⟨[], []⟩
        (changes.take n)) :=
  ((traced_formed object members quorum domains scatter hasMirror).run (hmeets.take n)).lineageSound

/-! ## Nobody left -/

/-- A region of two hosts that tolerates one failure. -/
def pair : RegionalConfiguration := formed [1, 2] ⟨1⟩ ∅ 3 false

/-- One host retires, the other confirms that it took over, and a third is admitted. -/
def handOver : List Change := [.retire 1 3, .confirm 1 2, .admitMember 3 none 3]

theorem lineage_sound_run_handOver :
    (∀ n, LineageSound (.new 1 1) (pair.run (handOver.take n))
      (chronicle (.new 1 1) pair ⟨[], []⟩ (handOver.take n))) ∧
    (pair.run (handOver.take 1)).lineage 1 (.new 1 1) = .successor 1 2 ∧
    (pair.run handOver).lineage 1 (.new 1 1) = .settled := by
  refine ⟨lineage_sound_run [1, 2] ⟨1⟩ ∅ 3 false (.new 1 1) handOver
    ⟨⟨?_, ?_⟩, trivial, trivial, trivial⟩, by decide, by decide⟩
  · intro _ version hversion
    rw [checkedSucc_eq_some hversion]
    decide
  · exact fun _ => ⟨2, by decide, by decide, .inl ⟨_, rfl, by decide⟩⟩

/-- The second host retires before it confirms the first one's takeover; both retirements are
dropped at once, and the object reads as settled. -/
theorem unrecoverable_reads_settled :
    pair.WithinBound 1 3 ∧ (pair.run [.retire 1 3]).WithinBound 2 3 ∧
      (chronicle (.new 1 1) pair ⟨[], []⟩ [.retire 1 3, .retire 2 3]).takeovers =
        [⟨1, 1, some 2, []⟩, ⟨2, 2, none, [(1, 1)]⟩] ∧
      (chronicle (.new 1 1) pair ⟨[], []⟩ [.retire 1 3, .retire 2 3]).confirmations = [] ∧
      (pair.run [.retire 1 3, .retire 2 3]).lineage 1 (.new 1 1) = .settled ∧
      ¬ LineageSound (.new 1 1) (pair.run [.retire 1 3, .retire 2 3])
        (chronicle (.new 1 1) pair ⟨[], []⟩ [.retire 1 3, .retire 2 3]) := by
  have hts : (chronicle (.new 1 1) pair ⟨[], []⟩ [.retire 1 3, .retire 2 3]).takeovers =
      [⟨1, 1, some 2, []⟩, ⟨2, 2, none, [(1, 1)]⟩] := by decide
  have hcs : (chronicle (.new 1 1) pair ⟨[], []⟩ [.retire 1 3, .retire 2 3]).confirmations = [] :=
    rfl
  have hsettled : (pair.run [.retire 1 3, .retire 2 3]).lineage 1 (.new 1 1) = .settled := by
    decide
  refine ⟨?_, ?_, hts, hcs, hsettled, fun h => ?_⟩
  · intro _ version hversion
    rw [checkedSucc_eq_some hversion]
    decide
  · intro _ version hversion
    rw [checkedSucc_eq_some hversion]
    decide
  · obtain ⟨s, u, -, hin⟩ := h.settled ⟨1, 1, some 2, []⟩ (by rw [hts]; simp) hsettled
    rw [hcs] at hin
    cases hin

end RegionalConfiguration

end Slates.Register
