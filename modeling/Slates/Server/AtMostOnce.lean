import Slates.Server.HeldReplies

/-!
A request on the shard that runs it (`crates/server/src/verbs.rs`), with its retries, crashes, and
its reply held by `live_ship`. Effects and completion are one durable step unless the reply is held.
-/

namespace Slates.Server

variable {σ ρ : Type}

/-- What `dispatch` leaves: the data, the fleet's state, the reply, and the sequence of the volume's
tombstone. -/
structure Outcome (σ ρ : Type) where
  data : σ
  fleet : Fleet
  reply : ReplyBody ρ
  tombstone : Option Nat

/-- A verb: the volume its body names, whether it mutates, and what it does. -/
structure Verb (σ ρ : Type) where
  volume : Option Nat
  mutates : Bool
  dispatch : σ → Outcome σ ρ

/-- What a reply waits for: nothing, its volume's log, or a tombstone. -/
inductive Wait where
  | now
  | live (place : Nat × Nat)
  | destroy (volume sequence : Nat)
  deriving DecidableEq

/-- `replicated_waits`, with `tombstone_target`. -/
def ShardState.replicatedWaits (s : ShardState ρ) (verb : Verb σ ρ) (out : Outcome σ ρ) : Wait :=
  match verb.volume, out.reply with
  | none, _ | _, .refused _ => .now
  | some volume, .destroyed =>
    match out.tombstone with
    | some sequence => if s.tombstonePlaced volume sequence then .now else .destroy volume sequence
    | none => .now
  | some volume, .said _ =>
    if verb.mutates then (durableTarget s.fleet volume).elim .now fun target =>
      .live (volume, target)
    else .now

def ShardState.dispatched (s : ShardState ρ) (fleet : Fleet) : ShardState ρ :=
  { s with fleet := fleet, replyRoute := none }

/-- A reply given at once, and whether its request's effects were durable then. -/
structure Given (ρ : Type) where
  key : Key
  reply : ReplyBody ρ
  durable : Bool

/-- `applied` has the requests whose effects were committed, each with the reply its execution
produced. -/
structure Host (σ ρ : Type) where
  state : ShardState ρ
  data : σ
  applied : List (Key × ReplyBody ρ)
  given : List (Given ρ)

/-- `run_recorded`: the reply to give now, if any. -/
def Host.runRecorded (h : Host σ ρ) (key : Key) (verb : Verb σ ρ) (commits : Bool) :
    Option (ReplyBody ρ) × Host σ ρ :=
  let out := verb.dispatch h.data
  let entry : Awaiting ρ := ⟨h.state.replyRoute, key, out.reply⟩
  let s := h.state.dispatched out.fleet
  let ran := { h with data := out.data, applied := (key, out.reply) :: h.applied }
  if commits then
    match s.replicatedWaits verb out with
    | .now =>
      let recorded := recordCompletion s.windows key out.reply
      (some recorded.1, { ran with state := { s with windows := recorded.2 } })
    | .live place => ((s.defer place entry).1, { ran with state := (s.defer place entry).2 })
    | .destroy volume sequence =>
      ((s.deferDestroy volume sequence entry).1,
        { ran with state := (s.deferDestroy volume sequence entry).2 })
  else (some (.refused .unpublished), { h with state := s })

/-- `serve` and `run_forwarded`: the completion window, then the waits a retry joins, then the verb,
unless its client owes acknowledgements. -/
def Host.serve (h : Host σ ρ) (route : Option ReplyRoute) (key : Key) (verb : Verb σ ρ)
    (owed commits : Bool) : Option (ReplyBody ρ) × Host σ ρ :=
  let asked := { h with state := { h.state with replyRoute := route } }
  match h.state.windows.completion key with
  | .completed reply => (some reply, asked)
  | .acknowledged => (some (.refused .duplicateRequest), asked)
  | .new =>
    if (asked.state.join key).1 then (none, { asked with state := (asked.state.join key).2 })
    else if owed then (some (.refused .acknowledgementOwed), asked)
    else asked.runRecorded key verb commits

/-- `ask` is a request or a retry of it, on the client's ring or forwarded. -/
inductive HostTurn (σ ρ : Type) where
  | ask (route : Option ReplyRoute) (key : Key) (verb : Verb σ ρ) (owed commits : Bool)
  | fleet (fleet : Fleet)
  | acknowledge (client : Nat × BitVec 32) (upTo : BitVec 32)
  | resolve (volume : Nat) (commits : List Bool)
  | resolveDestroys (volume : Nat) (commits : List Bool)
  | refuseAwaiting (volume current : Nat) (commits : List Bool)
  | crash

def Host.step (h : Host σ ρ) : HostTurn σ ρ → Host σ ρ
  | .ask route key verb owed commits =>
    let served := h.serve route key verb owed commits
    let durable : Bool := key ∈ served.2.applied.map Prod.fst
    { served.2 with given := served.1.toList.map (fun reply => ⟨key, reply, durable⟩) ++
        served.2.given }
  | .fleet fleet => { h with state := { h.state with fleet := fleet } }
  | .acknowledge client upTo =>
    { h with state := { h.state with windows := h.state.windows.acknowledge client upTo } }
  | .resolve volume commits => { h with state := h.state.resolve volume commits }
  | .resolveDestroys volume commits => { h with state := h.state.resolveDestroys volume commits }
  | .refuseAwaiting volume current commits =>
    { h with state := h.state.refuseAwaiting volume current commits }
  -- What memory held is lost; the partition, its windows with it, is recovered.
  | .crash => { h with state := { h.state with
      awaiting := [], destroys := [], awaitingByRequest := fun _ => none
      destroyTarget := fun _ => none, destroysByRequest := fun _ => none, replyRoute := none } }

def Host.start (shard originAnchor awaitingBound : Nat) (fleet : Fleet) (data : σ) : Host σ ρ :=
  ⟨(World.start shard originAnchor awaitingBound fleet).state, data, [], []⟩

/-- No request's effects were applied twice, and every reply to a request with durable effects is
the one they produced. -/
structure Host.AtMostOnce (h : Host σ ρ) : Prop where
  once : (h.applied.map Prod.fst).Nodup
  given : ∀ g ∈ h.given, g.durable → (g.key, g.reply) ∈ h.applied
  delivered : ∀ d ∈ h.state.delivered, (h.state.named d.1, d.2) ∈ h.applied

/-- Its volume is not fenced, and there is room for the reply. -/
def Host.hasRoom (h : Host σ ρ) (verb : Verb σ ρ) : Bool :=
  let out := verb.dispatch h.data
  let s := h.state.dispatched out.fleet
  match s.replicatedWaits verb out with
  | .now => true
  | .live place => (s.fenced place.1).isNone && s.heldReplies < s.awaitingBound
  | .destroy _ _ => s.heldReplies < s.awaitingBound

/-- Neither a completion nor a wait answers for the request, and its client owes nothing. -/
def Host.runs (h : Host σ ρ) (route : Option ReplyRoute) (key : Key) (owed : Bool) : Bool :=
  match h.state.windows.completion key with
  | .new => !(({ h.state with replyRoute := route } : ShardState ρ).join key).1 && !owed
  | _ => false

/-- What a turn meets when requests run at most once. A request asked is not acknowledged, a retry
joins a place headed by its own reply, and the reply of one that runs and has to wait can. A wait
ends by being answered, every record of an answer committed and none of an acknowledged request; no
fence or crash meets a waiter. -/
def HostTurn.Completes (h : Host σ ρ) : HostTurn σ ρ → Prop
  | .ask route key verb owed commits =>
    h.state.windows.completion key ≠ .acknowledged ∧
      (Turn.join route key).OwnReply ⟨h.state, ⟨h.applied, []⟩⟩ ∧
      (h.runs route key owed → commits → h.hasRoom verb)
  | .fleet _ | .acknowledge _ _ => True
  | .resolve volume commits => commits.all id ∧ ∀ entry ∈ h.state.due volume,
      h.state.windows.completion entry.key ≠ .acknowledged
  | .resolveDestroys volume commits => commits.all id ∧ (h.state.destroysPlaced volume →
      ∀ entry ∈ filedAt volume h.state.destroys,
        h.state.windows.completion entry.key ≠ .acknowledged)
  | .refuseAwaiting volume _ _ =>
    h.state.takeAwaiting volume = [] ∧ filedAt volume h.state.destroys = []
  | .crash => ∀ a ∈ h.applied, h.state.windows.completion a.1 ≠ .new

instance [DecidableEq ρ] (h : Host σ ρ) (t : HostTurn σ ρ) : Decidable (t.Completes h) := by
  cases t <;> unfold HostTurn.Completes <;> infer_instance

/-! ## Windows -/

section Windows

variable {windows : Windows ρ} {key other : Key}

theorem completion_eq_new : windows.completion key = .new ↔
    (windows (key.origin, key.id.client)).isAcknowledged key.id.sequence = false ∧
      windows.kept key = none := by
  unfold Windows.completion Windows.kept ClientWindow.lookup
  split
  · simp_all
  · split <;> simp_all

variable {reply : ReplyBody ρ}

theorem kept_of_completed (h : windows.completion key = .completed reply) :
    windows.kept key = some reply := by
  unfold Windows.completion ClientWindow.lookup at h
  split at h
  · cases h
  · split at h
    next result hr =>
      cases h
      exact hr
    next => cases h

theorem new_of_recordCompletion
    (h : (recordCompletion windows key reply).2.completion other = .new) :
    windows.completion other = .new ∧ other ≠ key := by
  unfold recordCompletion at h
  split at h
  next hack => exact ⟨h, fun heq => nomatch (heq ▸ h).symm.trans hack⟩
  next hnot =>
    have hack : (windows (key.origin, key.id.client)).isAcknowledged key.id.sequence = false :=
      Bool.eq_false_iff.mpr fun hack => hnot (ClientWindow.lookup_eq_acknowledged.mpr hack)
    rw [completion_eq_new] at h ⊢
    simp only [Windows.kept, ClientWindow.record, hack, Bool.false_eq_true, if_false] at h ⊢
    by_cases hc : (other.origin, other.id.client) = (key.origin, key.id.client)
    · rw [hc, Function.update_self] at h
      by_cases hs : other.id.sequence = key.id.sequence
      · simp [hs] at h
      · simp only [Function.update_of_ne hs, hc] at h ⊢
        exact ⟨h, fun heq => hs (heq ▸ rfl)⟩
    · rw [Function.update_of_ne hc] at h
      exact ⟨h, fun heq => hc (heq ▸ rfl)⟩

theorem new_of_acknowledge {client : Nat × BitVec 32} {upTo : BitVec 32}
    (h : (windows.acknowledge client upTo).completion key = .new) :
    windows.completion key = .new := by
  rw [completion_eq_new] at h ⊢
  by_cases hc : (key.origin, key.id.client) = client
  · subst hc
    simp only [Windows.kept, Windows.acknowledge, Function.update_self, ClientWindow.acknowledge,
      ClientWindow.isAcknowledged, Option.any_some, decide_eq_false_iff_not] at h ⊢
    generalize windows (key.origin, key.id.client) = w at h ⊢
    cases ha : w.acknowledgedUpTo with
    | none => simp_all
    | some a =>
      simp only [ha, Option.elim_some, Option.any_some, decide_eq_false_iff_not] at h ⊢
      have hbelow : upTo < key.id.sequence ∧ ¬key.id.sequence ≤ a := by
        have hpast := h.1
        split at hpast <;> constructor <;> bv_omega
      rw [if_pos hbelow.1] at h
      exact ⟨hbelow.2, h.2⟩
  · simpa only [Windows.kept, Windows.acknowledge, Function.update_of_ne hc] using h

end Windows

/-! ## Requests that will not run again -/

/-- A request's completion is known, or its reply waits. -/
def ShardState.Covers (s : ShardState ρ) (key : Key) : Prop :=
  s.windows.completion key = .new → (s.awaitingByRequest key).isSome ∨
    (s.destroysByRequest key).isSome

section Covers

variable {s : ShardState ρ} {key : Key}

theorem ShardState.Covers.answer (h : s.Covers key) (entry : Awaiting ρ) (reply : ReplyBody ρ) :
    (s.answer entry reply true).Covers key := by
  intro hnew
  obtain ⟨hold, hne⟩ := new_of_recordCompletion hnew
  simpa only [ShardState.answer, if_true, Function.update_of_ne hne] using h hold

theorem ShardState.Covers.answerAll {reply : Awaiting ρ → ReplyBody ρ} {taken : List (Awaiting ρ)}
    {commits : List Bool} (h : s.Covers key) (hc : commits.all id) :
    (s.answerAll reply taken commits).Covers key := by
  induction taken generalizing s commits with
  | nil => exact h
  | cons entry taken ih =>
    cases commits with
    | nil => exact ih (h.answer entry _) rfl
    | cons b commits =>
      obtain ⟨hb, hrest⟩ := (Bool.and_eq_true _ _).mp hc
      obtain rfl : b = true := hb
      exact ih (h.answer entry _) hrest

theorem covers_join {asked : Key} : (s.join asked).2.Covers key ↔ s.Covers key := by
  unfold ShardState.join
  split
  · cases ShardState.joining (filedAt _ s.destroys) s.replyRoute <;> rfl
  · split
    · rfl
    · cases ShardState.joining (filedAt _ s.awaiting) s.replyRoute <;> rfl

theorem isSome_update {α : Type} {f : Key → Option α} {held : Key} {x : α}
    (h : key = held ∨ (f key).isSome) : (Function.update f held (some x) key).isSome := by
  by_cases hk : key = held
  · rw [hk, Function.update_self]
    rfl
  · rw [Function.update_of_ne hk]
    exact h.resolve_left hk

theorem not_covers_of_join (hnew : s.windows.completion key = .new) (hj : (s.join key).1 = false) :
    ¬s.Covers key := by
  intro hc
  unfold ShardState.join at hj
  split at hj
  · cases hj
  next hd =>
    split at hj
    next ha => simpa [ha, hd] using hc hnew
    next => cases hj

end Covers

/-! ## One turn -/

/-- What waits is owned by what was applied, and what was applied is covered. -/
structure Host.Sound (h : Host σ ρ) : Prop where
  world : World.Sound ⟨h.state, ⟨h.applied, []⟩⟩
  covers : ∀ a ∈ h.applied, h.state.Covers a.1
  once : (h.applied.map Prod.fst).Nodup
  given : ∀ g ∈ h.given, g.durable → (g.key, g.reply) ∈ h.applied

theorem answers_iff {applied : List (Key × ReplyBody ρ)} {key : Key} {reply : ReplyBody ρ} :
    History.Answers ⟨applied, []⟩ key reply ↔ (key, reply) ∈ applied := by
  simp [History.Answers]

theorem Host.Sound.atMostOnce {h : Host σ ρ} (hs : h.Sound) : h.AtMostOnce :=
  ⟨hs.once, hs.given, fun d hd => answers_iff.mp (hs.world.answers.1 d hd)⟩

variable {entry : Awaiting ρ}

theorem defer_of_room {s : ShardState ρ} (place : Nat × Nat) (hf : s.fenced place.1 = none)
    (hroom : s.heldReplies < s.awaitingBound) :
    s.defer place entry = (none, { s.file place entry with
      awaitingByRequest := Function.update s.awaitingByRequest entry.key (some place) }) := by
  simp only [ShardState.defer, hf]
  rw [if_neg (not_le.mpr hroom)]

theorem deferDestroy_of_room {s : ShardState ρ} {volume sequence : Nat}
    (hroom : s.heldReplies < s.awaitingBound) :
    s.deferDestroy volume sequence entry = (none, { s.fileDestroy volume entry with
      destroyTarget := Function.update s.destroyTarget volume
        (some (max ((s.destroyTarget volume).getD sequence) sequence))
      destroysByRequest := Function.update s.destroysByRequest entry.key (some volume) }) :=
  if_neg (not_le.mpr hroom)

/-- The shard it leaves is sound, and a reply given now to a request with durable effects is the one
they produced. -/
def Serves (key : Key) (served : Option (ReplyBody ρ) × Host σ ρ) : Prop :=
  served.2.Sound ∧ ∀ reply ∈ served.1, key ∈ served.2.applied.map Prod.fst →
    (key, reply) ∈ served.2.applied

section Serving

variable {h : Host σ ρ} {key : Key}

theorem serves_refusal {reply : ReplyBody ρ} (hs : h.Sound)
    (hfresh : key ∉ h.applied.map Prod.fst) :
    Serves key (some reply, h) :=
  ⟨hs, fun _ _ hin => absurd hin hfresh⟩

theorem sound_ran {out : Outcome σ ρ} {s : ShardState ρ} (hs : h.Sound)
    (hfresh : key ∉ h.applied.map Prod.fst)
    (hworld : World.Sound ⟨s, ⟨(key, out.reply) :: h.applied, []⟩⟩)
    (hcovers : ∀ k, k = key ∨ h.state.Covers k → s.Covers k) :
    Host.Sound { h with
      data := out.data, applied := (key, out.reply) :: h.applied, state := s } where
  world := hworld
  covers := fun a ha => by
    rcases List.mem_cons.mp ha with rfl | ha
    · exact hcovers _ (.inl rfl)
    · exact hcovers _ (.inr (hs.covers a ha))
  once := List.nodup_cons.mpr ⟨hfresh, hs.once⟩
  given := fun g hg hd => List.mem_cons_of_mem _ (hs.given g hg hd)

variable {verb : Verb σ ρ}

theorem serves_runRecorded {commits : Bool} (hs : h.Sound)
    (hnew : h.state.windows.completion key = .new) (hfresh : key ∉ h.applied.map Prod.fst)
    (hroute : ∀ r ∈ h.state.replyRoute, h.state.named r = key) (hroom : commits → h.hasRoom verb) :
    Serves key (h.runRecorded key verb commits) := by
  unfold Host.hasRoom at hroom
  unfold Host.runRecorded
  generalize verb.dispatch h.data = out at hroom ⊢
  have hbase : World.Sound ⟨h.state.dispatched out.fleet, ⟨h.applied, []⟩⟩ :=
    { hs.world with }
  cases commits with
  | false => exact serves_refusal ⟨hbase, hs.covers, hs.once, hs.given⟩ hfresh
  | true =>
    obtain ⟨hmore, hown⟩ := hbase.produce ⟨h.state.replyRoute, key, out.reply⟩ hroute
    replace hroom := hroom rfl
    simp only [if_true]
    split
    next =>
      have hreply : (recordCompletion (h.state.dispatched out.fleet).windows key out.reply).1 =
          out.reply := recordCompletion_of_new _ fun hack => nomatch hnew.symm.trans hack
      refine ⟨sound_ran hs hfresh ⟨hmore.awaiting, hmore.destroys, hmore.answers.1, ?_⟩ ?_, ?_⟩
      · intro k held hk
        rcases kept_recordCompletion hk with hold | ⟨rfl, rfl⟩
        · exact hmore.answers.2 k held hold
        · exact .inl List.mem_cons_self
      · intro k hk hn
        obtain ⟨hold, hne⟩ := new_of_recordCompletion hn
        exact hk.resolve_left hne hold
      · intro reply hr _
        obtain rfl := Option.some.inj hr
        rw [hreply]
        exact List.mem_cons_self
    next place hwait =>
      simp only [hwait, Bool.and_eq_true, Option.isNone_iff_eq_none, decide_eq_true_eq] at hroom
      have hfiled := hmore.file hown place
      rw [defer_of_room place hroom.1 hroom.2]
      refine ⟨sound_ran hs hfresh { hfiled with } ?_, nofun⟩
      intro k hk hn
      rcases hk with rfl | hk
      · exact .inl (isSome_update (.inl rfl))
      · exact (hk hn).imp_left fun ha => isSome_update (.inr ha)
    next volume sequence hwait =>
      simp only [hwait, decide_eq_true_eq] at hroom
      have hfiled := hmore.fileDestroy hown volume
      rw [deferDestroy_of_room hroom]
      refine ⟨sound_ran hs hfresh { hfiled with } ?_, nofun⟩
      intro k hk hn
      rcases hk with rfl | hk
      · exact .inr (isSome_update (.inl rfl))
      · exact (hk hn).imp_right fun hd => isSome_update (.inr hd)

theorem serves_serve {route : Option ReplyRoute} {owed commits : Bool} (hs : h.Sound)
    (hc : (HostTurn.ask route key verb owed commits).Completes h) :
    Serves key (h.serve route key verb owed commits) := by
  obtain ⟨hack, hown, hroom⟩ := hc
  have hasked : Host.Sound { h with state := { h.state with replyRoute := route } } :=
    ⟨{ hs.world with }, hs.covers, hs.once, hs.given⟩
  unfold Host.serve
  split
  next reply hdone =>
    refine ⟨hasked, fun held hr _ => ?_⟩
    obtain rfl := Option.some.inj hr
    exact answers_iff.mp (hs.world.answers.2 key reply (kept_of_completed hdone))
  next hdone => exact absurd hdone hack
  next hnew =>
    dsimp only
    split
    next => exact ⟨⟨sound_join hs.world hown, fun a ha => covers_join.mpr (hasked.covers a ha),
      hs.once, hs.given⟩, nofun⟩
    next hj =>
      have hfresh : key ∉ h.applied.map Prod.fst := by
        intro hin
        obtain ⟨a, ha, rfl⟩ := List.mem_map.mp hin
        exact not_covers_of_join (s := { h.state with replyRoute := route }) hnew
          (Bool.eq_false_iff.mpr hj) (hasked.covers a ha)
      split
      next => exact serves_refusal hasked hfresh
      next howed =>
        refine serves_runRecorded hasked hnew hfresh (fun r hr => (hown r hr).1) (hroom ?_)
        rw [Host.runs, hnew]
        simp [hj, howed]

end Serving

theorem host_sound_step {h : Host σ ρ} (t : HostTurn σ ρ) (hs : h.Sound) (hc : t.Completes h) :
    (h.step t).Sound := by
  -- A call that answers waits keeps the world sound and every request covered.
  have hanswers : ∀ {s : ShardState ρ}, World.Sound ⟨s, ⟨h.applied, []⟩⟩ →
      (∀ k, h.state.Covers k → s.Covers k) → Host.Sound { h with state := s } :=
    fun hw hk => ⟨hw, fun a ha => hk a.1 (hs.covers a ha), hs.once, hs.given⟩
  cases t with
  | ask route key verb owed commits =>
    obtain ⟨hserved, hreply⟩ := serves_serve hs hc
    refine ⟨hserved.world, hserved.covers, hserved.once, fun g hg hd => ?_⟩
    rcases List.mem_append.mp hg with hg | hg
    · obtain ⟨reply, hr, rfl⟩ := List.mem_map.mp hg
      exact hreply reply (Option.mem_toList.mp hr) (of_decide_eq_true hd)
    · exact hserved.given g hg hd
  | fleet fleet =>
    exact hanswers { hs.world with } fun _ hk => hk
  | acknowledge client upTo =>
    refine hanswers ⟨hs.world.awaiting, hs.world.destroys, hs.world.answers.1, ?_⟩ ?_
    · exact fun key reply hk => hs.world.answers.2 key reply (kept_acknowledge hk)
    · exact fun k hk hn => hk (new_of_acknowledge hn)
  | resolve volume commits =>
    refine hanswers (sound_resolve hs.world hc.2) fun k hk => ?_
    exact ShardState.Covers.answerAll hk hc.1
  | resolveDestroys volume commits =>
    refine hanswers (sound_resolveDestroys hs.world hc.2) fun k hk => ?_
    simp only [ShardState.resolveDestroys]
    split
    next => exact ShardState.Covers.answerAll hk hc.1
    next => exact hk
  | refuseAwaiting volume current commits =>
    obtain ⟨hawaiting, hdestroys⟩ := hc
    simp only [Host.step, ShardState.refuseAwaiting, hawaiting, hdestroys]
    refine hanswers ⟨fun x hx => ?_, fun x hx => ?_, hs.world.answers⟩ fun _ hk => hk
    · exact hs.world.awaiting x (List.mem_of_mem_filter hx)
    · exact hs.world.destroys x (List.mem_of_mem_filter hx)
  | crash =>
    refine ⟨⟨?_, ?_, hs.world.answers⟩, fun a ha hn => absurd hn (hc a ha), hs.once, hs.given⟩
    · exact fun _ hx => absurd hx List.not_mem_nil
    · exact fun _ hx => absurd hx List.not_mem_nil

/-- A mutation of a live-shipped volume that counts how often it ran. -/
def count : Verb Nat Nat :=
  ⟨some 1, true, fun n => ⟨n + 1, oneVolume none false, .said (n + 1), none⟩⟩

def askCount : HostTurn Nat Nat := .ask (asks 1 0).route (asks 1 0).key count false true

/-- Held, joined by a retry, resolved, and asked again before and after a crash. -/
def countedOnce : List (HostTurn Nat Nat) :=
  [askCount, askCount, .fleet (oneVolume (some 0) true), .resolve 1 [], askCount, .crash, askCount]

end Slates.Server
