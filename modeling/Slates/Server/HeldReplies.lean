import Slates.Library.Runs

/-!
Replies held until a volume is durable (`crates/server/src/live_ship.rs`), over the completion
windows of `crates/wire/src/request.rs`. Effects are committed when the reply is held, the
completion when the wait ends.
-/

namespace Slates.Server

structure RequestId where
  client : BitVec 32
  sequence : BitVec 32
  deriving DecidableEq, Repr

/-- `RequestId::from_word`. -/
def RequestId.fromWord (word : BitVec 64) : RequestId where
  client := (word >>> 32).setWidth 32
  sequence := (word &&& (BitVec.allOnes 32).setWidth 64).setWidth 32

/-- What a completion is kept under: the host whose client asked, and the request. -/
structure Key where
  origin : Nat
  id : RequestId
  deriving DecidableEq, Repr

/-- `Refusal`, as far as these functions build one. -/
inductive Refusal where
  | overloaded (shard : Nat)
  | staleEpoch (current : Nat)
  | duplicateRequest
  | acknowledgementOwed
  | unpublished
  deriving DecidableEq, Repr

/-- `ReplyBody`: a refusal, a destroy's reply, or what another verb says. -/
inductive ReplyBody (ρ : Type) where
  | said (body : ρ)
  | destroyed
  | refused (refusal : Refusal)
  deriving DecidableEq, Repr

structure ReplyRoute where
  shard : Nat
  clientIndex : Nat
  request : BitVec 64
  deriving DecidableEq, Repr

/-! ## Completion windows -/

inductive Seen (T : Type) where
  | new
  | completed (result : T)
  | acknowledged
  deriving DecidableEq, Repr

structure ClientWindow (T : Type) where
  acknowledgedUpTo : Option (BitVec 32)
  completions : BitVec 32 → Option T

variable {T ρ : Type}

/-- `ClientWindow::default`. -/
def ClientWindow.default : ClientWindow T := ⟨none, fun _ => none⟩

/-- Whether the window is acknowledged at or past `sequence`. -/
def ClientWindow.isAcknowledged (w : ClientWindow T) (sequence : BitVec 32) : Bool :=
  w.acknowledgedUpTo.any (sequence ≤ ·)

/-- `ClientWindow::lookup`. -/
def ClientWindow.lookup (w : ClientWindow T) (sequence : BitVec 32) : Seen T :=
  if w.isAcknowledged sequence then .acknowledged
  else match w.completions sequence with
    | some result => .completed result
    | none => .new

/-- `ClientWindow::record`. -/
def ClientWindow.record (w : ClientWindow T) (sequence : BitVec 32) (result : T) : ClientWindow T :=
  if w.isAcknowledged sequence then w
  else { w with completions := Function.update w.completions sequence (some result) }

/-- `ClientWindow::acknowledge`. -/
def ClientWindow.acknowledge (w : ClientWindow T) (upTo : BitVec 32) : ClientWindow T where
  acknowledgedUpTo := some (w.acknowledgedUpTo.elim upTo fun a => if a < upTo then upTo else a)
  completions := fun sequence => if upTo < sequence then w.completions sequence else none

theorem ClientWindow.lookup_eq_acknowledged {w : ClientWindow T} {sequence : BitVec 32} :
    w.lookup sequence = .acknowledged ↔ w.isAcknowledged sequence := by
  unfold lookup
  split
  · simp_all
  · split <;> simp_all

theorem ClientWindow.completions_record {w : ClientWindow T} {sequence at' : BitVec 32}
    {result held : T} (h : (w.record sequence result).completions at' = some held) :
    w.completions at' = some held ∨ at' = sequence ∧ held = result := by
  unfold record at h
  split at h
  · exact .inl h
  · by_cases hat : at' = sequence
    · subst hat
      simp only [Function.update_self] at h
      exact .inr ⟨rfl, (Option.some.inj h).symm⟩
    · simp only [Function.update_of_ne hat] at h
      exact .inl h

abbrev Windows (ρ : Type) := Nat × BitVec 32 → ClientWindow (ReplyBody ρ)

/-- `Partition::completion`. -/
def Windows.completion (windows : Windows ρ) (key : Key) : Seen (ReplyBody ρ) :=
  (windows (key.origin, key.id.client)).lookup key.id.sequence

/-- What a window keeps under a request, acknowledged or not. -/
def Windows.kept (windows : Windows ρ) (key : Key) : Option (ReplyBody ρ) :=
  (windows (key.origin, key.id.client)).completions key.id.sequence

/-- `record_completion` in a transaction: the record of an acknowledged request is refused
(`DbError::StaleCompletion`), and the refusal is the reply. -/
def recordCompletion (windows : Windows ρ) (key : Key) (reply : ReplyBody ρ) :
    ReplyBody ρ × Windows ρ :=
  match windows.completion key with
  | .acknowledged => (.refused .duplicateRequest, windows)
  | _ =>
    let client := (key.origin, key.id.client)
    (reply, Function.update windows client ((windows client).record key.id.sequence reply))

/-- `Op::CompletionsAcknowledged`. -/
def Windows.acknowledge (windows : Windows ρ) (client : Nat × BitVec 32) (upTo : BitVec 32) :
    Windows ρ :=
  Function.update windows client ((windows client).acknowledge upTo)

variable {held reply : ReplyBody ρ} {windows : Windows ρ} {key other : Key}

theorem recordCompletion_of_new (reply : ReplyBody ρ) (h : windows.completion key ≠ .acknowledged) :
    (recordCompletion windows key reply).1 = reply := by
  unfold recordCompletion
  split
  · contradiction
  · rfl

theorem kept_recordCompletion (h : (recordCompletion windows key reply).2.kept other = some held) :
    windows.kept other = some held ∨ other = key ∧ held = reply := by
  obtain ⟨origin, client, sequence⟩ := key
  obtain ⟨origin', client', sequence'⟩ := other
  unfold recordCompletion at h
  split at h
  · exact .inl h
  · by_cases hc : (origin', client') = (origin, client)
    · obtain ⟨rfl, rfl⟩ := Prod.mk.inj hc
      simp only [Windows.kept, Function.update_self] at h
      rcases ClientWindow.completions_record h with hold | ⟨rfl, rfl⟩
      · exact .inl hold
      · exact .inr ⟨rfl, rfl⟩
    · simp only [Windows.kept, Function.update_of_ne hc] at h
      exact .inl h

theorem completion_recordCompletion_acknowledged :
    (recordCompletion windows key reply).2.completion other = .acknowledged ↔
      windows.completion other = .acknowledged := by
  unfold recordCompletion
  split
  · rfl
  · simp only [Windows.completion, ClientWindow.lookup_eq_acknowledged]
    by_cases hc : (other.origin, other.id.client) = (key.origin, key.id.client)
    · rw [hc, Function.update_self]
      unfold ClientWindow.record
      split <;> rfl
    · rw [Function.update_of_ne hc]

theorem kept_acknowledge {client : Nat × BitVec 32} {upTo : BitVec 32}
    (h : (windows.acknowledge client upTo).kept key = some held) :
    windows.kept key = some held := by
  by_cases hc : (key.origin, key.id.client) = client
  · subst hc
    simp only [Windows.kept, Windows.acknowledge, Function.update_self,
      ClientWindow.acknowledge] at h
    split at h
    · exact h
    · cases h
  · simpa only [Windows.kept, Windows.acknowledge, Function.update_of_ne hc] using h

/-! ## Waits -/

structure Awaiting (ρ : Type) where
  route : Option ReplyRoute
  key : Key
  reply : ReplyBody ρ
  deriving DecidableEq, Repr

/-- The positions of the shipper's head and of its durable record. -/
structure LiveShip where
  head : Option Nat
  durable : Option Nat
  owesWhole : Bool
  fenced : Option Nat

/-- What a shard reads of the fleet: the volumes it ships, `head_placed`, `quorum.f`, and each
register's placed sequence with whether it is region-placed. -/
structure Fleet where
  shipping : Nat → Option LiveShip
  headPlaced : Nat → Bool
  f : Nat
  placedHeads : Nat → Option (Nat × Bool)

/-- `ShardState`, as far as held replies go. `awaiting` has each waiter under its volume and target,
by target and then as filed; `destroys` under its volume, with `destroyTarget` the tombstone
sequence waited for; `delivered` is what was sent to the rings. -/
structure ShardState (ρ : Type) where
  shard : Nat
  originAnchor : Nat
  awaitingBound : Nat
  fleet : Fleet
  awaiting : List ((Nat × Nat) × Awaiting ρ)
  awaitingByRequest : Key → Option (Nat × Nat)
  destroys : List (Nat × Awaiting ρ)
  destroyTarget : Nat → Option Nat
  destroysByRequest : Key → Option Nat
  replyRoute : Option ReplyRoute
  windows : Windows ρ
  delivered : List (ReplyRoute × ReplyBody ρ)

def filedAt {P : Type} [DecidableEq P] (place : P) (filed : List (P × Awaiting ρ)) :
    List (Awaiting ρ) :=
  (filed.filter (·.1 = place)).map Prod.snd

variable {entry : Awaiting ρ}

theorem mem_filedAt {P : Type} [DecidableEq P] {place : P} {filed : List (P × Awaiting ρ)} :
    entry ∈ filedAt place filed ↔ (place, entry) ∈ filed := by
  simp [filedAt]

def staleEpoch (current : Nat) : ReplyBody ρ := .refused (.staleEpoch current)

def durableTarget (fleet : Fleet) (volume : Nat) : Option Nat := do
  let live ← fleet.shipping volume
  if live.fenced.isSome then some (live.head.getD 0)
  else if !fleet.headPlaced volume then live.head
  else
    let target ← if live.owesWhole then
        live.head.elim (some 0) fun head => if head + 1 < 2 ^ 64 then some (head + 1) else none
      else live.head
    if !live.owesWhole ∧ live.durable.any (target ≤ ·) then none else some target

namespace ShardState

def fenced (s : ShardState ρ) (volume : Nat) : Option Nat :=
  s.fleet.shipping volume >>= LiveShip.fenced

def heldReplies (s : ShardState ρ) : Nat := s.awaiting.length + s.destroys.length

/-- `live.awaiting.entry(place).or_default().push(entry)`. -/
def file (s : ShardState ρ) (place : Nat × Nat) (entry : Awaiting ρ) : ShardState ρ :=
  { s with awaiting := s.awaiting.orderedInsert (fun a b => a.1.2 < b.1.2) (place, entry) }

def fileDestroy (s : ShardState ρ) (volume : Nat) (entry : Awaiting ρ) : ShardState ρ :=
  { s with destroys := s.destroys ++ [(volume, entry)] }

/-- `defer`: the reply to give now, or the reply held. -/
def defer (s : ShardState ρ) (place : Nat × Nat) (entry : Awaiting ρ) :
    Option (ReplyBody ρ) × ShardState ρ :=
  match s.fenced place.1 with
  | some current => (some (staleEpoch current), s)
  | none =>
    if s.heldReplies ≥ s.awaitingBound then (some (.refused (.overloaded s.shard)), s)
    else (none, { s.file place entry with
      awaitingByRequest := Function.update s.awaitingByRequest entry.key (some place) })

def deferDestroy (s : ShardState ρ) (volume sequence : Nat) (entry : Awaiting ρ) :
    Option (ReplyBody ρ) × ShardState ρ :=
  if s.heldReplies ≥ s.awaitingBound then (some (.refused (.overloaded s.shard)), s)
  else (none, { s.fileDestroy volume entry with
    destroyTarget := Function.update s.destroyTarget volume
      (some (max ((s.destroyTarget volume).getD sequence) sequence))
    destroysByRequest := Function.update s.destroysByRequest entry.key (some volume) })

/-- The waiter a retry becomes: the first one's identity and reply, with the retry's route. -/
def joining (waiting : List (Awaiting ρ)) (route : Option ReplyRoute) : Option (Awaiting ρ) := do
  let route ← route
  let first ← waiting.head?
  some { first with route := some route }

def join (s : ShardState ρ) (key : Key) : Bool × ShardState ρ :=
  match s.destroysByRequest key with
  | some volume =>
    let taken := { s with replyRoute := none }
    (true, (joining (filedAt volume s.destroys) s.replyRoute).elim taken (taken.fileDestroy volume))
  | none =>
    match s.awaitingByRequest key with
    | none => (false, s)
    | some place =>
      let taken := { s with replyRoute := none }
      (true, (joining (filedAt place s.awaiting) s.replyRoute).elim taken (taken.file place))

/-- `answer`, where `commits` is whether the database commits the record. -/
def answer (s : ShardState ρ) (entry : Awaiting ρ) (reply : ReplyBody ρ) (commits : Bool) :
    ShardState ρ :=
  let s := { s with
    awaitingByRequest := Function.update s.awaitingByRequest entry.key none
    destroysByRequest := Function.update s.destroysByRequest entry.key none }
  let recorded := recordCompletion s.windows entry.key reply
  if commits then
    { s with
      windows := recorded.2
      delivered := s.delivered ++ entry.route.toList.map (·, recorded.1) }
  else s

def answerAll (s : ShardState ρ) (reply : Awaiting ρ → ReplyBody ρ) :
    List (Awaiting ρ) → List Bool → ShardState ρ
  | [], _ => s
  | entry :: taken, commits =>
    (s.answer entry (reply entry) (commits.headD true)).answerAll reply taken commits.tail

/-- The volume's log is durable at the waiter's target. -/
def isDue (s : ShardState ρ) (volume : Nat) (waiter : (Nat × Nat) × Awaiting ρ) : Bool :=
  s.fleet.headPlaced volume && waiter.1.1 = volume &&
    (s.fleet.shipping volume >>= LiveShip.durable).any (waiter.1.2 ≤ ·)

def due (s : ShardState ρ) (volume : Nat) : List (Awaiting ρ) :=
  (s.awaiting.filter (s.isDue volume)).map Prod.snd

def resolve (s : ShardState ρ) (volume : Nat) (commits : List Bool) : ShardState ρ :=
  { s with awaiting := s.awaiting.filter (!s.isDue volume ·) }.answerAll Awaiting.reply
    (s.due volume) commits

def tombstonePlaced (s : ShardState ρ) (volume sequence : Nat) : Bool :=
  s.fleet.f = 0 || (s.fleet.placedHeads volume).any fun head => sequence ≤ head.1 && head.2

def withoutDestroys (s : ShardState ρ) (volume : Nat) : ShardState ρ :=
  { s with
    destroys := s.destroys.filter (·.1 ≠ volume)
    destroyTarget := Function.update s.destroyTarget volume none }

def destroysPlaced (s : ShardState ρ) (volume : Nat) : Bool :=
  (s.destroyTarget volume).any (s.tombstonePlaced volume)

def resolveDestroys (s : ShardState ρ) (volume : Nat) (commits : List Bool) : ShardState ρ :=
  if s.destroysPlaced volume then
    (s.withoutDestroys volume).answerAll Awaiting.reply (filedAt volume s.destroys) commits
  else s

/-- `take_awaiting`: every waiter of a volume, at any position. -/
def takeAwaiting (s : ShardState ρ) (volume : Nat) : List (Awaiting ρ) :=
  (s.awaiting.filter (·.1.1 = volume)).map Prod.snd

def refuseAwaiting (s : ShardState ρ) (volume current : Nat) (commits : List Bool) : ShardState ρ :=
  { s.withoutDestroys volume with awaiting := s.awaiting.filter (·.1.1 ≠ volume) }.answerAll
    (fun _ => staleEpoch current) (s.takeAwaiting volume ++ filedAt volume s.destroys) commits

def beside (s : ShardState ρ) (key : Key) : List (Awaiting ρ) :=
  match s.destroysByRequest key with
  | some volume => filedAt volume s.destroys
  | none => (s.awaitingByRequest key).elim [] fun place => filedAt place s.awaiting

end ShardState

/-! ## Runs -/

/-- What verbs replied, request by request, and the epochs fences gave. -/
structure History (ρ : Type) where
  produced : List (Key × ReplyBody ρ)
  fences : List Nat

/-- A reply is one `key` produced, or a fence's refusal. -/
def History.Answers (h : History ρ) (key : Key) (reply : ReplyBody ρ) : Prop :=
  (key, reply) ∈ h.produced ∨ ∃ current ∈ h.fences, reply = staleEpoch current

structure World (ρ : Type) where
  state : ShardState ρ
  history : History ρ

/-- One call, what the fleet became meanwhile, or a client's acknowledgement. A retry meets the
route it left in `reply_route`; a call that answers is told which of its records the database
commits. -/
inductive Turn (ρ : Type) where
  | fleet (fleet : Fleet)
  | acknowledge (client : Nat × BitVec 32) (upTo : BitVec 32)
  | defer (place : Nat × Nat) (entry : Awaiting ρ)
  | deferDestroy (volume sequence : Nat) (entry : Awaiting ρ)
  | join (route : Option ReplyRoute) (key : Key)
  | resolve (volume : Nat) (commits : List Bool)
  | resolveDestroys (volume : Nat) (commits : List Bool)
  | refuseAwaiting (volume current : Nat) (commits : List Bool)

def World.step (w : World ρ) : Turn ρ → World ρ
  | .fleet fleet => { w with state := { w.state with fleet := fleet } }
  | .acknowledge client upTo =>
    { w with state := { w.state with windows := w.state.windows.acknowledge client upTo } }
  | .defer place entry =>
    ⟨(w.state.defer place entry).2,
      { w.history with produced := (entry.key, entry.reply) :: w.history.produced }⟩
  | .deferDestroy volume sequence entry =>
    ⟨(w.state.deferDestroy volume sequence entry).2,
      { w.history with produced := (entry.key, entry.reply) :: w.history.produced }⟩
  | .join route key => { w with state := ({ w.state with replyRoute := route }.join key).2 }
  | .resolve volume commits => { w with state := w.state.resolve volume commits }
  | .resolveDestroys volume commits => { w with state := w.state.resolveDestroys volume commits }
  | .refuseAwaiting volume current commits =>
    ⟨w.state.refuseAwaiting volume current commits,
      { w.history with fences := current :: w.history.fences }⟩

def World.start (shard originAnchor awaitingBound : Nat) (fleet : Fleet) : World ρ where
  state :=
    { shard, originAnchor, awaitingBound, fleet, awaiting := [], destroys := []
      awaitingByRequest := fun _ => none, destroyTarget := fun _ => none
      destroysByRequest := fun _ => none, replyRoute := none
      windows := fun _ => .default, delivered := [] }
  history := ⟨[], []⟩

def ShardState.named (s : ShardState ρ) (route : ReplyRoute) : Key :=
  ⟨s.originAnchor, RequestId.fromWord route.request⟩

/-- Every reply delivered, and every completion kept, is its own request's. -/
def World.AnswersOwn (w : World ρ) : Prop :=
  (∀ d ∈ w.state.delivered, w.history.Answers (w.state.named d.1) d.2) ∧
    ∀ key reply, w.state.windows.kept key = some reply → w.history.Answers key reply

/-- What keeps replies their own: a route names the request it is given with; the reply at the head
of the place a retry joins is also the retried request's; no waiter answered is acknowledged
already. -/
def Turn.OwnReply (w : World ρ) : Turn ρ → Prop
  | .fleet _ | .acknowledge _ _ => True
  | .defer _ entry | .deferDestroy _ _ entry => ∀ r ∈ entry.route, w.state.named r = entry.key
  | .join route key => ∀ r ∈ route, w.state.named r = key ∧
      ∀ first ∈ (w.state.beside key).head?, ∃ own ∈ w.state.beside key,
        own.key = key ∧ own.reply = first.reply
  | .resolve volume _ =>
    ∀ entry ∈ w.state.due volume, w.state.windows.completion entry.key ≠ .acknowledged
  | .resolveDestroys volume _ => w.state.destroysPlaced volume →
    ∀ entry ∈ filedAt volume w.state.destroys, w.state.windows.completion entry.key ≠ .acknowledged
  | .refuseAwaiting volume _ _ =>
    ∀ entry ∈ w.state.takeAwaiting volume ++ filedAt volume w.state.destroys,
      w.state.windows.completion entry.key ≠ .acknowledged

instance [DecidableEq ρ] (w : World ρ) (t : Turn ρ) : Decidable (t.OwnReply w) := by
  cases t <;> unfold Turn.OwnReply <;> infer_instance

/-- A waiter's reply is its request's, and the request's its route names. -/
def ShardState.Owns (s : ShardState ρ) (h : History ρ) (entry : Awaiting ρ) : Prop :=
  (entry.key, entry.reply) ∈ h.produced ∧
    ∀ r ∈ entry.route, (s.named r, entry.reply) ∈ h.produced

/-- The invariant: what is held is owned, and what was answered answers its own. -/
structure World.Sound (w : World ρ) : Prop where
  awaiting : ∀ x ∈ w.state.awaiting, w.state.Owns w.history x.2
  destroys : ∀ x ∈ w.state.destroys, w.state.Owns w.history x.2
  answers : w.AnswersOwn

theorem History.Answers.mono {h h' : History ρ} (ha : h.Answers key reply)
    (hp : h.produced ⊆ h'.produced) (hf : h.fences ⊆ h'.fences) : h'.Answers key reply := by
  rcases ha with ha | ⟨current, hc, rfl⟩
  · exact .inl (hp ha)
  · exact .inr ⟨current, hf hc, rfl⟩

variable {s : ShardState ρ}

theorem World.AnswersOwn.mono {h h' : History ρ} (ha : AnswersOwn ⟨s, h⟩)
    (hp : h.produced ⊆ h'.produced) (hf : h.fences ⊆ h'.fences) : AnswersOwn ⟨s, h'⟩ :=
  ⟨fun d hd => (ha.1 d hd).mono hp hf, fun key reply hk => (ha.2 key reply hk).mono hp hf⟩

theorem World.Sound.mono {h h' : History ρ} (hs : Sound ⟨s, h⟩)
    (hp : h.produced ⊆ h'.produced) (hf : h.fences ⊆ h'.fences) : Sound ⟨s, h'⟩ where
  awaiting := fun x hx => ⟨hp (hs.awaiting x hx).1, fun r hr => hp ((hs.awaiting x hx).2 r hr)⟩
  destroys := fun x hx => ⟨hp (hs.destroys x hx).1, fun r hr => hp ((hs.destroys x hx).2 r hr)⟩
  answers := hs.answers.mono hp hf

/-! ### Answering -/

section Answering

variable {s : ShardState ρ} {h : History ρ} {entry : Awaiting ρ}

def ShardState.Fits (s : ShardState ρ) (h : History ρ) (entry : Awaiting ρ)
    (reply : ReplyBody ρ) : Prop :=
  h.Answers entry.key reply ∧ ∀ r ∈ entry.route, h.Answers (s.named r) reply

theorem ShardState.Owns.fits (ho : s.Owns h entry) : s.Fits h entry entry.reply :=
  ⟨.inl ho.1, fun r hr => .inl (ho.2 r hr)⟩

theorem answersOwn_answer {reply : ReplyBody ρ} {commits : Bool}
    (ha : World.AnswersOwn ⟨s, h⟩) (hfit : s.Fits h entry reply)
    (hnew : s.windows.completion entry.key ≠ .acknowledged) :
    World.AnswersOwn ⟨s.answer entry reply commits, h⟩ := by
  cases commits with
  | false => exact ha
  | true =>
    constructor
    · intro d hd
      rcases List.mem_append.mp hd with hd | hd
      · exact ha.1 d hd
      · obtain ⟨r, hr, rfl⟩ := List.mem_map.mp hd
        simp only [recordCompletion_of_new reply hnew]
        exact hfit.2 r (Option.mem_toList.mp hr)
    · intro key held hk
      rcases kept_recordCompletion hk with hold | ⟨rfl, rfl⟩
      · exact ha.2 key held hold
      · exact hfit.1

theorem completion_answer {reply : ReplyBody ρ} {commits : Bool} {key : Key} :
    (s.answer entry reply commits).windows.completion key = .acknowledged ↔
      s.windows.completion key = .acknowledged := by
  cases commits with
  | false => rfl
  | true => exact completion_recordCompletion_acknowledged

@[simp]
theorem answer_awaiting (reply : ReplyBody ρ) (commits : Bool) :
    (s.answer entry reply commits).awaiting = s.awaiting := by cases commits <;> rfl

@[simp]
theorem answer_destroys (reply : ReplyBody ρ) (commits : Bool) :
    (s.answer entry reply commits).destroys = s.destroys := by cases commits <;> rfl

@[simp]
theorem answer_named (reply : ReplyBody ρ) (commits : Bool) (r : ReplyRoute) :
    (s.answer entry reply commits).named r = s.named r := by cases commits <;> rfl

theorem sound_answerAll {reply : Awaiting ρ → ReplyBody ρ} {taken : List (Awaiting ρ)}
    {commits : List Bool} (hs : World.Sound ⟨s, h⟩) (hfit : ∀ e ∈ taken, s.Fits h e (reply e))
    (hnew : ∀ e ∈ taken, s.windows.completion e.key ≠ .acknowledged) :
    World.Sound ⟨s.answerAll reply taken commits, h⟩ := by
  induction taken generalizing s commits with
  | nil => exact hs
  | cons entry taken ih =>
    have hone : World.Sound ⟨s.answer entry (reply entry) (commits.headD true), h⟩ := by
      refine ⟨?_, ?_, answersOwn_answer hs.answers (hfit entry List.mem_cons_self)
        (hnew entry List.mem_cons_self)⟩
      · simpa [ShardState.Owns] using hs.awaiting
      · simpa [ShardState.Owns] using hs.destroys
    refine ih hone (fun e he => ?_) fun e he => ?_
    · simpa [ShardState.Fits] using hfit e (List.mem_cons_of_mem _ he)
    · exact fun hack => hnew e (List.mem_cons_of_mem _ he) (completion_answer.mp hack)

end Answering

/-! ### One turn -/

section Turns

variable {w : World ρ}

theorem World.Sound.file {s : ShardState ρ} {h : History ρ} {entry : Awaiting ρ}
    (hs : Sound ⟨s, h⟩) (ho : s.Owns h entry) (place : Nat × Nat) :
    Sound ⟨s.file place entry, h⟩ where
  awaiting := fun x hx => by
    rcases (List.mem_orderedInsert _).mp hx with rfl | hx
    · exact ho
    · exact hs.awaiting x hx
  destroys := hs.destroys
  answers := hs.answers

theorem World.Sound.fileDestroy {h : History ρ}
    (hs : Sound ⟨s, h⟩) (ho : s.Owns h entry) (volume : Nat) :
    Sound ⟨s.fileDestroy volume entry, h⟩ where
  awaiting := hs.awaiting
  destroys := fun x hx => by
    rcases List.mem_append.mp hx with hx | hx
    · exact hs.destroys x hx
    · rw [List.mem_singleton.mp hx]
      exact ho
  answers := hs.answers

theorem World.Sound.produce (hs : w.Sound) (entry : Awaiting ρ)
    (hroute : ∀ r ∈ entry.route, w.state.named r = entry.key) :
    Sound ⟨w.state, { w.history with produced := (entry.key, entry.reply) :: w.history.produced }⟩ ∧
      w.state.Owns { w.history with produced := (entry.key, entry.reply) :: w.history.produced }
        entry := by
  refine ⟨hs.mono (List.subset_cons_self _ _) (List.Subset.refl _), List.mem_cons_self, ?_⟩
  intro r hr
  rw [hroute r hr]
  exact List.mem_cons_self

theorem sound_defer {place : Nat × Nat} (hs : w.Sound)
    (hc : (Turn.defer place entry).OwnReply w) : (w.step (.defer place entry)).Sound := by
  obtain ⟨hmore, hown⟩ := hs.produce entry hc
  simp only [World.step, ShardState.defer]
  split
  · exact hmore
  · split
    · exact hmore
    · have hfiled := hmore.file hown place
      exact { hfiled with }

variable {volume : Nat} {route : Option ReplyRoute} {commits : List Bool}

theorem sound_deferDestroy {sequence : Nat} (hs : w.Sound)
    (hc : (Turn.deferDestroy volume sequence entry).OwnReply w) :
    (w.step (.deferDestroy volume sequence entry)).Sound := by
  obtain ⟨hmore, hown⟩ := hs.produce entry hc
  simp only [World.step, ShardState.deferDestroy]
  split
  · exact hmore
  · have hfiled := hmore.fileDestroy hown volume
    exact { hfiled with }

theorem owns_joining {waiting : List (Awaiting ρ)} {key : Key}
    (hown : ∀ e ∈ waiting, w.state.Owns w.history e)
    (hc : ∀ r ∈ route, w.state.named r = key ∧ ∀ first ∈ waiting.head?, ∃ own ∈ waiting,
      own.key = key ∧ own.reply = first.reply)
    (hj : ShardState.joining waiting route = some entry) : w.state.Owns w.history entry := by
  simp only [ShardState.joining, Option.bind_eq_bind, Option.bind_eq_some_iff] at hj
  obtain ⟨r, hr, first, hfirst, he⟩ := hj
  obtain rfl := Option.some.inj he
  obtain ⟨hname, hbeside⟩ := hc r hr
  obtain ⟨own, hmem, hkey, hreply⟩ := hbeside first hfirst
  refine ⟨(hown first (List.mem_of_mem_head? hfirst)).1, ?_⟩
  intro r' hr'
  obtain rfl := Option.some.inj hr'
  have hproduced := (hown own hmem).1
  rw [hkey, hreply] at hproduced
  rw [hname]
  exact hproduced

theorem sound_join {key : Key} (hs : w.Sound) (hc : (Turn.join route key).OwnReply w) :
    (w.step (.join route key)).Sound := by
  have htaken : World.Sound ⟨{ w.state with replyRoute := none }, w.history⟩ :=
    { hs with }
  simp only [Turn.OwnReply, ShardState.beside] at hc
  simp only [World.step, ShardState.join]
  split
  next volume hv =>
    simp only [hv] at hc
    cases hj : ShardState.joining (filedAt volume w.state.destroys) route with
    | none => exact htaken
    | some entry =>
      refine htaken.fileDestroy (owns_joining (fun e he => ?_) hc hj) volume
      exact hs.destroys _ (mem_filedAt.mp he)
  next hv =>
    simp only [hv] at hc
    split
    next => exact { hs with }
    next place hp =>
      simp only [hp] at hc
      cases hj : ShardState.joining (filedAt place w.state.awaiting) route with
      | none => exact htaken
      | some entry =>
        refine htaken.file (owns_joining (fun e he => ?_) hc hj) place
        exact hs.awaiting _ (mem_filedAt.mp he)

theorem sound_resolve (hs : w.Sound) (hc : (Turn.resolve volume commits).OwnReply w) :
    (w.step (.resolve volume commits)).Sound := by
  refine sound_answerAll ⟨?_, hs.destroys, hs.answers⟩ (fun e he => ?_) hc
  · exact fun x hx => hs.awaiting x (List.mem_of_mem_filter hx)
  · obtain ⟨x, hx, rfl⟩ := List.mem_map.mp he
    exact (hs.awaiting x (List.mem_of_mem_filter hx)).fits

theorem sound_withoutDestroys (hs : w.Sound) (volume : Nat) :
    World.Sound ⟨w.state.withoutDestroys volume, w.history⟩ :=
  ⟨hs.awaiting, fun x hx => hs.destroys x (List.mem_of_mem_filter hx), hs.answers⟩

theorem sound_resolveDestroys (hs : w.Sound)
    (hc : (Turn.resolveDestroys volume commits).OwnReply w) :
    (w.step (.resolveDestroys volume commits)).Sound := by
  simp only [World.step, ShardState.resolveDestroys]
  split
  next hplaced =>
    refine sound_answerAll (sound_withoutDestroys hs volume) (fun e he => ?_) (hc hplaced)
    exact ShardState.Owns.fits (hs.destroys _ (mem_filedAt.mp he))
  next => exact hs

theorem sound_refuseAwaiting {current : Nat} (hs : w.Sound)
    (hc : (Turn.refuseAwaiting volume current commits).OwnReply w) :
    (w.step (.refuseAwaiting volume current commits)).Sound := by
  have hmore : World.Sound ⟨w.state.withoutDestroys volume,
      { w.history with fences := current :: w.history.fences }⟩ :=
    (sound_withoutDestroys hs volume).mono (List.Subset.refl _) (List.subset_cons_self _ _)
  refine sound_answerAll ⟨?_, hmore.destroys, hmore.answers⟩ (fun e _ => ?_) hc
  · exact fun x hx => hmore.awaiting x (List.mem_of_mem_filter hx)
  · have hfence :
        ∀ key, History.Answers { w.history with fences := current :: w.history.fences } key
        (staleEpoch current) := fun _ => .inr ⟨current, List.mem_cons_self, rfl⟩
    exact ⟨hfence _, fun r _ => hfence _⟩

theorem sound_step (t : Turn ρ) (hs : w.Sound) (hc : t.OwnReply w) : (w.step t).Sound := by
  cases t with
  | fleet fleet => exact { hs with }
  | acknowledge client upTo =>
    exact ⟨hs.awaiting, hs.destroys, hs.answers.1,
      fun key reply hk => hs.answers.2 key reply (kept_acknowledge hk)⟩
  | defer place entry => exact sound_defer hs hc
  | deferDestroy volume sequence entry => exact sound_deferDestroy hs hc
  | join route key => exact sound_join hs hc
  | resolve volume commits => exact sound_resolve hs hc
  | resolveDestroys volume commits => exact sound_resolveDestroys hs hc
  | refuseAwaiting volume current commits => exact sound_refuseAwaiting hs hc

end Turns

theorem sound_start (shard originAnchor awaitingBound : Nat) (fleet : Fleet) :
    (World.start shard originAnchor awaitingBound fleet : World ρ).Sound where
  awaiting := fun _ hx => absurd hx List.not_mem_nil
  destroys := fun _ hx => absurd hx List.not_mem_nil
  answers := ⟨fun _ hd => absurd hd List.not_mem_nil, fun _ _ hk => nomatch hk⟩

/-- **A held reply answers its own request**, where retries join their own reply. -/
theorem held_reply_answers_own (shard originAnchor awaitingBound : Nat) (fleet : Fleet)
    (turns : List (Turn ρ))
    (hturns : Runs.Meets World.step (fun w t => t.OwnReply w)
      (World.start shard originAnchor awaitingBound fleet) turns) :
    (turns.foldl World.step (World.start shard originAnchor awaitingBound fleet)).AnswersOwn :=
  (hturns.invariant (fun _ t hs hc => sound_step t hs hc)
    (sound_start shard originAnchor awaitingBound fleet)).answers

/-- One shipped volume with its head at position 0. -/
def oneVolume (durable : Option Nat) (placed : Bool) : Fleet where
  shipping := fun volume => if volume = 1 then some ⟨some 0, durable, false, none⟩ else none
  headPlaced := fun _ => placed
  f := 1
  placedHeads := fun _ => none

def asks (client : BitVec 32) (reply : Nat) : Awaiting Nat :=
  ⟨some ⟨0, 0, client.setWidth 64 <<< 32 ||| 1⟩, ⟨7, client, 1⟩, .said reply⟩

/-- Two requests held at one position, one of them asked again. -/
def twoHeld (retry : Awaiting Nat) : List (Turn Nat) :=
  [.defer (1, 0) (asks 1 10), .defer (1, 0) (asks 2 20), .join retry.route retry.key,
    .fleet (oneVolume (some 0) true), .resolve 1 []]

theorem held_reply_answers_own_firstRetried :
    Runs.Meets World.step (fun w t => t.OwnReply w) (World.start 0 7 8 (oneVolume none false))
        (twoHeld (asks 1 10)) ∧
      ((twoHeld (asks 1 10)).foldl World.step
        (World.start 0 7 8 (oneVolume none false))).AnswersOwn :=
  ⟨by decide +kernel, held_reply_answers_own 0 7 8 _ _ (by decide +kernel)⟩

/-- The retry is delivered the other request's reply: both wait at one position. -/
theorem retry_delivered_anothers_reply :
    durableTarget (oneVolume none false) 1 = some 0 ∧
      ¬((twoHeld (asks 2 20)).foldl World.step
        (World.start 0 7 8 (oneVolume none false))).AnswersOwn := by
  refine ⟨by decide, fun h => ?_⟩
  have hdelivered := h.1 (⟨0, 0, 0x200000001#64⟩, .said 10) (by decide +kernel)
  unfold History.Answers at hdelivered
  revert hdelivered
  decide +kernel

end Slates.Server
