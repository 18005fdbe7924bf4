import Slates.Library.Quorums
import Slates.Library.Runs
import Slates.Register.Acceptor

/-!
Takeovers of one object, one owner a generation, over messages that are lost, repeated and
reordered. Reports are ordered by sequence before epoch, so an older owner's uncommitted record can
displace a committed one (`displaced_by_older`); where none is left behind, a promotion keeps every
acknowledged record (`keeps_run`).
-/

namespace Slates.Register

/-- The object, its `2f + 1` candidates, and who owns it in each generation, each owner at a higher
epoch than those before. -/
structure Succession where
  object : ObjectId
  quorum : Quorum
  candidates : List HostId
  owner : Nat → HostId
  epoch : Nat → HostEpoch
  identity : Record → Digest
  size : candidates.length = quorum.candidates
  increasing : StrictMono epoch

namespace Succession

variable (succession : Succession)

def authority (generation : Nat) : Authority := ⟨generation, succession.owner generation⟩

def prepare (generation : Nat) : Prepare where
  owner := succession.owner generation
  object := succession.object
  epoch := succession.epoch generation
  generation

def record (generation sequence : Nat) (value : List UInt8) : Record where
  owner := succession.owner generation
  object := succession.object
  sequence
  epoch := succession.epoch generation
  generation
  value

end Succession

/-- A completed promotion, and the records that were committed when it completed. -/
structure Promoted where
  generation : Nat
  promotion : Promotion
  before : List Record

/-- Every holder and message, the records as first written, and the promotions. -/
structure Ledger where
  acceptors : HostId → Acceptor
  records : List Record
  writes : List Record
  acks : List Ack
  promises : List Promise
  promotions : List Promoted

inductive Action where
  | install (holder : HostId) (generation : Nat)
  | raiseFence (holder : HostId) (epoch : HostEpoch)
  | promise (holder : HostId) (generation : Nat)
  | promote (generation : Nat) (promises : List Promise)
  | write (generation sequence : Nat) (value : List UInt8)
  | deliver (holder : HostId) (record : Record)
  | compact (holder : HostId) (sequence : Nat)
  | restart (holder : HostId)

namespace Ledger

variable (succession : Succession)

def start : Ledger where
  acceptors holder := .new holder (succession.authority 0)
  records := []
  writes := []
  acks := []
  promises := []
  promotions := []

def ackers (s : Ledger) (record : Record) : List HostId :=
  (s.acks.filter (·.binds succession.identity record)).map (·.holder)

/-- `f + 1` distinct candidates acknowledged it. -/
def committed (s : Ledger) (record : Record) : Bool :=
  succession.quorum.committed
    (distinctAcksWithin succession.candidates (s.ackers succession record))

def replace (s : Ledger) (holder : HostId) (acceptor : Acceptor) : Ledger :=
  { s with acceptors := Function.update s.acceptors holder acceptor }

/-- The first owner, or one that was promoted. -/
def reigns (s : Ledger) (generation : Nat) : Bool :=
  generation == 0 || s.promotions.any fun p => p.generation == generation

/-- An owner promoted by a recovery quorum of promises ships what it adopts. -/
def promote (s : Ledger) (generation : Nat) (promises : List Promise) : Ledger :=
  let prepare := succession.prepare generation
  let promotion := promoteOverHolders succession.candidates prepare promises
  if !s.reigns generation && promises.all (fun p => decide (p ∈ s.promises)) &&
      decide (succession.quorum.recovery succession.candidates.length ≤
        promotion.promised.length) then
    { s with
      promotions := s.promotions ++
        [⟨generation, promotion, s.records.filter (s.committed succession)⟩]
      records := s.records ++ (promotion.adoptionRecord prepare).toList }
  else s

def step (s : Ledger) : Action → Ledger
  | .install holder generation =>
    match (s.acceptors holder).installAuthority (succession.authority generation) with
    | .ok acceptor => s.replace holder acceptor
    | .error _ => s
  | .raiseFence holder epoch => s.replace holder ((s.acceptors holder).raiseFence epoch)
  | .promise holder generation =>
    match (s.acceptors holder).prepare (succession.prepare generation) with
    | .ok (acceptor, promise) =>
      { s.replace holder acceptor with promises := s.promises ++ [promise] }
    | .error _ => s
  | .promote generation promises => s.promote succession generation promises
  | .write generation sequence value =>
    if s.reigns generation && s.records.all (fun r =>
        r.generation != generation || decide (r.sequence < sequence)) then
      { s with
        records := s.records ++ [succession.record generation sequence value]
        writes := s.writes ++ [succession.record generation sequence value] }
    else s
  | .deliver holder record =>
    if record ∈ s.records then
      match (s.acceptors holder).accept succession.identity record with
      | .ok (acceptor, ack) => { s.replace holder acceptor with acks := s.acks ++ [ack] }
      | .error _ => s
    else s
  | .compact holder sequence =>
    if (s.acceptors holder).accepted.any fun held =>
        held.object == succession.object && held.sequence == sequence then
      s.replace holder ((s.acceptors holder).compactBelow succession.object sequence)
    else s
  | .restart holder =>
    s.replace holder (.recovered (s.acceptors holder).id (s.acceptors holder).authority
      (s.acceptors holder).persisted.1 (s.acceptors holder).persisted.2)

def run (s : Ledger) (actions : List Action) : Ledger := actions.foldl (step succession) s

/-- Its value at its position, or a record beyond it that no older owner wrote. -/
def Keeps (s : Ledger) (p : Promoted) (record : Record) : Prop :=
  ∃ a, p.promotion.adopted = some a ∧
    (a.sequence = record.sequence ∧ a.value = record.value ∨
      record.sequence < a.sequence ∧
        (∃ w ∈ s.writes, w.sequence = a.sequence ∧ w.value = a.value) ∧
        ∀ w ∈ s.writes, w.sequence = a.sequence → w.value = a.value → record.epoch ≤ w.epoch)

/-- A promotion keeps every record committed before it or by an older owner. -/
def Safe (s : Ledger) : Prop :=
  ∀ p ∈ s.promotions, ∀ record ∈ s.records,
    (record ∈ p.before ∨
      s.committed succession record = true ∧ record.epoch < succession.epoch p.generation) →
    s.Keeps p record

def Newest (s : Ledger) (generation : Nat) : Prop :=
  ∀ p ∈ s.promotions, p.generation ≤ generation

variable {best : Option Accepted}

/-- An owner writes only while no newer one has been promoted, and a promotion leaves no uncommitted
record beyond what its promises report. -/
def LeavesNone (s : Ledger) : Action → Prop
  | .promote generation promises => s.Newest generation ∧ ∀ record ∈ s.records,
      s.committed succession record = true ∨
        ∃ promise ∈ counted succession.candidates (succession.prepare generation) promises,
          ∃ a, promise.highest = some a ∧ record.sequence ≤ a.sequence
  | .write generation _ _ => s.Newest generation
  | _ => True

end Ledger

/-! ## Reports -/

theorem mem_of_newest {reports : List Accepted} {a : Accepted}
    (h : reports.foldl keepNewer best = some a) : best = some a ∨ a ∈ reports := by
  induction reports generalizing best with
  | nil => exact .inl h
  | cons next reports ih =>
    rcases ih h with hbest | hin
    · cases best with
      | none =>
        cases hbest
        exact .inr List.mem_cons_self
      | some best =>
        simp only [keepNewer] at hbest
        split at hbest
        · cases hbest
          exact .inr List.mem_cons_self
        · exact .inl hbest
    · exact .inr (List.mem_cons_of_mem _ hin)

theorem le_keepNewer (best : Option Accepted) (next : Accepted) :
    ∃ a, keepNewer best next = some a ∧ next.sequence ≤ a.sequence ∧
      ∀ b, best = some b → b.sequence ≤ a.sequence := by
  cases best with
  | none => exact ⟨next, rfl, le_rfl, nofun⟩
  | some best =>
    rw [keepNewer]
    by_cases hnewer : next.newerThan best = true
    · rw [if_pos hnewer]
      refine ⟨next, rfl, le_rfl, fun b hb => ?_⟩
      cases hb
      simp only [Accepted.newerThan, Bool.or_eq_true, Bool.and_eq_true, decide_eq_true_eq,
        beq_iff_eq] at hnewer
      omega
    · rw [if_neg hnewer]
      refine ⟨best, rfl, ?_, fun b hb => ?_⟩
      · simp only [Accepted.newerThan, Bool.or_eq_true, Bool.and_eq_true, decide_eq_true_eq,
          beq_iff_eq] at hnewer
        omega
      · cases hb
        exact le_rfl

theorem le_newest {reports : List Accepted} {a : Accepted} (h : best = some a ∨ a ∈ reports) :
    ∃ b, reports.foldl keepNewer best = some b ∧ a.sequence ≤ b.sequence := by
  induction reports generalizing best a with
  | nil =>
    rcases h with h | h
    · exact ⟨a, h, le_rfl⟩
    · cases h
  | cons next reports ih =>
    obtain ⟨b, hb, hnext, hbest⟩ := le_keepNewer best next
    rw [List.foldl_cons]
    have hcovered : ∃ c, (keepNewer best next = some c ∨ c ∈ reports) ∧
        a.sequence ≤ c.sequence := by
      rcases h with h | h
      · exact ⟨b, .inl hb, hbest a h⟩
      · rcases List.mem_cons.mp h with rfl | h
        · exact ⟨b, .inl hb, hnext⟩
        · exact ⟨a, .inr h, le_rfl⟩
    obtain ⟨c, hc, hle⟩ := hcovered
    obtain ⟨d, hd, hcd⟩ := ih hc
    exact ⟨d, hd, hle.trans hcd⟩

structure Counts (candidates : List HostId) (prepare : Prepare) (promises counted : List Promise) :
    Prop where
  mem : ∀ p ∈ counted, p ∈ promises
  binds : ∀ p ∈ counted, p.binds prepare = true
  candidate : ∀ p ∈ counted, p.holder ∈ candidates
  nodup : (counted.map (·.holder)).Nodup

theorem counted_append (candidates : List HostId) (prepare : Prepare) (promises : List Promise)
    (promise : Promise) :
    counted candidates prepare (promises ++ [promise]) =
      if promise.binds prepare && decide (promise.holder ∈ candidates) &&
          decide (promise.holder ∉ (counted candidates prepare promises).map (·.holder)) then
        counted candidates prepare promises ++ [promise]
      else counted candidates prepare promises := by
  rw [counted, List.foldl_append]
  rfl

theorem counts_counted (candidates : List HostId) (prepare : Prepare) (promises : List Promise) :
    Counts candidates prepare promises (counted candidates prepare promises) := by
  induction promises using List.reverseRecOn with
  | nil => exact ⟨nofun, nofun, nofun, List.nodup_nil⟩
  | append_singleton promises promise ih =>
    rw [counted_append]
    have hmono : ∀ p ∈ counted candidates prepare promises, p ∈ promises ++ [promise] :=
      fun p hp => List.mem_append_left _ (ih.mem p hp)
    split
    · rename_i hcounts
      simp only [Bool.and_eq_true, decide_eq_true_eq] at hcounts
      obtain ⟨⟨hbinds, hcandidate⟩, hnew⟩ := hcounts
      have hmem : ∀ p ∈ counted candidates prepare promises ++ [promise],
          p ∈ counted candidates prepare promises ∨ p = promise := fun p hp =>
        (List.mem_append.mp hp).imp_right List.mem_singleton.mp
      refine ⟨fun p hp => ?_, fun p hp => ?_, fun p hp => ?_, ?_⟩
      · rcases hmem p hp with hp | rfl
        · exact hmono p hp
        · simp
      · rcases hmem p hp with hp | rfl
        · exact ih.binds p hp
        · exact hbinds
      · rcases hmem p hp with hp | rfl
        · exact ih.candidate p hp
        · exact hcandidate
      · rw [List.map_append, List.nodup_append]
        refine ⟨ih.nodup, List.nodup_singleton _, fun a ha b hb heq => hnew ?_⟩
        rw [List.map_singleton, List.mem_singleton] at hb
        rw [← hb, ← heq]
        exact ha
    · exact ⟨hmono, ih.binds, ih.candidate, ih.nodup⟩

/-! ## What an acceptor keeps -/

/-- An acceptor's fence only rises, and for each position of the object it holds that one or a later
one. -/
structure Advances (object : ObjectId) (a b : Acceptor) : Prop where
  id : b.id = a.id
  fence : a.fence.seen ≤ b.fence.seen
  held : ∀ e ∈ a.accepted, e.object = object →
    ∃ e' ∈ b.accepted, e'.object = object ∧ e.sequence ≤ e'.sequence

section Acceptor

variable {object : ObjectId} {a b : Acceptor}

theorem Advances.of_accepted (hid : b.id = a.id) (hfence : a.fence.seen ≤ b.fence.seen)
    (haccepted : b.accepted = a.accepted) : Advances object a b :=
  ⟨hid, hfence, fun e he ho => ⟨e, haccepted ▸ he, ho, le_rfl⟩⟩

theorem fence_accept {fence fence' : Fence} {epoch : HostEpoch}
    (h : fence.accept epoch = .ok fence') : fence.seen ≤ epoch ∧ fence'.seen = epoch := by
  rw [Fence.accept] at h
  split at h
  · cases h
  · rename_i hle
    cases h
    exact ⟨Nat.not_lt.mp hle, rfl⟩

theorem le_accept_getD (fence : Fence) (epoch : HostEpoch) :
    fence.seen ≤ ((fence.accept epoch).toOption.getD fence).seen ∧
      (fence = .new → epoch ≤ ((fence.accept epoch).toOption.getD fence).seen) := by
  cases h : fence.accept epoch with
  | error e =>
    refine ⟨le_rfl, ?_⟩
    rintro rfl
    rw [Fence.accept] at h
    split at h
    · rename_i hlt
      exact hlt.le
    · cases h
  | ok fence' =>
    obtain ⟨hle, heq⟩ := fence_accept h
    exact ⟨hle.trans heq.ge, fun _ => heq.ge⟩

theorem advances_raiseFence (a : Acceptor) (epoch : HostEpoch) :
    Advances object a (a.raiseFence epoch) :=
  .of_accepted rfl (le_accept_getD a.fence epoch).1 rfl

theorem advances_recovered (a : Acceptor) :
    Advances object a (.recovered a.id a.authority a.persisted.1 a.persisted.2) :=
  .of_accepted rfl ((le_accept_getD .new a.fence.seen).2 rfl) rfl

theorem advances_installAuthority {authority : Authority}
    (h : a.installAuthority authority = .ok b) :
    Advances object a b ∧ b.accepted = a.accepted := by
  rw [Acceptor.installAuthority] at h
  split at h
  · cases h
  · cases h
    exact ⟨.of_accepted rfl le_rfl rfl, rfl⟩

theorem advances_compactBelow {sequence : Nat}
    (h : a.accepted.any (fun held => held.object == object && held.sequence == sequence) = true) :
    Advances object a (a.compactBelow object sequence) := by
  simp only [List.any_eq_true, Bool.and_eq_true, beq_iff_eq] at h
  obtain ⟨kept, hkept, ho, hsequence⟩ := h
  refine ⟨rfl, le_rfl, fun e he heo => ?_⟩
  rcases Nat.lt_or_ge e.sequence sequence with hlt | hge
  · refine ⟨kept, List.mem_filter.mpr ⟨hkept, ?_⟩, ho, ?_⟩
    · simp [hsequence]
    · omega
  · exact ⟨e, List.mem_filter.mpr ⟨he, by simp [hge]⟩, heo, le_rfl⟩

theorem prepare_eq_ok {prepare : Prepare} {promise : Promise}
    (h : a.prepare prepare = .ok (b, promise)) :
    Advances object a b ∧ b.accepted = a.accepted ∧ b.fence.seen = prepare.epoch ∧
      promise = ⟨a.id, prepare.object, prepare.epoch, prepare.generation,
        (a.reports prepare.object).foldl keepNewer none⟩ := by
  rw [Acceptor.prepare] at h
  split at h
  · cases h
  rename_i hgeneration
  split at h
  · cases h
  cases hfence : a.fence.accept prepare.epoch with
  | error e =>
    rw [hfence] at h
    cases h
  | ok fence =>
    rw [hfence] at h
    cases h
    obtain ⟨hle, heq⟩ := fence_accept hfence
    refine ⟨.of_accepted rfl (hle.trans heq.ge) rfl, rfl, heq, ?_⟩
    rw [not_ne_iff.mp hgeneration]

theorem accept_eq_ok {identity : Record → Digest} {record : Record} {ack : Ack}
    (h : a.accept identity record = .ok (b, ack)) :
    Advances object a b ∧ a.fence.seen ≤ record.epoch ∧
      (∀ e ∈ b.accepted, e ∈ a.accepted ∨
        e = ⟨record.object, record.sequence, record.epoch, record.value⟩) ∧
      ⟨record.object, record.sequence, record.epoch, record.value⟩ ∈ b.accepted ∧
      ack = ⟨a.id, record.object, record.sequence, record.generation, identity record⟩ := by
  rw [Acceptor.accept] at h
  cases hcheck : a.check record with
  | error e =>
    rw [hcheck] at h
    cases h
  | ok u =>
    cases hfence : a.fence.accept record.epoch with
    | error e =>
      rw [hcheck, hfence] at h
      cases h
    | ok fence =>
      rw [hcheck, hfence] at h
      cases h
      obtain ⟨hle, heq⟩ := fence_accept hfence
      refine ⟨⟨rfl, hle.trans heq.ge, fun e he ho => ?_⟩, hle, fun e he => ?_,
        List.mem_cons_self, rfl⟩
      · by_cases hsame : e.object = record.object ∧ e.sequence = record.sequence
        · exact ⟨_, List.mem_cons_self, hsame.1 ▸ ho, hsame.2.le⟩
        · refine ⟨e, List.mem_cons_of_mem _ (List.mem_filter.mpr ⟨he, ?_⟩), ho, le_rfl⟩
          simpa [← not_and_or] using hsame
      · rcases List.mem_cons.mp he with rfl | he
        · exact .inr rfl
        · exact .inl (List.mem_filter.mp he).1

theorem mem_reports {x : Accepted} : x ∈ a.reports object ↔
    ∃ e ∈ a.accepted, e.object = object ∧ x = ⟨e.sequence, e.epoch, e.value⟩ := by
  simp [Acceptor.reports, and_assoc, eq_comm]

end Acceptor

namespace Ledger

variable {succession : Succession} {s : Ledger}

/-! ## The holders and the network -/

/-- What holds of the holders and the messages in any run. -/
structure Held (succession : Succession) (s : Ledger) : Prop where
  shipped : ∀ r ∈ s.records, r = succession.record r.generation r.sequence r.value
  id : ∀ h, (s.acceptors h).id = h
  held : ∀ h, ∀ e ∈ (s.acceptors h).accepted, ∃ r ∈ s.records,
    r.object = e.object ∧ r.sequence = e.sequence ∧ r.value = e.value
  acked : ∀ ack ∈ s.acks, ∃ e ∈ (s.acceptors ack.holder).accepted,
    e.object = succession.object ∧ ack.sequence ≤ e.sequence
  fenced : ∀ p ∈ s.promises,
    succession.epoch p.generation ≤ (s.acceptors p.holder).fence.seen
  reported : ∀ p ∈ s.promises, ∀ a, p.highest = some a →
    ∃ r ∈ s.records, r.sequence = a.sequence ∧ r.value = a.value
  covers : ∀ p ∈ s.promises, ∀ ack ∈ s.acks, ack.holder = p.holder →
    ack.generation < p.generation → ∃ a, p.highest = some a ∧ ack.sequence ≤ a.sequence

theorem Held.ship (h : Held succession s) {s' : Ledger} {more : List Record}
    (hmore : ∀ r ∈ more, r = succession.record r.generation r.sequence r.value)
    (hrecords : s'.records = s.records ++ more) (hacceptors : s'.acceptors = s.acceptors)
    (hacks : s'.acks = s.acks) (hpromises : s'.promises = s.promises) : Held succession s' := by
  have hmono : ∀ r ∈ s.records, r ∈ s'.records := fun r hr => by
    rw [hrecords]
    exact List.mem_append_left _ hr
  refine ⟨fun r hr => ?_, ?_, ?_, ?_, ?_, ?_, ?_⟩
  · rw [hrecords] at hr
    rcases List.mem_append.mp hr with hr | hr
    · exact h.shipped r hr
    · exact hmore r hr
  · rw [hacceptors]
    exact h.id
  · rw [hacceptors]
    intro host e he
    obtain ⟨r, hr, heq⟩ := h.held host e he
    exact ⟨r, hmono r hr, heq⟩
  · rw [hacceptors, hacks]
    exact h.acked
  · rw [hacceptors, hpromises]
    exact h.fenced
  · rw [hpromises]
    intro p hp a ha
    obtain ⟨r, hr, heq⟩ := h.reported p hp a ha
    exact ⟨r, hmono r hr, heq⟩
  · rw [hpromises, hacks]
    exact h.covers

theorem Held.replace (h : Held succession s) {holder : HostId} {acceptor : Acceptor}
    (hadvances : Advances succession.object (s.acceptors holder) acceptor)
    (hheld : ∀ e ∈ acceptor.accepted, ∃ r ∈ s.records,
      r.object = e.object ∧ r.sequence = e.sequence ∧ r.value = e.value) :
    Held succession (s.replace holder acceptor) := by
  have hself : (s.replace holder acceptor).acceptors holder = acceptor := Function.update_self ..
  have hother : ∀ host, host ≠ holder →
      (s.replace holder acceptor).acceptors host = s.acceptors host := fun host hne =>
    Function.update_of_ne hne ..
  refine ⟨h.shipped, fun host => ?_, fun host => ?_, fun ack hack => ?_, fun p hp => ?_,
    h.reported, h.covers⟩
  · by_cases heq : host = holder
    · rw [heq, hself, hadvances.id]
      exact h.id holder
    · rw [hother host heq]
      exact h.id host
  · by_cases heq : host = holder
    · rw [heq, hself]
      exact hheld
    · rw [hother host heq]
      exact h.held host
  · obtain ⟨e, he, ho, hle⟩ := h.acked ack hack
    by_cases heq : ack.holder = holder
    · rw [heq] at he ⊢
      rw [hself]
      obtain ⟨e', he', ho', hle'⟩ := hadvances.held e he ho
      exact ⟨e', he', ho', hle.trans hle'⟩
    · rw [hother ack.holder heq]
      exact ⟨e, he, ho, hle⟩
  · have hle := h.fenced p hp
    by_cases heq : p.holder = holder
    · rw [heq] at hle ⊢
      rw [hself]
      exact hle.trans hadvances.fence
    · rw [hother p.holder heq]
      exact hle

theorem Held.promise (h : Held succession s) (holder : HostId) (generation : Nat) :
    Held succession (s.step succession (.promise holder generation)) := by
  rw [step]
  split
  swap
  · exact h
  rename_i acceptor promise hok
  obtain ⟨hadvances, haccepted, hfence, rfl⟩ := prepare_eq_ok hok
  have hmoved : Held succession (s.replace holder acceptor) :=
    h.replace hadvances (haccepted ▸ h.held holder)
  have hself : (s.replace holder acceptor).acceptors holder = acceptor := Function.update_self ..
  refine ⟨hmoved.shipped, hmoved.id, hmoved.held, hmoved.acked, fun p hp => ?_, fun p hp => ?_,
    fun p hp ack hack hholder hlt => ?_⟩
  · rcases List.mem_append.mp hp with hp | hp
    · exact hmoved.fenced p hp
    · rw [List.mem_singleton.mp hp]
      show succession.epoch generation ≤
        ((s.replace holder acceptor).acceptors (s.acceptors holder).id).fence.seen
      rw [h.id holder, hself, hfence]
      rfl
  · rcases List.mem_append.mp hp with hp | hp
    · exact hmoved.reported p hp
    · rw [List.mem_singleton.mp hp]
      intro a ha
      rcases mem_of_newest ha with hnone | hin
      · cases hnone
      · obtain ⟨e, he, -, rfl⟩ := mem_reports.mp hin
        obtain ⟨r, hr, -, hsequence, hvalue⟩ := h.held holder e he
        exact ⟨r, hr, hsequence, hvalue⟩
  · rcases List.mem_append.mp hp with hp | hp
    · exact hmoved.covers p hp ack hack hholder hlt
    · -- the report covers everything acknowledged so far
      rw [List.mem_singleton.mp hp] at hholder ⊢
      obtain ⟨e, he, ho, hle⟩ := h.acked ack hack
      rw [hholder, h.id holder] at he
      obtain ⟨a, ha, hea⟩ := le_newest (.inr (mem_reports.mpr ⟨e, he, ho, rfl⟩))
      exact ⟨a, ha, hle.trans hea⟩

theorem Held.deliver (h : Held succession s) (holder : HostId) (record : Record) :
    Held succession (s.step succession (.deliver holder record)) := by
  rw [step]
  split
  swap
  · exact h
  rename_i hrecord
  split
  swap
  · exact h
  rename_i acceptor ack hok
  obtain ⟨hadvances, hfence, haccepted, hnew, rfl⟩ := accept_eq_ok hok
  have hmoved : Held succession (s.replace holder acceptor) := by
    refine h.replace hadvances fun e he => ?_
    rcases haccepted e he with he | rfl
    · exact h.held holder e he
    · exact ⟨record, hrecord, rfl, rfl, rfl⟩
  have hself : (s.replace holder acceptor).acceptors holder = acceptor := Function.update_self ..
  refine ⟨hmoved.shipped, hmoved.id, hmoved.held, fun ack' hack => ?_, hmoved.fenced,
    hmoved.reported, fun p hp ack' hack hholder hlt => ?_⟩
  · rcases List.mem_append.mp hack with hack | hack
    · exact hmoved.acked ack' hack
    · rw [List.mem_singleton.mp hack]
      show ∃ e ∈ ((s.replace holder acceptor).acceptors (s.acceptors holder).id).accepted, _
      rw [h.id holder, hself]
      refine ⟨_, hnew, ?_, le_rfl⟩
      rw [h.shipped record hrecord]
      rfl
  · rcases List.mem_append.mp hack with hack | hack
    · exact hmoved.covers p hp ack' hack hholder hlt
    · -- an older generation's record does not pass the fence the promise raised
      rw [List.mem_singleton.mp hack] at hholder hlt
      have hseen := h.fenced p hp
      rw [← hholder] at hseen
      change _ ≤ (s.acceptors (s.acceptors holder).id).fence.seen at hseen
      rw [h.id holder] at hseen
      have hepoch : record.epoch = succession.epoch record.generation := by
        rw [h.shipped record hrecord]
        rfl
      have hpassed : record.epoch < record.epoch :=
        calc record.epoch = succession.epoch record.generation := hepoch
          _ < succession.epoch p.generation := succession.increasing hlt
          _ ≤ (s.acceptors holder).fence.seen := hseen
          _ ≤ record.epoch := hfence
      exact absurd hpassed (lt_irrefl _)

/-! ## The order of sequences -/

/-- An owner's records are at or beyond its adoption, and its adoption is at or beyond every older
owner's records. -/
structure Ordered (s : Ledger) : Prop where
  reigned : ∀ r ∈ s.records, s.reigns r.generation = true
  written : ∀ w ∈ s.writes, w ∈ s.records
  origin : ∀ r ∈ s.records, ∃ w ∈ s.writes, w.sequence = r.sequence ∧ w.value = r.value
  unique : ∀ r ∈ s.records, ∀ r' ∈ s.records, r.sequence = r'.sequence → r.value = r'.value
  tops : ∀ p ∈ s.promotions, ∀ r ∈ s.records, r.generation < p.generation →
    ∃ a, p.promotion.adopted = some a ∧ r.sequence ≤ a.sequence
  adopted : ∀ p ∈ s.promotions, ∀ a, p.promotion.adopted = some a →
    (∃ w ∈ s.writes, w.sequence = a.sequence ∧ w.value = a.value) ∧
      (∃ r ∈ s.records, r.generation = p.generation ∧ r.sequence = a.sequence) ∧
      ∀ r ∈ s.records, r.generation = p.generation → a.sequence ≤ r.sequence
  before : ∀ p ∈ s.promotions, ∀ r ∈ p.before, r.generation < p.generation

variable {generation : Nat} {promises : List Promise}

theorem reigns_iff : s.reigns generation = true ↔
    generation = 0 ∨ ∃ p ∈ s.promotions, p.generation = generation := by
  simp [reigns]

theorem Ordered.le_of_newest (h : Ordered s) (hnewest : s.Newest generation) {r : Record}
    (hr : r ∈ s.records) : r.generation ≤ generation := by
  rcases reigns_iff.mp (h.reigned r hr) with hzero | ⟨p, hp, heq⟩
  · omega
  · exact heq ▸ hnewest p hp

theorem Ordered.sequence_le (h : Ordered s) {r r' : Record} (hr : r ∈ s.records)
    (hr' : r' ∈ s.records) (hlt : r.generation < r'.generation) : r.sequence ≤ r'.sequence := by
  rcases reigns_iff.mp (h.reigned r' hr') with hzero | ⟨p, hp, heq⟩
  · omega
  · obtain ⟨a, ha, hle⟩ := h.tops p hp r hr (heq ▸ hlt)
    exact hle.trans ((h.adopted p hp a ha).2.2 r' hr' heq.symm)

theorem Ordered.safe (h : Ordered s) (hheld : Held succession s) : s.Safe succession := by
  intro p hp record hrecord hcommitted
  have hepoch : ∀ r ∈ s.records, r.epoch = succession.epoch r.generation := fun r hr => by
    rw [hheld.shipped r hr]
    rfl
  have hlt : record.generation < p.generation := by
    rcases hcommitted with hbefore | ⟨-, holder⟩
    · exact h.before p hp record hbefore
    · rw [hepoch record hrecord] at holder
      exact succession.increasing.lt_iff_lt.mp holder
  obtain ⟨a, ha, hle⟩ := h.tops p hp record hrecord hlt
  obtain ⟨⟨w, hw, hsequence, hvalue⟩, -, -⟩ := h.adopted p hp a ha
  refine ⟨a, ha, ?_⟩
  rcases hle.eq_or_lt with heq | hlt
  · refine .inl ⟨heq.symm, ?_⟩
    rw [← hvalue]
    exact h.unique w (h.written w hw) record hrecord (hsequence.trans heq.symm)
  · refine .inr ⟨hlt, ⟨w, hw, hsequence, hvalue⟩, fun v hv hvsequence _ => ?_⟩
    rw [hepoch record hrecord, hepoch v (h.written v hv)]
    refine succession.increasing.monotone ?_
    -- a record an older owner wrote is at or before the committed one
    by_contra hnot
    have hback := h.sequence_le (h.written v hv) hrecord (Nat.lt_of_not_le hnot)
    omega

theorem Ordered.write (h : Ordered s) {sequence : Nat} {value : List UInt8}
    (hnewest : s.Newest generation) :
    Ordered (s.step succession (.write generation sequence value)) := by
  rw [step]
  split
  swap
  · exact h
  rename_i hwrites
  simp only [Bool.and_eq_true, List.all_eq_true, Bool.or_eq_true, bne_iff_ne, ne_eq,
    decide_eq_true_eq] at hwrites
  obtain ⟨hreigns, hown⟩ := hwrites
  -- the new record is beyond everything shipped so far
  have hbeyond : ∀ r ∈ s.records, r.sequence < sequence := by
    intro r hr
    rcases (h.le_of_newest hnewest hr).eq_or_lt with heq | hlt
    · exact (hown r hr).resolve_left fun hne => hne heq
    · rcases reigns_iff.mp hreigns with hzero | ⟨p, hp, hp_generation⟩
      · omega
      · obtain ⟨a, ha, hle⟩ := h.tops p hp r hr (hp_generation ▸ hlt)
        obtain ⟨-, ⟨r', hr', hgeneration, hsequence⟩, -⟩ := h.adopted p hp a ha
        have hlt' := (hown r' hr').resolve_left fun hne => hne (hgeneration.trans hp_generation)
        omega
  set new := succession.record generation sequence value
  have hmem : ∀ r, r ∈ s.records ++ [new] → r ∈ s.records ∨ r = new := fun r hr =>
    (List.mem_append.mp hr).imp_right List.mem_singleton.mp
  refine ⟨fun r hr => ?_, fun w hw => ?_, fun r hr => ?_, fun r hr r' hr' heq => ?_,
    fun p hp r hr hlt => ?_, fun p hp a ha => ?_, h.before⟩
  · rcases hmem r hr with hr | rfl
    · exact h.reigned r hr
    · exact hreigns
  · rcases List.mem_append.mp hw with hw | hw
    · exact List.mem_append_left _ (h.written w hw)
    · exact List.mem_append_right _ hw
  · rcases hmem r hr with hr | rfl
    · obtain ⟨w, hw, heq⟩ := h.origin r hr
      exact ⟨w, List.mem_append_left _ hw, heq⟩
    · exact ⟨new, List.mem_append_right _ (List.mem_singleton_self _), rfl, rfl⟩
  · rcases hmem r hr with hr | rfl <;> rcases hmem r' hr' with hr' | rfl
    · exact h.unique r hr r' hr' heq
    · exact absurd heq (hbeyond r hr).ne
    · exact absurd heq.symm (hbeyond r' hr').ne
    · rfl
  · rcases hmem r hr with hr | rfl
    · exact h.tops p hp r hr hlt
    · exact absurd (hnewest p hp) (Nat.not_le.mpr hlt)
  · obtain ⟨⟨w, hw, hsame⟩, ⟨r', hr', hshipped⟩, hle⟩ := h.adopted p hp a ha
    refine ⟨⟨w, List.mem_append_left _ hw, hsame⟩, ⟨r', List.mem_append_left _ hr', hshipped⟩,
      fun r hr hgeneration => ?_⟩
    rcases hmem r hr with hr | rfl
    · exact hle r hr hgeneration
    · have hlt := hbeyond r' hr'
      rw [hshipped.2] at hlt
      exact hlt.le

theorem Held.covers_committed (h : Held succession s) (hsent : ∀ p ∈ promises, p ∈ s.promises)
    (hquorum : succession.quorum.recovery succession.candidates.length ≤
      (counted succession.candidates (succession.prepare generation) promises).length)
    {record : Record} (hcommitted : s.committed succession record = true)
    (hlt : record.generation < generation) :
    ∃ promise ∈ counted succession.candidates (succession.prepare generation) promises,
      ∃ a, promise.highest = some a ∧ record.sequence ≤ a.sequence := by
  have hcounts := counts_counted succession.candidates (succession.prepare generation) promises
  rw [committed, Quorum.committed, decide_eq_true_eq, Quorum.commit, distinctAcksWithin]
    at hcommitted
  set ackers := s.ackers succession record
  have hackers : ∀ x ∈ (ackers.filter (· ∈ succession.candidates)).dedup,
      x ∈ succession.candidates := fun x hx => by
    simpa using (List.mem_filter.mp (List.mem_dedup.mp hx)).2
  have hpromised : ∀ x ∈ (counted succession.candidates (succession.prepare generation)
      promises).map (·.holder), x ∈ succession.candidates := fun x hx => by
    obtain ⟨p, hp, rfl⟩ := List.mem_map.mp hx
    exact hcounts.candidate p hp
  have hmany : succession.candidates.length <
      (ackers.filter (· ∈ succession.candidates)).dedup.length +
        ((counted succession.candidates (succession.prepare generation) promises).map
          (·.holder)).length := by
    rw [Quorum.recovery] at hquorum
    rw [List.length_map]
    omega
  obtain ⟨host, hacker, hpromiser⟩ :=
    Quorums.exists_common (List.nodup_dedup _) hcounts.nodup hackers hpromised hmany
  obtain ⟨promise, hpromise, rfl⟩ := List.mem_map.mp hpromiser
  obtain ⟨ack, hack, hholder⟩ :=
    List.mem_map.mp (List.mem_filter.mp (List.mem_dedup.mp hacker)).1
  obtain ⟨hack, hbinds⟩ := List.mem_filter.mp hack
  simp only [Ack.binds, Bool.and_eq_true, beq_iff_eq] at hbinds
  have hgeneration : promise.generation = generation := by
    have hbound := hcounts.binds promise hpromise
    simp only [Promise.binds, Bool.and_eq_true, beq_iff_eq] at hbound
    exact hbound.2
  obtain ⟨a, ha, hle⟩ := h.covers promise (hsent promise (hcounts.mem promise hpromise)) ack hack
    hholder (by omega)
  exact ⟨promise, hpromise, a, ha, by omega⟩

theorem Held.adopted_shipped (h : Held succession s) (hsent : ∀ p ∈ promises, p ∈ s.promises)
    {candidates : List HostId} {prepare : Prepare} {a : Accepted}
    (ha : (promoteOverHolders candidates prepare promises).adopted = some a) :
    ∃ r ∈ s.records, r.sequence = a.sequence ∧ r.value = a.value := by
  rcases mem_of_newest ha with hbest | hin
  · cases hbest
  · obtain ⟨promise, hpromise, hhighest⟩ := List.mem_filterMap.mp hin
    exact h.reported promise (hsent promise ((counts_counted ..).mem promise hpromise)) a hhighest

/-- **A promotion** that leaves none behind keeps the order. -/
theorem Ordered.promote (h : Ordered s) (hheld : Held succession s)
    (hleaves : s.LeavesNone succession (.promote generation promises)) :
    Ordered (s.promote succession generation promises) := by
  rw [Ledger.promote]
  split
  swap
  · exact h
  rename_i hpromotes
  simp only [Bool.and_eq_true, Bool.not_eq_true', List.all_eq_true, decide_eq_true_eq] at hpromotes
  obtain ⟨⟨hfirst, hsent⟩, hquorum⟩ := hpromotes
  obtain ⟨hnewest, hnone⟩ := hleaves
  set prepare := succession.prepare generation with hprepare
  set promotion := promoteOverHolders succession.candidates prepare promises with hpromotion
  have hunpromoted : ∀ p ∈ s.promotions, p.generation ≠ generation := fun p hp heq => by
    rw [reigns_iff.mpr (.inr ⟨p, hp, heq⟩)] at hfirst
    cases hfirst
  have holder : ∀ r ∈ s.records, r.generation < generation := fun r hr => by
    refine (h.le_of_newest hnewest hr).lt_of_ne fun heq => ?_
    rw [← heq, h.reigned r hr] at hfirst
    cases hfirst
  -- the adopted record is at or beyond everything shipped so far
  have htops : ∀ r ∈ s.records, ∃ a, promotion.adopted = some a ∧ r.sequence ≤ a.sequence := by
    intro r hr
    have hreported : ∃ promise ∈ counted succession.candidates prepare promises,
        ∃ a, promise.highest = some a ∧ r.sequence ≤ a.sequence := by
      rcases hnone r hr with hcommitted | hreported
      · rw [hpromotion, promoteOverHolders, List.length_map] at hquorum
        exact hheld.covers_committed hsent hquorum hcommitted (holder r hr)
      · exact hreported
    obtain ⟨promise, hpromise, a, ha, hle⟩ := hreported
    obtain ⟨b, hb, hab⟩ := @le_newest none _ _
      (.inr (List.mem_filterMap.mpr ⟨promise, hpromise, ha⟩))
    exact ⟨b, hb, hle.trans hab⟩
  have hmem : ∀ r, r ∈ s.records ++ (promotion.adoptionRecord prepare).toList →
      r ∈ s.records ∨ r.generation = generation ∧
        ∃ a, promotion.adopted = some a ∧ r.sequence = a.sequence ∧ r.value = a.value := by
    intro r hr
    refine (List.mem_append.mp hr).imp_right fun hr => ?_
    obtain ⟨a, ha, rfl⟩ := Option.map_eq_some_iff.mp (Option.mem_toList.mp hr)
    exact ⟨rfl, a, ha, rfl, rfl⟩
  -- so each record shipped now was shipped before, but for its generation
  have hold : ∀ r, r ∈ s.records ++ (promotion.adoptionRecord prepare).toList →
      ∃ r' ∈ s.records, r'.sequence = r.sequence ∧ r'.value = r.value := by
    intro r hr
    rcases hmem r hr with hr | ⟨-, a, ha, hsequence, hvalue⟩
    · exact ⟨r, hr, rfl, rfl⟩
    · obtain ⟨r', hr', hsequence', hvalue'⟩ := hheld.adopted_shipped hsent ha
      exact ⟨r', hr', hsequence'.trans hsequence.symm, hvalue'.trans hvalue.symm⟩
  refine ⟨fun r hr => ?_, fun w hw => List.mem_append_left _ (h.written w hw), fun r hr => ?_,
    fun r hr r' hr' heq => ?_, fun p hp r hr hlt => ?_, fun p hp a ha => ?_, fun p hp r hr => ?_⟩
  · rcases hmem r hr with hr | ⟨hgeneration, -⟩
    · rcases reigns_iff.mp (h.reigned r hr) with hzero | ⟨p, hp, heq⟩
      · exact reigns_iff.mpr (.inl hzero)
      · exact reigns_iff.mpr (.inr ⟨p, List.mem_append_left _ hp, heq⟩)
    · exact reigns_iff.mpr
        (.inr ⟨_, List.mem_append_right _ (List.mem_singleton_self _), hgeneration.symm⟩)
  · obtain ⟨r', hr', hsequence, hvalue⟩ := hold r hr
    obtain ⟨w, hw, hwsequence, hwvalue⟩ := h.origin r' hr'
    exact ⟨w, hw, hwsequence.trans hsequence, hwvalue.trans hvalue⟩
  · obtain ⟨q, hq, hsequence, hvalue⟩ := hold r hr
    obtain ⟨q', hq', hsequence', hvalue'⟩ := hold r' hr'
    rw [← hvalue, ← hvalue']
    exact h.unique q hq q' hq' (hsequence.trans (heq.trans hsequence'.symm))
  · rcases List.mem_append.mp hp with hp | hp
    · rcases hmem r hr with hr | ⟨hgeneration, -⟩
      · exact h.tops p hp r hr hlt
      · exact absurd (hnewest p hp) (by omega)
    · rw [List.mem_singleton.mp hp] at hlt ⊢
      rcases hmem r hr with hr | ⟨hgeneration, -⟩
      · exact htops r hr
      · exact absurd hgeneration hlt.ne
  · rcases List.mem_append.mp hp with hp | hp
    · obtain ⟨hw, ⟨r', hr', hshipped⟩, hle⟩ := h.adopted p hp a ha
      refine ⟨hw, ⟨r', List.mem_append_left _ hr', hshipped⟩, fun r hr hgeneration => ?_⟩
      rcases hmem r hr with hr | ⟨hnow, -⟩
      · exact hle r hr hgeneration
      · exact absurd (hgeneration.symm.trans hnow) (hunpromoted p hp)
    · rw [List.mem_singleton.mp hp] at ha ⊢
      obtain ⟨r', hr', hsequence, hvalue⟩ := hheld.adopted_shipped hsent ha
      obtain ⟨w, hw, hwsequence, hwvalue⟩ := h.origin r' hr'
      refine ⟨⟨w, hw, hwsequence.trans hsequence, hwvalue.trans hvalue⟩, ?_,
        fun r hr hgeneration => ?_⟩
      · refine ⟨_, List.mem_append_right _ (Option.mem_toList.mpr
          (Option.map_eq_some_iff.mpr ⟨a, ha, rfl⟩)), rfl, rfl⟩
      · rcases hmem r hr with hr | ⟨-, b, hb, hrsequence, -⟩
        · exact absurd hgeneration (holder r hr).ne
        · cases ha.symm.trans hb
          exact hrsequence.ge
  · rcases List.mem_append.mp hp with hp | hp
    · exact h.before p hp r hr
    · rw [List.mem_singleton.mp hp] at hr ⊢
      exact holder r (List.mem_filter.mp hr).1

/-! ## Runs -/

theorem Ordered.congr (h : Ordered s) {s' : Ledger} (hrecords : s'.records = s.records)
    (hwrites : s'.writes = s.writes) (hpromotions : s'.promotions = s.promotions) : Ordered s' := by
  obtain ⟨acceptors, records, writes, acks, promises, promotions⟩ := s'
  cases hrecords
  cases hwrites
  cases hpromotions
  exact ⟨h.reigned, h.written, h.origin, h.unique, h.tops, h.adopted, h.before⟩

theorem Held.promote (h : Held succession s) (generation : Nat) (promises : List Promise) :
    Held succession (s.promote succession generation promises) := by
  rw [Ledger.promote]
  split
  · refine h.ship (fun r hr => ?_) rfl rfl rfl rfl
    obtain ⟨a, -, rfl⟩ := Option.map_eq_some_iff.mp (Option.mem_toList.mp hr)
    rfl
  · exact h

/-- **Every action** that leaves none behind. -/
theorem ordered_step (hheld : Held succession s) (h : Ordered s) {action : Action}
    (hleaves : s.LeavesNone succession action) :
    Held succession (s.step succession action) ∧ Ordered (s.step succession action) := by
  cases action with
  | install holder generation =>
    rw [step]
    split
    · rename_i acceptor hok
      obtain ⟨hadvances, haccepted⟩ := advances_installAuthority hok
      exact ⟨hheld.replace hadvances (haccepted ▸ hheld.held holder), h.congr rfl rfl rfl⟩
    · exact ⟨hheld, h⟩
  | raiseFence holder epoch =>
    exact ⟨hheld.replace (advances_raiseFence _ epoch) (hheld.held holder), h.congr rfl rfl rfl⟩
  | promise holder generation =>
    refine ⟨hheld.promise holder generation, ?_⟩
    rw [step]
    split
    · exact h.congr rfl rfl rfl
    · exact h
  | promote generation promises =>
    exact ⟨hheld.promote generation promises, h.promote hheld hleaves⟩
  | write generation sequence value =>
    refine ⟨?_, h.write hleaves⟩
    rw [step]
    split
    · refine hheld.ship (fun r hr => ?_) rfl rfl rfl rfl
      rw [List.mem_singleton.mp hr]
      rfl
    · exact hheld
  | deliver holder record =>
    refine ⟨hheld.deliver holder record, ?_⟩
    rw [step]
    split
    · split
      · exact h.congr rfl rfl rfl
      · exact h
    · exact h
  | compact holder sequence =>
    rw [step]
    split
    · rename_i hcompacts
      refine ⟨hheld.replace (advances_compactBelow hcompacts) fun e he => ?_, h.congr rfl rfl rfl⟩
      exact hheld.held holder e (List.mem_filter.mp he).1
    · exact ⟨hheld, h⟩
  | restart holder =>
    exact ⟨hheld.replace (advances_recovered _) (hheld.held holder), h.congr rfl rfl rfl⟩

theorem held_start (succession : Succession) : Held succession (start succession) :=
  ⟨nofun, fun _ => rfl, nofun, nofun, nofun, nofun, nofun⟩

theorem ordered_start (succession : Succession) : Ordered (start succession) :=
  ⟨nofun, nofun, nofun, nofun, nofun, nofun, nofun⟩

/-- **Takeovers.** Where no uncommitted record is left behind, none acknowledged is lost. -/
theorem keeps_run (succession : Succession) (actions : List Action)
    (hmeets : Runs.Meets (step succession) (LeavesNone succession) (start succession) actions)
    (n : Nat) : ((start succession).run succession (actions.take n)).Safe succession := by
  have hkept : Held succession ((start succession).run succession (actions.take n)) ∧
      Ordered ((start succession).run succession (actions.take n)) :=
    (hmeets.take n).invariant (P := fun s => Held succession s ∧ Ordered s)
      (fun _ _ hp hleaves => ordered_step hp.1 hp.2 hleaves)
      ⟨held_start succession, ordered_start succession⟩
  exact hkept.2.safe hkept.1

/-! ## A record left behind -/

/-- Three candidates that tolerate one failure; each owns the object in turn. -/
def threeOwners : Succession where
  object := .new 1 1
  quorum := ⟨1⟩
  candidates := [1, 2, 3]
  owner generation := if generation = 0 then 1 else if generation = 1 then 2 else 3
  epoch generation := generation + 1
  identity record := record.value
  size := rfl
  increasing _ _ h := Nat.succ_lt_succ h

/-- The first owner's record reaches every holder, and the second owner takes over. -/
def takeover : List Action :=
  [.write 0 1 [1], .deliver 1 (threeOwners.record 0 1 [1]),
    .deliver 2 (threeOwners.record 0 1 [1]), .deliver 3 (threeOwners.record 0 1 [1]),
    .install 2 1, .install 3 1, .promise 2 1, .promise 3 1,
    .promote 1 [⟨2, .new 1 1, 2, 1, some ⟨1, 1, [1]⟩⟩, ⟨3, .new 1 1, 2, 1, some ⟨1, 1, [1]⟩⟩]]

theorem keeps_run_takeover :
    (∀ n, ((start threeOwners).run threeOwners (takeover.take n)).Safe threeOwners) ∧
      ((start threeOwners).run threeOwners takeover).promotions.map (·.promotion.adopted) =
        [some ⟨1, 1, [1]⟩] := by
  refine ⟨keeps_run threeOwners takeover ⟨nofun, trivial, trivial, trivial, trivial, trivial,
    trivial, trivial, ⟨nofun, fun record hrecord => ?_⟩, trivial⟩, by decide +kernel⟩
  rw [List.mem_singleton.mp hrecord]
  exact .inl (by decide +kernel)

/-- The first owner's third record reaches one holder only. The second owner adopts and commits the
first record and a second one over the other two; the third owner hears of both and adopts the one
further on. -/
def displaced : List Action :=
  [.write 0 1 [1], .deliver 1 (threeOwners.record 0 1 [1]),
    .deliver 2 (threeOwners.record 0 1 [1]), .deliver 3 (threeOwners.record 0 1 [1]),
    .write 0 2 [2], .write 0 3 [3], .deliver 1 (threeOwners.record 0 3 [3]),
    .install 2 1, .install 3 1, .promise 2 1, .promise 3 1,
    .promote 1 [⟨2, .new 1 1, 2, 1, some ⟨1, 1, [1]⟩⟩, ⟨3, .new 1 1, 2, 1, some ⟨1, 1, [1]⟩⟩],
    .deliver 2 (threeOwners.record 1 1 [1]), .deliver 3 (threeOwners.record 1 1 [1]),
    .write 1 2 [4], .deliver 2 (threeOwners.record 1 2 [4]),
    .deliver 3 (threeOwners.record 1 2 [4]),
    .install 1 2, .install 2 2, .promise 1 2, .promise 2 2,
    .promote 2 [⟨1, .new 1 1, 3, 2, some ⟨3, 1, [3]⟩⟩, ⟨2, .new 1 1, 3, 2, some ⟨2, 2, [4]⟩⟩]]

theorem displaced_by_older :
    ((start threeOwners).run threeOwners displaced).committed threeOwners
        (threeOwners.record 1 2 [4]) = true ∧
      ((start threeOwners).run threeOwners displaced).committed threeOwners
        (threeOwners.record 0 3 [3]) = false ∧
      ((start threeOwners).run threeOwners displaced).promotions.map (·.promotion.adopted) =
        [some ⟨1, 1, [1]⟩, some ⟨3, 1, [3]⟩] ∧
      ¬ ((start threeOwners).run threeOwners displaced).Safe threeOwners := by
  set s := (start threeOwners).run threeOwners displaced
  have hpromotions : s.promotions.map (fun p => (p.generation, p.promotion.adopted)) =
      [(1, some ⟨1, 1, [1]⟩), (2, some ⟨3, 1, [3]⟩)] := by decide +kernel
  have hcommitted : s.committed threeOwners (threeOwners.record 1 2 [4]) = true := by
    decide +kernel
  refine ⟨hcommitted, by decide +kernel, by decide +kernel, fun hsafe => ?_⟩
  obtain ⟨p, hp, heq⟩ : ∃ p ∈ s.promotions, (p.generation, p.promotion.adopted) =
      (2, some ⟨3, 1, [3]⟩) := by
    rw [← List.mem_map, hpromotions]
    simp
  obtain ⟨hgeneration, hadopted⟩ := Prod.mk.inj heq
  have hrecord : threeOwners.record 1 2 [4] ∈ s.records := by decide +kernel
  have hwrite : threeOwners.record 0 3 [3] ∈ s.writes := by decide +kernel
  obtain ⟨a, ha, hkept⟩ := hsafe p hp _ hrecord (.inr ⟨hcommitted, by rw [hgeneration]; decide⟩)
  cases hadopted.symm.trans ha
  rcases hkept with ⟨hsequence, -⟩ | ⟨-, -, hnewer⟩
  · exact absurd hsequence (by decide)
  · exact absurd (hnewer _ hwrite rfl rfl) (by decide)

end Ledger

end Slates.Register
