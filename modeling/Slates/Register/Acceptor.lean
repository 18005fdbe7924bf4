import Slates.Register.Region

/-!
A holder's acceptor, and the round in which a new owner collects promises. The accepted positions
are a list with one entry a position, as they are persisted.
-/

namespace Slates.Register

inductive RegisterError where
  | staleEpoch (current : HostEpoch)
  | configurationStale (version : Nat)
  | unauthorized
  | foreignGeneration (current : Nat)
  | conflictingPosition
  deriving DecidableEq

structure Fence where
  seen : HostEpoch
  deriving DecidableEq

namespace Fence

def new : Fence := ⟨firstEpoch⟩

def accept (fence : Fence) (epoch : HostEpoch) : Except RegisterError Fence :=
  if epoch < fence.seen then .error (.staleEpoch fence.seen) else .ok ⟨epoch⟩

end Fence

/-! ## Messages -/

structure Record where
  owner : HostId
  object : ObjectId
  sequence : Nat
  epoch : HostEpoch
  generation : Nat
  value : List UInt8
  deriving DecidableEq

abbrev Digest := List UInt8

/-- `identity` is the digest of the record a holder acknowledges. -/
structure Ack where
  holder : HostId
  object : ObjectId
  sequence : Nat
  generation : Nat
  identity : Digest
  deriving DecidableEq

def Ack.binds (ack : Ack) (identity : Record → Digest) (record : Record) : Bool :=
  ack.object == record.object && ack.sequence == record.sequence &&
    ack.generation == record.generation && ack.identity == identity record

structure Accepted where
  sequence : Nat
  epoch : HostEpoch
  value : List UInt8
  deriving DecidableEq

/-- A higher position, or the same one under a higher epoch. -/
def Accepted.newerThan (a b : Accepted) : Bool :=
  b.sequence < a.sequence || (a.sequence == b.sequence && b.epoch < a.epoch)

def keepNewer (best : Option Accepted) (next : Accepted) : Option Accepted :=
  match best with
  | none => some next
  | some best => if next.newerThan best then some next else some best

structure Prepare where
  owner : HostId
  object : ObjectId
  epoch : HostEpoch
  generation : Nat
  deriving DecidableEq

structure Promise where
  holder : HostId
  object : ObjectId
  epoch : HostEpoch
  generation : Nat
  highest : Option Accepted
  deriving DecidableEq

def Promise.binds (promise : Promise) (prepare : Prepare) : Bool :=
  promise.object == prepare.object && promise.epoch == prepare.epoch &&
    promise.generation == prepare.generation

/-! ## The acceptor -/

/-- The generation a holder serves and the owner that writes in it. -/
structure Authority where
  generation : Nat
  owner : HostId
  deriving DecidableEq

structure Position where
  object : ObjectId
  sequence : Nat
  epoch : HostEpoch
  value : List UInt8
  deriving DecidableEq

structure Acceptor where
  id : HostId
  authority : Authority
  fence : Fence
  accepted : List Position
  deriving DecidableEq

namespace Acceptor

def new (id : HostId) (authority : Authority) : Acceptor := ⟨id, authority, .new, []⟩

/-- A promise below the first epoch is ignored. -/
def recovered (id : HostId) (authority : Authority) (promised : HostEpoch)
    (accepted : List Position) : Acceptor where
  id
  authority
  fence := (Fence.new.accept promised).toOption.getD .new
  accepted

def persisted (acceptor : Acceptor) : HostEpoch × List Position :=
  (acceptor.fence.seen, acceptor.accepted)

def raiseFence (acceptor : Acceptor) (epoch : HostEpoch) : Acceptor :=
  { acceptor with fence := (acceptor.fence.accept epoch).toOption.getD acceptor.fence }

def check (acceptor : Acceptor) (record : Record) : Except RegisterError Unit :=
  if record.generation < acceptor.authority.generation then
    .error (.configurationStale acceptor.authority.generation)
  else if acceptor.authority.generation < record.generation then
    .error (.foreignGeneration acceptor.authority.generation)
  else if record.owner ≠ acceptor.authority.owner then .error .unauthorized
  else if record.epoch < acceptor.fence.seen then .error (.staleEpoch acceptor.fence.seen)
  else if acceptor.accepted.any fun held =>
      held.object == record.object && held.sequence == record.sequence &&
        held.value != record.value then
    .error .conflictingPosition
  else .ok ()

/-- Stored before it is acknowledged. -/
def accept (identity : Record → Digest) (acceptor : Acceptor) (record : Record) :
    Except RegisterError (Acceptor × Ack) := do
  acceptor.check record
  let fence ← acceptor.fence.accept record.epoch
  let others := acceptor.accepted.filter fun held =>
    !(held.object == record.object && held.sequence == record.sequence)
  return ({ acceptor with
      fence
      accepted := ⟨record.object, record.sequence, record.epoch, record.value⟩ :: others },
    { holder := acceptor.id
      object := record.object
      sequence := record.sequence
      generation := record.generation
      identity := identity record })

def compactBelow (acceptor : Acceptor) (object : ObjectId) (sequence : Nat) : Acceptor :=
  { acceptor with
    accepted := acceptor.accepted.filter fun held =>
      held.object != object || decide (sequence ≤ held.sequence) }

def installAuthority (acceptor : Acceptor) (authority : Authority) :
    Except RegisterError Acceptor :=
  if authority.generation < acceptor.authority.generation then
    .error (.foreignGeneration acceptor.authority.generation)
  else .ok { acceptor with authority }

def reports (acceptor : Acceptor) (object : ObjectId) : List Accepted :=
  (acceptor.accepted.filter (·.object = object)).map fun held =>
    ⟨held.sequence, held.epoch, held.value⟩

/-- The fence is raised before the promise is returned. -/
def prepare (acceptor : Acceptor) (prepare : Prepare) :
    Except RegisterError (Acceptor × Promise) :=
  if prepare.generation ≠ acceptor.authority.generation then
    .error (.foreignGeneration acceptor.authority.generation)
  else if prepare.owner ≠ acceptor.authority.owner then .error .unauthorized
  else do
    let fence ← acceptor.fence.accept prepare.epoch
    return ({ acceptor with fence },
      { holder := acceptor.id
        object := prepare.object
        epoch := prepare.epoch
        generation := acceptor.authority.generation
        highest := (acceptor.reports prepare.object).foldl keepNewer none })

end Acceptor

/-! ## Promotion -/

structure Promotion where
  promised : List HostId
  adopted : Option Accepted
  deriving DecidableEq

/-- The promises that count: they answer the prepare, each from another candidate. -/
def counted (candidates : List HostId) (prepare : Prepare) (promises : List Promise) :
    List Promise :=
  promises.foldl (fun counted promise =>
    if promise.binds prepare && decide (promise.holder ∈ candidates) &&
        decide (promise.holder ∉ counted.map (·.holder)) then
      counted ++ [promise]
    else counted) []

def promoteOverHolders (candidates : List HostId) (prepare : Prepare) (promises : List Promise) :
    Promotion where
  promised := (counted candidates prepare promises).map (·.holder)
  adopted := ((counted candidates prepare promises).filterMap (·.highest)).foldl keepNewer none

/-- The adopted value at its position, under the new owner. -/
def Promotion.adoptionRecord (promotion : Promotion) (prepare : Prepare) : Option Record :=
  promotion.adopted.map fun accepted =>
    { owner := prepare.owner
      object := prepare.object
      sequence := accepted.sequence
      epoch := prepare.epoch
      generation := prepare.generation
      value := accepted.value }

end Slates.Register
