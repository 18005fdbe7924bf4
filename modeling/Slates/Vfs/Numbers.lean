import Slates.Library.Acts
import Slates.Mem.Slab
import Slates.Content.Cipher

/-!
The numbers a volume gives its inodes (`crates/vfs/src`), over publications, crashes and recoveries.
A publication records a ceiling past the counter and a successor starts there; a reply that would
name a number past it waits.
-/

namespace Slates.Numbers

open Acts
open Content (VfsError)
open Mem (u64Max)

/-- `InodeNo::COUNTER_BITS`. -/
def counterBits : Nat := 48

/-- `InodeNo::DERIVED_BIT`. -/
def derivedBit : Nat := 1 <<< (counterBits - 1)

/-- `InodeNo::compose`. -/
def compose (number counter : Nat) : Nat :=
  (number <<< counterBits) ||| (counter &&& (1 <<< counterBits - 1))

/-- `InodeNo::counter`. -/
def counterOf (no : Nat) : Nat := no &&& (1 <<< counterBits - 1)

/-- `Store`, as far as numbers go. -/
structure Store where
  inodeReserve : Nat
  countersLow : Bool
  deriving DecidableEq, Repr

def reserveTopUpShare : Nat := 2

/-- `Volume`, as far as numbers go: `number` is its `prefix`, `table` the inodes it holds, `changed`
those changed since the last committed publication. -/
structure Volume where
  number : Nat
  nextCounter : Nat
  counterCeiling : Nat
  liveInodes : Nat
  inodeAllowance : Nat
  liveEntries : Nat
  entryAllowance : Nat
  table : List Nat
  changed : List Nat
  published : Bool
  releasesUnpublished : Bool
  deriving DecidableEq, Repr

/-- `Volume::create`. -/
def Volume.create (number : Nat) : Volume where
  number := number
  nextCounter := 2
  counterCeiling := 2
  liveInodes := 1
  inodeAllowance := u64Max
  liveEntries := 0
  entryAllowance := u64Max
  table := [compose number 1]
  changed := []
  published := false
  releasesUnpublished := false

/-- A shard at work on a volume. -/
structure Desk where
  store : Store
  volume : Volume
  deriving DecidableEq, Repr

abbrev Call (α : Type) := Act Desk VfsError α

def onVolume (f : Volume → Volume) : Call Unit :=
  Act.change fun d => { d with volume := f d.volume }

/-- What the slabs, the budgets or the host answer: a refusal, or nothing. -/
def granted (refusal : Option VfsError) : Call Unit :=
  match refusal with
  | none => pure ()
  | some e => Act.refuse e

/-! ## Issuing -/

/-- `Volume::next_no`. -/
def nextNo : Call Nat := fun d =>
  let v := d.volume
  if v.liveInodes ≥ v.inodeAllowance ∨ v.nextCounter ≥ derivedBit then
    (.error .noSpace, d)
  else
    let next := min (v.nextCounter + 1) u64Max
    let left := v.counterCeiling - next
    (.ok (compose v.number v.nextCounter),
      { store := { d.store with
          countersLow := d.store.countersLow || left < d.store.inodeReserve / reserveTopUpShare }
        volume := { v with nextCounter := next, liveInodes := min (v.liveInodes + 1) u64Max } })

/-- `Volume::unissue_no`: the counter is not rewound. -/
def unissueNo : Call Unit := onVolume fun v => { v with liveInodes := v.liveInodes - 1 }

/-- `Volume::admit_namespace`, of a fresh inode. -/
def admitNamespace : Call Unit := fun d =>
  let v := d.volume
  if (v.liveInodes ≥ v.inodeAllowance ∨ v.nextCounter ≥ derivedBit) ∨
      v.liveEntries ≥ v.entryAllowance then
    (.error .noSpace, d)
  else (.ok (), d)

def tableSet (no : Nat) : Call Unit :=
  onVolume fun v => { v with table := no :: v.table, changed := no :: v.changed }

def tableRemove (no : Nat) : Call Unit :=
  onVolume fun v => { v with table := v.table.filter (· ≠ no), changed := no :: v.changed }

/-- `Volume::dir_insert`. -/
def dirInsert (refusal : Option VfsError) : Call Unit := fun d =>
  if d.volume.liveEntries ≥ d.volume.entryAllowance then (.error .noSpace, d)
  else (do
    granted refusal
    onVolume fun v => { v with liveEntries := min (v.liveEntries + 1) u64Max } : Call Unit) d

/-- What a creation meets: before its number is issued, at its inode, at its name. -/
structure Answers where
  room : Option VfsError
  inode : Option VfsError
  name : Option VfsError
  deriving DecidableEq, Repr

/-- A creation refused after its number takes back the charge and the inode. -/
def createWith (first name : Call Unit) (a : Answers) : Call Nat := do
  first
  granted a.room
  let no ← nextNo
  Act.orUndo (granted a.inode) fun e => do
    unissueNo
    Act.refuse e
  tableSet no
  Act.orUndo name fun e => do
    tableRemove no
    unissueNo
    Act.refuse e
  pure no

/-- `create_leaf`, `mkdir` and `symlink`. -/
def createNamed (a : Answers) : Call Nat := createWith admitNamespace (dirInsert a.name) a

/-- `xattr_set`: `new_attribute_inode`, its value and name, or `abandon_attribute`. -/
def createAttribute (a : Answers) : Call Nat := createWith (pure ()) (granted a.name) a

/-- `BaseVolume::materialize`: a refusal takes nothing back. -/
def materialize (a : Answers) : Call Nat := do
  granted a.room
  let no ← nextNo
  granted a.inode
  tableSet no
  dirInsert a.name
  pure no

inductive Site
  | named | xattr | base
  deriving DecidableEq, Repr

def Site.create : Site → Answers → Call Nat
  | .named => createNamed
  | .xattr => createAttribute
  | .base => materialize

/-- `Volume::reclaim_inode`. -/
def reclaimInode (no : Nat) : Call Unit := do
  tableRemove no
  onVolume fun v => { v with liveInodes := v.liveInodes - 1 }

/-! ## Publishing -/

/-- `Volume::recorded_counter`. -/
def recordedCounter (d : Desk) : Nat :=
  max (min (d.volume.nextCounter + d.store.inodeReserve) u64Max) d.volume.counterCeiling

/-- `Volume::awaits_publication`. -/
def awaitsPublication (v : Volume) : Bool :=
  v.nextCounter > v.counterCeiling || v.releasesUnpublished

/-- `inodes` its own inodes and those it shares with its origin, `entries` how many entries its
directories hold. -/
structure VolumeImage where
  number : Nat
  nextCounter : Nat
  inodes : List Nat
  entries : Nat
  deriving DecidableEq, Repr

structure VolumeDelta where
  nextCounter : Nat
  inodes : List Nat
  removed : List Nat
  entries : Nat
  deriving DecidableEq, Repr

/-- `Volume::to_image`. -/
def toImage (d : Desk) : VolumeImage :=
  ⟨d.volume.number, recordedCounter d, d.volume.table, d.volume.liveEntries⟩

/-- `Volume::delta`. -/
def delta (d : Desk) : VolumeDelta where
  nextCounter := recordedCounter d
  inodes := d.volume.changed.filter (· ∈ d.volume.table)
  removed := d.volume.changed.filter (· ∉ d.volume.table)
  entries := d.volume.liveEntries

/-- `VolumeImage::apply`. -/
def VolumeImage.apply (image : VolumeImage) (delta : VolumeDelta) : VolumeImage where
  number := image.number
  nextCounter := delta.nextCounter
  inodes := (image.inodes.filter (· ∉ delta.removed)) ++
    delta.inodes.dedup.filter (· ∉ image.inodes)
  entries := delta.entries

/-- `Volume::mark_published`. -/
def markPublished (d : Desk) : Volume :=
  { d.volume with
    counterCeiling := recordedCounter d
    changed := []
    published := true
    releasesUnpublished := false }

/-- The whole image, when the volume was never published or `publishes_whole` says so, or a delta
over the last one. -/
def committedImage (d : Desk) (whole : Bool) (last : Option VolumeImage) : VolumeImage :=
  match last with
  | none => toImage d
  | some image => if !d.volume.published || whole then toImage d else image.apply (delta d)

/-- `Volume::shell_over` and `rebuild`, by a daemon with the given reserve. -/
def rebuild (inodeReserve : Nat) (image : VolumeImage) : Desk where
  store := ⟨inodeReserve, inodeReserve > 0⟩
  volume :=
    { Volume.create image.number with
      nextCounter := image.nextCounter
      counterCeiling := image.nextCounter
      liveInodes := image.inodes.length
      liveEntries := image.entries
      table := image.inodes }

/-! ## Histories -/

/-- The shard, while one holds the volume, the last committed publication, the numbers this life
issued, those of earlier lives below the ceiling then in force, and those a reply named. -/
structure World where
  desk : Option Desk
  committed : Option VolumeImage
  issued : List Nat
  past : List Nat
  told : List Nat
  deriving DecidableEq, Repr

/-- The numbers `next_no` issued between two moments. -/
def issuedBetween (d d' : Desk) : List Nat :=
  (List.range' d.volume.nextCounter (d'.volume.nextCounter - d.volume.nextCounter)).map
    (compose d.volume.number)

inductive Turn
  | create (site : Site) (answers : Answers)
  | remove (no : Nat)
  /-- A release of an open the committed publication counts. -/
  | release
  | allow (inodes entries : Nat)
  | publish (whole : Bool)
  | refusePublication
  /-- A checkpoint that could not carry this volume drops its record. -/
  | leaveOut
  /-- A transport sends the replies that may go. -/
  | reply
  | crash
  | rebuild (inodeReserve : Nat) (refusal : Option VfsError)
  deriving DecidableEq, Repr

def World.start (d : Desk) : World := ⟨some d, none, [], [], []⟩

def step (w : World) (t : Turn) : World :=
  match t, w.desk with
  | .create site answers, some d =>
    let d' := (site.create answers d).2
    { w with desk := some d', issued := issuedBetween d d' ++ w.issued }
  | .remove no, some d => { w with desk := some (reclaimInode no d).2 }
  | .release, some d =>
    { w with desk := some { d with volume := { d.volume with releasesUnpublished := true } } }
  | .allow inodes entries, some d =>
    { w with desk := some { d with
        volume := { d.volume with inodeAllowance := inodes, entryAllowance := entries } } }
  | .publish whole, some d =>
    { w with
      desk := some ⟨{ d.store with countersLow := false }, markPublished d⟩
      committed := some (committedImage d whole w.committed) }
  | .leaveOut, some d =>
    { w with
      desk := some { d with volume := { d.volume with published := false } }
      committed := none }
  | .reply, some d =>
    if awaitsPublication d.volume then w else { w with told := w.issued ++ w.told }
  | .crash, some d =>
    { w with
      desk := none
      issued := []
      past := w.issued.filter (counterOf · < d.volume.counterCeiling) ++ w.past }
  | .rebuild inodeReserve refusal, none =>
    match w.committed, refusal with
    | some image, none => { w with desk := some (rebuild inodeReserve image) }
    | _, _ => w
  | _, _ => w

/-! ## Numbers and counters -/

theorem compose_eq {counter : Nat} (number : Nat) (h : counter < 2 ^ counterBits) :
    compose number counter = number * 2 ^ counterBits + counter := by
  have hmask : counter &&& (1 <<< counterBits - 1) = counter := by
    rw [Nat.one_shiftLeft, Nat.and_two_pow_sub_one_eq_mod, Nat.mod_eq_of_lt h]
  rw [compose, hmask, ← Nat.shiftLeft_add_eq_or_of_lt h, Nat.shiftLeft_eq]

theorem derivedBit_lt : derivedBit < 2 ^ counterBits := by decide

theorem counterOf_compose {counter : Nat} (number : Nat) (h : counter < 2 ^ counterBits) :
    counterOf (compose number counter) = counter := by
  rw [compose_eq number h, counterOf, Nat.one_shiftLeft, Nat.and_two_pow_sub_one_eq_mod,
    Nat.mul_add_mod_of_lt h]

/-- The number was issued by volume `number`, at a counter below `bound`. -/
def Below (number bound no : Nat) : Prop :=
  ∃ counter, counter < bound ∧ counter < derivedBit ∧ no = compose number counter

theorem Below.mono {number bound bound' no : Nat} (h : Below number bound no)
    (hle : bound ≤ bound') : Below number bound' no := by
  obtain ⟨c, hc, hd, rfl⟩ := h
  exact ⟨c, lt_of_lt_of_le hc hle, hd, rfl⟩

theorem Below.counterOf_lt {number bound no : Nat} (h : Below number bound no) :
    counterOf no < bound := by
  obtain ⟨c, hc, hd, rfl⟩ := h
  rwa [counterOf_compose number (hd.trans derivedBit_lt)]

theorem Below.of_counterOf_lt {number bound bound' no : Nat} (h : Below number bound no)
    (hlt : counterOf no < bound') : Below number bound' no := by
  obtain ⟨c, hc, hd, rfl⟩ := h
  rw [counterOf_compose number (hd.trans derivedBit_lt)] at hlt
  exact ⟨c, hlt, hd, rfl⟩

/-! ## What a call issues -/

/-- What numbering reads of a volume. -/
def face (d : Desk) : Nat × Nat × Nat :=
  (d.volume.number, d.volume.counterCeiling, d.volume.nextCounter)

/-- A call that issues nothing. -/
def Still {α : Type} (x : Call α) : Prop := ∀ d, face (x d).2 = face d

/-- One number more, which is the answer if there is one, or none and a refusal. -/
def Issues (x : Call Nat) : Prop := ∀ d,
  (face (x d).2 = face d ∧ ∀ no, (x d).1 ≠ .ok no) ∨
  (d.volume.nextCounter < derivedBit ∧
    face (x d).2 = (d.volume.number, d.volume.counterCeiling, d.volume.nextCounter + 1) ∧
    ∀ no, (x d).1 = .ok no → no = compose d.volume.number d.volume.nextCounter)

variable {α β : Type} {x : Call α} {f : α → Call β}

theorem Still.bind (hx : Still x) (hf : ∀ a, Still (f a)) : Still (x >>= f) := by
  intro d
  have h := hx d
  rw [Act.bind_apply]
  rcases hxd : x d with ⟨e | a, d'⟩
  · rw [hxd] at h
    exact h
  · rw [hxd] at h
    exact (hf a d').trans h

theorem Still.orUndo {undo : VfsError → Call α} (hx : Still x) (hu : ∀ e, Still (undo e)) :
    Still (Act.orUndo x undo) := by
  intro d
  have h := hx d
  rcases hxd : x d with ⟨e | a, d'⟩
  · rw [Act.orUndo_error hxd]
    rw [hxd] at h
    exact (hu e d').trans h
  · rw [Act.orUndo_ok hxd]
    rwa [hxd] at h

theorem Still.pure (a : α) : Still (Pure.pure a : Call α) := fun _ => rfl

theorem Still.refuse (e : VfsError) : Still (Act.refuse e : Call α) := fun _ => rfl

theorem still_granted (refusal : Option VfsError) : Still (granted refusal) := by
  intro d
  cases refusal <;> rfl

theorem still_unissueNo : Still unissueNo := fun _ => rfl

theorem still_tableSet (no : Nat) : Still (tableSet no) := fun _ => rfl

theorem still_tableRemove (no : Nat) : Still (tableRemove no) := fun _ => rfl

theorem still_admitNamespace : Still admitNamespace := by
  intro d
  unfold admitNamespace
  dsimp only
  split <;> rfl

theorem still_dirInsert (refusal : Option VfsError) : Still (dirInsert refusal) := by
  intro d
  unfold dirInsert
  split
  · rfl
  · exact (still_granted refusal).bind (fun _ _ => rfl) d

theorem Issues.after {f : α → Call Nat} (hx : Still x) (hf : ∀ a, Issues (f a)) :
    Issues (x >>= f) := by
  intro d
  have h := hx d
  rw [Act.bind_apply]
  rcases hxd : x d with ⟨e | a, d'⟩
  · rw [hxd] at h
    exact .inl ⟨h, nofun⟩
  · rw [hxd] at h
    simp only [face, Prod.mk.injEq] at h
    have h' := hf a d'
    simp only [face, Prod.mk.injEq, h.1, h.2.1, h.2.2] at h' ⊢
    exact h'

theorem next_counter {n : Nat} (h : n < derivedBit) : min (n + 1) u64Max = n + 1 :=
  min_eq_left (h.trans_le (by decide))

/-- A call whose answer can only be `no`. -/
def Returns (no : Nat) (x : Call Nat) : Prop := ∀ d a, (x d).1 = .ok a → a = no

theorem Returns.pure (no : Nat) : Returns no (Pure.pure no) :=
  fun _ _ h => (Except.ok.inj h).symm

theorem Returns.after {no : Nat} {f : α → Call Nat} (hf : ∀ a, Returns no (f a)) :
    Returns no (x >>= f) := by
  intro d a h
  rw [Act.bind_apply] at h
  rcases hxd : x d with ⟨e | b, d'⟩
  · simp [hxd] at h
  · rw [hxd] at h
    exact hf b d' a h

theorem issues_nextNo {f : Nat → Call Nat} (hf : ∀ no, Still (f no))
    (hr : ∀ no, Returns no (f no)) :
    Issues (nextNo >>= f) := by
  intro d
  rw [Act.bind_apply, nextNo]
  by_cases h : d.volume.liveInodes ≥ d.volume.inodeAllowance ∨ d.volume.nextCounter ≥ derivedBit
  · rw [if_pos h]
    exact .inl ⟨rfl, nofun⟩
  · rw [if_neg h]
    have hlt : d.volume.nextCounter < derivedBit := by omega
    refine .inr ⟨hlt, (hf _ _).trans ?_, fun no => hr _ _ no⟩
    simp only [face, next_counter hlt]

theorem still_afterNumber {name : Call Unit} (hname : Still name) (a : Answers) (no : Nat) :
    Still (do
      Act.orUndo (granted a.inode) fun e => do
        unissueNo
        Act.refuse e
      tableSet no
      Act.orUndo name fun e => do
        tableRemove no
        unissueNo
        Act.refuse e
      pure no : Call Nat) := by
  refine ((still_granted _).orUndo fun e => still_unissueNo.bind fun _ => .refuse e).bind fun _ =>
    (still_tableSet no).bind fun _ => ?_
  exact (hname.orUndo fun e => (still_tableRemove no).bind fun _ =>
    still_unissueNo.bind fun _ => .refuse e).bind fun _ => .pure no

theorem still_afterBase (a : Answers) (no : Nat) : Still (do
    granted a.inode
    tableSet no
    dirInsert a.name
    pure no : Call Nat) :=
  (still_granted _).bind fun _ => (still_tableSet no).bind fun _ =>
    (still_dirInsert _).bind fun _ => .pure no

theorem issues_createWith {first name : Call Unit} (hfirst : Still first) (hname : Still name)
    (a : Answers) : Issues (createWith first name a) :=
  .after hfirst fun _ => .after (still_granted _) fun _ =>
    issues_nextNo (still_afterNumber hname a) fun no =>
      .after fun _ => .after fun _ => .after fun _ => .pure no

theorem issues_create (site : Site) (a : Answers) : Issues (site.create a) := by
  cases site with
  | named => exact issues_createWith still_admitNamespace (still_dirInsert _) a
  | xattr => exact issues_createWith (.pure ()) (still_granted _) a
  | base =>
    exact .after (still_granted _) fun _ => issues_nextNo (still_afterBase a) fun no =>
      .after fun _ => .after fun _ => .after fun _ => .pure no

theorem issuedBetween_of_issues {x : Call Nat} (h : Issues x) (d : Desk) {no : Nat}
    (hno : no ∈ issuedBetween d (x d).2) :
    d.volume.nextCounter < derivedBit ∧ no = compose d.volume.number d.volume.nextCounter := by
  unfold issuedBetween at hno
  rcases h d with ⟨h, -⟩ | ⟨hlt, h, -⟩
  all_goals simp only [face, Prod.mk.injEq] at h
  · simp [h.2.2] at hno
  · simp only [h.2.2, Nat.add_sub_cancel_left, List.range'_one, List.map_singleton,
      List.mem_singleton] at hno
    exact ⟨hlt, hno⟩

/-! ## Every history -/

/-- What a committed image says of the numbers of earlier lives. -/
def Committed (number : Nat) (w : World) : Prop :=
  ∀ image, w.committed = some image →
    image.number = number ∧ image.nextCounter ≤ u64Max ∧
      ∀ no ∈ w.past, Below number image.nextCounter no

/-- What holds of the shard at work. -/
structure AtWork (number : Nat) (w : World) (d : Desk) : Prop where
  number_eq : d.volume.number = number
  counter_le : d.volume.nextCounter ≤ u64Max
  ceiling_le : d.volume.counterCeiling ≤ u64Max
  ceiling_eq : ∀ image, w.committed = some image → d.volume.counterCeiling = image.nextCounter
  issued : ∀ no ∈ w.issued, Below number d.volume.nextCounter no
  past : ∀ no ∈ w.past, Below number d.volume.nextCounter no
  told : ∀ no ∈ w.told, no ∈ w.past ∨ (no ∈ w.issued ∧ counterOf no < d.volume.counterCeiling)

structure Kept (number : Nat) (w : World) : Prop where
  committed : Committed number w
  working : ∀ d, w.desk = some d → AtWork number w d
  resting : w.desk = none → w.issued = [] ∧ ∀ no ∈ w.told, no ∈ w.past

variable {number : Nat} {w : World} {d : Desk}

theorem counter_le_recorded (h : d.volume.nextCounter ≤ u64Max) :
    d.volume.nextCounter ≤ recordedCounter d := by
  unfold recordedCounter
  omega

theorem committedImage_counter (d : Desk) (whole : Bool) (last : Option VolumeImage) :
    (committedImage d whole last).nextCounter = recordedCounter d := by
  unfold committedImage
  split
  · rfl
  · split <;> rfl

theorem recorded_le (h : d.volume.counterCeiling ≤ u64Max) : recordedCounter d ≤ u64Max := by
  unfold recordedCounter
  omega

theorem committedImage_number (h : d.volume.number = number) {last : Option VolumeImage}
    (hlast : ∀ image, last = some image → image.number = number) (whole : Bool) :
    (committedImage d whole last).number = number := by
  cases last with
  | none => exact h
  | some image =>
    unfold committedImage
    dsimp only
    split
    · exact h
    · exact hlast image rfl

theorem start_kept (hc : d.volume.nextCounter ≤ u64Max) (hceil : d.volume.counterCeiling ≤ u64Max) :
    Kept d.volume.number (World.start d) := by
  refine ⟨nofun, fun d' hd' => ?_, nofun⟩
  cases hd'
  exact ⟨rfl, hc, hceil, nofun, nofun, nofun, nofun⟩

theorem AtWork.still (h : AtWork number w d) {d' : Desk} (hf : face d' = face d) :
    AtWork number { w with desk := some d' } d' := by
  simp only [face, Prod.mk.injEq] at hf
  obtain ⟨hn, hceil, hnext⟩ := hf
  exact ⟨hn ▸ h.number_eq, hnext ▸ h.counter_le, hceil ▸ h.ceiling_le, hceil ▸ h.ceiling_eq,
    hnext ▸ h.issued, hnext ▸ h.past, hceil ▸ h.told⟩

theorem AtWork.create (h : AtWork number w d) (site : Site) (a : Answers) :
    AtWork number { w with
      desk := some (site.create a d).2
      issued := issuedBetween d (site.create a d).2 ++ w.issued } (site.create a d).2 := by
  have hissued : ∀ no ∈ issuedBetween d (site.create a d).2,
      Below number (site.create a d).2.volume.nextCounter no := by
    intro no hno
    obtain ⟨hlt, rfl⟩ := issuedBetween_of_issues (issues_create site a) d hno
    rcases issues_create site a d with ⟨hf, -⟩ | ⟨-, hf, -⟩
    all_goals simp only [face, Prod.mk.injEq] at hf
    · simp [issuedBetween, hf.2.2] at hno
    · exact ⟨_, by omega, hlt, by rw [h.number_eq]⟩
  rcases issues_create site a d with ⟨hf, -⟩ | ⟨hlt, hf, -⟩
  · have h' := h.still hf
    refine ⟨h'.number_eq, h'.counter_le, h'.ceiling_le, h'.ceiling_eq, ?_, h'.past,
      fun no hno => ?_⟩
    · intro no hno
      exact (List.mem_append.mp hno).elim (hissued no) (h'.issued no)
    · exact (h'.told no hno).imp_right fun ⟨hi, hc⟩ => ⟨List.mem_append_right _ hi, hc⟩
  · simp only [face, Prod.mk.injEq] at hf
    obtain ⟨hn, hceil, hnext⟩ := hf
    have hle : d.volume.nextCounter ≤ (site.create a d).2.volume.nextCounter := by omega
    refine ⟨hn.trans h.number_eq, ?_, hceil ▸ h.ceiling_le, hceil ▸ h.ceiling_eq, ?_,
      fun no hno => (h.past no hno).mono hle, fun no hno => ?_⟩
    · have : derivedBit < u64Max := by decide
      omega
    · intro no hno
      exact (List.mem_append.mp hno).elim (hissued no) fun hi => (h.issued no hi).mono hle
    · rw [hceil]
      exact (h.told no hno).imp_right fun ⟨hi, hc⟩ => ⟨List.mem_append_right _ hi, hc⟩

theorem AtWork.publish (h : AtWork number w d) (hcom : Committed number w) (whole : Bool) :
    Kept number { w with
      desk := some ⟨{ d.store with countersLow := false }, markPublished d⟩
      committed := some (committedImage d whole w.committed) } := by
  have hle := counter_le_recorded h.counter_le
  have hceil : d.volume.counterCeiling ≤ recordedCounter d := le_max_right _ _
  refine ⟨fun image himage => ?_, fun d' hd' => ?_, nofun⟩
  · cases himage
    rw [committedImage_counter]
    exact ⟨committedImage_number h.number_eq (fun image hi => (hcom image hi).1) whole,
      recorded_le h.ceiling_le, fun no hno => (h.past no hno).mono hle⟩
  · cases hd'
    refine ⟨h.number_eq, h.counter_le, recorded_le h.ceiling_le, fun image himage => ?_, h.issued,
      h.past, fun no hno => ?_⟩
    · cases himage
      exact (committedImage_counter d whole w.committed).symm
    · exact (h.told no hno).imp_right fun ⟨hi, hc⟩ => ⟨hi, hc.trans_le hceil⟩

theorem AtWork.reply (h : AtWork number w d) (hgo : awaitsPublication d.volume = false) :
    AtWork number { w with desk := some d, told := w.issued ++ w.told } d := by
  have hle : d.volume.nextCounter ≤ d.volume.counterCeiling := by
    simp only [awaitsPublication, Bool.or_eq_false_iff, decide_eq_false_iff_not, not_lt] at hgo
    exact hgo.1
  refine ⟨h.number_eq, h.counter_le, h.ceiling_le, h.ceiling_eq, h.issued, h.past, fun no hno => ?_⟩
  rcases List.mem_append.mp hno with hi | ht
  · exact .inr ⟨hi, ((h.issued no hi).mono hle).counterOf_lt⟩
  · exact h.told no ht

theorem AtWork.crash (h : AtWork number w d) (hcom : Committed number w) :
    Kept number { w with
      desk := none
      issued := []
      past := w.issued.filter (counterOf · < d.volume.counterCeiling) ++ w.past } := by
  refine ⟨fun image himage => ?_, nofun, fun _ => ⟨rfl, fun no hno => ?_⟩⟩
  · obtain ⟨hn, hle, hpast⟩ := hcom image himage
    refine ⟨hn, hle, fun no hno => ?_⟩
    rcases List.mem_append.mp hno with hi | hp
    · simp only [List.mem_filter, decide_eq_true_eq, h.ceiling_eq image himage] at hi
      exact (h.issued no hi.1).of_counterOf_lt hi.2
    · exact hpast no hp
  · rcases h.told no hno with hp | ⟨hi, hc⟩
    · exact List.mem_append_right _ hp
    · exact List.mem_append_left _ (List.mem_filter.mpr ⟨hi, decide_eq_true hc⟩)

theorem step_kept (w : World) (t : Turn) (h : Kept number w) : Kept number (step w t) := by
  cases hd : w.desk with
  | none =>
    cases t with
    | rebuild inodeReserve refusal =>
      simp only [step, hd]
      split
      · rename_i image himage
        obtain ⟨hn, hle, hpast⟩ := h.committed image himage
        obtain ⟨hissued, htold⟩ := h.resting hd
        refine ⟨h.committed, fun d' hd' => ?_, nofun⟩
        cases hd'
        refine ⟨hn, hle, hle, fun other hother => ?_, ?_, hpast, fun no hno => .inl (htold no hno)⟩
        · exact congrArg VolumeImage.nextCounter (Option.some.inj (himage.symm.trans hother))
        · simp [hissued]
      · exact h
    | _ =>
      simp only [step, hd]
      exact h
  | some d =>
    have hwork := h.working d hd
    have hkeep : ∀ d', face d' = face d → Kept number { w with desk := some d' } := by
      intro d' hf
      refine ⟨h.committed, fun d'' hd'' => ?_, nofun⟩
      cases hd''
      exact hwork.still hf
    cases t with
    | create site answers =>
      simp only [step, hd]
      refine ⟨h.committed, fun d' hd' => ?_, nofun⟩
      cases hd'
      exact hwork.create site answers
    | remove no =>
      simp only [step, hd]
      exact hkeep _ rfl
    | release =>
      simp only [step, hd]
      exact hkeep _ rfl
    | allow inodes entries =>
      simp only [step, hd]
      exact hkeep _ rfl
    | publish whole =>
      simp only [step, hd]
      exact hwork.publish h.committed whole
    | refusePublication => exact h
    | leaveOut =>
      simp only [step, hd]
      refine ⟨nofun, fun d' hd' => ?_, nofun⟩
      cases hd'
      exact ⟨hwork.number_eq, hwork.counter_le, hwork.ceiling_le, nofun, hwork.issued, hwork.past,
        hwork.told⟩
    | reply =>
      simp only [step, hd]
      split
      · exact h
      · rename_i hgo
        refine ⟨h.committed, fun d' hd' => ?_, nofun⟩
        cases hd'
        exact hwork.reply (by simpa using hgo)
    | crash =>
      simp only [step, hd]
      exact hwork.crash h.committed
    | rebuild inodeReserve refusal =>
      simp only [step, hd]
      exact h

/-- **A number a client was told is never issued again.** Whatever a creation issues was issued
neither by this life nor, below the ceiling in force when it ended, by an earlier one, and no reply
named it; an answered creation answers the one number it issued. While a number at or past the
ceiling is out, replies wait. -/
theorem told_number_never_reissued (start : Desk) (hcounter : start.volume.nextCounter ≤ u64Max)
    (hceiling : start.volume.counterCeiling ≤ u64Max) (turns : List Turn) :
    let w := turns.foldl step (World.start start)
    ∀ d, w.desk = some d →
      (∀ (site : Site) answers, ∀ no ∈ issuedBetween d (site.create answers d).2,
        no ∉ w.issued ∧ no ∉ w.past ∧ no ∉ w.told) ∧
      (∀ (site : Site) answers no d', site.create answers d = (.ok no, d') →
        issuedBetween d d' = [no]) ∧
      (∀ image, w.committed = some image → d.volume.counterCeiling = image.nextCounter) ∧
      (∀ no ∈ w.issued, d.volume.counterCeiling ≤ counterOf no → awaitsPublication d.volume) ∧
      ∀ no ∈ w.told, no ∈ w.past ∨ (no ∈ w.issued ∧ counterOf no < d.volume.counterCeiling) := by
  intro w d hd
  have hkept : Kept start.volume.number w :=
    List.foldlRecOn turns step (start_kept hcounter hceiling) fun w h t _ => step_kept w t h
  have hwork := hkept.working d hd
  refine ⟨fun site answers no hno => ?_, fun site answers no d' hgave => ?_, hwork.ceiling_eq,
    fun no hno hle => ?_, hwork.told⟩
  · obtain ⟨hlt, rfl⟩ := issuedBetween_of_issues (issues_create site answers) d hno
    have hfresh : ¬ Below start.volume.number d.volume.nextCounter
        (compose d.volume.number d.volume.nextCounter) := by
      intro hbelow
      have := hbelow.counterOf_lt
      rw [counterOf_compose _ (hlt.trans derivedBit_lt)] at this
      exact lt_irrefl _ this
    have hissued : compose d.volume.number d.volume.nextCounter ∉ w.issued :=
      fun hmem => hfresh (hwork.issued _ hmem)
    have hpast : compose d.volume.number d.volume.nextCounter ∉ w.past :=
      fun hmem => hfresh (hwork.past _ hmem)
    exact ⟨hissued, hpast, fun hmem => (hwork.told _ hmem).elim hpast fun h => hissued h.1⟩
  · have hissues := issues_create site answers d
    rw [hgave] at hissues
    obtain ⟨-, hface, hno⟩ := hissues.resolve_left fun h => h.2 no rfl
    simp only [face, Prod.mk.injEq] at hface
    rw [hno no rfl, issuedBetween, hface.2.2, Nat.add_sub_cancel_left, List.range'_one,
      List.map_singleton]
  · have := (hwork.issued no hno).counterOf_lt
    simp only [awaitsPublication, Bool.or_eq_true, decide_eq_true_eq]
    left
    omega

def made : Turn := .create .named ⟨none, none, none⟩

/-- A volume published with a reserve of two, and four files made after. -/
def pastCeiling : List Turn := [.publish true, made, made, made, made]

/-- **Past the ceiling.** The publication records a ceiling of 4, two files get the counters 4 and
5, and after a crash the recovered volume issues 4 again. -/
theorem number_issued_past_ceiling :
    (pastCeiling.foldl step (World.start ⟨⟨2, false⟩, .create 1⟩)).issued.map counterOf =
        [5, 4, 3, 2] ∧
      (pastCeiling.foldl step (World.start ⟨⟨2, false⟩, .create 1⟩)).committed.map
        VolumeImage.nextCounter = some 4 ∧
      ((pastCeiling ++ [.crash, .rebuild 2 none, made]).foldl step
        (World.start ⟨⟨2, false⟩, .create 1⟩)).issued = [compose 1 4] := by
  decide +kernel

def twoLives : List Turn :=
  [.publish true, made, made, .reply, made, .crash, .rebuild 2 none]

theorem told_number_never_reissued_twoLives :
    (twoLives.foldl step (World.start ⟨⟨2, false⟩, .create 1⟩)).told = [compose 1 3, compose 1 2] ∧
      compose 1 4 ∉ (twoLives.foldl step (World.start ⟨⟨2, false⟩, .create 1⟩)).told := by
  have hd : (twoLives.foldl step (World.start ⟨⟨2, false⟩, .create 1⟩)).desk =
      some (rebuild 2 ⟨1, 4, [compose 1 1], 0⟩) := by decide +kernel
  have hfresh :=
    (told_number_never_reissued ⟨⟨2, false⟩, .create 1⟩ (by decide) (by decide) twoLives _
    hd).1 .named ⟨none, none, none⟩ (compose 1 4) (by decide +kernel)
  exact ⟨by decide +kernel, hfresh.2.2⟩

end Slates.Numbers
