import Slates.Mem.Slab

/-!
The cipher a chunk store seals with: the server's `ShardCipher` over hyper-seal's `VersionKey`. A
key is named by a small reference while any hold of it is outstanding.
-/

namespace Slates.Content

open Mem

/-- The refusals of `VfsError` the modelled calls make. -/
inductive VfsError
  | invalid | noSpace | fileTooLarge | staleHandle | recoveryIncomplete | publishNeeded | integrity
  | notFound | alreadyExists | notDirectory | isDirectory | notEmpty | notPermitted | invalidName
  | nameTooLong | tooManyLinks | policyMismatch
  | memory (refusal : MemError)
  deriving DecidableEq, Repr

/-- `VfsError::after_undo`: a refusal, or that of undoing what came before it. -/
def VfsError.afterUndo {ε α : Type} (refusal : VfsError) (into : ε → VfsError)
    (undo : Except ε α) : VfsError :=
  match undo with
  | .ok _ => refusal
  | .error other => into other

abbrev Tag : Type := List UInt8

/-- A content key's identity: the volume and the salt of its daemon life. -/
structure KeyIdentity where
  volume : Nat
  salt : Nat
  deriving DecidableEq, Repr

/-- `VersionKey::seal` and `VersionKey::open`. A refused seal may leave any bytes of the segment's
length behind. -/
structure Aead where
  sealSegment : KeyIdentity → (version index : Nat) → (last : Bool) → List UInt8 →
    List UInt8 × Option Tag
  openSegment : KeyIdentity → (version index : Nat) → (last : Bool) → List UInt8 → Tag →
    Option (List UInt8)
  length_seal : ∀ k v i l s, (sealSegment k v i l s).1.length = s.length
  open_seal : ∀ k v i l s c t, sealSegment k v i l s = (c, some t) →
    openSegment k v i l c t = some s

structure HeldKey where
  identity : KeyIdentity
  holds : Nat
  deriving DecidableEq, Repr

/-- `ShardCipher`, without the index of its identities' references. -/
structure ShardCipher where
  aead : Aead
  salt : Nat
  keys : List (Option HeldKey)
  free : List Nat

namespace ShardCipher

/-- `ShardCipher::held`. -/
def held (c : ShardCipher) (reference : Nat) : Option HeldKey := (c.keys[reference]?).join

def holdsOf (c : ShardCipher) (reference : Nat) : Nat :=
  ((c.held reference).map HeldKey.holds).getD 0

/-- `ChunkCipher::seal`: the segment's bytes afterwards, and its tag. -/
def sealAs (c : ShardCipher) (key version index : Nat) (last : Bool) (segment : List UInt8) :
    List UInt8 × Option Tag :=
  match c.held key with
  | some h => c.aead.sealSegment h.identity version index last segment
  | none => (segment, none)

/-- `ChunkCipher::open`. -/
def openAs (c : ShardCipher) (key version index : Nat) (last : Bool) (segment : List UInt8)
    (tag : Tag) : Except VfsError (List UInt8) :=
  match c.held key with
  | some h =>
    match c.aead.openSegment h.identity version index last segment tag with
    | some plain => .ok plain
    | none => .error .integrity
  | none => .error .integrity

/-- `ShardCipher::register`: the reference of an identity, taken if it has none. -/
def register (c : ShardCipher) (identity : KeyIdentity) : Except VfsError (Nat × ShardCipher) :=
  match c.keys.findIdx? fun k => k.map HeldKey.identity = some identity with
  | some at_ => .ok (at_, c)
  | none =>
    match c.free with
    | at_ :: free =>
      if at_ < c.keys.length then
        .ok (at_, { c with keys := c.keys.set at_ (some ⟨identity, 0⟩), free := free })
      else .error .integrity
    | [] =>
      if c.keys.length ≤ u32Max then
        .ok (c.keys.length, { c with keys := c.keys ++ [some ⟨identity, 0⟩] })
      else .error .integrity

/-- `ChunkCipher::hold`. -/
def hold (c : ShardCipher) (key : Nat) : Except VfsError ShardCipher :=
  match c.held key with
  | none => .error .integrity
  | some h =>
    if h.holds + 1 ≤ u64Max then
      .ok { c with keys := c.keys.set key (some { h with holds := h.holds + 1 }) }
    else .error .integrity

/-- `ChunkCipher::release`: the key goes with its last hold. -/
def release (c : ShardCipher) (key : Nat) : Except VfsError ShardCipher :=
  match c.held key with
  | none => .error .integrity
  | some h =>
    if h.holds = 0 then .error .integrity
    else if h.holds - 1 > 0 then
      .ok { c with keys := c.keys.set key (some { h with holds := h.holds - 1 }) }
    else .ok { c with keys := c.keys.set key none, free := key :: c.free }

/-- `ChunkCipher::key_for_volume`: this life's key of a volume, held once more. -/
def keyForVolume (c : ShardCipher) (volume : Nat) : Except VfsError (Nat × ShardCipher) := do
  let (key, c) ← c.register ⟨volume, c.salt⟩
  let c ← c.hold key
  return (key, c)

/-! ## Holds -/

variable {c c' : ShardCipher} {key : Nat} {v : HeldKey}

theorem held_set (h : c.held key = some v) (w : Option HeldKey) (k : Nat) :
    ({ c with keys := c.keys.set key w } : ShardCipher).held k = if k =
      key then w else c.held k := by
  have hlt : key < c.keys.length := by
    unfold held at h
    by_contra hge
    rw [List.getElem?_eq_none (Nat.le_of_not_lt hge)] at h
    cases h
  unfold held
  by_cases hk : k = key
  · subst hk
    rw [if_pos rfl, List.getElem?_set_self hlt]
    rfl
  · rw [if_neg hk, List.getElem?_set_ne (Ne.symm hk)]

/-- A hold changes the count of its key, and no key. -/
structure Holds (c c' : ShardCipher) (key n : Nat) : Prop where
  aead : c'.aead = c.aead
  salt : c'.salt = c.salt
  identity : ∀ k, (c'.held k).map HeldKey.identity = (c.held k).map HeldKey.identity
  count : ∀ k, c'.holdsOf k = if k = key then n else c.holdsOf k

theorem hold_spec (h : c.hold key = .ok c') : Holds c c' key (c.holdsOf key + 1) := by
  unfold hold at h
  split at h
  · cases h
  · rename_i v hv
    split at h
    · cases h
      refine ⟨rfl, rfl, fun k => ?_, fun k => ?_⟩
      · rw [held_set hv]
        split
        · rename_i hk
          rw [hk, hv]
          rfl
        · rfl
      · rw [holdsOf, held_set hv]
        split
        · rw [holdsOf, hv]
          rfl
        · rfl
    · cases h

theorem release_after_hold (h : c.hold key = .ok c') :
    ∃ c'', c'.release key = .ok c'' ∧ ∀ k, c''.holdsOf k = c.holdsOf k := by
  unfold hold at h
  split at h
  · cases h
  · rename_i v hv
    split at h
    · cases h
      have hnew := held_set hv (some { v with holds := v.holds + 1 }) key
      rw [if_pos rfl] at hnew
      have hholds : c.holdsOf key = v.holds := by rw [holdsOf, hv]; rfl
      unfold release
      rw [hnew]
      simp only [Nat.add_sub_cancel, Nat.add_eq_zero_iff, one_ne_zero, and_false, if_false]
      split
      · refine ⟨_, rfl, fun k => ?_⟩
        rw [holdsOf, held_set hnew]
        by_cases hk : k = key
        · rw [if_pos hk, hk, hholds]
          rfl
        · rw [if_neg hk, held_set hv, if_neg hk]
          rfl
      · rename_i hz
        refine ⟨_, rfl, fun k => ?_⟩
        have := held_set
            (c := { c with keys := c.keys.set key (some { v with holds := v.holds + 1 }) })
          hnew none k
        rw [holdsOf]
        refine (congrArg (fun o => (Option.map HeldKey.holds o).getD 0) this).trans ?_
        by_cases hk : k = key
        · rw [if_pos hk, hk, hholds]
          simp only [Option.map_none, Option.getD_none]
          omega
        · rw [if_neg hk, held_set hv, if_neg hk]
          rfl
    · cases h

end ShardCipher

end Slates.Content
