import Slates.Content.Cipher

/-!
What a shard publishes (`crates/vfs/src/recover.rs`, `checkpoint_log.rs`): its whole image, or the
changes since the last publication. Tables searched by key in the source are ordered maps here.
-/

namespace Slates.Checkpoint

open Content (VfsError)

abbrev Bytes := List UInt8

/-- The types of what an image carries and the journal never looks into. -/
structure Records where
  Key : Type
  Volume : Type
  VolumeDelta : Type
  Held : Type
  Replies : Type
  CallKey : Type
  Call : Type
  NfsReplies : Type

/-- A volume's part in a delta. -/
inductive VolumeRecord (T : Records)
  | full (image : T.Volume)
  | delta (changes : T.VolumeDelta)

/-- `DELTA_MAGIC`: the bytes `SLD1`, least significant first. -/
def deltaMagic : UInt32 := 0x31444c53

def deltaVersion : UInt16 := 4

structure ShardDelta (T : Records) where
  magic : UInt32
  version : UInt16
  volumes : List (T.Key × VolumeRecord T)
  removed : List T.Key
  held : Option T.Held
  replies : Option T.Replies
  calls : List (T.CallKey × T.Call)
  callsRemoved : List T.CallKey
  nfsReplies : Option T.NfsReplies

section

variable (T : Records) [Ord T.Key] [Ord T.CallKey]

/-- `ShardImage`; its magic and version are the decoder's to check. -/
structure ShardImage where
  volumes : Std.ExtTreeMap T.Key T.Volume
  held : T.Held
  replies : T.Replies
  calls : Std.ExtTreeMap T.CallKey T.Call
  nfsReplies : T.NfsReplies

end

namespace ShardImage

variable {T : Records} [Ord T.Key] [Std.TransOrd T.Key] [Std.LawfulEqOrd T.Key] [DecidableEq T.Key]
  [Ord T.CallKey] [Std.TransOrd T.CallKey] [Std.LawfulEqOrd T.CallKey] [DecidableEq T.CallKey]

/-- One volume of a delta: its image, or its changes over the one held. -/
def applyRecord (applyVolume : T.Volume → T.VolumeDelta → Except VfsError T.Volume)
    (volumes : Std.ExtTreeMap T.Key T.Volume) (keyed : T.Key × VolumeRecord T) :
    Except VfsError (Std.ExtTreeMap T.Key T.Volume) :=
  match keyed.2, volumes[keyed.1]? with
  | .full image, _ => .ok (volumes.insert keyed.1 image)
  | .delta changes, some image => (applyVolume image changes).map fun v => volumes.insert keyed.1 v
  | .delta _, none => .error .recoveryIncomplete

/-- `ShardImage::apply`. -/
def apply (applyVolume : T.Volume → T.VolumeDelta → Except VfsError T.Volume)
    (image : ShardImage T) (delta : ShardDelta T) : Except VfsError (ShardImage T) :=
  if delta.magic ≠ deltaMagic ∨ delta.version ≠ deltaVersion then .error .recoveryIncomplete
  else
    match delta.volumes.foldlM (applyRecord applyVolume) image.volumes with
    | .error refusal => .error refusal
    | .ok volumes => .ok
      { volumes := volumes.filter fun key _ => key ∉ delta.removed
        held := delta.held.getD image.held
        replies := delta.replies.getD image.replies
        calls := (delta.calls.foldl
          (fun calls call => calls.insert call.1 call.2) image.calls).filter
          fun key _ => key ∉ delta.callsRemoved
        nfsReplies := delta.nfsReplies.getD image.nfsReplies }

end ShardImage

end Slates.Checkpoint
