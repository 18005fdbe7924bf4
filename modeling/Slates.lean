import Slates.Checkpoint.Chain
import Slates.Checkpoint.Crash
import Slates.Checkpoint.Frames
import Slates.Checkpoint.Image
import Slates.Checkpoint.Log
import Slates.Checkpoint.Publishing
import Slates.Checkpoint.Slots
import Slates.Content.Cipher
import Slates.Content.Nonces
import Slates.Content.Pass
import Slates.Content.Reading
import Slates.Content.Sealing
import Slates.Content.Store
import Slates.Content.Windows
import Slates.Library.Acts
import Slates.Library.Chains
import Slates.Library.Completeness
import Slates.Library.Consensus
import Slates.Library.FirstFit
import Slates.Library.Intervals
import Slates.Library.KeyedSum
import Slates.Library.Moves
import Slates.Library.Outcome
import Slates.Library.Quorums
import Slates.Library.Runs
import Slates.Library.Search
import Slates.Library.Spans
import Slates.Library.Splice
import Slates.Library.Tables
import Slates.Library.Versioned
import Slates.Mem.Arena
import Slates.Mem.Blocks
import Slates.Mem.Buddy
import Slates.Mem.Captures
import Slates.Mem.Extents
import Slates.Mem.Handles
import Slates.Mem.Layout
import Slates.Mem.Slab
import Slates.Mem.Trimming
import Slates.Merge.Anchors
import Slates.Merge.Changes
import Slates.Merge.Constancy
import Slates.Merge.Decision
import Slates.Merge.Deltas
import Slates.Merge.Derive
import Slates.Merge.Effects
import Slates.Merge.Engine
import Slates.Merge.Folding
import Slates.Merge.Green
import Slates.Merge.Identity
import Slates.Merge.Judgements
import Slates.Merge.Kinds
import Slates.Merge.Metadata
import Slates.Merge.OpsDoc
import Slates.Merge.Outcomes
import Slates.Merge.Parents
import Slates.Merge.Positions
import Slates.Merge.Provenance
import Slates.Merge.Rebase
import Slates.Merge.Recovery
import Slates.Merge.RunningIdentity
import Slates.Merge.Runs
import Slates.Merge.Verdict
import Slates.Merge.Volume
import Slates.Merge.Writes
import Slates.Raft.Appends
import Slates.Raft.Boundary
import Slates.Raft.Caches
import Slates.Raft.Calls
import Slates.Raft.Cluster
import Slates.Raft.Commit
import Slates.Raft.Durable
import Slates.Raft.Elections
import Slates.Raft.FastChoice
import Slates.Raft.FastTrack
import Slates.Raft.Fold
import Slates.Raft.Following
import Slates.Raft.Leadership
import Slates.Raft.Leading
import Slates.Raft.Logs
import Slates.Raft.Matches
import Slates.Raft.Mirror
import Slates.Raft.Node
import Slates.Raft.Parts
import Slates.Raft.Progress
import Slates.Raft.Refinement
import Slates.Raft.Replay
import Slates.Raft.Replication
import Slates.Raft.Retention
import Slates.Raft.Safety
import Slates.Raft.Snapshots
import Slates.Raft.Soundness
import Slates.Raft.Standing
import Slates.Raft.Upkeep
import Slates.Raft.Whole
import Slates.Register.Acceptor
import Slates.Register.Copysets
import Slates.Register.Lineage
import Slates.Register.Placement
import Slates.Register.Region
import Slates.Register.Retirements
import Slates.Register.Root
import Slates.Register.Settling
import Slates.Register.Succession
import Slates.Register.Versions
import Slates.Server.AtMostOnce
import Slates.Server.HeadRecords
import Slates.Server.HeldReplies
import Slates.Transport.PacketNumber
import Slates.Vfs.Numbers
