import Mathlib

/-!
The ops document (`crates/merge/src/ops_doc.rs`), byte ranges (`range.rs`) and IPC nodes
(`special.rs`). Offsets, lengths and versions stay far below `2 ^ 64`, so saturating additions are
plain ones; the 16-bit path index and the 32-bit mode keep their bounds.
-/

namespace Slates.Merge

abbrev Path := String
abbrev Bytes := List UInt8

abbrev PathMap (V : Type) := Std.ExtTreeMap Path V
abbrev PathSet := Std.ExtTreeSet Path

/-- Extended attributes are keyed by path, then name. -/
instance : Ord (Path × String) := lexOrd

abbrev AttrMap (V : Type) := Std.ExtTreeMap (Path × String) V

def u16Max : Nat := 2 ^ 16 - 1
def u32Max : Nat := 2 ^ 32 - 1
def u64Max : Nat := 2 ^ 64 - 1

/-- `u16::try_from(n).unwrap_or(u16::MAX)`. -/
def asU16 (n : Nat) : Nat := min n u16Max

/-! ## Byte ranges -/

/-- A half-open byte range `[start, start + len)`; an empty one is an anchor point. -/
structure Range where
  start : Nat
  len : Nat
  deriving DecidableEq, Repr

namespace Range

/-- The byte past the end. `end` is a keyword. -/
def stop (r : Range) : Nat := r.start + r.len

theorem stop_eq (r : Range) : r.stop = r.start + r.len := rfl

/-- Anchors overlap when equal, an anchor and a span when it lies strictly inside. -/
def overlaps (a b : Range) : Bool :=
  if a.len = 0 ∧ b.len = 0 then a.start = b.start
  else if a.len = 0 then a.start > b.start ∧ a.start < b.stop
  else if b.len = 0 then b.start > a.start ∧ b.start < a.stop
  else a.start < b.stop ∧ b.start < a.stop

end Range

/-! ## Operations -/

/-- The declared operation kinds, in their wire order. -/
inductive OpKind where
  | overwrite | extend | truncate | insert | delete
  | create | unlink | mkdir | rmdir | rename | link | symlink
  | setMode | setXattr | removeXattr | mknod
  deriving DecidableEq, Repr

def OpKind.toWire : OpKind → Nat
  | .overwrite => 0 | .extend => 1 | .truncate => 2 | .insert => 3 | .delete => 4
  | .create => 5 | .unlink => 6 | .mkdir => 7 | .rmdir => 8 | .rename => 9
  | .link => 10 | .symlink => 11 | .setMode => 12 | .setXattr => 13 | .removeXattr => 14
  | .mknod => 15

/-- One declared operation. `offset` is the source's `at`, or an attribute name's index; `len` a
length or a mode; `src` an offset into the post-state or a second path's index. -/
structure Op where
  kind : OpKind
  flags : Nat
  path : Nat
  offset : Nat
  len : Nat
  src : Nat
  deriving DecidableEq, Repr

def OpKind.isContent : OpKind → Bool
  | .overwrite | .extend | .truncate | .insert | .delete => true
  | _ => false

/-- Whether an op kind adds bytes, which its `src` names in the post-state. -/
def OpKind.addsContent : OpKind → Bool
  | .overwrite | .insert | .extend => true
  | _ => false

/-- The distinct names a document uses; an op names a path by its index here. -/
structure PathTable where
  paths : List Path
  deriving DecidableEq, Repr

namespace PathTable

/-- Intern `path`: its index, after adding it when it is new. -/
def intern (t : PathTable) (path : Path) : PathTable × Nat :=
  match t.paths.findIdx? (· == path) with
  | some i => (t, asU16 i)
  | none => (⟨t.paths ++ [path]⟩, asU16 t.paths.length)

def path (t : PathTable) (index : Nat) : Option Path := t.paths[index]?

def sorted (t : PathTable) : List (Path × Nat) :=
  t.paths.zipIdx.insertionSort (fun a b => a.1 ≤ b.1)

/-- Sort the paths; the list gives each old index its new one. -/
def sortAndRemap (t : PathTable) : PathTable × List Nat :=
  (⟨t.sorted.map Prod.fst⟩,
    (List.range t.paths.length).map
      (fun old => asU16 (t.sorted.findIdx (fun entry => entry.2 == old))))

end PathTable

structure OpsDoc where
  paths : PathTable
  ops : List Op
  deriving DecidableEq, Repr

namespace OpsDoc

def push (doc : OpsDoc) (op : Op) : OpsDoc := { doc with ops := doc.ops ++ [op] }

/-- An op's path indices in a re-sorted table. -/
def remapOp (remap : List Nat) (op : Op) : Op :=
  let op := match op.kind with
    | .rename | .link | .symlink => { op with src := (remap[op.src]?).getD u64Max }
    | .setXattr | .removeXattr => { op with offset := (remap[op.offset]?).getD u64Max }
    | _ => op
  { op with path := (remap[op.path]?).getD op.path }

/-- The canonical order of ops: by path index, then offset, then kind. -/
def opLe (a b : Op) : Prop :=
  a.path < b.path ∨ a.path = b.path ∧
    (a.offset < b.offset ∨ a.offset = b.offset ∧ a.kind.toWire ≤ b.kind.toWire)

instance : DecidableRel opLe := fun _ _ => inferInstanceAs (Decidable (_ ∨ _))

/-- Sort the table and the ops, so that the order of declaration does not matter. -/
def canonicalize (doc : OpsDoc) : OpsDoc :=
  let (paths, remap) := doc.paths.sortAndRemap
  ⟨paths, (doc.ops.map (remapOp remap)).insertionSort opLe⟩

end OpsDoc

inductive DocDecodeError where
  | truncated | badMagic | badVersion | badKind | badPath | trailingBytes
  deriving DecidableEq, Repr

/-! ## Little-endian words -/

/-- The `width` low bytes of `n`, least significant first. -/
def leBytes : Nat → Nat → Bytes
  | 0, _ => []
  | width + 1, n => UInt8.ofNat n :: leBytes width (n / 256)

def leNat : Bytes → Nat
  | [] => 0
  | b :: bytes => b.toNat + 256 * leNat bytes

@[simp] theorem leBytes_length (width n : Nat) : (leBytes width n).length = width := by
  induction width generalizing n with
  | zero => rfl
  | succ width ih => simp [leBytes, ih]

theorem leNat_leBytes (width n : Nat) : leNat (leBytes width n) = n % 256 ^ width := by
  induction width generalizing n with
  | zero => simp [leBytes, leNat, Nat.mod_one]
  | succ width ih =>
    have hb : (UInt8.ofNat n).toNat = n % 256 := by simp
    rw [leBytes, leNat, ih, hb, pow_succ, Nat.mul_comm (256 ^ width) 256, Nat.mod_mul]

/-- A cursor over bytes: a read past the end is `truncated`. -/
abbrev Reader := StateT Bytes (Except DocDecodeError)

def readBytes (len : Nat) : Reader Bytes := fun bytes =>
  if len ≤ bytes.length then .ok (bytes.take len, bytes.drop len) else .error .truncated

def readWord (width : Nat) : Reader Nat := do return leNat (← readBytes width)

/-! ## IPC nodes -/

inductive SpecialKind where
  | fifo | socket
  deriving DecidableEq, Repr

/-- Captured IPC metadata; never stream bytes or an endpoint. -/
structure SpecialNode where
  kind : SpecialKind
  uid : UInt32
  gid : UInt32
  atime : Int64
  mtime : Int64
  ctime : Int64
  btime : Int64
  deriving DecidableEq

/-- One kind byte, two owner words and four timestamps. -/
def encodedBytes : Nat := 1 + 2 * 4 + 4 * 8

/-- `size_of::<SpecialNode>()`: the 41 bytes of its fields, padded to eight. -/
def specialNodeBytes : Nat := 48

namespace SpecialNode

def encode (node : SpecialNode) : Bytes :=
  (match node.kind with | .fifo => 0 | .socket => 1) ::
    (leBytes 4 node.uid.toNat ++ leBytes 4 node.gid.toNat ++
      leBytes 8 node.atime.toUInt64.toNat ++ leBytes 8 node.mtime.toUInt64.toNat ++
      leBytes 8 node.ctime.toUInt64.toNat ++ leBytes 8 node.btime.toUInt64.toNat)

def readTime : Reader Int64 := do return (UInt64.ofNat (← readWord 8)).toInt64

/-- Decode exactly one node: unknown kinds and trailing bytes are refused. -/
def decode (bytes : Bytes) : Except DocDecodeError SpecialNode :=
  let read : Reader SpecialNode := do
    let kind ← match ← readWord 1 with
      | 0 => pure SpecialKind.fifo
      | 1 => pure SpecialKind.socket
      | _ => throw .badKind
    let uid := UInt32.ofNat (← readWord 4)
    let gid := UInt32.ofNat (← readWord 4)
    return ⟨kind, uid, gid, ← readTime, ← readTime, ← readTime, ← readTime⟩
  match read bytes with
  | .error e => .error e
  | .ok (node, []) => .ok node
  | .ok (_, _ :: _) => .error .trailingBytes

end SpecialNode

end Slates.Merge
