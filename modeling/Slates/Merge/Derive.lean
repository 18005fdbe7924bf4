import Slates.Merge.OpsDoc

/-!
The content deriver (`crates/merge/src/derive.rs`) and the position mapping (`map.rs`). One path's
declared operations compose, on a list of pieces, into net ops in base coordinates, which map a
later agent's ranges forward.
-/

namespace Slates.Merge

/-- A declared content operation, in current-file coordinates. `offset` is the source's `at`. -/
inductive ContentOp where
  | overwrite (offset len : Nat)
  | extend (offset len : Nat)
  | truncate (len : Nat)
  | insert (offset len : Nat)
  | delete (offset len : Nat)
  deriving DecidableEq, Repr

namespace Derive

/-- One run of the composed file: surviving base bytes, or new ones. -/
inductive Piece where
  | base (baseAt len : Nat)
  | new (len : Nat)
  deriving DecidableEq, Repr

def Piece.len : Piece → Nat
  | .base _ len => len
  | .new len => len

/-- Split a run at `offset` bytes from its start. -/
def Piece.split : Piece → Nat → Piece × Piece
  | .base baseAt len, offset => (.base baseAt offset, .base (baseAt + offset) (len - offset))
  | .new len, offset => (.new offset, .new (len - offset))

def totalLen (pieces : List Piece) : Nat := (pieces.map Piece.len).sum

/-- A piece boundary `offset` bytes from the start: the pieces before it and those from it on. -/
def splitAt : List Piece → Nat → List Piece × List Piece
  | [], _ => ([], [])
  | piece :: rest, offset =>
    if offset = 0 then ([], piece :: rest)
    else if piece.len > offset then
      let (left, right) := piece.split offset
      ([left], right :: rest)
    else
      let (before, after) := splitAt rest (offset - piece.len)
      (piece :: before, after)

/-- Replace `[offset, offset + len)` of the pieces by `middle`. -/
def replace (pieces : List Piece) (offset len : Nat) (middle : List Piece) : List Piece :=
  let (before, rest) := splitAt pieces offset
  let (_, after) := splitAt rest len
  before ++ middle ++ after

/-- An empty overwrite, insert or delete does nothing. -/
def apply (pieces : List Piece) : ContentOp → List Piece
  | .overwrite offset len => if len = 0 then pieces else replace pieces offset len [.new len]
  | .extend offset len | .insert offset len =>
    if len = 0 then pieces else replace pieces offset 0 [.new len]
  | .delete offset len => if len = 0 then pieces else replace pieces offset len []
  | .truncate len =>
    if len < totalLen pieces then (splitAt pieces len).1
    else if len > totalLen pieces then pieces ++ [.new (len - totalLen pieces)]
    else pieces

def op (kind : OpKind) (offset len src : Nat) : Op := ⟨kind, 0, 0, offset, len, src⟩

/-- `baseSkip` base bytes at `offset` are gone and `runLen` new bytes at post-state offset `runSrc`
take their place. -/
def emit (offset baseLen baseSkip runLen runSrc : Nat) (atEnd : Bool) : List Op :=
  if baseSkip = 0 ∧ runLen = 0 then []
  else if runLen = 0 then
    if atEnd ∧ offset + baseSkip = baseLen then [op .truncate offset baseSkip u64Max]
    else [op .delete offset baseSkip u64Max]
  else if baseSkip = 0 then
    if atEnd ∧ offset = baseLen then [op .extend offset runLen runSrc]
    else [op .insert offset runLen runSrc]
  else if baseSkip = runLen then [op .overwrite offset runLen runSrc]
  else [op .delete offset baseSkip u64Max, op .insert offset runLen runSrc]

/-- The readout's walk: `runLen` is the new run so far, from post-state offset `finalOffset` on;
`baseCursor` how much base is accounted for. -/
def readOutFrom (baseLen baseCursor finalOffset runLen : Nat) : List Piece → List Op
  | .new len :: rest => readOutFrom baseLen baseCursor finalOffset (runLen + len) rest
  | .base baseAt len :: rest =>
    emit baseCursor baseLen (baseAt - baseCursor) runLen finalOffset false ++
      readOutFrom baseLen (baseCursor + (baseAt - baseCursor) + len) (finalOffset + runLen + len)
        0 rest
  | [] => emit baseCursor baseLen (baseLen - baseCursor) runLen finalOffset true

/-- Walk the composed pieces once and emit the net ops. -/
def readOut (baseLen : Nat) (pieces : List Piece) : List Op := readOutFrom baseLen 0 0 0 pieces

def initial (baseLen : Nat) : List Piece := if baseLen > 0 then [.base 0 baseLen] else []

/-- The net ops of a journal over `baseLen` base bytes, and the final length. -/
def composeContentSized (baseLen : Nat) (journal : List ContentOp) : List Op × Nat :=
  let pieces := journal.foldl apply (initial baseLen)
  (readOut baseLen pieces, totalLen pieces)

end Derive

/-! ## Position mapping -/

inductive Mapped where
  | shifted (range : Range)
  | overlaps
  deriving DecidableEq, Repr

/-- `(at, oldLen, newLen)`: `oldLen` bytes at `at` become `newLen`. -/
def effectOf (op : Op) : Option (Nat × Nat × Nat) :=
  match op.kind with
  | .overwrite => some (op.offset, op.len, op.len)
  | .insert | .extend => some (op.offset, 0, op.len)
  | .delete | .truncate => some (op.offset, op.len, 0)
  | _ => none

/-- The shift of the effects before the range, `none` when one meets it. An effect past the range
ends the pass. -/
def shiftThrough (range : Range) : List Op → Int → Option Int
  | [], shift => some shift
  | op :: ops, shift =>
    match effectOf op with
    | none => shiftThrough range ops shift
    | some (offset, oldLen, newLen) =>
      if (Range.mk offset oldLen).overlaps range then none
      else if offset + oldLen ≤ range.start then
        shiftThrough range ops (shift + ((newLen : Int) - oldLen))
      else if offset ≥ range.stop then some shift
      else shiftThrough range ops shift

def mapThroughOne (ops : List Op) (range : Range) : Mapped :=
  match shiftThrough range ops 0 with
  | none => .overlaps
  | some shift => .shifted ⟨((range.start : Int) + shift).toNat, range.len⟩

def mapRange : List (List Op) → Range → Mapped
  | [], range => .shifted range
  | ops :: deltas, range =>
    match mapThroughOne ops range with
    | .shifted next => mapRange deltas next
    | .overlaps => .overlaps

end Slates.Merge
