import Slates.Merge.OpsDoc

/-!
The head identity as a set hash (`crates/merge/src/identity.rs`, and the entry encodings of
`engine.rs`): the sum of the entries' 1024 sixteen-bit lanes, hashed.
-/

namespace Slates.Merge

abbrev Digest := Fin (2 ^ 256)

instance neZeroDigest : NeZero (2 ^ 256) := ⟨(Nat.two_pow_pos 256).ne'⟩

instance transOrdDigest : Std.TransOrd Digest := inferInstance

/-- The running sum of entry vectors, lane by lane modulo `2 ^ 16`. -/
abbrev SetHash := Fin 1024 → UInt16

/-- The two hash functions the identity uses: an entry's lanes and the sum's digest. -/
structure Blake3 where
  lanes : Bytes → SetHash
  digest : SetHash → Digest

/-- A hash for concrete runs, whose identities do not matter. -/
def Blake3.zero : Blake3 := ⟨fun _ _ => 0, fun _ => 0⟩

namespace SetHash

def add (h : Blake3) (sum : SetHash) (entry : Bytes) : SetHash :=
  fun i => sum i + h.lanes entry i

def remove (h : Blake3) (sum : SetHash) (entry : Bytes) : SetHash :=
  fun i => sum i - h.lanes entry i

end SetHash

/-! ## Entries -/

def field (bytes : Bytes) : Bytes := leBytes 8 bytes.length ++ bytes

def pathBytes (s : String) : Bytes := s.toUTF8.toList

def specialEntry (path : Path) (node : SpecialNode) : Bytes :=
  "I".toUTF8.toList ++ field (pathBytes path) ++ field node.encode

def fileEntry (path : Path) (bytes : Bytes) : Bytes :=
  "F".toUTF8.toList ++ field (pathBytes path) ++ field bytes

def dirEntry (path : Path) : Bytes := "D".toUTF8.toList ++ field (pathBytes path)

/-- The mode is a fixed-width field. -/
def modeEntry (path : Path) (mode : UInt32) : Bytes :=
  "M".toUTF8.toList ++ field (pathBytes path) ++ leBytes 4 mode.toNat

def symlinkEntry (path : Path) (target : String) : Bytes :=
  "S".toUTF8.toList ++ field (pathBytes path) ++ field (pathBytes target)

def hardlinkEntry (path : Path) (target : String) : Bytes :=
  "L".toUTF8.toList ++ field (pathBytes path) ++ field (pathBytes target)

def xattrEntry (path : Path) (name : String) (value : Bytes) : Bytes :=
  "X".toUTF8.toList ++ field (pathBytes path) ++ field (pathBytes name) ++ field value

/-! ## Keys -/

/-- A key of the green's state whose identity entry a commit changed. -/
inductive IdentityKey where
  | file (path : Path)
  | special (path : Path)
  | dir (path : Path)
  | mode (path : Path)
  | symlink (path : Path)
  | hardlink (path : Path)
  | xattr (path : Path) (name : String)
  deriving DecidableEq, Repr

namespace IdentityKey

/-- Dimension, path, attribute name: the derived order of the source. -/
def code : IdentityKey → Nat × Path × String
  | .file path => (0, path, "")
  | .special path => (1, path, "")
  | .dir path => (2, path, "")
  | .mode path => (3, path, "")
  | .symlink path => (4, path, "")
  | .hardlink path => (5, path, "")
  | .xattr path name => (6, path, name)

instance : Ord (Nat × Path × String) := lexOrd

instance : Ord IdentityKey := ⟨fun a b => compare a.code b.code⟩

theorem code_injective : Function.Injective code := by
  intro a b h
  cases a <;> cases b <;> simp_all [code]

private theorem codes_trans : Std.TransOrd (Nat × Path × String) := inferInstance
private theorem codes_lawful : Std.LawfulEqOrd (Nat × Path × String) := inferInstance

instance : Std.TransOrd IdentityKey where
  eq_swap := codes_trans.eq_swap
  isLE_trans := codes_trans.isLE_trans

instance : Std.LawfulEqOrd IdentityKey where
  compare_self := codes_lawful.compare_self
  eq_of_compare := fun h => code_injective (codes_lawful.eq_of_compare h)

end IdentityKey

end Slates.Merge
