import Slates.Merge.OpsDoc

/-!
The packet numbers of `crates/transport`. A packet carries the low bytes of its number and the
receiver takes the number nearest to the one it expects next, until that is half a window past it.
-/

namespace Slates.Transport

open Merge (u64Max leBytes leNat leNat_leBytes leBytes_length)

def maxPacketNumberBytes : Nat := 4

def packetNumberSpace : Nat := 2 ^ 62

/-- The low bytes of a number, the highest first, in the first `len` of `bytes`. -/
structure EncodedPacketNumber where
  bytes : List UInt8
  len : Nat

def EncodedPacketNumber.asSlice (e : EncodedPacketNumber) : List UInt8 := e.bytes.take e.len

/-- How many numbers may be unacknowledged. -/
def numUnacked (full : Nat) : (largestAcked : Option Nat) → Nat
  | some acked => full - acked
  | none => min (full + 1) u64Max

/-- The field grows, by at most `more` bytes, until it holds twice the gap. -/
def growField (twiceGap bytes : Nat) : (more : Nat) → Nat
  | 0 => bytes
  | more + 1 => if 2 ^ (8 * bytes) ≤ twiceGap then growField twiceGap (bytes + 1) more else bytes

def encodePacketNumber (full : Nat) (largestAcked : Option Nat) : EncodedPacketNumber :=
  let len := growField (numUnacked full largestAcked * 2) 1 (maxPacketNumberBytes - 1)
  let all := (leBytes 8 full).reverse
  let significant := all.drop (all.length - len)
  ⟨significant ++ List.replicate (maxPacketNumberBytes - len) 0, len⟩

/-- The nearest number to `expected` a window apart, kept inside the space. -/
def reconstruct (expected candidate win : Int) : Int :=
  let hwin := win / 2
  let space : Int := packetNumberSpace
  let reconstructed :=
    if candidate ≤ expected - hwin ∧ candidate < space - win then candidate + win
    else if candidate > expected + hwin ∧ candidate ≥ win then candidate - win
    else candidate
  max 0 (min reconstructed (space - 1))

def decodePacketNumber (largest : Nat) (truncated : List UInt8) : Nat :=
  let len := min truncated.length maxPacketNumberBytes
  if len = 0 then min (largest + 1) u64Max
  else
    let truncatedPn := (truncated.take len).foldl (fun pn byte => pn <<< 8 ||| byte.toNat) 0
    let bits := len * 8
    -- the bits of the next number above the field's, and those of the field
    let candidate := (largest + 1) >>> bits <<< bits ||| truncatedPn
    (reconstruct (largest + 1 : Nat) candidate (2 ^ bits : Nat)).toNat

theorem growField_spec (twiceGap bytes more : Nat) :
    bytes ≤ growField twiceGap bytes more ∧ growField twiceGap bytes more ≤ bytes + more ∧
      (growField twiceGap bytes more = bytes + more ∨
        twiceGap < 2 ^ (8 * growField twiceGap bytes more)) := by
  induction more generalizing bytes with
  | zero => exact ⟨le_rfl, le_rfl, .inl rfl⟩
  | succ more ih =>
    rw [growField]
    split_ifs with hsmall
    · obtain ⟨hge, hle, hwide⟩ := ih (bytes + 1)
      refine ⟨by omega, by omega, hwide.imp_left fun h => by omega⟩
    · exact ⟨le_rfl, by omega, .inr (not_le.mp hsmall)⟩

theorem take_leBytes {len width : Nat} (h : len ≤ width) (n : Nat) :
    (leBytes width n).take len = leBytes len n := by
  induction len generalizing width n with
  | zero => rfl
  | succ len ih =>
    obtain ⟨width, rfl⟩ := Nat.exists_eq_add_of_lt h
    rw [leBytes, List.take_succ_cons, leBytes]
    rw [ih (by omega)]

theorem or_field {bits field : Nat} (h : field < 2 ^ bits) (n : Nat) :
    n <<< bits ||| field = n * 2 ^ bits + field := by
  rw [← Nat.shiftLeft_add_eq_or_of_lt h, Nat.shiftLeft_eq]

theorem foldr_leNat (bytes : List UInt8) :
    bytes.foldr (fun byte pn => pn <<< 8 ||| byte.toNat) 0 = leNat bytes := by
  induction bytes with
  | nil => rfl
  | cons byte bytes ih =>
    rw [List.foldr_cons, ih, or_field byte.toNat_lt, leNat]
    omega

theorem reconstruct_eq {expected full half : Nat} (hfull : full < packetNumberSpace)
    (hlow : full < expected + half) (hhigh : expected < full + half) :
    reconstruct expected (expected / (2 * half) * (2 * half) + full % (2 * half) : Nat)
      (2 * half : Nat) = full := by
  have hpos : 0 < 2 * half := by omega
  have hexpected := Nat.div_add_mod' expected (2 * half)
  have hnumber := Nat.div_add_mod' full (2 * half)
  have hmod := Nat.mod_lt expected hpos
  -- the two numbers are in one window or in windows side by side
  have hup : full / (2 * half) ≤ expected / (2 * half) + 1 := by
    rw [← Nat.add_div_right _ hpos]
    exact Nat.div_le_div_right (by omega)
  have hdown : expected / (2 * half) ≤ full / (2 * half) + 1 := by
    rw [← Nat.add_div_right _ hpos]
    exact Nat.div_le_div_right (by omega)
  generalize expected / (2 * half) = q at *
  generalize full / (2 * half) = q' at *
  rw [reconstruct]
  obtain rfl | rfl | rfl : q' = q ∨ q' = q + 1 ∨ q = q' + 1 := by omega
  · rw [if_neg (by omega), if_neg (by omega)]
    omega
  · rw [Nat.succ_mul] at hnumber
    rw [if_pos (by omega)]
    omega
  · rw [Nat.succ_mul] at hexpected ⊢
    rw [if_neg (by omega), if_pos (by omega)]
    omega

section Field

variable {full largest : Nat} {acked : Option Nat}

theorem asSlice_encodePacketNumber (full : Nat) (acked : Option Nat) :
    (encodePacketNumber full acked).asSlice =
      (leBytes (encodePacketNumber full acked).len full).reverse := by
  obtain ⟨-, hle, -⟩ := growField_spec (numUnacked full acked * 2) 1 3
  have hlen : (encodePacketNumber full acked).len ≤ 4 := hle
  have hbytes : (encodePacketNumber full acked).bytes =
      (leBytes 8 full).reverse.drop (8 - (encodePacketNumber full acked).len) ++
        List.replicate (4 - (encodePacketNumber full acked).len) 0 := by
    simp [encodePacketNumber, maxPacketNumberBytes]
  rw [EncodedPacketNumber.asSlice, hbytes, List.drop_reverse, leBytes_length,
    Nat.sub_sub_self (by omega), take_leBytes (by omega)]
  exact List.take_left' (by simp)

theorem window_encodePacketNumber (hgap : full - acked.getD 0 < 2 ^ 31) :
    ∃ len, (encodePacketNumber full acked).len = len ∧ (1 ≤ len ∧ len ≤ 4) ∧
      2 * (full - acked.getD 0) ≤ 2 ^ (8 * len) := by
  obtain ⟨hge, hle, hwide⟩ := growField_spec (numUnacked full acked * 2) 1 3
  refine ⟨_, rfl, ⟨hge, hle⟩, ?_⟩
  show _ ≤ 2 ^ (8 * growField _ 1 3)
  have hunacked : full - acked.getD 0 ≤ numUnacked full acked := by
    cases acked with
    | some a => exact le_rfl
    | none => exact le_min (Nat.le_succ _) (by simp [u64Max] at hgap ⊢; omega)
  rcases hwide with hmax | hwide
  · rw [hmax]
    omega
  · omega

/-- **A truncated packet number names the number sent.** -/
theorem decodePacketNumber_encodePacketNumber (hfull : full < packetNumberSpace)
    (hacked : acked.getD 0 ≤ full) (hgap : full - acked.getD 0 < 2 ^ 31)
    (hlargest : acked.getD 0 ≤ largest)
    (hahead : largest + 1 < full + 2 ^ (8 * (encodePacketNumber full acked).len) / 2) :
    decodePacketNumber largest (encodePacketNumber full acked).asSlice = full := by
  obtain ⟨len, hlen, hcases, hwindow⟩ := window_encodePacketNumber hgap
  rw [hlen] at hahead
  have hmin : min len maxPacketNumberBytes = len := by
    rw [maxPacketNumberBytes]
    omega
  have hfield : (leBytes len full).reverse.foldl (fun pn byte => pn <<< 8 ||| byte.toNat) 0 =
      full % 2 ^ (len * 8) := by
    rw [List.foldl_reverse, foldr_leNat, leNat_leBytes, Nat.mul_comm, Nat.pow_mul]
  rw [asSlice_encodePacketNumber, hlen, decodePacketNumber]
  simp only [List.length_reverse, leBytes_length, hmin]
  rw [if_neg (by omega), List.take_of_length_le (by simp), hfield,
    or_field (Nat.mod_lt _ (Nat.two_pow_pos _)), Nat.shiftRight_eq_div_pow]
  have hhalf : 2 ^ (len * 8) = 2 * (2 ^ (8 * len) / 2) := by
    rw [Nat.mul_comm len 8, Nat.mul_div_cancel' (dvd_pow_self 2 (by omega))]
  rw [hhalf, reconstruct_eq hfull (by omega) hahead, Int.toNat_natCast]

/-- The largest number of the space, at a receiver that is ahead of none. -/
theorem decodePacketNumber_last :
    decodePacketNumber (2 ^ 62 - 2)
      (encodePacketNumber (2 ^ 62 - 1) (some (2 ^ 62 - 300))).asSlice =
      2 ^ 62 - 1 :=
  decodePacketNumber_encodePacketNumber (by decide) (by decide) (by decide) (by decide) (by decide)

/-- Half a window past the number, the one a window later is as near. -/
theorem decodePacketNumber_half_past :
    (encodePacketNumber 0 none).len = 1 ∧ 127 < 0 + 2 ^ (8 * 1) / 2 ∧
      decodePacketNumber 127 (encodePacketNumber 0 none).asSlice = 256 := by
  decide

end Field

end Slates.Transport
