import ClassSketch.ClassFile.Reader
import ClassSketch.Proofs.Parsing
import Mathlib.Data.UInt
import Mathlib.Tactic.Ring

/-!
# Writing big-endian numbers

## Main definitions

* `Reader.toBigEndian` — the bytes of a number

## Main results

* `Reader.bytes_append` — bytes are read as they stand
* `Reader.u1_toBigEndian`, `Reader.u2_toBigEndian`, `Reader.u4_toBigEndian`,
  `Reader.u8_toBigEndian` — a number that fits is read back
-/

namespace ClassSketch

namespace Reader

/-- A number as bytes, the most significant one first. What does not fit is cut off. -/
def toBigEndian : ℕ → ℕ → List UInt8
  | 0, _ => []
  | width + 1, n => (n / 256 ^ width).toUInt8 :: toBigEndian width n

@[simp] theorem length_toBigEndian (width n : ℕ) : (toBigEndian width n).length = width := by
  induction width with
  | zero => rfl
  | succ width ih => rw [toBigEndian, List.length_cons, ih]

/-- The bytes of a number put it behind what has been read before, whatever that was. -/
theorem foldl_toBigEndian (width n : ℕ) : ∀ start : ℕ,
    (toBigEndian width n).foldl (fun n b => n * 256 + b.toNat) start =
      start * 256 ^ width + n % 256 ^ width := by
  induction width with
  | zero => simp [toBigEndian, Nat.mod_one]
  | succ width ih =>
    intro start
    have hByte : (n / 256 ^ width).toUInt8.toNat = n / 256 ^ width % 256 := by simp
    have hSplit : n % 256 ^ (width + 1) =
        n % 256 ^ width + 256 ^ width * (n / 256 ^ width % 256) := by
      rw [pow_succ, Nat.mod_mul]
    rw [toBigEndian, List.foldl_cons, ih, hByte, hSplit, pow_succ]
    ring

/-- A number that fits its width is read back. -/
theorem bigEndian_toBigEndian {width n : ℕ} (h : n < 256 ^ width) :
    bigEndian (toBigEndian width n) = n := by
  rw [bigEndian, foldl_toBigEndian, Nat.zero_mul, Nat.zero_add, Nat.mod_eq_of_lt h]

/-- As many bytes as are in front are cut off. -/
theorem split?_append (front rest : List UInt8) :
    split? front.length (front ++ rest) = some (front, rest) := by
  induction front with
  | nil => rfl
  | cons b front ih => rw [List.length_cons, List.cons_append, split?, ih, Option.map_some]

/-- As many bytes as are in front are read, and the rest is left. -/
theorem bytes_append (front rest : List UInt8) :
    bytes front.length (front ++ rest) = .ok (front, rest) := by
  rw [bytes, split?_append]

theorem bytes_toBigEndian (width n : ℕ) (rest : List UInt8) :
    bytes width (toBigEndian width n ++ rest) = .ok (toBigEndian width n, rest) := by
  have h := bytes_append (toBigEndian width n) rest
  rwa [length_toBigEndian] at h

theorem u1_toBigEndian {n : ℕ} (h : n < 256 ^ 1) (rest : List UInt8) :
    u1 (toBigEndian 1 n ++ rest) = .ok (n.toUInt8, rest) := by
  rw [u1, Parsing.bind_of_ok (bytes_toBigEndian 1 n rest), bigEndian_toBigEndian h]
  rfl

theorem u1_toNat (n : UInt8) (rest : List UInt8) :
    u1 (toBigEndian 1 n.toNat ++ rest) = .ok (n, rest) := by
  rw [u1_toBigEndian n.toNat_lt]
  simp

/-- A number that fits is read back from its two bytes; the other widths are the same. -/
theorem u2_toBigEndian {n : ℕ} (h : n < 256 ^ 2) (rest : List UInt8) :
    u2 (toBigEndian 2 n ++ rest) = .ok (n.toUInt16, rest) := by
  rw [u2, Parsing.bind_of_ok (bytes_toBigEndian 2 n rest), bigEndian_toBigEndian h]
  rfl

theorem u2_toNat (n : UInt16) (rest : List UInt8) :
    u2 (toBigEndian 2 n.toNat ++ rest) = .ok (n, rest) := by
  rw [u2_toBigEndian n.toNat_lt]
  simp

theorem u4_toBigEndian {n : ℕ} (h : n < 256 ^ 4) (rest : List UInt8) :
    u4 (toBigEndian 4 n ++ rest) = .ok (n.toUInt32, rest) := by
  rw [u4, Parsing.bind_of_ok (bytes_toBigEndian 4 n rest), bigEndian_toBigEndian h]
  rfl

theorem u4_toNat (n : UInt32) (rest : List UInt8) :
    u4 (toBigEndian 4 n.toNat ++ rest) = .ok (n, rest) := by
  rw [u4_toBigEndian n.toNat_lt]
  simp

theorem u8_toBigEndian {n : ℕ} (h : n < 256 ^ 8) (rest : List UInt8) :
    u8 (toBigEndian 8 n ++ rest) = .ok (n.toUInt64, rest) := by
  rw [u8, Parsing.bind_of_ok (bytes_toBigEndian 8 n rest), bigEndian_toBigEndian h]
  rfl

theorem u8_toNat (n : UInt64) (rest : List UInt8) :
    u8 (toBigEndian 8 n.toNat ++ rest) = .ok (n, rest) := by
  rw [u8_toBigEndian n.toNat_lt]
  simp

end Reader

end ClassSketch
