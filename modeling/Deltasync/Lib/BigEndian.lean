import Mathlib.Data.Nat.ModEq
import Mathlib.Data.UInt
import Mathlib.Data.List.Induction
import Mathlib.Tactic.NormNum
import Mathlib.Tactic.Ring

/-!
# Big-endian integers

`toBytes k n` are the `k` low bytes of `n`, most significant first.  A reader
shifts them in one after the other; on an accumulator of `w` bits the shift
drops what leaves it at the top.
-/

namespace BigEndian

def toBytes : ℕ → ℕ → List UInt8
  | 0, _ => []
  | k + 1, n => toBytes k (n / 256) ++ [UInt8.ofNat n]

/-- One byte shifted into an accumulator of `w` bits. -/
def shiftIn (w acc : ℕ) (b : UInt8) : ℕ := (acc * 256) % 2 ^ w + b.toNat

def ofBytes (w : ℕ) (bytes : List UInt8) : ℕ := bytes.foldl (shiftIn w) 0

@[simp] theorem length_toBytes (k n : ℕ) : (toBytes k n).length = k := by
  induction k generalizing n with
  | zero => rfl
  | succ k ih => simp [toBytes, ih]

theorem toBytes_ne_nil {k : ℕ} (hk : 0 < k) (n : ℕ) : toBytes k n ≠ [] := by
  intro h
  have h' := congrArg List.length h
  simp only [length_toBytes, List.length_nil] at h'
  omega

theorem ofBytes_concat (w : ℕ) (bytes : List UInt8) (b : UInt8) :
    ofBytes w (bytes ++ [b]) = shiftIn w (ofBytes w bytes) b := by
  simp [ofBytes]

/-- Reading back what was written, on an accumulator that holds it. -/
theorem ofBytes_toBytes {w k n : ℕ} (hk : n < 256 ^ k) (hw : n < 2 ^ w) :
    ofBytes w (toBytes k n) = n := by
  induction k generalizing n with
  | zero =>
    obtain rfl : n = 0 := by simpa using hk
    rfl
  | succ k ih =>
    have hdiv : n / 256 < 256 ^ k := by
      rw [Nat.div_lt_iff_lt_mul (by omega)]
      simpa only [pow_succ] using hk
    have hlt : n / 256 * 256 < 2 ^ w := lt_of_le_of_lt (Nat.div_mul_le_self n 256) hw
    rw [toBytes, ofBytes_concat, ih hdiv (lt_of_le_of_lt (Nat.div_le_self n 256) hw), shiftIn,
      Nat.mod_eq_of_lt hlt]
    have hb : (UInt8.ofNat n).toNat = n % 256 := by simp
    rw [hb]
    omega

theorem ofBytes_lt {w : ℕ} (bytes : List UInt8) (hw : 8 * bytes.length ≤ w) :
    ofBytes w bytes < 256 ^ bytes.length := by
  induction bytes using List.reverseRecOn with
  | nil => simp [ofBytes]
  | append_singleton bytes b ih =>
    rw [List.length_append, List.length_singleton] at hw
    have hlt := ih (by omega)
    have hb : b.toNat < 256 := UInt8.toNat_lt b
    have hle := Nat.mod_le (ofBytes w bytes * 256) (2 ^ w)
    rw [ofBytes_concat, shiftIn, List.length_append, List.length_singleton, pow_succ]
    omega

/-- Writing back what was read. -/
theorem toBytes_ofBytes {w : ℕ} (bytes : List UInt8) (hw : 8 * bytes.length ≤ w) :
    toBytes bytes.length (ofBytes w bytes) = bytes := by
  induction bytes using List.reverseRecOn with
  | nil => rfl
  | append_singleton bytes b ih =>
    rw [List.length_append, List.length_singleton] at hw
    have hlt : ofBytes w bytes * 256 < 2 ^ w := by
      have h1 := ofBytes_lt (w := w) bytes (by omega)
      have h2 : (256 : ℕ) ^ bytes.length * 256 ≤ 2 ^ w := by
        rw [← pow_succ, show (256 : ℕ) = 2 ^ 8 by norm_num, ← pow_mul]
        exact Nat.pow_le_pow_right (by omega) (by omega)
      omega
    have hb : b.toNat < 256 := UInt8.toNat_lt b
    rw [List.length_append, List.length_singleton, ofBytes_concat, shiftIn, Nat.mod_eq_of_lt hlt,
      toBytes, show (ofBytes w bytes * 256 + b.toNat) / 256 = ofBytes w bytes by omega,
      ih (by omega)]
    congr 2
    apply UInt8.toNat_inj.mp
    simp only [UInt8.toNat_ofNat', Nat.reducePow]
    omega

end BigEndian
