import Cornet.Machinery.Memory

/-!
# Machinery/Endian — numbers as byte strings

    beBytes 3 n = [n / 256², n / 256, n]        (each modulo 256)

Network byte order, most significant byte first, and its reading back.
-/

namespace Cornet

open List

/-- The last `k` bytes of a number, most significant first. -/
def beBytes : ℕ → ℕ → List Byte
  | 0, _ => []
  | k + 1, n => UInt8.ofNat (n / 256 ^ k) :: beBytes k n

/-- The number a byte string spells: `v = v << 8 | b` over its bytes. -/
def beNat (l : List Byte) : ℕ := l.foldl (fun v b => v * 256 + b.toNat) 0

@[simp] theorem length_beBytes : ∀ k n : ℕ, (beBytes k n).length = k
  | 0, _ => rfl
  | k + 1, n => by rw [beBytes, length_cons, length_beBytes k n]

theorem foldl_beBytes : ∀ k n v : ℕ,
    (beBytes k n).foldl (fun v b => v * 256 + b.toNat) v = v * 256 ^ k + n % 256 ^ k
  | 0, n, v => by simp [beBytes, Nat.mod_one]
  | k + 1, n, v => by
      rw [beBytes, foldl_cons, foldl_beBytes k n, UInt8.toNat_ofNat']
      have hmod : n % 256 ^ (k + 1) = 256 ^ k * (n / 256 ^ k % 256) + n % 256 ^ k := by
        rw [pow_succ, Nat.mod_mul, add_comm]
      rw [hmod, pow_succ 256 k, show 2 ^ 8 = 256 from rfl]
      ring

/-- **Reading back.** -/
theorem beNat_beBytes {k n : ℕ} (h : n < 256 ^ k) : beNat (beBytes k n) = n := by
  rw [beNat, foldl_beBytes, Nat.mod_eq_of_lt h, Nat.zero_mul, Nat.zero_add]

theorem foldl_beNat (l : List Byte) (v : ℕ) :
    l.foldl (fun v b => v * 256 + b.toNat) v = v * 256 ^ l.length + beNat l := by
  induction l generalizing v with
  | nil => simp [beNat]
  | cons b l ih =>
    rw [beNat, foldl_cons, foldl_cons, ih, ih, length_cons]
    ring

theorem beNat_cons (b : Byte) (l : List Byte) :
    beNat (b :: l) = b.toNat * 256 ^ l.length + beNat l := by
  rw [beNat, foldl_cons, foldl_beNat]
  simp

theorem beNat_lt (l : List Byte) : beNat l < 256 ^ l.length := by
  induction l with
  | nil => simp [beNat]
  | cons b l ih =>
    rw [beNat_cons, length_cons, pow_succ]
    have hb : b.toNat < 256 := b.toNat_lt
    nlinarith

theorem beBytes_add_mul (k n m : ℕ) : beBytes k (m * 256 ^ k + n) = beBytes k n := by
  induction k generalizing m with
  | zero => rfl
  | succ k ih =>
    have hdiv : (m * 256 ^ (k + 1) + n) / 256 ^ k = m * 256 + n / 256 ^ k := by
      rw [pow_succ, mul_comm (256 ^ k), ← mul_assoc, add_comm, Nat.add_mul_div_right _ _
        (by positivity),
        add_comm]
    rw [beBytes, beBytes, hdiv, pow_succ, mul_comm (256 ^ k), ← mul_assoc, ih]
    congr 1
    rw [← UInt8.toNat_inj, UInt8.toNat_ofNat', UInt8.toNat_ofNat']
    omega

/-- **Writing back.** -/
theorem beBytes_beNat (l : List Byte) : beBytes l.length (beNat l) = l := by
  induction l with
  | nil => rfl
  | cons b l ih =>
    have hdiv : (b.toNat * 256 ^ l.length + beNat l) / 256 ^ l.length = b.toNat := by
      rw [add_comm, Nat.add_mul_div_right _ _ (by positivity), Nat.div_eq_of_lt (beNat_lt l),
        Nat.zero_add]
    rw [length_cons, beBytes, beNat_cons, hdiv, UInt8.ofNat_toNat, beBytes_add_mul, ih]

end Cornet
