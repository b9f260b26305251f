-- A memory of bytes. Words lie in it little-endian, as a host of this kind
-- stores them, and each write says which bytes it leaves alone.
import Mathlib

namespace memory

/-- One byte at each address. -/
abbrev Mem := Nat → UInt8

/-- The number in the `n` bytes at `a`, lowest byte first. -/
def load (m : Mem) (a : Nat) : Nat → Nat
  | 0 => 0
  | n + 1 => (m a).toNat + 256 * load m (a + 1) n

/-- The memory after a write of the lowest `n` bytes of `v` at `a`. -/
def store (m : Mem) (a n v : Nat) : Mem := fun x =>
  if a ≤ x ∧ x < a + n then UInt8.ofNat (v / 256 ^ (x - a)) else m x

/-- The memory after a copy of `n` bytes of `src` to `dst`. -/
def copy (m : Mem) (dst : Nat) (src : Nat → UInt8) (n : Nat) : Mem := fun x =>
  if dst ≤ x ∧ x < dst + n then src (x - dst) else m x

/-! ## What a read depends on -/

theorem load_congr {m m' : Mem} {a n : Nat} (h : ∀ x, a ≤ x → x < a + n → m' x = m x) :
    load m' a n = load m a n := by
  induction n generalizing a with
  | zero => rfl
  | succ n ih =>
    unfold load
    rw [h a (by omega) (by omega), ih (fun x h1 h2 => h x (by omega) (by omega))]

theorem load_lt (m : Mem) (a n : Nat) : load m a n < 256 ^ n := by
  induction n generalizing a with
  | zero => simp [load]
  | succ n ih =>
    unfold load
    have h1 := ih (a + 1)
    have h2 : (m a).toNat < 256 := (m a).toNat_lt
    rw [Nat.pow_succ]
    omega

/-! ## What a write leaves alone -/

theorem store_outside {m : Mem} {a n v x : Nat} (h : x < a ∨ a + n ≤ x) :
    store m a n v x = m x := by
  unfold store
  rw [if_neg (by omega)]

theorem copy_outside {m : Mem} {dst n x : Nat} {src : Nat → UInt8} (h : x < dst ∨ dst + n ≤ x) :
    copy m dst src n x = m x := by
  unfold copy
  rw [if_neg (by omega)]

theorem copy_inside {m : Mem} {dst n i : Nat} {src : Nat → UInt8} (h : i < n) :
    copy m dst src n (dst + i) = src i := by
  unfold copy
  rw [if_pos (by omega), Nat.add_sub_cancel_left]

theorem load_store_apart {m : Mem} {a n v b k : Nat} (h : a + n ≤ b ∨ b + k ≤ a) :
    load (store m a n v) b k = load m b k :=
  load_congr fun x h1 h2 => store_outside (by omega)

/-- A read gives back the bytes that the last write at its place left. -/
theorem load_store (m : Mem) (a n v : Nat) : load (store m a n v) a n = v % 256 ^ n := by
  induction n generalizing a v with
  | zero => simp [load, Nat.mod_one]
  | succ n ih =>
    have htail : load (store m a (n + 1) v) (a + 1) n = v / 256 % 256 ^ n := by
      rw [← ih (a + 1) (v / 256)]
      apply load_congr
      intro x h1 h2
      have hx : x - a = (x - (a + 1)) + 1 := by omega
      unfold store
      rw [if_pos (by omega), if_pos (by omega), hx, Nat.pow_succ, Nat.mul_comm,
        Nat.div_div_eq_div_mul]
    have hhead : (store m a (n + 1) v a).toNat = v % 256 := by
      unfold store
      rw [if_pos (by omega)]
      simp
    rw [load, htail, hhead, Nat.pow_succ, Nat.mul_comm (256 ^ n), Nat.mod_mul]

end memory
