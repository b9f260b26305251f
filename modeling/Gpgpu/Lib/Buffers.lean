-- Named buffers in one memory. They lie apart, so a change inside some of them leaves
-- every other one as it was.
import Gpgpu.Lib.Words

open memory words

namespace buffers

variable {β : Type*}

/-- Buffers that lie apart below `top`, in a memory whose first byte is at `base`. -/
structure Layout (β : Type*) where
  base : Nat
  top : Nat
  off : β → Nat
  size : β → Nat
  apart : ∀ b c, b ≠ c → off b + size b ≤ off c ∨ off c + size c ≤ off b
  fits : ∀ b, off b + size b ≤ top

namespace Layout

variable (lay : Layout β)

/-- The byte at `y` is in buffer `b`. -/
def In (b : β) (y : Nat) : Prop :=
  lay.base + lay.off b ≤ y ∧ y < lay.base + lay.off b + lay.size b

/-- Two memories agree on buffer `b`. -/
def Same (b : β) (m m' : Mem) : Prop := ∀ y, lay.In b y → m' y = m y

/-- Only bytes in the buffers `bs` change. -/
def Changes (bs : List β) (m m' : Mem) : Prop := ∀ y, (∀ b ∈ bs, ¬ lay.In b y) → m' y = m y

/-- The `n` words from byte `i` of buffer `b` on. -/
def read (m : Mem) (b : β) (i n : Nat) : List Word := vec (word m) (lay.base + lay.off b + i) n

variable {lay} {m m' m'' : Mem} {b : β} {bs cs : List β} {i n : Nat}

theorem In.unique {c : β} {y : Nat} (hb : lay.In b y) (hc : lay.In c y) : b = c := by
  by_contra hne
  have happ := lay.apart b c hne
  unfold In at hb hc
  omega

/-! ## Changes -/

theorem Changes.trans (h1 : lay.Changes bs m m') (h2 : lay.Changes cs m' m'') :
    lay.Changes (bs ++ cs) m m'' := by
  intro y hy
  rw [h2 y fun b hb => hy b (List.mem_append_right _ hb),
    h1 y fun b hb => hy b (List.mem_append_left _ hb)]

theorem Changes.same (h : lay.Changes bs m m') (hb : b ∉ bs) : lay.Same b m m' := by
  intro y hy
  apply h
  intro c hc hin
  exact hb (hy.unique hin ▸ hc)

theorem changes_copy {src : Nat → UInt8} (h : i + n ≤ lay.size b) :
    lay.Changes [b] m (copy m (lay.base + lay.off b + i) src n) := by
  intro y hy
  have hnot := hy b (List.mem_singleton_self b)
  unfold In at hnot
  exact copy_outside (by omega)

theorem changes_put {ws : List Word} (h : i + 4 * ws.length ≤ lay.size b) :
    lay.Changes [b] m (put m (lay.base + lay.off b + i) ws) :=
  changes_copy h

/-! ## Reads -/

@[simp] theorem read_length (m : Mem) (b : β) (i n : Nat) : (lay.read m b i n).length = n :=
  vec_length ..

theorem Same.read (h : lay.Same b m m') (hi : i + 4 * n ≤ lay.size b) :
    lay.read m' b i n = lay.read m b i n := by
  apply vec_congr
  intro k hk
  apply word_congr
  intro j hj
  exact h _ ⟨by omega, by omega⟩

theorem read_put (m : Mem) (b : β) (i : Nat) (ws : List Word) :
    lay.read (put m (lay.base + lay.off b + i) ws) b i ws.length = ws :=
  vec_put ..

theorem read_stretch (m : Mem) (b : β) {k j : Nat} (h : k + j ≤ n) :
    ((lay.read m b i n).drop k).take j = lay.read m b (i + 4 * k) j := by
  unfold read
  rw [vec_stretch _ h, Nat.add_assoc]

end Layout

end buffers
