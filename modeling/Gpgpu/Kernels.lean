-- The kernels that a decode step launches (kernels/*.S), each as the vector function
-- that its threads compute together. A float is its 32 bits, and what the float
-- instructions do with them is left open.
import Gpgpu.Lib.Words

open words

namespace gpgpu.kernels

/-! ## The instructions -/

/-- The float instructions of the device. -/
structure Fpu where
  fadd : Word → Word → Word
  fsub : Word → Word → Word
  fmul : Word → Word → Word
  fdiv : Word → Word → Word
  fmax : Word → Word → Word
  fmadd : Word → Word → Word → Word
  fsqrt : Word → Word
  vexp : Word → Word
  flt : Word → Word → Bool
  feq : Word → Word → Bool

def ONE : Word := 0x3F800000

def MINUS_INFINITY : Word := 0xFF800000

def LANES : Nat := 32

/-- The sum, or another fold, over the lanes of a warp: in each turn a lane takes in
the value of the lane whose number differs in one bit (`VSHFL_XOR`). -/
def shuffle {α : Type} (op : α → α → α) : List Nat → (Nat → α) → Nat → α
  | [], f => f
  | mask :: masks, f => shuffle op masks fun lane => op (f lane) (f (lane ^^^ mask))

variable (fpu : Fpu)

/-! ## Products and sums -/

/-- `gemm.S`: element `i` is in row `i / N` and column `i % N`. -/
def gemm (M K N : Nat) (A B : List Word) : List Word :=
  (List.range (M * N)).map fun i =>
    (List.range K).foldl
      (fun acc k => fpu.fmadd (A.getD (i / N * K + k) 0) (B.getD (k * N + i % N) 0) acc) 0

/-- `broadcast_add.S`. -/
def broadcast_add (M N : Nat) (x b : List Word) : List Word :=
  (List.range (M * N)).map fun i => fpu.fadd (x.getD i 0) (b.getD (i % N) 0)

/-- `vmul.S`: one warp takes `num / 32` turns. -/
def vmul (num : Nat) (a b : List Word) : List Word :=
  (List.range (num / LANES * LANES)).map fun i => fpu.fmul (a.getD i 0) (b.getD i 0)

/-- `silu.S`. The sign is turned by its bit (`fsgnjn.s`). -/
def silu (D : Nat) (x : List Word) : List Word :=
  (List.range D).map fun i =>
    let v := x.getD i 0
    fpu.fmul v (fpu.fdiv ONE (fpu.fadd ONE (fpu.vexp (v ^^^ 0x80000000))))

/-! ## `rmsnorm.S` -/

/-- The elements that each lane has. -/
def PER_LANE : Nat := 28

/-- The sum of the squares that a lane has after the shuffles. -/
def square_sum (x : List Word) : Nat → Word :=
  shuffle fpu.fadd [1, 2, 4, 8, 16] fun lane =>
    (List.range PER_LANE).foldl
      (fun acc i =>
        let v := x.getD (lane * PER_LANE + i) 0
        fpu.fadd acc (fpu.fmul v v)) 0

/-- `rmsnorm.S`: the lane of element `i` is `i / 28`. -/
def rmsnorm (inv_d eps : Word) (x weight : List Word) : List Word :=
  (List.range (LANES * PER_LANE)).map fun i =>
    let mean := fpu.fadd (fpu.fmul (square_sum fpu x (i / PER_LANE)) inv_d) eps
    let rrms := fpu.fdiv ONE (fpu.fsqrt mean)
    fpu.fmul (fpu.fmul (x.getD i 0) rrms) (weight.getD i 0)

/-! ## `rope.S` -/

/-- The rotation of one head of 64 elements. Element `k` and element `k + 32` make a
pair, and `cs` has the cosine and sine of pair `k` side by side. -/
def rope_head (cs x : List Word) : List Word :=
  (List.range LANES).map (fun k =>
    fpu.fsub (fpu.fmul (x.getD k 0) (cs.getD (2 * k) 0))
      (fpu.fmul (x.getD (k + LANES) 0) (cs.getD (2 * k + 1) 0))) ++
  (List.range LANES).map fun k =>
    fpu.fmadd (x.getD k 0) (cs.getD (2 * k + 1) 0)
      (fpu.fmul (x.getD (k + LANES) 0) (cs.getD (2 * k) 0))

/-! ## Attention -/

/-- The head of the cache that query head `qh` looks at (`div`, which gives -1 for a
division by zero). -/
def kv_head (qh q_per_kv : Nat) : Nat := if q_per_kv = 0 then 2 ^ 32 - 1 else qh / q_per_kv

/-- One score of `qkt_decode.S`. -/
def score (scale : Word) (head_dim : Nat) (q k : List Word) : Word :=
  fpu.fmul ((List.range head_dim).foldl
    (fun acc i => fpu.fmadd (k.getD i 0) (q.getD i 0) acc) 0) scale

/-- The turns of a lane over a row of `S` elements. -/
def turns (S lane : Nat) : Nat := (S + 31 - lane) / LANES

theorem turns_iff {S lane t : Nat} : t < turns S lane ↔ t * 32 + lane < S := by
  unfold turns LANES
  omega

/-- `softmax_decode.S` on one row. The lane of element `j` is `j % 32`. -/
def softmax_row (x : List Word) : List Word :=
  let S := x.length
  let top := shuffle fpu.fmax [1, 2, 4, 8, 16] fun lane =>
    (List.range (turns S lane)).foldl (fun acc i => fpu.fmax acc (x.getD (lane + LANES * i) 0))
      MINUS_INFINITY
  let e := fun j => fpu.vexp (fpu.fsub (x.getD j 0) (top (j % LANES)))
  let sum := shuffle fpu.fadd [1, 2, 4, 8, 16] fun lane =>
    (List.range (turns S lane)).foldl (fun acc i => fpu.fadd acc (e (lane + LANES * i))) 0
  (List.range S).map fun j => fpu.fdiv (e j) (sum (j % LANES))

theorem softmax_row_length (x : List Word) : (softmax_row fpu x).length = x.length := by
  simp [softmax_row]

/-- `pv_decode.S` on one row of weights and the rows of values that belong to them.
The warp writes whole turns of 32 elements. -/
def pv_row (head_dim : Nat) (p : List Word) (rows : List (List Word)) : List Word :=
  (List.range (head_dim / LANES * LANES)).map fun k =>
    (List.range p.length).foldl
      (fun acc j => fpu.fadd acc (fpu.fmul (p.getD j 0) ((rows.getD j []).getD k 0))) 0

/-! ## `argmax.S` -/

/-- The best element that a lane has seen, with its index. -/
structure Best where
  value : Word
  index : Word

/-- What a lane has after `n` turns of `phaseA_loop`. -/
def phaseA_loop (V : Nat) (logits : List Word) (lane n : Nat) : Best :=
  (List.range n).foldl
    (fun best t =>
      let i := t * LANES + lane
      if i < V ∧ fpu.flt best.value (logits.getD i 0) then ⟨logits.getD i 0, UInt32.ofNat i⟩
      else best) ⟨MINUS_INFINITY, 0x7F7FFFFF⟩

/-- The element of each lane after its own stretch of the logits. -/
def phase_a (V : Nat) (logits : List Word) (lane : Nat) : Best :=
  phaseA_loop fpu V logits lane ((V + 31) / LANES)

/-- `REDUCE_STEP`: a larger value wins, and of equal values the smaller index. -/
def reduce_step (mine other : Best) : Best :=
  if fpu.flt mine.value other.value then other
  else if fpu.feq mine.value other.value ∧ other.index < mine.index then other
  else mine

/-- What a lane has after the first `n` shuffles. -/
def after_shuffles (V : Nat) (logits : List Word) (n : Nat) : Nat → Best :=
  shuffle (reduce_step fpu) ([16, 8, 4, 2, 1].take n) (phase_a fpu V logits)

/-- `argmax.S`: lane 0 has the result. -/
def argmax (V : Nat) (logits : List Word) : Word := (after_shuffles fpu V logits 5 0).index

/-- The words that a lane leaves in the debug buffer. -/
def argmax_debug (V : Nat) (logits : List Word) (lane : Nat) : List Word :=
  [0, 1, 2, 3, 4, 5, 5].map fun n => (after_shuffles fpu V logits n lane).index

/-- What holds of every lane and is kept by the fold holds after the shuffles. -/
theorem shuffle_keeps {α : Type} {g : α → α → α} {P : α → Prop}
    (hg : ∀ a b, P a → P b → P (g a b)) (masks : List Nat) (f : Nat → α) (hf : ∀ i, P (f i))
    (lane : Nat) : P (shuffle g masks f lane) := by
  induction masks generalizing f with
  | nil => exact hf lane
  | cons mask masks ih => exact ih _ fun i => hg _ _ (hf i) (hf _)

theorem phaseA_loop_succ (V : Nat) (logits : List Word) (lane n : Nat) :
    phaseA_loop fpu V logits lane (n + 1) =
      if n * 32 + lane < V ∧
          fpu.flt (phaseA_loop fpu V logits lane n).value (logits.getD (n * 32 + lane) 0) then
        ⟨logits.getD (n * 32 + lane) 0, UInt32.ofNat (n * 32 + lane)⟩
      else phaseA_loop fpu V logits lane n := by
  unfold phaseA_loop
  rw [List.range_succ, List.foldl_append]
  rfl

/-- The index that a lane finds is a number of 31 bits. -/
theorem phaseA_loop_lt {V : Nat} (hV : V < 2 ^ 31) (logits : List Word) (lane n : Nat) :
    (phaseA_loop fpu V logits lane n).index.toNat < 2 ^ 31 := by
  induction n with
  | zero => exact (by decide : (0x7F7FFFFF : Word).toNat < 2 ^ 31)
  | succ n ih =>
    rw [phaseA_loop_succ]
    split
    next h =>
      show (UInt32.ofNat (n * 32 + lane)).toNat < 2 ^ 31
      rw [UInt32.toNat_ofNat_of_lt' (Nat.lt_trans (Nat.lt_trans h.1 hV) (by decide))]
      exact Nat.lt_trans h.1 hV
    next => exact ih

theorem argmax_lt {V : Nat} (hV : V < 2 ^ 31) (logits : List Word) :
    (argmax fpu V logits).toNat < 2 ^ 31 := by
  apply shuffle_keeps (g := reduce_step fpu) (P := fun b => b.index.toNat < 2 ^ 31)
  · intro mine other hmine hother
    unfold reduce_step
    split
    · exact hother
    · split
      · exact hother
      · exact hmine
  · exact fun lane => phaseA_loop_lt fpu hV logits lane _

end gpgpu.kernels
