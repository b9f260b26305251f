-- The law of gemm.S: with the dispatch of `op_gemm` each element of the product is written
-- once, by a lane of its own, with the sum from left to right. Nothing else is written,
-- whatever the order of the blocks.
import Gpgpu.LaunchLaws
import Gpgpu.Sources
import Gpgpu.Formats
import Gpgpu.Transformer

open memory words cells

namespace gpgpu.gemm

open core X F

variable {V C : Type} {fm : Format V C} {m m1 : Nat → C} {args a b c M K N row col k block : Nat}
  {i : Fin 32} {regs : Regs V} {l : Lane V}

/-! ## The product -/

/-- The sum of a row and a column up to `k`, from left to right. -/
def acc (fm : Format V C) (m : Nat → C) (a b K N row col k : Nat) : V :=
  (List.range k).foldl (fun sum k => fm.fmadd (fm.get m (a + 4 * (row * K + k)))
    (fm.get m (b + 4 * (k * N + col))) sum) (fm.ofBits 0)

theorem acc_succ : acc fm m a b K N row col (k + 1) =
    fm.fmadd (fm.get m (a + 4 * (row * K + k))) (fm.get m (b + 4 * (k * N + col)))
      (acc fm m a b K N row col k) := by
  unfold acc
  rw [List.range_succ, List.foldl_append]
  rfl

/-- The arguments are there, and the matrices lie in the address space. -/
structure Ready (fm : Format V C) (m : Nat → C) (args a b c M K N : Nat) : Prop where
  loaded : Args fm m args [a, b, c, M, K, N]
  args_end : args + 24 ≤ 2 ^ 32
  a_end : a + 4 * (M * K) ≤ 2 ^ 32
  b_end : b + 4 * (K * N) ≤ 2 ^ 32
  c_end : c + 4 * (M * N) ≤ 2 ^ 32
  size : M * N ≤ 2 ^ 24
  M_pos : 0 < M
  N_pos : 0 < N

/-- What a lane reads. -/
def Reads (args a b M K N x : Nat) : Prop :=
  InBuf args 24 x ∨ InBuf a (4 * (M * K)) x ∨ InBuf b (4 * (K * N)) x

theorem reads_a (hrow : row < M) (hk : k < K) : Reads args a b M K N (a + 4 * (row * K + k)) := by
  have h : (row + 1) * K ≤ M * K := Nat.mul_le_mul_right K hrow
  rw [Nat.succ_mul] at h
  exact .inr (.inl ⟨by omega, by omega⟩)

theorem reads_b (hcol : col < N) (hk : k < K) : Reads args a b M K N (b + 4 * (k * N + col)) := by
  have h : (k + 1) * N ≤ K * N := Nat.mul_le_mul_right N hk
  rw [Nat.succ_mul] at h
  exact .inr (.inr ⟨by omega, by omega⟩)

theorem acc_congr (hsame : ∀ x, Reads args a b M K N x → fm.get m1 x = fm.get m x) (hrow : row < M)
    (hcol : col < N) (hk : k ≤ K) : acc fm m1 a b K N row col k = acc fm m a b K N row col k := by
  induction k with
  | zero => rfl
  | succ k ih =>
    rw [acc_succ, acc_succ, ih (by omega), hsame _ (reads_a hrow hk), hsame _ (reads_b hcol hk)]

theorem Ready.K_lt (h : Ready fm m args a b c M K N) : K < 2 ^ 31 := by
  have ha := h.a_end
  have hle : K ≤ M * K := Nat.le_mul_of_pos_left K h.M_pos
  omega

theorem Ready.congr (h : Ready fm m args a b c M K N)
    (hsame : ∀ x, Reads args a b M K N x → fm.get m1 x = fm.get m x) : Ready fm m1 args a b c M K N :=
  { h with loaded := h.loaded.of_get fun x hx => hsame x (.inl hx) }

/-! ## One lane -/

/-- Before the test of the number of the thread. -/
structure AtTest (fm : Format V C) (m : Nat → C) (args a b c M K N id : Nat) (l : Lane V) : Prop where
  pc : l.pc = 12
  active : l.active = true
  a1 : l.x a1 = num a
  a2 : l.x a2 = num b
  a3 : l.x a3 = num c
  a5 : l.x a5 = num K
  a6 : l.x a6 = num N
  t0 : l.x t0 = num id
  t5 : l.x t5 = num (M * N)
  log : Within (Reads args a b M K N) (fun _ => False) l.log

/-- Before turn `k` of the loop. -/
structure AtLoop (fm : Format V C) (m : Nat → C) (args a b c M K N row col k : Nat) (l : Lane V) :
    Prop where
  pc : l.pc = 20
  active : l.active = true
  a2 : l.x a2 = num b
  a3 : l.x a3 = num c
  a5 : l.x a5 = num K
  a6 : l.x a6 = num N
  t0 : l.x t0 = num k
  t1 : l.x t1 = num row
  t2 : l.x t2 = num col
  t3 : l.x t3 = num (a + row * K * 4)
  ft3 : l.f ft3 = acc fm m a b K N row col k
  log : Within (Reads args a b M K N) (fun _ => False) l.log

/-- A turn of the loop. -/
theorem turn (h : Ready fm m args a b c M K N) (hrow : row < M) (hcol : col < N) (hk : k < K)
    (hl : AtLoop fm m args a b c M K N row col k l) :
    Leads fm (assemble source.gemm) m 38 l (AtLoop fm m args a b c M K N row col (k + 1)) := by
  have hA : (row + 1) * K ≤ M * K := Nat.mul_le_mul_right K hrow
  have hB : (k + 1) * N ≤ K * N := Nat.mul_le_mul_right N hk
  rw [Nat.succ_mul] at hA hB
  have ha := h.a_end
  have hb := h.b_end
  have hK := h.K_lt
  refine leads_branch 20 rfl hl.pc hl.active (by decide) ?_
  rw [hl.t0, hl.a5, ge_num (by omega) hK, if_neg (by simpa using hk)]
  refine leads_straight [.opi .sll t5 t0 2, .op .add t4 t3 t5, .op .mul t5 t0 a6, .op .add t5 t5 t2,
    .opi .sll t5 t5 2, .op .add t5 t5 a2, .flw ft0 0 t4, .flw ft1 0 t5, .fmadd ft3 ft0 ft1 ft3,
    .opi .add t0 t0 1] 21 rfl rfl (congrArg (· + 1) hl.pc) hl.active (by decide) fun hpc hactive => ?_
  refine leads_jump 31 rfl hpc hactive (by decide) (leads_refl ?_)
  have hview : view fm m l = m := view_of_reads hl.log
  refine ⟨rfl, hactive, ?_, ?_, ?_, ?_, ?_, ?_, ?_, ?_, ?_, ?_⟩ <;>
    simp (disch := omega) [straight, act, Act.lane, hl.a2, hl.a3, hl.a5, hl.a6, hl.t0, hl.t1, hl.t2,
      hl.t3, hl.ft3, hview, hl.log]
  · rw [acc_succ, show a + row * K * 4 + k * 4 = a + 4 * (row * K + k) by ring,
      show (k * N + col) * 4 + b = b + 4 * (k * N + col) by ring]
  · unfold Reads InBuf
    omega

theorem starts (h : Ready fm m args a b c M K N) (hblock : block < 2 ^ 19) :
    Leads fm (assemble source.gemm) m 38 (begin_lane regs block (num args) i)
      (AtTest fm m args a b c M K N (thread block i)) := by
  obtain ⟨ha, hb, hc, hM, hK, hN, -⟩ := h.loaded
  have hargs := h.args_end
  refine leads_straight [.lw a1 0 a0, .lw a2 4 a0, .lw a3 8 a0, .lw a4 12 a0, .lw a5 16 a0,
    .lw a6 20 a0, .csrr_mhartid t6, .opi .and t1 t6 0x1F, .opi .srl t6 t6 13, .opi .sll t6 t6 5,
    .op .add t0 t6 t1, .op .mul t5 a4 a6] 0 rfl rfl rfl rfl (by decide) fun hpc hactive => ?_
  refine leads_refl ⟨hpc, hactive, ?_, ?_, ?_, ?_, ?_, ?_, ?_, ?_⟩ <;>
    simp (disch := omega) [straight, act, Act.lane, thread, ha, hb, hc, hM, hK, hN]
  unfold Reads InBuf
  omega

/-- The lane of element `id` comes to the loop. -/
theorem enters {id : Nat} (h : Ready fm m args a b c M K N) (hid : id < M * N)
    (hl : AtTest fm m args a b c M K N id l) :
    Leads fm (assemble source.gemm) m 38 l (AtLoop fm m args a b c M K N (id / N) (id % N) 0) := by
  have hsize := h.size
  have hNle : N ≤ M * N := Nat.le_mul_of_pos_left N h.M_pos
  have hN := h.N_pos
  refine leads_branch 12 rfl hl.pc hl.active (by decide) ?_
  rw [hl.t0, hl.t5, ge_num (by omega) (by omega), if_neg (by simpa using hid)]
  refine leads_straight [.op .div t1 t0 a6, .op .rem t2 t0 a6, .op .mul t3 t1 a5, .opi .sll t3 t3 2,
    .op .add t3 a1 t3, .li t0 0, .fmv_s_x ft3 zero] 13 rfl rfl (congrArg (· + 1) hl.pc) hl.active
    (by decide) fun hpc hactive => ?_
  refine leads_refl ⟨hpc, hactive, ?_, ?_, ?_, ?_, rfl, ?_, ?_, ?_, ?_, ?_⟩ <;>
    simp (disch := omega) [straight, act, Act.lane, hl.a1, hl.a2, hl.a3, hl.a5, hl.a6, hl.t0, hl.log]
  rfl

/-- What thread `id` writes. -/
def place (fm : Format V C) (m : Nat → C) (a b c M K N id : Nat) : List (Nat × V) :=
  if id < M * N then [(c + 4 * id, acc fm m a b K N (id / N) (id % N) K)] else []

theorem place_congr (hsame : ∀ x, Reads args a b M K N x → fm.get m1 x = fm.get m x) (hN : 0 < N)
    {id : Nat} : place fm m1 a b c M K N id = place fm m a b c M K N id := by
  unfold place
  by_cases hid : id < M * N
  · rw [if_pos hid, if_pos hid, acc_congr hsame (Nat.div_lt_of_lt_mul (Nat.mul_comm M N ▸ hid))
      (Nat.mod_lt _ hN) (Nat.le_refl K)]
  · rw [if_neg hid, if_neg hid]

/-- After the loop the lane stores its element and ends. -/
theorem stores {id : Nat} (h : Ready fm m args a b c M K N) (hid : id < M * N)
    (hl : AtLoop fm m args a b c M K N (id / N) (id % N) K l) :
    Leads fm (assemble source.gemm) m 38 l
      (LaneDone fm m (Reads args a b M K N) (place fm m a b c M K N id)) := by
  have hc := h.c_end
  have hplace : id / N * N + id % N = id := Nat.div_add_mod' id N
  refine leads_branch 20 rfl hl.pc hl.active (by decide) ?_
  rw [hl.t0, hl.a5, ge_num h.K_lt h.K_lt, if_pos (by simp)]
  refine leads_straight [.op .mul t5 t1 a6, .op .add t5 t5 t2, .opi .sll t5 t5 2, .op .add t5 t5 a3,
    .fsw ft3 0 t5] 32 rfl rfl rfl hl.active (by decide) fun hpc hactive => ?_
  refine leads_ebreak 37 rfl hpc hactive (by decide) ?_
  rw [place, if_pos hid]
  refine laneDone_one rfl ?_ hl.log
  simp (disch := omega) [straight, act, Act.lane, hl.a3, hl.a6, hl.t1, hl.t2, hl.ft3, hplace]
  omega

/-- A whole lane. -/
theorem lane_done (h : Ready fm m args a b c M K N) (hblock : block < 2 ^ 19) :
    Leads fm (assemble source.gemm) m 38 (begin_lane regs block (num args) i)
      (LaneDone fm m (Reads args a b M K N) (place fm m a b c M K N (thread block i))) := by
  refine (starts h hblock).trans fun l hl => ?_
  have hsize := h.size
  by_cases hid : thread block i < M * N
  · have hrow : thread block i / N < M := Nat.div_lt_of_lt_mul (by rwa [Nat.mul_comm])
    have hcol : thread block i % N < N := Nat.mod_lt _ h.N_pos
    refine (enters h hid hl).trans fun l hl => ?_
    refine (leads_turns (AtLoop fm m args a b c M K N _ _) (Nat.zero_le K) hl
      fun k hk l' hl' => turn h hrow hcol hk hl').trans fun l hl => stores h hid hl
  · have hlt : thread block i < 2 ^ 31 := by
      unfold thread
      omega
    refine leads_branch 12 rfl hl.pc hl.active (by decide) ?_
    rw [hl.t0, hl.t5, ge_num hlt (by omega), if_pos (by simpa using hid), place, if_neg hid]
    exact leads_ebreak 37 rfl rfl hl.active (by decide) (laneDone_nil rfl hl.log)

/-! ## The launch -/

/-- The product lies apart from the arguments and from its factors. -/
structure Clear (args a b c M K N : Nat) : Prop where
  args : c + 4 * (M * N) ≤ args ∨ args + 24 ≤ c
  a : c + 4 * (M * N) ≤ a ∨ a + 4 * (M * K) ≤ c
  b : c + 4 * (M * N) ≤ b ∨ b + 4 * (K * N) ≤ c

/-- Each element of the product is written once, with the sum of its row and column from left
to right, and nothing else is written, whatever the order of the blocks. -/
theorem gemm_writes_each_element_once (fm : Format V C) (regs : Nat → Fin 32 → Regs V) (m : Nat → C)
    (args a b c M K N : Nat) (order : List Nat) (h : Ready fm m args a b c M K N)
    (hclear : Clear args a b c M K N)
    (horder : order.Perm (List.range (transformer.calc_dispatch (M * N % 2 ^ 32)))) :
    Ends fm (assemble source.gemm) regs (num args) order m fun m' logs =>
      (logs.flatMap written).Perm ((List.range (M * N)).map fun id => c + 4 * id) ∧
      (∀ row < M, ∀ col < N, fm.get m' (c + 4 * (row * N + col)) = acc fm m a b K N row col K) ∧
      ∀ y, y < c ∨ c + 4 * (M * N) ≤ y → m' y = m y := by
  have hsize := h.size
  have hgrid : transformer.calc_dispatch (M * N % 2 ^ 32) = (M * N + 31) / 32 := by
    unfold transformer.calc_dispatch
    omega
  rw [hgrid] at horder
  have hlane : ∀ block < (M * N + 31) / 32, ∀ i, ∀ m1 : Nat → C,
      (∀ x, Reads args a b M K N x → fm.get m1 x = fm.get m x) →
      Leads fm (assemble source.gemm) m1 38 (begin_lane (regs block i) block (num args) i)
        (LaneDone fm m1 (Reads args a b M K N) (place fm m a b c M K N (thread block i))) := by
    intro block hblock i m1 hm1
    rw [← place_congr hm1 h.N_pos]
    exact lane_done (h.congr hm1) (by omega)
  have hends := launch_of_threads 38 regs c
    (fun id => acc fm m a b K N (id / N) (id % N) K) (fun _ => Reads args a b M K N) horder
    (by omega)
    (fun id hid _ _ x hx => by
      obtain ⟨h1, h2, h3⟩ := hclear
      unfold Reads InBuf at hx
      omega) hlane
  refine hends.mono fun m' logs ⟨hlogs, _, hval, hframe⟩ => ⟨hlogs, fun row hrow col hcol => ?_, hframe⟩
  have hid : row * N + col < M * N := by
    have hle : (row + 1) * N ≤ M * N := Nat.mul_le_mul_right N hrow
    rw [Nat.succ_mul] at hle
    omega
  rw [hval _ hid, Nat.mul_comm, Nat.mul_add_div h.N_pos, Nat.mul_add_mod, Nat.mod_eq_of_lt hcol,
    Nat.div_eq_of_lt hcol, Nat.add_zero]

/-- One row of two elements times two rows of three. -/
def oneRow : Mem :=
  put (put (put (fun _ => 0) 0 [64, 128, 192, 1, 2, 3]) 64 [5, 7]) 128 [1, 2, 3, 4, 5, 6]

theorem a_row_times_a_matrix :
    Ends countingFormat (assemble source.gemm) (fun _ => zeroRegs) (num 0) [0] oneRow fun m' logs =>
      (logs.flatMap written).Perm [192, 196, 200] ∧
      countingFormat.get m' 192 = 33 ∧ countingFormat.get m' 196 = 45 ∧
      countingFormat.get m' 200 = 57 ∧ ∀ y, y < 192 ∨ 204 ≤ y → m' y = oneRow y := by
  have h := gemm_writes_each_element_once countingFormat (fun _ => zeroRegs) oneRow 0 64 128 192 1 2 3
    [0] ⟨⟨by decide, by decide, by decide, by decide, by decide, by decide, trivial⟩, by decide,
      by decide, by decide, by decide, by decide, by decide, by decide⟩
    ⟨by decide, by decide, by decide⟩ (by decide)
  refine h.mono fun m' logs ⟨hlogs, hval, hframe⟩ => ⟨hlogs, ?_, ?_, ?_, hframe⟩
  · exact (hval 0 (by decide) 0 (by decide)).trans (by decide)
  · exact (hval 0 (by decide) 1 (by decide)).trans (by decide)
  · exact (hval 0 (by decide) 2 (by decide)).trans (by decide)

end gpgpu.gemm
