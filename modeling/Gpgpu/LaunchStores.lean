-- The launches of a decode step on the machine. For each of the eleven kernels the warps leave
-- just the stores that the model of the device has for it, whatever the order of the blocks,
-- and they read and write only in the spans that the arguments name.
import Gpgpu.QktLaws
import Gpgpu.SoftmaxLaws
import Gpgpu.PvLaws
import Gpgpu.RmsLaws
import Gpgpu.RopeLaws
import Gpgpu.GemmLaws
import Gpgpu.ElementLaws
import Gpgpu.ArgmaxValue
import Gpgpu.DeskOps

open memory words cells

namespace gpgpu.device

open core kernels transformer desk

/-! ## What a launch reads and writes -/

/-- The code of a kernel. -/
def Kernel.code : Kernel → List (Instr Nat)
  | .rmsnorm => assemble source.rmsnorm
  | .gemm => assemble source.gemm
  | .broadcast_add => assemble source.broadcast_add
  | .silu => assemble source.silu
  | .vmul => assemble source.vmul
  | .rope => assemble source.rope
  | .embedding_lookup => assemble source.embedding_lookup
  | .argmax => assemble source.argmax
  | .qkt_decode => assemble source.qkt_decode
  | .softmax_decode => assemble source.softmax_decode
  | .pv_decode => assemble source.pv_decode

/-- The heads of the cache that `grid` heads of the query look at. -/
def kv_heads (grid q_per_kv : Nat) : Nat := (grid + q_per_kv - 1) / q_per_kv

section

variable (grid : Nat) (arg : Nat → Nat) (rd : Nat → Word)

/-- The spans of which a lane reads only the elements that it writes. The result may lie there. -/
def Kernel.own : Kernel → List (Nat × Nat)
  | .rmsnorm => [(arg 0, 4 * 896)]
  | .broadcast_add => [(arg 0, 4 * (arg 3 * arg 4))]
  | .silu => [(arg 0, 4 * arg 2)]
  | .vmul => [(arg 0, 4 * arg 3), (arg 1, 4 * arg 3)]
  | .rope => [(arg 0, 4 * (arg 2 * 64))]
  | .softmax_decode => [(arg 0, 4 * (grid * arg 2))]
  | _ => []

/-- The spans that many lanes read. -/
def Kernel.shared : Kernel → List (Nat × Nat)
  | .rmsnorm => [(arg 2, 4 * 896)]
  | .gemm => [(arg 0, 4 * (arg 3 * arg 4)), (arg 1, 4 * (arg 4 * arg 5))]
  | .broadcast_add => [(arg 2, 4 * arg 4)]
  | .rope => [(arg 1, 4 * ((arg 4 + 1) * 64))]
  | .embedding_lookup => [(arg 1, 4), (arg 0 + 4 * ((rd (arg 1)).toNat * arg 3), 4 * arg 3)]
  | .argmax => [(arg 0, 4 * arg 1)]
  | .qkt_decode =>
    [(arg 0, 4 * (grid * arg 5)), (arg 1, 4 * (kv_heads grid (arg 6) * (arg 4 * arg 5)))]
  | .pv_decode =>
    [(arg 0, 4 * (grid * arg 4)), (arg 1, 4 * (kv_heads grid (arg 6) * (arg 4 * arg 5)))]
  | _ => []

def Kernel.results : Kernel → List (Nat × Nat)
  | .rmsnorm => [(arg 1, 4 * 896)]
  | .gemm => [(arg 2, 4 * (arg 3 * arg 5))]
  | .broadcast_add => [(arg 1, 4 * (arg 3 * arg 4))]
  | .silu => [(arg 1, 4 * arg 2)]
  | .vmul => [(arg 2, 4 * arg 3)]
  | .rope => [(arg 0, 4 * (arg 2 * 64))]
  | .embedding_lookup => [(arg 2, 4 * arg 3)]
  | .argmax => [(arg 2, 4), (arg 3, 1024)]
  | .qkt_decode => [(arg 2, 4 * (grid * arg 4))]
  | .softmax_decode => [(arg 0, 4 * (grid * arg 2))]
  | .pv_decode => [(arg 2, 4 * (grid * arg 5))]

/-- The sizes that the code of a kernel can work with, and the grid that goes with them. -/
def Kernel.Sized : Kernel → Prop
  | .rmsnorm => grid = 1
  | .gemm => 0 < arg 3 ∧ 0 < arg 5 ∧ arg 3 * arg 5 ≤ 2 ^ 24 ∧
      grid = calc_dispatch (arg 3 * arg 5 % 2 ^ 32)
  | .broadcast_add => 0 < arg 3 ∧ 0 < arg 4 ∧ arg 3 * arg 4 ≤ 2 ^ 24 ∧
      grid = calc_dispatch (arg 3 * arg 4 % 2 ^ 32)
  | .silu => arg 2 ≤ 2 ^ 24 ∧ grid = calc_dispatch (arg 2)
  | .vmul => arg 3 % 32 = 0 ∧ grid = 1
  | .rope => 0 < arg 2 ∧ arg 3 = 64 ∧ grid = 1
  | .embedding_lookup => arg 3 = 32 * arg 4 ∧ 32 ≤ arg 3 ∧ grid = 1
  | .argmax => 0 < arg 1 ∧ grid = 1
  | .qkt_decode | .pv_decode => arg 3 < arg 4 ∧ 0 < arg 6 ∧ arg 6 < 2 ^ 31 ∧ grid ≤ 2 ^ 19
  | .softmax_decode => arg 1 < arg 2 ∧ grid ≤ 2 ^ 19

/-- The spans lie in the address space, and the results apart from what other lanes read. -/
structure Kernel.Fit (k : Kernel) (args : Nat) : Prop where
  sized : k.Sized grid arg
  args_end : args + 4 * arity k ≤ 2 ^ 32
  own_end : ∀ p ∈ k.own grid arg, p.1 + p.2 ≤ 2 ^ 32
  shared_end : ∀ p ∈ k.shared grid arg rd, p.1 + p.2 ≤ 2 ^ 32
  results_end : ∀ p ∈ k.results grid arg, p.1 + p.2 ≤ 2 ^ 32
  args_apart : ∀ p ∈ k.results grid arg, SpansApart p (args, 4 * arity k)
  own_apart : ∀ p ∈ k.results grid arg, ∀ q ∈ k.own grid arg, p = q ∨ SpansApart p q
  shared_apart : ∀ p ∈ k.results grid arg, ∀ q ∈ k.shared grid arg rd, SpansApart p q
  results_apart : (k.results grid arg).Pairwise SpansApart

end

/-- What the machine makes of the memory is what the stores of the model make of it, and the
lanes have read and written only in the spans of the launch. -/
def Stored (fpu : Fpu) (k : Kernel) (args grid : Nat) (arg : Nat → Nat) (m m' : Mem)
    (logs : List (List (Access Word))) : Prop :=
  m' = store_all 0 m (k.stores fpu grid arg (rd32 0 m)) ∧
    ∀ log ∈ logs, Within
      (InSpans ((args, 4 * arity k) :: (k.own grid arg ++ k.shared grid arg (rd32 0 m))))
      (InSpans (k.results grid arg)) log

variable {fpu : Fpu} {fcvt : Int → Word} {m m' : Mem} {logs : List (List (Access Word))}
  {args grid : Nat} {arg : Nat → Nat} {order : List Nat}

theorem vec_rd32 {x n : Nat} (h : x + 4 * n ≤ 2 ^ 32) : vec (rd32 0 m) x n = vec (word m) x n := by
  apply vec_congr
  intro i hi
  unfold rd32
  rw [Nat.mod_eq_of_lt (by omega), Nat.zero_add]

/-- An element of a vector, by its address. -/
theorem vec_rd32_getD {x n i y : Nat} (hi : i < n) (hy : x + 4 * i = y) (hlt : y < 2 ^ 32) :
    (vec (rd32 0 m) x n).getD i 0 = word m y := by
  subst hy
  rw [vec_getD _ hi]
  unfold rd32
  rw [Nat.mod_eq_of_lt hlt, Nat.zero_add]

/-- A store of one vector. -/
theorem store_vector {x : Nat} {v : List Word} (h : x + 4 * v.length ≤ 2 ^ 32) :
    store_all 0 m [(x, v)] = put m x v := by
  simp only [store_all, List.foldl_cons, List.foldl_nil, Nat.zero_add]
  by_cases hv : v = []
  · funext y
    rw [hv, put_outside (by simp; omega), put_outside (by simp; omega)]
  · have hpos : 0 < v.length := List.length_pos_iff.mpr hv
    rw [Nat.mod_eq_of_lt (by omega)]

/-- A launch that fills one span. -/
theorem stored_of_fills {k : Kernel} {R : Nat → Prop} {out n : Nat} {val : Nat → Word} {v : List Word}
    (h : Fills (wordFormat fpu fcvt) R out n val m m' logs)
    (hstores : k.stores fpu grid arg (rd32 0 m) = [(out, v)]) (hv : v = (List.range n).map val)
    (hend : out + 4 * n ≤ 2 ^ 32)
    (hR : ∀ x, R x → InSpans ((args, 4 * arity k) :: (k.own grid arg ++ k.shared grid arg (rd32 0 m))) x)
    (hW : (out, 4 * n) ∈ k.results grid arg) : Stored fpu k args grid arg m m' logs := by
  subst hv
  refine ⟨?_, fun log hlog => ⟨fun x hx => hR x (h.reads log hlog x hx), fun x hx => ?_⟩⟩
  · rw [hstores, store_vector (by simpa using hend)]
    exact eq_put_of_gets h.values h.frame
  · have hmem := h.once.mem_iff.mp (List.mem_flatMap.mpr ⟨log, hlog, hx⟩)
    obtain ⟨id, hid, rfl⟩ := List.mem_map.mp hmem
    have hid := List.mem_range.mp hid
    exact ⟨_, hW, by dsimp only; omega, by dsimp only; omega⟩

theorem inSpans_element {ps : List (Nat × Nat)} {a n j x : Nat} (hmem : (a, 4 * n) ∈ ps) (hj : j < n)
    (hx : x = a + 4 * j) : InSpans ps x :=
  ⟨_, hmem, by dsimp only; omega, by dsimp only; omega⟩

theorem inSpans_buf {ps : List (Nat × Nat)} {a n x : Nat} (hmem : (a, n) ∈ ps) (hx : InBuf a n x) :
    InSpans ps x :=
  ⟨_, hmem, hx⟩

/-! ## Element by element -/

theorem silu_stored (hargs : Args (wordFormat fpu fcvt) m args [arg 0, arg 1, arg 2])
    (hfit : Kernel.silu.Fit grid arg (rd32 0 m) args) (horder : order.Perm (List.range grid))
    (regs : Nat → Fin 32 → Regs Word) :
    Ends (wordFormat fpu fcvt) (assemble source.silu) regs (num args) order m
      (Stored fpu .silu args grid arg m) := by
  obtain ⟨⟨hsize, rfl⟩, hend, hown, -, hres, hapart, hplace, -, -⟩ := hfit
  simp only [Kernel.own, Kernel.results, List.forall_mem_singleton] at hown hres hapart hplace
  have hready : elements.silu.Ready (wordFormat fpu fcvt) m args ⟨arg 0, arg 1, arg 2⟩ :=
    ⟨hargs, hend, hown, hres, hsize⟩
  have hclear : elements.silu.Clear args ⟨arg 0, arg 1, arg 2⟩ :=
    ⟨hapart, hplace.imp_left fun h => (Prod.mk.inj h).1⟩
  refine (elements.silu.silu_fills hready hclear regs horder).mono fun m' logs hfills => ?_
  refine stored_of_fills hfills rfl ?_ hres ?_ (by simp [Kernel.results])
  · have htake : arg 2 ≤ calc_dispatch (arg 2) * LANES := by
      unfold calc_dispatch LANES
      omega
    rw [List.take_of_length_le (by simpa [kernels.silu] using htake)]
    refine List.map_congr_left fun id hid => ?_
    dsimp only
    rw [vec_rd32 hown, vec_getD _ (List.mem_range.mp hid), ← fsgnjn_self fpu fcvt]
    rfl
  · rintro x ⟨id, hx | ⟨hid, hx⟩⟩
    · exact ⟨_, List.mem_cons_self, hx⟩
    · exact inSpans_element (by simp [Kernel.own]) hid hx

theorem broadcast_add_stored (hargs : Args (wordFormat fpu fcvt) m args [arg 0, arg 1, arg 2, arg 3, arg 4])
    (hfit : Kernel.broadcast_add.Fit grid arg (rd32 0 m) args) (horder : order.Perm (List.range grid))
    (regs : Nat → Fin 32 → Regs Word) :
    Ends (wordFormat fpu fcvt) (assemble source.broadcast_add) regs (num args) order m
      (Stored fpu .broadcast_add args grid arg m) := by
  obtain ⟨⟨hM, hN, hsize, rfl⟩, hend, hown, hshared, hres, hapart, hplace, hclear, -⟩ := hfit
  simp only [Kernel.own, Kernel.results, List.forall_mem_singleton] at hown hres hapart hplace
  simp only [Kernel.shared, Kernel.results, List.forall_mem_singleton] at hshared hclear
  have hready : elements.broadcast_add.Ready (wordFormat fpu fcvt) m args
      ⟨arg 0, arg 1, arg 2, arg 3, arg 4⟩ :=
    ⟨hargs, hend, hown, hres, hshared, hM, hN, hsize⟩
  have hclear' : elements.broadcast_add.Clear args ⟨arg 0, arg 1, arg 2, arg 3, arg 4⟩ :=
    ⟨hapart, hplace.imp_left fun h => (Prod.mk.inj h).1, hclear⟩
  refine (elements.broadcast_add.broadcast_add_fills hready hclear' regs horder).mono
    fun m' logs hfills => ?_
  refine stored_of_fills hfills rfl ?_ hres ?_ (by simp [Kernel.results])
  · have htake : arg 3 * arg 4 ≤ calc_dispatch (arg 3 * arg 4 % 2 ^ 32) * LANES := by
      unfold calc_dispatch LANES
      omega
    rw [List.take_of_length_le (by simpa [kernels.broadcast_add] using htake)]
    refine List.map_congr_left fun id hid => ?_
    rw [vec_rd32 hown, vec_rd32 hshared, vec_getD _ (List.mem_range.mp hid), vec_getD _ (Nat.mod_lt _ hN)]
    rfl
  · rintro x ⟨id, hx | ⟨hid, hx⟩ | hx⟩
    · exact ⟨_, List.mem_cons_self, hx⟩
    · exact inSpans_element (by simp [Kernel.own]) hid hx
    · exact inSpans_buf (a := arg 2) (n := 4 * arg 4) (by simp [Kernel.shared]) hx

theorem vmul_stored (hargs : Args (wordFormat fpu fcvt) m args [arg 0, arg 1, arg 2, arg 3])
    (hfit : Kernel.vmul.Fit grid arg (rd32 0 m) args) (horder : order.Perm (List.range grid))
    (regs : Nat → Fin 32 → Regs Word) :
    Ends (wordFormat fpu fcvt) (assemble source.vmul) regs (num args) order m
      (Stored fpu .vmul args grid arg m) := by
  obtain ⟨⟨hwhole, rfl⟩, hend, hown, -, hres, hapart, hplace, -, -⟩ := hfit
  simp only [Kernel.results, List.forall_mem_singleton] at hres hapart hplace
  simp only [Kernel.own, List.forall_mem_cons] at hown hplace
  obtain ⟨ha, hb, -⟩ := hown
  obtain ⟨hpa, hpb, -⟩ := hplace
  obtain rfl := List.perm_singleton.mp horder
  have hready : elements.vmul.Ready (wordFormat fpu fcvt) m args ⟨arg 0, arg 1, arg 2, arg 3⟩ :=
    ⟨hargs, hend, ha, hb, hres, hwhole⟩
  have hclear : elements.vmul.Clear args ⟨arg 0, arg 1, arg 2, arg 3⟩ :=
    ⟨hapart, hpa.imp_left fun h => (Prod.mk.inj h).1, hpb.imp_left fun h => (Prod.mk.inj h).1⟩
  refine (elements.vmul.vmul_fills hready hclear regs).mono fun m' logs hfills => ?_
  refine stored_of_fills hfills rfl ?_ hres ?_ (by simp [Kernel.results])
  · have hnum : arg 3 / LANES * LANES = arg 3 := Nat.div_mul_cancel (Nat.dvd_of_mod_eq_zero hwhole)
    unfold kernels.vmul
    rw [hnum]
    refine List.map_congr_left fun id hid => ?_
    rw [vec_rd32 ha, vec_rd32 hb, vec_getD _ (List.mem_range.mp hid), vec_getD _ (List.mem_range.mp hid)]
    rfl
  · rintro x ⟨i, hx | ⟨t, ht, hx | hx⟩⟩
    · exact ⟨_, List.mem_cons_self, hx⟩
    · exact inSpans_element (a := arg 0) (n := arg 3) (by simp [Kernel.own]) (by dsimp only at ht; omega) hx
    · exact inSpans_element (a := arg 1) (n := arg 3) (by simp [Kernel.own]) (by dsimp only at ht; omega) hx

theorem embedding_lookup_stored
    (hargs : Args (wordFormat fpu fcvt) m args [arg 0, arg 1, arg 2, arg 3, arg 4])
    (hfit : Kernel.embedding_lookup.Fit grid arg (rd32 0 m) args) (horder : order.Perm (List.range grid))
    (regs : Nat → Fin 32 → Regs Word) :
    Ends (wordFormat fpu fcvt) (assemble source.embedding_lookup) regs (num args) order m
      (Stored fpu .embedding_lookup args grid arg m) := by
  obtain ⟨⟨hwhole, hsome, rfl⟩, hend, -, hshared, hres, hapart, -, hclear, -⟩ := hfit
  simp only [Kernel.results, List.forall_mem_singleton] at hres hapart hclear
  simp only [Kernel.shared, List.forall_mem_cons] at hshared hclear
  obtain ⟨htoken, hrow, -⟩ := hshared
  obtain ⟨hct, hcr, -⟩ := hclear
  obtain rfl := List.perm_singleton.mp horder
  set token := (rd32 0 m (arg 1)).toNat with htok
  have hid : (wordFormat fpu fcvt).toBits ((wordFormat fpu fcvt).get m (arg 1)) = num token := by
    rw [htok]
    unfold rd32 num
    rw [Nat.mod_eq_of_lt (by omega), Nat.zero_add, UInt32.ofNat_toNat]
    rfl
  have hready : elements.embedding.Ready (wordFormat fpu fcvt) m args
      ⟨arg 0, arg 1, arg 2, arg 3, arg 4⟩ token :=
    ⟨hargs, hid, hend, htoken, hrow, hres, hwhole, hsome⟩
  have hclear' : elements.embedding.Clear args ⟨arg 0, arg 1, arg 2, arg 3, arg 4⟩ token :=
    ⟨hapart, hct, hcr⟩
  refine (elements.embedding.embedding_fills hready hclear' regs).mono fun m' logs hfills => ?_
  refine stored_of_fills hfills rfl ?_ hres ?_ (by simp [Kernel.results])
  · have hmax : max 1 (arg 4) * LANES = arg 3 := by
      unfold LANES
      omega
    have hstart : arg 0 + (rd32 0 m (arg 1)).toNat * arg 3 * 4 = arg 0 + 4 * (token * arg 3) := by
      rw [htok]
      ring
    rw [hmax, hstart, vec_rd32 hrow]
    rfl
  · rintro x ⟨-, hx | rfl | hx⟩
    · exact ⟨_, List.mem_cons_self, hx⟩
    · exact inSpans_buf (a := arg 1) (n := 4) (by simp [Kernel.shared]) ⟨Nat.le_refl _, Nat.le_refl _⟩
    · exact inSpans_buf (a := arg 0 + 4 * (token * arg 3)) (n := 4 * arg 3) (by simp [Kernel.shared, htok]) hx

/-! ## Products -/

theorem gemm_fills {a b c M K N : Nat} (h : gemm.Ready (wordFormat fpu fcvt) m args a b c M K N)
    (hclear : gemm.Clear args a b c M K N)
    (horder : order.Perm (List.range (calc_dispatch (M * N % 2 ^ 32)))) (regs : Nat → Fin 32 → Regs Word) :
    Ends (wordFormat fpu fcvt) (assemble source.gemm) regs (num args) order m
      (Fills (wordFormat fpu fcvt) (fun x => ∃ _ : Nat, gemm.Reads args a b M K N x) c (M * N)
        (fun id => gemm.acc (wordFormat fpu fcvt) m a b K N (id / N) (id % N) K) m) := by
  have hsize := h.size
  rw [elements.dispatch_eq hsize] at horder
  refine launch_of_threads 38 regs c _ (fun _ => gemm.Reads args a b M K N) horder (by omega)
    (fun id hid _ _ x hx => ?_) fun block hblock i m1 hm1 => ?_
  · obtain ⟨h1, h2, h3⟩ := hclear
    unfold gemm.Reads InBuf at hx
    omega
  · have hplace : gemm.place (wordFormat fpu fcvt) m1 a b c M K N (thread block i) = _ :=
      gemm.place_congr hm1 h.N_pos
    unfold gemm.place at hplace
    rw [← hplace]
    exact gemm.lane_done (h.congr hm1) (by omega)

theorem gemm_stored
    (hargs : Args (wordFormat fpu fcvt) m args [arg 0, arg 1, arg 2, arg 3, arg 4, arg 5])
    (hfit : Kernel.gemm.Fit grid arg (rd32 0 m) args) (horder : order.Perm (List.range grid))
    (regs : Nat → Fin 32 → Regs Word) :
    Ends (wordFormat fpu fcvt) (assemble source.gemm) regs (num args) order m
      (Stored fpu .gemm args grid arg m) := by
  obtain ⟨⟨hM, hN, hsize, rfl⟩, hend, -, hshared, hres, hapart, -, hclear, -⟩ := hfit
  simp only [Kernel.results, List.forall_mem_singleton] at hres hapart hclear
  simp only [Kernel.shared, List.forall_mem_cons] at hshared hclear
  obtain ⟨ha, hb, -⟩ := hshared
  obtain ⟨hca, hcb, -⟩ := hclear
  refine (gemm_fills ⟨hargs, hend, ha, hb, hres, hsize, hM, hN⟩ ⟨hapart, hca, hcb⟩ horder regs).mono
    fun m' logs hfills => ?_
  refine stored_of_fills hfills rfl ?_ hres ?_ (by simp [Kernel.results])
  · have htake : arg 3 * arg 5 ≤ calc_dispatch (arg 3 * arg 5 % 2 ^ 32) * LANES := by
      unfold calc_dispatch LANES
      omega
    rw [List.take_of_length_le (by simpa [kernels.gemm] using htake)]
    refine List.map_congr_left fun id hid => ?_
    have hid := List.mem_range.mp hid
    have hrow : id / arg 5 < arg 3 := Nat.div_lt_of_lt_mul (by rwa [Nat.mul_comm])
    have hcol : id % arg 5 < arg 5 := Nat.mod_lt _ hN
    refine List.foldl_ext _ _ _ fun acc k hk => ?_
    have hk := List.mem_range.mp hk
    have hA : id / arg 5 * arg 4 + k < arg 3 * arg 4 := by
      have hle : (id / arg 5 + 1) * arg 4 ≤ arg 3 * arg 4 := Nat.mul_le_mul_right _ hrow
      rw [Nat.succ_mul] at hle
      omega
    have hB : k * arg 5 + id % arg 5 < arg 4 * arg 5 := by
      have hle : (k + 1) * arg 5 ≤ arg 4 * arg 5 := Nat.mul_le_mul_right _ hk
      rw [Nat.succ_mul] at hle
      omega
    rw [vec_rd32 ha, vec_rd32 hb, vec_getD _ hA, vec_getD _ hB]
    rfl
  · rintro x ⟨-, hx | hx | hx⟩
    · exact ⟨_, List.mem_cons_self, hx⟩
    · exact inSpans_buf (a := arg 0) (n := 4 * (arg 3 * arg 4)) (by simp [Kernel.shared]) hx
    · exact inSpans_buf (a := arg 1) (n := 4 * (arg 4 * arg 5)) (by simp [Kernel.shared]) hx

/-! ## `rmsnorm.S` -/

/-- A lane of the machine has the sum that the model has for it. -/
theorem square_sum_eq (fpu : Fpu) (fcvt : Int → Word) (m : Mem) (a : rmsnorm.rmsnorm_args Word) (i : Fin 32) :
    square_sum fpu (vec (word m) a.in_off (LANES * PER_LANE)) i = a.total (wordFormat fpu fcvt) m i := by
  have hlane : ∀ j : Fin 32, ∀ n ≤ 28, (List.range n).foldl
      (fun acc i =>
        let v := (vec (word m) a.in_off (LANES * PER_LANE)).getD (j * PER_LANE + i) 0
        fpu.fadd acc (fpu.fmul v v)) 0 = a.square_sum (wordFormat fpu fcvt) m j n := by
    intro j n hn
    induction n with
    | zero => rfl
    | succ n ih =>
      have hlt : j.val * PER_LANE + n < LANES * PER_LANE := by
        have := j.isLt
        unfold PER_LANE LANES
        omega
      rw [List.range_succ, List.foldl_append, ih (by omega), List.foldl_cons, List.foldl_nil,
        vec_getD _ hlt]
      rfl
  unfold square_sum rmsnorm.rmsnorm_args.total
  rw [argmax.shuffle_eq_reduce _ (by decide)]
  exact congrArg (fun f => butterfly.reduce fpu.fadd upward f i) (funext fun j => hlane j 28 (Nat.le_refl _))

theorem rmsnorm_stored
    (hargs : Args (wordFormat fpu fcvt) m args [arg 0, arg 1, arg 2, arg 3, arg 4, arg 5])
    (hfit : Kernel.rmsnorm.Fit grid arg (rd32 0 m) args) (horder : order.Perm (List.range grid))
    (regs : Nat → Fin 32 → Regs Word) :
    Ends (wordFormat fpu fcvt) (assemble source.rmsnorm) regs (num args) order m
      (Stored fpu .rmsnorm args grid arg m) := by
  obtain ⟨rfl, hend, hown, hshared, hres, hapart, hplace, hclear, -⟩ := hfit
  simp only [Kernel.own, Kernel.results, List.forall_mem_singleton] at hown hres hapart hplace
  simp only [Kernel.shared, Kernel.results, List.forall_mem_singleton] at hshared hclear
  obtain rfl := List.perm_singleton.mp horder
  obtain ⟨h0, h1, h2, h3, h4, h5, -⟩ := hargs
  set a : rmsnorm.rmsnorm_args Word := ⟨arg 0, arg 1, arg 2, arg 3, num (arg 4), num (arg 5)⟩ with ha
  have hready : rmsnorm.Ready (wordFormat fpu fcvt) m args a :=
    ⟨⟨h0, h1, h2, h3, trivial⟩, h4, h5, hend, hown, hres, hshared⟩
  have hclear' : rmsnorm.Clear args a :=
    ⟨hplace.imp_left fun h => (Prod.mk.inj h).1, hclear, hapart⟩
  refine (rmsnorm.rmsnorm_spec hready hclear' regs).mono fun m' logs ⟨hlogs, hval, hframe⟩ =>
    ⟨?_, fun log hlog => (hlogs log hlog).mono ?_ fun x hx => ?_⟩
  · have hlen : ∀ inv_d eps x w, (kernels.rmsnorm fpu inv_d eps x w).length = 896 := by
      simp [kernels.rmsnorm, LANES, PER_LANE]
    refine Eq.trans ?_ (store_vector (m := m) (x := arg 1) (by rw [hlen]; exact hres)).symm
    refine @eq_put_of_gets fpu fcvt _ _ _ _ _ (fun id hid => ?_) hframe
    have hlane : id / 28 < 32 := by
      simp only [LANES, PER_LANE] at hid
      omega
    have hget := hval ⟨id / 28, hlane⟩ (id % 28) (Nat.mod_lt _ (by decide))
    dsimp only at hget
    rw [show a.out_off + 4 * (id / 28 * 28 + id % 28) = arg 1 + 4 * id by
      rw [Nat.div_add_mod' id 28]] at hget
    rw [hget, vec_rd32 (show arg 0 + 4 * (LANES * PER_LANE) ≤ 2 ^ 32 from hown),
      vec_rd32 (show arg 2 + 4 * (LANES * PER_LANE) ≤ 2 ^ 32 from hshared), vec_getD _ hid, vec_getD _ hid]
    have hsum := square_sum_eq fpu fcvt m a ⟨id / 28, hlane⟩
    unfold rmsnorm.rmsnorm_args.out rmsnorm.rmsnorm_args.rrms rmsnorm.rmsnorm_args.x rmsnorm.rmsnorm_args.w
    dsimp only at hsum ⊢
    rw [← hsum, Nat.div_add_mod' id 28]
    rfl
  · rintro x ⟨i, hx | hx | ⟨t, ht, hx⟩⟩
    · exact ⟨_, List.mem_cons_self, hx⟩
    · exact inSpans_buf (a := arg 2) (n := 4 * 896) (by simp [Kernel.shared]) hx
    · exact inSpans_element (a := arg 0) (n := 896) (by simp [Kernel.own]) (by omega) hx
  · exact inSpans_buf (a := arg 1) (n := 4 * 896) (by simp [Kernel.results]) hx

/-! ## Rows -/

/-- A launch that stores rows. -/
theorem stored_rows {k : Kernel} {x w n : Nat} {f : Nat → List Word} {g : Nat → Nat}
    (hstores : k.stores fpu grid arg (rd32 0 m) = (List.range n).map fun h => (g h, f h))
    (hg : ∀ h < n, g h = x + h * w) (hf : ∀ h < n, 4 * (f h).length ≤ w) (hend : x + n * w ≤ 2 ^ 32)
    (hval : ∀ h < n, ∀ i < (f h).length, word m' (x + h * w + 4 * i) = (f h).getD i 0)
    (hframe : ∀ y, (∀ h < n, y < x + h * w ∨ x + h * w + 4 * (f h).length ≤ y) → m' y = m y) :
    m' = store_all 0 m (k.stores fpu grid arg (rd32 0 m)) := by
  rw [hstores]
  rcases Nat.eq_zero_or_pos w with rfl | hw
  · -- Rows without elements store nothing.
    have hnil : ∀ h < n, f h = [] := fun h hh => List.eq_nil_of_length_eq_zero (by have := hf h hh; omega)
    have hstored : ∀ k ≤ n, store_all 0 m ((List.range k).map fun h => (g h, f h)) = m := by
      intro k hk
      induction k with
      | zero => rfl
      | succ k ih =>
        have hprev := ih (by omega)
        unfold store_all at hprev ⊢
        rw [List.range_succ, List.map_append, List.foldl_append, hprev, List.map_singleton, List.foldl_cons,
          List.foldl_nil, hnil k (by omega)]
        funext y
        exact put_outside (by simp; omega)
    rw [hstored n (Nat.le_refl _)]
    exact funext fun y => hframe y fun h hh => by rw [hnil h hh]; simp; omega
  · have hlast : ∀ h < n, g h % 2 ^ 32 = x + h * w := by
      intro h hh
      have hle : (h + 1) * w ≤ n * w := Nat.mul_le_mul_right _ hh
      rw [Nat.succ_mul] at hle
      rw [hg h hh, Nat.mod_eq_of_lt (by omega)]
    rw [store_all_rows 0 m f hlast, Nat.zero_add]
    exact eq_putRows hf hval hframe

theorem rope_head_getD (fpu : Fpu) (cs x : List Word) {k : Nat} (hk : k < 32) :
    (rope_head fpu cs x).getD k 0 = fpu.fsub (fpu.fmul (x.getD k 0) (cs.getD (2 * k) 0))
        (fpu.fmul (x.getD (k + 32) 0) (cs.getD (2 * k + 1) 0)) ∧
      (rope_head fpu cs x).getD (k + 32) 0 = fpu.fmadd (x.getD k 0) (cs.getD (2 * k + 1) 0)
        (fpu.fmul (x.getD (k + 32) 0) (cs.getD (2 * k) 0)) := by
  unfold rope_head
  constructor
  · rw [List.getD_append _ _ _ _ (by simpa [LANES] using hk)]
    simp [LANES, hk]
  · rw [List.getD_append_right _ _ _ _ (by simp [LANES])]
    simp [LANES, hk]

theorem rope_stored (hargs : Args (wordFormat fpu fcvt) m args [arg 0, arg 1, arg 2, arg 3, arg 4])
    (hfit : Kernel.rope.Fit grid arg (rd32 0 m) args) (horder : order.Perm (List.range grid))
    (regs : Nat → Fin 32 → Regs Word) :
    Ends (wordFormat fpu fcvt) (assemble source.rope) regs (num args) order m
      (Stored fpu .rope args grid arg m) := by
  obtain ⟨⟨hheads, hdim, rfl⟩, hend, hown, hshared, hres, hapart, -, hclear, -⟩ := hfit
  simp only [Kernel.own, Kernel.results, List.forall_mem_singleton] at hown hres hapart
  simp only [Kernel.shared, Kernel.results, List.forall_mem_singleton] at hshared hclear
  obtain rfl := List.perm_singleton.mp horder
  set a : rope.rope_args := ⟨arg 0, arg 1, arg 2, arg 3, arg 4⟩ with ha
  have hready : rope.Ready (wordFormat fpu fcvt) m args a (arg 4 + 1) :=
    ⟨hargs, hend, hdim, hheads, Nat.lt_succ_self _, hown, hshared⟩
  have hclear' : rope.Clear args a (arg 4 + 1) := ⟨hapart, hclear⟩
  refine (rope.rope_spec hready hclear' regs).mono fun m' logs ⟨hlogs, hval, hframe⟩ =>
    ⟨?_, fun log hlog => (hlogs log hlog).mono ?_ fun x hx => ?_⟩
  · have hlen : ∀ cs x, (rope_head fpu cs x).length = 64 := by
      simp [rope_head, LANES]
    have hmax : max 1 (arg 2) = arg 2 := by omega
    refine stored_rows (x := arg 0) (w := 256) (n := max 1 (arg 2)) rfl (fun h _ => ?_)
      (fun h _ => by rw [hlen]) (by rw [hmax]; omega) (fun h hh i hi => ?_) fun y hy => hframe y ?_
    · show arg 0 + h * arg 3 * 4 = arg 0 + h * 256
      rw [hdim]
      ring
    · rw [hmax] at hh
      rw [hlen] at hi
      have hrow : arg 0 + h * arg 3 * 4 + 4 * (2 * LANES) ≤ 2 ^ 32 := by
        rw [hdim, LANES]
        omega
      have htable : arg 1 + arg 4 * arg 3 * 4 + 4 * (2 * LANES) ≤ 2 ^ 32 := by
        rw [hdim, LANES]
        omega
      have hx : ∀ k < 64, (vec (rd32 0 m) (arg 0 + h * arg 3 * 4) (2 * LANES)).getD k 0 =
          (wordFormat fpu fcvt).get m (a.x_at h k) := by
        intro k hk
        rw [vec_rd32 hrow, vec_getD _ (by unfold LANES; omega), hdim]
        show word m _ = word m (arg 0 + 4 * (h * 64 + k))
        congr 1
        ring
      have hcs : ∀ k < 32, (vec (rd32 0 m) (arg 1 + arg 4 * arg 3 * 4) (2 * LANES)).getD (2 * k) 0 =
          a.cos (wordFormat fpu fcvt) m k ∧
          (vec (rd32 0 m) (arg 1 + arg 4 * arg 3 * 4) (2 * LANES)).getD (2 * k + 1) 0 =
          a.sin (wordFormat fpu fcvt) m k := by
        intro k hk
        rw [vec_rd32 htable, vec_getD _ (by unfold LANES; omega), vec_getD _ (by unfold LANES; omega), hdim]
        constructor
        · show word m _ = word m (arg 1 + 4 * (arg 4 * 64 + 2 * k))
          congr 1
          ring
        · show word m _ = word m (arg 1 + 4 * (arg 4 * 64 + 2 * k + 1))
          congr 1
          ring
      by_cases hlow : i < 32
      · have hget := (hval h hh i hlow).1
        rw [(rope_head_getD fpu _ _ hlow).1, hx i (by omega), hx (i + 32) (by omega), (hcs i hlow).1,
          (hcs i hlow).2]
        refine Eq.trans (congrArg (word m') ?_) hget
        show _ = arg 0 + 4 * (h * 64 + i)
        ring
      · obtain ⟨k, rfl⟩ := Nat.exists_eq_add_of_le' (Nat.le_of_not_lt hlow)
        have hk : k < 32 := by omega
        have hget := (hval h hh k hk).2
        rw [(rope_head_getD fpu _ _ hk).2, hx k (by omega), hx (k + 32) hi, (hcs k hk).1, (hcs k hk).2]
        refine Eq.trans (congrArg (word m') ?_) hget
        show _ = arg 0 + 4 * (h * 64 + (k + 32))
        ring
    · show y < arg 0 ∨ arg 0 + 4 * (arg 2 * 64) ≤ y
      rw [hmax] at hy
      by_contra hin
      have hrow := hy ((y - arg 0) / 256) (by omega)
      rw [hlen] at hrow
      omega
  · rintro x ⟨k, hk, hx | hx | ⟨h, hh, hx⟩⟩
    · exact ⟨_, List.mem_cons_self, hx⟩
    · exact inSpans_buf (a := arg 1) (n := 4 * ((arg 4 + 1) * 64)) (by simp [Kernel.shared]) hx
    · have hh : h < arg 2 := hh
      rcases hx with hx | hx
      · exact inSpans_element (a := arg 0) (n := arg 2 * 64) (j := h * 64 + k) (by simp [Kernel.own])
          (by omega) hx
      · exact inSpans_element (a := arg 0) (n := arg 2 * 64) (j := h * 64 + (k + 32)) (by simp [Kernel.own])
          (by omega) hx
  · exact inSpans_buf (a := arg 0) (n := 4 * (arg 2 * 64)) (by simp [Kernel.results]) hx

/-! ## Attention -/

theorem le_kv_heads {q : Nat} (hq : 0 < q) : grid ≤ kv_heads grid q * q := by
  have h := Nat.div_add_mod (grid + q - 1) q
  have hlt := Nat.mod_lt (grid + q - 1) hq
  unfold kv_heads
  rw [Nat.mul_comm]
  omega

theorem kv_head_eq {q : Nat} (hq : 0 < q) (qh : Nat) : kv_head qh q = qh / q := if_neg (by omega)

/-- The fold of the model is the loop of a lane. -/
theorem score_eq {a : qkt.qkt_decode_args} {qh j : Nat} {q k : List Word}
    (hq : ∀ i < a.head_dim, q.getD i 0 = word m (a.q_at qh i))
    (hk : ∀ i < a.head_dim, k.getD i 0 = word m (a.k_at qh j i)) :
    score fpu (num a.scale_bits) a.head_dim q k = a.score (wordFormat fpu fcvt) m qh j := by
  have hdot : ∀ n ≤ a.head_dim, (List.range n).foldl
      (fun acc i => fpu.fmadd (k.getD i 0) (q.getD i 0) acc) 0 = a.dot (wordFormat fpu fcvt) m qh j n := by
    intro n hn
    induction n with
    | zero => rfl
    | succ n ih =>
      rw [List.range_succ, List.foldl_append, ih (by omega), List.foldl_cons, List.foldl_nil, hq n hn,
        hk n hn]
      rfl
  unfold score qkt.qkt_decode_args.score
  rw [hdot _ (Nat.le_refl _)]
  rfl

theorem qkt_decode_stored
    (hargs : Args (wordFormat fpu fcvt) m args [arg 0, arg 1, arg 2, arg 3, arg 4, arg 5, arg 6, arg 7])
    (hfit : Kernel.qkt_decode.Fit grid arg (rd32 0 m) args) (horder : order.Perm (List.range grid))
    (regs : Nat → Fin 32 → Regs Word) :
    Ends (wordFormat fpu fcvt) (assemble source.qkt_decode) regs (num args) order m
      (Stored fpu .qkt_decode args grid arg m) := by
  obtain ⟨⟨hcur, hq, hqlt, hgrid⟩, hend, -, hshared, hres, hapart, -, hclear, -⟩ := hfit
  simp only [Kernel.results, List.forall_mem_singleton] at hres hapart hclear
  simp only [Kernel.shared, List.forall_mem_cons] at hshared hclear
  obtain ⟨hQ, hK, -⟩ := hshared
  obtain ⟨hcQ, hcK, -⟩ := hclear
  set a : qkt.qkt_decode_args := ⟨arg 0, arg 1, arg 2, arg 3, arg 4, arg 5, arg 6, arg 7⟩ with ha
  have hready : qkt.Ready (wordFormat fpu fcvt) m args a grid (kv_heads grid (arg 6)) :=
    ⟨hargs, hend, hQ, hK, hres, hcur, hgrid, hq, hqlt, le_kv_heads hq⟩
  have hclear' : qkt.Clear args a grid (kv_heads grid (arg 6)) := ⟨hapart, hcQ, hcK⟩
  refine (qkt.qkt_decode_spec hready hclear' regs horder).mono fun m' logs ⟨hlogs, hval, hframe⟩ =>
    ⟨?_, fun log hlog => (hlogs log hlog).mono ?_ fun x hx => ?_⟩
  · refine stored_rows (x := arg 2) (w := arg 4 * 4) (n := grid) rfl (fun h _ => ?_) (fun h _ => ?_) ?_
      (fun qh hqh j hj => ?_) fun y hy => hframe y fun qh hqh j hj => ?_
    · show arg 2 + h * arg 4 * 4 = arg 2 + h * (arg 4 * 4)
      ring
    · rw [List.length_map, List.length_range]
      omega
    · rw [← Nat.mul_assoc]
      omega
    · rw [List.length_map, List.length_range] at hj
      have hget := hval qh hqh j hj
      have hmap : ∀ g : Nat → Word, ((List.range (arg 3 + 1)).map g).getD j 0 = g j := fun g => by simp [hj]
      rw [hmap]
      refine Eq.trans (congrArg (word m') ?_) (hget.trans (score_eq (fun i hi => ?_) fun i hi => ?_).symm)
      · show _ = arg 2 + 4 * (qh * arg 4 + j)
        ring
      · have hin := qkt.q_in (a := a) hqh hi
        have hQ' : a.q_at qh i + 4 ≤ arg 0 + 4 * (grid * arg 5) := hin.2
        refine vec_rd32_getD hi ?_ (by omega)
        show _ = arg 0 + 4 * (qh * arg 5 + i)
        ring
      · have hin := qkt.k_in hready hqh (show j < arg 4 by omega) hi
        have hK' : a.k_at qh j i + 4 ≤ arg 1 + 4 * (kv_heads grid (arg 6) * (arg 4 * arg 5)) := hin.2
        refine vec_rd32_getD hi ?_ (by omega)
        rw [kv_head_eq hq]
        show _ = arg 1 + 4 * ((qh / arg 6 * arg 4 + j) * arg 5 + i)
        ring
    · have hrow := hy qh hqh
      rw [List.length_map, List.length_range, ← Nat.mul_assoc] at hrow
      have hj : j < arg 3 + 1 := hj
      show y < arg 2 + 4 * (qh * arg 4 + j) ∨ arg 2 + 4 * (qh * arg 4 + j) + 4 ≤ y
      omega
  · rintro x (hx | hx | hx)
    · exact ⟨_, List.mem_cons_self, hx⟩
    · exact inSpans_buf (a := arg 0) (n := 4 * (grid * arg 5)) (by simp [Kernel.shared]) hx
    · exact inSpans_buf (a := arg 1) (n := 4 * (kv_heads grid (arg 6) * (arg 4 * arg 5)))
        (by simp [Kernel.shared]) hx
  · exact inSpans_buf (a := arg 2) (n := 4 * (grid * arg 4)) (by simp [Kernel.results]) hx

/-- A row of the model is the row that the lanes write. -/
theorem softmax_row_getD (fpu : Fpu) (fcvt : Int → Word) {v : List Word} {x : Nat → Word}
    (hx : ∀ j < v.length, v.getD j 0 = x j) {i : Fin 32} {t : Nat} (ht : t < turns v.length i) :
    (softmax_row fpu v).getD (t * 32 + i) 0 = softmax.out (wordFormat fpu fcvt) x v.length i t := by
  have hlt : ∀ (i : Fin 32) t, t < turns v.length i → i + LANES * t < v.length := by
    intro i t ht
    have := turns_iff.mp ht
    unfold LANES
    omega
  have hat : ∀ (i : Fin 32) t, i + LANES * t = t * 32 + i := by
    intro i t
    unfold LANES
    ring
  -- The largest element of a lane, and of all.
  have hmax : ∀ (i : Fin 32), ∀ n ≤ turns v.length i, (List.range n).foldl
      (fun acc t => fpu.fmax acc (v.getD (i + LANES * t) 0)) MINUS_INFINITY =
      softmax.local_max (wordFormat fpu fcvt) x i n := by
    intro i n hn
    induction n with
    | zero => rfl
    | succ n ih =>
      rw [List.range_succ, List.foldl_append, ih (by omega), List.foldl_cons, List.foldl_nil,
        hx _ (hlt i n hn), hat]
      rfl
  have htop : ∀ i : Fin 32, shuffle fpu.fmax [1, 2, 4, 8, 16]
      (fun lane => (List.range (turns v.length lane)).foldl
        (fun acc t => fpu.fmax acc (v.getD (lane + LANES * t) 0)) MINUS_INFINITY) i =
      softmax.warp_max (wordFormat fpu fcvt) x v.length i := by
    intro i
    rw [argmax.shuffle_eq_reduce _ (by decide)]
    exact congrArg (fun f => butterfly.reduce fpu.fmax upward f i)
      (funext fun j => hmax j _ (Nat.le_refl _))
  have hlane : ∀ (i : Fin 32) t, (t * 32 + i.val) % LANES = i := by
    intro i t
    unfold LANES
    omega
  have hweight : ∀ (i : Fin 32) t, t < turns v.length i → fpu.vexp (fpu.fsub (v.getD (t * 32 + i) 0)
      (shuffle fpu.fmax [1, 2, 4, 8, 16] (fun lane => (List.range (turns v.length lane)).foldl
          (fun acc t => fpu.fmax acc (v.getD (lane + LANES * t) 0)) MINUS_INFINITY)
        ((t * 32 + i.val) % LANES))) =
      softmax.weight (wordFormat fpu fcvt) x v.length i t := by
    intro i t ht
    rw [hlane, htop, hx _ (hat i t ▸ hlt i t ht)]
    rfl
  have hsum : ∀ (i : Fin 32), ∀ n ≤ turns v.length i, (List.range n).foldl
      (fun acc t => fpu.fadd acc (fpu.vexp (fpu.fsub (v.getD (i + LANES * t) 0)
        (shuffle fpu.fmax [1, 2, 4, 8, 16] (fun lane => (List.range (turns v.length lane)).foldl
          (fun acc t => fpu.fmax acc (v.getD (lane + LANES * t) 0)) MINUS_INFINITY)
          ((i + LANES * t) % LANES))))) 0 =
      softmax.local_sum (wordFormat fpu fcvt) x v.length i n := by
    intro i n hn
    induction n with
    | zero => rfl
    | succ n ih =>
      rw [List.range_succ, List.foldl_append, ih (by omega), List.foldl_cons, List.foldl_nil, hat,
        hweight i n hn]
      rfl
  have hin : t * 32 + i < v.length := turns_iff.mp ht
  unfold softmax_row
  simp only [List.getD_eq_getElem?_getD, List.getElem?_map, List.getElem?_range hin, Option.map_some,
    Option.getD_some]
  simp only [List.getD_eq_getElem?_getD] at hweight hsum
  rw [hweight i t ht, hlane, argmax.shuffle_eq_reduce _ (by decide)]
  exact congrArg (fun f => fpu.fdiv _ (butterfly.reduce fpu.fadd upward f i))
    (funext fun j => hsum j _ (Nat.le_refl _))

theorem softmax_decode_stored (hargs : Args (wordFormat fpu fcvt) m args [arg 0, arg 1, arg 2])
    (hfit : Kernel.softmax_decode.Fit grid arg (rd32 0 m) args) (horder : order.Perm (List.range grid))
    (regs : Nat → Fin 32 → Regs Word) :
    Ends (wordFormat fpu fcvt) (assemble source.softmax_decode) regs (num args) order m
      (Stored fpu .softmax_decode args grid arg m) := by
  obtain ⟨⟨hcur, hgrid⟩, hend, hown, -, hres, hapart, -, -, -⟩ := hfit
  simp only [Kernel.own, Kernel.results, List.forall_mem_singleton] at hown hres hapart
  set a : softmax.softmax_decode_args := ⟨arg 0, arg 1, arg 2⟩ with ha
  have hready : softmax.Ready (wordFormat fpu fcvt) m args a grid := ⟨hargs, hend, hcur, hgrid, hown⟩
  refine (softmax.softmax_decode_spec hready hapart regs horder).mono fun m' logs ⟨hlogs, hval, hframe⟩ =>
    ⟨?_, fun log hlog => (hlogs log hlog).mono ?_ fun x hx => ?_⟩
  · refine stored_rows (x := arg 0) (w := arg 2 * 4) (n := grid) rfl (fun h _ => ?_) (fun h _ => ?_) ?_
      (fun qh hqh j hj => ?_) fun y hy => hframe y fun qh hqh => ?_
    · show arg 0 + h * arg 2 * 4 = arg 0 + h * (arg 2 * 4)
      ring
    · rw [softmax_row_length, vec_length]
      omega
    · rw [← Nat.mul_assoc]
      omega
    · rw [softmax_row_length, vec_length] at hj
      have hsplit : j / 32 * 32 + (Fin.ofNat 32 j).val = j := by
        rw [Fin.val_ofNat]
        omega
      have hturn : j / 32 < turns (arg 1 + 1) (Fin.ofNat 32 j) := turns_iff.mpr (by omega)
      have hrow : ∀ i < (vec (rd32 0 m) (arg 0 + qh * arg 2 * 4) (arg 1 + 1)).length,
          (vec (rd32 0 m) (arg 0 + qh * arg 2 * 4) (arg 1 + 1)).getD i 0 =
            a.row (wordFormat fpu fcvt) m qh i := by
        intro i hi
        rw [vec_length] at hi
        have hin : a.s_at qh i + 4 ≤ arg 0 + 4 * (grid * arg 2) :=
          (softmax.s_in hqh (show i < a.max_seq by dsimp only [a]; omega)).2
        refine vec_rd32_getD hi ?_ (by omega)
        show _ = arg 0 + 4 * (qh * arg 2 + i)
        ring
      have hget := hval qh hqh (Fin.ofNat 32 j) (j / 32) hturn
      have hmodel := softmax_row_getD fpu fcvt hrow (i := Fin.ofNat 32 j) (t := j / 32)
        (by rw [vec_length]; exact hturn)
      rw [hsplit] at hget hmodel
      rw [vec_length] at hmodel
      refine Eq.trans (congrArg (word m') ?_) (hget.trans hmodel.symm)
      show _ = arg 0 + 4 * (qh * arg 2 + j)
      ring
    · have hrow := hy qh hqh
      rw [softmax_row_length, vec_length, ← Nat.mul_assoc] at hrow
      show y < arg 0 + 4 * (qh * arg 2 + 0) ∨ arg 0 + 4 * (qh * arg 2 + (arg 1 + 1)) ≤ y
      omega
  · rintro x (hx | hx)
    · exact ⟨_, List.mem_cons_self, hx⟩
    · exact inSpans_buf (a := arg 0) (n := 4 * (grid * arg 2)) (by simp [Kernel.own]) hx
  · exact inSpans_buf (a := arg 0) (n := 4 * (grid * arg 2)) (by simp [Kernel.results]) hx

theorem pv_decode_stored
    (hargs : Args (wordFormat fpu fcvt) m args [arg 0, arg 1, arg 2, arg 3, arg 4, arg 5, arg 6])
    (hfit : Kernel.pv_decode.Fit grid arg (rd32 0 m) args) (horder : order.Perm (List.range grid))
    (regs : Nat → Fin 32 → Regs Word) :
    Ends (wordFormat fpu fcvt) (assemble source.pv_decode) regs (num args) order m
      (Stored fpu .pv_decode args grid arg m) := by
  obtain ⟨⟨hcur, hq, hqlt, hgrid⟩, hend, -, hshared, hres, hapart, -, hclear, -⟩ := hfit
  simp only [Kernel.results, List.forall_mem_singleton] at hres hapart hclear
  simp only [Kernel.shared, List.forall_mem_cons] at hshared hclear
  obtain ⟨hP, hV, -⟩ := hshared
  obtain ⟨hcP, hcV, -⟩ := hclear
  set a : pv.pv_decode_args := ⟨arg 0, arg 1, arg 2, arg 3, arg 4, arg 5, arg 6⟩ with ha
  have hready : pv.Ready (wordFormat fpu fcvt) m args a grid (kv_heads grid (arg 6)) :=
    ⟨hargs, hend, hP, hV, hres, hcur, hgrid, hq, hqlt, le_kv_heads hq⟩
  have hclear' : pv.Clear args a grid (kv_heads grid (arg 6)) := ⟨hapart, hcP, hcV⟩
  have hlen : ∀ p rows, (pv_row fpu (arg 5) p rows).length = arg 5 / 32 * 32 := by
    simp [pv_row, LANES]
  refine (pv.pv_decode_spec hready hclear' regs horder).mono fun m' logs hspec => ?_
  obtain ⟨hlogs, hval, hleft, hframe⟩ := hspec
  refine ⟨?_, fun log hlog => (hlogs log hlog).mono ?_ fun x hx => ?_⟩
  · refine stored_rows (x := arg 2) (w := arg 5 * 4) (n := grid) rfl (fun h _ => ?_) (fun h _ => ?_) ?_
      (fun qh hqh k hk => ?_) fun y hy => ?_
    · show arg 2 + h * arg 5 * 4 = arg 2 + h * (arg 5 * 4)
      ring
    · rw [hlen]
      omega
    · rw [← Nat.mul_assoc]
      omega
    · rw [hlen] at hk
      have hget := hval qh hqh k hk
      have hrow : ∀ p rows, (pv_row fpu (arg 5) p rows).getD k 0 = (List.range p.length).foldl
          (fun acc j => fpu.fadd acc (fpu.fmul (p.getD j 0) ((rows.getD j []).getD k 0))) 0 := by
        intro p rows
        simp [pv_row, LANES, hk]
      rw [hrow, vec_length]
      refine Eq.trans (congrArg (word m') ?_) (hget.trans ?_)
      · show _ = arg 2 + 4 * (qh * arg 5 + k)
        ring
      · refine List.foldl_ext _ _ _ fun acc j hj => ?_
        have hj : j < arg 3 + 1 := List.mem_range.mp hj
        have hP' : a.p_at qh j + 4 ≤ arg 0 + 4 * (grid * arg 4) :=
          (pv.p_in hqh (show j < a.max_seq by dsimp only [a]; omega)).2
        have hV' : a.v_at qh j k + 4 ≤ arg 1 + 4 * (kv_heads grid (arg 6) * (arg 4 * arg 5)) :=
          (pv.v_in hready hqh (show j < a.max_seq by dsimp only [a]; omega)
            (show k < a.head_dim by dsimp only [a]; omega)).2
        have hp : (vec (rd32 0 m) (arg 0 + qh * arg 4 * 4) (arg 3 + 1)).getD j 0 = word m (a.p_at qh j) := by
          refine vec_rd32_getD hj ?_ (by omega)
          show _ = arg 0 + 4 * (qh * arg 4 + j)
          ring
        have hv : (vec (rd32 0 m) (arg 1 + kv_head qh (arg 6) * arg 4 * arg 5 * 4 + j * (arg 5 * 4))
            (arg 5)).getD k 0 = word m (a.v_at qh j k) := by
          refine vec_rd32_getD (by omega) ?_ (by omega)
          rw [kv_head_eq hq]
          show _ = arg 1 + 4 * ((qh / arg 6 * arg 4 + j) * arg 5 + k)
          ring
        have hmap : ∀ g : Nat → List Word, ((List.range (arg 3 + 1)).map g).getD j [] = g j := fun g => by
          simp [hj]
        rw [hp, hmap, hv]
        rfl
    · -- A byte outside the whole turns of the rows: outside the output, or in the rest of a row.
      by_cases hout : y < arg 2 ∨ arg 2 + 4 * (grid * arg 5) ≤ y
      · exact hframe y hout
      have hw : (y - arg 2) / 4 < grid * arg 5 := by omega
      have hpos : 0 < arg 5 := Nat.pos_of_ne_zero fun h0 => by rw [h0] at hw; omega
      have hqh : (y - arg 2) / 4 / arg 5 < grid := Nat.div_lt_of_lt_mul (by rwa [Nat.mul_comm])
      have hk : (y - arg 2) / 4 % arg 5 < arg 5 := Nat.mod_lt _ hpos
      have hsplit := Nat.div_add_mod' ((y - arg 2) / 4) (arg 5)
      have hrow := hy _ hqh
      rw [hlen, ← Nat.mul_assoc] at hrow
      generalize (y - arg 2) / 4 / arg 5 = qh at hqh hsplit hrow
      generalize (y - arg 2) / 4 % arg 5 = k at hk hsplit hrow
      have hword := hleft qh hqh k hk (show arg 5 / 32 * 32 ≤ k by omega)
      have hat : y = a.o_at qh k + (y - arg 2) % 4 := by
        show y = arg 2 + 4 * (qh * arg 5 + k) + (y - arg 2) % 4
        omega
      rw [hat, byte_of_word m' _ (Nat.mod_lt _ (by decide)), byte_of_word m _ (Nat.mod_lt _ (by decide))]
      exact congrArg (fun w : Word => UInt8.ofNat (w.toNat / 256 ^ ((y - arg 2) % 4))) hword
  · rintro x (hx | hx | hx)
    · exact ⟨_, List.mem_cons_self, hx⟩
    · exact inSpans_buf (a := arg 0) (n := 4 * (grid * arg 4)) (by simp [Kernel.shared]) hx
    · exact inSpans_buf (a := arg 1) (n := 4 * (kv_heads grid (arg 6) * (arg 4 * arg 5)))
        (by simp [Kernel.shared]) hx
  · exact inSpans_buf (a := arg 2) (n := 4 * (grid * arg 5)) (by simp [Kernel.results]) hx

/-! ## `argmax.S` -/

theorem argmax_stored (hargs : Args (wordFormat fpu fcvt) m args [arg 0, arg 1, arg 2, arg 3])
    (hfit : Kernel.argmax.Fit grid arg (rd32 0 m) args) (horder : order.Perm (List.range grid))
    (regs : Nat → Fin 32 → Regs Word) :
    Ends (wordFormat fpu fcvt) (assemble source.argmax) regs (num args) order m
      (Stored fpu .argmax args grid arg m) := by
  obtain ⟨⟨hV, rfl⟩, hend, -, hshared, hres, hapart, -, hclear, happ⟩ := hfit
  simp only [Kernel.shared, Kernel.results, List.forall_mem_cons] at hshared hclear
  simp only [Kernel.results, List.forall_mem_cons, List.pairwise_cons] at hres hapart happ
  obtain ⟨hout, hdebug, -⟩ := hres
  obtain ⟨hao, had, -⟩ := hapart
  obtain ⟨hco, hcd, -⟩ := hclear
  obtain rfl := List.perm_singleton.mp horder
  set a : argmax.argmax_args := ⟨arg 0, arg 1, arg 2, arg 3⟩ with ha
  have hready : argmax.Ready fpu fcvt m args a := ⟨hargs, hend, hV, hshared.1, hout, hdebug⟩
  have hclear' : argmax.Clear args a := ⟨hco.1, happ.1.1, hao, hcd.1, had⟩
  have hlogits : argmax.LogitsAre m a (vec (rd32 0 m) (arg 0) (arg 1)) := fun j hj => by
    have hj : j < arg 1 := hj
    exact (vec_rd32_getD hj rfl (show arg 0 + 4 * j < 2 ^ 32 by omega)).symm
  obtain ⟨hruns, hspec⟩ := argmax.argmax_spec hready hclear' hlogits regs
  obtain ⟨-, heffect⟩ := argmax.argmax_effect hready hclear' hlogits regs
  refine ⟨hruns, fun m' logs hlaunch => ?_⟩
  obtain ⟨hlogs, hword, hnotes, -⟩ := hspec m' logs hlaunch
  have hframe := (heffect m' logs hlaunch).frame
  refine ⟨?_, fun log hlog => (hlogs log hlog).mono ?_ ?_⟩
  · have hlen : ∀ lane, (argmax_debug fpu (arg 1) (vec (rd32 0 m) (arg 0) (arg 1)) lane).length = 7 :=
      fun _ => rfl
    show m' = store_all 0 m ((arg 2, [kernels.argmax fpu (arg 1) (vec (rd32 0 m) (arg 0) (arg 1))]) ::
      (List.range LANES).map fun lane =>
        (arg 3 + lane * 32, argmax_debug fpu (arg 1) (vec (rd32 0 m) (arg 0) (arg 1)) lane))
    rw [store_all_cons, store_vector (by simpa using hout),
      store_all_rows (x := arg 3) (w := 32) 0 _ _ fun h hh => Nat.mod_eq_of_lt (by unfold LANES at hh; omega),
      Nat.zero_add]
    refine eq_putRows (fun h _ => by rw [hlen]; decide) (fun h hh s hs => ?_) fun y hy => ?_
    · rw [hlen] at hs
      rw [← hnotes ⟨h, hh⟩ s hs]
      congr 1
      show _ = arg 3 + 4 * (h * 8 + s)
      ring
    · by_cases hy2 : y < arg 2 ∨ arg 2 + 4 ≤ y
      · rw [put_outside (by simpa using hy2)]
        refine hframe y fun b _ => ?_
        rintro ⟨i, p, hp, hin⟩
        rcases argmax.mem_places hp with ⟨-, hp1⟩ | ⟨s, hs, hp1⟩
        · have hp1 : p.1 = arg 2 := hp1
          omega
        · have hp1 : p.1 = arg 3 + 4 * (i * 8 + s) := hp1
          have hrow := hy i i.isLt
          rw [hlen] at hrow
          omega
      · obtain ⟨k, rfl⟩ := Nat.exists_eq_add_of_le (show arg 2 ≤ y by omega)
        have hput : word (put m (arg 2) [kernels.argmax fpu (arg 1) (vec (rd32 0 m) (arg 0) (arg 1))])
            (arg 2 + 4 * 0) = kernels.argmax fpu (arg 1) (vec (rd32 0 m) (arg 0) (arg 1)) :=
          word_put Nat.one_pos
        rw [byte_of_word m' _ (by omega), byte_of_word (put m _ _) _ (by omega)]
        exact congrArg (fun w : Word => UInt8.ofNat (w.toNat / 256 ^ k)) (hword.trans hput.symm)
  · rintro x (hx | hx)
    · exact ⟨_, List.mem_cons_self, hx⟩
    · exact inSpans_buf (a := arg 0) (n := 4 * arg 1) (by simp [Kernel.shared]) hx
  · rintro x (rfl | hx)
    · exact inSpans_buf (a := arg 2) (n := 4) (by simp [Kernel.results]) ⟨Nat.le_refl _, Nat.le_refl _⟩
    · exact inSpans_buf (a := arg 3) (n := 1024) (by simp [Kernel.results]) hx

/-! ## All kernels -/

/-- A launch of any kernel ends, in any order of its blocks, with the stores of the model. -/
theorem Kernel.stored (k : Kernel)
    (hargs : Args (wordFormat fpu fcvt) m args ((List.range (arity k)).map arg))
    (hfit : k.Fit grid arg (rd32 0 m) args) (horder : order.Perm (List.range grid))
    (regs : Nat → Fin 32 → Regs Word) :
    Ends (wordFormat fpu fcvt) k.code regs (num args) order m (Stored fpu k args grid arg m) := by
  cases k with
  | rmsnorm => exact rmsnorm_stored hargs hfit horder regs
  | gemm => exact gemm_stored hargs hfit horder regs
  | broadcast_add => exact broadcast_add_stored hargs hfit horder regs
  | silu => exact silu_stored hargs hfit horder regs
  | vmul => exact vmul_stored hargs hfit horder regs
  | rope => exact rope_stored hargs hfit horder regs
  | embedding_lookup => exact embedding_lookup_stored hargs hfit horder regs
  | argmax => exact argmax_stored hargs hfit horder regs
  | qkt_decode => exact qkt_decode_stored hargs hfit horder regs
  | softmax_decode => exact softmax_decode_stored hargs hfit horder regs
  | pv_decode => exact pv_decode_stored hargs hfit horder regs

end gpgpu.device
