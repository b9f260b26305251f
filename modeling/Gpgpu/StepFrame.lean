-- The operations of a step stay in their buffers, for every config that is as wide as the
-- kernels take it to be, and the cache is at the right point for each of them.
import Gpgpu.Frame
import Gpgpu.SetupLaws

open memory words buffers

namespace gpgpu.desk

open buddy context kernels device kv weights transformer

/-! ## Configs -/

/-- The kernels that do not look at the width of their result stay in their buffers, when a
buffer of `n` elements has `room n` bytes: 28 elements for each lane in `rmsnorm.S`, and in a
layer 64 elements for each head in `rope.S`, which takes one at least, and the whole turns of
each head in `pv_decode.S`. -/
structure Wide (cfg : Config) (room : Nat → Nat) : Prop where
  hidden : 4 * 896 ≤ room cfg.D
  queries : 0 < cfg.num_layers → ∀ h < max 1 cfg.num_q_heads,
    4 * (h * cfg.head_dim + 64) ≤ room cfg.D
  keys : 0 < cfg.num_layers → ∀ h < max 1 cfg.num_kv_heads,
    4 * (h * cfg.head_dim + 64) ≤ room (cfg.num_kv_heads * cfg.head_dim % 2 ^ 32)
  heads : 0 < cfg.num_layers → ∀ h < cfg.num_q_heads,
    4 * (h * cfg.head_dim + cfg.head_dim / LANES * LANES) ≤ room cfg.D

section

variable {env : Env} {ws : Workspace} {wl : WeightLoader} {c : KvCache} {lay : Layout Buf} {m0 : Mem}
  {fpu : Fpu} {pos : Nat}

theorem Room.le_size (hr : Room env.dev ws c lay m0) (hcfg : Checked ws.cfg) (s : Scratch) :
    4 * floats ws.cfg s ≤ lay.size (.work s) :=
  hr.bytes _ (mem_scratch_sizes hcfg s)

theorem Room.work_lt (hr : Room env.dev ws c lay m0) (s : Scratch) : ws.off s < 2 ^ 32 := by
  rw [← hr.work s]
  exact hr.low _

/-! ## The arguments of the launches -/

section

variable {x w : Nat}

theorem Room.formed_rmsnorm (hr : Room env.dev ws c lay m0) (hcfg : Checked ws.cfg) (s : Scratch)
    (hx : x < 2 ^ 32) (hw : w < 2 ^ 32) : Formed lay c pos (rmsnorm_op env.host ws x (ws.off s) w) := by
  refine ⟨rfl, ?_⟩
  simp only [List.forall_mem_cons]
  exact ⟨hx, hr.work_lt s, hw, hcfg.D, UInt32.toNat_lt _, UInt32.toNat_lt _, by simp⟩

theorem Room.formed_gemm (hr : Room env.dev ws c lay m0) (s : Scratch) {K N : Nat} (hx : x < 2 ^ 32)
    (hw : w < 2 ^ 32) (hK : K < 2 ^ 32) (hN : N < 2 ^ 32) :
    Formed lay c pos (gemm_op x w (ws.off s) K N) := by
  refine ⟨rfl, ?_⟩
  simp only [List.forall_mem_cons]
  exact ⟨hx, hw, hr.work_lt s, by decide, hK, hN, by simp⟩

theorem Room.formed_add (hr : Room env.dev ws c lay m0) (s : Scratch) {N : Nat} (hx : x < 2 ^ 32)
    (hw : w < 2 ^ 32) (hN : N < 2 ^ 32) : Formed lay c pos (add_op x w (ws.off s) N) := by
  refine ⟨rfl, ?_⟩
  simp only [List.forall_mem_cons]
  exact ⟨hx, hr.work_lt s, hw, by decide, hN, by simp⟩

theorem Room.formed_silu (hr : Room env.dev ws c lay m0) (s : Scratch) {D grid : Nat} (hx : x < 2 ^ 32)
    (hD : D < 2 ^ 32) : Formed lay c pos (.launch .silu [x, ws.off s, D] grid) := by
  refine ⟨rfl, ?_⟩
  simp only [List.forall_mem_cons]
  exact ⟨hx, hr.work_lt s, hD, by simp⟩

theorem Room.formed_vmul (hr : Room env.dev ws c lay m0) (s : Scratch) {n grid : Nat} (hx : x < 2 ^ 32)
    (hw : w < 2 ^ 32) (hn : n < 2 ^ 32) : Formed lay c pos (.launch .vmul [x, w, ws.off s, n] grid) := by
  refine ⟨rfl, ?_⟩
  simp only [List.forall_mem_cons]
  exact ⟨hx, hw, hr.work_lt s, hn, by simp⟩

theorem Room.formed_embedding (hr : Room env.dev ws c lay m0) (hcfg : Checked ws.cfg) (s : Scratch)
    {grid : Nat} (hx : x < 2 ^ 32) (hw : w < 2 ^ 32) : Formed lay c pos
      (.launch .embedding_lookup [x, w, ws.off s, ws.cfg.D, ws.cfg.D / 32] grid) := by
  have hD := hcfg.D
  refine ⟨rfl, ?_⟩
  simp only [List.forall_mem_cons]
  exact ⟨hx, hw, hr.work_lt s, hD, by omega, by simp⟩

theorem Room.formed_rope (hr : Room env.dev ws c lay m0) (hcfg : Checked ws.cfg) (s : Scratch)
    {heads : Nat} (hheads : heads < 2 ^ 32) (hpos : pos < 128) :
    Formed lay c pos (rope_op ws (ws.off s) heads pos) := by
  refine ⟨rfl, ?_⟩
  simp only [List.forall_mem_cons]
  exact ⟨hr.work_lt s, hr.work_lt .sincos, hheads, hcfg.head_dim, by omega, by simp⟩

theorem Checked.q_per_kv_lt (hcfg : Checked ws.cfg) : q_per_kv ws < 2 ^ 32 :=
  Nat.lt_of_le_of_lt (Nat.div_le_self ..) hcfg.num_q_heads

theorem Checked.max_seq_lt (hcfg : Checked ws.cfg) : ws.cfg.max_seq < 2 ^ 32 := by
  rw [hcfg.max_seq]
  decide

theorem Room.formed_qkt (hr : Room env.dev ws c lay m0) (hcfg : Checked ws.cfg) (hpos : pos < 128)
    (hx : x < 2 ^ 32) (scale : Word) : Formed lay c pos (.launch .qkt_decode
      [ws.off .SCRATCH_Q, x, ws.off .SCRATCH_SCORES, pos, ws.cfg.max_seq, ws.cfg.head_dim,
        q_per_kv ws, scale.toNat] ws.cfg.num_q_heads) := by
  refine ⟨rfl, ?_⟩
  simp only [List.forall_mem_cons]
  exact ⟨hr.work_lt _, hx, hr.work_lt _, by omega, hcfg.max_seq_lt, hcfg.head_dim, hcfg.q_per_kv_lt,
    UInt32.toNat_lt _, by simp⟩

theorem Room.formed_softmax (hr : Room env.dev ws c lay m0) (hcfg : Checked ws.cfg) (hpos : pos < 128) :
    Formed lay c pos (.launch .softmax_decode [ws.off .SCRATCH_SCORES, pos, ws.cfg.max_seq]
      ws.cfg.num_q_heads) := by
  refine ⟨rfl, ?_⟩
  simp only [List.forall_mem_cons]
  exact ⟨hr.work_lt _, by omega, hcfg.max_seq_lt, by simp⟩

theorem Room.formed_pv (hr : Room env.dev ws c lay m0) (hcfg : Checked ws.cfg) (hpos : pos < 128)
    (hx : x < 2 ^ 32) : Formed lay c pos (.launch .pv_decode
      [ws.off .SCRATCH_SCORES, x, ws.off .SCRATCH_X, pos, ws.cfg.max_seq, ws.cfg.head_dim,
        q_per_kv ws] ws.cfg.num_q_heads) := by
  refine ⟨rfl, ?_⟩
  simp only [List.forall_mem_cons]
  exact ⟨hr.work_lt _, hx, hr.work_lt _, by omega, hcfg.max_seq_lt, hcfg.head_dim, hcfg.q_per_kv_lt,
    by simp⟩

theorem Room.formed_argmax (hr : Room env.dev ws c lay m0) (hcfg : Checked ws.cfg) :
    Formed lay c pos (.launch .argmax [ws.off .LOGITS, ws.cfg.vocab_size, ws.off .token_id_buf,
      ws.off .argmax_debug] 1) := by
  refine ⟨rfl, ?_⟩
  simp only [List.forall_mem_cons]
  exact ⟨hr.work_lt _, hcfg.vocab_size, hr.work_lt _, hr.work_lt _, by simp⟩

end

/-! ## Launches with one vector as their result -/

/-- A launch that stores in one buffer, which word `i` of its arguments names. -/
theorem targets_one {k : Kernel} {args : List Nat} {grid i : Nat} {b : Buf} (hb : Scratchy b)
    (hi : i ∈ outputs k) (hname : args.getD i 0 = lay.off b)
    (hstores : ∀ rd, StoresIn lay (· = b) (k.stores fpu grid (args.getD · 0) rd)) :
    InTargets lay fpu (.launch k args grid) := by
  intro rd s hs
  obtain ⟨b', j, rfl, haddr, hfits⟩ := hstores rd s hs
  exact ⟨b', j, ⟨hb, i, hi, hname⟩, haddr, hfits⟩

/-- A vector at the start of a buffer. -/
theorem storesIn_vector {b : Buf} {x : Nat} {v : List Word} (hx : x = lay.off b)
    (hlow : lay.off b < 2 ^ 32) (hv : 4 * v.length ≤ lay.size b) : StoresIn lay (· = b) [(x, v)] := by
  intro s hs
  rw [List.mem_singleton.mp hs]
  exact ⟨b, 0, rfl, by rw [hx]; exact Nat.mod_eq_of_lt hlow, by simpa using hv⟩

/-- Rows at even distances in a buffer. -/
theorem storesIn_rows {b : Buf} {n : Nat} {g : Nat → Nat} {f : Nat → List Word}
    (hg : ∀ h < n, lay.off b ≤ g h ∧ g h < 2 ^ 32 ∧
      g h + 4 * (f h).length ≤ lay.off b + lay.size b) :
    StoresIn lay (· = b) ((List.range n).map fun h => (g h, f h)) := by
  intro s hs
  obtain ⟨h, hh, rfl⟩ := List.mem_map.mp hs
  obtain ⟨h1, h2, h3⟩ := hg h (List.mem_range.mp hh)
  refine ⟨b, g h - lay.off b, rfl, ?_, ?_⟩
  · rw [Nat.mod_eq_of_lt h2]
    omega
  · simp only
    omega

section

variable {x w : Nat} {s : Scratch}

theorem Room.targets_rmsnorm (hr : Room env.dev ws c lay m0) (hs : 4 * 896 ≤ lay.size (.work s))
    (hne : s ≠ .sincos) : InTargets lay fpu (rmsnorm_op env.host ws x (ws.off s) w) := by
  refine targets_one (b := .work s) (i := 1) hne (by decide) (hr.work s).symm fun rd => ?_
  refine storesIn_vector (hr.work s).symm (hr.low _) ?_
  simpa only [rmsnorm, List.length_map, List.length_range, LANES, PER_LANE] using hs

theorem Room.targets_gemm (hr : Room env.dev ws c lay m0) (hcfg : Checked ws.cfg) {K N : Nat}
    (hs : floats ws.cfg s = N) (hne : s ≠ .sincos) : InTargets lay fpu (gemm_op x w (ws.off s) K N) := by
  refine targets_one (b := .work s) (i := 2) hne (by decide) (hr.work s).symm fun rd => ?_
  have hsize := hr.le_size hcfg s
  refine storesIn_vector (hr.work s).symm (hr.low _) ?_
  simp only [gemm, List.length_take, List.length_map, List.length_range, List.getD_cons_succ,
    List.getD_cons_zero]
  omega

theorem Room.targets_add (hr : Room env.dev ws c lay m0) (hcfg : Checked ws.cfg) {N : Nat}
    (hs : floats ws.cfg s = N) (hne : s ≠ .sincos) : InTargets lay fpu (add_op x w (ws.off s) N) := by
  refine targets_one (b := .work s) (i := 1) hne (by decide) (hr.work s).symm fun rd => ?_
  have hsize := hr.le_size hcfg s
  refine storesIn_vector (hr.work s).symm (hr.low _) ?_
  simp only [broadcast_add, List.length_take, List.length_map, List.length_range,
    List.getD_cons_succ, List.getD_cons_zero]
  omega

theorem Room.targets_silu (hr : Room env.dev ws c lay m0) (hcfg : Checked ws.cfg) {D grid : Nat}
    (hs : floats ws.cfg s = D) (hne : s ≠ .sincos) :
    InTargets lay fpu (.launch .silu [x, ws.off s, D] grid) := by
  refine targets_one (b := .work s) (i := 1) hne (by decide) (hr.work s).symm fun rd => ?_
  have hsize := hr.le_size hcfg s
  refine storesIn_vector (hr.work s).symm (hr.low _) ?_
  simp only [silu, List.length_take, List.length_map, List.length_range, List.getD_cons_succ,
    List.getD_cons_zero]
  omega

theorem Room.targets_vmul (hr : Room env.dev ws c lay m0) (hcfg : Checked ws.cfg) {n grid : Nat}
    (hs : floats ws.cfg s = n) (hne : s ≠ .sincos) :
    InTargets lay fpu (.launch .vmul [x, w, ws.off s, n] grid) := by
  refine targets_one (b := .work s) (i := 2) hne (by decide) (hr.work s).symm fun rd => ?_
  have hsize := hr.le_size hcfg s
  refine storesIn_vector (hr.work s).symm (hr.low _) ?_
  simp only [vmul, List.length_map, List.length_range, List.getD_cons_succ, List.getD_cons_zero,
    LANES]
  omega

theorem Room.targets_embedding (hr : Room env.dev ws c lay m0) (hcfg : Checked ws.cfg)
    (hs : floats ws.cfg s = ws.cfg.D) (hturn : 4 * LANES ≤ lay.size (.work s)) (hne : s ≠ .sincos)
    {grid : Nat} : InTargets lay fpu
      (.launch .embedding_lookup [x, w, ws.off s, ws.cfg.D, ws.cfg.D / 32] grid) := by
  refine targets_one (b := .work s) (i := 2) hne (by decide) (hr.work s).symm fun rd => ?_
  have hsize := hr.le_size hcfg s
  refine storesIn_vector (hr.work s).symm (hr.low _) ?_
  unfold LANES at hturn
  simp only [vec_length, List.getD_cons_succ, List.getD_cons_zero, LANES]
  omega

end

/-! ## Launches that store rows -/

theorem Room.targets_rope (hr : Room env.dev ws c lay m0) {s : Scratch} {heads : Nat}
    (hs : ∀ h < max 1 heads, 4 * (h * ws.cfg.head_dim + 64) ≤ lay.size (.work s)) (hne : s ≠ .sincos) :
    InTargets lay fpu (rope_op ws (ws.off s) heads pos) := by
  have hfits := lay.fits (.work s)
  have hsmall := hr.small
  have hoff := hr.work s
  refine targets_one (b := .work s) (i := 0) hne (by decide) hoff.symm fun rd => ?_
  refine storesIn_rows fun h hh => ?_
  simp only [List.getD_cons_succ, List.getD_cons_zero, rope_head, List.length_append, List.length_map,
    List.length_range, LANES] at hh ⊢
  have hrow := hs h hh
  omega

/-- A row of scores for each query head. -/
theorem Room.scores_rows (hr : Room env.dev ws c lay m0) (hcfg : Checked ws.cfg) (hpos : pos < 128)
    {f : Nat → List Word} (hf : ∀ h, (f h).length = pos + 1) :
    StoresIn lay (· = .work .SCRATCH_SCORES) ((List.range ws.cfg.num_q_heads).map fun h =>
      (ws.off .SCRATCH_SCORES + h * ws.cfg.max_seq * 4, f h)) := by
  have hfits := lay.fits (.work .SCRATCH_SCORES)
  have hsmall := hr.small
  have hsize : 4 * (ws.cfg.num_q_heads * 128) ≤ lay.size (.work .SCRATCH_SCORES) :=
    hr.le_size hcfg .SCRATCH_SCORES
  have hoff := hr.work .SCRATCH_SCORES
  refine storesIn_rows fun h hh => ?_
  have hlen := hf h
  rw [hcfg.max_seq]
  omega

theorem Room.targets_qkt (hr : Room env.dev ws c lay m0) (hcfg : Checked ws.cfg) (hpos : pos < 128)
    (K : Nat) (scale : Word) : InTargets lay fpu (.launch .qkt_decode
      [ws.off .SCRATCH_Q, K, ws.off .SCRATCH_SCORES, pos, ws.cfg.max_seq, ws.cfg.head_dim,
        q_per_kv ws, scale.toNat] ws.cfg.num_q_heads) :=
  targets_one (b := .work .SCRATCH_SCORES) (i := 2) (by decide : Scratch.SCRATCH_SCORES ≠ .sincos)
    (by decide) (hr.work _).symm fun _ => hr.scores_rows hcfg hpos fun h => by simp

theorem Room.targets_softmax (hr : Room env.dev ws c lay m0) (hcfg : Checked ws.cfg)
    (hpos : pos < 128) : InTargets lay fpu (.launch .softmax_decode
      [ws.off .SCRATCH_SCORES, pos, ws.cfg.max_seq] ws.cfg.num_q_heads) :=
  targets_one (b := .work .SCRATCH_SCORES) (i := 0) (by decide : Scratch.SCRATCH_SCORES ≠ .sincos)
    (by decide) (hr.work _).symm fun _ => hr.scores_rows hcfg hpos fun h => by simp [softmax_row]

theorem Room.targets_pv (hr : Room env.dev ws c lay m0)
    (hbegin : ∀ h < ws.cfg.num_q_heads, 4 * (h * ws.cfg.head_dim) < lay.size (.work .SCRATCH_X))
    (hend : ∀ h < ws.cfg.num_q_heads, 4 * (h * ws.cfg.head_dim + ws.cfg.head_dim / LANES * LANES) ≤
      lay.size (.work .SCRATCH_X)) (V : Nat) : InTargets lay fpu (.launch .pv_decode
      [ws.off .SCRATCH_SCORES, V, ws.off .SCRATCH_X, pos, ws.cfg.max_seq, ws.cfg.head_dim,
        q_per_kv ws] ws.cfg.num_q_heads) := by
  have hfits := lay.fits (.work .SCRATCH_X)
  have hsmall := hr.small
  have hoff := hr.work .SCRATCH_X
  refine targets_one (b := .work .SCRATCH_X) (i := 2) (by decide : Scratch.SCRATCH_X ≠ .sincos)
    (by decide) hoff.symm fun rd => ?_
  refine storesIn_rows fun h hh => ?_
  simp only [List.getD_cons_succ, List.getD_cons_zero, pv_row, List.length_map, List.length_range]
  have hfirst := hbegin h hh
  have hlast := hend h hh
  omega

/-- The words of the lanes for the debug buffer. -/
theorem Room.debug_rows (hr : Room env.dev ws c lay m0) (hcfg : Checked ws.cfg) {V : Nat}
    {logits : List Word} : StoresIn lay (· = .work .argmax_debug) ((List.range LANES).map fun lane =>
      (ws.off .argmax_debug + lane * 32, argmax_debug fpu V logits lane)) := by
  have hfits := lay.fits (.work .argmax_debug)
  have hsmall := hr.small
  have hdebug : 4 * 256 ≤ lay.size (.work .argmax_debug) := hr.le_size hcfg .argmax_debug
  have hoff := hr.work .argmax_debug
  refine storesIn_rows fun lane hlane => ?_
  unfold LANES at hlane
  simp only [argmax_debug, List.length_map, List.length_cons, List.length_nil]
  omega

theorem Room.targets_argmax (hr : Room env.dev ws c lay m0) (hcfg : Checked ws.cfg) :
    InTargets lay fpu (.launch .argmax [ws.off .LOGITS, ws.cfg.vocab_size, ws.off .token_id_buf,
      ws.off .argmax_debug] 1) := by
  have htok : 4 * 1 ≤ lay.size (.work .token_id_buf) := hr.le_size hcfg .token_id_buf
  intro rd s hs
  rcases List.mem_cons.mp hs with rfl | hs
  · refine ⟨.work .token_id_buf, 0, ⟨(by decide : Scratch.token_id_buf ≠ .sincos), 2, by decide,
      (hr.work _).symm⟩, ?_, by simpa using htok⟩
    rw [hr.work]
    exact Nat.mod_eq_of_lt (hr.work_lt _)
  · obtain ⟨b, j, rfl, hin⟩ := hr.debug_rows hcfg s hs
    have hne : Scratch.argmax_debug ≠ .sincos := by decide
    exact ⟨.work .argmax_debug, j, ⟨hne, 3, by decide, (hr.work _).symm⟩, hin⟩

/-! ## All operations of a step -/

/-- The addresses of the weights fit in the 32 bits of their fields. -/
structure Low (wl : WeightLoader) : Prop where
  tensor : ∀ l < WL_NUM_LAYERS, ∀ t, tensor_addr wl l t < 2 ^ 32
  embedding : wl.embedding_addr < 2 ^ 32
  lm_head : wl.lm_head_addr < 2 ^ 32
  final_norm : wl.final_norm_addr < 2 ^ 32

/-- A layer of the cache begins below `2 ^ 32`. -/
theorem layer_off_lt {x l : Nat} (hl : l < c.num_layers) (hx : x < 2 ^ 32)
    (hfits : x + c.bytes ≤ 2 ^ 32) : layer_off c x l < 2 ^ 32 := by
  rw [layer_off_in hl hfits]
  unfold KvCache.bytes at hfits
  rcases Nat.eq_zero_or_pos (c.num_kv_heads * c.max_seq * c.width) with h0 | hpos
  · rw [Nat.mul_assoc, Nat.mul_assoc, ← Nat.mul_assoc c.num_kv_heads, h0]
    exact hx
  · have hlt : l * (c.num_kv_heads * c.max_seq * c.width) <
        c.num_layers * (c.num_kv_heads * c.max_seq * c.width) := Nat.mul_lt_mul_of_pos_right hl hpos
    rw [← Nat.mul_assoc, ← Nat.mul_assoc, ← Nat.mul_assoc, ← Nat.mul_assoc] at hlt
    omega

theorem Room.layers_lt (hr : Room env.dev ws c lay m0) (hcache : CacheRoom lay c) {l : Nat}
    (hl : l < c.num_layers) :
    layer_off c c.K_dev_off l < 2 ^ 32 ∧ layer_off c c.V_dev_off l < 2 ^ 32 := by
  have hkeys := lay.fits .keys
  have hvals := lay.fits .vals
  have hK := hr.low .keys
  have hV := hr.low .vals
  have hsmall := hr.small
  rw [hr.keys] at hkeys hK
  rw [hr.vals] at hvals hV
  rw [hcache.keys] at hkeys
  rw [hcache.vals] at hvals
  exact ⟨layer_off_lt hl hK (by omega), layer_off_lt hl hV (by omega)⟩

/-- What a step needs beside the room: sizes that the library can work with, a cache with the
layers of the config, and weights in reach. -/
structure Agreed (ws : Workspace) (wl : WeightLoader) (c : KvCache) (lay : Layout Buf) : Prop where
  checked : Checked ws.cfg
  sized : ws.cfg.num_layers = 0 ∨ Sized ws.cfg
  layers : ws.cfg.num_layers ≤ WL_NUM_LAYERS
  cache_layers : ws.cfg.num_layers ≤ c.num_layers
  cache : 0 < ws.cfg.num_layers → CacheRoom lay c
  max_seq : c.max_seq = 128
  low : Low wl

/-- And buffers that are as wide as the kernels take them to be. -/
structure Suited (ws : Workspace) (wl : WeightLoader) (c : KvCache) (lay : Layout Buf) : Prop
    extends Agreed ws wl c lay where
  wide : ∃ room, Wide ws.cfg room ∧ ∀ s, lay.size (.work s) = room (floats ws.cfg s)

theorem Room.layer_formed (hr : Room env.dev ws c lay m0) (hs : Agreed ws wl c lay) {l : Nat}
    (hl : l < ws.cfg.num_layers) (hpos : pos < 128) :
    ∀ o ∈ layer_ops env.host ws wl c pos l, Formed lay c pos o := by
  have hcfg := hs.checked
  have hcache := hs.cache (by omega)
  have hc : l < c.num_layers := Nat.lt_of_lt_of_le hl hs.cache_layers
  have hD := hcfg.D
  have hI := hcfg.intermediate
  have htensor := hs.low.tensor l (Nat.lt_of_lt_of_le hl hs.layers)
  have hwork := hr.work_lt
  have hkv : kv_dim ws < 2 ^ 32 := Nat.mod_lt _ (by decide)
  obtain ⟨hK, hV⟩ := hr.layers_lt hcache hc
  have hqkv : ∀ o ∈ qkv_ops env.host ws wl l pos, Formed lay c pos o := by
    unfold qkv_ops
    simp only [List.forall_mem_cons]
    exact ⟨hr.formed_rmsnorm hcfg _ (hwork _) (htensor _),
      hr.formed_gemm _ (hwork _) (htensor _) hD hD, hr.formed_add _ (hwork _) (htensor _) hD,
      hr.formed_gemm _ (hwork _) (htensor _) hD hkv, hr.formed_add _ (hwork _) (htensor _) hkv,
      hr.formed_gemm _ (hwork _) (htensor _) hD hkv, hr.formed_add _ (hwork _) (htensor _) hkv,
      hr.formed_rope hcfg _ hcfg.num_q_heads hpos, hr.formed_rope hcfg _ hcfg.num_kv_heads hpos,
      by simp⟩
  have hattention : ∀ o ∈ attention_ops env.host ws c l pos, Formed lay c pos o := by
    unfold attention_ops
    simp only [List.forall_mem_cons]
    exact ⟨hr.formed_qkt hcfg hpos hK _, hr.formed_softmax hcfg hpos, hr.formed_pv hcfg hpos hV,
      by simp⟩
  have hffn : ∀ o ∈ ffn_ops env.host ws wl l, Formed lay c pos o := by
    unfold ffn_ops
    simp only [List.forall_mem_cons]
    exact ⟨hr.formed_gemm _ (hwork _) (htensor _) hD hD, hr.formed_add _ (hwork _) (hwork _) hD,
      hr.formed_rmsnorm hcfg _ (hwork _) (htensor _), hr.formed_gemm _ (hwork _) (htensor _) hD hI,
      hr.formed_gemm _ (hwork _) (htensor _) hD hI, hr.formed_silu _ (hwork _) hI,
      hr.formed_vmul _ (hwork _) (hwork _) hI, hr.formed_gemm _ (hwork _) (htensor _) hI hD,
      hr.formed_add _ (hwork _) (hwork _) hD, by simp⟩
  rw [layer_ops_eq]
  simp only [List.forall_mem_append, List.forall_mem_cons]
  have hseq := hs.max_seq
  exact ⟨hqkv, ⟨hc, by omega, hcache⟩, hattention, hffn⟩

/-- Every operation of a step can be made. -/
theorem Room.step_formed (hr : Room env.dev ws c lay m0) (hs : Agreed ws wl c lay) (hpos : pos < 128)
    (tok : Word) : ∀ o ∈ step_ops env.host ws wl c tok pos, Formed lay c pos o := by
  have hcfg := hs.checked
  have hwork := hr.work_lt
  have hfirst : ∀ o ∈ first_ops ws wl tok, Formed lay c pos o := by
    unfold first_ops
    simp only [List.forall_mem_cons]
    exact ⟨trivial, hr.formed_embedding hcfg _ hs.low.embedding (hwork _), by simp⟩
  have hlast : ∀ o ∈ last_ops env.host ws wl, Formed lay c pos o := by
    unfold last_ops
    simp only [List.forall_mem_cons]
    exact ⟨hr.formed_rmsnorm hcfg _ (hwork _) hs.low.final_norm,
      hr.formed_gemm _ (hwork _) hs.low.lm_head hcfg.D hcfg.vocab_size, hr.formed_argmax hcfg, trivial,
      by simp⟩
  unfold step_ops
  simp only [List.forall_mem_append, List.mem_flatMap, List.mem_range]
  refine ⟨⟨hfirst, ?_⟩, hlast⟩
  rintro o ⟨l, hl, ho⟩
  exact hr.layer_formed hs hl hpos o ho

theorem Room.layer_targets (hr : Room env.dev ws c lay m0) (hs : Suited ws wl c lay) {l : Nat}
    (hl : l < ws.cfg.num_layers) (hpos : pos < 128) :
    ∀ o ∈ layer_ops env.host ws wl c pos l, InTargets lay fpu o := by
  have hcfg := hs.checked
  obtain ⟨room, hw, hroom⟩ := hs.wide
  have hX : lay.size (.work .SCRATCH_X) = room ws.cfg.D := hroom _
  have hlayers : 0 < ws.cfg.num_layers := by omega
  have hhidden : 4 * 896 ≤ lay.size (.work .SCRATCH_X) := hX ▸ hw.hidden
  have hbegin : ∀ h < ws.cfg.num_q_heads, 4 * (h * ws.cfg.head_dim) < lay.size (.work .SCRATCH_X) := by
    intro h hh
    have hrow := hw.queries hlayers h (by omega)
    omega
  have hqkv : ∀ o ∈ qkv_ops env.host ws wl l pos, InTargets lay fpu o := by
    unfold qkv_ops
    simp only [List.forall_mem_cons]
    exact ⟨hr.targets_rmsnorm (s := .SCRATCH_X) hhidden (by decide),
      hr.targets_gemm hcfg (s := .SCRATCH_Q) rfl (by decide),
      hr.targets_add hcfg (s := .SCRATCH_Q) rfl (by decide),
      hr.targets_gemm hcfg (s := .SCRATCH_K) rfl (by decide),
      hr.targets_add hcfg (s := .SCRATCH_K) rfl (by decide),
      hr.targets_gemm hcfg (s := .SCRATCH_V) rfl (by decide),
      hr.targets_add hcfg (s := .SCRATCH_V) rfl (by decide),
      hr.targets_rope (s := .SCRATCH_Q) (hroom .SCRATCH_Q ▸ hw.queries hlayers) (by decide),
      hr.targets_rope (s := .SCRATCH_K) (hroom .SCRATCH_K ▸ hw.keys hlayers) (by decide), by simp⟩
  have hattention : ∀ o ∈ attention_ops env.host ws c l pos, InTargets lay fpu o := by
    unfold attention_ops
    simp only [List.forall_mem_cons]
    exact ⟨hr.targets_qkt hcfg hpos _ _, hr.targets_softmax hcfg hpos,
      hr.targets_pv hbegin (hX ▸ hw.heads hlayers) _, by simp⟩
  have hffn : ∀ o ∈ ffn_ops env.host ws wl l, InTargets lay fpu o := by
    unfold ffn_ops
    simp only [List.forall_mem_cons]
    exact ⟨hr.targets_gemm hcfg (s := .SCRATCH_Q) rfl (by decide),
      hr.targets_add hcfg (s := .RESID_B) rfl (by decide),
      hr.targets_rmsnorm (s := .SCRATCH_X) hhidden (by decide),
      hr.targets_gemm hcfg (s := .SCRATCH_FFN_A) rfl (by decide),
      hr.targets_gemm hcfg (s := .SCRATCH_FFN_B) rfl (by decide),
      hr.targets_silu hcfg (s := .SCRATCH_FFN_A) rfl (by decide),
      hr.targets_vmul hcfg (s := .SCRATCH_FFN_A) rfl (by decide),
      hr.targets_gemm hcfg (s := .SCRATCH_X) rfl (by decide),
      hr.targets_add hcfg (s := .RESID_A) rfl (by decide), by simp⟩
  rw [layer_ops_eq]
  simp only [List.forall_mem_append, List.forall_mem_cons]
  exact ⟨hqkv, trivial, hattention, hffn⟩

/-- Every operation of a step stays in its buffers. -/
theorem Room.step_fits (hr : Room env.dev ws c lay m0) (hs : Suited ws wl c lay) (hpos : pos < 128)
    (tok : Word) : ∀ o ∈ step_ops env.host ws wl c tok pos, Fits lay fpu c pos o := by
  have hcfg := hs.checked
  obtain ⟨room, hw, hroom⟩ := hs.wide
  have hhidden : 4 * 896 ≤ lay.size (.work .SCRATCH_X) := hroom .SCRATCH_X ▸ hw.hidden
  have hturn : 4 * LANES ≤ lay.size (.work .RESID_A) :=
    Nat.le_trans (by decide) (hroom .RESID_A ▸ hw.hidden)
  have hfirst : ∀ o ∈ first_ops ws wl tok, InTargets lay fpu o := by
    unfold first_ops
    simp only [List.forall_mem_cons]
    exact ⟨trivial, hr.targets_embedding hcfg (s := .RESID_A) rfl hturn (by decide), by simp⟩
  have hlast : ∀ o ∈ last_ops env.host ws wl, InTargets lay fpu o := by
    unfold last_ops
    simp only [List.forall_mem_cons]
    exact ⟨hr.targets_rmsnorm (s := .SCRATCH_X) hhidden (by decide),
      hr.targets_gemm hcfg (s := .LOGITS) rfl (by decide), hr.targets_argmax hcfg, trivial, by simp⟩
  have hall : ∀ o ∈ step_ops env.host ws wl c tok pos, InTargets lay fpu o := by
    unfold step_ops
    simp only [List.forall_mem_append, List.mem_flatMap, List.mem_range]
    refine ⟨⟨hfirst, ?_⟩, hlast⟩
    rintro o ⟨l, hl, ho⟩
    exact hr.layer_targets hs hl hpos o ho
  exact fun o ho => ⟨hr.step_formed hs.toAgreed hpos tok o ho, hall o ho⟩

/-! ## A whole step -/

/-- The counters let a step through. -/
def Open (cfg : Config) (kv : KvCache) : Prop :=
  kv.filled < kv.max_seq ∧ ((0 < cfg.num_layers ∧ kv.pending = 0 ∧ kv.num_layers = cfg.num_layers) ∨
    (cfg.num_layers = 0 ∧ 0 < kv.pending ∧ kv.pending = kv.num_layers))

/-- The token that the host reads at the end of a step. -/
def tokenAt (ws : Workspace) (base : Nat) (m : Mem) : Int :=
  (word m (base + ws.off .token_id_buf)).toBitVec.toInt

/-- The code, the cache and the calls after a step, whatever goes wrong in it. -/
def stepOutcome (env : Env) (ws : Workspace) (wl : WeightLoader) (c : KvCache) (tok : Word)
    (st : Run) : Int × KvCache × Nat :=
  outcome env.ok (step_ops env.host ws wl c tok st.kv.filled) st.calls st.kv

/-- The front of a step, before its token comes out. -/
def front_ops (host : Libm) (ws : Workspace) (wl : WeightLoader) (c : KvCache) (tok : Word) (pos : Nat) :
    List Op :=
  first_ops ws wl tok ++ (List.range ws.cfg.num_layers).flatMap (layer_ops host ws wl c pos) ++
    (last_ops host ws wl).take 2

def argmaxArgs (ws : Workspace) : List Nat :=
  [ws.off .LOGITS, ws.cfg.vocab_size, ws.off .token_id_buf, ws.off .argmax_debug]

theorem step_ops_eq (host : Libm) (ws : Workspace) (wl : WeightLoader) (c : KvCache) (tok : Word)
    (pos : Nat) : step_ops host ws wl c tok pos =
      front_ops host ws wl c tok pos ++ [.launch .argmax (argmaxArgs ws) 1, .commit] := by
  simp only [step_ops, front_ops, List.append_assoc]
  rfl

/-- The operations of a step know the cache by its place. -/
theorem step_ops_place {d : KvCache} (h : d.place = c.place) (host : Libm) (tok : Word) :
    step_ops host ws wl d tok pos = step_ops host ws wl c tok pos := by
  have hplace : ∀ e : KvCache, step_ops host ws wl e tok pos = step_ops host ws wl e.place tok pos :=
    fun _ => rfl
  rw [hplace d, h, ← hplace c]

/-- The token that `argmax` leaves has 31 bits, whatever the logits are. -/
theorem Room.argmax_token (hr : Room env.dev ws c lay m0) (hcfg : Checked ws.cfg) (m : Mem) :
    (word (afterLaunch fpu lay .argmax (argmaxArgs ws) 1 m)
      (lay.base + ws.off .token_id_buf)).toNat < 2 ^ 31 := by
  have hlogits := lay.fits (.work .LOGITS)
  have hsmall := hr.small
  have hV : 4 * ws.cfg.vocab_size ≤ 2 ^ 32 := by
    have hle := hr.le_size hcfg .LOGITS
    simp only [floats] at hle
    omega
  have hsize : 4 * 1 ≤ lay.size (.work .token_id_buf) := hr.le_size hcfg .token_id_buf
  have hoff := hr.work .token_id_buf
  have hlow := hr.work_lt .token_id_buf
  unfold afterLaunch
  generalize withArgs lay .argmax (argmaxArgs ws) m = m1
  set logits := vec (rd32 lay.base m1) (ws.off .LOGITS) ws.cfg.vocab_size with hlog
  -- The debug words come after the token, in a buffer of their own.
  have hword : word (store_all lay.base m1 (Kernel.argmax.stores fpu 1 ((argmaxArgs ws).getD · 0)
      (rd32 lay.base m1))) (lay.base + ws.off .token_id_buf) =
      word (put m1 (lay.base + ws.off .token_id_buf) [argmax fpu ws.cfg.vocab_size logits])
        (lay.base + ws.off .token_id_buf) := by
    apply word_congr
    intro i hi
    have hin : lay.In (.work .token_id_buf) (lay.base + ws.off .token_id_buf + i) :=
      ⟨by omega, by omega⟩
    have hstores : Kernel.argmax.stores fpu 1 ((argmaxArgs ws).getD · 0) (rd32 lay.base m1) =
        (ws.off .token_id_buf, [argmax fpu ws.cfg.vocab_size logits]) :: (List.range LANES).map
          fun lane => (ws.off .argmax_debug + lane * 32,
            argmax_debug fpu ws.cfg.vocab_size logits lane) := rfl
    rw [hstores, store_all_cons, store_all_outside]
    · simp only [store_all, List.foldl_cons, List.foldl_nil]
      rw [Nat.mod_eq_of_lt hlow]
    · intro s hs hy
      obtain ⟨b, rfl, hb⟩ := (hr.debug_rows hcfg).mem hs hy
      exact absurd (hin.unique hb) (by decide)
  have hput : word (put m1 (lay.base + ws.off .token_id_buf) [argmax fpu ws.cfg.vocab_size logits])
      (lay.base + ws.off .token_id_buf + 4 * 0) = argmax fpu ws.cfg.vocab_size logits :=
    word_put Nat.one_pos
  rw [Nat.mul_zero, Nat.add_zero] at hput
  rw [hword, hput]
  exact argmax_lt _ (by omega) _

/-- When all operations are made, the token is not negative. -/
theorem Room.token_nonneg (hr : Room env.dev ws c lay m0) (hcfg : Checked ws.cfg) {st st' : Run}
    (h : Sound lay m0 c st) {ops : List Op} (hclean : ∀ o ∈ ops, Clean lay env.dev.fpu c pos o)
    (hready : ReadyAll pos st.kv ops)
    (hrun : run_ops env ws pos (ops ++ [.launch .argmax (argmaxArgs ws) 1, .commit]) st =
      some (TRANSFORMER_OK, st')) : 0 ≤ tokenAt ws lay.base st'.ctx.buddy.mem := by
  obtain ⟨m, hops, hm⟩ := hr.run_spec h hclean hready
  set out := outcome env.ok ops st.calls st.kv with hout
  have h1 : Sound lay m0 c ⟨st.ctx.setMem m, out.2.1, out.2.2⟩ :=
    h.after_all hclean hm (outcome_place ..) _
  obtain ⟨hlen, hargs⟩ : Formed lay c pos (.launch .argmax (argmaxArgs ws) 1) := hr.formed_argmax hcfg
  have htoken : (word (afterLaunch env.dev.fpu lay .argmax (argmaxArgs ws) 1 m)
      (lay.base + ws.off .token_id_buf)).toNat < 2 ^ 31 := hr.argmax_token hcfg m
  have hact : op env ws .argmax (argmaxArgs ws) 1 ⟨st.ctx.setMem m, out.2.1, out.2.2⟩ =
      some (if env.ok out.2.2
        then (TRANSFORMER_OK, launched ⟨st.ctx.setMem m, out.2.1, out.2.2⟩
          (afterLaunch env.dev.fpu lay .argmax (argmaxArgs ws) 1 m))
        else (TRANSFORMER_ERR_LAUNCH, launched ⟨st.ctx.setMem m, out.2.1, out.2.2⟩
          (withArgs lay .argmax (argmaxArgs ws) m))) := hr.op_eq h1 1 hlen hargs
  generalize afterLaunch env.dev.fpu lay .argmax (argmaxArgs ws) 1 m = m2 at htoken hact
  rw [run_ops_append, hops, Option.bind_some] at hrun
  simp only at hrun
  split at hrun
  next herr => exact absurd (congrArg Prod.fst (Option.some.inj hrun)) herr
  next =>
    obtain ⟨⟨rc, st2⟩, hlaunch, hrest⟩ := Option.bind_eq_some_iff.mp hrun
    have hop : op env ws .argmax (argmaxArgs ws) 1 ⟨st.ctx.setMem m, out.2.1, out.2.2⟩ =
      some (rc, st2) := hlaunch
    rw [hact] at hop
    simp only at hrest
    cases hok : env.ok out.2.2 with
    | false =>
      rw [hok] at hop
      cases hop
      rw [if_pos (by decide)] at hrest
      cases hrest
    | true =>
      rw [hok] at hop
      cases hop
      rw [if_neg (by decide)] at hrest
      obtain ⟨⟨rc, st3⟩, hcommit, hlast⟩ := Option.bind_eq_some_iff.mp hrest
      obtain ⟨⟨rc', kv⟩, -, hst3⟩ := Option.map_eq_some_iff.mp
        (show (kv_cache_commit_token out.2.1).map _ = some (rc, st3) from hcommit)
      cases hst3
      have hctx : st'.ctx.buddy.mem = m2 := by
        simp only at hlast
        split at hlast
        all_goals cases hlast
        all_goals rfl
      rw [tokenAt, hctx, int_of_word htoken]
      exact Int.natCast_nonneg _

/-- A call of `transformer_step` at the end of the cache: what it returns and leaves,
whatever goes wrong in it. -/
structure Stepped (env : Env) (ws : Workspace) (wl : WeightLoader) (c : KvCache) (lay : Layout Buf)
    (m0 : Mem) (tok : Int) (st : Run) (r : Int) (st' : Run) : Prop where
  code : transformer_step env ws wl tok st.kv.filled st = some (r, st')
  sound : Sound lay m0 c st'
  counters : (st'.kv, st'.calls) = (stepOutcome env ws wl c (UInt32.ofInt tok) st).2
  token : (stepOutcome env ws wl c (UInt32.ofInt tok) st).1 = TRANSFORMER_OK → 0 ≤ r
  error : (stepOutcome env ws wl c (UInt32.ofInt tok) st).1 ≠ TRANSFORMER_OK →
    r = (stepOutcome env ws wl c (UInt32.ofInt tok) st).1
  ctx : ∃ m, st'.ctx = st.ctx.setMem m
  frame : ∀ y, (∀ o ∈ step_ops env.host ws wl c (UInt32.ofInt tok) st.kv.filled,
    ¬ Touches lay env.dev.fpu c st.kv.filled o y) → st'.ctx.buddy.mem y = st.ctx.buddy.mem y

theorem Agreed.pos_lt (hs : Agreed ws wl c lay) {st : Run} (h : Sound lay m0 c st)
    (hopen : Open ws.cfg st.kv) : st.kv.filled < 128 := by
  have hmax : st.kv.max_seq = 128 := h.place.max_seq.trans hs.max_seq
  exact hmax ▸ hopen.1

/-- When no operation of a step touches the code of a kernel. -/
theorem Room.clean_step (hr : Room env.dev ws c lay m0) (hs : Agreed ws wl c lay) {st : Run}
    (h : Sound lay m0 c st) (hopen : Open ws.cfg st.kv) (tok : Int)
    (hcode : ∀ o ∈ step_ops env.host ws wl c (UInt32.ofInt tok) st.kv.filled, ∀ k y,
      lay.In (.code k) y → ¬ Touches lay env.dev.fpu c st.kv.filled o y) :
    ∃ r st', Stepped env ws wl c lay m0 tok st r st' := by
  have hlt := hs.pos_lt h hopen
  have hpos : (UInt32.ofInt (st.kv.filled : Int)).toNat = st.kv.filled := by
    rw [word_of_int (by omega), UInt32.toNat_ofNat_of_lt' (by simp only [UInt32.size]; omega)]
  generalize hword : UInt32.ofInt tok = w at hcode
  have hclean : ∀ o ∈ step_ops env.host ws wl c w st.kv.filled,
      Clean lay env.dev.fpu c st.kv.filled o :=
    fun o ho => ⟨hr.step_formed hs hlt w o ho, hcode o ho⟩
  have hready : ReadyAll st.kv.filled st.kv (step_ops env.host ws wl c w st.kv.filled) :=
    (ready_step rfl hopen.1 hopen.2).1
  obtain ⟨m, hrun, hm⟩ := hr.run_spec h hclean hready
  have hsound := h.after_all hclean hm
    (outcome_place env.ok (step_ops env.host ws wl c w st.kv.filled) st.calls st.kv)
    (stepOutcome env ws wl c w st).2.2
  replace hrun : run_ops env ws st.kv.filled (step_ops env.host ws wl c w st.kv.filled) st =
      some ((stepOutcome env ws wl c w st).1, ⟨st.ctx.setMem m,
        (stepOutcome env ws wl c w st).2.1, (stepOutcome env ws wl c w st).2.2⟩) := hrun
  have hnonneg : (stepOutcome env ws wl c w st).1 = TRANSFORMER_OK → 0 ≤ tokenAt ws lay.base m := by
    intro hok
    rw [hok] at hrun
    rw [step_ops_eq] at hclean hready hrun
    generalize front_ops env.host ws wl c w st.kv.filled = ops at hclean hready hrun
    have hfront : ∀ o ∈ ops, Clean lay env.dev.fpu c st.kv.filled o := fun o ho =>
      hclean o (List.mem_append_left _ ho)
    rw [readyAll_append] at hready
    have htoken := hr.token_nonneg hs.checked h hfront hready.1 hrun
    exact htoken
  have hoff := hr.work .token_id_buf
  have hfit := lay.fits (.work .token_id_buf)
  have hend := hr.ends
  refine ⟨if (stepOutcome env ws wl c w st).1 = TRANSFORMER_OK then tokenAt ws lay.base m
      else (stepOutcome env ws wl c w st).1,
    ⟨st.ctx.setMem m, (stepOutcome env ws wl c w st).2.1, (stepOutcome env ws wl c w st).2.2⟩,
    ?_, hsound, ?_, ?_, ?_, ⟨m, rfl⟩, ?_⟩
  · generalize stepOutcome env ws wl c w st = out at hrun
    unfold transformer_step
    simp only
    rw [hpos, hword, step_eq hs.layers hs.cache_layers hs.sized h.place, hrun, Option.bind_some]
    simp only
    by_cases hok : out.1 = TRANSFORMER_OK
    · rw [if_neg (not_not.mpr hok), if_pos hok]
      have hread : gpuMemcpy (st.ctx.setMem m) (ws.off .token_id_buf) (fun _ => 0) 4 GPU_MEMCPY_D2H =
          (0, st.ctx.setMem m,
            fun i => if i < 4 then m (lay.base + ws.off .token_id_buf + i) else 0) := by
        have hadd : add64 lay.base (ws.off .token_id_buf) = lay.base + ws.off .token_id_buf :=
          add64_eq (by omega)
        rw [← hadd, ← h.mapped]
        rfl
      rw [hread, if_neg (lt_irrefl (0 : Int))]
      have hword : word (fun i => if i < 4 then m (lay.base + ws.off .token_id_buf + i) else 0) 0 =
          word m (lay.base + ws.off .token_id_buf) := by
        apply word_congr
        intro i hi
        simp [hi]
      simp only [hword, tokenAt]
    · rw [if_pos hok, if_neg hok]
  · rw [hword]
  · rw [hword]
    intro hok
    rw [if_pos hok]
    exact hnonneg hok
  · rw [hword]
    intro herr
    rw [if_neg herr]
  · rw [hword]
    exact hm

theorem Room.step_spec (hr : Room env.dev ws c lay m0) (hs : Suited ws wl c lay) {st : Run}
    (h : Sound lay m0 c st) (hopen : Open ws.cfg st.kv) (tok : Int) :
    ∃ r st', Stepped env ws wl c lay m0 tok st r st' := by
  refine hr.clean_step hs.toAgreed h hopen tok fun o ho => ?_
  exact (hr.clean (hr.step_fits hs (hs.pos_lt h hopen) _ o ho)).code

/-- A step closes its token, or returns the code of a refused call. -/
theorem Stepped.cases {st st' : Run} {tok r : Int} (h : Stepped env ws wl c lay m0 tok st r st')
    (hopen : Open ws.cfg st.kv) :
    (0 ≤ r ∧ st'.kv = { st.kv with filled := st.kv.filled + 1, pending := 0 }) ∨
      r = TRANSFORMER_ERR_ALLOC ∨ r = TRANSFORMER_ERR_LAUNCH := by
  have hkv := congrArg Prod.fst h.counters
  have hcount : count_all st.kv (step_ops env.host ws wl c (UInt32.ofInt tok) st.kv.filled) =
      { st.kv with filled := st.kv.filled + 1, pending := 0 } := (ready_step rfl hopen.1 hopen.2).2
  rcases outcome_cases env.ok (step_ops env.host ws wl c (UInt32.ofInt tok) st.kv.filled) st.calls
    st.kv with ⟨hok, hall⟩ | herr | herr
  · exact .inl ⟨h.token hok, hkv.trans (hall.trans hcount)⟩
  · exact .inr (.inl ((h.error fun hok => by rw [stepOutcome, herr] at hok; cases hok).trans herr))
  · exact .inr (.inr ((h.error fun hok => by rw [stepOutcome, herr] at hok; cases hok).trans herr))

/-! ## After the calls that set the library up -/

variable {T : Nat} {files : WeightFile → Option FileData} {dev : Device} {ctx : GpgpuCtx} {pool : Pool}

theorem Housed.low_off (h : Housed T files dev ws wl c ctx pool) (b : Buf) :
    bufOff ws wl c b < 2 ^ 32 := by
  have hspan := h.carries.good.span_le (h.owns.mem (mem_allBufs b))
  have hpos := span_pos (bufBytes dev ws.cfg c b)
  have hsmall := h.carries.small
  simp only at hspan
  omega

/-- The buffers that a context carries are the room of a step, also when those of the workspace
reach further in their blocks. -/
theorem Housed.room_in (h : Housed T files dev ws wl c ctx pool) {size : Buf → Nat}
    (hsize : ∀ b, size b ≤ span (bufBytes dev ws.cfg c b))
    (hwork : ∀ s, 4 * floats ws.cfg s ≤ size (.work s))
    (hexact : ∀ k, size (.code k) = (dev.binary k).length ∧ size (.args k) = 32) :
    Room dev ws c (layoutAt ws wl c size h.carries h.owns hsize) ctx.buddy.mem := by
  refine ⟨h.carries.small, h.workroom.ends, h.low_off, fun s => rfl, fun e he => ?_,
    fun k => ⟨rfl, (hexact k).1⟩, fun k => ⟨rfl, (hexact k).2⟩, rfl, rfl,
    fun k i hi => h.code k i hi⟩
  rw [scratch_sizes_eq h.checked] at he
  obtain ⟨s, -, rfl⟩ := List.mem_map.mp he
  exact hwork s

theorem Housed.room (h : Housed T files dev ws wl c ctx pool) :
    Room dev ws c h.layout ctx.buddy.mem :=
  h.room_in h.le_span (fun _ => Nat.le_refl _) fun _ => ⟨rfl, rfl⟩

/-- The files lie in their regions, below `2 ^ 32`. -/
theorem Housed.addr_lt (h : Housed T files dev ws wl c ctx pool) {f : WeightFile}
    (hf : f ∈ weight_files) : wl.addr f + expected_bytes f ≤ 2 ^ 32 := by
  obtain ⟨hr, hfits⟩ := place_fits hf
  have hle : wl.region_base (place f).1 + plan_bytes (place f).1 ≤ T :=
    h.owns.le h.carries (mem_allBufs (.region ⟨(place f).1, hr⟩))
  have hsmall := h.carries.small
  rw [(h.loaded f hf).1]
  omega

theorem Housed.low (h : Housed T files dev ws wl c ctx pool) : Low wl := by
  have hembedding := h.addr_lt (f := .embedding) (by decide)
  have hlm_head := h.addr_lt (f := .lm_head) (by decide)
  have hfinal := h.addr_lt (f := .final_norm) (by decide)
  refine ⟨fun l hl t => ?_, ?_, ?_, ?_⟩
  · have hlayer : WeightFile.layer l ∈ weight_files := by
      simp only [weight_files, List.mem_append, List.mem_map, List.mem_range]
      exact Or.inr ⟨l, hl, rfl⟩
    have haddr : wl.layer_base l + WL_LAYER_BYTES ≤ 2 ^ 32 := h.addr_lt hlayer
    have hoff : (TENSOR_TABLE t).offset < WL_LAYER_BYTES := by cases t <;> decide
    unfold tensor_addr
    rw [add64_eq (by omega)]
    omega
  · exact Nat.lt_of_lt_of_le (Nat.lt_add_of_pos_right (by decide)) hembedding
  · exact Nat.lt_of_lt_of_le (Nat.lt_add_of_pos_right (by decide)) hlm_head
  · exact Nat.lt_of_lt_of_le (Nat.lt_add_of_pos_right (by decide)) hfinal

theorem default_wide : Wide transformer_default_config (4 * ·) := by
  refine ⟨?_, ?_, ?_, ?_⟩ <;> decide

end

end gpgpu.desk
