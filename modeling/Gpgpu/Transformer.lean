-- The decoder (lib/src/transformer.c). A workspace has the buffers, the kernels and
-- their arguments on the device; a step takes one token through all layers and
-- returns the next one.
import Gpgpu.Device
import Gpgpu.Weights

open memory words

namespace gpgpu.transformer

open buddy context kernels device kv weights

/-! ## The data -/

def TRANSFORMER_OK : Int := 0

def TRANSFORMER_ERR_ALLOC : Int := -2

def TRANSFORMER_ERR_LAUNCH : Int := -4

def TRANSFORMER_ERR_CACHE : Int := -5

def TRANSFORMER_ERR_IO : Int := -6

def TRANSFORMER_ERR_SINCOS : Int := -7

/-- `transformer_config_t`. -/
structure Config where
  D : Nat
  intermediate : Nat
  num_layers : Nat
  num_q_heads : Nat
  num_kv_heads : Nat
  head_dim : Nat
  vocab_size : Nat
  max_seq : Nat
  S_max : Nat
  rms_norm_eps : Word
  rope_theta : Word

/-- The floats are `1e-6f` and `1000000.0f`. -/
def transformer_default_config : Config :=
  { D := 896, intermediate := 4864, num_layers := 24, num_q_heads := 14, num_kv_heads := 2
    head_dim := 64, vocab_size := 151936, max_seq := 128, S_max := 1
    rms_norm_eps := 0x358637BD, rope_theta := 0x49742400 }

/-- The float functions of the host. -/
structure Libm where
  ofNat : Nat → Word
  mul : Word → Word → Word
  div : Word → Word → Word
  sub : Word → Word → Word
  sqrtf : Word → Word
  powf : Word → Word → Word
  cosf : Word → Word
  sinf : Word → Word
  fabsf : Word → Word
  gt : Word → Word → Bool

/-- The buffers of a workspace. -/
inductive Scratch
  | RESID_A | RESID_B | SCRATCH_X | SCRATCH_Q | SCRATCH_K | SCRATCH_V | SCRATCH_SCORES
  | SCRATCH_FFN_A | SCRATCH_FFN_B | LOGITS | sincos | token_id_buf | argmax_debug
deriving DecidableEq

/-- `transformer_workspace_t`. The context, the loader and the cache that it borrows
are handed to the functions beside it. -/
structure Workspace where
  cfg : Config
  off : Scratch → Nat
  kbin : Kernel → Nat
  args : Kernel → Nat

/-! ## The table of sines and cosines -/

/-- The frequency of pair `k`. -/
def sincos_freq (host : Libm) (rope_theta : Word) (head_dim k : Nat) : Word :=
  host.div ONE (host.powf rope_theta
    (host.div (host.mul 0x40000000 (host.ofNat k)) (host.ofNat head_dim)))

def sincos_table (host : Libm) (rope_theta : Word) (max_pos head_dim : Nat) : List Word :=
  (List.range (max_pos * head_dim)).map fun i =>
    let angle := host.mul (host.ofNat (i / head_dim))
      (sincos_freq host rope_theta head_dim (i % head_dim / 2))
    if i % 2 = 0 then host.cosf angle else host.sinf angle

/-- `compute_sincos_table`: the error and the table. A failed assertion is `none`. A
`head_dim` from `2 ^ 31` on is negative as an `int`. -/
def compute_sincos_table (host : Libm) (rope_theta : Word) (max_pos head_dim : Nat)
    (calloc_ok : Bool) : Option (Int × List Word) :=
  if ¬ (0 < head_dim ∧ head_dim < 2 ^ 31 ∧ head_dim % 2 = 0) then none
  else if calloc_ok = false then some (TRANSFORMER_ERR_ALLOC, [])
  else if ¬ head_dim / 2 ≤ 64 then none
  else
    let table := sincos_table host rope_theta max_pos head_dim
    let far := fun x => host.gt (host.fabsf x) 0x358637BD
    -- At position 0 every cosine is 1 and every sine is 0.
    if (List.range (head_dim / 2)).any fun k =>
        far (host.sub (table.getD (k * 2) 0) ONE) || far (table.getD (k * 2 + 1) 0) then
      some (TRANSFORMER_ERR_SINCOS, [])
    else some (TRANSFORMER_OK, table)

/-! ## `transformer_init` and `transformer_destroy` -/

/-- What the host does for `transformer_init`: memory for the workspace, for the
records of the caches in `gpuMalloc`, for the table and for the zeros, and whole
kernel files. -/
structure InitIo where
  calloc_ok : Bool
  scratch_ok : Scratch → Bool
  read_ok : Kernel → Bool
  code_ok : Kernel → Bool
  args_ok : Kernel → Bool
  sincos_ok : Bool
  zero_ok : Bool

/-- The buffers in the order of their allocation, with their sizes. -/
def scratch_sizes (cfg : Config) : List (Scratch × Nat) :=
  let kv_dim := cfg.num_kv_heads * cfg.head_dim % 2 ^ 32
  [(.RESID_A, mul64 (mul64 cfg.S_max cfg.D) 4),
    (.RESID_B, mul64 (mul64 cfg.S_max cfg.D) 4),
    (.SCRATCH_X, mul64 (mul64 cfg.S_max cfg.D) 4),
    (.SCRATCH_Q, mul64 (mul64 cfg.S_max cfg.D) 4),
    (.SCRATCH_K, mul64 (mul64 cfg.S_max kv_dim) 4),
    (.SCRATCH_V, mul64 (mul64 cfg.S_max kv_dim) 4),
    (.SCRATCH_SCORES, mul64 (mul64 cfg.num_q_heads cfg.max_seq) 4),
    (.SCRATCH_FFN_A, mul64 (mul64 cfg.S_max cfg.intermediate) 4),
    (.SCRATCH_FFN_B, mul64 (mul64 cfg.S_max cfg.intermediate) 4),
    (.LOGITS, mul64 cfg.vocab_size 4),
    (.sincos, mul64 (mul64 cfg.max_seq cfg.head_dim) 4),
    (.token_id_buf, 4),
    (.argmax_debug, 1024)]

/-- The kernels in the order in which they are loaded. -/
def kernel_list : List Kernel :=
  [.rmsnorm, .gemm, .broadcast_add, .silu, .vmul, .rope, .embedding_lookup, .argmax,
    .qkt_decode, .softmax_decode, .pv_decode]

/-- One call of `gpuMalloc` for each entry; none of them is skipped. -/
def alloc_each {κ : Type} [DecidableEq κ] (ok : κ → Bool) :
    List (κ × Nat) → GpgpuCtx → (κ → Nat) → Option (GpgpuCtx × (κ → Nat))
  | [], ctx, off => some (ctx, off)
  | (k, size) :: rest, ctx, off =>
    (gpuMalloc ctx size (ok k)).bind fun (x, ctx) =>
      alloc_each ok rest ctx (Function.update off k x)

def load_kernel_bin (binary : List UInt8) (ctx : GpgpuCtx) (read_ok malloc_ok : Bool) :
    Option (Nat × GpgpuCtx) :=
  if binary.length = 0 ∨ read_ok = false then some (NO_OFFSET, ctx)
  else
    (gpuMalloc ctx binary.length malloc_ok).bind fun (off, ctx) =>
      if off = NO_OFFSET then some (NO_OFFSET, ctx)
      else
        let r := gpuMemcpy ctx off (fun i => binary.getD i 0) binary.length GPU_MEMCPY_H2D
        if r.1 < 0 then (gpuFree r.2.1 off).map fun q => (NO_OFFSET, q.2)
        else some (off, r.2.1)

/-- One call of `load_kernel_bin` for each kernel; none of them is skipped. -/
def load_each (dev : Device) (io : InitIo) :
    List Kernel → GpgpuCtx → (Kernel → Nat) → Option (GpgpuCtx × (Kernel → Nat))
  | [], ctx, kbin => some (ctx, kbin)
  | k :: rest, ctx, kbin =>
    (load_kernel_bin (dev.binary k) ctx (io.read_ok k) (io.code_ok k)).bind fun (x, ctx) =>
      load_each dev io rest ctx (Function.update kbin k x)

/-- The fields that `transformer_destroy` looks at, list by list. -/
def destroy_fields (ws : Workspace) : List Nat :=
  [ws.off .RESID_A, ws.off .RESID_B, ws.off .SCRATCH_X, ws.off .SCRATCH_Q, ws.off .SCRATCH_K,
    ws.off .SCRATCH_V, ws.off .SCRATCH_SCORES, ws.off .SCRATCH_FFN_A, ws.off .SCRATCH_FFN_B,
    ws.off .LOGITS, ws.off .sincos, ws.off .token_id_buf, ws.off .argmax_debug] ++
  [ws.kbin .rmsnorm, ws.kbin .gemm, ws.kbin .broadcast_add, ws.kbin .silu, ws.kbin .vmul,
    ws.kbin .rope, ws.kbin .embedding_lookup, ws.kbin .argmax, ws.kbin .qkt_decode,
    ws.kbin .softmax_decode, ws.kbin .pv_decode] ++
  [ws.args .rmsnorm, ws.args .gemm, ws.args .broadcast_add, ws.args .silu, ws.args .vmul,
    ws.args .rope, ws.args .embedding_lookup, ws.args .argmax, ws.args .qkt_decode,
    ws.args .softmax_decode, ws.args .pv_decode]

def transformer_destroy (ctx : GpgpuCtx) (ws : Workspace) : Option GpgpuCtx :=
  free_all (destroy_fields ws) ctx

/-- The way out at `fail`. -/
def init_fail (ctx : GpgpuCtx) (ws : Workspace) : Option (Option Workspace × GpgpuCtx) :=
  (transformer_destroy ctx ws).map fun ctx => (none, ctx)

/-- The table goes to the device and the residual buffers become zero. -/
def init_tables (host : Libm) (io : InitIo) (ctx : GpgpuCtx) (ws : Workspace) :
    Option (Option Workspace × GpgpuCtx) :=
  (compute_sincos_table host ws.cfg.rope_theta ws.cfg.max_seq ws.cfg.head_dim io.sincos_ok).bind
    fun (err, table) =>
      if err ≠ TRANSFORMER_OK then init_fail ctx ws
      else
        let r := gpuMemcpy ctx (ws.off .sincos) (bytesOf table)
          (mul64 (mul64 ws.cfg.max_seq ws.cfg.head_dim) 4) GPU_MEMCPY_H2D
        if r.1 < 0 then init_fail r.2.1 ws
        else if io.zero_ok = false then some (some ws, r.2.1)
        else
          let resid_bytes := mul64 (mul64 ws.cfg.S_max ws.cfg.D) 4
          let r := gpuMemcpy r.2.1 (ws.off .RESID_A) (fun _ => 0) resid_bytes GPU_MEMCPY_H2D
          let r := gpuMemcpy r.2.1 (ws.off .RESID_B) (fun _ => 0) resid_bytes GPU_MEMCPY_H2D
          some (some ws, r.2.1)

/-- `transformer_init`. The workspace is `none` for `NULL`. Every offset that is not
yet set is `NO_OFFSET`, which is `OFF_INVALID`. -/
def transformer_init (dev : Device) (host : Libm) (io : InitIo) (ctx : GpgpuCtx) (kv : KvCache)
    (cfg : Config) : Option (Option Workspace × GpgpuCtx) :=
  if cfg.S_max ≠ 1 then some (none, ctx)
  else if cfg.max_seq ≠ 128 then some (none, ctx)
  else if cfg.max_seq ≠ kv.max_seq then some (none, ctx)
  else if io.calloc_ok = false then some (none, ctx)
  else
    (alloc_each io.scratch_ok (scratch_sizes cfg) ctx fun _ => NO_OFFSET).bind fun (ctx, off) =>
      let ws : Workspace := ⟨cfg, off, fun _ => NO_OFFSET, fun _ => NO_OFFSET⟩
      if (scratch_sizes cfg).any fun e => off e.1 = NO_OFFSET then init_fail ctx ws
      else (load_each dev io kernel_list ctx fun _ => NO_OFFSET).bind fun (ctx, kbin) =>
        if kernel_list.any fun k => kbin k = NO_OFFSET then init_fail ctx { ws with kbin }
        else (alloc_each io.args_ok (kernel_list.map (·, 32)) ctx fun _ => NO_OFFSET).bind
          fun (ctx, args) =>
            if kernel_list.any fun k => args k = NO_OFFSET then
              init_fail ctx { ws with kbin, args }
            else init_tables host io ctx { ws with kbin, args }

/-! ## Launches -/

/-- The state of a step: the context, the cache, and how many of the calls that the
host can refuse have been made. -/
structure Run where
  ctx : GpgpuCtx
  kv : KvCache
  calls : Nat

/-- The device, the host, and which of the calls that the host can refuse go well. -/
structure Env where
  dev : Device
  host : Libm
  ok : Nat → Bool

/-- A step of a function that returns an error code. -/
abbrev Action := Run → Option (Int × Run)

/-- The actions one by one. The first error code ends them. -/
def seq : List Action → Action
  | [], st => some (TRANSFORMER_OK, st)
  | f :: fs, st => (f st).bind fun (rc, st) =>
    if rc ≠ TRANSFORMER_OK then some (rc, st) else seq fs st

variable (env : Env) (ws : Workspace)

def launch_op (kbin args_off : Nat) (args : List Word) (grid : Nat) : Action := fun st =>
  let r := gpuMemcpy st.ctx args_off (bytesOf args) (4 * args.length) GPU_MEMCPY_H2D
  if r.1 < 0 then some (Prod.mk TRANSFORMER_ERR_IO { st with ctx := r.2.1 })
  else (gpuLaunchKernel env.dev r.2.1 kbin args_off grid (env.ok st.calls)).map fun (rc, ctx) =>
    (if rc < 0 then TRANSFORMER_ERR_LAUNCH else TRANSFORMER_OK,
      { st with ctx, calls := st.calls + 1 })

/-- `calc_dispatch_1warp_per_block`, its first number. -/
def calc_dispatch (total : Nat) : Nat := (total + 31) % 2 ^ 32 / 32

/-- An operation: the kernel with its own binary and its own arguments. A `uint64_t`
offset is cut to the 32 bits of its field. -/
def op (k : Kernel) (args : List Nat) (grid : Nat) : Action :=
  launch_op env (ws.kbin k) (ws.args k) (args.map UInt32.ofNat) grid

def op_rmsnorm (in_off out_off weight_off : Nat) : Action :=
  op env ws .rmsnorm [in_off, out_off, weight_off, ws.cfg.D,
    (env.host.div ONE (env.host.ofNat ws.cfg.D)).toNat, ws.cfg.rms_norm_eps.toNat] 1

def op_gemm (a_off b_off c_off M K N : Nat) : Action :=
  op env ws .gemm [a_off, b_off, c_off, M, K, N] (calc_dispatch (M * N % 2 ^ 32))

def op_broadcast_add (x_off b_off y_off M N : Nat) : Action :=
  op env ws .broadcast_add [x_off, y_off, b_off, M, N] (calc_dispatch (M * N % 2 ^ 32))

def op_silu (in_off out_off D : Nat) : Action :=
  op env ws .silu [in_off, out_off, D] (calc_dispatch D)

/-- A failed assertion is `none`. -/
def op_vmul (a_off b_off c_off num : Nat) : Action := fun st =>
  if num % 32 ≠ 0 then none else op env ws .vmul [a_off, b_off, c_off, num] 1 st

def op_rope (x_off num_heads token_pos : Nat) : Action :=
  op env ws .rope [x_off, ws.off .sincos, num_heads, ws.cfg.head_dim, token_pos] 1

def op_embedding (table_off out_off : Nat) : Action :=
  op env ws .embedding_lookup [table_off, ws.off .token_id_buf, out_off, ws.cfg.D, ws.cfg.D / 32] 1

def op_argmax : Action :=
  op env ws .argmax [ws.off .LOGITS, ws.cfg.vocab_size, ws.off .token_id_buf, ws.off .argmax_debug] 1

/-- A division by zero is `none`. -/
def op_qkt_decode (Q_off K_cache_off scores_off cur_pos : Nat) (scale : Word) : Action := fun st =>
  if ws.cfg.num_kv_heads = 0 then none
  else op env ws .qkt_decode [Q_off, K_cache_off, scores_off, cur_pos, ws.cfg.max_seq, ws.cfg.head_dim,
    ws.cfg.num_q_heads / ws.cfg.num_kv_heads, scale.toNat] ws.cfg.num_q_heads st

def op_softmax_decode (scores_off cur_pos : Nat) : Action :=
  op env ws .softmax_decode [scores_off, cur_pos, ws.cfg.max_seq] ws.cfg.num_q_heads

/-- A division by zero is `none`. -/
def op_pv_decode (P_off V_cache_off O_off cur_pos : Nat) : Action := fun st =>
  if ws.cfg.num_kv_heads = 0 then none
  else op env ws .pv_decode [P_off, V_cache_off, O_off, cur_pos, ws.cfg.max_seq, ws.cfg.head_dim,
    ws.cfg.num_q_heads / ws.cfg.num_kv_heads] ws.cfg.num_q_heads st

/-! ## One step -/

/-- `kv_append_from_device`. A failed assertion is `none`. -/
def kv_append_from_device (layer cur_pos K_dev_off V_dev_off : Nat) : Action := fun st => do
  let pos ← kv_cache_cur_pos st.kv
  if cur_pos ≠ pos then none
  else if (env.ok st.calls && env.ok (st.calls + 1)) = false then
    some (TRANSFORMER_ERR_ALLOC, { st with calls := st.calls + 2 })
  else
    let st := { st with calls := st.calls + 2 }
    let nbytes := ws.cfg.num_kv_heads * ws.cfg.head_dim % 2 ^ 32 * 4
    let K_host := gpuMemcpy st.ctx K_dev_off (fun _ => 0) nbytes GPU_MEMCPY_D2H
    let V_host := gpuMemcpy st.ctx V_dev_off (fun _ => 0) nbytes GPU_MEMCPY_D2H
    if K_host.1 < 0 ∨ V_host.1 < 0 then some (Prod.mk TRANSFORMER_ERR_IO st)
    else
      (kv_cache_append_layer st.ctx st.kv layer K_host.2.2 V_host.2.2).map fun (rc, ctx, kv) =>
        (if rc ≠ 0 then TRANSFORMER_ERR_CACHE else TRANSFORMER_OK, { st with ctx, kv })

/-- An action that needs the address of a tensor of a layer. -/
def with_tensor (wl : WeightLoader) (layer : Nat) (t : Tensor) (f : Nat → Action) : Action :=
  fun st => (weight_loader_layer wl layer t).bind fun off => f off st

/-- Actions 1 to 9 of `transformer_decoder_layer`: the query, the key and the value. -/
def qkv_actions (wl : WeightLoader) (layer pos : Nat) : List Action :=
  let tensor := with_tensor wl layer
  let D := ws.cfg.D
  let kv_dim := ws.cfg.num_kv_heads * ws.cfg.head_dim % 2 ^ 32
  [tensor .input_norm fun w => op_rmsnorm env ws (ws.off .RESID_A) (ws.off .SCRATCH_X) w,
    tensor .q_proj_w fun w => op_gemm env ws (ws.off .SCRATCH_X) w (ws.off .SCRATCH_Q) 1 D D,
    tensor .q_proj_b fun b => op_broadcast_add env ws (ws.off .SCRATCH_Q) b (ws.off .SCRATCH_Q) 1 D,
    tensor .k_proj_w fun w => op_gemm env ws (ws.off .SCRATCH_X) w (ws.off .SCRATCH_K) 1 D kv_dim,
    tensor .k_proj_b fun b =>
      op_broadcast_add env ws (ws.off .SCRATCH_K) b (ws.off .SCRATCH_K) 1 kv_dim,
    tensor .v_proj_w fun w => op_gemm env ws (ws.off .SCRATCH_X) w (ws.off .SCRATCH_V) 1 D kv_dim,
    tensor .v_proj_b fun b =>
      op_broadcast_add env ws (ws.off .SCRATCH_V) b (ws.off .SCRATCH_V) 1 kv_dim,
    op_rope env ws (ws.off .SCRATCH_Q) ws.cfg.num_q_heads pos,
    op_rope env ws (ws.off .SCRATCH_K) ws.cfg.num_kv_heads pos]

/-- Actions 10 to 13: the cache takes in the key and the value, and the query looks at
all of them. -/
def attend_actions (layer pos : Nat) : List Action :=
  let scale := env.host.div ONE (env.host.sqrtf (env.host.ofNat ws.cfg.head_dim))
  [kv_append_from_device env ws layer pos (ws.off .SCRATCH_K) (ws.off .SCRATCH_V),
    fun st => (kv_cache_K_off st.kv layer).bind fun K =>
      op_qkt_decode env ws (ws.off .SCRATCH_Q) K (ws.off .SCRATCH_SCORES) pos scale st,
    op_softmax_decode env ws (ws.off .SCRATCH_SCORES) pos,
    fun st => (kv_cache_V_off st.kv layer).bind fun V =>
      op_pv_decode env ws (ws.off .SCRATCH_SCORES) V (ws.off .SCRATCH_X) pos st]

/-- Actions 14 to 22: the output of the attention, the feed-forward part, and the two
residuals. -/
def ffn_actions (wl : WeightLoader) (layer : Nat) : List Action :=
  let tensor := with_tensor wl layer
  let D := ws.cfg.D
  let I := ws.cfg.intermediate
  [tensor .o_proj_w fun w => op_gemm env ws (ws.off .SCRATCH_X) w (ws.off .SCRATCH_Q) 1 D D,
    op_broadcast_add env ws (ws.off .RESID_A) (ws.off .SCRATCH_Q) (ws.off .RESID_B) 1 D,
    tensor .post_norm fun w => op_rmsnorm env ws (ws.off .RESID_B) (ws.off .SCRATCH_X) w,
    tensor .gate_proj_w fun w => op_gemm env ws (ws.off .SCRATCH_X) w (ws.off .SCRATCH_FFN_A) 1 D I,
    tensor .up_proj_w fun w => op_gemm env ws (ws.off .SCRATCH_X) w (ws.off .SCRATCH_FFN_B) 1 D I,
    op_silu env ws (ws.off .SCRATCH_FFN_A) (ws.off .SCRATCH_FFN_A) I,
    op_vmul env ws (ws.off .SCRATCH_FFN_A) (ws.off .SCRATCH_FFN_B) (ws.off .SCRATCH_FFN_A) I,
    tensor .down_proj_w fun w => op_gemm env ws (ws.off .SCRATCH_FFN_A) w (ws.off .SCRATCH_X) 1 I D,
    op_broadcast_add env ws (ws.off .RESID_B) (ws.off .SCRATCH_X) (ws.off .RESID_A) 1 D]

def transformer_decoder_layer (wl : WeightLoader) (layer pos : Nat) : Action :=
  seq (qkv_actions env ws wl layer pos ++ attend_actions env ws layer pos ++
    ffn_actions env ws wl layer)

/-- The token goes to the device. -/
def write_token (tok : Word) : Action := fun st =>
  let r := gpuMemcpy st.ctx (ws.off .token_id_buf) (bytesOf [tok]) 4 GPU_MEMCPY_H2D
  some (if r.1 < 0 then TRANSFORMER_ERR_IO else TRANSFORMER_OK, { st with ctx := r.2.1 })

/-- The cache closes the token. -/
def commit_token : Action := fun st =>
  (kv_cache_commit_token st.kv).map fun (rc, kv) =>
    (if rc < 0 then TRANSFORMER_ERR_CACHE else TRANSFORMER_OK, { st with kv })

/-- The actions of `transformer_step` before it reads the result. -/
def step_actions (wl : WeightLoader) (tok : Word) (pos : Nat) : List Action :=
  [write_token ws tok, op_embedding env ws (weight_loader_embedding wl) (ws.off .RESID_A)] ++
  (List.range ws.cfg.num_layers).map (fun layer => transformer_decoder_layer env ws wl layer pos) ++
  [op_rmsnorm env ws (ws.off .RESID_A) (ws.off .SCRATCH_X) (weight_loader_final_norm wl),
    op_gemm env ws (ws.off .SCRATCH_X) (weight_loader_lm_head wl) (ws.off .LOGITS) 1 ws.cfg.D
      ws.cfg.vocab_size,
    op_argmax env ws,
    commit_token]

/-- `transformer_step`. The step number for dumps plays no part in a build without
dumps. -/
def transformer_step (wl : WeightLoader) (input_token_id cur_pos : Int) : Action := fun st =>
  let tok := UInt32.ofInt input_token_id
  let pos := (UInt32.ofInt cur_pos).toNat
  (seq (step_actions env ws wl tok pos) st).bind fun (rc, st) =>
    if rc ≠ TRANSFORMER_OK then some (rc, st)
    else
      let r := gpuMemcpy st.ctx (ws.off .token_id_buf) (fun _ => 0) 4 GPU_MEMCPY_D2H
      if r.1 < 0 then some (Prod.mk TRANSFORMER_ERR_IO st)
      else some ((word r.2.2 0).toBitVec.toInt, st)

/-- The calls of `transformer_step` for a list of tokens from position `pos` on, with
what they return. -/
def decode (wl : WeightLoader) : Nat → List Nat → Run → Option (List Int × Run)
  | _, [], st => some ([], st)
  | pos, x :: xs, st => do
    let (r, st) ← transformer_step env ws wl x pos st
    let (rs, st) ← decode wl (pos + 1) xs st
    return (r :: rs, st)

end gpgpu.transformer
