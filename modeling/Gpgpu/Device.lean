-- A launch. The device finds the code of a kernel and its arguments in its memory;
-- each kernel reads vectors there and stores vectors. Addresses have 32 bits.
import Gpgpu.Kernels
import Gpgpu.Context

open memory words

namespace gpgpu.device

open buddy context kernels

/-- The kernels, under the names of their binaries. -/
inductive Kernel
  | rmsnorm | gemm | broadcast_add | silu | vmul | rope | embedding_lookup | argmax
  | qkt_decode | softmax_decode | pv_decode
deriving DecidableEq

/-- What one launch stores: vectors with their addresses. -/
abbrev Stores := List (Nat × List Word)

/-- The stores of a launch of `grid` blocks of one warp. `arg i` is word `i` of the
arguments, and `rd` reads the memory as the launch finds it. -/
def Kernel.stores (fpu : Fpu) (grid : Nat) (arg : Nat → Nat) (rd : Nat → Word) : Kernel → Stores
  | .rmsnorm =>
    let (in_off, out_off, weight_off) := (arg 0, arg 1, arg 2)
    let n := LANES * PER_LANE
    [(out_off, kernels.rmsnorm fpu (UInt32.ofNat (arg 4)) (UInt32.ofNat (arg 5)) (vec rd in_off n)
      (vec rd weight_off n))]
  | .gemm =>
    let (a_off, b_off, c_off, M, K, N) := (arg 0, arg 1, arg 2, arg 3, arg 4, arg 5)
    [(c_off, (kernels.gemm fpu M K N (vec rd a_off (M * K)) (vec rd b_off (K * N))).take
      (grid * LANES))]
  | .broadcast_add =>
    let (x_off, y_off, b_off, M, N) := (arg 0, arg 1, arg 2, arg 3, arg 4)
    [(y_off, (kernels.broadcast_add fpu M N (vec rd x_off (M * N)) (vec rd b_off N)).take
      (grid * LANES))]
  | .silu =>
    let (in_off, out_off, D) := (arg 0, arg 1, arg 2)
    [(out_off, (kernels.silu fpu D (vec rd in_off D)).take (grid * LANES))]
  | .vmul =>
    let (a_off, b_off, c_off, num) := (arg 0, arg 1, arg 2, arg 3)
    [(c_off, kernels.vmul fpu num (vec rd a_off num) (vec rd b_off num))]
  | .rope =>
    let (x_off, sincos_off, num_heads, head_dim, token_pos) :=
      (arg 0, arg 1, arg 2, arg 3, arg 4)
    let cs := vec rd (sincos_off + token_pos * head_dim * 4) (2 * LANES)
    -- The loop over the heads tests at its end.
    (List.range (max 1 num_heads)).map fun h =>
      let head := x_off + h * head_dim * 4
      (head, rope_head fpu cs (vec rd head (2 * LANES)))
  | .embedding_lookup =>
    let (table_base, token_id_buf, output_base, D, elems_per_lane) :=
      (arg 0, arg 1, arg 2, arg 3, arg 4)
    let row := table_base + (rd token_id_buf).toNat * D * 4
    -- The loop over the elements of a lane tests at its end.
    [(output_base, vec rd row (max 1 elems_per_lane * LANES))]
  | .argmax =>
    let (logits_base, V, out_base, debug_base) := (arg 0, arg 1, arg 2, arg 3)
    let logits := vec rd logits_base V
    (out_base, [kernels.argmax fpu V logits]) ::
      (List.range LANES).map fun lane => (debug_base + lane * 32, argmax_debug fpu V logits lane)
  | .qkt_decode =>
    let (Q_off, K_cache_off, scores_off, cur_pos) := (arg 0, arg 1, arg 2, arg 3)
    let (max_seq, head_dim, q_per_kv, scale) := (arg 4, arg 5, arg 6, UInt32.ofNat (arg 7))
    (List.range grid).map fun qh =>
      let q := vec rd (Q_off + qh * head_dim * 4) head_dim
      let table := K_cache_off + kv_head qh q_per_kv * head_dim * max_seq * 4
      (scores_off + qh * max_seq * 4, (List.range (cur_pos + 1)).map fun j =>
        score fpu scale head_dim q (vec rd (table + head_dim * j * 4) head_dim))
  | .softmax_decode =>
    let (scores_off, cur_pos, max_seq) := (arg 0, arg 1, arg 2)
    (List.range grid).map fun qh =>
      let row := scores_off + qh * max_seq * 4
      (row, softmax_row fpu (vec rd row (cur_pos + 1)))
  | .pv_decode =>
    let (P_off, V_cache_off, O_off, cur_pos) := (arg 0, arg 1, arg 2, arg 3)
    let (max_seq, head_dim, q_per_kv) := (arg 4, arg 5, arg 6)
    (List.range grid).map fun qh =>
      let p := vec rd (P_off + qh * max_seq * 4) (cur_pos + 1)
      let table := V_cache_off + kv_head qh q_per_kv * max_seq * head_dim * 4
      (O_off + qh * head_dim * 4, pv_row fpu head_dim p
        ((List.range (cur_pos + 1)).map fun j => vec rd (table + j * (head_dim * 4)) head_dim))

/-- A device: its float instructions, the binaries of the kernels, and which kernel a
piece of code is. The binaries tell the kernels apart. -/
structure Device where
  fpu : Fpu
  binary : Kernel → List UInt8
  decode : (Nat → UInt8) → Option Kernel
  decode_binary : ∀ k code, (∀ i < (binary k).length, code i = (binary k).getD i 0) →
    decode code = some k

/-- The word at a device address. -/
def rd32 (base : Nat) (m : Mem) (a : Nat) : Word := word m (base + a % 2 ^ 32)

/-- The memory after the stores of a launch. -/
def store_all (base : Nat) (m : Mem) (stores : Stores) : Mem :=
  stores.foldl (fun m s => put m (base + s.1 % 2 ^ 32) s.2) m

/-- `gpuLaunchKernel` with blocks of one warp. The call of the driver returns when the
device is done, and fails when `ioctl_ok` is false. Code that is no kernel is `none`. -/
def gpuLaunchKernel (dev : Device) (ctx : GpgpuCtx) (kernel_addr args grid : Nat)
    (ioctl_ok : Bool) : Option (Int × GpgpuCtx) :=
  if ioctl_ok = false then some (-1, ctx)
  else do
    let m := ctx.buddy.mem
    let k ← dev.decode fun i => m (ctx.vram_mmap + kernel_addr % 2 ^ 32 + i)
    let arg := fun i => (rd32 ctx.vram_mmap m (args + 4 * i)).toNat
    let stores := k.stores dev.fpu grid arg (rd32 ctx.vram_mmap m)
    return (0, ctx.setMem (store_all ctx.vram_mmap m stores))

end gpgpu.device
