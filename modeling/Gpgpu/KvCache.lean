-- The key and value cache (lib/src/kv_cache.c). Two buffers on the device hold one
-- row for each layer, head and token; the rows of a token come layer by layer, and a
-- commit closes the token.
import Gpgpu.Lib.Rows
import Gpgpu.Context

open memory

namespace gpgpu.kv

open buddy context

/-- `uint64_t` multiplication. -/
def mul64 (a b : Nat) : Nat := a * b % 2 ^ 64

def SIZEOF_FLOAT : Nat := 4

/-- `kv_cache_t`. The sizes and the two counters are `uint32_t`; the counters stay
below the sizes. -/
structure KvCache where
  num_layers : Nat
  num_kv_heads : Nat
  max_seq : Nat
  head_dim : Nat
  K_dev_off : Nat
  V_dev_off : Nat
  filled : Nat
  pending : Nat

/-- The size of a buffer of the cache, a `size_t`. -/
def total_bytes (num_layers num_kv_heads max_seq head_dim : Nat) : Nat :=
  mul64 (mul64 (mul64 (mul64 num_layers num_kv_heads) max_seq) head_dim) SIZEOF_FLOAT

/-- `kv_cache_create`, where `host_ok` says if the host has memory for the record
and `K_ok`, `V_ok` are handed to the two calls of `gpuMalloc`. The cache is `none`
for `NULL`. -/
def kv_cache_create (ctx : GpgpuCtx) (num_layers num_kv_heads max_seq head_dim : Nat)
    (host_ok K_ok V_ok : Bool) : Option (Option KvCache × GpgpuCtx) :=
  if host_ok = false then some (none, ctx)
  else
    let total_bytes := total_bytes num_layers num_kv_heads max_seq head_dim
    (gpuMalloc ctx total_bytes K_ok).bind fun (K_dev_off, ctx) =>
      if K_dev_off = NO_OFFSET then some (none, ctx)
      else (gpuMalloc ctx total_bytes V_ok).bind fun (V_dev_off, ctx) =>
        if V_dev_off = NO_OFFSET then
          (gpuFree ctx K_dev_off).map fun (_, ctx) => (none, ctx)
        else
          some (some { num_layers, num_kv_heads, max_seq, head_dim, K_dev_off, V_dev_off
                       filled := 0, pending := 0 }, ctx)

def kv_cache_destroy (ctx : GpgpuCtx) (cache : KvCache) : Option GpgpuCtx := do
  let (_, ctx) ← gpuFree ctx cache.K_dev_off
  let (_, ctx) ← gpuFree ctx cache.V_dev_off
  return ctx

/-- The offset of a layer in a buffer. -/
def layer_off (cache : KvCache) (dev_off layer : Nat) : Nat :=
  add64 dev_off (mul64 (mul64 (mul64 (mul64 layer cache.num_kv_heads) cache.max_seq)
    cache.head_dim) SIZEOF_FLOAT)

/-- A failed assertion is `none`. -/
def kv_cache_K_off (cache : KvCache) (layer : Nat) : Option Nat :=
  if layer < cache.num_layers then some (layer_off cache cache.K_dev_off layer) else none

def kv_cache_V_off (cache : KvCache) (layer : Nat) : Option Nat :=
  if layer < cache.num_layers then some (layer_off cache cache.V_dev_off layer) else none

/-- The loop over the heads, from `kh` on. The product `kh * head_dim` is taken in
32 bits. -/
def append_loop (cache : KvCache) (layer_K_base layer_V_base head_stride row_offset : Nat)
    (K_new V_new : Nat → UInt8) : Nat → Nat → GpgpuCtx → Int × GpgpuCtx
  | 0, _, ctx => (0, ctx)
  | n + 1, kh, ctx =>
    let dst_K := add64 (add64 layer_K_base (mul64 kh head_stride)) row_offset
    let dst_V := add64 (add64 layer_V_base (mul64 kh head_stride)) row_offset
    let src := kh * cache.head_dim % 2 ^ 32 * SIZEOF_FLOAT
    let bytes := mul64 cache.head_dim SIZEOF_FLOAT
    let r_K := gpuMemcpy ctx dst_K (fun i => K_new (src + i)) bytes 0
    if r_K.1 < 0 then (-3, r_K.2.1)
    else
      let r_V := gpuMemcpy r_K.2.1 dst_V (fun i => V_new (src + i)) bytes 0
      if r_V.1 < 0 then (-3, r_V.2.1)
      else append_loop cache layer_K_base layer_V_base head_stride row_offset K_new V_new n (kh + 1)
        r_V.2.1

/-- `kv_cache_append_layer`. The host arrays are given by their bytes. -/
def kv_cache_append_layer (ctx : GpgpuCtx) (cache : KvCache) (layer : Nat)
    (K_new V_new : Nat → UInt8) : Option (Int × GpgpuCtx × KvCache) :=
  if cache.filled ≥ cache.max_seq then some (-1, ctx, cache)
  else if layer ≥ cache.num_layers then some (-2, ctx, cache)
  else if layer ≠ cache.pending then some (-2, ctx, cache)
  else do
    let layer_K_base ← kv_cache_K_off cache layer
    let layer_V_base ← kv_cache_V_off cache layer
    let head_stride := mul64 (mul64 cache.max_seq cache.head_dim) SIZEOF_FLOAT
    let row_offset := mul64 (mul64 cache.filled cache.head_dim) SIZEOF_FLOAT
    let r := append_loop cache layer_K_base layer_V_base head_stride row_offset K_new V_new
      cache.num_kv_heads 0 ctx
    if r.1 < 0 then
      return (r.1, r.2, cache)
    return (0, r.2, { cache with pending := cache.pending + 1 })

/-- `kv_cache_commit_token`. A failed assertion is `none`. -/
def kv_cache_commit_token (cache : KvCache) : Option (Int × KvCache) :=
  if cache.pending = 0 then some (-1, cache)
  else if cache.pending ≠ cache.num_layers then some (-2, cache)
  else if cache.filled < cache.max_seq then
    some (0, { cache with pending := 0, filled := cache.filled + 1 })
  else none

/-- `kv_cache_cur_pos`. A failed assertion is `none`. -/
def kv_cache_cur_pos (cache : KvCache) : Option Nat :=
  if cache.filled < cache.max_seq then some cache.filled else none

end gpgpu.kv
