-- The library context (lib/libgpgpu.c, lib/libgpgpu.h). Sizes up to 2048 bytes go
-- to one of six slab caches and larger ones to the buddy allocator; a free finds
-- its way back by the mark that the order table has for the page.
import Gpgpu.Slab

open memory

namespace gpgpu.context

open buddy slab

/-! ## The data -/

/-- The slab caches of a context. -/
inductive Slab
  | slab_32 | slab_64 | slab_128 | slab_256 | slab_512 | slab_2048
deriving DecidableEq

def PAGE_ORDER_SLAB_32 : UInt8 := 0xF0

def PAGE_ORDER_SLAB_64 : UInt8 := 0xF1

def PAGE_ORDER_SLAB_128 : UInt8 := 0xF2

def PAGE_ORDER_SLAB_256 : UInt8 := 0xF3

def PAGE_ORDER_SLAB_512 : UInt8 := 0xF4

def PAGE_ORDER_SLAB_2048 : UInt8 := 0xF5

def GPU_MEMCPY_H2D : Int := 0

def GPU_MEMCPY_D2H : Int := 1

/-- The value `(void *)-1` that a failed `mmap` returns. -/
def MAP_FAILED : Nat := 2 ^ 64 - 1

/-- `gpgpu_ctx`. The memory of the device is in `buddy.mem`. -/
structure GpgpuCtx where
  fd : Int
  vram_mmap : Nat
  vram_size : Nat
  buddy : BuddyAllocator
  slabs : Slab → SlabCache

/-! ## The ways to a cache -/

/-- The cache of a mark. `none` is `NULL`. -/
def get_slab (marker : UInt8) : Option Slab :=
  if marker = PAGE_ORDER_SLAB_32 then some .slab_32
  else if marker = PAGE_ORDER_SLAB_64 then some .slab_64
  else if marker = PAGE_ORDER_SLAB_128 then some .slab_128
  else if marker = PAGE_ORDER_SLAB_256 then some .slab_256
  else if marker = PAGE_ORDER_SLAB_512 then some .slab_512
  else if marker = PAGE_ORDER_SLAB_2048 then some .slab_2048
  else none

/-- The cache for a size. Its mark, which no caller reads, is left out. -/
def route_slab (size : Nat) : Option Slab :=
  if size ≤ 32 then some .slab_32
  else if size ≤ 64 then some .slab_64
  else if size ≤ 128 then some .slab_128
  else if size ≤ 256 then some .slab_256
  else if size ≤ 512 then some .slab_512
  else if size ≤ 2048 then some .slab_2048
  else none

/-- The object size that `gpuInit` gives to a cache. -/
def slabSize : Slab → Nat
  | .slab_32 => 32
  | .slab_64 => 64
  | .slab_128 => 128
  | .slab_256 => 256
  | .slab_512 => 512
  | .slab_2048 => 2048

/-- The mark that `gpuInit` gives to a cache. -/
def slabMarker : Slab → UInt8
  | .slab_32 => PAGE_ORDER_SLAB_32
  | .slab_64 => PAGE_ORDER_SLAB_64
  | .slab_128 => PAGE_ORDER_SLAB_128
  | .slab_256 => PAGE_ORDER_SLAB_256
  | .slab_512 => PAGE_ORDER_SLAB_512
  | .slab_2048 => PAGE_ORDER_SLAB_2048

namespace GpgpuCtx

/-- The context after a call has changed one cache and the allocator. -/
def setSlab (ctx : GpgpuCtx) (i : Slab) (cache : SlabCache) (b : BuddyAllocator) : GpgpuCtx :=
  { ctx with buddy := b, slabs := Function.update ctx.slabs i cache }

end GpgpuCtx

/-! ## `gpuInit` -/

/-- The calls of `slab_cache_init`, one by one. The first that fails ends them. -/
def init_slabs (malloc_ok : Slab → Bool) : List Slab → GpgpuCtx → Option (Int × GpgpuCtx)
  | [], ctx => some (0, ctx)
  | i :: rest, ctx => do
    let (r, cache, b) ← slab_cache_init (slabSize i) ctx.buddy (slabMarker i) (malloc_ok i)
    if r < 0 then
      return (-1, ctx.setSlab i cache b)
    init_slabs malloc_ok rest (ctx.setSlab i cache b)

/-- `gpuInit`, where `fd` and `vram_mmap` are what `open` and `mmap` return and
`malloc_ok` says if the host has memory for the first record of a cache. -/
def gpuInit (ctx : GpgpuCtx) (fd : Int) (vram_mmap : Nat) (malloc_ok : Slab → Bool)
    (vram_size : Nat) : Option (Int × GpgpuCtx) :=
  if fd < 0 then some (-1, { ctx with vram_size, fd })
  else if vram_mmap = MAP_FAILED then some (-1, { ctx with vram_size, fd, vram_mmap })
  else init_slabs malloc_ok [.slab_32, .slab_64, .slab_128, .slab_256, .slab_512, .slab_2048]
    { ctx with vram_size, fd, vram_mmap, buddy := buddy_init ctx.buddy.mem vram_mmap vram_size }

/-! ## `gpuMalloc` and `gpuFree` -/

def gpuMalloc (ctx : GpgpuCtx) (size : Nat) (malloc_ok : Bool) : Option (Nat × GpgpuCtx) :=
  match route_slab size with
  | some i => do
    let (offset, cache, b) ← slab_alloc (ctx.slabs i) ctx.buddy malloc_ok
    return (offset, ctx.setSlab i cache b)
  | none => do
    let (offset, b) ← buddy_alloc ctx.buddy size
    return (offset, { ctx with buddy := b })

def gpuFree (ctx : GpgpuCtx) (offset : Nat) : Option (Int × GpgpuCtx) := do
  let page_idx := offset / PAGE_SIZE % 2 ^ 32
  let marker ← ctx.buddy.read_order page_idx
  match get_slab marker with
  | some i => do
    let (cache, b) ← slab_free (ctx.slabs i) ctx.buddy offset
    return (0, ctx.setSlab i cache b)
  | none => do
    let b ← buddy_free ctx.buddy offset
    return (0, { ctx with buddy := b })

/-! ## `gpuMemcpy` -/

/-- The context with other bytes in its memory. -/
def GpgpuCtx.setMem (ctx : GpgpuCtx) (m : Mem) : GpgpuCtx :=
  { ctx with buddy := { ctx.buddy with mem := m } }

/-- `gpuMemcpy`. The host buffer `src` goes in, and comes out as the call leaves
it. -/
def gpuMemcpy (ctx : GpgpuCtx) (dst : Nat) (src : Nat → UInt8) (size : Nat) (direction : Int) :
    Int × GpgpuCtx × (Nat → UInt8) :=
  if direction = GPU_MEMCPY_H2D then
    (0, ctx.setMem (copy ctx.buddy.mem (add64 ctx.vram_mmap dst) src size), src)
  else if direction = GPU_MEMCPY_D2H then
    (0, ctx, fun i => if i < size then ctx.buddy.mem (add64 ctx.vram_mmap dst + i) else src i)
  else (-1, ctx, src)

end gpgpu.context
