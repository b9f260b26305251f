-- The slab caches (lib/src/slab_cache.c, lib/include/slab_cache.h). A cache cuts
-- pages of the buddy allocator into slots of one size. Its free list runs through
-- the free slots of all its pages, and a record on the host counts them by page.
import Gpgpu.Buddy

open memory

namespace gpgpu.slab

open buddy buddy.BuddyAllocator

/-! ## The data -/

/-- `struct slab_page_meta`. The `next` pointers are the order of a list: the
records lie in host memory, which no other code of the library writes. -/
structure SlabPageMeta where
  page_offset : Nat
  free_count : UInt16
  total_slots : UInt16
deriving DecidableEq

/-- `struct slab_cache`. Its buddy allocator is an argument of each function. -/
structure SlabCache where
  object_size : Nat
  marker : UInt8
  free_list : Nat
  pages : List SlabPageMeta

/-! ## The field of a `struct slab_node` -/

@[irreducible]
def slab_next (m : Mem) (node : Nat) : Nat := load m node 8

@[irreducible]
def set_slab_next (m : Mem) (node v : Nat) : Mem := store m node 8 v

/-! ## `slab_grow` and `slab_cache_init` -/

/-- The loop that puts `n` slots from slot `i` on at the head of the free list. -/
def carve_loop (page_vaddr object_size : Nat) : Nat → Nat → Mem → Nat → Mem × Nat
  | 0, _, m, free_list => (m, free_list)
  | n + 1, i, m, free_list =>
    let node := add64 page_vaddr (i * object_size)
    carve_loop page_vaddr object_size n (i + 1) (set_slab_next m node free_list) node

/-- `slab_grow`, where `malloc_ok` says if the host has memory for the record. -/
def slab_grow (cache : SlabCache) (b : BuddyAllocator) (malloc_ok : Bool) :
    Option (Int × SlabCache × BuddyAllocator) := do
  let (offset, b) ← buddy_alloc b PAGE_SIZE
  if offset = NO_OFFSET then
    return (-1, cache, b)
  if malloc_ok = false then
    let b ← buddy_free b offset
    return (-1, cache, b)
  let total_slots := UInt16.ofNat (PAGE_SIZE / cache.object_size)
  let b ← b.write_order (offset / PAGE_SIZE) cache.marker
  let page_vaddr := add64 offset b.vram_base
  let (mem, free_list) :=
    carve_loop page_vaddr cache.object_size total_slots.toNat 0 b.mem cache.free_list
  return (0, { cache with free_list, pages := ⟨offset, total_slots, total_slots⟩ :: cache.pages },
    { b with mem })

def slab_cache_init (object_size : Nat) (b : BuddyAllocator) (marker : UInt8) (malloc_ok : Bool) :
    Option (Int × SlabCache × BuddyAllocator) := do
  let cache : SlabCache := { object_size, marker, free_list := 0, pages := [] }
  let (grown, cache, b) ← slab_grow cache b malloc_ok
  if grown < 0 then
    return (-1, cache, b)
  return (0, cache, b)

/-! ## `slab_alloc` -/

/-- `offset & ~(PAGE_SIZE - 1)` on 64 bits. -/
def page_of (offset : Nat) : Nat := offset &&& (2 ^ 64 - PAGE_SIZE)

/-- The loop over the records that stops at a page. At the end of the list the
record is `NULL`, and the callers read a field of it, so here it is `none`. -/
def find_meta (pages : List SlabPageMeta) (page_off : Nat) : Option Nat :=
  pages.findIdx? (·.page_offset = page_off)

/-- The first lines of `slab_alloc`, which see to it that the list has a slot. -/
def slab_ready (cache : SlabCache) (b : BuddyAllocator) (malloc_ok : Bool) :
    Option (Int × SlabCache × BuddyAllocator) :=
  if cache.free_list = 0 then slab_grow cache b malloc_ok else some (0, cache, b)

/-- The lines of `slab_alloc` that take the first slot of the list. -/
def take_slot (cache : SlabCache) (b : BuddyAllocator) : Option (Nat × SlabCache) :=
  if cache.free_list = 0 then none
  else do
    let offset := sub64 cache.free_list b.vram_base
    let i ← find_meta cache.pages (page_of offset)
    return (offset, { cache with
      free_list := slab_next b.mem cache.free_list
      pages := cache.pages.modify i fun m => { m with free_count := m.free_count - 1 } })

def slab_alloc (cache : SlabCache) (b : BuddyAllocator) (malloc_ok : Bool) :
    Option (Nat × SlabCache × BuddyAllocator) := do
  let (grown, cache, b) ← slab_ready cache b malloc_ok
  if grown = -1 then
    return (NO_OFFSET, cache, b)
  let (offset, cache) ← take_slot cache b
  return (offset, cache, b)

/-! ## `slab_free` -/

/-- The loop that takes the slots between two addresses off the free list. -/
def drop_loop (page_lo page_hi : Nat) : Nat → Mem → Nat → Nat → Nat → Option (Mem × Nat)
  | 0, _, _, _, _ => none
  | n + 1, m, free_list, fprev, fcurr =>
    if fcurr = 0 then some (m, free_list)
    else
      let fnext := slab_next m fcurr
      if fcurr ≥ page_lo ∧ fcurr < page_hi then
        if fprev ≠ 0 then
          drop_loop page_lo page_hi n (set_slab_next m fprev fnext) free_list fprev fnext
        else drop_loop page_lo page_hi n m fnext fprev fnext
      else drop_loop page_lo page_hi n m free_list fcurr fnext

/-- The loop that looks for a record other than the one at place `i`. -/
def has_other (pages : List SlabPageMeta) (i : Nat) : Bool :=
  (List.range pages.length).any (· ≠ i)

/-- The lines of `slab_free` that give a page back to the buddy allocator. -/
def slab_shrink (cache : SlabCache) (b : BuddyAllocator) (i : Nat) (pm : SlabPageMeta) :
    Option (SlabCache × BuddyAllocator) := do
  let page_lo := add64 pm.page_offset b.vram_base
  let page_hi := add64 page_lo PAGE_SIZE
  let (mem, free_list) ←
    drop_loop page_lo page_hi SEARCH_TURNS b.mem cache.free_list 0 cache.free_list
  let b ← { b with mem }.write_order (pm.page_offset / PAGE_SIZE) 0
  let b ← buddy_free b pm.page_offset
  return ({ cache with free_list, pages := cache.pages.eraseIdx i }, b)

/-- `slab_free`. It always returns 0. -/
def slab_free (cache : SlabCache) (b : BuddyAllocator) (offset : Nat) :
    Option (SlabCache × BuddyAllocator) := do
  let node := add64 offset b.vram_base
  let b := { b with mem := set_slab_next b.mem node cache.free_list }
  let i ← find_meta cache.pages (page_of offset)
  let cache := { cache with
    free_list := node
    pages := cache.pages.modify i fun m => { m with free_count := m.free_count + 1 } }
  let pm ← cache.pages[i]?
  if pm.free_count = pm.total_slots ∧ has_other cache.pages i then
    slab_shrink cache b i pm
  else return (cache, b)

end gpgpu.slab
