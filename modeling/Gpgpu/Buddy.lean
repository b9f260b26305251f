-- The buddy allocator (lib/src/buddy.c, lib/include/buddy.h). The nodes of its
-- free lists lie in the memory that it hands out, so the model keeps that
-- memory byte by byte and follows the pointers in it.
import Gpgpu.Lib.Memory

open memory

namespace gpgpu.buddy

/-! ## The data -/

def BUDDY_MAX_ORDER : Nat := 21

def BUDDY_TOTAL_PAGES : Nat := 1048576

def PAGE_SIZE : Nat := 4096

/-- The value `(uint64_t)-1` that a failed call returns. -/
def NO_OFFSET : Nat := 2 ^ 64 - 1

/-- `uint64_t` addition. -/
def add64 (a b : Nat) : Nat := (a + b) % 2 ^ 64

/-- `uint64_t` subtraction. -/
def sub64 (a b : Nat) : Nat := (a + (2 ^ 64 - b)) % 2 ^ 64

/-- `struct buddy_allocator`, with the memory that its pointers point into. A
pointer is an address, and 0 is `NULL`. -/
structure BuddyAllocator where
  free_list : Nat → Nat
  page_order : Nat → UInt8
  vram_base : Nat
  mem : Mem

/-! ## The fields of a `struct buddy_node` -/

@[irreducible]
def node_prev (m : Mem) (node : Nat) : Nat := load m node 8

@[irreducible]
def node_next (m : Mem) (node : Nat) : Nat := load m (node + 8) 8

@[irreducible]
def set_prev (m : Mem) (node v : Nat) : Mem := store m node 8 v

@[irreducible]
def set_next (m : Mem) (node v : Nat) : Mem := store m (node + 8) 8 v

namespace BuddyAllocator

/-! ## Array accesses

An access outside its array is undefined in C. Here it is `none`, and so is a
call that makes it. -/

def head (b : BuddyAllocator) (order : Nat) : Option Nat :=
  if order < BUDDY_MAX_ORDER then some (b.free_list order) else none

def read_order (b : BuddyAllocator) (page : Nat) : Option UInt8 :=
  if page < BUDDY_TOTAL_PAGES then some (b.page_order page) else none

def write_order (b : BuddyAllocator) (page : Nat) (order : UInt8) : Option BuddyAllocator :=
  if page < BUDDY_TOTAL_PAGES then
    some { b with page_order := Function.update b.page_order page order }
  else none

/-! ## The edits of a list -/

/-- The four lines by which `buddy_init` and `buddy_alloc` put a node at the
head of a list. -/
def push_front (b : BuddyAllocator) (order node : Nat) : BuddyAllocator :=
  let m := set_prev b.mem node 0
  let m := set_next m node (b.free_list order)
  let m := if b.free_list order ≠ 0 then set_prev m (b.free_list order) node else m
  { b with mem := m, free_list := Function.update b.free_list order node }

/-- The lines by which `buddy_alloc` takes the head off a list. -/
def pop_front (b : BuddyAllocator) (i : Nat) : BuddyAllocator :=
  let rest := node_next b.mem (b.free_list i)
  { b with
    free_list := Function.update b.free_list i rest
    mem := if rest ≠ 0 then set_prev b.mem rest 0 else b.mem }

/-- The lines by which `buddy_free` puts a node back. They set the head before
they read `node->next` again. -/
def put_back (b : BuddyAllocator) (order node : Nat) : BuddyAllocator :=
  let m := set_prev b.mem node 0
  let m := set_next m node (b.free_list order)
  { b with
    free_list := Function.update b.free_list order node
    mem := if node_next m node ≠ 0 then set_prev m (node_next m node) node else m }

/-- The lines by which `buddy_free` takes a node out of the middle of a list. -/
def unlink (b : BuddyAllocator) (order temp : Nat) : BuddyAllocator :=
  let b1 :=
    if node_prev b.mem temp ≠ 0 then
      { b with mem := set_next b.mem (node_prev b.mem temp) (node_next b.mem temp) }
    else { b with free_list := Function.update b.free_list order (node_next b.mem temp) }
  if node_next b1.mem temp ≠ 0 then
    { b1 with mem := set_prev b1.mem (node_next b1.mem temp) (node_prev b1.mem temp) }
  else b1

end BuddyAllocator

open BuddyAllocator

/-! ## `buddy_init` -/

/-- The loop over the orders, from `n - 1` down to 0. -/
def buddy_init_loop (b : BuddyAllocator) (offset remaining : Nat) : Nat → BuddyAllocator
  | 0 => b
  | order + 1 =>
    let block_size := 2 ^ order * PAGE_SIZE
    if remaining ≥ block_size then
      buddy_init_loop (b.push_front order (add64 b.vram_base offset)) (offset + block_size)
        (remaining - block_size) order
    else buddy_init_loop b offset remaining order

/-- `buddy_init` over the memory `mem`. It always returns 0. -/
def buddy_init (mem : Mem) (vram_base size : Nat) : BuddyAllocator :=
  buddy_init_loop { free_list := fun _ => 0, page_order := fun _ => 0, vram_base, mem } 0 size
    BUDDY_MAX_ORDER

/-! ## `buddy_alloc` -/

/-- A loop that counts up from `i` for at most `n` turns and stops at the first
number with `stop`. -/
def scan_loop (stop : Nat → Bool) : Nat → Nat → Nat
  | 0, i => i
  | n + 1, i => if stop i then i else scan_loop stop n (i + 1)

/-- The order that `buddy_alloc` computes for a size: the least that holds it,
or `BUDDY_MAX_ORDER`. -/
def order_of (alloc_size : Nat) : Nat :=
  scan_loop (fun order => 2 ^ order * PAGE_SIZE ≥ alloc_size) BUDDY_MAX_ORDER 0

/-- The first list from `order` on that is not empty, or `BUDDY_MAX_ORDER`. -/
def first_list (b : BuddyAllocator) (order : Nat) : Nat :=
  scan_loop (fun i => b.free_list i ≠ 0) (BUDDY_MAX_ORDER - order) order

/-- The loop that splits the block at `left` from order `i` down to `order`. -/
def split_loop (b : BuddyAllocator) (left order : Nat) : Nat → BuddyAllocator
  | 0 => b
  | i + 1 =>
    if i + 1 > order then
      split_loop (b.push_front i (add64 left (2 ^ i * PAGE_SIZE))) left order i
    else b

def buddy_alloc (b : BuddyAllocator) (alloc_size : Nat) : Option (Nat × BuddyAllocator) := do
  let order := order_of alloc_size
  if order = BUDDY_MAX_ORDER then
    return (NO_OFFSET, b)
  let i := first_list b order
  if i = BUDDY_MAX_ORDER then
    return (NO_OFFSET, b)
  let left := b.free_list i
  let b := split_loop (b.pop_front i) left order i
  let offset := sub64 left b.vram_base
  let b ← b.write_order (offset / PAGE_SIZE) (UInt8.ofNat order)
  return (offset, b)

/-! ## `buddy_free` -/

/-- The turns that the search of a list may take. A list with no cycle has
fewer nodes than there are addresses, so a search that takes more never ends. -/
def SEARCH_TURNS : Nat := 2 ^ 64

/-- The search for `buddy_vaddr` from the node `temp` on. It gives the node, or
`NULL` at the end of the list. -/
def search_loop (m : Mem) (buddy_vaddr : Nat) : Nat → Nat → Option Nat
  | 0, _ => none
  | n + 1, temp =>
    if temp = 0 then some 0
    else if temp = buddy_vaddr then some temp
    else search_loop m buddy_vaddr n (node_next m temp)

/-- `buddy_free` with at most `n` calls of itself. -/
def buddy_free_calls : Nat → BuddyAllocator → Nat → Option BuddyAllocator
  | 0, _, _ => none
  | n + 1, b, offset => do
    let order := (← b.read_order (offset / PAGE_SIZE)).toNat
    let list ← b.head order
    let buddy_offset := offset ^^^ (2 ^ order * PAGE_SIZE)
    let buddy_vaddr := add64 buddy_offset b.vram_base
    let temp ← search_loop b.mem buddy_vaddr SEARCH_TURNS list
    if temp = 0 then
      return b.put_back order (add64 offset b.vram_base)
    let merged_offset := min offset buddy_offset
    let b ← (b.unlink order temp).write_order (merged_offset / PAGE_SIZE) (UInt8.ofNat (order + 1))
    buddy_free_calls n b merged_offset

/-- `buddy_free`. Each call of itself reads an order one larger than the call
before, and an order past the last list is `none`, so no run has more calls
than this. It always returns 0. -/
def buddy_free (b : BuddyAllocator) (offset : Nat) : Option BuddyAllocator :=
  buddy_free_calls (BUDDY_MAX_ORDER + 1) b offset

end gpgpu.buddy
