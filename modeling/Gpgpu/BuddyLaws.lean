-- The laws of the buddy allocator. A run makes any calls in any order, and frees
-- only what is live. The invariant `Inv` holds after each call, so the laws below
-- hold after every run, of any length.
import Gpgpu.Lib.Runs
import Gpgpu.BuddyRefine

open memory dyadic links runs

namespace gpgpu.buddy

/-! ## Runs -/

/-- What a caller does: it asks for a block, or gives back the block at an
offset. -/
inductive Call
  | alloc (alloc_size : Nat)
  | free (offset : Nat)

/-- The allocator and its live blocks, each with its offset and its order. -/
structure State where
  allocator : BuddyAllocator
  live : List (Nat × Nat)

namespace State

def liveBlocks (s : State) : Set Block := {c | ∃ p ∈ s.live, c = blk p.1 p.2}

def freeBlocks (s : State) : Set Block :=
  {c | ∃ k < BUDDY_MAX_ORDER, ∃ x ∈ listed s.allocator k, c = blk x k}

end State

def start (mem : Mem) (vram_base size : Nat) : State := ⟨buddy_init mem vram_base size, []⟩

/-- One call. A caller that holds no block at `offset` does not free it. -/
def step (s : State) : Call → Option State
  | .alloc alloc_size => do
    let (offset, b) ← buddy_alloc s.allocator alloc_size
    if offset = NO_OFFSET then
      return ⟨b, s.live⟩
    return ⟨b, (offset, order_of alloc_size) :: s.live⟩
  | .free offset =>
    match s.live.find? (·.1 = offset) with
    | none => some s
    | some c => do
      let b ← buddy_free s.allocator offset
      return ⟨b, s.live.erase c⟩

/-- The memory at `base` is a real one: it is not at `NULL`, and it ends inside
the address space. -/
structure Region (base size : Nat) : Prop where
  pos : 0 < base
  fits : base + size ≤ 2 ^ 64

/-! ## The invariant -/

/-- The allocator holds lists that tile the memory together with the live
blocks, and the order table knows the order of each live block. -/
structure Inv (T : Nat) (s : State) (a : FreeLists) : Prop where
  holds : Holds T s.liveBlocks s.allocator a
  nodup : s.live.Nodup
  orders : ∀ p ∈ s.live, (a.page_order (p.1 / PAGE_SIZE)).toNat = p.2

variable {T : Nat} {s : State} {a : FreeLists}

theorem blk_mem_liveBlocks (s : State) (x k : Nat) : blk x k ∈ s.liveBlocks ↔ (x, k) ∈ s.live := by
  constructor
  · rintro ⟨⟨y, j⟩, hp, he⟩
    obtain ⟨rfl, rfl⟩ := blk_inj.mp he
    exact hp
  · exact fun h => ⟨(x, k), h, rfl⟩

theorem liveBlocks_cons (b : BuddyAllocator) (x k : Nat) (live : List (Nat × Nat)) :
    State.liveBlocks ⟨b, (x, k) :: live⟩ = insert (blk x k) (State.liveBlocks ⟨b, live⟩) := by
  ext c
  simp [State.liveBlocks]

theorem liveBlocks_erase (b : BuddyAllocator) {x k : Nat} {live : List (Nat × Nat)}
    (h : live.Nodup) : State.liveBlocks ⟨b, live.erase (x, k)⟩ =
      State.liveBlocks ⟨b, live⟩ \ {blk x k} := by
  ext c
  simp only [State.liveBlocks, Set.mem_ofPred_eq, Set.mem_sdiff, Set.mem_singleton_iff,
    h.mem_erase_iff]
  constructor
  · rintro ⟨p, ⟨hne, hp⟩, rfl⟩
    exact ⟨⟨p, hp, rfl⟩, fun he => hne (Prod.ext (blk_inj.mp he).1 (blk_inj.mp he).2)⟩
  · rintro ⟨⟨p, hp, rfl⟩, hne⟩
    exact ⟨p, ⟨fun he => hne (by rw [he]), hp⟩, rfl⟩

/-- A live block covers its first page. -/
theorem Inv.covers_first (h : Inv T s a) {p : Nat × Nat} (hp : p ∈ s.live) :
    (blk p.1 p.2).Covers (p.1 / PAGE_SIZE * PAGE_SIZE) := by
  have hdvd := h.holds.tiled.page_dvd (x := p.1) (k := p.2) (Or.inr ⟨p, hp, rfl⟩)
  rw [show p.1 / PAGE_SIZE * PAGE_SIZE = p.1 from Nat.div_mul_cancel hdvd]
  exact Block.covers_lo _

/-- An alloc fails and changes nothing, or takes the block that the lists give. -/
theorem Inv.alloc_spec (h : Inv T s a) (hT : T ≤ 2 ^ 32) (n : Nat) :
    (order_of n = BUDDY_MAX_ORDER ∨ a.alloc (order_of n) = none →
      buddy_alloc s.allocator n = some (NO_OFFSET, s.allocator)) ∧
    ∀ x a', order_of n < BUDDY_MAX_ORDER → a.alloc (order_of n) = some (x, a') →
      x ≠ NO_OFFSET ∧ ∃ b', buddy_alloc s.allocator n = some (x, b') ∧
        Inv T ⟨b', (x, order_of n) :: s.live⟩ a' := by
  obtain ⟨hfail, hsome⟩ := buddy_alloc_eq h.holds n
  have hk := order_of_le n
  refine ⟨hfail, fun x a' hlt ha => ?_⟩
  obtain ⟨htiled, hxL, hord⟩ := h.holds.tiled.alloc hk ha
  have hpage := htiled.page_fits (Or.inr (Or.inl rfl))
  obtain ⟨b', hb, hholds, -, -⟩ := (hsome x a' hlt ha).2 (page_lt hpage hT)
  have hx : x ≠ NO_OFFSET := by
    unfold NO_OFFSET
    omega
  refine ⟨hx, b', hb, ?_, ?_, ?_⟩
  · rw [liveBlocks_cons]
    exact hholds
  · exact List.nodup_cons.mpr ⟨fun hm => hxL ⟨_, hm, rfl⟩, h.nodup⟩
  · intro p hp
    rcases List.mem_cons.mp hp with rfl | hp
    · rw [hord, Function.update_self]
      exact toNat_ofNat_order hlt
    · rw [(h.holds.tiled.alloc_keeps hk ha).live _ ⟨p, hp, rfl⟩ _ (h.covers_first hp)]
      exact h.orders p hp

theorem Inv.alloc (h : Inv T s a) (hT : T ≤ 2 ^ 32) (n : Nat) :
    ∃ s' a', step s (.alloc n) = some s' ∧ Inv T s' a' := by
  obtain ⟨hfail, hsome⟩ := h.alloc_spec hT n
  have hk := order_of_le n
  by_cases hnone : order_of n = BUDDY_MAX_ORDER ∨ a.alloc (order_of n) = none
  · exact ⟨s, a, by simp [step, hfail hnone], h⟩
  · obtain ⟨hlt, hne⟩ := not_or.mp hnone
    obtain ⟨⟨x, a'⟩, ha⟩ := Option.ne_none_iff_exists'.mp hne
    obtain ⟨hx, b', hb, hinv⟩ := hsome x a' (by omega) ha
    exact ⟨_, a', by simp [step, hb, hx], hinv⟩

/-- A free gives the block of an offset back to the lists. -/
theorem Inv.free_spec (h : Inv T s a) (hT : T ≤ 2 ^ 32) {x k : Nat} (hmem : (x, k) ∈ s.live) :
    ∃ b', buddy_free s.allocator x = some b' ∧
      Inv T ⟨b', s.live.erase (x, k)⟩ (a.release (BUDDY_MAX_ORDER + 1) x k) := by
  have hL : blk x k ∈ s.liveBlocks := ⟨_, hmem, rfl⟩
  obtain ⟨b', hb, hholds, -, -⟩ := buddy_free_spec h.holds hT hL (h.orders _ hmem)
  refine ⟨b', hb, ?_, h.nodup.erase _, ?_⟩
  · rw [liveBlocks_erase b' h.nodup]
    exact hholds
  · intro p hp
    obtain ⟨hne, hp⟩ := h.nodup.mem_erase_iff.mp hp
    have hother : blk p.1 p.2 ∈ s.liveBlocks \ {blk x k} :=
      ⟨⟨p, hp, rfl⟩, fun he => hne (Prod.ext (blk_inj.mp he).1 (blk_inj.mp he).2)⟩
    rw [(h.holds.tiled.release_keeps hL).live _ hother _ (h.covers_first hp)]
    exact h.orders p hp

theorem Inv.free (h : Inv T s a) (hT : T ≤ 2 ^ 32) (x : Nat) :
    ∃ s' a', step s (.free x) = some s' ∧ Inv T s' a' := by
  cases hfind : s.live.find? (·.1 = x) with
  | none => exact ⟨s, a, by simp [step, hfind], h⟩
  | some c =>
    obtain ⟨y, k⟩ := c
    obtain rfl : y = x := by simpa using List.find?_some hfind
    obtain ⟨b', hb, hinv⟩ := h.free_spec hT (List.mem_of_find?_eq_some hfind)
    exact ⟨_, _, by simp [step, hfind, hb], hinv⟩

theorem Inv.step (h : Inv T s a) (hT : T ≤ 2 ^ 32) (c : Call) :
    ∃ s' a', buddy.step s c = some s' ∧ Inv T s' a' := by
  cases c with
  | alloc n => exact h.alloc hT n
  | free x => exact h.free hT x

theorem managed_eq {size : Nat} (h : size ≤ 2 ^ 32) :
    managed size = size / PAGE_SIZE * PAGE_SIZE := by
  rw [managed, if_pos (by omega)]
  rfl

theorem start_inv (mem : Mem) {base size : Nat} (hr : Region base size) :
    ∃ a, Inv (managed size) (start mem base size) a := by
  obtain ⟨a, hholds, -, -⟩ := buddy_init_holds mem _ hr.pos hr.fits
  have hlive : (start mem base size).liveBlocks = ∅ := by
    ext c
    simp [State.liveBlocks, start]
  exact ⟨a, by rw [hlive]; exact hholds, List.nodup_nil, by simp [start]⟩

/-- No run faults, and the invariant holds after it. -/
theorem run_inv (mem : Mem) {base size : Nat} (hr : Region base size) (hsize : size ≤ 2 ^ 32)
    (calls : List Call) : ∃ s a, run step (start mem base size) calls = some s ∧
      Inv (size / PAGE_SIZE * PAGE_SIZE) s a := by
  obtain ⟨a, ha⟩ := start_inv mem hr
  rw [managed_eq hsize] at ha
  have hT : size / PAGE_SIZE * PAGE_SIZE ≤ 2 ^ 32 :=
    Nat.le_trans (Nat.div_mul_le_self size PAGE_SIZE) hsize
  obtain ⟨s, hs, a', ha'⟩ := run_keeps
    (I := fun s => ∃ a, Inv (size / PAGE_SIZE * PAGE_SIZE) s a)
    (fun s c ⟨a, h⟩ => by
      obtain ⟨s', a', h1, h2⟩ := h.step hT c
      exact ⟨s', h1, a', h2⟩) ⟨a, ha⟩ calls
  exact ⟨s, a', hs, ha'⟩

/-! ## Tiles and lists -/

/-- The lists, the order table and the live blocks fit together. -/
structure Sound (size : Nat) (s : State) : Prop where
  tiles : Tiling (size / PAGE_SIZE * PAGE_SIZE) (s.freeBlocks ∪ s.liveBlocks)
  apart : ∀ c ∈ s.freeBlocks, c ∉ s.liveBlocks
  once : s.live.Nodup
  aligned : ∀ x k, blk x k ∈ s.freeBlocks ∪ s.liveBlocks → 2 ^ k * PAGE_SIZE ∣ x
  linked : ∀ k < BUDDY_MAX_ORDER, (listed s.allocator k).Nodup ∧
    Dll (node_next s.allocator.mem) (node_prev s.allocator.mem) (s.allocator.free_list k)
      ((listed s.allocator k).map (s.allocator.vram_base + ·))
  orders : ∀ p ∈ s.live, (s.allocator.page_order (p.1 / PAGE_SIZE)).toNat = p.2
  merged : ∀ k < BUDDY_MAX_ORDER, ∀ x ∈ listed s.allocator k,
    x ^^^ (2 ^ k * PAGE_SIZE) ∉ listed s.allocator k

theorem Inv.freeBlocks_eq (h : Inv T s a) : s.freeBlocks = a.blocks := by
  ext c
  constructor
  · rintro ⟨k, hk, x, hx, rfl⟩
    rw [h.holds.listed_eq hk] at hx
    exact ⟨k, x, hx, rfl⟩
  · rintro ⟨k, x, hx, rfl⟩
    have hk := h.holds.tiled.order_lt (blk_free hx)
    exact ⟨k, hk, x, by rwa [h.holds.listed_eq hk], rfl⟩

theorem Inv.sound {size : Nat} (h : Inv (size / PAGE_SIZE * PAGE_SIZE) s a) : Sound size s := by
  have ht := h.holds.tiled
  refine ⟨?_, ?_, h.nodup, ?_, ?_, ?_, ?_⟩
  · rw [h.freeBlocks_eq]
    exact ht.tiling
  · rw [h.freeBlocks_eq]
    exact ht.apart
  · intro x k hx
    rw [h.freeBlocks_eq] at hx
    rw [pow_mul_page]
    exact ht.tiling.aligned _ hx
  · intro k hk
    rw [h.holds.listed_eq hk]
    exact ⟨ht.nodup k, h.holds.shows.lists k hk⟩
  · intro p hp
    rw [h.holds.shows.page_order]
    exact h.orders p hp
  · intro k hk x hx hy
    rw [h.holds.listed_eq hk] at hx hy
    rw [pow_mul_page] at hy
    exact ht.coarse _ ((a.blk_mem_blocks x k).mpr hx) ((a.blk_mem_blocks _ k).mpr hy)

/-- After every run the free and the live blocks tile the memory, every list is
well linked, and no two free blocks are buddies. -/
theorem every_run_keeps_the_blocks_sound (mem : Mem) {base size : Nat} (hr : Region base size)
    (hsize : size ≤ 2 ^ 32) (calls : List Call) :
    ∃ s, run step (start mem base size) calls = some s ∧ Sound size s := by
  obtain ⟨s, a, hs, h⟩ := run_inv mem hr hsize calls
  exact ⟨s, hs, h.sound⟩

theorem blocks_sound_after_a_split : ∃ s,
    run step (start (fun _ => 0) 4096 20480) [.alloc 5000, .alloc 1, .free 0] = some s ∧
      Sound 20480 s :=
  every_run_keeps_the_blocks_sound _ ⟨by decide, by decide⟩ (by decide) _

/-! ## What is live decides what is free -/

/-- The free blocks of two allocators with the same live blocks are the same. -/
theorem Tiled.blocks_unique {L : Set Block} {a' : FreeLists} (h : Tiled T L a)
    (h' : Tiled T L a') : a.blocks = a'.blocks := by
  have hm : ∀ a : FreeLists, ∀ c ∈ a.blocks, 12 ≤ c.exp := by
    rintro a c ⟨k, x, -, rfl⟩
    simp
  exact h.tiling.coarse_unique h'.tiling h.coarse h'.coarse (hm a) (hm a') h.apart h'.apart

/-- With nothing live a list has one block at most: the lower of two would lie
in a larger block of free memory. -/
theorem Tiled.eq_of_mem {x y k : Nat} (h : Tiled T ∅ a) (hx : x ∈ a.free k) (hy : y ∈ a.free k) :
    x = y := by
  by_contra hne
  wlog hlt : x < y generalizing x y
  · exact this hy hx (Ne.symm hne) (by omega)
  have hbx := (a.blk_mem_blocks x k).mpr hx
  have hal := h.tiling.aligned _ (Or.inl hbx)
  have hyT := h.fits (blk_free hy)
  have hxy : x + 2 ^ (k + 12) ≤ y := by
    by_contra hc
    have he := h.tiling.apart _ (blk_free hx) _ (blk_free hy) y
      (by rw [blk_covers]; omega) (Block.covers_lo (blk y k))
    exact hne (blk_inj.mp he).1
  have hfree : FreeOf T ∅ (blk x k).parent := by
    intro z hz
    refine ⟨?_, by simp⟩
    have hpos := Nat.two_pow_pos (k + 12)
    have hz2 : z < min x (x ^^^ 2 ^ (k + 12)) + 2 ^ (k + 12 + 1) := hz.2
    rw [Nat.pow_succ] at hz2
    have := Nat.min_le_left x (x ^^^ 2 ^ (k + 12))
    omega
  have hm : ∀ c ∈ a.blocks, 12 ≤ c.exp := by
    rintro c ⟨j, z, -, rfl⟩
    simp
  obtain ⟨d, hd, hexp, hcov⟩ := h.tiling.exists_holding h.coarse hm (Block.parent_aligned hal)
    (by simp [Block.parent]) hfree
  have hxd := hcov x ((Block.parent_covers hal x).mpr (Or.inl (Block.covers_lo (blk x k))))
  have he := h.tiling.apart _ (blk_free hx) _ (Or.inl hd) x (Block.covers_lo (blk x k)) hxd
  rw [← he] at hexp
  simp [Block.parent] at hexp

theorem Tiled.free_unique {a' : FreeLists} (h : Tiled T ∅ a) (h' : Tiled T ∅ a') (k : Nat) :
    a.free k = a'.free k := by
  have hmem : ∀ x, x ∈ a.free k ↔ x ∈ a'.free k := by
    intro x
    rw [← a.blk_mem_blocks, ← a'.blk_mem_blocks, h.blocks_unique h']
  have hperm := (List.perm_ext_iff_of_nodup (h.nodup k) (h'.nodup k)).mpr hmem
  have hlen : (a.free k).length ≤ 1 := by
    rw [← List.toFinset_card_of_nodup (h.nodup k), Finset.card_le_one]
    exact fun x hx y hy => h.eq_of_mem (List.mem_toFinset.mp hx) (List.mem_toFinset.mp hy)
  match hx : a.free k, hlen with
  | [], _ => rw [hx] at hperm; exact hperm.nil_eq
  | [x], _ => rw [hx] at hperm; exact List.singleton_perm.mp hperm

/-- Two runs that end with the same live blocks end with the same free blocks on
each list. A run that ends with nothing live ends with the lists that
`buddy_init` built. -/
theorem the_free_lists_depend_only_on_what_is_live (mem mem' : Mem) {base base' size : Nat}
    (hr : Region base size) (hr' : Region base' size) (hsize : size ≤ 2 ^ 32)
    (calls calls' : List Call) :
    ∃ s s', run step (start mem base size) calls = some s ∧
      run step (start mem' base' size) calls' = some s' ∧
      ((∀ p, p ∈ s.live ↔ p ∈ s'.live) → ∀ k < BUDDY_MAX_ORDER, ∀ x,
        x ∈ listed s.allocator k ↔ x ∈ listed s'.allocator k) ∧
      (s.live = [] → ∀ k < BUDDY_MAX_ORDER,
        listed s.allocator k = listed (buddy_init mem base size) k) := by
  obtain ⟨s, a, hs, h⟩ := run_inv mem hr hsize calls
  obtain ⟨s', a', hs', h'⟩ := run_inv mem' hr' hsize calls'
  refine ⟨s, s', hs, hs', fun hlive k hk x => ?_, fun hlive k hk => ?_⟩
  · have hL : s.liveBlocks = s'.liveBlocks := by
      ext c
      simp only [State.liveBlocks, hlive]
    rw [h.holds.listed_eq hk, h'.holds.listed_eq hk, ← a.blk_mem_blocks, ← a'.blk_mem_blocks,
      h.holds.tiled.blocks_unique (hL ▸ h'.holds.tiled)]
  · obtain ⟨a0, h0⟩ := start_inv mem hr
    rw [managed_eq hsize] at h0
    have hL : s.liveBlocks = ∅ := by
      ext c
      simp [State.liveBlocks, hlive]
    have hL0 : (start mem base size).liveBlocks = ∅ := by
      ext c
      simp [State.liveBlocks, start]
    have ht := h.holds.tiled
    have ht0 := h0.holds.tiled
    rw [hL] at ht
    rw [hL0] at ht0
    exact (h.holds.listed_eq hk).trans ((ht.free_unique ht0 k).trans (h0.holds.listed_eq hk).symm)

/-- The free lists are back where they were after the two blocks of a run are
freed in the order of their allocation. -/
theorem free_lists_after_two_frees : ∃ s s',
    run step (start (fun _ => 0) 4096 20480) [.alloc 5000, .alloc 1, .free 0, .free 16384] = some s ∧
      run step (start (fun _ => 7) 8192 20480) [] = some s' ∧ s.live = [] ∧
      ∀ k < BUDDY_MAX_ORDER, (∀ x, x ∈ listed s.allocator k ↔ x ∈ listed s'.allocator k) ∧
        listed s.allocator k = listed (buddy_init (fun _ => 0) 4096 20480) k := by
  have hr : Region 4096 20480 := ⟨by decide, by decide⟩
  have hr' : Region 8192 20480 := ⟨by decide, by decide⟩
  obtain ⟨s, s', hs, hs', hsame, hempty⟩ := the_free_lists_depend_only_on_what_is_live (fun _ => 0)
    (fun _ => 7) hr hr' (by decide) [.alloc 5000, .alloc 1, .free 0, .free 16384] []
  have hlive : s.live = [] := by
    have hrun : (run step (start (fun _ => 0) 4096 20480)
      [.alloc 5000, .alloc 1, .free 0, .free 16384]).map State.live = some [] := by decide +kernel
    rw [hs] at hrun
    exact Option.some.inj hrun
  have hlive' : s'.live = [] := by
    cases hs'
    rfl
  have hboth : ∀ p, p ∈ s.live ↔ p ∈ s'.live := by simp [hlive, hlive']
  exact ⟨s, s', hs, hs', hlive, fun k hk => ⟨hsame hboth k hk, hempty hlive k hk⟩⟩

/-! ## When an allocation fails -/

/-- The order of a size is the least that holds it, when there is a list for it. -/
theorem order_of_eq_min {n k : Nat} (hk : IsLeast {j | n ≤ 2 ^ j * PAGE_SIZE} k) :
    order_of n = min k BUDDY_MAX_ORDER := by
  have hle := order_of_le n
  have hn : n ≤ 2 ^ k * PAGE_SIZE := hk.1
  have h1 : order_of n ≤ k := by
    by_contra hc
    have := lt_of_lt_order_of (n := n) (j := k) (by omega)
    omega
  by_cases hlt : order_of n < BUDDY_MAX_ORDER
  · have h2 : k ≤ order_of n := hk.2 (le_order_of hlt)
    omega
  · omega

/-- A block is free of live blocks when it lies apart from each of them. -/
theorem freeOf_live_iff (s : State) (x k : Nat) : FreeOf T s.liveBlocks (blk x k) ↔
    x + 2 ^ k * PAGE_SIZE ≤ T ∧
      ∀ p ∈ s.live, x + 2 ^ k * PAGE_SIZE ≤ p.1 ∨ p.1 + 2 ^ p.2 * PAGE_SIZE ≤ x := by
  rw [freeOf_blk_iff (by rintro c ⟨p, -, rfl⟩; simp)]
  simp only [blk_mem_liveBlocks, Prod.forall]

/-- `buddy_alloc` fails just when the size has no list, or when no aligned place
of that size is free. -/
theorem an_alloc_fails_just_when_no_aligned_place_is_free (mem : Mem) {base size : Nat}
    (hr : Region base size) (hsize : size ≤ 2 ^ 32) (calls : List Call) {n k : Nat}
    (hk : IsLeast {j | n ≤ 2 ^ j * PAGE_SIZE} k) :
    ∃ s offset b, run step (start mem base size) calls = some s ∧
      buddy_alloc s.allocator n = some (offset, b) ∧
      (offset = NO_OFFSET ↔ 20 < k ∨ ¬ ∃ x, 2 ^ k * PAGE_SIZE ∣ x ∧
        x + 2 ^ k * PAGE_SIZE ≤ size / PAGE_SIZE * PAGE_SIZE ∧
        ∀ p ∈ s.live, x + 2 ^ k * PAGE_SIZE ≤ p.1 ∨ p.1 + 2 ^ p.2 * PAGE_SIZE ≤ x) := by
  obtain ⟨s, a, hs, h⟩ := run_inv mem hr hsize calls
  obtain ⟨hfail, hsome⟩ := buddy_alloc_eq h.holds n
  have hT : size / PAGE_SIZE * PAGE_SIZE ≤ 2 ^ 32 :=
    Nat.le_trans (Nat.div_mul_le_self size PAGE_SIZE) hsize
  have hord := order_of_eq_min hk
  simp only [← freeOf_live_iff]
  have hmax : BUDDY_MAX_ORDER = 21 := rfl
  by_cases hbig : 20 < k
  · exact ⟨s, _, _, hs, hfail (Or.inl (by omega)), by simp [hbig]⟩
  · have hok : order_of n = k := by omega
    rw [hok] at hfail hsome
    have hnone := h.holds.tiled.alloc_eq_none_iff (show k < BUDDY_MAX_ORDER by omega)
    simp only [hbig, false_or]
    cases ha : a.alloc k with
    | none => exact ⟨s, _, _, hs, hfail (Or.inr ha), iff_of_true rfl (hnone.mp ha)⟩
    | some r =>
      obtain ⟨x, a'⟩ := r
      obtain ⟨htiled, -, -⟩ := h.holds.tiled.alloc (by omega) ha
      have hpage := htiled.page_fits (Or.inr (Or.inl rfl))
      obtain ⟨b', hb, -⟩ := (hsome x a' (by omega) ha).2 (page_lt hpage hT)
      refine ⟨s, x, b', hs, hb, iff_of_false ?_ fun hno => ?_⟩
      · unfold NO_OFFSET
        omega
      · rw [hnone.mpr hno] at ha
        cases ha

/-- Three pages fit nowhere in four when one of them is live. -/
theorem alloc_fails_beside_a_live_page : ∃ s offset b,
    run step (start (fun _ => 0) 4096 16384) [.alloc 4096] = some s ∧
      buddy_alloc s.allocator 12288 = some (offset, b) ∧
      (offset = NO_OFFSET ↔ 20 < 2 ∨ ¬ ∃ x, 2 ^ 2 * PAGE_SIZE ∣ x ∧
        x + 2 ^ 2 * PAGE_SIZE ≤ 16384 / PAGE_SIZE * PAGE_SIZE ∧
        ∀ p ∈ s.live, x + 2 ^ 2 * PAGE_SIZE ≤ p.1 ∨ p.1 + 2 ^ p.2 * PAGE_SIZE ≤ x) := by
  refine an_alloc_fails_just_when_no_aligned_place_is_free _ ⟨by decide, by decide⟩ (by decide) _
    ⟨by decide, fun j hj => ?_⟩
  have hj' : 12288 ≤ 2 ^ j * 4096 := hj
  by_contra hc
  interval_cases j <;> omega

end gpgpu.buddy
