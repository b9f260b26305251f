-- The library with nothing live. Each cache keeps one page and all other pages are on
-- the buddy lists, but which pages the caches keep depends on the calls that were made.
import Gpgpu.PoolLaws

open memory dyadic runs

namespace gpgpu.context

open buddy slab

variable {T : Nat} {pool : Pool} {ctx : GpgpuCtx}

/-! ## One page for each cache -/

theorem slotsOf_nil (i : Slab) : slotsOf [] i = ∅ := by
  ext x
  simp [slotsOf]

/-- The page of a cache of which no slot is live is its only one. -/
theorem Good.idle_pages (h : Good T pool) (hcalm : Calm pool) (hlive : pool.live = []) (i : Slab) :
    ∃ p, (pool.caches i).pages = [p] := by
  obtain ⟨p, ps, hp⟩ := List.exists_cons_of_ne_nil (hcalm i).some_page
  have hmem : p ∈ (pool.caches i).pages := by simp [hp]
  refine ⟨p, (hcalm i).only p hmem (((h.sound i).freeIn_eq_iff hmem).mpr ?_)⟩
  rw [hlive, slotsOf_nil]
  exact fun x hx => absurd hx (by simp)

/-- A cache of which no slot is live has a free slot. -/
theorem Good.idle_free (h : Good T pool) (hcalm : Calm pool) (hlive : pool.live = []) (i : Slab) :
    (pool.caches i).free ≠ [] := by
  obtain ⟨p, hp⟩ := h.idle_pages hcalm hlive i
  have hmem : p ∈ (pool.caches i).pages := by simp [hp]
  have hdvd := (h.sound i).aligned p hmem
  have hslot : (pool.caches i).IsSlot p := by
    refine ⟨(h.sound i).size.dvd.trans hdvd, ?_⟩
    rwa [pageOf, Nat.div_mul_cancel hdvd]
  have hfree : p ∈ (pool.caches i).free := by
    rw [(h.sound i).mem_free, hlive, slotsOf_nil]
    exact ⟨hslot, by simp⟩
  exact List.ne_nil_of_mem hfree

/-- With nothing live the buddy lists count only the pages of the caches as live. -/
theorem poolBlocks_idle (hlive : pool.live = []) :
    poolBlocks pool.caches pool.live = {d | ∃ j, d ∈ pageBlocks (pool.caches j)} := by
  ext d
  simp [poolBlocks, bigBlocks, hlive]

/-! ## No page is lost -/

/-- All caches. -/
def allSlabs : List Slab := [.slab_32, .slab_64, .slab_128, .slab_256, .slab_512, .slab_2048]

theorem mem_allSlabs (i : Slab) : i ∈ allSlabs := by
  cases i <;> decide

/-- The pages on the free lists, as a walk of the lists meets them. -/
def freePages (b : BuddyAllocator) : Nat :=
  ((List.range BUDDY_MAX_ORDER).map fun k => (listed b k).length * 2 ^ k).sum

/-- The blocks on the lists, and the pages of the caches. -/
def blockList (a : FreeLists) : List Block :=
  (List.range BUDDY_MAX_ORDER).flatMap fun k => (a.free k).map (blk · k)

def pageList (caches : Slab → Cache) : List Block :=
  allSlabs.flatMap fun i => (caches i).pages.map (blk · 0)

theorem Tiled.mem_blockList {L : Set Block} {a : FreeLists} (h : Tiled T L a) (d : Block) :
    d ∈ blockList a ↔ d ∈ a.blocks := by
  simp only [blockList, List.mem_flatMap, List.mem_range, List.mem_map]
  constructor
  · rintro ⟨k, -, x, hx, rfl⟩
    exact (a.blk_mem_blocks x k).mpr hx
  · rintro ⟨k, x, hx, rfl⟩
    exact ⟨k, h.order_lt (blk_free hx), x, hx, rfl⟩

theorem mem_pageList (caches : Slab → Cache) (d : Block) :
    d ∈ pageList caches ↔ ∃ j, d ∈ pageBlocks (caches j) := by
  simp only [pageList, List.mem_flatMap, List.mem_map]
  constructor
  · rintro ⟨j, -, x, hx, rfl⟩
    exact ⟨j, x, hx, rfl⟩
  · rintro ⟨j, x, hx, rfl⟩
    exact ⟨j, mem_allSlabs j, x, hx, rfl⟩

theorem Tiled.nodup_blockList {L : Set Block} {a : FreeLists} (h : Tiled T L a) :
    (blockList a).Nodup := by
  unfold blockList
  rw [List.nodup_flatMap]
  refine ⟨fun k _ => (h.nodup k).map fun x y he => (blk_inj.mp he).1, ?_⟩
  refine List.nodup_range.imp fun {j k} hne => ?_
  rw [Function.onFun, List.disjoint_left]
  intro d hj hk
  obtain ⟨x, -, rfl⟩ := List.mem_map.mp hj
  obtain ⟨y, -, he⟩ := List.mem_map.mp hk
  exact hne (blk_inj.mp he).2.symm

theorem Good.nodup_pageList (h : Good T pool) : (pageList pool.caches).Nodup := by
  unfold pageList
  rw [List.nodup_flatMap]
  refine ⟨fun i _ => (h.sound i).pages_nodup.map fun x y he => (blk_inj.mp he).1, ?_⟩
  refine (show allSlabs.Nodup by decide).imp fun {i j} hne => ?_
  rw [Function.onFun, List.disjoint_left]
  intro d hi hj
  obtain ⟨x, hx, rfl⟩ := List.mem_map.mp hi
  obtain ⟨y, hy, he⟩ := List.mem_map.mp hj
  rw [(blk_inj.mp he).1] at hy
  exact hne (h.marked.unique ((h.sound i).aligned x hx) hx hy)

/-- The sizes of the blocks on the lists add up to the pages on them. -/
theorem sum_blockList (a : FreeLists) : ((blockList a).map fun b => 2 ^ b.exp).sum =
    ((List.range BUDDY_MAX_ORDER).map fun k => (a.free k).length * 2 ^ k).sum * PAGE_SIZE := by
  unfold blockList
  rw [List.map_flatMap, List.flatMap_def, List.sum_flatten, List.map_map, ← List.sum_map_mul_right]
  congr 1
  refine List.map_congr_left fun k _ => ?_
  have hconst : ((a.free k).map fun x => 2 ^ (blk x k).exp).sum =
      (a.free k).length * 2 ^ (k + 12) := by
    simp [List.map_const']
  simp only [Function.comp_apply, List.map_map]
  rw [Nat.mul_assoc, pow_mul_page, ← hconst]
  rfl

/-- With nothing live, all pages but one for each cache are on the lists. -/
theorem Carries.idle_freePages (h : Carries T ctx pool) (hcalm : Calm pool)
    (hlive : pool.live = []) : (freePages ctx.buddy + 6) * PAGE_SIZE = T := by
  have ht := h.good.tiled
  rw [poolBlocks_idle hlive] at ht
  have hdisjoint : (blockList pool.lists).Disjoint (pageList pool.caches) := by
    rw [List.disjoint_left]
    intro d hd hp
    rw [Tiled.mem_blockList ht] at hd
    exact ht.apart d hd ((mem_pageList _ d).mp hp)
  have hnodup : (blockList pool.lists ++ pageList pool.caches).Nodup :=
    (Tiled.nodup_blockList ht).append h.good.nodup_pageList hdisjoint
  have hsum := ht.tiling.sum_eq (B := (blockList pool.lists ++ pageList pool.caches).toFinset) (by
    intro d
    rw [List.mem_toFinset, List.mem_append, Tiled.mem_blockList ht, mem_pageList]
    rfl)
  rw [List.sum_toFinset _ hnodup, List.map_append, List.sum_append, sum_blockList] at hsum
  have hpages : ((pageList pool.caches).map fun b => 2 ^ b.exp).sum = 6 * PAGE_SIZE := by
    have hone : ∀ i, ((pool.caches i).pages.map (blk · 0)).map (fun b => 2 ^ b.exp) = [4096] := by
      intro i
      obtain ⟨p, hp⟩ := h.good.idle_pages hcalm hlive i
      simp [hp]
    simp [pageList, allSlabs, hone, PAGE_SIZE]
  have hlists : freePages ctx.buddy =
      ((List.range BUDDY_MAX_ORDER).map fun k => (pool.lists.free k).length * 2 ^ k).sum := by
    unfold freePages
    congr 1
    refine List.map_congr_left fun k hk => ?_
    rw [h.holds.listed_eq (List.mem_range.mp hk)]
  rw [hlists, Nat.add_mul, ← hsum, hpages]

section

variable {ctx0 : GpgpuCtx} {fd : Int} {base size : Nat} {malloc_ok : Slab → Bool}

/-- After a run that ends with nothing live, each cache has one page, and as many pages
are on the buddy lists as after `gpuInit`: all but six. -/
theorem no_page_is_lost (hm : Mapped base size)
    (hinit : gpuInit ctx0 fd base malloc_ok size = some (0, ctx)) (events : List Event) :
    ∃ s, run step ⟨ctx, [], []⟩ events = some s ∧ (s.live = [] →
      (∀ i, (s.ctx.slabs i).pages.length = 1) ∧
      freePages s.ctx.buddy + 6 = size / PAGE_SIZE ∧
      freePages s.ctx.buddy = freePages ctx.buddy) := by
  obtain ⟨t0, hrun⟩ := run_follows_pool hm hinit
  have hidle : ∀ {s : State} {t : Pool × List Returned}, s.live = [] →
      Follows (size / PAGE_SIZE * PAGE_SIZE) s t → freePages s.ctx.buddy + 6 = size / PAGE_SIZE := by
    intro s t hlive hf
    rw [hf.live] at hlive
    have hpages := hf.carries.idle_freePages hf.calm hlive
    exact Nat.eq_of_mul_eq_mul_right (by decide : 0 < PAGE_SIZE) hpages
  obtain ⟨s0, hs0, hf0⟩ := hrun []
  obtain ⟨s, hs, hf⟩ := hrun events
  refine ⟨s, hs, fun hlive => ⟨fun i => ?_, hidle hlive hf, ?_⟩⟩
  · rw [hf.live] at hlive
    obtain ⟨p, hp⟩ := hf.carries.good.idle_pages hf.calm hlive i
    rw [hf.carries.pages_eq, Cache.metas, hp]
    rfl
  · obtain rfl : s0 = ⟨ctx, [], []⟩ := (Option.some.inj hs0).symm
    have h0 := hidle rfl hf0
    have h1 := hidle hlive hf
    simp only at h0
    omega

/-- A cache grows to two pages and gives the first one back. -/
theorem pages_come_back_after_growth :
    ∃ ctx, gpuInit blankCtx 3 4096 (fun _ => true) 65536 = some (0, ctx) ∧
      ∃ s, run step ⟨ctx, [], []⟩ [.malloc 2000 true, .malloc 2000 true, .malloc 2000 true,
          .free 22528, .free 20480, .free 26624] = some s ∧ s.live = [] ∧
        (∀ i, (s.ctx.slabs i).pages.length = 1) ∧
        freePages s.ctx.buddy + 6 = 65536 / PAGE_SIZE ∧
        freePages s.ctx.buddy = freePages ctx.buddy := by
  obtain ⟨ctx, hinit⟩ := blankCtx_inits
  obtain ⟨s, hs, hlaw⟩ := no_page_is_lost ⟨by decide, by decide⟩ hinit [.malloc 2000 true,
    .malloc 2000 true, .malloc 2000 true, .free 22528, .free 20480, .free 26624]
  have hend : ((gpuInit blankCtx 3 4096 (fun _ => true) 65536).bind fun r =>
      (run step ⟨r.2, [], []⟩ [.malloc 2000 true, .malloc 2000 true, .malloc 2000 true,
        .free 22528, .free 20480, .free 26624]).map State.live) = some [] := by
    decide +kernel
  simp only [hinit, Option.bind_some, hs, Option.map_some, Option.some.injEq] at hend
  exact ⟨ctx, hinit, s, hs, hend, hlaw hend⟩

/-! ## What the kept pages leave room for -/

/-- An aligned block of order `k` at `x` lies in the managed memory, apart from the pages of
the caches. -/
def Beside (size : Nat) (ctx : GpgpuCtx) (k x : Nat) : Prop :=
  2 ^ k * PAGE_SIZE ∣ x ∧ x + 2 ^ k * PAGE_SIZE ≤ size / PAGE_SIZE * PAGE_SIZE ∧
    ∀ i, ∀ m ∈ (ctx.slabs i).pages, x + 2 ^ k * PAGE_SIZE ≤ m.page_offset ∨
      m.page_offset + PAGE_SIZE ≤ x

/-- A block of order `k` fits beside the pages of the caches. -/
def RoomFor (size : Nat) (ctx : GpgpuCtx) (k : Nat) : Prop :=
  ∃ x, Beside size ctx k x

/-- `gpuMalloc` gives out an offset. -/
def Grants (ctx : GpgpuCtx) (n : Nat) (malloc_ok : Bool) : Prop :=
  ∃ x ctx', gpuMalloc ctx n malloc_ok = some (x, ctx') ∧ x ≠ NO_OFFSET

theorem Carries.grants_iff (h : Carries T ctx pool) (n : Nat) (ok : Bool) :
    Grants ctx n ok ↔ (pool.malloc n ok).1 ≠ NO_OFFSET := by
  obtain ⟨ctx', hcode, -, -, -⟩ := gpuMalloc_spec h n ok
  unfold Grants
  rw [hcode]
  constructor
  · rintro ⟨x, ctx1, he, hx⟩
    cases he
    exact hx
  · intro hx
    exact ⟨_, _, rfl, hx⟩

/-- An offset that `malloc` gives out lies in the managed memory. -/
theorem Carries.malloc_ne_none (h : Carries T ctx pool) {n : Nat} {ok : Bool}
    (hlive : (pool.malloc n ok).2.live ≠ pool.live) : (pool.malloc n ok).1 ≠ NO_OFFSET := by
  intro hno
  rw [h.malloc_live, if_pos hno] at hlive
  exact hlive rfl

/-- A size that goes to a cache finds a free slot there. -/
theorem Carries.idle_grants_slab (h : Carries T ctx pool) (hcalm : Calm pool)
    (hlive : pool.live = []) {n : Nat} {i : Slab} (hn : route_slab n = some i) (ok : Bool) :
    Grants ctx n ok := by
  obtain ⟨x, xs, hx⟩ := List.exists_cons_of_ne_nil (h.good.idle_free hcalm hlive i)
  rw [h.grants_iff]
  apply h.malloc_ne_none
  simp [Pool.malloc, hn, Cache.alloc, Cache.ready, hx]

/-- The blocks that are not free: those of large allocations, and the pages of the caches. -/
theorem blk_mem_poolBlocks {caches : Slab → Cache} {live : List (Nat × Nat)} {y j : Nat} :
    blk y j ∈ poolBlocks caches live ↔
      (∃ e ∈ live, route_slab e.2 = none ∧ y = e.1 ∧ j = order_of e.2) ∨
        (j = 0 ∧ ∃ i, y ∈ (caches i).pages) := by
  constructor
  · rintro (⟨e, he, hr, hb⟩ | ⟨i, p, hp, hb⟩)
    · exact .inl ⟨e, he, hr, blk_inj.mp hb⟩
    · obtain ⟨rfl, rfl⟩ := blk_inj.mp hb
      exact .inr ⟨rfl, i, hp⟩
  · rintro (⟨e, he, hr, rfl, rfl⟩ | ⟨rfl, i, hp⟩)
    · exact .inl ⟨e, he, hr, rfl⟩
    · exact .inr ⟨i, y, hp, rfl⟩

/-- What is free of all blocks lies beside the pages and apart from the large live blocks. -/
theorem Carries.free_iff (h : Carries (size / PAGE_SIZE * PAGE_SIZE) ctx pool) (k x : Nat) :
    2 ^ k * PAGE_SIZE ∣ x ∧
        FreeOf (size / PAGE_SIZE * PAGE_SIZE) (poolBlocks pool.caches pool.live) (blk x k) ↔
      Beside size ctx k x ∧ ∀ e ∈ pool.live, route_slab e.2 = none →
        x + 2 ^ k * PAGE_SIZE ≤ e.1 ∨ e.1 + span e.2 ≤ x := by
  rw [freeOf_blk_iff h.good.tiled.pages]
  constructor
  · rintro ⟨hdvd, hfits, hall⟩
    refine ⟨⟨hdvd, hfits, fun i m hm => ?_⟩, fun e he hr => ?_⟩
    · rw [h.pages_eq, Cache.metas, List.mem_map] at hm
      obtain ⟨p, hp, rfl⟩ := hm
      have happ := hall p 0 (blk_mem_poolBlocks.mpr (.inr ⟨rfl, i, hp⟩))
      simpa using happ
    · have happ := hall e.1 (order_of e.2) (blk_mem_poolBlocks.mpr (.inl ⟨e, he, hr, rfl, rfl⟩))
      simpa only [span, hr] using happ
  · rintro ⟨⟨hdvd, hfits, hpages⟩, hbig⟩
    refine ⟨hdvd, hfits, fun y j hb => ?_⟩
    rcases blk_mem_poolBlocks.mp hb with ⟨e, he, hr, rfl, rfl⟩ | ⟨rfl, i, hp⟩
    · have happ := hbig e he hr
      simpa only [span, hr] using happ
    · have happ := hpages i ⟨y, _, _⟩ (by
        rw [h.pages_eq, Cache.metas, List.mem_map]
        exact ⟨y, hp, rfl⟩)
      simpa using happ

/-- The room beside the pages is what the buddy lists can give out. -/
theorem Carries.idle_roomFor (h : Carries (size / PAGE_SIZE * PAGE_SIZE) ctx pool)
    (hlive : pool.live = []) (k : Nat) :
    RoomFor size ctx k ↔ ∃ x, 2 ^ k * PAGE_SIZE ∣ x ∧
      FreeOf (size / PAGE_SIZE * PAGE_SIZE) (poolBlocks pool.caches pool.live) (blk x k) := by
  refine exists_congr fun x => ?_
  rw [h.free_iff, hlive]
  simp

/-- A size that goes to the buddy allocator is given out just when a block of its order
has room. -/
theorem Carries.idle_grants_big (h : Carries (size / PAGE_SIZE * PAGE_SIZE) ctx pool)
    (hlive : pool.live = []) {n : Nat} (hn : route_slab n = none) (ok : Bool) :
    Grants ctx n ok ↔ order_of n < BUDDY_MAX_ORDER ∧ RoomFor size ctx (order_of n) := by
  have hle := order_of_le n
  rw [h.grants_iff, h.idle_roomFor hlive]
  cases ha : pool.lists.alloc (order_of n) with
  | none =>
    have hfail : (pool.malloc n ok).1 = NO_OFFSET := by simp [Pool.malloc, hn, ha]
    refine iff_of_false (not_not.mpr hfail) fun hroom => ?_
    exact (h.good.tiled.alloc_eq_none_iff hroom.1).mp ha hroom.2
  | some r =>
    have hlt : order_of n < BUDDY_MAX_ORDER := by
      by_contra hc
      have hnone := (pool.lists.alloc_eq_none_iff hle).mpr fun j h1 h2 => by omega
      rw [hnone] at ha
      cases ha
    refine iff_of_true (h.malloc_ne_none (by simp [Pool.malloc, hn, ha])) ⟨hlt, ?_⟩
    by_contra hno
    rw [(h.good.tiled.alloc_eq_none_iff hlt).mpr hno] at ha
    cases ha

/-- The order of a whole block. -/
theorem order_of_pow {k : Nat} (hk : k < BUDDY_MAX_ORDER) : order_of (2 ^ k * PAGE_SIZE) = k := by
  unfold BUDDY_MAX_ORDER at hk
  interval_cases k <;> decide

/-- After a run that ends with nothing live, `gpuMalloc` gives out the same sizes as after
`gpuInit` just when the pages that the caches keep leave room for the same orders. -/
theorem no_lasting_fragmentation_iff_same_room (hm : Mapped base size)
    (hinit : gpuInit ctx0 fd base malloc_ok size = some (0, ctx)) (events : List Event) :
    ∃ s, run step ⟨ctx, [], []⟩ events = some s ∧ (s.live = [] →
      ((∀ n ok, Grants s.ctx n ok ↔ Grants ctx n ok) ↔
        ∀ k < BUDDY_MAX_ORDER, RoomFor size s.ctx k ↔ RoomFor size ctx k)) := by
  obtain ⟨t0, hrun⟩ := run_follows_pool hm hinit
  obtain ⟨s0, hs0, hf0⟩ := hrun []
  obtain rfl : s0 = ⟨ctx, [], []⟩ := (Option.some.inj hs0).symm
  obtain ⟨s, hs, hf⟩ := hrun events
  refine ⟨s, hs, fun hlive => ?_⟩
  have hlive0 := hf0.live.symm
  rw [hf.live] at hlive
  constructor
  · intro hsame k hk
    have hbig : route_slab (2 ^ k * PAGE_SIZE) = none := by
      rw [route_slab_eq_none]
      have := Nat.one_le_two_pow (n := k)
      unfold PAGE_SIZE
      omega
    have h1 := hf.carries.idle_grants_big hlive hbig true
    have h0 := hf0.carries.idle_grants_big hlive0 hbig true
    rw [order_of_pow hk] at h0 h1
    have hiff := hsame (2 ^ k * PAGE_SIZE) true
    rw [h1, h0] at hiff
    simpa [hk] using hiff
  · intro hroom n ok
    cases hn : route_slab n with
    | some i =>
      exact iff_of_true (hf.carries.idle_grants_slab hf.calm hlive hn ok)
        (hf0.carries.idle_grants_slab hf0.calm hlive0 hn ok)
    | none =>
      rw [hf.carries.idle_grants_big hlive hn, hf0.carries.idle_grants_big hlive0 hn]
      exact and_congr_right fun hk => hroom _ hk

/-- A cache that grows while two pages are held moves to the second half of the memory. -/
def movingRun : List Event :=
  [.malloc 8192 true, .malloc 2000 true, .malloc 2000 true, .malloc 2000 true, .free 22528,
    .free 20480, .free 34816, .free 24576]

theorem moving_run_and_room :
    ∃ ctx, gpuInit blankCtx 3 4096 (fun _ => true) 65536 = some (0, ctx) ∧
      ∃ s, run step ⟨ctx, [], []⟩ movingRun = some s ∧ s.live = [] ∧
        ((∀ n ok, Grants s.ctx n ok ↔ Grants ctx n ok) ↔
          ∀ k < BUDDY_MAX_ORDER, RoomFor 65536 s.ctx k ↔ RoomFor 65536 ctx k) := by
  obtain ⟨ctx, hinit⟩ := blankCtx_inits
  obtain ⟨s, hs, hlaw⟩ := no_lasting_fragmentation_iff_same_room ⟨by decide, by decide⟩ hinit
    movingRun
  have hend : ((gpuInit blankCtx 3 4096 (fun _ => true) 65536).bind fun r =>
      (run step ⟨r.2, [], []⟩ movingRun).map State.live) = some [] := by
    decide +kernel
  simp only [hinit, Option.bind_some, hs, Option.map_some, Option.some.injEq] at hend
  exact ⟨ctx, hinit, s, hs, hend, hlaw hend⟩

/-- Eight pages fit after `gpuInit`, and no longer after the run, with nothing live. -/
theorem eight_pages_no_longer_fit : (do
    let (r, ctx) ← gpuInit blankCtx 3 4096 (fun _ => true) 65536
    let s ← run step ⟨ctx, [], []⟩ movingRun
    let (before, _) ← gpuMalloc ctx 32768 true
    let (after, _) ← gpuMalloc s.ctx 32768 true
    return (r, s.live, before, after)) = some (0, [], 32768, NO_OFFSET) := by
  decide +kernel

end

end gpgpu.context
