-- The code of the library does to the memory what the operations on the pool say.
-- It never faults, and it leaves the bytes of every live allocation alone.
import Gpgpu.Pool
import Gpgpu.SlabRefine

open memory dyadic

namespace gpgpu.context

open buddy slab

/-- The context and its memory hold the pool, which manages `T` bytes. -/
structure Carries (T : Nat) (ctx : GpgpuCtx) (pool : Pool) : Prop where
  good : Good T pool
  holds : Holds T (poolBlocks pool.caches pool.live) ctx.buddy pool.lists
  caches : ∀ i, CacheShows ctx.buddy (ctx.slabs i) (pool.caches i)
  mapped : ctx.vram_mmap = ctx.buddy.vram_base
  small : T ≤ 2 ^ 32
  ends : ctx.buddy.vram_base + T < 2 ^ 64

variable {T : Nat} {ctx : GpgpuCtx} {pool : Pool} {e f : Nat × Nat} {i j : Slab}

theorem Carries.holds_cache (h : Carries T ctx pool) (i : Slab) :
    Holds T (others pool.caches pool.live i ∪ pageBlocks (pool.caches i)) ctx.buddy pool.lists := by
  rw [← poolBlocks_eq]
  exact h.holds

/-! ## `gpuMalloc` -/

/-- The context after a call that changed one cache and wrote only where no other
cache has a free slot. -/
theorem Carries.setSlab {pool' : Pool} {c : Cache} {cache : SlabCache} {b : BuddyAllocator}
    (h : Carries T ctx pool) (hgood : Good T pool')
    (hcaches : pool'.caches = Function.update pool.caches i c)
    (hblocks : poolBlocks pool'.caches pool'.live = others pool.caches pool.live i ∪ pageBlocks c)
    (hholds : Holds T (others pool.caches pool.live i ∪ pageBlocks c) b pool'.lists)
    (hcache : CacheShows b cache c) (hbase : b.vram_base = ctx.buddy.vram_base)
    (hother : ∀ j, j ≠ i → CacheShows b (ctx.slabs j) (pool.caches j)) :
    Carries T (ctx.setSlab i cache b) pool' := by
  refine ⟨hgood, ?_, fun j => ?_, ?_, h.small, ?_⟩
  · rw [hblocks]
    exact hholds
  · rw [hcaches]
    by_cases hj : j = i
    · subst hj
      simpa [GpgpuCtx.setSlab] using hcache
    · simpa [GpgpuCtx.setSlab, hj] using hother j hj
  · rw [GpgpuCtx.setSlab, hbase]
    exact h.mapped
  · rw [GpgpuCtx.setSlab, hbase]
    exact h.ends

theorem malloc_slab_caches {size : Nat} (hr : route_slab size = some i) (pool : Pool)
    (malloc_ok : Bool) :
    let r := (pool.caches i).alloc pool.lists malloc_ok
    (pool.malloc size malloc_ok).1 = r.1.getD NO_OFFSET ∧
    (pool.malloc size malloc_ok).2.caches = Function.update pool.caches i r.2.1 ∧
    (pool.malloc size malloc_ok).2.lists = r.2.2 ∧
    bigBlocks (pool.malloc size malloc_ok).2.live = bigBlocks pool.live := by
  simp only [Pool.malloc, hr]
  cases ((pool.caches i).alloc pool.lists malloc_ok).1 with
  | none => exact ⟨rfl, rfl, rfl, rfl⟩
  | some x => exact ⟨rfl, rfl, rfl, bigBlocks_cons_slab hr⟩

/-- `gpuMalloc` does what `malloc` says, and writes only into free blocks. -/
theorem gpuMalloc_spec (h : Carries T ctx pool) (size : Nat) (malloc_ok : Bool) :
    ∃ ctx', gpuMalloc ctx size malloc_ok = some ((pool.malloc size malloc_ok).1, ctx') ∧
      Carries T ctx' (pool.malloc size malloc_ok).2 ∧
      ctx'.buddy.vram_base = ctx.buddy.vram_base ∧
      ∀ y, ¬ InBlocks ctx.buddy.vram_base pool.lists.blocks y →
        ctx'.buddy.mem y = ctx.buddy.mem y := by
  cases hr : route_slab size with
  | some i =>
    obtain ⟨cache, b, hcode, hholds, hcache, hbase, hout⟩ :=
      slab_alloc_spec (h.holds_cache i) h.small (h.caches i) (h.good.sound i) malloc_ok
    obtain ⟨h1, h2, h3, h4⟩ := malloc_slab_caches hr pool malloc_ok
    have hgood := h.good.malloc_slab hr malloc_ok hholds.tiled
    refine ⟨ctx.setSlab i cache b, ?_, ?_, hbase, hout⟩
    · simp [gpuMalloc, hr, hcode, h1]
    · refine h.setSlab hgood h2 ?_ (by rw [h3]; exact hholds) hcache hbase ?_
      · rw [poolBlocks_eq _ _ i, h2, others_update _ _ i h4, Function.update_self]
      · exact fun j _ => (h.caches j).of_outside (h.good.sound j) (h.good.tiled_cache j) hbase hout
  | none =>
    obtain ⟨hfail, hsome⟩ := buddy_alloc_eq h.holds size
    have hk := order_of_le size
    cases ha : pool.lists.alloc (order_of size) with
    | none =>
      refine ⟨ctx, ?_, ?_, rfl, fun y _ => rfl⟩
      · simp [gpuMalloc, Pool.malloc, hr, ha, hfail (Or.inr ha)]
      · simpa [Pool.malloc, hr, ha] using h
    | some r =>
      obtain ⟨x, a⟩ := r
      obtain ⟨htiled, -, -⟩ := h.holds.tiled.alloc hk ha
      have hlt := htiled.order_lt (Or.inr (Or.inl rfl))
      have hpage := page_lt (htiled.page_fits (Or.inr (Or.inl rfl))) h.small
      obtain ⟨b, hcode, hholds, hbase, hout⟩ := (hsome x a hlt ha).2 hpage
      have hgood := h.good.malloc_big hr ha
      refine ⟨{ ctx with buddy := b }, ?_, ?_, hbase, hout⟩
      · simp [gpuMalloc, Pool.malloc, hr, ha, hcode]
      · simp only [Pool.malloc, hr, ha]
        refine ⟨hgood, ⟨hholds.shows, hgood.tiled, hholds.base_pos, hholds.fits⟩, fun j => ?_, ?_,
          h.small, ?_⟩
        · exact (h.caches j).of_outside (h.good.sound j) (h.good.tiled_cache j) hbase hout
        · rw [hbase]
          exact h.mapped
        · rw [hbase]
          exact h.ends

/-! ## `gpuFree` -/

/-- The byte at address `y` is behind a live allocation. -/
def InSpan (base : Nat) (e : Nat × Nat) (y : Nat) : Prop :=
  base + e.1 ≤ y ∧ y < base + e.1 + span e.2

theorem Good.span_notMem_free {base y : Nat} (h : Good T pool) (he : e ∈ pool.live)
    (hy : InSpan base e y) : ¬ InBlocks base pool.lists.blocks y :=
  h.tiled.live_notMem_free (h.home_mem he)
    (h.home_covers he (by have := hy.1; omega) (by have := hy; unfold InSpan at this; omega))

/-- A byte in a slot of a cache is in no slot of another cache. -/
theorem Good.slots_of_two {x z w : Nat} (h : Good T pool) (hx : (pool.caches i).IsSlot x)
    (hz : (pool.caches j).IsSlot z) (h1 : x ≤ w ∧ w < x + (pool.caches i).object_size)
    (h2 : z ≤ w ∧ w < z + (pool.caches j).object_size) : i = j := by
  have hcx := page_covers_slot (h.sound i).size hx.1 h1.1 h1.2
  have hcz := page_covers_slot (h.sound j).size hz.1 h2.1 h2.2
  have heq := h.tiled.tiling.apart _ (Or.inr (Or.inr ⟨i, _, hx.2, rfl⟩)) _
    (Or.inr (Or.inr ⟨j, _, hz.2, rfl⟩)) _ hcx hcz
  refine h.marked.unique (page_dvd_pageOf x) hx.2 ?_
  rw [(blk_inj.mp heq).1]
  exact hz.2

/-- A byte behind a live allocation is in no free slot. -/
theorem Good.span_notMem_slot {base y z : Nat} (h : Good T pool) (hf : f ∈ pool.live)
    (hz : z ∈ (pool.caches i).free) (hy : InSpan base f y) (h1 : base + z ≤ y) :
    base + z + (pool.caches i).object_size ≤ y := by
  by_contra h2
  obtain ⟨hy1, hy2⟩ := hy
  obtain ⟨hslot, hfree⟩ := ((h.sound i).mem_free z).mp hz
  have hcov := h.home_covers hf (z := y - base) (by omega) (by omega)
  have hpage := page_covers_slot (h.sound i).size hslot.1 (z := y - base) (by omega) (by omega)
  have heq := h.tiled.tiling.apart _ (Or.inr (h.home_mem hf)) _
    (Or.inr (Or.inr ⟨i, _, hslot.2, rfl⟩)) _ hcov hpage
  cases hr : route_slab f.2 with
  | none =>
    rw [home_big hr] at heq
    exact h.big_ne_page hf hr hslot.2 heq
  | some j =>
    rw [span_slab hr, ← h.sizes j] at hy2
    have hij := h.slots_of_two (h.slot hf hr) hslot (w := y - base) ⟨by omega, by omega⟩
      ⟨by omega, by omega⟩
    subst hij
    by_cases hoff : f.1 = z
    · exact hfree ⟨f, hf, hr, hoff.symm⟩
    · have := slots_apart (h.slot hf hr).1 hslot.1 hoff
      omega

/-- A byte behind a live allocation is in no free slot, and in no slot of another
allocation. -/
theorem Good.span_notMem_slots {base y : Nat} (h : Good T pool) (he : e ∈ pool.live)
    (hf : f ∈ pool.live) (hne : f ≠ e) (hr : route_slab e.2 = some i) (hy : InSpan base f y) :
    ¬ InSlots base (pool.caches i).object_size (e.1 :: (pool.caches i).free) y := by
  rintro ⟨z, hz, h1, h2⟩
  cases hz with
  | head =>
    obtain ⟨hy1, hy2⟩ := hy
    have hap := h.apart hf he hne
    rw [span_slab hr, ← h.sizes i] at hap
    omega
  | tail _ hz =>
    have := h.span_notMem_slot hf hz hy h1
    omega

/-- The way back that `gpuFree` takes is the way that `gpuMalloc` took. -/
theorem Good.route_back (h : Good T pool) (he : e ∈ pool.live) :
    get_slab (pool.lists.page_order (e.1 / PAGE_SIZE)) = route_slab e.2 := by
  cases hr : route_slab e.2 with
  | some i =>
    have hmark := (h.marked i (e.1 / PAGE_SIZE)).mpr (h.slot he hr).2
    rw [hmark]
    exact get_slab_slabMarker i
  | none =>
    apply get_slab_of_lt
    rw [h.orders e he hr]
    exact h.tiled.order_lt (Or.inr (Or.inl ⟨e, he, hr, rfl⟩))

/-- The bytes behind an allocation lie in the managed memory. -/
theorem Good.span_le (h : Good T pool) (he : e ∈ pool.live) : e.1 + span e.2 ≤ T := by
  have hpos := span_pos e.2
  have hcov := h.home_covers he (z := e.1 + span e.2 - 1) (by omega) (by omega)
  have hT := (h.tiled.tiling.covered _).mpr ⟨_, Or.inr (h.home_mem he), hcov⟩
  omega

/-- A live offset lies on a managed page. -/
theorem Carries.page_lt (h : Carries T ctx pool) (he : e ∈ pool.live) :
    e.1 / PAGE_SIZE < BUDDY_TOTAL_PAGES := by
  have hle := h.good.span_le he
  have hpos := span_pos e.2
  have := h.small
  unfold PAGE_SIZE BUDDY_TOTAL_PAGES
  omega

/-- `gpuFree` of a live allocation does what `free` says, and leaves the bytes of
every other allocation alone. -/
theorem gpuFree_spec (h : Carries T ctx pool) (he : e ∈ pool.live) :
    ∃ ctx', gpuFree ctx e.1 = some (0, ctx') ∧ Carries T ctx' (pool.free e) ∧
      ctx'.buddy.vram_base = ctx.buddy.vram_base ∧
      ∀ f ∈ pool.live, f ≠ e → ∀ y, InSpan ctx.buddy.vram_base f y →
        ctx'.buddy.mem y = ctx.buddy.mem y := by
  have hpage := h.page_lt he
  have hidx : e.1 / PAGE_SIZE % 2 ^ 32 = e.1 / PAGE_SIZE := by
    unfold BUDDY_TOTAL_PAGES at hpage
    exact Nat.mod_eq_of_lt (by omega)
  have hread : ctx.buddy.read_order (e.1 / PAGE_SIZE) =
      some (pool.lists.page_order (e.1 / PAGE_SIZE)) := by
    rw [BuddyAllocator.read_order, if_pos hpage, h.holds.shows.page_order]
  have hback := h.good.route_back he
  cases hr : route_slab e.2 with
  | some i =>
    have hx : e.1 ∈ slotsOf pool.live i := ⟨e, he, hr, rfl⟩
    have hR : ∀ p ∈ (pool.caches i).pages, blk p 0 ∉ others pool.caches pool.live i := by
      rintro p hp (⟨g, hg, hrg, hb⟩ | ⟨j, hj, hd⟩)
      · exact h.good.big_ne_page hg hrg hp hb.symm
      · obtain ⟨q, hq, hb⟩ := hd
        rw [← (blk_inj.mp hb).1] at hq
        exact hj (h.good.marked.unique ((h.good.sound i).aligned p hp) hq hp)
    obtain ⟨cache, b, hcode, hholds, hcache, hbase, hout⟩ := slab_free_spec (h.holds_cache i)
      h.small h.ends (h.caches i) (h.good.sound i) hR hx
    have hgood := h.good.free_slab he hr hholds.tiled
    refine ⟨ctx.setSlab i cache b, ?_, ?_, hbase, ?_⟩
    · simp only [gpuFree, hidx, hread, Option.bind_eq_bind, Option.bind_some, hback, hr, hcode]
      rfl
    · have hfree : pool.free e = ⟨((pool.caches i).release pool.lists e.1).2,
          Function.update pool.caches i ((pool.caches i).release pool.lists e.1).1,
          pool.live.erase e⟩ := by
        simp [Pool.free, hr]
      rw [hfree] at hgood ⊢
      refine h.setSlab hgood rfl ?_ hholds hcache hbase ?_
      · simp only
        rw [poolBlocks_eq _ _ i, others_update _ _ i (bigBlocks_erase_slab h.good.nodup hr),
          Function.update_self]
      · intro j hj
        apply (h.caches j).congr hbase
        intro x hxf y h1 h2
        have hslot := ((h.good.sound j).mem_free x).mp hxf |>.1
        have hnode := (h.good.sound j).size.node
        refine hout y ((h.good.sound j).slot_notMem_free (h.good.tiled_cache j) hslot h1 (by omega))
          ?_
        rintro ⟨z, hz, hz1, hz2⟩
        have hzslot : (pool.caches i).IsSlot z := by
          cases hz with
          | head => exact h.good.slot he hr
          | tail _ hz => exact ((h.good.sound i).mem_free z).mp hz |>.1
        exact hj (h.good.slots_of_two hslot hzslot (w := y - ctx.buddy.vram_base)
          ⟨by omega, by omega⟩ ⟨by omega, by omega⟩)
    · intro f hf hne y hy
      exact hout y (h.good.span_notMem_free hf hy) (h.good.span_notMem_slots he hf hne hr hy)
  | none =>
    have hL : blk e.1 (order_of e.2) ∈ poolBlocks pool.caches pool.live :=
      Or.inl ⟨e, he, hr, rfl⟩
    obtain ⟨b, hcode, hholds, hbase, hout⟩ := buddy_free_spec h.holds h.small hL
      (h.good.orders e he hr)
    have hgood := h.good.free_big he hr
    have hkeep : ∀ y d, d ∈ poolBlocks pool.caches pool.live → d ≠ blk e.1 (order_of e.2) →
        d.Covers (y - ctx.buddy.vram_base) → b.mem y = ctx.buddy.mem y := by
      intro y d hd hne hcov
      apply hout
      rintro ⟨c, rfl | hc, hc1, hc2⟩
      · exact hne (h.good.tiled.tiling.apart _ (Or.inr hd) _ (Or.inr hL) _ hcov hc2)
      · exact h.good.tiled.live_notMem_free hd hcov ⟨c, hc, hc1, hc2⟩
    refine ⟨{ ctx with buddy := b }, ?_, ?_, hbase, ?_⟩
    · simp only [gpuFree, hidx, hread, Option.bind_eq_bind, Option.bind_some, hback, hr, hcode]
      rfl
    · have hfree : pool.free e = ⟨pool.lists.release (BUDDY_MAX_ORDER + 1) e.1 (order_of e.2),
          pool.caches, pool.live.erase e⟩ := by
        simp [Pool.free, hr]
      rw [hfree] at hgood ⊢
      refine ⟨hgood, ⟨hholds.shows, hgood.tiled, hholds.base_pos, hholds.fits⟩, fun j => ?_, ?_,
        h.small, ?_⟩
      · apply (h.caches j).congr hbase
        intro x hxf y h1 h2
        have hslot := ((h.good.sound j).mem_free x).mp hxf |>.1
        have hnode := (h.good.sound j).size.node
        exact hkeep y _ (Or.inr ⟨j, _, hslot.2, rfl⟩)
          (Ne.symm (h.good.big_ne_page he hr hslot.2))
          (page_covers_slot (h.good.sound j).size hslot.1 (by omega) (by omega))
      · rw [hbase]
        exact h.mapped
      · rw [hbase]
        exact h.ends
    · intro f hf hne y hy
      obtain ⟨hy1, hy2⟩ := hy
      refine hkeep y (home f) (h.good.home_mem hf) ?_ (h.good.home_covers hf (by omega) (by omega))
      intro heq
      rw [← home_big hr] at heq
      rcases h.good.home_eq hf he heq with hsame | ⟨i, -, hri⟩
      · exact hne hsame
      · rw [hr] at hri
        cases hri

/-! ## Writes into live allocations -/

/-- The bytes behind an allocation are as many as were asked for. -/
theorem Good.le_span (h : Good T pool) (he : e ∈ pool.live) : e.2 ≤ span e.2 := by
  cases hr : route_slab e.2 with
  | some i =>
    rw [span_slab hr]
    exact route_slab_eq_some hr
  | none =>
    rw [span_big hr, ← pow_mul_page]
    exact le_order_of (h.tiled.order_lt (Or.inr (Or.inl ⟨e, he, hr, rfl⟩)))

/-- The pool stays when only bytes behind live allocations change. -/
theorem Carries.setMem (h : Carries T ctx pool) {m : Mem}
    (hm : ∀ y, (∀ e ∈ pool.live, ¬ InSpan ctx.buddy.vram_base e y) → m y = ctx.buddy.mem y) :
    Carries T (ctx.setMem m) pool := by
  refine ⟨h.good, ?_, fun j => ?_, h.mapped, h.small, h.ends⟩
  · apply holds_of_outside h.holds
    intro y hy
    exact hm y fun e he hspan => h.good.span_notMem_free he hspan hy
  · have hbase : (ctx.setMem m).buddy.vram_base = ctx.buddy.vram_base := rfl
    apply (h.caches j).congr hbase
    intro x hx y h1 h2
    apply hm
    intro e he hspan
    have hnode := (h.good.sound j).size.node
    have := h.good.span_notMem_slot he hx hspan h1
    omega

/-! ## `gpuInit` -/

/-- A cache before its first page. -/
def emptyCache (i : Slab) : Cache := ⟨slabSize i, slabMarker i, [], []⟩

/-- The context in `gpuInit` when the caches `todo` are still to be made. -/
structure Begun (T : Nat) (ctx : GpgpuCtx) (pool : Pool) (todo : List Slab) : Prop where
  good : Good T pool
  live : pool.live = []
  holds : Holds T (poolBlocks pool.caches pool.live) ctx.buddy pool.lists
  made : ∀ i, i ∉ todo → CacheShows ctx.buddy (ctx.slabs i) (pool.caches i) ∧
    Settled (pool.caches i)
  empty : ∀ i ∈ todo, pool.caches i = emptyCache i
  mapped : ctx.vram_mmap = ctx.buddy.vram_base
  small : T ≤ 2 ^ 32
  ends : ctx.buddy.vram_base + T < 2 ^ 64

/-- The making of one cache. -/
theorem Begun.step {todo : List Slab} (h : Begun T ctx pool (i :: todo)) (hi : i ∉ todo)
    (malloc_ok : Bool) :
    ∃ r cache b, slab_cache_init (slabSize i) ctx.buddy (slabMarker i) malloc_ok =
        some (r, cache, b) ∧
      (r = -1 ∨ r = 0 ∧ ∃ pool', Begun T (ctx.setSlab i cache b) pool' todo) := by
  have hempty : pool.caches i = emptyCache i := h.empty i (by simp)
  have hholds : Holds T (others pool.caches pool.live i ∪ pageBlocks (pool.caches i)) ctx.buddy
      pool.lists := by
    rw [← poolBlocks_eq]
    exact h.holds
  have hshow : CacheShows ctx.buddy ⟨slabSize i, slabMarker i, 0, []⟩ (pool.caches i) := by
    rw [hempty]
    exact ⟨rfl, rfl, rfl, rfl⟩
  have hsound := h.good.sound i
  obtain ⟨cache, b, hcode, hh, hs, hbase, hout⟩ := slab_grow_spec hholds h.small hshow hsound
    malloc_ok
  unfold slab_cache_init
  simp only [hcode]
  rcases (pool.caches i).grow_cases pool.lists malloc_ok with
    ⟨-, hg⟩ | ⟨p, a', -, -, hg⟩ | ⟨p, a', ha, -, hg⟩
  · rw [hg]
    exact ⟨-1, cache, b, rfl, Or.inl rfl⟩
  · rw [hg]
    exact ⟨-1, cache, b, rfl, Or.inl rfl⟩
  · obtain ⟨hdvd, hnew, -⟩ := new_page (h.good.tiled_cache i) ha
    rw [hg] at hh hs ⊢
    have hmarker : (pool.caches i).marker = slabMarker i := h.good.markers i
    rw [hmarker] at hh
    simp only at hh hs
    have hgood := h.good.update_cache pool.live hh.tiled rfl
      (hsound.addPage hdvd hnew) ⟨rfl, rfl⟩ (fun _ _ => rfl) (h.good.marked_grow i ha)
      (by rw [h.live]; simp) h.good.nodup
    refine ⟨0, cache, b, rfl, Or.inr ⟨rfl, ⟨_, _, _⟩, hgood, h.live, ?_, ?_, ?_, ?_, h.small, ?_⟩⟩
    · simp only
      rw [poolBlocks_eq _ _ i, others_update _ _ i rfl, Function.update_self]
      exact hh
    · intro j hj
      by_cases hji : j = i
      · subst hji
        refine ⟨by simpa [GpgpuCtx.setSlab] using hs, ?_⟩
        simp only [Function.update_self]
        refine ⟨List.cons_ne_nil _ _, fun q hq _ => ?_⟩
        simp only [Cache.addPage, hempty, emptyCache, List.mem_singleton] at hq ⊢
        rw [hq]
      · obtain ⟨hshowj, hset⟩ := h.made j (by simp [hji, hj])
        refine ⟨?_, by simpa [hji] using hset⟩
        have := hshowj.of_outside (h.good.sound j) (h.good.tiled_cache j) hbase hout
        simpa [GpgpuCtx.setSlab, hji] using this
    · intro j hj
      have hji : j ≠ i := fun he => hi (he ▸ hj)
      simpa [hji] using h.empty j (by simp [hj])
    · rw [GpgpuCtx.setSlab, hbase]
      exact h.mapped
    · rw [GpgpuCtx.setSlab, hbase]
      exact h.ends

theorem init_slabs_spec (malloc_ok : Slab → Bool) {todo : List Slab} (h : Begun T ctx pool todo)
    (hnd : todo.Nodup) : ∃ r ctx', init_slabs malloc_ok todo ctx = some (r, ctx') ∧
      (r = -1 ∨ r = 0 ∧ ∃ pool', Begun T ctx' pool' []) := by
  induction todo generalizing ctx pool with
  | nil => exact ⟨0, ctx, rfl, Or.inr ⟨rfl, pool, h⟩⟩
  | cons i todo ih =>
    obtain ⟨hi, hnd⟩ := List.nodup_cons.mp hnd
    obtain ⟨r, cache, b, hcode, hcase⟩ := h.step hi (malloc_ok i)
    unfold init_slabs
    rw [hcode]
    rcases hcase with rfl | ⟨rfl, pool', hnext⟩
    · exact ⟨-1, _, rfl, Or.inl rfl⟩
    · obtain ⟨r, ctx', h1, h2⟩ := ih hnext hnd
      exact ⟨r, ctx', by simpa using h1, h2⟩

/-- What `mmap` gives: memory that is not at `NULL`, and whose end is an address. -/
structure Mapped (base size : Nat) : Prop where
  pos : 0 < base
  ends : base + size < 2 ^ 64

/-- The pool before the caches are made. -/
theorem begun_start (ctx : GpgpuCtx) {a : FreeLists} {size : Nat} (hm : Mapped ctx.vram_mmap size)
    (hholds : Holds (managed size) ∅ ctx.buddy a) (hbase : ctx.buddy.vram_base = ctx.vram_mmap)
    (horder : ∀ q, a.page_order q = 0) (hsmall : managed size ≤ 2 ^ 32) :
    Begun (managed size) ctx ⟨a, emptyCache, []⟩
      [.slab_32, .slab_64, .slab_128, .slab_256, .slab_512, .slab_2048] := by
  have hblocks : poolBlocks emptyCache [] = ∅ := by
    ext d
    simp [poolBlocks, bigBlocks, pageBlocks, emptyCache]
  have hslots : ∀ i, slotsOf [] i = ∅ := by
    intro i
    ext x
    simp [slotsOf]
  have hend := hm.ends
  have hle := managed_le size
  refine ⟨⟨?_, fun i => ?_, fun i => rfl, fun i => rfl, ?_, by simp, by simp⟩, rfl, ?_, ?_,
    fun i _ => rfl, hbase.symm, hsmall, by omega⟩
  · rw [hblocks]
    exact hholds.tiled
  · rw [hslots]
    exact sound_empty (slotSize_slab i) (slabMarker i)
  · intro i q
    have hne : (0 : UInt8) ≠ slabMarker i := order_ne_marker (by decide) i
    simp [horder, hne, emptyCache]
  · rw [hblocks]
    exact hholds
  · intro i hi
    cases i <;> simp at hi

/-- `gpuInit` comes to its end when the order table has an entry for every page. -/
theorem gpuInit_returns (ctx0 : GpgpuCtx) (fd : Int) {base size : Nat} (malloc_ok : Slab → Bool)
    (hm : Mapped base size) (hsize : size < 2 ^ 32 + PAGE_SIZE) :
    ∃ r ctx, gpuInit ctx0 fd base malloc_ok size = some (r, ctx) ∧ (r = -1 ∨ r = 0) := by
  have hpos := hm.pos
  have hend := hm.ends
  have hle : managed size ≤ 2 ^ 32 := by
    unfold PAGE_SIZE at hsize
    unfold managed
    split <;> omega
  unfold gpuInit
  split
  · exact ⟨-1, _, rfl, .inl rfl⟩
  split
  · exact ⟨-1, _, rfl, .inl rfl⟩
  obtain ⟨a, hholds, hbase, horder⟩ := buddy_init_holds ctx0.buddy.mem size hpos (by omega)
  have hbegun := begun_start ({ ctx0 with
      vram_size := size, fd, vram_mmap := base
      buddy := buddy_init ctx0.buddy.mem base size }) hm hholds hbase horder hle
  obtain ⟨r, ctx, hcode, hcase⟩ := init_slabs_spec malloc_ok hbegun (by decide)
  exact ⟨r, ctx, hcode, hcase.imp id And.left⟩

/-- With more pages than the table has entries, the first page that the buddy allocator
gives out has none. -/
theorem first_page_far (mem : Mem) {base size : Nat} (hm : Mapped base size)
    (hsize : 2 ^ 32 < managed size) : buddy_alloc (buddy_init mem base size) PAGE_SIZE = none := by
  have hend := hm.ends
  obtain ⟨a, hholds, -, -⟩ := buddy_init_holds mem size hm.pos (by omega)
  obtain ⟨x, a', ha, hfar⟩ := hholds.tiled.alloc_far hsize
  exact ((buddy_alloc_eq hholds PAGE_SIZE).2 x a' (by decide) ha).1 hfar

/-- A context that `gpuInit` has made holds a pool with nothing live. -/
theorem gpuInit_spec {ctx0 : GpgpuCtx} {fd : Int} {base size : Nat} {malloc_ok : Slab → Bool}
    (hm : Mapped base size) (h : gpuInit ctx0 fd base malloc_ok size = some (0, ctx)) :
    ∃ pool, Carries (size / PAGE_SIZE * PAGE_SIZE) ctx pool ∧ Calm pool ∧ pool.live = [] := by
  have hpos := hm.pos
  have hend := hm.ends
  unfold gpuInit at h
  split at h
  · cases h
  split at h
  · cases h
  obtain ⟨a, hholds, hbase, horder⟩ := buddy_init_holds ctx0.buddy.mem size hpos
    (by omega)
  by_cases hsmall : managed size ≤ 2 ^ 32
  · have hbegun := begun_start ({ ctx0 with
        vram_size := size, fd, vram_mmap := base
        buddy := buddy_init ctx0.buddy.mem base size }) hm hholds hbase horder hsmall
    obtain ⟨r, ctx', hcode, hcase⟩ := init_slabs_spec malloc_ok hbegun (by decide)
    rw [hcode] at h
    cases h
    rcases hcase with hr | ⟨-, pool, hdone⟩
    · cases hr
    · have hT : managed size = size / PAGE_SIZE * PAGE_SIZE := by
        unfold managed at hsmall ⊢
        split at hsmall
        · rw [if_pos ‹_›]
          rfl
        · omega
      rw [hT] at hdone
      exact ⟨pool, ⟨hdone.good, hdone.holds, fun i => (hdone.made i (by simp)).1, hdone.mapped,
        hdone.small, hdone.ends⟩, fun i => (hdone.made i (by simp)).2, hdone.live⟩
  · -- The first page would be marked outside the order table.
    exfalso
    have hnone := first_page_far ctx0.buddy.mem hm (by omega)
    simp [init_slabs, slab_cache_init, slab_grow, hnone] at h

end gpgpu.context
