-- What the library manages, as lists: the buddy lists, the six caches and the live
-- allocations. The invariant `Good` says how they share the pages, and which mark
-- the order table has for each page.
import Gpgpu.Context
import Gpgpu.SlabLists

open memory dyadic

namespace gpgpu.context

open buddy slab

/-! ## The data -/

/-- The buddy lists, the caches, and the live allocations with their offsets and
the sizes that were asked for. -/
structure Pool where
  lists : FreeLists
  caches : Slab → Cache
  live : List (Nat × Nat)

/-- The bytes behind an allocation of a size: a slot, or a whole block. -/
def span (size : Nat) : Nat :=
  match route_slab size with
  | some i => slabSize i
  | none => 2 ^ order_of size * PAGE_SIZE

/-- The blocks behind the allocations that went to the buddy allocator. -/
def bigBlocks (live : List (Nat × Nat)) : Set Block :=
  {d | ∃ e ∈ live, route_slab e.2 = none ∧ d = blk e.1 (order_of e.2)}

/-- The offsets of the allocations that went to a cache. -/
def slotsOf (live : List (Nat × Nat)) (i : Slab) : Set Nat :=
  {x | ∃ e ∈ live, route_slab e.2 = some i ∧ x = e.1}

/-- All blocks that the buddy lists count as live, but for the pages of one
cache. -/
def others (caches : Slab → Cache) (live : List (Nat × Nat)) (i : Slab) : Set Block :=
  bigBlocks live ∪ {d | ∃ j, j ≠ i ∧ d ∈ pageBlocks (caches j)}

/-- All blocks that the buddy lists count as live. -/
def poolBlocks (caches : Slab → Cache) (live : List (Nat × Nat)) : Set Block :=
  bigBlocks live ∪ {d | ∃ j, d ∈ pageBlocks (caches j)}

theorem poolBlocks_eq (caches : Slab → Cache) (live : List (Nat × Nat)) (i : Slab) :
    poolBlocks caches live = others caches live i ∪ pageBlocks (caches i) := by
  ext d
  constructor
  · rintro (hd | ⟨j, hd⟩)
    · exact Or.inl (Or.inl hd)
    · by_cases hj : j = i
      · exact Or.inr (hj ▸ hd)
      · exact Or.inl (Or.inr ⟨j, hj, hd⟩)
  · rintro ((hd | ⟨j, -, hd⟩) | hd)
    · exact Or.inl hd
    · exact Or.inr ⟨j, hd⟩
    · exact Or.inr ⟨i, hd⟩

/-- The other blocks do not depend on the cache, nor on what it has live. -/
theorem others_update (caches : Slab → Cache) (c : Cache) {live live' : List (Nat × Nat)} (i : Slab)
    (hbig : bigBlocks live' = bigBlocks live) :
    others (Function.update caches i c) live' i = others caches live i := by
  ext d
  simp only [others, hbig, Set.mem_union, Set.mem_ofPred_eq]
  constructor
  · rintro (hd | ⟨j, hj, hd⟩)
    · exact Or.inl hd
    · rw [Function.update_of_ne hj] at hd
      exact Or.inr ⟨j, hj, hd⟩
  · rintro (hd | ⟨j, hj, hd⟩)
    · exact Or.inl hd
    · exact Or.inr ⟨j, hj, by rwa [Function.update_of_ne hj]⟩

/-! ## The operations -/

/-- `gpuMalloc` on the lists. -/
def Pool.malloc (pool : Pool) (size : Nat) (malloc_ok : Bool) : Nat × Pool :=
  match route_slab size with
  | some i =>
    let r := (pool.caches i).alloc pool.lists malloc_ok
    match r.1 with
    | some x => (x, ⟨r.2.2, Function.update pool.caches i r.2.1, (x, size) :: pool.live⟩)
    | none => (NO_OFFSET, ⟨r.2.2, Function.update pool.caches i r.2.1, pool.live⟩)
  | none =>
    match pool.lists.alloc (order_of size) with
    | some (x, a) => (x, ⟨a, pool.caches, (x, size) :: pool.live⟩)
    | none => (NO_OFFSET, pool)

/-- `gpuFree` of a live allocation on the lists. -/
def Pool.free (pool : Pool) (e : Nat × Nat) : Pool :=
  match route_slab e.2 with
  | some i =>
    let r := (pool.caches i).release pool.lists e.1
    ⟨r.2, Function.update pool.caches i r.1, pool.live.erase e⟩
  | none =>
    ⟨pool.lists.release (BUDDY_MAX_ORDER + 1) e.1 (order_of e.2), pool.caches, pool.live.erase e⟩

/-! ## Routes and marks -/

theorem slotSize_slab (i : Slab) : SlotSize (slabSize i) := by
  cases i <;> exact ⟨by decide, by decide, by decide⟩

theorem slabMarker_inj {i j : Slab} (h : slabMarker i = slabMarker j) : i = j := by
  revert h
  cases i <;> cases j <;> decide

/-- No mark of a cache is an order of a block. -/
theorem slabMarker_ge (i : Slab) : BUDDY_MAX_ORDER ≤ (slabMarker i).toNat := by
  cases i <;> decide

theorem get_slab_slabMarker (i : Slab) : get_slab (slabMarker i) = some i := by
  cases i <;> decide

theorem get_slab_eq_some {m : UInt8} {i : Slab} (h : get_slab m = some i) : m = slabMarker i := by
  unfold get_slab at h
  split_ifs at h with h1 h2 h3 h4 h5 h6 <;> cases h <;> assumption

theorem get_slab_of_lt {m : UInt8} (h : m.toNat < BUDDY_MAX_ORDER) : get_slab m = none := by
  cases hg : get_slab m with
  | none => rfl
  | some i =>
    have := slabMarker_ge i
    rw [← get_slab_eq_some hg] at this
    omega

theorem route_slab_eq_some {n : Nat} {i : Slab} (h : route_slab n = some i) : n ≤ slabSize i := by
  unfold route_slab at h
  split_ifs at h <;> cases h <;> assumption

theorem route_slab_eq_none {n : Nat} : route_slab n = none ↔ 2048 < n := by
  unfold route_slab
  split_ifs <;> simp <;> omega

/-! ## The marks of the pages -/

/-- A page has the mark of a cache just when the cache has the page. -/
def Marked (a : FreeLists) (caches : Slab → Cache) : Prop :=
  ∀ i q, a.page_order q = slabMarker i ↔ q * PAGE_SIZE ∈ (caches i).pages

variable {a a' : FreeLists} {caches caches' : Slab → Cache} {L : Set Block} {p : Nat} {i : Slab}

theorem order_ne_marker {m : UInt8} (h : m.toNat < BUDDY_MAX_ORDER) (i : Slab) :
    m ≠ slabMarker i := by
  rintro rfl
  have := slabMarker_ge i
  omega

theorem Marked.keep (h : Marked a caches) (hk : KeepsOrders L a a')
    (hL : ∀ i, pageBlocks (caches i) ⊆ L) : Marked a' caches := by
  intro i q
  constructor
  · intro hq
    rcases hk.other q with he | he
    · exact (h i q).mp (he ▸ hq)
    · exact absurd hq (order_ne_marker he i)
  · intro hq
    rw [hk.live _ (hL i ⟨_, hq, rfl⟩) q (Block.covers_lo _)]
    exact (h i q).mpr hq

theorem Marked.congr (h : Marked a caches) (hp : ∀ j, (caches' j).pages = (caches j).pages) :
    Marked a caches' := by
  intro j q
  rw [hp j]
  exact h j q

/-- A new page gets the mark of its cache. -/
theorem Marked.addPage (h : Marked a caches) (hp : PAGE_SIZE ∣ p) (hnew : ∀ j, p ∉ (caches j).pages)
    (i : Slab) : Marked (a.setOrder (p / PAGE_SIZE) (slabMarker i))
      (Function.update caches i ((caches i).addPage p)) := by
  intro j q
  have hq : q = p / PAGE_SIZE ↔ q * PAGE_SIZE = p := by
    rw [Nat.eq_div_iff_mul_eq_left (by decide) hp, eq_comm]
  by_cases hqp : q * PAGE_SIZE = p
  · have hsame : (a.setOrder (p / PAGE_SIZE) (slabMarker i)).page_order q = slabMarker i := by
      simp [FreeLists.setOrder, hq.mpr hqp]
    rw [hsame, hqp]
    by_cases hj : j = i
    · subst hj
      simp [Cache.addPage]
    · rw [Function.update_of_ne hj]
      exact iff_of_false (fun he => hj (slabMarker_inj he).symm) (hnew j)
  · have hkeep : (a.setOrder (p / PAGE_SIZE) (slabMarker i)).page_order q = a.page_order q := by
      simp [FreeLists.setOrder, mt hq.mp hqp]
    rw [hkeep, h j q]
    by_cases hj : j = i
    · subst hj
      simp [Cache.addPage, hqp]
    · rw [Function.update_of_ne hj]

/-- A page that leaves its cache loses the mark. -/
theorem Marked.dropPage {c : Cache} (h : Marked a caches)
    (hpages : c.pages = (caches i).pages.erase p) (hnd : (caches i).pages.Nodup)
    (hother : ∀ j, j ≠ i → p ∉ (caches j).pages) (hk : KeepsOrders L a a')
    (hL : ∀ j, ∀ q ∈ (caches j).pages, q ≠ p → blk q 0 ∈ L)
    (hlt : (a'.page_order (p / PAGE_SIZE)).toNat < BUDDY_MAX_ORDER) :
    Marked a' (Function.update caches i c) := by
  -- The page is in no cache now, and every other page is where it was.
  have hmem : ∀ j q, q ∈ (Function.update caches i c j).pages ↔ q ∈ (caches j).pages ∧ q ≠ p := by
    intro j q
    by_cases hj : j = i
    · subst hj
      rw [Function.update_self, hpages, hnd.mem_erase_iff, and_comm]
    · rw [Function.update_of_ne hj]
      exact ⟨fun hq => ⟨hq, fun he => hother j hj (he ▸ hq)⟩, fun hq => hq.1⟩
  intro j q
  rw [hmem]
  by_cases hqp : q * PAGE_SIZE = p
  · have hq : q = p / PAGE_SIZE := by rw [← hqp, Nat.mul_div_cancel q (by decide)]
    exact iff_of_false (hq ▸ order_ne_marker hlt j) fun hc => hc.2 hqp
  · constructor
    · intro hq
      rcases hk.other q with he | he
      · exact ⟨(h j q).mp (he ▸ hq), hqp⟩
      · exact absurd hq (order_ne_marker he j)
    · rintro ⟨hq, -⟩
      rw [hk.live _ (hL j _ hq hqp) q (Block.covers_lo _)]
      exact (h j q).mpr hq

/-- No page is in two caches. -/
theorem Marked.unique {j : Slab} (h : Marked a caches) (hp : PAGE_SIZE ∣ p)
    (hi : p ∈ (caches i).pages) (hj : p ∈ (caches j).pages) : i = j := by
  have hpage : p / PAGE_SIZE * PAGE_SIZE = p := Nat.div_mul_cancel hp
  have h1 := (h i (p / PAGE_SIZE)).mpr (by rwa [hpage])
  have h2 := (h j (p / PAGE_SIZE)).mpr (by rwa [hpage])
  exact slabMarker_inj (h1.symm.trans h2)

/-! ## What a list of live allocations says -/

variable {live : List (Nat × Nat)} {x n : Nat}

theorem bigBlocks_cons_slab (hn : route_slab n = some i) :
    bigBlocks ((x, n) :: live) = bigBlocks live := by
  ext d
  simp [bigBlocks, hn]

theorem bigBlocks_cons_big (hn : route_slab n = none) :
    bigBlocks ((x, n) :: live) = insert (blk x (order_of n)) (bigBlocks live) := by
  ext d
  simp [bigBlocks, hn]

theorem slotsOf_cons_same (hn : route_slab n = some i) :
    slotsOf ((x, n) :: live) i = insert x (slotsOf live i) := by
  ext y
  simp [slotsOf, hn]

theorem slotsOf_cons_ne (hn : route_slab n ≠ some i) :
    slotsOf ((x, n) :: live) i = slotsOf live i := by
  ext y
  simp [slotsOf, hn]

variable {e : Nat × Nat}

/-- Two live allocations at one offset are the same. -/
theorem eq_of_offset {e' : Nat × Nat} (hnd : (live.map Prod.fst).Nodup) (he : e ∈ live)
    (he' : e' ∈ live) (h : e.1 = e'.1) : e = e' :=
  List.inj_on_of_nodup_map hnd he he' h

theorem bigBlocks_erase_slab (hnd : (live.map Prod.fst).Nodup) (hn : route_slab e.2 = some i) :
    bigBlocks (live.erase e) = bigBlocks live := by
  ext d
  simp only [bigBlocks, Set.mem_ofPred_eq, hnd.of_map.mem_erase_iff]
  constructor
  · rintro ⟨f, ⟨-, hf⟩, h1, h2⟩
    exact ⟨f, hf, h1, h2⟩
  · rintro ⟨f, hf, h1, h2⟩
    refine ⟨f, ⟨?_, hf⟩, h1, h2⟩
    rintro rfl
    rw [hn] at h1
    cases h1

theorem bigBlocks_erase_big (hnd : (live.map Prod.fst).Nodup) (he : e ∈ live) :
    bigBlocks (live.erase e) = bigBlocks live \ {blk e.1 (order_of e.2)} := by
  ext d
  simp only [bigBlocks, Set.mem_ofPred_eq, hnd.of_map.mem_erase_iff, Set.mem_sdiff,
    Set.mem_singleton_iff]
  constructor
  · rintro ⟨f, ⟨hne, hf⟩, h1, rfl⟩
    exact ⟨⟨f, hf, h1, rfl⟩, fun hb => hne (eq_of_offset hnd hf he (blk_inj.mp hb).1)⟩
  · rintro ⟨⟨f, hf, h1, rfl⟩, hne⟩
    exact ⟨f, ⟨fun hfe => hne (by rw [hfe]), hf⟩, h1, rfl⟩

theorem slotsOf_erase_same (hnd : (live.map Prod.fst).Nodup) (he : e ∈ live) (i : Slab) :
    slotsOf (live.erase e) i = slotsOf live i \ {e.1} := by
  ext y
  simp only [slotsOf, Set.mem_ofPred_eq, hnd.of_map.mem_erase_iff, Set.mem_sdiff,
    Set.mem_singleton_iff]
  constructor
  · rintro ⟨f, ⟨hne, hf⟩, h1, rfl⟩
    exact ⟨⟨f, hf, h1, rfl⟩, fun hb => hne (eq_of_offset hnd hf he hb)⟩
  · rintro ⟨⟨f, hf, h1, rfl⟩, hne⟩
    exact ⟨f, ⟨fun hfe => hne (by rw [hfe]), hf⟩, h1, rfl⟩

theorem slotsOf_erase_ne (hnd : (live.map Prod.fst).Nodup) (hn : route_slab e.2 ≠ some i) :
    slotsOf (live.erase e) i = slotsOf live i := by
  ext y
  simp only [slotsOf, Set.mem_ofPred_eq, hnd.of_map.mem_erase_iff]
  constructor
  · rintro ⟨f, ⟨-, hf⟩, h1, h2⟩
    exact ⟨f, hf, h1, h2⟩
  · rintro ⟨f, hf, h1, h2⟩
    exact ⟨f, ⟨fun hfe => hn (hfe ▸ h1), hf⟩, h1, h2⟩

/-! ## The invariant -/

structure Good (T : Nat) (p : Pool) : Prop where
  tiled : Tiled T (poolBlocks p.caches p.live) p.lists
  sound : ∀ i, Sound (p.caches i) (slotsOf p.live i)
  sizes : ∀ i, (p.caches i).object_size = slabSize i
  markers : ∀ i, (p.caches i).marker = slabMarker i
  marked : Marked p.lists p.caches
  orders : ∀ e ∈ p.live, route_slab e.2 = none →
    (p.lists.page_order (e.1 / PAGE_SIZE)).toNat = order_of e.2
  nodup : (p.live.map Prod.fst).Nodup

/-- The block of the tiling that an allocation lies in. -/
def home (e : Nat × Nat) : Block :=
  match route_slab e.2 with
  | some _ => blk (pageOf e.1) 0
  | none => blk e.1 (order_of e.2)

theorem home_slab (h : route_slab e.2 = some i) : home e = blk (pageOf e.1) 0 := by
  simp [home, h]

theorem home_big (h : route_slab e.2 = none) : home e = blk e.1 (order_of e.2) := by
  simp [home, h]

theorem span_slab (h : route_slab n = some i) : span n = slabSize i := by
  simp [span, h]

theorem span_big (h : route_slab n = none) : span n = 2 ^ (order_of n + 12) := by
  simp [span, h, pow_mul_page]

theorem span_pos (n : Nat) : 0 < span n := by
  cases hr : route_slab n with
  | some i =>
    rw [span_slab hr]
    exact (slotSize_slab i).pos
  | none =>
    rw [span_big hr]
    exact Nat.two_pow_pos _

section

variable {T : Nat} {pool : Pool} {e' : Nat × Nat}

theorem Good.tiled_cache (h : Good T pool) (i : Slab) :
    Tiled T (others pool.caches pool.live i ∪ pageBlocks (pool.caches i)) pool.lists := by
  rw [← poolBlocks_eq]
  exact h.tiled

theorem Good.slot (h : Good T pool) (he : e ∈ pool.live) (hi : route_slab e.2 = some i) :
    (pool.caches i).IsSlot e.1 :=
  (h.sound i).live e.1 ⟨e, he, hi, rfl⟩

theorem Good.home_mem (h : Good T pool) (he : e ∈ pool.live) :
    home e ∈ poolBlocks pool.caches pool.live := by
  cases hr : route_slab e.2 with
  | some i =>
    rw [home_slab hr]
    exact Or.inr ⟨i, _, (h.slot he hr).2, rfl⟩
  | none =>
    rw [home_big hr]
    exact Or.inl ⟨e, he, hr, rfl⟩

theorem Good.home_covers (h : Good T pool) (he : e ∈ pool.live) {z : Nat} (h1 : e.1 ≤ z)
    (h2 : z < e.1 + span e.2) : (home e).Covers z := by
  cases hr : route_slab e.2 with
  | some i =>
    rw [span_slab hr] at h2
    have hslot := (h.slot he hr).1
    rw [h.sizes i] at hslot
    have h3 := pageOf_le e.1
    have h4 := slot_fits (slotSize_slab i) hslot
    rw [home_slab hr, Block.Covers, blk_lo, blk_exp]
    unfold PAGE_SIZE at h4
    omega
  | none =>
    rw [span_big hr] at h2
    rw [home_big hr]
    exact ⟨h1, h2⟩

/-- The block of a large allocation is no page of a cache. -/
theorem Good.big_ne_page (h : Good T pool) (he : e ∈ pool.live) (hr : route_slab e.2 = none)
    (hp : p ∈ (pool.caches i).pages) : blk e.1 (order_of e.2) ≠ blk p 0 := by
  intro heq
  obtain ⟨h1, -⟩ := blk_inj.mp heq
  have hlt := h.tiled.order_lt (Or.inr (Or.inl ⟨e, he, hr, rfl⟩))
  rw [← h.orders e he hr] at hlt
  refine order_ne_marker hlt i ((h.marked i _).mpr ?_)
  rw [h1, Nat.div_mul_cancel ((h.sound i).aligned p hp)]
  exact hp

/-- Allocations in one block are slots of one cache, or the same allocation. -/
theorem Good.home_eq (h : Good T pool) (he : e ∈ pool.live) (he' : e' ∈ pool.live)
    (heq : home e = home e') : e = e' ∨ ∃ i, route_slab e.2 = some i ∧ route_slab e'.2 = some i := by
  cases hr : route_slab e.2 with
  | none =>
    cases hr' : route_slab e'.2 with
    | none =>
      rw [home_big hr, home_big hr'] at heq
      exact Or.inl (eq_of_offset h.nodup he he' (blk_inj.mp heq).1)
    | some j =>
      rw [home_big hr, home_slab hr'] at heq
      exact absurd heq (h.big_ne_page he hr (h.slot he' hr').2)
  | some i =>
    cases hr' : route_slab e'.2 with
    | none =>
      rw [home_slab hr, home_big hr'] at heq
      exact absurd heq.symm (h.big_ne_page he' hr' (h.slot he hr).2)
    | some j =>
      rw [home_slab hr, home_slab hr'] at heq
      have hp := (h.slot he' hr').2
      rw [← (blk_inj.mp heq).1] at hp
      have hij := h.marked.unique (page_dvd_pageOf e.1) (h.slot he hr).2 hp
      exact Or.inr ⟨i, rfl, by rw [hij]⟩

/-- The bytes behind two live allocations do not overlap. -/
theorem Good.apart (h : Good T pool) (he : e ∈ pool.live) (he' : e' ∈ pool.live) (hne : e ≠ e') :
    e.1 + span e.2 ≤ e'.1 ∨ e'.1 + span e'.2 ≤ e.1 := by
  by_contra hc
  have hpos := span_pos e.2
  have hpos' := span_pos e'.2
  -- A common byte makes the blocks equal, and slots of one cache lie apart.
  have h1 := h.home_covers he (z := max e.1 e'.1) (by omega) (by omega)
  have h2 := h.home_covers he' (z := max e.1 e'.1) (by omega) (by omega)
  have heq := h.tiled.tiling.apart _ (Or.inr (h.home_mem he)) _ (Or.inr (h.home_mem he')) _ h1 h2
  rcases h.home_eq he he' heq with hsame | ⟨i, hr, hr'⟩
  · exact hne hsame
  · have hs := (h.slot he hr).1
    have hs' := (h.slot he' hr').1
    rw [h.sizes i] at hs hs'
    rw [span_slab hr, span_slab hr'] at hc
    have hoff : e.1 ≠ e'.1 := fun ho => hne (eq_of_offset h.nodup he he' ho)
    exact hc (slots_apart hs hs' hoff)

/-! ## The operations keep the invariant -/

/-- A large allocation covers its first page. -/
theorem Good.big_covers (h : Good T pool) (he : e ∈ pool.live) (hr : route_slab e.2 = none) :
    (blk e.1 (order_of e.2)).Covers (e.1 / PAGE_SIZE * PAGE_SIZE) := by
  have hdvd := h.tiled.page_dvd (x := e.1) (k := order_of e.2) (Or.inr (Or.inl ⟨e, he, hr, rfl⟩))
  rw [show e.1 / PAGE_SIZE * PAGE_SIZE = e.1 from Nat.div_mul_cancel hdvd]
  exact Block.covers_lo _

/-- The orders of the large allocations stay when the orders of live blocks do. -/
theorem Good.orders_keep (a' : FreeLists) (h : Good T pool)
    (hk : ∀ e ∈ pool.live, route_slab e.2 = none → ∀ q,
      (blk e.1 (order_of e.2)).Covers (q * PAGE_SIZE) → a'.page_order q = pool.lists.page_order q) :
    ∀ e ∈ pool.live, route_slab e.2 = none →
      (a'.page_order (e.1 / PAGE_SIZE)).toNat = order_of e.2 := by
  intro e he hr
  rw [hk e he hr _ (h.big_covers he hr)]
  exact h.orders e he hr

theorem pages_subset (pool : Pool) (i j : Slab) : pageBlocks (pool.caches j) ⊆
    others pool.caches pool.live i ∪ pageBlocks (pool.caches i) := by
  intro d hd
  rw [← poolBlocks_eq]
  exact Or.inr ⟨j, hd⟩

theorem Good.marked_grow (h : Good T pool) (i : Slab)
    (ha : pool.lists.alloc 0 = some (p, a')) : Marked (a'.setOrder (p / PAGE_SIZE) (slabMarker i))
      (Function.update pool.caches i ((pool.caches i).addPage p)) := by
  obtain ⟨hdvd, -, -⟩ := new_page (h.tiled_cache i) ha
  obtain ⟨-, hnew, -⟩ := h.tiled.alloc (by decide) ha
  have hkeep := (h.tiled_cache i).alloc_keeps (by decide) ha
  apply (h.marked.keep hkeep (pages_subset pool i)).addPage hdvd
  exact fun j hp => hnew (Or.inr ⟨j, p, hp, rfl⟩)

/-- What a cache does keeps the marks. -/
theorem Good.marked_alloc (h : Good T pool) (i : Slab) (malloc_ok : Bool) :
    Marked ((pool.caches i).alloc pool.lists malloc_ok).2.2
      (Function.update pool.caches i ((pool.caches i).alloc pool.lists malloc_ok).2.1) := by
  obtain ⟨-, -, hcase⟩ := (h.sound i).alloc_lists (h.tiled_cache i) malloc_ok
  rcases hcase with ⟨hpages, hkeep⟩ | ⟨p, a', ha, hpages, hlists⟩
  · apply (h.marked.keep hkeep (pages_subset pool i)).congr
    intro j
    by_cases hj : j = i
    · subst hj
      rw [Function.update_self, hpages]
    · rw [Function.update_of_ne hj]
  · rw [hlists, h.markers i]
    apply (h.marked_grow i ha).congr
    intro j
    by_cases hj : j = i
    · subst hj
      rw [Function.update_self, Function.update_self, hpages]
      rfl
    · rw [Function.update_of_ne hj, Function.update_of_ne hj]

/-- The offset of a new slot is the offset of no live allocation. -/
theorem Good.slot_fresh {c : Cache} {V : Set Nat} (h : Good T pool) (hc : Sound c (insert x V))
    (hx : x ∉ slotsOf pool.live i) (hm : Marked a' (Function.update pool.caches i c))
    (ht : Tiled T (others pool.caches pool.live i ∪ pageBlocks c) a')
    (ho : ∀ e ∈ pool.live, route_slab e.2 = none →
      (a'.page_order (e.1 / PAGE_SIZE)).toNat = order_of e.2) :
    x ∉ pool.live.map Prod.fst := by
  intro hmem
  obtain ⟨e, he, rfl⟩ := List.mem_map.mp hmem
  have hpage := (hc.live e.1 (Or.inl rfl)).2
  cases hr : route_slab e.2 with
  | none =>
    have hbig : blk e.1 (order_of e.2) ∈ others pool.caches pool.live i ∪ pageBlocks c :=
      Or.inl (Or.inl ⟨e, he, hr, rfl⟩)
    have hmark := (hm i (e.1 / PAGE_SIZE)).mpr (by rw [Function.update_self]; exact hpage)
    have hlt := ht.order_lt (Or.inr hbig)
    rw [← ho e he hr] at hlt
    exact order_ne_marker hlt i hmark
  | some j =>
    by_cases hj : j = i
    · subst hj
      exact hx ⟨e, he, hr, rfl⟩
    · have hp : pageOf e.1 ∈ (Function.update pool.caches i c j).pages := by
        rw [Function.update_of_ne hj]
        exact (h.slot he hr).2
      exact hj (hm.unique (page_dvd_pageOf e.1) hp (by rw [Function.update_self]; exact hpage))

/-- A change of one cache keeps the invariant when it fits the other blocks. -/
theorem Good.update_cache {c : Cache} (live' : List (Nat × Nat)) (h : Good T pool)
    (ht : Tiled T (others pool.caches pool.live i ∪ pageBlocks c) a')
    (hbig : bigBlocks live' = bigBlocks pool.live) (hc : Sound c (slotsOf live' i))
    (hfields : c.object_size = (pool.caches i).object_size ∧ c.marker = (pool.caches i).marker)
    (hslots : ∀ j, j ≠ i → slotsOf live' j = slotsOf pool.live j)
    (hm : Marked a' (Function.update pool.caches i c))
    (ho : ∀ e ∈ live', route_slab e.2 = none →
      (a'.page_order (e.1 / PAGE_SIZE)).toNat = order_of e.2)
    (hnd : (live'.map Prod.fst).Nodup) : Good T ⟨a', Function.update pool.caches i c, live'⟩ := by
  refine ⟨?_, fun j => ?_, fun j => ?_, fun j => ?_, hm, ho, hnd⟩
  · simp only
    rw [poolBlocks_eq _ _ i, others_update _ _ i hbig, Function.update_self]
    exact ht
  · by_cases hj : j = i
    · subst hj
      simpa using hc
    · simpa [hj, hslots j hj] using h.sound j
  · by_cases hj : j = i
    · subst hj
      simpa [hfields.1] using h.sizes j
    · simpa [hj] using h.sizes j
  · by_cases hj : j = i
    · subst hj
      simpa [hfields.2] using h.markers j
    · simpa [hj] using h.markers j

theorem Good.malloc_slab {size : Nat} (h : Good T pool) (hr : route_slab size = some i)
    (malloc_ok : Bool)
    (ht : Tiled T (others pool.caches pool.live i ∪
      pageBlocks ((pool.caches i).alloc pool.lists malloc_ok).2.1)
      ((pool.caches i).alloc pool.lists malloc_ok).2.2) :
    Good T (pool.malloc size malloc_ok).2 := by
  obtain ⟨hfail, hsome⟩ := (h.sound i).alloc (h.tiled_cache i) malloc_ok
  obtain ⟨hlive, -, -⟩ := (h.sound i).alloc_lists (h.tiled_cache i) malloc_ok
  have hfields := (pool.caches i).alloc_fields pool.lists malloc_ok
  have hm := h.marked_alloc i malloc_ok
  have ho := h.orders_keep ((pool.caches i).alloc pool.lists malloc_ok).2.2
    fun e he hb => hlive _ (Or.inl (Or.inl ⟨e, he, hb, rfl⟩))
  unfold Pool.malloc
  simp only [hr]
  cases hx : ((pool.caches i).alloc pool.lists malloc_ok).1 with
  | none =>
    have hc : Sound ((pool.caches i).alloc pool.lists malloc_ok).2.1 (slotsOf pool.live i) := by
      rw [hfail hx]
      exact h.sound i
    exact h.update_cache _ ht rfl hc hfields (fun _ _ => rfl) hm ho h.nodup
  | some x =>
    obtain ⟨hnew, hc, -⟩ := hsome x hx
    refine h.update_cache _ ht (bigBlocks_cons_slab hr) ?_ hfields ?_ hm ?_ ?_
    · rw [slotsOf_cons_same hr]
      exact hc
    · exact fun j hj => slotsOf_cons_ne (by rw [hr]; simpa using hj.symm)
    · intro e he hb
      cases he with
      | head => simp [hr] at hb
      | tail _ he => exact ho e he hb
    · exact List.nodup_cons.mpr ⟨h.slot_fresh hc hnew hm ht ho, h.nodup⟩

theorem Good.malloc_big {size : Nat} (h : Good T pool) (hr : route_slab size = none)
    (ha : pool.lists.alloc (order_of size) = some (x, a')) :
    Good T ⟨a', pool.caches, (x, size) :: pool.live⟩ := by
  have hk := order_of_le size
  obtain ⟨htiled, hnew, hord⟩ := h.tiled.alloc hk ha
  have hkeep := h.tiled.alloc_keeps hk ha
  have hblocks : poolBlocks pool.caches ((x, size) :: pool.live) =
      insert (blk x (order_of size)) (poolBlocks pool.caches pool.live) := by
    rw [poolBlocks, bigBlocks_cons_big hr, Set.insert_union]
    rfl
  refine ⟨?_, fun j => ?_, h.sizes, h.markers, ?_, ?_, ?_⟩
  · simp only
    rw [hblocks]
    exact htiled
  · simp only
    rw [slotsOf_cons_ne (by rw [hr]; simp)]
    exact h.sound j
  · exact h.marked.keep hkeep fun j d hd => Or.inr ⟨j, hd⟩
  · intro e he hb
    cases he with
    | head =>
      simp only [hord, Function.update_self, UInt8.toNat_ofNat']
      have := htiled.order_lt (Or.inr (Or.inl rfl))
      unfold BUDDY_MAX_ORDER at this
      exact Nat.mod_eq_of_lt (by omega)
    | tail _ he =>
      exact h.orders_keep _ (fun e he hb => hkeep.live _ (Or.inl ⟨e, he, hb, rfl⟩)) e he hb
  · -- The home of an allocation at the same offset would be the new block.
    refine List.nodup_cons.mpr ⟨fun hmem => ?_, h.nodup⟩
    obtain ⟨e, he, rfl⟩ := List.mem_map.mp hmem
    have hcov := h.home_covers he (Nat.le_refl e.1) (Nat.lt_add_of_pos_right (span_pos e.2))
    have heq := htiled.tiling.apart _ (Or.inr (Or.inr (h.home_mem he))) _ (Or.inr (Or.inl rfl)) _
      hcov (Block.covers_lo (blk e.1 (order_of size)))
    exact hnew (heq ▸ h.home_mem he)

theorem Good.free_slab (h : Good T pool) (he : e ∈ pool.live) (hr : route_slab e.2 = some i)
    (ht : Tiled T (others pool.caches pool.live i ∪
      pageBlocks ((pool.caches i).release pool.lists e.1).1)
      ((pool.caches i).release pool.lists e.1).2) : Good T (pool.free e) := by
  have hx : e.1 ∈ slotsOf pool.live i := ⟨e, he, hr, rfl⟩
  have hslot := h.slot he hr
  have hcase := (h.sound i).release_lists (h.tiled_cache i) hx
  have hpage : ∀ j, j ≠ i → pageOf e.1 ∉ (pool.caches j).pages := fun j hj hp =>
    hj (h.marked.unique (page_dvd_pageOf e.1) hp hslot.2)
  have hm : Marked ((pool.caches i).release pool.lists e.1).2
      (Function.update pool.caches i ((pool.caches i).release pool.lists e.1).1) := by
    rcases hcase with ⟨hpages, hlists⟩ | ⟨hpages, hkeep, hlt⟩
    · rw [hlists]
      apply h.marked.congr
      intro j
      by_cases hj : j = i
      · subst hj
        rw [Function.update_self, hpages]
      · rw [Function.update_of_ne hj]
    · refine h.marked.dropPage hpages (h.sound i).pages_nodup hpage hkeep ?_ hlt
      intro j q hq hne
      rw [← poolBlocks_eq]
      exact ⟨Or.inr ⟨j, q, hq, rfl⟩, fun hb => hne (blk_inj.mp hb).1⟩
  have ho : ∀ f ∈ pool.live, route_slab f.2 = none →
      (((pool.caches i).release pool.lists e.1).2.page_order (f.1 / PAGE_SIZE)).toNat =
        order_of f.2 := by
    rcases hcase with ⟨-, hlists⟩ | ⟨-, hkeep, -⟩
    · rw [hlists]
      exact h.orders
    · apply h.orders_keep
      intro f hf hb
      exact hkeep.live _ ⟨Or.inl (Or.inl ⟨f, hf, hb, rfl⟩), h.big_ne_page hf hb hslot.2⟩
  unfold Pool.free
  simp only [hr]
  refine h.update_cache _ ht (bigBlocks_erase_slab h.nodup hr) ?_
    ((pool.caches i).release_fields pool.lists e.1) ?_ hm ?_ ?_
  · rw [slotsOf_erase_same h.nodup he]
    exact (h.sound i).release hx pool.lists
  · exact fun j hj => slotsOf_erase_ne h.nodup (by rw [hr]; simpa using hj.symm)
  · exact fun f hf hb => ho f (List.mem_of_mem_erase hf) hb
  · exact h.nodup.sublist (List.Sublist.map _ List.erase_sublist)

theorem Good.free_big (h : Good T pool) (he : e ∈ pool.live) (hr : route_slab e.2 = none) :
    Good T (pool.free e) := by
  have hbig : blk e.1 (order_of e.2) ∈ bigBlocks pool.live := ⟨e, he, hr, rfl⟩
  have hL : blk e.1 (order_of e.2) ∈ poolBlocks pool.caches pool.live := Or.inl hbig
  have hkeep := h.tiled.release_keeps (n := BUDDY_MAX_ORDER + 1) hL
  have hpages : ∀ j, blk e.1 (order_of e.2) ∉ pageBlocks (pool.caches j) := by
    rintro j ⟨q, hq, hb⟩
    exact h.big_ne_page he hr hq hb
  have hblocks : poolBlocks pool.caches (pool.live.erase e) =
      poolBlocks pool.caches pool.live \ {blk e.1 (order_of e.2)} := by
    ext d
    simp only [poolBlocks, bigBlocks_erase_big h.nodup he, Set.mem_union, Set.mem_sdiff,
      Set.mem_singleton_iff, Set.mem_ofPred_eq]
    constructor
    · rintro (⟨hd, hne⟩ | ⟨j, hd⟩)
      · exact ⟨Or.inl hd, hne⟩
      · exact ⟨Or.inr ⟨j, hd⟩, fun hb => hpages j (hb ▸ hd)⟩
    · rintro ⟨hd | hd, hne⟩
      · exact Or.inl ⟨hd, hne⟩
      · exact Or.inr hd
  unfold Pool.free
  simp only [hr]
  refine ⟨?_, fun j => ?_, h.sizes, h.markers, ?_, ?_, ?_⟩
  · simp only
    rw [hblocks]
    exact h.tiled.release hL (by omega)
  · simp only
    rw [slotsOf_erase_ne h.nodup (by rw [hr]; simp)]
    exact h.sound j
  · apply h.marked.keep hkeep
    exact fun j d hd => ⟨Or.inr ⟨j, hd⟩, fun hb => hpages j (hb ▸ hd)⟩
  · intro f hf hb
    obtain ⟨hne, hf⟩ := h.nodup.of_map.mem_erase_iff.mp hf
    have hother : blk f.1 (order_of f.2) ∈ poolBlocks pool.caches pool.live \
        {blk e.1 (order_of e.2)} :=
      ⟨Or.inl ⟨f, hf, hb, rfl⟩, fun hc => hne (eq_of_offset h.nodup hf he (blk_inj.mp hc).1)⟩
    simp only
    rw [hkeep.live _ hother _ (h.big_covers hf hb)]
    exact h.orders f hf hb
  · exact h.nodup.sublist (List.Sublist.map _ List.erase_sublist)

/-! ## No cache has an idle page -/

/-- Every cache has a page, and no page to spare. -/
def Calm (pool : Pool) : Prop := ∀ i, Settled (pool.caches i)

theorem Calm.update {c : Cache} {live' : List (Nat × Nat)} (h : Calm pool) (hc : Settled c) :
    Calm ⟨a', Function.update pool.caches i c, live'⟩ := by
  intro j
  by_cases hj : j = i
  · subst hj
    simpa using hc
  · simpa [hj] using h j

theorem Good.malloc_calm {size : Nat} (h : Good T pool) (hcalm : Calm pool) (malloc_ok : Bool) :
    Calm (pool.malloc size malloc_ok).2 := by
  unfold Pool.malloc
  cases hr : route_slab size with
  | none =>
    simp only
    cases pool.lists.alloc (order_of size) with
    | none => exact hcalm
    | some r => exact hcalm
  | some i =>
    obtain ⟨hfail, hsome⟩ := (h.sound i).alloc (h.tiled_cache i) malloc_ok
    simp only
    cases hx : ((pool.caches i).alloc pool.lists malloc_ok).1 with
    | none => exact hcalm.update (by rw [hfail hx]; exact hcalm i)
    | some x => exact hcalm.update ((hsome x hx).2.2 (hcalm i))

theorem Good.free_calm (h : Good T pool) (hcalm : Calm pool) (he : e ∈ pool.live) :
    Calm (pool.free e) := by
  unfold Pool.free
  cases hr : route_slab e.2 with
  | none => exact hcalm
  | some i =>
    exact hcalm.update ((h.sound i).release_settled (hcalm i) ⟨e, he, hr, rfl⟩ pool.lists)

end

end gpgpu.context
