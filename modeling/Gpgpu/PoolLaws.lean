-- The laws of the library. A run makes any calls in any order, frees only what is
-- live, and writes any bytes into what it holds. The code follows the pool through
-- every run, so the laws below hold in every state that a run can reach.
import Gpgpu.Lib.Runs
import Gpgpu.PoolRefine

open memory dyadic links runs

namespace gpgpu.context

open buddy slab

/-! ## Runs -/

/-- What a program does: it calls the library, where `malloc_ok` says if the host
has memory for a new record, or it writes into an allocation. -/
inductive Event
  | malloc (size : Nat) (malloc_ok : Bool)
  | free (offset : Nat)
  | write (offset : Nat) (bytes : List UInt8)

/-- An event that is a call, and not a write. -/
def Event.isCall : Event → Bool
  | .write _ _ => false
  | _ => true

/-- What a call returned. -/
inductive Returned
  | offset (x : Nat)
  | status (r : Int)
deriving DecidableEq

/-- The context, the live allocations with their offsets and sizes, and what the
calls have returned, the last one first. -/
structure State where
  ctx : GpgpuCtx
  live : List (Nat × Nat)
  returned : List Returned

/-- The bytes from `offset` on lie in what a live allocation asked for. -/
def allowed (live : List (Nat × Nat)) (offset len : Nat) : Bool :=
  live.any fun e => e.1 ≤ offset && offset + len ≤ e.1 + e.2

/-- One event. A program that holds nothing at an offset does not free it, and
does not write there. -/
def step (s : State) : Event → Option State
  | .malloc size malloc_ok => do
    let (x, ctx) ← gpuMalloc s.ctx size malloc_ok
    let live := if x = NO_OFFSET then s.live else (x, size) :: s.live
    return ⟨ctx, live, .offset x :: s.returned⟩
  | .free offset =>
    match s.live.find? (·.1 = offset) with
    | none => some s
    | some e => do
      let (r, ctx) ← gpuFree s.ctx offset
      return ⟨ctx, s.live.erase e, .status r :: s.returned⟩
  | .write offset bytes =>
    if allowed s.live offset bytes.length then
      let r := gpuMemcpy s.ctx offset (fun k => bytes.getD k 0) bytes.length GPU_MEMCPY_H2D
      some { s with ctx := r.2.1 }
    else some s

/-! ## The run of the pool -/

/-- What an event does to the pool, and what it returns. -/
def follow (t : Pool × List Returned) : Event → Pool × List Returned
  | .malloc size malloc_ok =>
    ((t.1.malloc size malloc_ok).2, .offset (t.1.malloc size malloc_ok).1 :: t.2)
  | .free offset =>
    match t.1.live.find? (·.1 = offset) with
    | none => t
    | some e => (t.1.free e, .status 0 :: t.2)
  | .write _ _ => t

/-- The state follows the pool. -/
structure Follows (T : Nat) (s : State) (t : Pool × List Returned) : Prop where
  carries : Carries T s.ctx t.1
  calm : Calm t.1
  live : s.live = t.1.live
  returned : s.returned = t.2

variable {T : Nat} {s : State} {t : Pool × List Returned} {ctx : GpgpuCtx} {pool : Pool}

/-- The live allocations after a call of `gpuMalloc`. -/
theorem Carries.malloc_live (h : Carries T ctx pool) (size : Nat) (malloc_ok : Bool) :
    (pool.malloc size malloc_ok).2.live = if (pool.malloc size malloc_ok).1 = NO_OFFSET
      then pool.live else ((pool.malloc size malloc_ok).1, size) :: pool.live := by
  obtain ⟨ctx', -, hcar, -, -⟩ := gpuMalloc_spec h size malloc_ok
  have hcases : ((pool.malloc size malloc_ok).1 = NO_OFFSET ∧
      (pool.malloc size malloc_ok).2.live = pool.live) ∨
      (pool.malloc size malloc_ok).2.live =
        ((pool.malloc size malloc_ok).1, size) :: pool.live := by
    unfold Pool.malloc
    cases route_slab size with
    | some i =>
      simp only
      cases ((pool.caches i).alloc pool.lists malloc_ok).1 with
      | none => exact Or.inl ⟨rfl, rfl⟩
      | some x => exact Or.inr rfl
    | none =>
      simp only
      cases pool.lists.alloc (order_of size) with
      | none => exact Or.inl ⟨rfl, rfl⟩
      | some r => exact Or.inr rfl
  rcases hcases with ⟨h1, h2⟩ | h2
  · rw [if_pos h1, h2]
  · -- A live offset lies below the end of the memory, so it is not the error value.
    have hpage := hcar.page_lt (e := ((pool.malloc size malloc_ok).1, size)) (by rw [h2]; simp)
    rw [if_neg, h2]
    intro hno
    rw [hno] at hpage
    revert hpage
    decide

/-- What a program may rely on when `gpuMalloc` returns: it holds the new allocation
beside the old ones, and their bytes are as they were. -/
theorem Carries.grant {ctx' : GpgpuCtx} {size x : Nat} {malloc_ok : Bool} (h : Carries T ctx pool)
    (hcode : gpuMalloc ctx size malloc_ok = some (x, ctx')) :
    ∃ pool', Carries T ctx' pool' ∧
      pool'.live = (if x = NO_OFFSET then pool.live else (x, size) :: pool.live) ∧
      ctx'.vram_mmap = ctx.vram_mmap ∧
      ∀ e ∈ pool.live, ∀ y, InSpan ctx.vram_mmap e y → ctx'.buddy.mem y = ctx.buddy.mem y := by
  obtain ⟨ctx1, hcode1, hcar, hbase, hout⟩ := gpuMalloc_spec h size malloc_ok
  rw [hcode] at hcode1
  simp only [Option.some.injEq, Prod.mk.injEq] at hcode1
  obtain ⟨hx, hctx⟩ := hcode1
  subst hx hctx
  refine ⟨_, hcar, h.malloc_live size malloc_ok, ?_, fun e he y hy => ?_⟩
  · rw [hcar.mapped, hbase, h.mapped]
  · rw [h.mapped] at hy
    exact hout y (h.good.span_notMem_free he hy)

theorem Follows.malloc (h : Follows T s t) (size : Nat) (malloc_ok : Bool) :
    ∃ s', step s (.malloc size malloc_ok) = some s' ∧
      Follows T s' (follow t (.malloc size malloc_ok)) := by
  obtain ⟨ctx', hcode, hcar, -, -⟩ := gpuMalloc_spec h.carries size malloc_ok
  refine ⟨_, by simp only [step, hcode]; rfl, hcar, h.carries.good.malloc_calm h.calm malloc_ok,
    ?_, ?_⟩
  · simp only [follow]
    rw [h.carries.malloc_live, h.live]
  · simp only [follow]
    rw [h.returned]

theorem Pool.free_live (pool : Pool) (e : Nat × Nat) : (pool.free e).live = pool.live.erase e := by
  unfold Pool.free
  cases route_slab e.2 <;> rfl

theorem Follows.free (h : Follows T s t) (offset : Nat) :
    ∃ s', step s (.free offset) = some s' ∧ Follows T s' (follow t (.free offset)) := by
  have hlive := h.live
  cases hfind : s.live.find? (·.1 = offset) with
  | none =>
    refine ⟨s, by simp only [step, hfind], ?_⟩
    simpa only [follow, ← hlive, hfind] using h
  | some e =>
    have he : e ∈ t.1.live := hlive ▸ List.mem_of_find?_eq_some hfind
    obtain rfl : e.1 = offset := by simpa using List.find?_some hfind
    obtain ⟨ctx', hcode, hcar, -, -⟩ := gpuFree_spec h.carries he
    refine ⟨⟨ctx', s.live.erase e, .status 0 :: s.returned⟩, ?_, ?_⟩
    · simp only [step, hfind, hcode]
      rfl
    · simp only [follow, ← hlive, hfind]
      refine ⟨hcar, h.carries.good.free_calm h.calm he, ?_, ?_⟩
      · rw [Pool.free_live, hlive]
      · rw [h.returned]

theorem Carries.write {offset : Nat} {src : Nat → UInt8} {len : Nat} (h : Carries T ctx pool)
    (hall : allowed pool.live offset len = true) :
    Carries T (gpuMemcpy ctx offset src len GPU_MEMCPY_H2D).2.1 pool := by
  obtain ⟨e, he, hin⟩ := List.any_eq_true.mp hall
  simp only [Bool.and_eq_true, decide_eq_true_eq] at hin
  have hspan := h.good.le_span he
  have hroom := h.good.span_le he
  have hend := h.ends
  have haddr : add64 ctx.vram_mmap offset = ctx.buddy.vram_base + offset := by
    rw [h.mapped, add64_eq (by omega)]
  unfold gpuMemcpy
  rw [if_pos rfl]
  apply h.setMem
  intro y hy
  apply copy_outside
  by_contra hc
  rw [haddr] at hc
  exact hy e he ⟨by omega, by omega⟩

theorem Follows.write (h : Follows T s t) (offset : Nat) (bytes : List UInt8) :
    ∃ s', step s (.write offset bytes) = some s' ∧
      Follows T s' (follow t (.write offset bytes)) := by
  cases hall : allowed s.live offset bytes.length with
  | false => exact ⟨s, by simp [step, hall], h⟩
  | true =>
    let r := gpuMemcpy s.ctx offset (fun k => bytes.getD k 0) bytes.length GPU_MEMCPY_H2D
    refine ⟨{ s with ctx := r.2.1 }, by simp only [step, hall, if_true]; rfl, ?_, h.calm, h.live,
      h.returned⟩
    rw [h.live] at hall
    exact h.carries.write hall

theorem Follows.step (h : Follows T s t) (e : Event) :
    ∃ s', context.step s e = some s' ∧ Follows T s' (follow t e) := by
  cases e with
  | malloc size malloc_ok => exact h.malloc size malloc_ok
  | free offset => exact h.free offset
  | write offset bytes => exact h.write offset bytes

/-- No run from a context that `gpuInit` has made faults, and the state follows the
pool through it. -/
theorem run_follows_pool {ctx0 : GpgpuCtx} {fd : Int} {base size : Nat} {malloc_ok : Slab → Bool}
    (hm : Mapped base size) (hinit : gpuInit ctx0 fd base malloc_ok size = some (0, ctx)) :
    ∃ t0, ∀ events, ∃ s, run step ⟨ctx, [], []⟩ events = some s ∧
      Follows (size / PAGE_SIZE * PAGE_SIZE) s (events.foldl follow t0) := by
  obtain ⟨pool, hcar, hcalm, hlive⟩ := gpuInit_spec hm hinit
  refine ⟨(pool, []), fun events => ?_⟩
  exact run_follows follow (Follows _) (fun s t e hf => hf.step e)
    (s := ⟨ctx, [], []⟩) ⟨hcar, hcalm, hlive.symm, rfl⟩ events

/-- A context that nothing has been written to. -/
def blankCtx : GpgpuCtx :=
  { fd := 0, vram_mmap := 0, vram_size := 0, slabs := fun _ => ⟨0, 0, 0, []⟩
    buddy := { free_list := fun _ => 0, page_order := fun _ => 0, vram_base := 0, mem := fun _ => 0 } }

/-- Sixteen pages are enough for `gpuInit`. -/
theorem blankCtx_inits :
    ∃ ctx, gpuInit blankCtx 3 4096 (fun _ => true) 65536 = some (0, ctx) := by
  have h : (gpuInit blankCtx 3 4096 (fun _ => true) 65536).map Prod.fst = some 0 := by
    decide +kernel
  obtain ⟨⟨r, ctx⟩, hr, rfl⟩ := Option.map_eq_some_iff.mp h
  exact ⟨ctx, hr⟩

/-! ## The allocations lie apart -/

section

variable {ctx0 : GpgpuCtx} {fd : Int} {base size : Nat} {malloc_ok : Slab → Bool}

theorem Good.span_dvd {e : Nat × Nat} (h : Good T pool) (he : e ∈ pool.live) : span e.2 ∣ e.1 := by
  cases hr : route_slab e.2 with
  | some i =>
    rw [span_slab hr, ← h.sizes i]
    exact (h.slot he hr).1
  | none =>
    rw [span_big hr]
    exact h.tiled.tiling.aligned (blk e.1 (order_of e.2)) (Or.inr (Or.inl ⟨e, he, hr, rfl⟩))

/-- In every state that a run reaches, the slots and blocks behind the live
allocations lie apart, hold what was asked for, lie in the managed pages, and are
aligned to their sizes. -/
theorem live_allocations_lie_apart (hm : Mapped base size)
    (hinit : gpuInit ctx0 fd base malloc_ok size = some (0, ctx)) (events : List Event) :
    ∃ s, run step ⟨ctx, [], []⟩ events = some s ∧
      s.live.Pairwise (fun e f => e.1 + span e.2 ≤ f.1 ∨ f.1 + span f.2 ≤ e.1) ∧
      ∀ e ∈ s.live, e.2 ≤ span e.2 ∧ e.1 + span e.2 ≤ size / PAGE_SIZE * PAGE_SIZE ∧
        span e.2 ∣ e.1 := by
  obtain ⟨t0, hrun⟩ := run_follows_pool hm hinit
  obtain ⟨s, hs, hf⟩ := hrun events
  have hgood := hf.carries.good
  refine ⟨s, hs, ?_, ?_⟩
  · rw [hf.live]
    exact hgood.nodup.of_map.pairwise_of_forall_ne fun e he f hf' hne => hgood.apart he hf' hne
  · intro e he
    rw [hf.live] at he
    exact ⟨hgood.le_span he, hgood.span_le he, hgood.span_dvd he⟩

theorem slots_and_blocks_lie_apart :
    ∃ ctx, gpuInit blankCtx 3 4096 (fun _ => true) 65536 = some (0, ctx) ∧
      ∃ s, run step ⟨ctx, [], []⟩ [.malloc 100 true, .malloc 5000 true, .malloc 20 true] = some s ∧
        s.live.Pairwise (fun e f => e.1 + span e.2 ≤ f.1 ∨ f.1 + span f.2 ≤ e.1) ∧
        ∀ e ∈ s.live, e.2 ≤ span e.2 ∧ e.1 + span e.2 ≤ 65536 / PAGE_SIZE * PAGE_SIZE ∧
          span e.2 ∣ e.1 := by
  obtain ⟨ctx, hinit⟩ := blankCtx_inits
  exact ⟨ctx, hinit, live_allocations_lie_apart ⟨by decide, by decide⟩ hinit _⟩

/-- The third slot of 2048 bytes needs a page, and the host has no record for it
at first. Ten pages are in no one block. -/
example : (do
    let (_, ctx) ← gpuInit blankCtx 3 4096 (fun _ => true) 65536
    let s ← run step ⟨ctx, [], []⟩ [.malloc 2000 true, .malloc 2000 true, .malloc 2000 false,
      .malloc 2000 true, .malloc 40000 true, .free 22528]
    return s.returned) = some [.status 0, .offset NO_OFFSET, .offset 26624, .offset NO_OFFSET,
      .offset 20480, .offset 22528] := by
  decide +kernel

/-! ## The lists live in the memory that they manage -/

/-- The bytes behind the allocations that stay live through a call do not change,
and writes into live allocations change nothing that a call returns. -/
theorem lists_and_data_do_not_disturb_each_other (hm : Mapped base size)
    (hinit : gpuInit ctx0 fd base malloc_ok size = some (0, ctx)) (events : List Event) :
    ∃ s s', run step ⟨ctx, [], []⟩ events = some s ∧
      run step ⟨ctx, [], []⟩ (events.filter Event.isCall) = some s' ∧
      s.returned = s'.returned ∧
      ∀ c : Event, c.isCall = true → ∃ s1, step s c = some s1 ∧
        ∀ e ∈ s.live, e ∈ s1.live → ∀ k < span e.2,
          s1.ctx.buddy.mem (s.ctx.vram_mmap + e.1 + k) =
            s.ctx.buddy.mem (s.ctx.vram_mmap + e.1 + k) := by
  obtain ⟨t0, hrun⟩ := run_follows_pool hm hinit
  obtain ⟨s, hs, hf⟩ := hrun events
  obtain ⟨s', hs', hf'⟩ := hrun (events.filter Event.isCall)
  have hstutter : ∀ t e, Event.isCall e = false → follow t e = t := by
    intro t e he
    cases e with
    | write => rfl
    | malloc => cases he
    | free => cases he
  rw [foldl_filter_of_stutter hstutter] at hf'
  refine ⟨s, s', hs, hs', by rw [hf.returned, hf'.returned], fun c hc => ?_⟩
  rw [hf.carries.mapped]
  cases c with
  | write => cases hc
  | malloc n ok =>
    obtain ⟨ctx', hcode, -, -, hout⟩ := gpuMalloc_spec hf.carries n ok
    refine ⟨_, by simp only [step, hcode]; rfl, fun e he _ k hk => ?_⟩
    rw [hf.live] at he
    exact hout _ (hf.carries.good.span_notMem_free he ⟨by omega, by omega⟩)
  | free offset =>
    cases hfind : s.live.find? (·.1 = offset) with
    | none => exact ⟨s, by simp only [step, hfind], fun _ _ _ _ _ => rfl⟩
    | some g =>
      have hg := List.mem_of_find?_eq_some hfind
      obtain rfl : g.1 = offset := by simpa using List.find?_some hfind
      rw [hf.live] at hg
      obtain ⟨ctx', hcode, -, -, hout⟩ := gpuFree_spec hf.carries hg
      refine ⟨_, by simp only [step, hfind, hcode]; rfl, fun e he he1 k hk => ?_⟩
      simp only [hf.live] at he he1
      have hne : e ≠ g := (hf.carries.good.nodup.of_map.mem_erase_iff.mp he1).1
      exact hout e he hne _ ⟨by omega, by omega⟩

theorem a_write_does_not_disturb_the_lists :
    ∃ ctx, gpuInit blankCtx 3 4096 (fun _ => true) 65536 = some (0, ctx) ∧
      ∃ s s', run step ⟨ctx, [], []⟩ [.malloc 20 true, .write 4064 [1, 2, 3], .malloc 9 true] =
          some s ∧
        run step ⟨ctx, [], []⟩
          ([.malloc 20 true, .write 4064 [1, 2, 3], .malloc 9 true].filter Event.isCall) = some s' ∧
        s.returned = s'.returned ∧
        ∀ c : Event, c.isCall = true → ∃ s1, step s c = some s1 ∧
          ∀ e ∈ s.live, e ∈ s1.live → ∀ k < span e.2,
            s1.ctx.buddy.mem (s.ctx.vram_mmap + e.1 + k) =
              s.ctx.buddy.mem (s.ctx.vram_mmap + e.1 + k) := by
  obtain ⟨ctx, hinit⟩ := blankCtx_inits
  exact ⟨ctx, hinit, lists_and_data_do_not_disturb_each_other ⟨by decide, by decide⟩ hinit _⟩

/-! ## The slab caches -/

/-- The offsets of the free slots of a cache, as a walk of its list meets them. -/
def slotList (ctx : GpgpuCtx) (i : Slab) : List Nat :=
  (walk (slab_next ctx.buddy.mem) SEARCH_TURNS (ctx.slabs i).free_list).map
    (· - ctx.buddy.vram_base)

/-- The list of a cache, its records and the live allocations fit together. -/
structure CacheSound (ctx : GpgpuCtx) (live : List (Nat × Nat)) (i : Slab) : Prop where
  object_size : (ctx.slabs i).object_size = slabSize i
  linked : Sll (slab_next ctx.buddy.mem) (ctx.slabs i).free_list
    ((slotList ctx i).map (ctx.buddy.vram_base + ·))
  once : (slotList ctx i).Nodup
  free_iff : ∀ x, x ∈ slotList ctx i ↔
    (∃ m ∈ (ctx.slabs i).pages, ∃ k < PAGE_SIZE / slabSize i,
      x = m.page_offset + k * slabSize i) ∧ ∀ e ∈ live, e.1 ≠ x
  counts : ∀ m ∈ (ctx.slabs i).pages, m.free_count.toNat =
    (slotList ctx i).countP fun x => m.page_offset ≤ x ∧ x < m.page_offset + PAGE_SIZE
  totals : ∀ m ∈ (ctx.slabs i).pages, m.total_slots.toNat = PAGE_SIZE / slabSize i
  pages_once : ((ctx.slabs i).pages.map SlabPageMeta.page_offset).Nodup
  found : ∀ x, (x ∈ slotList ctx i ∨ ∃ e ∈ live, e.1 = x ∧ route_slab e.2 = some i) →
    (find_meta (ctx.slabs i).pages (page_of x)).isSome
  some_page : (ctx.slabs i).pages ≠ []
  only : ∀ m ∈ (ctx.slabs i).pages, m.free_count = m.total_slots → (ctx.slabs i).pages = [m]

theorem Carries.slotList_eq (h : Carries T ctx pool) (i : Slab) :
    slotList ctx i = (pool.caches i).free := by
  have hlen : ((pool.caches i).free.map (ctx.buddy.vram_base + ·)).length < SEARCH_TURNS := by
    rw [List.length_map]
    exact (h.good.sound i).free_length_lt (h.good.tiled_cache i)
  rw [slotList, (h.caches i).list.walk_eq hlen, List.map_map]
  simp [Function.comp_def]

/-- A slot of a cache is the offset of no allocation from elsewhere. -/
theorem Good.slotsOf_iff {x : Nat} {i : Slab} (h : Good T pool) (hx : (pool.caches i).IsSlot x) :
    x ∉ slotsOf pool.live i ↔ ∀ e ∈ pool.live, e.1 ≠ x := by
  constructor
  · rintro hno e he rfl
    have hsize := (h.sound i).size.pos
    cases hr : route_slab e.2 with
    | none =>
      have hcov := h.home_covers he (Nat.le_refl _) (Nat.lt_add_of_pos_right (span_pos e.2))
      have hpage := page_covers_slot (h.sound i).size hx.1 (Nat.le_refl _)
        (Nat.lt_add_of_pos_right hsize)
      have heq := h.tiled.tiling.apart _ (Or.inr (h.home_mem he)) _
        (Or.inr (Or.inr ⟨i, _, hx.2, rfl⟩)) _ hcov hpage
      rw [home_big hr] at heq
      exact h.big_ne_page he hr hx.2 heq
    | some j =>
      have hij := h.marked.unique (page_dvd_pageOf e.1) (h.slot he hr).2 hx.2
      exact hno ⟨e, he, hij ▸ hr, rfl⟩
  · rintro hall ⟨e, he, -, rfl⟩
    exact hall e he rfl

theorem Carries.pages_eq (h : Carries T ctx pool) (i : Slab) :
    (ctx.slabs i).pages = (pool.caches i).metas := (h.caches i).pages

theorem Carries.cacheSound (h : Carries T ctx pool) (hcalm : Calm pool) (i : Slab) :
    CacheSound ctx pool.live i := by
  have hs := h.good.sound i
  have hsize := h.good.sizes i
  have hper : (pool.caches i).perPage = PAGE_SIZE / slabSize i := by rw [Cache.perPage, hsize]
  have hcount := hs.size.count
  rw [hsize] at hcount
  -- A record is the record of a page, and its counts fit in 16 bits.
  have hmeta : ∀ m, m ∈ (ctx.slabs i).pages ↔ ∃ p ∈ (pool.caches i).pages, m =
      ⟨p, UInt16.ofNat ((pool.caches i).freeIn p), UInt16.ofNat (pool.caches i).perPage⟩ := by
    intro m
    rw [h.pages_eq, Cache.metas, List.mem_map]
    simp only [eq_comm]
  have hfree16 : ∀ p ∈ (pool.caches i).pages,
      (UInt16.ofNat ((pool.caches i).freeIn p)).toNat = (pool.caches i).freeIn p := by
    intro p hp
    have := hs.freeIn_le hp
    rw [UInt16.toNat_ofNat', Nat.mod_eq_of_lt (by omega)]
  have htotal16 : (UInt16.ofNat (pool.caches i).perPage).toNat = (pool.caches i).perPage := by
    rw [UInt16.toNat_ofNat', Nat.mod_eq_of_lt (by omega)]
  have hfound : ∀ x, (pool.caches i).IsSlot x →
      (find_meta (ctx.slabs i).pages (page_of x)).isSome := by
    intro x hx
    obtain ⟨as, bs, hpages, has, -⟩ := hs.split_pages hx.2
    have hT := hs.slot_le (h.good.tiled_cache i) hx
    have hpos := hs.size.pos
    have hend := h.ends
    rw [page_of_eq (by omega), h.pages_eq, Cache.find_meta_eq hpages has]
    rfl
  refine ⟨?_, ?_, ?_, fun x => ?_, ?_, ?_, ?_, ?_, ?_, ?_⟩
  · rw [(h.caches i).object_size, hsize]
  · rw [h.slotList_eq]
    exact (h.caches i).list
  · rw [h.slotList_eq]
    exact hs.free_nodup
  · rw [h.slotList_eq, hs.mem_free]
    have hslot : (∃ m ∈ (ctx.slabs i).pages, ∃ k < PAGE_SIZE / slabSize i,
        x = m.page_offset + k * slabSize i) ↔ (pool.caches i).IsSlot x := by
      constructor
      · rintro ⟨m, hm, k, hk, hx⟩
        obtain ⟨p, hp, rfl⟩ := (hmeta m).mp hm
        apply ((hs.slots_eq hp).mp _).1
        rw [slots, List.mem_reverse, List.mem_map]
        exact ⟨k, List.mem_range.mpr (hsize ▸ hk), by rw [hx, hsize]⟩
      · intro hx
        have hmem := (hs.slots_eq hx.2).mpr ⟨hx, rfl⟩
        rw [slots, List.mem_reverse, List.mem_map] at hmem
        obtain ⟨k, hk, he⟩ := hmem
        rw [hsize] at hk he
        exact ⟨_, (hmeta _).mpr ⟨_, hx.2, rfl⟩, k, List.mem_range.mp hk, he.symm⟩
    rw [hslot]
    exact and_congr_right fun hx => h.good.slotsOf_iff hx
  · intro m hm
    obtain ⟨p, hp, rfl⟩ := (hmeta m).mp hm
    simp only
    rw [hfree16 p hp, h.slotList_eq]
    apply List.countP_congr
    intro x _
    simp only [decide_eq_true_eq]
    exact pageOf_eq_iff (hs.aligned p hp)
  · intro m hm
    obtain ⟨p, -, rfl⟩ := (hmeta m).mp hm
    simp only
    rw [htotal16, hper]
  · rw [h.pages_eq, Cache.metas, List.map_map]
    simpa [Function.comp_def] using hs.pages_nodup
  · rintro x (hx | ⟨e, he, rfl, hr⟩)
    · rw [h.slotList_eq] at hx
      exact hfound x ((hs.mem_free x).mp hx).1
    · exact hfound e.1 (h.good.slot he hr)
  · rw [h.pages_eq, Cache.metas, Ne, List.map_eq_nil_iff]
    exact (hcalm i).some_page
  · intro m hm hfull
    obtain ⟨p, hp, rfl⟩ := (hmeta m).mp hm
    have heq : (pool.caches i).freeIn p = (pool.caches i).perPage := by
      rw [← hfree16 p hp, ← htotal16]
      exact congrArg UInt16.toNat hfull
    rw [h.pages_eq, Cache.metas, (hcalm i).only p hp heq]
    rfl

/-- In every state that a run reaches, the free list of each cache has just the
slots of its pages that are not live, the records count them, and no page is idle
but an only one. -/
theorem every_slab_cache_stays_sound (hm : Mapped base size)
    (hinit : gpuInit ctx0 fd base malloc_ok size = some (0, ctx)) (events : List Event) :
    ∃ s, run step ⟨ctx, [], []⟩ events = some s ∧ ∀ i, CacheSound s.ctx s.live i := by
  obtain ⟨t0, hrun⟩ := run_follows_pool hm hinit
  obtain ⟨s, hs, hf⟩ := hrun events
  refine ⟨s, hs, fun i => ?_⟩
  rw [hf.live]
  exact hf.carries.cacheSound hf.calm i

theorem slab_caches_sound_after_growth :
    ∃ ctx, gpuInit blankCtx 3 4096 (fun _ => true) 65536 = some (0, ctx) ∧
      ∃ s, run step ⟨ctx, [], []⟩ [.malloc 2000 true, .malloc 2000 true, .malloc 2000 true] =
          some s ∧ ∀ i, CacheSound s.ctx s.live i := by
  obtain ⟨ctx, hinit⟩ := blankCtx_inits
  exact ⟨ctx, hinit, every_slab_cache_stays_sound ⟨by decide, by decide⟩ hinit _⟩

/-! ## The way back -/

/-- In every state that a run reaches, a page has the mark of a cache just when the
cache has a record of it, and `gpuFree` goes back where `gpuMalloc` came from. -/
theorem a_free_goes_back_where_it_came_from (hm : Mapped base size)
    (hinit : gpuInit ctx0 fd base malloc_ok size = some (0, ctx)) (events : List Event) :
    ∃ s, run step ⟨ctx, [], []⟩ events = some s ∧
      (∀ i q, s.ctx.buddy.page_order q = slabMarker i ↔
        ∃ m ∈ (s.ctx.slabs i).pages, m.page_offset = q * PAGE_SIZE) ∧
      ∀ e ∈ s.live, ∃ marker, s.ctx.buddy.read_order (e.1 / PAGE_SIZE % 2 ^ 32) = some marker ∧
        get_slab marker = route_slab e.2 ∧
        (route_slab e.2 = none → marker.toNat = order_of e.2) := by
  obtain ⟨t0, hrun⟩ := run_follows_pool hm hinit
  obtain ⟨s, hs, hf⟩ := hrun events
  have hgood := hf.carries.good
  have horder := hf.carries.holds.shows.page_order
  refine ⟨s, hs, fun i q => ?_, fun e he => ?_⟩
  · rw [horder, hgood.marked i q, hf.carries.pages_eq, Cache.metas]
    simp
  · rw [hf.live] at he
    have hpage := hf.carries.page_lt he
    have hidx : e.1 / PAGE_SIZE % 2 ^ 32 = e.1 / PAGE_SIZE := by
      unfold BUDDY_TOTAL_PAGES at hpage
      exact Nat.mod_eq_of_lt (by omega)
    refine ⟨_, ?_, hgood.route_back he, hgood.orders e he⟩
    rw [hidx, BuddyAllocator.read_order, if_pos hpage, horder]

theorem frees_go_back_after_two_allocations :
    ∃ ctx, gpuInit blankCtx 3 4096 (fun _ => true) 65536 = some (0, ctx) ∧
      ∃ s, run step ⟨ctx, [], []⟩ [.malloc 2000 true, .malloc 5000 true] = some s ∧
        (∀ i q, s.ctx.buddy.page_order q = slabMarker i ↔
          ∃ m ∈ (s.ctx.slabs i).pages, m.page_offset = q * PAGE_SIZE) ∧
        ∀ e ∈ s.live, ∃ marker, s.ctx.buddy.read_order (e.1 / PAGE_SIZE % 2 ^ 32) = some marker ∧
          get_slab marker = route_slab e.2 ∧
          (route_slab e.2 = none → marker.toNat = order_of e.2) := by
  obtain ⟨ctx, hinit⟩ := blankCtx_inits
  exact ⟨ctx, hinit, a_free_goes_back_where_it_came_from ⟨by decide, by decide⟩ hinit _⟩

/-! ## A call that fails -/

/-- The lists, the records and the marks of live pages are the same in both
contexts. -/
structure Unchanged (s : State) (ctx : GpgpuCtx) : Prop where
  buddy_lists : ∀ k < BUDDY_MAX_ORDER, listed ctx.buddy k = listed s.ctx.buddy k
  slab_lists : ∀ i, slotList ctx i = slotList s.ctx i
  heads : ∀ i, (ctx.slabs i).free_list = (s.ctx.slabs i).free_list
  records : ∀ i, (ctx.slabs i).pages = (s.ctx.slabs i).pages
  live_orders : ∀ e ∈ s.live, ∀ q, e.1 / PAGE_SIZE ≤ q → q * PAGE_SIZE < e.1 + span e.2 →
    ctx.buddy.page_order q = s.ctx.buddy.page_order q
  slab_orders : ∀ i, ∀ m ∈ (s.ctx.slabs i).pages,
    ctx.buddy.page_order (m.page_offset / PAGE_SIZE) =
      s.ctx.buddy.page_order (m.page_offset / PAGE_SIZE)

/-- The block of an allocation covers the pages that the allocation reaches into. -/
theorem Good.home_covers_page {e : Nat × Nat} {q : Nat} (h : Good T pool) (he : e ∈ pool.live)
    (h1 : e.1 / PAGE_SIZE ≤ q) (h2 : q * PAGE_SIZE < e.1 + span e.2) :
    (home e).Covers (q * PAGE_SIZE) := by
  have hpage : pageOf e.1 ≤ q * PAGE_SIZE := Nat.mul_le_mul_right _ h1
  cases hr : route_slab e.2 with
  | some i =>
    have hfits := slot_fits (h.sound i).size (h.slot he hr).1
    rw [h.sizes i] at hfits
    rw [span_slab hr] at h2
    rw [home_slab hr, blk_covers]
    exact ⟨hpage, lt_of_lt_of_le h2 hfits⟩
  | none =>
    have hdvd : PAGE_SIZE ∣ e.1 :=
      h.tiled.page_dvd (k := order_of e.2) (Or.inr (Or.inl ⟨e, he, hr, rfl⟩))
    have hself : pageOf e.1 = e.1 := Nat.div_mul_cancel hdvd
    exact h.home_covers he (hself ▸ hpage) h2

/-- On the pool, a call that fails changes no list and no cache. -/
theorem Good.malloc_fails {n : Nat} {ok : Bool} (h : Good T pool)
    (hlive : (pool.malloc n ok).2.live = pool.live) :
    (pool.malloc n ok).2.caches = pool.caches ∧
    (pool.malloc n ok).2.lists.free = pool.lists.free ∧
    ∀ d ∈ poolBlocks pool.caches pool.live, ∀ q, d.Covers (q * PAGE_SIZE) →
      (pool.malloc n ok).2.lists.page_order q = pool.lists.page_order q := by
  unfold Pool.malloc at hlive ⊢
  cases hr : route_slab n with
  | some i =>
    obtain ⟨hfail, -⟩ := (h.sound i).alloc (h.tiled_cache i) ok
    obtain ⟨horders, hfree, -⟩ := (h.sound i).alloc_lists (h.tiled_cache i) ok
    simp only [hr] at hlive ⊢
    cases hx : ((pool.caches i).alloc pool.lists ok).1 with
    | none =>
      refine ⟨?_, hfree hx, ?_⟩
      · simp only
        rw [hfail hx, Function.update_eq_self]
      · rw [poolBlocks_eq _ _ i]
        exact horders
    | some x => simp [hx] at hlive
  | none =>
    simp only [hr] at hlive ⊢
    cases ha : pool.lists.alloc (order_of n) with
    | none => exact ⟨rfl, rfl, fun _ _ _ _ => rfl⟩
    | some r => simp [ha] at hlive

/-- In every state that a run reaches, a call of `gpuMalloc` that fails leaves the
lists, the records and the marks as they were. -/
theorem a_failed_malloc_changes_nothing (hm : Mapped base size)
    (hinit : gpuInit ctx0 fd base malloc_ok size = some (0, ctx)) (events : List Event) :
    ∃ s, run step ⟨ctx, [], []⟩ events = some s ∧
      ∀ n ok, ∃ x ctx', gpuMalloc s.ctx n ok = some (x, ctx') ∧
        (x = NO_OFFSET → Unchanged s ctx') := by
  obtain ⟨t0, hrun⟩ := run_follows_pool hm hinit
  obtain ⟨s, hs, hf⟩ := hrun events
  have h := hf.carries
  refine ⟨s, hs, fun n ok => ?_⟩
  obtain ⟨ctx', hcode, hcar, hbase, -⟩ := gpuMalloc_spec h n ok
  refine ⟨_, ctx', hcode, fun hno => ?_⟩
  have hlive := h.malloc_live n ok
  rw [if_pos hno] at hlive
  obtain ⟨hcaches, hfree, horders⟩ := h.good.malloc_fails hlive
  refine ⟨fun k hk => ?_, fun i => ?_, fun i => ?_, fun i => ?_, ?_, ?_⟩
  · rw [hcar.holds.listed_eq hk, h.holds.listed_eq hk, hfree]
  · rw [hcar.slotList_eq, h.slotList_eq, hcaches]
  · rw [(hcar.caches i).list.head_eq, (h.caches i).list.head_eq, hcaches, hbase]
  · rw [hcar.pages_eq, h.pages_eq, hcaches]
  · intro e he q h1 h2
    rw [hf.live] at he
    rw [hcar.holds.shows.page_order, h.holds.shows.page_order]
    exact horders _ (h.good.home_mem he) q (h.good.home_covers_page he h1 h2)
  · intro i m hmem
    rw [h.pages_eq, Cache.metas, List.mem_map] at hmem
    obtain ⟨p, hp, rfl⟩ := hmem
    rw [hcar.holds.shows.page_order, h.holds.shows.page_order]
    apply horders (blk p 0) (Or.inr ⟨i, p, hp, rfl⟩)
    rw [Nat.div_mul_cancel ((h.good.sound i).aligned p hp)]
    exact Block.covers_lo _

theorem a_failed_growth_changes_nothing :
    ∃ ctx, gpuInit blankCtx 3 4096 (fun _ => true) 65536 = some (0, ctx) ∧
      ∃ s, run step ⟨ctx, [], []⟩ [.malloc 2000 true, .malloc 2000 true] = some s ∧
        ∀ n ok, ∃ x ctx', gpuMalloc s.ctx n ok = some (x, ctx') ∧
          (x = NO_OFFSET → Unchanged s ctx') := by
  obtain ⟨ctx, hinit⟩ := blankCtx_inits
  exact ⟨ctx, hinit, a_failed_malloc_changes_nothing ⟨by decide, by decide⟩ hinit _⟩

/-! ## The order table -/

/-- The entry of the order table that `buddy_alloc` writes, when it gets that far. -/
def alloc_index (b : BuddyAllocator) (alloc_size : Nat) : Option Nat :=
  let order := order_of alloc_size
  if order = BUDDY_MAX_ORDER then none
  else
    let i := first_list b order
    if i = BUDDY_MAX_ORDER then none
    else some (sub64 (b.free_list i) b.vram_base / PAGE_SIZE)

theorem split_loop_base (b : BuddyAllocator) (left order i : Nat) :
    (split_loop b left order i).vram_base = b.vram_base := by
  induction i generalizing b with
  | zero => rfl
  | succ i ih =>
    unfold split_loop
    split
    · rw [ih]
      rfl
    · rfl

/-- `buddy_alloc` faults just when the entry that it writes is outside the table. -/
theorem buddy_alloc_faults_iff (b : BuddyAllocator) (n : Nat) :
    buddy_alloc b n = none ↔ ∃ q, alloc_index b n = some q ∧ BUDDY_TOTAL_PAGES ≤ q := by
  unfold buddy_alloc alloc_index
  by_cases ho : order_of n = BUDDY_MAX_ORDER
  · simp [ho]
  by_cases hi : first_list b (order_of n) = BUDDY_MAX_ORDER
  · simp [ho, hi]
  simp only [ho, hi, if_false, split_loop_base, Option.some.injEq, exists_eq_left']
  rw [show (b.pop_front (first_list b (order_of n))).vram_base = b.vram_base from rfl]
  by_cases hq : sub64 (b.free_list (first_list b (order_of n))) b.vram_base / PAGE_SIZE <
      BUDDY_TOTAL_PAGES
  · simp [BuddyAllocator.write_order, hq]
  · simp [BuddyAllocator.write_order, hq, Nat.le_of_not_lt hq]

/-- No call goes outside the order table, which would be `none`: `gpuInit` comes to its
end, and so does every run after it. The 32-bit index that `gpuFree` computes for a live
offset is its page, which has an entry. -/
def InTable (base size : Nat) : Prop :=
  ∀ ctx0 fd malloc_ok, ∃ r ctx, gpuInit ctx0 fd base malloc_ok size = some (r, ctx) ∧
    (r = 0 → ∀ events, ∃ s, run step ⟨ctx, [], []⟩ events = some s ∧
      ∀ e ∈ s.live, e.1 / PAGE_SIZE % 2 ^ 32 = e.1 / PAGE_SIZE ∧
        e.1 / PAGE_SIZE < BUDDY_TOTAL_PAGES)

/-- The table is large enough just for memories with no full page beyond 4 GiB. -/
theorem in_table_iff_no_page_beyond_4_gib (hm : Mapped base size) :
    InTable base size ↔ size < 2 ^ 32 + PAGE_SIZE := by
  have hend := hm.ends
  constructor
  · intro h
    by_contra hsize
    obtain ⟨r, ctx, hinit, -⟩ := h blankCtx 3 fun _ => true
    have hfar : 2 ^ 32 < managed size := by
      unfold PAGE_SIZE at hsize
      unfold managed
      split <;> omega
    have hnone := first_page_far blankCtx.buddy.mem hm hfar
    have hmap : base ≠ MAP_FAILED := by
      unfold MAP_FAILED
      omega
    simp [gpuInit, hmap, init_slabs, slab_cache_init, slab_grow, hnone] at hinit
  · intro hsize ctx0 fd malloc_ok
    obtain ⟨r, ctx, hinit, -⟩ := gpuInit_returns ctx0 fd malloc_ok hm hsize
    refine ⟨r, ctx, hinit, ?_⟩
    rintro rfl events
    obtain ⟨t0, hrun⟩ := run_follows_pool hm hinit
    obtain ⟨s, hs, hf⟩ := hrun events
    refine ⟨s, hs, fun e he => ?_⟩
    rw [hf.live] at he
    have hpage := hf.carries.page_lt he
    exact ⟨Nat.mod_eq_of_lt (by unfold BUDDY_TOTAL_PAGES at hpage; omega), hpage⟩

theorem one_page_beyond_4_gib : Mapped 4096 (2 ^ 32 + 4096) ∧
    (InTable 4096 (2 ^ 32 + 4096) ↔ 2 ^ 32 + 4096 < 2 ^ 32 + PAGE_SIZE) :=
  ⟨⟨by decide, by decide⟩, in_table_iff_no_page_beyond_4_gib ⟨by decide, by decide⟩⟩

/-- With 4 GiB and a page, the first page that `gpuInit` takes for a cache is past the
last entry of the table. -/
theorem the_first_page_has_no_entry :
    alloc_index (buddy_init (fun _ => 0) 4096 (2 ^ 32 + 4096)) PAGE_SIZE =
      some BUDDY_TOTAL_PAGES ∧
    gpuInit blankCtx 3 4096 (fun _ => true) (2 ^ 32 + 4096) = none := by
  refine ⟨by decide +kernel, ?_⟩
  have hnone : buddy_alloc (buddy_init (fun _ => 0) 4096 (2 ^ 32 + 4096)) PAGE_SIZE = none :=
    (buddy_alloc_faults_iff _ _).mpr ⟨BUDDY_TOTAL_PAGES, by decide +kernel, le_rfl⟩
  simp [gpuInit, MAP_FAILED, init_slabs, slab_cache_init, slab_grow, blankCtx] at hnone ⊢
  simp [hnone]

end

end gpgpu.context
