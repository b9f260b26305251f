-- When the library has nothing to give. A call of `gpuMalloc` fails just when no slot and no page
-- is left for a small size, or no aligned place for a large one: the two allocators never hold
-- back what a client could have.
import Gpgpu.IdleLaws

open memory dyadic runs

/-! ## One cache -/

namespace gpgpu.slab

open buddy

variable {c : Cache} {V : Set Nat}

/-- The slots of a cache, page by page. -/
theorem Sound.isSlot_iff (h : Sound c V) (x : Nat) :
    c.IsSlot x ↔ ∃ p ∈ c.pages, ∃ n < PAGE_SIZE / c.object_size, x = p + n * c.object_size := by
  have hmem : ∀ p, x ∈ slots c.object_size p ↔
      ∃ n < PAGE_SIZE / c.object_size, x = p + n * c.object_size := by
    intro p
    simp only [slots, List.mem_reverse, List.mem_map, List.mem_range, eq_comm]
  constructor
  · rintro ⟨hdvd, hpage⟩
    refine ⟨pageOf x, hpage, (hmem _).mp ?_⟩
    exact (mem_slots h.size (h.aligned _ hpage)).mpr ⟨hdvd, rfl⟩
  · rintro ⟨p, hp, hx⟩
    obtain ⟨hdvd, rfl⟩ := (mem_slots h.size (h.aligned p hp)).mp ((hmem p).mpr hx)
    exact ⟨hdvd, hp⟩

/-- When a cache has nothing to give. -/
theorem Sound.alloc_none_iff (h : Sound c V) (a : FreeLists) (malloc_ok : Bool) :
    (c.alloc a malloc_ok).1 = none ↔ c.free = [] ∧ (malloc_ok = false ∨ a.alloc 0 = none) := by
  unfold Cache.alloc Cache.ready
  by_cases hfree : c.free = []
  · rw [if_pos hfree, Cache.grow]
    cases a.alloc 0 with
    | none => simp [hfree]
    | some r =>
      obtain ⟨p, a'⟩ := r
      cases malloc_ok with
      | false => simp [hfree]
      | true =>
        have hslots : slots c.object_size p ≠ [] := by
          intro hnil
          have hlen := slots_length c.object_size p
          have hcount := h.size.count
          rw [hnil, List.length_nil] at hlen
          omega
        simp [Cache.addPage, hfree, hslots]
  · rw [if_neg hfree]
    simp [hfree]

end gpgpu.slab

namespace gpgpu.context

open buddy slab

/-! ## What is left -/

/-- An aligned block of order `k` at `x` lies beside the pages of the caches, and apart from the
live blocks. -/
def Clear (size : Nat) (s : State) (k x : Nat) : Prop :=
  Beside size s.ctx k x ∧
    ∀ e ∈ s.live, route_slab e.2 = none → x + 2 ^ k * PAGE_SIZE ≤ e.1 ∨ e.1 + span e.2 ≤ x

/-- Every slot of every page of a cache is live. -/
def Full (s : State) (i : Slab) : Prop :=
  ∀ m ∈ (s.ctx.slabs i).pages, ∀ t < PAGE_SIZE / slabSize i,
    ∃ e ∈ s.live, route_slab e.2 = some i ∧ m.page_offset + t * slabSize i = e.1

/-- Nothing is left for a size. A cache that is full needs a page, and memory of the host for its
record. -/
def Exhausted (size : Nat) (s : State) (n : Nat) (malloc_ok : Bool) : Prop :=
  match route_slab n with
  | some i => Full s i ∧ (malloc_ok = false ∨ ¬ ∃ x, Clear size s 0 x)
  | none => ¬ ∃ k x, k < BUDDY_MAX_ORDER ∧ n ≤ 2 ^ k * PAGE_SIZE ∧ Clear size s k x

/-! ## The lists say the same -/

section

variable {T size : Nat} {s : State} {t : Pool × List Returned} {pool : Pool} {ctx : GpgpuCtx} {i : Slab}

theorem Follows.clear_iff (h : Follows (size / PAGE_SIZE * PAGE_SIZE) s t) (k x : Nat) :
    Clear size s k x ↔ 2 ^ k * PAGE_SIZE ∣ x ∧
      FreeOf (size / PAGE_SIZE * PAGE_SIZE) (poolBlocks t.1.caches t.1.live) (blk x k) := by
  rw [h.carries.free_iff, Clear, h.live]

/-- A cache is full just when its list is empty. -/
theorem Follows.full_iff (h : Follows T s t) (i : Slab) : Full s i ↔ (t.1.caches i).free = [] := by
  have hsound := h.carries.good.sound i
  have hslot := hsound.isSlot_iff
  rw [h.carries.good.sizes i] at hslot
  unfold Full
  rw [h.live, h.carries.pages_eq, Cache.metas, List.eq_nil_iff_forall_not_mem]
  constructor
  · intro hall x hx
    obtain ⟨hx, hdead⟩ := (hsound.mem_free x).mp hx
    obtain ⟨p, hp, n, hn, rfl⟩ := (hslot x).mp hx
    exact hdead (hall _ (List.mem_map_of_mem hp) n hn)
  · intro hnone m hm n hn
    obtain ⟨p, hp, rfl⟩ := List.mem_map.mp hm
    by_contra hdead
    exact hnone _ ((hsound.mem_free _).mpr ⟨(hslot _).mpr ⟨p, hp, n, hn, rfl⟩, hdead⟩)

/-- A large block that is clear has a clear block of every smaller order at its start. -/
theorem Clear.smaller {j k x : Nat} (h : Clear size s k x) (hjk : j ≤ k) : Clear size s j x := by
  obtain ⟨⟨hdvd, hfits, hpages⟩, hbig⟩ := h
  have hpow : 2 ^ j * PAGE_SIZE ≤ 2 ^ k * PAGE_SIZE :=
    Nat.mul_le_mul_right _ (Nat.pow_le_pow_right (by decide) hjk)
  refine ⟨⟨(Nat.mul_dvd_mul_right (Nat.pow_dvd_pow 2 hjk) _).trans hdvd, by omega, fun i m hm => ?_⟩,
    fun e he hr => ?_⟩
  · have := hpages i m hm
    omega
  · have := hbig e he hr
    omega

theorem Follows.exhausted_iff (h : Follows (size / PAGE_SIZE * PAGE_SIZE) s t) (n : Nat) (malloc_ok : Bool) :
    (t.1.malloc n malloc_ok).1 = NO_OFFSET ↔ Exhausted size s n malloc_ok := by
  have htiled := h.carries.good.tiled
  unfold Exhausted
  cases hr : route_slab n with
  | some i =>
    have halloc := (h.carries.good.sound i).alloc_none_iff t.1.lists malloc_ok
    simp only
    rw [h.full_iff]
    simp only [h.clear_iff]
    rw [← htiled.alloc_eq_none_iff (by decide), ← halloc]
    cases hx : ((t.1.caches i).alloc t.1.lists malloc_ok).1 with
    | none => simp [Pool.malloc, hr, hx]
    | some x => exact iff_of_false (h.carries.malloc_ne_none (by simp [Pool.malloc, hr, hx])) (by simp)
  | none =>
    have hle := order_of_le n
    simp only
    -- The order that the code looks for is the least one that holds the size.
    have hleast : (∃ k x, k < BUDDY_MAX_ORDER ∧ n ≤ 2 ^ k * PAGE_SIZE ∧ Clear size s k x) ↔
        order_of n < BUDDY_MAX_ORDER ∧ ∃ x, Clear size s (order_of n) x := by
      constructor
      · rintro ⟨k, x, hk, hn, hclear⟩
        have hok : order_of n ≤ k := by
          by_contra hc
          have := lt_of_lt_order_of (n := n) (j := k) (by omega)
          omega
        exact ⟨by omega, x, hclear.smaller hok⟩
      · rintro ⟨hlt, x, hclear⟩
        exact ⟨order_of n, x, hlt, le_order_of hlt, hclear⟩
    rw [hleast]
    simp only [h.clear_iff]
    cases ha : t.1.lists.alloc (order_of n) with
    | none =>
      refine iff_of_true (by simp [Pool.malloc, hr, ha]) fun hroom => ?_
      exact (htiled.alloc_eq_none_iff hroom.1).mp ha hroom.2
    | some r =>
      refine iff_of_false (h.carries.malloc_ne_none (by simp [Pool.malloc, hr, ha])) fun hno => hno ?_
      have hlt : order_of n < BUDDY_MAX_ORDER := by
        by_contra hc
        rw [(t.1.lists.alloc_eq_none_iff hle).mpr fun j h1 h2 => by omega] at ha
        cases ha
      refine ⟨hlt, ?_⟩
      by_contra hroom
      rw [(htiled.alloc_eq_none_iff hlt).mpr hroom] at ha
      cases ha

end

/-! ## When a call fails -/

/-- In every state that a run reaches, `gpuMalloc` fails just when nothing is left: for a small
size when every slot of its cache is live and the cache gets no page, for a large one when no
aligned block that holds it is clear. -/
theorem a_malloc_fails_just_when_nothing_is_left {ctx0 ctx : GpgpuCtx} {fd : Int} {base size : Nat}
    {malloc_ok : Slab → Bool} (hm : Mapped base size)
    (hinit : gpuInit ctx0 fd base malloc_ok size = some (0, ctx)) (events : List Event) :
    ∃ s, run step ⟨ctx, [], []⟩ events = some s ∧
      ∀ n ok, ∃ x ctx', gpuMalloc s.ctx n ok = some (x, ctx') ∧
        (x = NO_OFFSET ↔ Exhausted size s n ok) := by
  obtain ⟨t0, hrun⟩ := run_follows_pool hm hinit
  obtain ⟨s, hs, hf⟩ := hrun events
  refine ⟨s, hs, fun n ok => ?_⟩
  obtain ⟨ctx', hcode, -⟩ := gpuMalloc_spec hf.carries n ok
  exact ⟨_, ctx', hcode, hf.exhausted_iff n ok⟩

/-- The one page of the largest cache has two slots. A third one needs a page, and the host has no
memory for its record. -/
theorem a_third_slot_finds_nothing_left :
    ∃ ctx, gpuInit blankCtx 3 4096 (fun _ => true) 65536 = some (0, ctx) ∧
      ∃ s, run step ⟨ctx, [], []⟩ [.malloc 2000 true, .malloc 2000 true] = some s ∧
        (∃ ctx', gpuMalloc s.ctx 2000 false = some (NO_OFFSET, ctx')) ∧ Exhausted 65536 s 2000 false := by
  obtain ⟨ctx, hinit⟩ := blankCtx_inits
  obtain ⟨s, hs, hall⟩ := a_malloc_fails_just_when_nothing_is_left ⟨by decide, by decide⟩ hinit
    [.malloc 2000 true, .malloc 2000 true]
  obtain ⟨x, ctx', hcode, hiff⟩ := hall 2000 false
  have hend : ((gpuInit blankCtx 3 4096 (fun _ => true) 65536).bind fun r =>
      (run step ⟨r.2, [], []⟩ [.malloc 2000 true, .malloc 2000 true]).bind fun s =>
        (gpuMalloc s.ctx 2000 false).map Prod.fst) = some NO_OFFSET := by
    decide +kernel
  simp only [hinit, Option.bind_some, hs, hcode, Option.map_some, Option.some.injEq] at hend
  subst hend
  exact ⟨ctx, hinit, s, hs, ⟨ctx', hcode⟩, hiff.mp rfl⟩

end gpgpu.context
