-- The blocks of the buddy allocator. The free blocks and the live ones tile
-- the managed memory, and no two free blocks are buddies. Each operation on the
-- lists keeps both.
import Gpgpu.Lib.Dyadic
import Gpgpu.BuddyNodes

open dyadic

namespace gpgpu.buddy

/-- The block of order `k` at offset `x`. -/
def blk (x k : Nat) : Block := ⟨x, k + 12⟩

@[simp] theorem blk_lo (x k : Nat) : (blk x k).lo = x := rfl

@[simp] theorem blk_exp (x k : Nat) : (blk x k).exp = k + 12 := rfl

theorem blk_inj {x y j k : Nat} : blk x j = blk y k ↔ x = y ∧ j = k := by
  simp [blk]

theorem pow_mul_page (k : Nat) : 2 ^ k * PAGE_SIZE = 2 ^ (k + 12) := by
  rw [Nat.pow_add]
  rfl

namespace FreeLists

/-- The blocks on the lists. -/
def blocks (a : FreeLists) : Set Block := {c | ∃ k x, x ∈ a.free k ∧ c = blk x k}

theorem blk_mem_blocks (a : FreeLists) (x k : Nat) : blk x k ∈ a.blocks ↔ x ∈ a.free k := by
  constructor
  · rintro ⟨j, y, hy, he⟩
    obtain ⟨rfl, rfl⟩ := blk_inj.mp he
    exact hy
  · exact fun h => ⟨k, x, h, rfl⟩

theorem blocks_push (a : FreeLists) (k x : Nat) :
    (a.push k x).blocks = insert (blk x k) a.blocks := by
  ext c
  simp only [blocks, Set.mem_ofPred_eq, Set.mem_insert_iff, mem_push]
  constructor
  · rintro ⟨j, y, hy | ⟨rfl, rfl⟩, rfl⟩
    · exact Or.inr ⟨j, y, hy, rfl⟩
    · exact Or.inl rfl
  · rintro (rfl | ⟨j, y, hy, rfl⟩)
    · exact ⟨k, x, Or.inr ⟨rfl, rfl⟩, rfl⟩
    · exact ⟨j, y, Or.inl hy, rfl⟩

theorem blocks_erase (a : FreeLists) {k x : Nat} (h : (a.free k).Nodup) :
    (a.setList k ((a.free k).erase x)).blocks = a.blocks \ {blk x k} := by
  ext c
  simp only [blocks, Set.mem_ofPred_eq, Set.mem_sdiff, Set.mem_singleton_iff]
  constructor
  · rintro ⟨j, y, hy, rfl⟩
    by_cases hj : j = k
    · subst hj
      rw [setList_free_same, h.mem_erase_iff] at hy
      exact ⟨⟨j, y, hy.2, rfl⟩, fun he => hy.1 (blk_inj.mp he).1⟩
    · rw [setList_free_ne a _ hj] at hy
      exact ⟨⟨j, y, hy, rfl⟩, fun he => hj (blk_inj.mp he).2⟩
  · rintro ⟨⟨j, y, hy, rfl⟩, hne⟩
    refine ⟨j, y, ?_, rfl⟩
    by_cases hj : j = k
    · subst hj
      rw [setList_free_same, h.mem_erase_iff]
      exact ⟨fun he => hne (by rw [he]), hy⟩
    · rwa [setList_free_ne a _ hj]

@[simp] theorem blocks_setOrder (a : FreeLists) (page : Nat) (order : UInt8) :
    (a.setOrder page order).blocks = a.blocks := rfl

end FreeLists

/-! ## The invariant -/

/-- The free blocks and the live blocks `L` tile `T` bytes, and no two free
blocks are buddies. -/
structure Tiled (T : Nat) (L : Set Block) (a : FreeLists) : Prop where
  nodup : ∀ k, (a.free k).Nodup
  tiling : Tiling T (a.blocks ∪ L)
  apart : ∀ c ∈ a.blocks, c ∉ L
  coarse : Coarse a.blocks
  pages : ∀ c ∈ L, 12 ≤ c.exp
  small : T < 2 ^ 33

variable {T : Nat} {L : Set Block} {a : FreeLists}

theorem Tiled.setOrder (h : Tiled T L a) (page : Nat) (order : UInt8) :
    Tiled T L (a.setOrder page order) :=
  ⟨h.nodup, h.tiling, h.apart, h.coarse, h.pages, h.small⟩

theorem blk_free {x k : Nat} (hx : x ∈ a.free k) :
    blk x k ∈ a.blocks ∪ L :=
  Or.inl ((a.blk_mem_blocks x k).mpr hx)

/-- A block of the tiling ends inside the managed memory. -/
theorem Tiled.fits {x k : Nat} (h : Tiled T L a) (hx : blk x k ∈ a.blocks ∪ L) :
    x + 2 ^ (k + 12) ≤ T := by
  have hpos := Nat.two_pow_pos (k + 12)
  have hlast : x + 2 ^ (k + 12) - 1 < T :=
    (h.tiling.covered _).mpr ⟨_, hx, by simp only [Block.Covers, blk_lo, blk_exp]; omega⟩
  omega

theorem Tiled.order_lt {x k : Nat} (h : Tiled T L a) (hx : blk x k ∈ a.blocks ∪ L) :
    k < BUDDY_MAX_ORDER := by
  by_contra hk
  have h1 := h.fits hx
  have h2 : 2 ^ 33 ≤ 2 ^ (k + 12) := Nat.pow_le_pow_right (by omega)
    (by simp only [BUDDY_MAX_ORDER] at hk; omega)
  have := h.small
  omega

theorem Tiled.page_dvd {x k : Nat} (h : Tiled T L a) (hx : blk x k ∈ a.blocks ∪ L) : 4096 ∣ x := by
  have h1 : (2 : Nat) ^ 12 ∣ 2 ^ (k + 12) := pow_dvd_pow 2 (by omega)
  exact h1.trans (h.tiling.aligned _ hx)

theorem Tiled.page_fits {x k : Nat} (h : Tiled T L a) (hx : blk x k ∈ a.blocks ∪ L) :
    x + 4096 ≤ T := by
  have h1 := h.fits hx
  have h2 : 2 ^ 12 ≤ 2 ^ (k + 12) := Nat.pow_le_pow_right (by omega) (by omega)
  omega

theorem Tiled.placed {base : Nat} (h : Tiled T L a) (hpos : 0 < base) (hfits : base + T ≤ 2 ^ 64) :
    Placed base T a := by
  refine ⟨hpos, hfits, fun k x hx => ⟨h.page_dvd (blk_free hx), h.page_fits (blk_free hx)⟩,
    h.nodup, ?_⟩
  intro j k x hj hk
  have he := h.tiling.apart _ (blk_free hj) _ (blk_free hk) x (Block.covers_lo (blk x j))
    (Block.covers_lo (blk x k))
  exact (blk_inj.mp he).2

/-- No list has more nodes than there are addresses. -/
theorem Tiled.length_lt (h : Tiled T L a) (k : Nat) : (a.free k).length < SEARCH_TURNS := by
  have hsub : (a.free k).toFinset ⊆ Finset.range T := by
    intro x hx
    have h1 := h.page_fits (blk_free (List.mem_toFinset.mp hx))
    rw [Finset.mem_range]
    omega
  have hcard := Finset.card_le_card hsub
  rw [List.toFinset_card_of_nodup (h.nodup k), Finset.card_range] at hcard
  have := h.small
  simp only [SEARCH_TURNS]
  omega

/-! ## A block changes hands -/

/-- A free block becomes live. -/
theorem Tiled.take (h : Tiled T L a) {x k : Nat} (hx : x ∈ a.free k) :
    Tiled T (insert (blk x k) L) (a.setList k ((a.free k).erase x)) := by
  have hb := (a.blk_mem_blocks x k).mpr hx
  have hblocks := a.blocks_erase (x := x) (h.nodup k)
  refine ⟨?_, ?_, ?_, ?_, ?_, h.small⟩
  · intro j
    by_cases hj : j = k
    · subst hj
      rw [FreeLists.setList_free_same]
      exact (h.nodup j).erase x
    · rw [FreeLists.setList_free_ne a _ hj]
      exact h.nodup j
  · have heq : (a.blocks \ {blk x k}) ∪ insert (blk x k) L = a.blocks ∪ L := by
      ext c
      simp only [Set.mem_union, Set.mem_sdiff, Set.mem_singleton_iff, Set.mem_insert_iff]
      by_cases hc : c = blk x k
      · subst hc
        simp [hb]
      · simp [hc]
    rw [hblocks, heq]
    exact h.tiling
  · intro c hc
    rw [hblocks] at hc
    rintro (rfl | hcL)
    · exact hc.2 rfl
    · exact h.apart c hc.1 hcL
  · rw [hblocks]
    exact fun c hc hbud => h.coarse c hc.1 hbud.1
  · rintro c (rfl | hc)
    · simp
    · exact h.pages c hc

/-- A live block becomes free, when its buddy is not free. -/
theorem Tiled.give (h : Tiled T L a) {x k : Nat} (hx : blk x k ∈ L)
    (hbud : (blk x k).buddy ∉ a.blocks) : Tiled T (L \ {blk x k}) (a.push k x) := by
  have hblocks := a.blocks_push k x
  have hfresh : blk x k ∉ a.blocks := fun hc => h.apart _ hc hx
  refine ⟨?_, ?_, ?_, ?_, fun c hc => h.pages c hc.1, h.small⟩
  · intro j
    by_cases hj : j = k
    · subst hj
      rw [FreeLists.push, FreeLists.setList_free_same, List.nodup_cons]
      exact ⟨fun hm => hfresh ((a.blk_mem_blocks x j).mpr hm), h.nodup j⟩
    · rw [FreeLists.push, FreeLists.setList_free_ne a _ hj]
      exact h.nodup j
  · have heq : insert (blk x k) a.blocks ∪ (L \ {blk x k}) = a.blocks ∪ L := by
      ext c
      simp only [Set.mem_union, Set.mem_sdiff, Set.mem_singleton_iff, Set.mem_insert_iff]
      by_cases hc : c = blk x k
      · subst hc
        simp [hx]
      · simp [hc]
    rw [hblocks, heq]
    exact h.tiling
  · intro c hc hcL
    rw [hblocks] at hc
    rcases hc with rfl | hc
    · exact hcL.2 rfl
    · exact h.apart c hc hcL.1
  · rw [hblocks]
    rintro c (rfl | hc) (he | hm)
    · exact Block.buddy_ne _ he
    · exact hbud hm
    · rw [← he, Block.buddy_buddy] at hbud
      exact hbud hc
    · exact h.coarse c hc hm

/-- A live block gives up its right half. -/
theorem Tiled.split {x i : Nat} (h : Tiled T (insert (blk x (i + 1)) L) a)
    (hx : blk x (i + 1) ∉ L) :
    Tiled T (insert (blk x i) L) (a.push i (x + 2 ^ (i + 12))) := by
  have hmem : blk x (i + 1) ∈ a.blocks ∪ insert (blk x (i + 1)) L := Or.inr (Or.inl rfl)
  have hal := h.tiling.aligned _ hmem
  have hpos : 0 < (blk x (i + 1)).exp := by simp
  have hleft : (blk x (i + 1)).left = blk x i := rfl
  have hright : (blk x (i + 1)).right = blk (x + 2 ^ (i + 12)) i := rfl
  have hbud : (blk x i).buddy = blk (x + 2 ^ (i + 12)) i := by
    rw [← hleft, ← hright]
    exact Block.left_buddy hal hpos
  have hblocks := a.blocks_push i (x + 2 ^ (i + 12))
  -- A half of the live block is no block of the tiling: both would cover its start.
  have hhalf : ∀ c, (c = blk x i ∨ c = blk (x + 2 ^ (i + 12)) i) →
      c ∉ a.blocks ∪ insert (blk x (i + 1)) L := by
    intro c hc hcm
    have hcov : (blk x (i + 1)).Covers c.lo := by
      rw [Block.left_covers_or hpos, hleft, hright]
      rcases hc with rfl | rfl
      · exact Or.inl (Block.covers_lo _)
      · exact Or.inr (Block.covers_lo _)
    have he := h.tiling.apart c hcm _ hmem c.lo c.covers_lo hcov
    have hexp := congrArg Block.exp he
    rcases hc with rfl | rfl <;> simp at hexp
  have hnew := hhalf _ (Or.inr rfl)
  refine ⟨?_, ?_, ?_, ?_, ?_, h.small⟩
  · intro j
    by_cases hj : j = i
    · subst hj
      rw [FreeLists.push, FreeLists.setList_free_same, List.nodup_cons]
      exact ⟨fun hm => hnew (Or.inl ((a.blk_mem_blocks _ j).mpr hm)), h.nodup j⟩
    · rw [FreeLists.push, FreeLists.setList_free_ne a _ hj]
      exact h.nodup j
  · rw [hblocks, ← hright, ← hleft]
    exact h.tiling.split_taken hpos (fun hc => h.apart _ hc (Or.inl rfl)) hx
  · intro c hc
    rw [hblocks] at hc
    rintro (rfl | hcL)
    · rcases hc with he | hc
      · have := (blk_inj.mp he).1
        have := Nat.two_pow_pos (i + 12)
        omega
      · exact hhalf _ (Or.inl rfl) (Or.inl hc)
    · rcases hc with rfl | hc
      · exact hnew (Or.inr (Or.inr hcL))
      · exact h.apart c hc (Or.inr hcL)
  · rw [hblocks, ← hbud]
    rintro c (rfl | hc) (he | hm)
    · exact Block.buddy_ne _ he
    · rw [Block.buddy_buddy] at hm
      exact hhalf _ (Or.inl rfl) (Or.inl hm)
    · have hce : c = blk x i := by
        rw [← Block.buddy_buddy c, he, Block.buddy_buddy]
      exact hhalf _ (Or.inl rfl) (Or.inl (hce ▸ hc))
    · exact h.coarse c hc hm
  · rintro c (rfl | hc)
    · simp
    · exact h.pages c (Or.inr hc)

/-- A live block takes in its free buddy. -/
theorem Tiled.join (h : Tiled T L a) {x y k : Nat} (hx : blk x k ∈ L)
    (hbud : (blk x k).buddy = blk y k) (hy : y ∈ a.free k) :
    Tiled T (insert (blk (min x y) (k + 1)) (L \ {blk x k}))
      (a.setList k ((a.free k).erase y)) := by
  have hb := (a.blk_mem_blocks y k).mpr hy
  have htake := h.take hy
  have hblocks := a.blocks_erase (x := y) (h.nodup k)
  have hparent : (blk x k).parent = blk (min x y) (k + 1) := by
    rw [Block.parent, hbud]
    rfl
  have hal := h.tiling.aligned _ (Or.inr hx)
  -- The merged block covers the start of a half, which one old block covers.
  have hnew : blk (min x y) (k + 1) ∉ a.blocks ∪ L := by
    intro hc
    have hcov : (blk (min x y) (k + 1)).Covers x := by
      rw [← hparent, Block.parent_covers hal]
      exact Or.inl (Block.covers_lo _)
    have he := h.tiling.apart _ hc _ (Or.inr hx) x hcov (Block.covers_lo (blk x k))
    have hexp := congrArg Block.exp he
    simp at hexp
  refine ⟨htake.nodup, ?_, ?_, htake.coarse, ?_, h.small⟩
  · rw [hblocks, ← hbud, ← hparent]
    exact h.tiling.join_taken h.apart hx (hbud ▸ hb)
  · intro c hc
    rw [hblocks] at hc
    rintro (rfl | hcL)
    · exact hnew (Or.inl hc.1)
    · exact h.apart c hc.1 hcL.1
  · rintro c (rfl | hc)
    · simp
    · exact h.pages c hc.1

end gpgpu.buddy
