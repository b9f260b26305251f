-- The code of the buddy allocator does to the memory what the operations on
-- the lists say. It never indexes outside an array, every search ends, and it
-- writes only into blocks that are free.
import Gpgpu.BuddyLists

open memory dyadic

namespace gpgpu.buddy

/-- The byte at address `y` lies in one of the blocks. -/
def InBlocks (base : Nat) (S : Set Block) (y : Nat) : Prop :=
  ∃ c ∈ S, base ≤ y ∧ c.Covers (y - base)

theorem blk_covers (x k z : Nat) : (blk x k).Covers z ↔ x ≤ z ∧ z < x + 2 ^ (k + 12) := Iff.rfl

/-- A block is free of taken blocks when it lies apart from each of them. -/
theorem freeOf_blk_iff {T : Nat} {L : Set Block} (hL : ∀ c ∈ L, 12 ≤ c.exp) (x k : Nat) :
    FreeOf T L (blk x k) ↔ x + 2 ^ k * PAGE_SIZE ≤ T ∧
      ∀ y j, blk y j ∈ L → x + 2 ^ k * PAGE_SIZE ≤ y ∨ y + 2 ^ j * PAGE_SIZE ≤ x := by
  have hpos := Nat.two_pow_pos (k + 12)
  simp only [pow_mul_page]
  constructor
  · intro h
    have hlast := (h (x + 2 ^ (k + 12) - 1) (by rw [blk_covers]; omega)).1
    refine ⟨by omega, fun y j hy => ?_⟩
    by_contra hc
    have hpos' := Nat.two_pow_pos (j + 12)
    refine (h (max x y) (by rw [blk_covers]; omega)).2 _ hy ?_
    rw [blk_covers]
    omega
  · rintro ⟨hT, hapart⟩ z hz
    rw [blk_covers] at hz
    refine ⟨by omega, fun c hcL hc => ?_⟩
    obtain ⟨j, hj⟩ : ∃ j, c = blk c.lo j :=
      ⟨c.exp - 12, Block.ext rfl (by have := hL c hcL; simp only [blk_exp]; omega)⟩
    rw [hj] at hcL hc
    rw [blk_covers] at hc
    have := hapart _ _ hcL
    omega

/-- The allocator `b` manages `T` bytes: it holds the lists `a`, and the free
blocks on them and the live blocks `L` tile those bytes. -/
structure Holds (T : Nat) (L : Set Block) (b : BuddyAllocator) (a : FreeLists) : Prop where
  shows : Shows b a
  tiled : Tiled T L a
  base_pos : 0 < b.vram_base
  fits : b.vram_base + T ≤ 2 ^ 64

variable {T : Nat} {L : Set Block} {b : BuddyAllocator} {a : FreeLists}

theorem Holds.placed (h : Holds T L b a) : Placed b.vram_base T a :=
  h.tiled.placed h.base_pos h.fits

/-- The offsets on a free list, as a walk of the list meets them. -/
def listed (b : BuddyAllocator) (order : Nat) : List Nat :=
  (links.walk (node_next b.mem) SEARCH_TURNS (b.free_list order)).map (· - b.vram_base)

theorem Holds.listed_eq (h : Holds T L b a) {k : Nat} (hk : k < BUDDY_MAX_ORDER) :
    listed b k = a.free k := by
  have hsll := (h.shows.lists k hk).sll h.placed.ne_zero
  have hlen : ((a.free k).map (b.vram_base + ·)).length < SEARCH_TURNS := by
    rw [List.length_map]
    exact h.tiled.length_lt k
  rw [listed, hsll.walk_eq hlen, List.map_map]
  simp [Function.comp_def]

theorem inBlocks_of_subset {base y : Nat} {S S' : Set Block} (h : S ⊆ S') (hy : InBlocks base S y) :
    InBlocks base S' y := by
  obtain ⟨c, hc, hcy⟩ := hy
  exact ⟨c, h hc, hcy⟩

/-- A byte of a live block is in no free block. -/
theorem Tiled.live_notMem_free {base y : Nat} {d : Block} (h : Tiled T L a) (hd : d ∈ L)
    (hcov : d.Covers (y - base)) : ¬ InBlocks base a.blocks y := by
  rintro ⟨c, hc, -, hcy⟩
  have he := h.tiling.apart c (Or.inl hc) d (Or.inr hd) _ hcy hcov
  exact h.apart c hc (he ▸ hd)

/-- What is in no live block of a state was free in each state with fewer live
blocks. -/
theorem Tiled.free_before {base y : Nat} {L' S : Set Block} {a' : FreeLists} (h : Tiled T L a)
    (h' : Tiled T L' a') (hL : L ⊆ L') (hS : ∀ c ∈ S, c ∈ a'.blocks ∪ L' ∧ c ∉ L)
    (hy : InBlocks base S y) : InBlocks base a.blocks y := by
  obtain ⟨c, hc, hbase, hcy⟩ := hy
  obtain ⟨d, hd, hdy⟩ := h.tiling.free_of_kept h'.tiling (fun e he => Or.inr (hL he))
    (hS c hc).1 (hS c hc).2 hcy
  exact ⟨d, hd, hbase, hdy⟩

theorem page_dvd_pow (k : Nat) : 4096 ∣ 2 ^ (k + 12) := by
  have h : (2 : Nat) ^ 12 ∣ 2 ^ (k + 12) := pow_dvd_pow 2 (by omega)
  exact h

theorem sixteen_le (k : Nat) : 16 ≤ 2 ^ (k + 12) := by
  have h : 2 ^ 12 ≤ 2 ^ (k + 12) := Nat.pow_le_pow_right (by omega) (by omega)
  omega

/-- The nodes of a list lie in the blocks of the list. -/
theorem inBlocks_of_nodeByte {base k y : Nat} (h : NodeByte base (a.free k) y) :
    InBlocks base a.blocks y := by
  obtain ⟨x, hx, h1, h2⟩ := h
  have := sixteen_le k
  exact ⟨blk x k, (a.blk_mem_blocks x k).mpr hx, by omega, by rw [blk_covers]; omega⟩

/-- The lists stay when no byte of a free block changes. -/
theorem Shows.congr (hs : Shows b a) {m : Mem}
    (hm : ∀ y, InBlocks b.vram_base a.blocks y → m y = b.mem y) : Shows { b with mem := m } a := by
  have hnode : ∀ k, ∀ x ∈ a.free k, ∀ y, b.vram_base + x ≤ y → y < b.vram_base + x + 16 →
      m y = b.mem y :=
    fun k x hx y h1 h2 => hm y (inBlocks_of_nodeByte ⟨x, hx, h1, h2⟩)
  refine ⟨hs.page_order, fun k hk => (hs.lists k hk).congr ?_ ?_⟩
  · intro p hp
    obtain ⟨x, hx, rfl⟩ := List.mem_map.mp hp
    unfold node_next
    exact load_congr fun y h1 h2 => hnode k x hx y (by omega) (by omega)
  · intro p hp
    obtain ⟨x, hx, rfl⟩ := List.mem_map.mp hp
    unfold node_prev
    exact load_congr fun y h1 h2 => hnode k x hx y (by omega) (by omega)

/-- A write of the order table inside its bounds. -/
theorem Shows.write_order (hs : Shows b a) {page : Nat} (hp : page < BUDDY_TOTAL_PAGES)
    (order : UInt8) : ∃ b', b.write_order page order = some b' ∧ Shows b' (a.setOrder page order) ∧
      b'.vram_base = b.vram_base ∧ b'.mem = b.mem := by
  refine ⟨_, if_pos hp, ⟨?_, hs.lists⟩, rfl, rfl⟩
  simp only [FreeLists.setOrder]
  rw [hs.page_order]

theorem add64_eq {x y : Nat} (h : x + y < 2 ^ 64) : add64 x y = x + y := Nat.mod_eq_of_lt h

theorem sub64_eq {base x : Nat} (h : base + x < 2 ^ 64) : sub64 (base + x) base = x := by
  unfold sub64
  have he : base + x + (2 ^ 64 - base) = x + 2 ^ 64 := by omega
  rw [he, Nat.add_mod_right, Nat.mod_eq_of_lt (by omega)]

/-! ## The split -/

theorem split_loop_spec {x k i : Nat} (hs : Shows b a) (ht : Tiled T (insert (blk x i) L) a)
    (hx : blk x i ∉ L) (hpos : 0 < b.vram_base) (hfits : b.vram_base + T ≤ 2 ^ 64) :
    Shows (split_loop b (b.vram_base + x) k i) (a.splitDown x k i) ∧
    (split_loop b (b.vram_base + x) k i).vram_base = b.vram_base ∧
    ∀ y, ¬ InBlocks b.vram_base (insert (blk x i) a.blocks) y →
      (split_loop b (b.vram_base + x) k i).mem y = b.mem y := by
  induction i generalizing a b with
  | zero => exact ⟨hs, rfl, fun y _ => rfl⟩
  | succ i ih =>
    unfold split_loop FreeLists.splitDown
    split
    · have hsplit := ht.split hx
      have hroom := ht.fits (Or.inr (Or.inl rfl))
      have hpow : 2 ^ (i + 1 + 12) = 2 ^ (i + 12) + 2 ^ (i + 12) := by
        rw [show i + 1 + 12 = (i + 12) + 1 by omega, Nat.pow_succ]
        omega
      have hpage := sixteen_le i
      have hnew : blk (x + 2 ^ (i + 12)) i ∈
          (a.push i (x + 2 ^ (i + 12))).blocks ∪ insert (blk x i) L := by
        rw [a.blocks_push]
        exact Or.inl (Or.inl rfl)
      have hfresh : ∀ j, x + 2 ^ (i + 12) ∉ a.free j := by
        intro j hj
        have hcov : (blk x (i + 1)).Covers (x + 2 ^ (i + 12)) := by
          rw [blk_covers]
          omega
        have he := ht.tiling.apart _ (blk_free hj) _ (Or.inr (Or.inl rfl)) _
          (Block.covers_lo (blk (x + 2 ^ (i + 12)) j)) hcov
        have := (blk_inj.mp he).1
        omega
      have hi : i < BUDDY_MAX_ORDER := by
        have := ht.order_lt (x := x) (k := i + 1) (Or.inr (Or.inl rfl))
        omega
      have haddr : add64 (b.vram_base + x) (2 ^ i * PAGE_SIZE) =
          b.vram_base + (x + 2 ^ (i + 12)) := by
        rw [pow_mul_page, add64_eq (by omega), Nat.add_assoc]
      have hp := ht.placed hpos hfits
      have hpush := push_front_shows hs hp hi (hsplit.page_dvd hnew) (hsplit.page_fits hnew) hfresh
      have hxi : blk x i ∉ L := by
        intro hc
        have he := ht.tiling.apart _ (Or.inr (Or.inr hc)) _ (Or.inr (Or.inl rfl)) x
          (Block.covers_lo (blk x i)) (Block.covers_lo (blk x (i + 1)))
        have := (blk_inj.mp he).2
        omega
      rw [haddr]
      obtain ⟨h1, h2, h3⟩ := ih (b := b.push_front i (b.vram_base + (x + 2 ^ (i + 12))))
        hpush hsplit hxi hpos hfits
      rw [push_front_vram_base] at h1 h2 h3
      refine ⟨h1, h2, fun y hy => ?_⟩
      rw [h3 y, push_front_outside hs hp hi]
      · rintro ⟨z, hz, hz1, hz2⟩
        rcases List.mem_cons.mp hz with rfl | hz
        · exact hy ⟨blk x (i + 1), Or.inl rfl, by omega, by rw [blk_covers]; omega⟩
        · exact hy (inBlocks_of_subset (Set.subset_insert _ _)
            (inBlocks_of_nodeByte ⟨z, hz, hz1, hz2⟩))
      · rintro ⟨c, hc, hc1, hc2⟩
        rw [a.blocks_push] at hc
        rcases hc with rfl | rfl | hc
        · rw [blk_covers] at hc2
          exact hy ⟨blk x (i + 1), Or.inl rfl, hc1, by rw [blk_covers]; omega⟩
        · rw [blk_covers] at hc2
          exact hy ⟨blk x (i + 1), Or.inl rfl, hc1, by rw [blk_covers]; omega⟩
        · exact hy ⟨c, Or.inr hc, hc1, hc2⟩
    · exact ⟨hs, rfl, fun y _ => rfl⟩

/-! ## `buddy_alloc` -/

theorem scan_loop_congr {stop stop' : Nat → Bool} {n i : Nat}
    (h : ∀ j, i ≤ j → j < i + n → stop j = stop' j) : scan_loop stop n i = scan_loop stop' n i := by
  induction n generalizing i with
  | zero => rfl
  | succ n ih =>
    unfold scan_loop
    rw [h i (Nat.le_refl i) (by omega), ih fun j h1 h2 => h j (by omega) (by omega)]

theorem first_list_eq (hs : Shows b a) (hp : Placed b.vram_base T a) {k : Nat}
    (hk : k ≤ BUDDY_MAX_ORDER) : first_list b k = a.firstList k := by
  apply scan_loop_congr
  intro j h1 h2
  exact decide_eq_decide.mpr (hs.head_ne_zero_iff hp (by omega))

/-- What a call of `buddy_alloc` gives, in terms of the lists. -/
theorem buddy_alloc_eq (h : Holds T L b a) (n : Nat) :
    (order_of n = BUDDY_MAX_ORDER ∨ a.alloc (order_of n) = none →
      buddy_alloc b n = some (NO_OFFSET, b)) ∧
    ∀ x a', order_of n < BUDDY_MAX_ORDER → a.alloc (order_of n) = some (x, a') →
      (BUDDY_TOTAL_PAGES ≤ x / PAGE_SIZE → buddy_alloc b n = none) ∧
      (x / PAGE_SIZE < BUDDY_TOTAL_PAGES → ∃ b', buddy_alloc b n = some (x, b') ∧
        Holds T (insert (blk x (order_of n)) L) b' a' ∧ b'.vram_base = b.vram_base ∧
        ∀ y, ¬ InBlocks b.vram_base a.blocks y → b'.mem y = b.mem y) := by
  have hk := order_of_le n
  have hfirst := first_list_eq h.shows h.placed hk
  obtain ⟨hle, hmax, -, hne⟩ := a.firstList_spec hk
  refine ⟨fun hfail => ?_, fun x a' hlt ha => ?_⟩
  · unfold buddy_alloc
    by_cases ho : order_of n = BUDDY_MAX_ORDER
    · simp [ho]
    · have hnone := (a.alloc_eq_none_iff hk).mp (hfail.resolve_left ho)
      have hlast : a.firstList (order_of n) = BUDDY_MAX_ORDER := by
        by_contra hc
        exact hne (by omega) (hnone _ hle (by omega))
      simp [ho, hfirst, hlast]
  · obtain ⟨htiled, hxL, hord⟩ := h.tiled.alloc hk ha
    obtain ⟨i, xs, hi, hilt, hx, rfl⟩ := FreeLists.alloc_eq_some ha
    have hxm : x ∈ a.free i := by simp [hx]
    have hroom := h.tiled.page_fits (blk_free hxm)
    have hfits := h.fits
    have hhead := h.shows.head_cons hilt hx
    have hpop : Shows (b.pop_front i) (a.setList i xs) := by
      have hu := unlink_shows h.shows h.placed hilt hxm
      rw [hx, List.erase_cons_head, ← hhead] at hu
      rw [pop_front_eq h.shows hilt (by rw [hhead]; have := h.base_pos; omega)]
      exact hu
    have hpopout : ∀ y, ¬ InBlocks b.vram_base a.blocks y → (b.pop_front i).mem y = b.mem y := by
      intro y hy
      rw [pop_front_eq h.shows hilt (by rw [hhead]; have := h.base_pos; omega), hhead]
      exact unlink_outside h.shows h.placed hilt hxm fun hc => hy (inBlocks_of_nodeByte hc)
    have htake := h.tiled.take hxm
    rw [hx, List.erase_cons_head] at htake
    have hxi : blk x i ∉ L := h.tiled.apart _ ((a.blk_mem_blocks x i).mpr hxm)
    obtain ⟨hs1, hs2, hs3⟩ := split_loop_spec (k := order_of n) (b := b.pop_front i) hpop htake hxi
      h.base_pos hfits
    have hbase : (b.pop_front i).vram_base = b.vram_base := rfl
    rw [hbase] at hs1 hs2 hs3
    have hoff : sub64 (b.vram_base + x) b.vram_base = x := sub64_eq (by omega)
    have hcode : buddy_alloc b n =
        ((split_loop (b.pop_front i) (b.vram_base + x) (order_of n) i).write_order (x / PAGE_SIZE)
          (UInt8.ofNat (order_of n))).bind fun b' => some (x, b') := by
      unfold buddy_alloc
      simp only [hlt.ne, hfirst, ← hi, hilt.ne, if_false, hhead, hs2, hoff]
      rfl
    refine ⟨fun hbad => ?_, fun hgood => ?_⟩
    · rw [hcode, BuddyAllocator.write_order, if_neg (by omega)]
      rfl
    · obtain ⟨b', hw, hsw, hwb, hwm⟩ := hs1.write_order hgood (UInt8.ofNat (order_of n))
      rw [hs2] at hwb
      refine ⟨b', by rw [hcode, hw]; rfl, ⟨hsw, htiled, ?_, ?_⟩, hwb, fun y hy => ?_⟩
      · rw [hwb]
        exact h.base_pos
      · rw [hwb]
        exact hfits
      · rw [hwm, hs3 y, hpopout y hy]
        rintro ⟨c, rfl | hc, hc1, hc2⟩
        · exact hy ⟨_, (a.blk_mem_blocks x i).mpr hxm, hc1, hc2⟩
        · have hsub := a.blocks_erase (x := x) (h.tiled.nodup i)
          rw [hx, List.erase_cons_head] at hsub
          rw [hsub] at hc
          exact hy ⟨c, hc.1, hc1, hc2⟩

/-! ## `buddy_free` -/

theorem page_lt {x : Nat} (hx : x + 4096 ≤ T) (hT : T ≤ 2 ^ 32) :
    x / PAGE_SIZE < BUDDY_TOTAL_PAGES := by
  unfold PAGE_SIZE BUDDY_TOTAL_PAGES
  omega

theorem toNat_ofNat_order {k : Nat} (hk : k < BUDDY_MAX_ORDER) : (UInt8.ofNat k).toNat = k := by
  unfold BUDDY_MAX_ORDER at hk
  rw [UInt8.toNat_ofNat', Nat.mod_eq_of_lt (by omega)]

/-- One merge of `buddy_free`: what the code does between two of its calls. -/
theorem Holds.merge (h : Holds T L b a) {x k : Nat} (hT : T ≤ 2 ^ 32) (hx : blk x k ∈ L)
    (hy : x ^^^ 2 ^ (k + 12) ∈ a.free k) :
    let y := x ^^^ 2 ^ (k + 12)
    ∃ b', (b.unlink k (b.vram_base + y)).write_order (min x y / PAGE_SIZE)
        (UInt8.ofNat (k + 1)) = some b' ∧
      Holds T (insert (blk (min x y) (k + 1)) (L \ {blk x k})) b'
        ((a.setList k ((a.free k).erase y)).setOrder (min x y / PAGE_SIZE) (UInt8.ofNat (k + 1))) ∧
      b'.vram_base = b.vram_base ∧
      (∀ z, ¬ InBlocks b.vram_base a.blocks z → b'.mem z = b.mem z) := by
  intro y
  have hk := h.tiled.order_lt (Or.inr hx)
  have hj := h.tiled.join hx (buddy_blk x k) hy
  have hpage := hj.page_fits (Or.inr (Or.inl rfl))
  have hu := unlink_shows h.shows h.placed hk hy
  obtain ⟨b', hw, hsw, hwb, hwm⟩ := hu.write_order (page_lt hpage hT) (UInt8.ofNat (k + 1))
  rw [unlink_vram_base] at hwb
  refine ⟨b', hw, ⟨hsw, hj.setOrder _ _, ?_, ?_⟩, hwb, fun z hz => ?_⟩
  · rw [hwb]
    exact h.base_pos
  · rw [hwb]
    exact h.fits
  · rw [hwm]
    exact unlink_outside h.shows h.placed hk hy fun hc => hz (inBlocks_of_nodeByte hc)

/-- The search of `buddy_free` finds the buddy just when it is free. The address
of a buddy outside the memory may wrap, and still meets no node. -/
theorem Holds.search (h : Holds T L b a) {x k turns : Nat} (hx : blk x k ∈ L)
    (hturns : (a.free k).length < turns) :
    search_loop b.mem (add64 (x ^^^ (2 ^ k * PAGE_SIZE)) b.vram_base) turns
      (b.free_list k) = some (if x ^^^ 2 ^ (k + 12) ∈ a.free k then
        b.vram_base + (x ^^^ 2 ^ (k + 12)) else 0) := by
  have hk := h.tiled.order_lt (Or.inr hx)
  have hfits := h.fits
  have hroom := h.tiled.fits (Or.inr hx)
  have hsmall := h.tiled.small
  have hbud : x ^^^ 2 ^ (k + 12) < 2 ^ 64 := by
    have hpos := Nat.two_pow_pos (k + 12)
    exact Nat.xor_lt_two_pow (by omega) (by omega)
  have hsll := (h.shows.lists k hk).sll h.placed.ne_zero
  rw [search_loop_eq hsll (by rw [List.length_map]; exact hturns), pow_mul_page]
  by_cases hy : x ^^^ 2 ^ (k + 12) ∈ a.free k
  · have hpage := h.tiled.page_fits (blk_free hy)
    rw [if_pos hy, add64_eq (by omega), Nat.add_comm _ b.vram_base, if_pos]
    exact List.mem_map.mpr ⟨_, hy, rfl⟩
  · rw [if_neg hy, if_neg]
    intro hm
    obtain ⟨z, hz, he⟩ := List.mem_map.mp hm
    have hpage := h.tiled.page_fits (blk_free hz)
    unfold add64 at he
    have hzy : z = x ^^^ 2 ^ (k + 12) := by omega
    exact hy (hzy ▸ hz)

/-! ## One call of `buddy_free` -/

/-- The order that a call for `offset` reads. -/
def order_at (b : BuddyAllocator) (offset : Nat) : Nat := (b.page_order (offset / PAGE_SIZE)).toNat

/-- One call of `buddy_free` whose search takes at most `turns` turns. It gives the allocator,
and the offset of the call of itself that it ends with. -/
def free_level (turns : Nat) (b : BuddyAllocator) (offset : Nat) :
    Option (BuddyAllocator × Option Nat) := do
  let order := (← b.read_order (offset / PAGE_SIZE)).toNat
  let list ← b.head order
  let buddy_offset := offset ^^^ (2 ^ order * PAGE_SIZE)
  let buddy_vaddr := add64 buddy_offset b.vram_base
  let temp ← search_loop b.mem buddy_vaddr turns list
  if temp = 0 then
    return (b.put_back order (add64 offset b.vram_base), none)
  let merged_offset := min offset buddy_offset
  let b ← (b.unlink order temp).write_order (merged_offset / PAGE_SIZE) (UInt8.ofNat (order + 1))
  return (b, some merged_offset)

theorem buddy_free_calls_succ (n : Nat) (b : BuddyAllocator) (offset : Nat) :
    buddy_free_calls (n + 1) b offset = (free_level SEARCH_TURNS b offset).bind fun r =>
      match r.2 with
      | none => some r.1
      | some offset' => buddy_free_calls n r.1 offset' := by
  rw [buddy_free_calls, free_level]
  cases b.read_order (offset / PAGE_SIZE) with
  | none => rfl
  | some o =>
    cases hhead : b.head o.toNat with
    | none => simp [hhead]
    | some list =>
      cases hsearch : search_loop b.mem (add64 (offset ^^^ (2 ^ o.toNat * PAGE_SIZE)) b.vram_base)
          SEARCH_TURNS list with
      | none => simp [hhead, hsearch]
      | some temp =>
        by_cases h0 : temp = 0
        · simp [hhead, hsearch, h0]
        · simp only [Option.bind_eq_bind, Option.bind_some, hhead, hsearch, if_neg h0]
          cases (b.unlink o.toNat temp).write_order
            (min offset (offset ^^^ (2 ^ o.toNat * PAGE_SIZE)) / PAGE_SIZE)
            (UInt8.ofNat (o.toNat + 1)) with
          | none => rfl
          | some b1 => rfl

/-- A call finds the list of its order, and the buddy on it just when it is free. -/
theorem Holds.level_eq (h : Holds T L b a) {x k turns : Nat} (hT : T ≤ 2 ^ 32) (hx : blk x k ∈ L)
    (ho : (a.page_order (x / PAGE_SIZE)).toNat = k) (hturns : (a.free k).length < turns) :
    free_level turns b x = if x ^^^ 2 ^ (k + 12) ∈ a.free k then
        ((b.unlink k (b.vram_base + (x ^^^ 2 ^ (k + 12)))).write_order
          (min x (x ^^^ 2 ^ (k + 12)) / PAGE_SIZE) (UInt8.ofNat (k + 1))).map
            fun b1 => (b1, some (min x (x ^^^ 2 ^ (k + 12))))
      else some (b.push_front k (b.vram_base + x), none) := by
  have hk := h.tiled.order_lt (Or.inr hx)
  have hpage := h.tiled.page_fits (Or.inr hx)
  have hfits := h.fits
  have hpos := h.base_pos
  have hread : b.read_order (x / PAGE_SIZE) = some (a.page_order (x / PAGE_SIZE)) := by
    rw [BuddyAllocator.read_order, if_pos (page_lt hpage hT), h.shows.page_order]
  have hhead : b.head k = some (b.free_list k) := if_pos hk
  unfold free_level
  simp only [hread, Option.bind_eq_bind, Option.bind_some, ho, hhead, h.search hx hturns]
  by_cases hy : x ^^^ 2 ^ (k + 12) ∈ a.free k
  · rw [if_pos hy, if_pos hy, if_neg (by omega), pow_mul_page]
    cases (b.unlink k (b.vram_base + (x ^^^ 2 ^ (k + 12)))).write_order
      (min x (x ^^^ 2 ^ (k + 12)) / PAGE_SIZE) (UInt8.ofNat (k + 1)) <;> rfl
  · have haddr : add64 x b.vram_base = b.vram_base + x := by
      rw [add64_eq (by omega), Nat.add_comm]
    rw [if_neg hy, if_neg hy, if_pos rfl, haddr, put_back_eq (h.shows.head_lt h.placed hk)]
    rfl

theorem Holds.level_last (h : Holds T L b a) {x k turns : Nat} (hT : T ≤ 2 ^ 32) (hx : blk x k ∈ L)
    (ho : (a.page_order (x / PAGE_SIZE)).toNat = k) (hturns : (a.free k).length < turns)
    (hy : x ^^^ 2 ^ (k + 12) ∉ a.free k) :
    free_level turns b x = some (b.push_front k (b.vram_base + x), none) := by
  rw [h.level_eq hT hx ho hturns, if_neg hy]

/-- A call that merges hands on a block of the next order, and its own order with it. -/
theorem Holds.level_merge (h : Holds T L b a) {x k turns : Nat} (hT : T ≤ 2 ^ 32) (hx : blk x k ∈ L)
    (ho : (a.page_order (x / PAGE_SIZE)).toNat = k) (hturns : (a.free k).length < turns)
    (hy : x ^^^ 2 ^ (k + 12) ∈ a.free k) :
    let y := x ^^^ 2 ^ (k + 12)
    let a1 := (a.setList k ((a.free k).erase y)).setOrder (min x y / PAGE_SIZE) (UInt8.ofNat (k + 1))
    ∃ b1, free_level turns b x = some (b1, some (min x y)) ∧
      Holds T (insert (blk (min x y) (k + 1)) (L \ {blk x k})) b1 a1 ∧
      (a1.page_order (min x y / PAGE_SIZE)).toNat = k + 1 ∧ b1.vram_base = b.vram_base ∧
      ∀ z, ¬ InBlocks b.vram_base a.blocks z → b1.mem z = b.mem z := by
  intro y a1
  obtain ⟨b1, hw, hb1, hbase, hout⟩ := h.merge hT hx hy
  refine ⟨b1, ?_, hb1, ?_, hbase, hout⟩
  · rw [h.level_eq hT hx ho hturns, if_pos hy, hw]
    rfl
  · simp only [a1, FreeLists.setOrder, Function.update_self]
    exact toNat_ofNat_order (hb1.tiled.order_lt (Or.inr (Or.inl rfl)))

theorem buddy_free_calls_spec {x k n : Nat} (h : Holds T L b a) (hT : T ≤ 2 ^ 32)
    (hx : blk x k ∈ L) (ho : (a.page_order (x / PAGE_SIZE)).toNat = k)
    (hn : BUDDY_MAX_ORDER ≤ k + n) :
    ∃ b', buddy_free_calls n b x = some b' ∧ Holds T (L \ {blk x k}) b' (a.release n x k) ∧
      b'.vram_base = b.vram_base ∧
      ∀ z, ¬ InBlocks b.vram_base (insert (blk x k) a.blocks) z → b'.mem z = b.mem z := by
  induction n generalizing b a x k L with
  | zero =>
    have := h.tiled.order_lt (Or.inr hx)
    omega
  | succ n ih =>
    have hk := h.tiled.order_lt (Or.inr hx)
    have hlen := h.tiled.length_lt k
    rw [buddy_free_calls_succ]
    by_cases hy : x ^^^ 2 ^ (k + 12) ∈ a.free k
    · obtain ⟨b1, hlevel, hb1, hord, hbase, hout⟩ := h.level_merge hT hx ho hlen hy
      obtain ⟨b2, hb2, hh2, hbase2, hout2⟩ := ih hb1 (Or.inl rfl) hord (by omega)
      rw [Set.insert_sdiff_self_of_notMem (h.tiled.merged_notMem hx)] at hh2
      refine ⟨b2, ?_, ?_, by rw [hbase2, hbase], ?_⟩
      · rw [hlevel]
        exact hb2
      · rw [FreeLists.release, if_pos hy]
        exact hh2
      · intro z hz
        rw [hout2 z, hout z]
        · exact fun hc => hz (inBlocks_of_subset (Set.subset_insert _ _) hc)
        · rw [hbase]
          -- The merged block covers what the block and its buddy covered.
          rintro ⟨c, rfl | hc, hc1, hc2⟩
          · have hal := h.tiled.tiling.aligned _ (Or.inr hx)
            rcases (Block.parent_covers hal (z - b.vram_base)).mp hc2 with hc2 | hc2
            · exact hz ⟨_, Or.inl rfl, hc1, hc2⟩
            · exact hz ⟨_, Or.inr ((a.blk_mem_blocks _ _).mpr hy), hc1, hc2⟩
          · rw [FreeLists.blocks_setOrder, a.blocks_erase (h.tiled.nodup k)] at hc
            exact hz ⟨c, Or.inr hc.1, hc1, hc2⟩
    · have hpage := h.tiled.page_fits (Or.inr hx)
      have hdvd := h.tiled.page_dvd (Or.inr hx)
      have hrel := h.tiled.release hx hn
      have hfresh : ∀ j, x ∉ a.free j := by
        intro j hj
        have he := h.tiled.tiling.apart _ (blk_free hj) _ (Or.inr hx) x
          (Block.covers_lo (blk x j)) (Block.covers_lo (blk x k))
        exact h.tiled.apart _ ((a.blk_mem_blocks x j).mpr hj) (he ▸ hx)
      have hrelease : a.release (n + 1) x k = a.push k x := by
        rw [FreeLists.release, if_neg hy]
      rw [h.level_last hT hx ho hlen hy]
      rw [hrelease] at hrel ⊢
      refine ⟨_, rfl, ⟨push_front_shows h.shows h.placed hk hdvd hpage hfresh, hrel, h.base_pos,
        h.fits⟩, rfl, fun z hz => ?_⟩
      apply push_front_outside h.shows h.placed hk
      rintro ⟨w, hw, hw1, hw2⟩
      rcases List.mem_cons.mp hw with rfl | hw
      · have := sixteen_le k
        exact hz ⟨blk w k, Or.inl rfl, by omega, by rw [blk_covers]; omega⟩
      · exact hz (inBlocks_of_subset (Set.subset_insert _ _)
          (inBlocks_of_nodeByte ⟨w, hw, hw1, hw2⟩))

/-- `buddy_free` of a live block ends, inside every array, and gives the block
back to the lists. -/
theorem buddy_free_spec {x k : Nat} (h : Holds T L b a) (hT : T ≤ 2 ^ 32) (hx : blk x k ∈ L)
    (ho : (a.page_order (x / PAGE_SIZE)).toNat = k) :
    ∃ b', buddy_free b x = some b' ∧
      Holds T (L \ {blk x k}) b' (a.release (BUDDY_MAX_ORDER + 1) x k) ∧
      b'.vram_base = b.vram_base ∧
      ∀ z, ¬ InBlocks b.vram_base (insert (blk x k) a.blocks) z → b'.mem z = b.mem z :=
  buddy_free_calls_spec h hT hx ho (by omega)

/-! ## `buddy_init` -/

/-- The lists grow by a block at the end of the memory that they tile, when all
blocks before it are larger. -/
theorem Tiled.append {n : Nat} (h : Tiled T ∅ a) (hord : ∀ k x, x ∈ a.free k → n < k)
    (hal : 2 ^ (n + 12) ∣ T) (hroom : T + 2 ^ (n + 12) < 2 ^ 33) :
    Tiled (T + 2 ^ (n + 12)) ∅ (a.push n T) := by
  have hblocks := a.blocks_push n T
  have hnew : ∀ x, blk x n ∉ a.blocks := by
    intro x hx
    have := hord n x ((a.blk_mem_blocks x n).mp hx)
    omega
  refine ⟨?_, ?_, by simp, ?_, by simp, hroom⟩
  · intro j
    by_cases hj : j = n
    · subst hj
      rw [FreeLists.push, FreeLists.setList_free_same, List.nodup_cons]
      exact ⟨fun hm => hnew T ((a.blk_mem_blocks T j).mpr hm), h.nodup j⟩
    · rw [FreeLists.push, FreeLists.setList_free_ne a _ hj]
      exact h.nodup j
  · have ht := h.tiling
    rw [Set.union_empty] at ht ⊢
    rw [hblocks]
    exact ht.append (b := blk T n) hal rfl
  · rw [hblocks]
    rintro c (rfl | hc) (he | hm)
    · exact Block.buddy_ne _ he
    · rw [buddy_blk] at hm
      exact hnew _ hm
    · rw [← Block.buddy_buddy c, he, buddy_blk] at hc
      exact hnew _ hc
    · exact h.coarse c hc hm

theorem Placed.mono {base T' : Nat} (h : Placed base T a) (hT : T ≤ T')
    (hfits : base + T' ≤ 2 ^ 64) : Placed base T' a :=
  ⟨h.base_pos, hfits, fun k x hx => ⟨(h.page k x hx).1, by have := (h.page k x hx).2; omega⟩,
    h.nodup, h.unique⟩

theorem buddy_init_loop_spec (b : BuddyAllocator) (off rem n : Nat) (hs : Shows b a)
    (ht : Tiled off ∅ a)
    (hord : ∀ k x, x ∈ a.free k → n ≤ k) (hn : n ≤ BUDDY_MAX_ORDER) (hal : 2 ^ (n + 12) ∣ off)
    (hroom : off + 2 ^ (n + 12) ≤ 2 ^ 33) (hpos : 0 < b.vram_base)
    (hfits : b.vram_base + off + rem ≤ 2 ^ 64) :
    ∃ T a', Shows (buddy_init_loop b off rem n) a' ∧ Tiled T ∅ a' ∧
      (buddy_init_loop b off rem n).vram_base = b.vram_base ∧ a'.page_order = a.page_order ∧
      T ≤ off + rem ∧
      T = off + (if rem < 2 ^ (n + 12) then rem / 4096 * 4096 else 2 ^ (n + 12) - 4096) := by
  induction n generalizing b a off rem with
  | zero =>
    refine ⟨off, a, hs, ht, rfl, rfl, by omega, ?_⟩
    split <;> omega
  | succ n ih =>
    have hpow : 2 ^ (n + 1 + 12) = 2 ^ (n + 12) + 2 ^ (n + 12) := by
      rw [show n + 1 + 12 = (n + 12) + 1 by omega, Nat.pow_succ]
      omega
    have hpage : 4096 ∣ 2 ^ (n + 12) := page_dvd_pow n
    have hpge := sixteen_le n
    have hal' : 2 ^ (n + 12) ∣ off := (pow_dvd_pow 2 (by omega)).trans hal
    have hdvd : 4096 ∣ off := hpage.trans hal'
    rw [hpow] at hroom ⊢
    unfold buddy_init_loop
    simp only [pow_mul_page]
    split
    · rename_i hge
      have hgrow := ht.append (fun k x hx => hord k x hx) hal' (by omega)
      have hfresh : ∀ j, off ∉ a.free j := by
        intro j hj
        have := ht.page_fits (blk_free hj)
        omega
      have hp : Placed b.vram_base (off + 2 ^ (n + 12)) a :=
        (ht.placed hpos (by omega)).mono (by omega) (by omega)
      have hpush := push_front_shows (k := n) hs hp (by omega) hdvd (by omega) hfresh
      have hord' : ∀ k x, x ∈ (a.push n off).free k → n ≤ k := by
        intro k x hx
        rw [FreeLists.mem_push] at hx
        rcases hx with hx | ⟨rfl, -⟩
        · have := hord k x hx
          omega
        · exact Nat.le_refl k
      rw [add64_eq (by omega)]
      obtain ⟨T, a', h1, h2, h3, h4, h5, h6⟩ := ih (b.push_front n (b.vram_base + off))
        (off + 2 ^ (n + 12)) (rem - 2 ^ (n + 12)) hpush hgrow hord' (by omega)
        (Dvd.dvd.add hal' (Nat.dvd_refl _)) (by omega) hpos (by rw [push_front_vram_base]; omega)
      refine ⟨T, a', h1, h2, h3, h4, by omega, ?_⟩
      rw [h6]
      split <;> split <;> omega
    · rename_i hge
      obtain ⟨T, a', h1, h2, h3, h4, h5, h6⟩ := ih b off rem hs ht
        (fun k x hx => by have := hord k x hx; omega) (by omega) hal' (by omega) hpos hfits
      refine ⟨T, a', h1, h2, h3, h4, h5, ?_⟩
      rw [h6]
      split <;> split <;> omega

/-- The bytes that an allocator of `size` bytes manages: whole pages, and no
more than one block of each order. -/
def managed (size : Nat) : Nat :=
  if size < 2 ^ 33 then size / 4096 * 4096 else 2 ^ 33 - 4096

theorem managed_le (size : Nat) : managed size ≤ size := by
  unfold managed
  split <;> omega

/-- `buddy_init` makes an allocator with no live block. -/
theorem buddy_init_holds (mem : Mem) {base : Nat} (size : Nat) (hpos : 0 < base)
    (hfits : base + size ≤ 2 ^ 64) :
    ∃ a, Holds (managed size) ∅ (buddy_init mem base size) a ∧
      (buddy_init mem base size).vram_base = base ∧ ∀ p, a.page_order p = 0 := by
  have hempty : Tiled 0 ∅ ⟨fun _ => [], fun _ => 0⟩ := by
    have hblocks : FreeLists.blocks ⟨fun _ => [], fun _ => 0⟩ = ∅ := by
      ext c
      simp [FreeLists.blocks]
    refine ⟨by simp, ?_, by simp, ?_, by simp, by norm_num⟩
    · rw [hblocks, Set.union_empty]
      exact tiling_empty
    · rw [hblocks]
      exact fun c hc => absurd hc (by simp)
  obtain ⟨T, a, h1, h2, h3, h4, h5, h6⟩ := buddy_init_loop_spec
    { free_list := fun _ => 0, page_order := fun _ => 0, vram_base := base, mem } 0 size
    BUDDY_MAX_ORDER
    ⟨rfl, fun k _ => links.dll_nil _ _⟩ hempty (by simp) (Nat.le_refl _) (Nat.dvd_zero _)
    (by simp [BUDDY_MAX_ORDER]) hpos (by simpa using hfits)
  have hT : T = managed size := by
    rw [h6, managed, Nat.zero_add]
    rfl
  subst hT
  refine ⟨a, ⟨h1, h2, ?_, ?_⟩, h3, fun p => by rw [h4]⟩
  · rw [buddy_init, h3]
    exact hpos
  · rw [buddy_init, h3]
    simp only
    omega

/-- With more than 4 GiB the first page that the allocator gives out has no entry
in the order table. -/
theorem Tiled.alloc_far (h : Tiled T ∅ a) (hT : 2 ^ 32 < T) :
    ∃ x a', a.alloc 0 = some (x, a') ∧ BUDDY_TOTAL_PAGES ≤ x / PAGE_SIZE := by
  have hsmall := h.small
  have hm : ∀ c ∈ a.blocks, 12 ≤ c.exp := by
    rintro c ⟨k, x, -, rfl⟩
    simp
  -- The first 4 GiB are one block, so the block at their end is a smaller one.
  obtain ⟨d, ⟨k, x, hx, rfl⟩, hexp, hcov⟩ := h.tiling.exists_holding h.coarse hm
    (d := blk 0 20) (Nat.dvd_zero _) (by simp)
    (fun z hz => ⟨by have := hz.2; simp only [blk_lo, blk_exp] at this; omega, by simp⟩)
  have hk := h.order_lt (blk_free hx)
  have hk20 : k = 20 := by
    simp only [blk_exp] at hexp
    unfold BUDDY_MAX_ORDER at hk
    omega
  subst hk20
  have hx0 : x = 0 := Nat.le_zero.mp (hcov 0 (Block.covers_lo (blk 0 20))).1
  subst hx0
  obtain ⟨c, hc | hc, hcz⟩ := (h.tiling.covered (2 ^ 32)).mp hT
  · obtain ⟨j, y, hy, rfl⟩ := hc
    have hfar : ∀ i z, z ∈ a.free i → i ≠ 20 → 2 ^ 32 ≤ z := by
      intro i z hz hi
      by_contra hlt
      have he := h.tiling.apart _ (blk_free hz) _ (blk_free hx) z (Block.covers_lo (blk z i))
        ⟨Nat.zero_le _, by simp only [blk_lo, blk_exp]; omega⟩
      exact hi (blk_inj.mp he).2
    have hj : j < 20 := by
      have hjlt := h.order_lt (blk_free hy)
      by_contra hge
      have hj20 : j = 20 := by
        unfold BUDDY_MAX_ORDER at hjlt
        omega
      subst hj20
      have hfit := h.fits (blk_free hy)
      have hyz : y ≤ 2 ^ 32 := hcz.1
      have hy0 : y = 0 := by
        by_contra hne
        have hal : 2 ^ 32 ∣ y := h.tiling.aligned _ (blk_free hy)
        have := Nat.le_of_dvd (Nat.pos_of_ne_zero hne) hal
        omega
      have := hcz.2
      simp only [blk_lo, blk_exp, hy0] at this
      omega
    obtain ⟨h1, h2, h3, h4⟩ := a.firstList_spec (Nat.zero_le BUDDY_MAX_ORDER)
    have hfirst : a.firstList 0 ≤ j := by
      by_contra hgt
      have := h3 j (Nat.zero_le _) (by omega)
      rw [this] at hy
      cases hy
    cases ha : a.alloc 0 with
    | none =>
      have := (a.alloc_eq_none_iff (Nat.zero_le _)).mp ha j (Nat.zero_le _)
        (by unfold BUDDY_MAX_ORDER; omega)
      rw [this] at hy
      cases hy
    | some r =>
      obtain ⟨i, xs, hi, -, hxs, -⟩ := FreeLists.alloc_eq_some (x := r.1) ha
      have := hfar i r.1 (by simp [hxs]) (by omega)
      refine ⟨r.1, r.2, rfl, ?_⟩
      unfold BUDDY_TOTAL_PAGES PAGE_SIZE
      omega
  · cases hc

end gpgpu.buddy
