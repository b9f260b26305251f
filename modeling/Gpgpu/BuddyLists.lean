-- What `buddy_alloc` and `buddy_free` do to the lists of offsets, with no
-- pointer in sight, and that they keep the tiling.
import Gpgpu.BuddyTiles

open dyadic

namespace gpgpu.buddy

/-! ## The loops that count up -/

theorem scan_loop_spec (stop : Nat → Bool) (n i : Nat) :
    i ≤ scan_loop stop n i ∧ scan_loop stop n i ≤ i + n ∧
    (∀ j, i ≤ j → j < scan_loop stop n i → stop j = false) ∧
    (scan_loop stop n i < i + n → stop (scan_loop stop n i) = true) := by
  induction n generalizing i with
  | zero =>
    unfold scan_loop
    exact ⟨Nat.le_refl _, Nat.le_refl _, fun j h1 h2 => by omega, fun h => by omega⟩
  | succ n ih =>
    unfold scan_loop
    split
    · rename_i hstop
      exact ⟨Nat.le_refl _, by omega, fun j h1 h2 => by omega, fun _ => hstop⟩
    · rename_i hstop
      obtain ⟨h1, h2, h3, h4⟩ := ih (i + 1)
      refine ⟨by omega, by omega, fun j hij hj => ?_, fun h => h4 (by omega)⟩
      by_cases hji : j = i
      · subst hji
        simpa using hstop
      · exact h3 j (by omega) hj

theorem order_of_le (n : Nat) : order_of n ≤ BUDDY_MAX_ORDER := by
  have h := (scan_loop_spec (fun order => 2 ^ order * PAGE_SIZE ≥ n) BUDDY_MAX_ORDER 0).2.1
  simpa [order_of] using h

/-- The order of a size holds it. -/
theorem le_order_of {n : Nat} (h : order_of n < BUDDY_MAX_ORDER) :
    n ≤ 2 ^ order_of n * PAGE_SIZE := by
  have h4 := (scan_loop_spec (fun order => 2 ^ order * PAGE_SIZE ≥ n) BUDDY_MAX_ORDER 0).2.2.2
  rw [Nat.zero_add] at h4
  exact of_decide_eq_true (h4 h)

/-- No smaller order holds it. -/
theorem lt_of_lt_order_of {n j : Nat} (h : j < order_of n) : 2 ^ j * PAGE_SIZE < n := by
  have h3 := (scan_loop_spec (fun order => 2 ^ order * PAGE_SIZE ≥ n) BUDDY_MAX_ORDER 0).2.2.1
  simpa using h3 j (Nat.zero_le _) h

/-! ## The operations on the lists -/

namespace FreeLists

/-- The right halves that are left when the block at `x` is split from order
`i` down to `k`. -/
def splitDown (a : FreeLists) (x k : Nat) : Nat → FreeLists
  | 0 => a
  | i + 1 => if i + 1 > k then splitDown (a.push i (x + 2 ^ (i + 12))) x k i else a

/-- The first list from order `k` on that is not empty. -/
def firstList (a : FreeLists) (k : Nat) : Nat :=
  scan_loop (fun i => a.free i ≠ []) (BUDDY_MAX_ORDER - k) k

/-- The offset that an allocation of order `k` takes, and the lists after it. -/
def alloc (a : FreeLists) (k : Nat) : Option (Nat × FreeLists) :=
  match a.free (a.firstList k) with
  | [] => none
  | x :: xs =>
    if a.firstList k < BUDDY_MAX_ORDER then
      some (x, ((a.setList (a.firstList k) xs).splitDown x k (a.firstList k)).setOrder
        (x / PAGE_SIZE) (UInt8.ofNat k))
    else none

/-- The lists after the block of order `k` at `x` is given back, with at most
`n` merges. -/
def release : Nat → FreeLists → Nat → Nat → FreeLists
  | 0, a, x, k => a.push k x
  | n + 1, a, x, k =>
    let y := x ^^^ 2 ^ (k + 12)
    if y ∈ a.free k then
      release n ((a.setList k ((a.free k).erase y)).setOrder (min x y / PAGE_SIZE)
        (UInt8.ofNat (k + 1))) (min x y) (k + 1)
    else a.push k x

theorem splitDown_page_order (a : FreeLists) (x k i : Nat) :
    (a.splitDown x k i).page_order = a.page_order := by
  induction i generalizing a with
  | zero => rfl
  | succ i ih =>
    unfold splitDown
    split
    · rw [ih]
      rfl
    · rfl

/-- Splitting leaves the lists below `k` and from `i` on alone. -/
theorem splitDown_free_of (a : FreeLists) {x k i j : Nat} (h : j < k ∨ i ≤ j) :
    (a.splitDown x k i).free j = a.free j := by
  induction i generalizing a with
  | zero => rfl
  | succ i ih =>
    unfold splitDown
    split
    · rw [ih _ (by omega), push, setList_free_ne a _ (by omega)]
    · rfl

/-- Splitting puts one right half on each list from `k` up to `i`. -/
theorem splitDown_free (a : FreeLists) {x k i j : Nat} (hk : k ≤ j) (hi : j < i) :
    (a.splitDown x k i).free j = (x + 2 ^ (j + 12)) :: a.free j := by
  induction i generalizing a with
  | zero => omega
  | succ i ih =>
    unfold splitDown
    rw [if_pos (by omega)]
    by_cases hji : j = i
    · subst hji
      rw [splitDown_free_of _ (Or.inr (Nat.le_refl _)), push, setList_free_same]
    · rw [ih _ (by omega), push, setList_free_ne a _ hji]

end FreeLists

/-! ## Allocation keeps the tiling -/

variable {T : Nat} {L : Set Block} {a : FreeLists}

theorem Tiled.splitDown {x k i : Nat} (hki : k ≤ i) (h : Tiled T (insert (blk x i) L) a)
    (hx : blk x i ∉ L) : Tiled T (insert (blk x k) L) (a.splitDown x k i) ∧ blk x k ∉ L := by
  induction i generalizing a with
  | zero =>
    obtain rfl : k = 0 := by omega
    exact ⟨h, hx⟩
  | succ i ih =>
    unfold FreeLists.splitDown
    split
    · have hx' : blk x i ∉ L := by
        intro hc
        have he := h.tiling.apart _ (Or.inr (Or.inr hc)) _ (Or.inr (Or.inl rfl)) x
          (Block.covers_lo (blk x i)) (Block.covers_lo (blk x (i + 1)))
        have := (blk_inj.mp he).2
        omega
      exact ih (by omega) (h.split hx) hx'
    · obtain rfl : k = i + 1 := by omega
      exact ⟨h, hx⟩

theorem FreeLists.firstList_spec (a : FreeLists) {k : Nat} (hk : k ≤ BUDDY_MAX_ORDER) :
    k ≤ a.firstList k ∧ a.firstList k ≤ BUDDY_MAX_ORDER ∧
    (∀ j, k ≤ j → j < a.firstList k → a.free j = []) ∧
    (a.firstList k < BUDDY_MAX_ORDER → a.free (a.firstList k) ≠ []) := by
  obtain ⟨h1, h2, h3, h4⟩ := scan_loop_spec (fun i => a.free i ≠ []) (BUDDY_MAX_ORDER - k) k
  refine ⟨h1, by unfold firstList; omega, fun j hj1 hj2 => ?_, fun h => ?_⟩
  · simpa using h3 j hj1 hj2
  · have h5 := h4 (by unfold firstList at h; omega)
    unfold firstList
    simpa using h5

theorem FreeLists.alloc_eq_some {k x : Nat} {a' : FreeLists} (h : a.alloc k = some (x, a')) :
    ∃ i xs, i = a.firstList k ∧ i < BUDDY_MAX_ORDER ∧ a.free i = x :: xs ∧
      a' = ((a.setList i xs).splitDown x k i).setOrder (x / PAGE_SIZE) (UInt8.ofNat k) := by
  unfold alloc at h
  split at h
  · cases h
  · rename_i y ys hy
    split at h
    · rename_i hlt
      simp only [Option.some.injEq, Prod.mk.injEq] at h
      obtain ⟨rfl, rfl⟩ := h
      exact ⟨_, ys, rfl, hlt, hy, rfl⟩
    · cases h

/-- An allocation fails just when every list from its order on is empty. -/
theorem FreeLists.alloc_eq_none_iff (a : FreeLists) {k : Nat} (hk : k ≤ BUDDY_MAX_ORDER) :
    a.alloc k = none ↔ ∀ j, k ≤ j → j < BUDDY_MAX_ORDER → a.free j = [] := by
  obtain ⟨h1, h2, h3, h4⟩ := a.firstList_spec hk
  constructor
  · intro h j hkj hj
    refine h3 j hkj ?_
    by_contra hc
    have hlt : a.firstList k < BUDDY_MAX_ORDER := by omega
    obtain ⟨x, xs, hx⟩ := List.exists_cons_of_ne_nil (h4 hlt)
    simp [alloc, hx, hlt] at h
  · intro h
    unfold alloc
    split
    · rfl
    · rename_i x xs hx
      split
      · rename_i hlt
        rw [h _ h1 hlt] at hx
        cases hx
      · rfl

theorem Tiled.alloc (h : Tiled T L a) {k x : Nat} {a' : FreeLists} (hk : k ≤ BUDDY_MAX_ORDER)
    (ha : a.alloc k = some (x, a')) :
    Tiled T (insert (blk x k) L) a' ∧ blk x k ∉ L ∧
      a'.page_order = Function.update a.page_order (x / PAGE_SIZE) (UInt8.ofNat k) := by
  obtain ⟨i, xs, hi, hlt, hx, rfl⟩ := FreeLists.alloc_eq_some ha
  have hki : k ≤ i := hi ▸ (a.firstList_spec hk).1
  have htake := h.take (x := x) (k := i) (by simp [hx])
  rw [hx, List.erase_cons_head] at htake
  have hxL : blk x i ∉ L := h.apart _ ((a.blk_mem_blocks x i).mpr (by simp [hx]))
  obtain ⟨h1, h2⟩ := htake.splitDown hki hxL
  refine ⟨h1.setOrder _ _, h2, ?_⟩
  simp only [FreeLists.setOrder, FreeLists.splitDown_page_order, FreeLists.setList_page_order]

/-- The lists have no block for an order just when no aligned place for one is
free. -/
theorem Tiled.alloc_eq_none_iff (h : Tiled T L a) {k : Nat} (hk : k < BUDDY_MAX_ORDER) :
    a.alloc k = none ↔ ¬ ∃ x, 2 ^ k * PAGE_SIZE ∣ x ∧ FreeOf T L (blk x k) := by
  have hm : ∀ c ∈ a.blocks, 12 ≤ c.exp := by
    rintro c ⟨j, z, -, rfl⟩
    simp
  rw [a.alloc_eq_none_iff hk.le, pow_mul_page]
  constructor
  · rintro hempty ⟨x, hal, hfree⟩
    obtain ⟨d, hd, hexp, -⟩ := h.tiling.exists_holding (d := blk x k) h.coarse hm hal (by simp)
      hfree
    obtain ⟨j, y, hy, rfl⟩ := hd
    have hj := h.order_lt (blk_free hy)
    rw [hempty j (by simpa using hexp) hj] at hy
    exact absurd hy (by simp)
  · intro hno j hkj hj
    -- The first block of a longer list holds a place for the order at its start.
    by_contra hne
    obtain ⟨y, ys, hy⟩ := List.exists_cons_of_ne_nil hne
    have hmem := (a.blk_mem_blocks y j).mpr (by simp [hy])
    have hdvd : 2 ^ (k + 12) ∣ 2 ^ (j + 12) := pow_dvd_pow 2 (by omega)
    have hlen : 2 ^ (k + 12) ≤ 2 ^ (j + 12) := Nat.pow_le_pow_right (by omega) (by omega)
    refine hno ⟨y, hdvd.trans (h.tiling.aligned _ (Or.inl hmem)), fun z hz => ?_⟩
    simp only [Block.Covers, blk_lo, blk_exp] at hz
    refine h.tiling.freeOf h.apart hmem z ?_
    simp only [Block.Covers, blk_lo, blk_exp]
    omega

/-! ## Giving back keeps the tiling -/

theorem buddy_blk (x k : Nat) : (blk x k).buddy = blk (x ^^^ 2 ^ (k + 12)) k := rfl

/-- The block that a merge makes was no live block before: it would cover the
start of a live block, and be that block. -/
theorem Tiled.merged_notMem {x k : Nat} (h : Tiled T L a) (hx : blk x k ∈ L) :
    blk (min x (x ^^^ 2 ^ (k + 12))) (k + 1) ∉ L \ {blk x k} := by
  intro hc
  have hal := h.tiling.aligned _ (Or.inr hx)
  have hcov : (blk (min x (x ^^^ 2 ^ (k + 12))) (k + 1)).Covers x :=
    (Block.parent_covers hal x).mpr (Or.inl (Block.covers_lo _))
  exact hc.2 (h.tiling.apart _ (Or.inr hc.1) _ (Or.inr hx) x hcov (Block.covers_lo (blk x k)))

theorem Tiled.release {x k n : Nat} (h : Tiled T L a) (hx : blk x k ∈ L)
    (hn : BUDDY_MAX_ORDER ≤ k + n) : Tiled T (L \ {blk x k}) (a.release n x k) := by
  induction n generalizing a x k L with
  | zero =>
    have := h.order_lt (Or.inr hx)
    omega
  | succ n ih =>
    unfold FreeLists.release
    simp only
    split
    · rename_i hy
      have hj := (h.join hx (buddy_blk x k) hy).setOrder
        (min x (x ^^^ 2 ^ (k + 12)) / PAGE_SIZE) (UInt8.ofNat (k + 1))
      have hfin := ih hj (Or.inl rfl) (by omega)
      rwa [Set.insert_sdiff_self_of_notMem (h.merged_notMem hx)] at hfin
    · rename_i hy
      refine h.give hx fun hc => hy ?_
      rw [buddy_blk] at hc
      exact (a.blk_mem_blocks _ _).mp hc

/-- Giving back a block writes orders only at the starts of free blocks and of
the block itself, and only orders of blocks. -/
theorem Tiled.release_page_order {x k n : Nat} (h : Tiled T L a) (hx : blk x k ∈ L) (p : Nat) :
    (a.release n x k).page_order p = a.page_order p ∨
      ((a.release n x k).page_order p).toNat < BUDDY_MAX_ORDER ∧
        ∃ c ∈ insert (blk x k) a.blocks, c.lo / PAGE_SIZE = p := by
  induction n generalizing a x k L with
  | zero => exact Or.inl rfl
  | succ n ih =>
    unfold FreeLists.release
    simp only
    split
    · rename_i hy
      have hj := (h.join hx (buddy_blk x k) hy).setOrder
        (min x (x ^^^ 2 ^ (k + 12)) / PAGE_SIZE) (UInt8.ofNat (k + 1))
      have hlt := hj.order_lt (Or.inr (Or.inl rfl))
      have hmin : ∃ c ∈ insert (blk x k) a.blocks, c.lo = min x (x ^^^ 2 ^ (k + 12)) := by
        rcases Nat.le_total x (x ^^^ 2 ^ (k + 12)) with hle | hle
        · exact ⟨blk x k, Or.inl rfl, by rw [Nat.min_eq_left hle, blk_lo]⟩
        · exact ⟨blk (x ^^^ 2 ^ (k + 12)) k, Or.inr ((a.blk_mem_blocks _ _).mpr hy),
            by rw [Nat.min_eq_right hle, blk_lo]⟩
      obtain ⟨c, hc, hclo⟩ := hmin
      rcases ih hj (Or.inl rfl) with he | ⟨he, d, hd, hdp⟩
      · by_cases hp : p = min x (x ^^^ 2 ^ (k + 12)) / PAGE_SIZE
        · right
          refine ⟨?_, c, hc, by rw [hclo, hp]⟩
          rw [he]
          simp only [FreeLists.setOrder, hp, Function.update_self, UInt8.toNat_ofNat']
          exact lt_of_le_of_lt (Nat.mod_le _ _) hlt
        · left
          rw [he]
          simp [FreeLists.setOrder, hp]
      · refine Or.inr ⟨he, ?_⟩
        rcases hd with rfl | hd
        · exact ⟨c, hc, by rw [hclo]; exact hdp⟩
        · rw [FreeLists.blocks_setOrder, a.blocks_erase (h.nodup k)] at hd
          exact ⟨d, Or.inr hd.1, hdp⟩
    · exact Or.inl rfl

/-- A page of a live block is the first page of no other block. -/
theorem Tiled.page_of_live {c d : Block} {p : Nat} (h : Tiled T L a) (hc : c ∈ L)
    (hp : c.Covers (p * PAGE_SIZE)) (hd : d ∈ a.blocks ∪ L) (hdp : d.lo / PAGE_SIZE = p) :
    d = c := by
  have hexp : 12 ≤ d.exp := by
    rcases hd with ⟨k, x, -, rfl⟩ | hd
    · simp
    · exact h.pages d hd
  have hdvd : PAGE_SIZE ∣ d.lo := (pow_dvd_pow 2 hexp).trans (h.tiling.aligned d hd)
  have hlo : d.lo = p * PAGE_SIZE := by rw [← hdp, Nat.div_mul_cancel hdvd]
  exact h.tiling.apart d hd c (Or.inr hc) _ (hlo ▸ d.covers_lo) hp

/-- The orders on the pages of the blocks `L` stay, and what changes elsewhere
becomes the order of a block. -/
structure KeepsOrders (L : Set Block) (a a' : FreeLists) : Prop where
  live : ∀ c ∈ L, ∀ p, c.Covers (p * PAGE_SIZE) → a'.page_order p = a.page_order p
  other : ∀ p, a'.page_order p = a.page_order p ∨ (a'.page_order p).toNat < BUDDY_MAX_ORDER

theorem KeepsOrders.refl (L : Set Block) (a : FreeLists) : KeepsOrders L a a :=
  ⟨fun _ _ _ _ => rfl, fun _ => Or.inl rfl⟩

theorem KeepsOrders.trans {L' : Set Block} {a' a'' : FreeLists} (h : KeepsOrders L a a')
    (h' : KeepsOrders L' a' a'') (hL : L ⊆ L') : KeepsOrders L a a'' := by
  refine ⟨fun c hc p hp => ?_, fun p => ?_⟩
  · rw [h'.live c (hL hc) p hp, h.live c hc p hp]
  · rcases h'.other p with he | he
    · rw [he]
      exact h.other p
    · exact Or.inr he

/-- An allocation keeps the orders of the blocks that are live. -/
theorem Tiled.alloc_keeps (h : Tiled T L a) {k x : Nat} {a' : FreeLists}
    (hk : k ≤ BUDDY_MAX_ORDER) (ha : a.alloc k = some (x, a')) : KeepsOrders L a a' := by
  obtain ⟨htiled, hxL, hord⟩ := h.alloc hk ha
  refine ⟨fun c hc p hp => ?_, fun p => ?_⟩
  · rw [hord, Function.update_of_ne]
    rintro rfl
    have he := htiled.page_of_live (Or.inr hc) hp (Or.inr (Or.inl rfl)) rfl
    exact hxL (he ▸ hc)
  · rw [hord]
    by_cases hp : p = x / PAGE_SIZE
    · right
      have hlt := htiled.order_lt (Or.inr (Or.inl rfl))
      rw [hp, Function.update_self, UInt8.toNat_ofNat']
      exact lt_of_le_of_lt (Nat.mod_le _ _) hlt
    · left
      rw [Function.update_of_ne hp]

/-- Giving back a block keeps the orders of the others. -/
theorem Tiled.release_keeps (h : Tiled T L a) {k x n : Nat} (hx : blk x k ∈ L) :
    KeepsOrders (L \ {blk x k}) a (a.release n x k) := by
  refine ⟨fun c hc p hp => ?_, fun p => ?_⟩
  · rcases h.release_page_order hx p with he | ⟨-, d, hd, hdp⟩
    · exact he
    · rcases hd with rfl | hd
      · exact absurd (h.page_of_live hc.1 hp (Or.inr hx) hdp).symm hc.2
      · have he := h.page_of_live hc.1 hp (Or.inl hd) hdp
        exact absurd hc.1 (h.apart c (he ▸ hd))
  · rcases h.release_page_order (n := n) hx p with he | ⟨he, -⟩
    · exact Or.inl he
    · exact Or.inr he

/-! ## An allocation taken back -/

theorem FreeLists.release_free_congr {b : FreeLists} (h : a.free = b.free) (n x k : Nat) :
    (a.release n x k).free = (b.release n x k).free := by
  induction n generalizing a b x k with
  | zero => simp [release, push, setList, h]
  | succ n ih =>
    unfold release
    simp only [h]
    split
    · exact ih (by simp [setList, setOrder, h]) _ _
    · simp [push, setList, h]

theorem FreeLists.splitDown_self (x k : Nat) : a.splitDown x k k = a := by
  cases k with
  | zero => rfl
  | succ k => simp [splitDown]

/-- The buddy of a block that starts at the start of a larger one. -/
theorem xor_eq_add {x k i : Nat} (hki : k < i) (hx : 2 ^ (i + 12) ∣ x) :
    x ^^^ 2 ^ (k + 12) = x + 2 ^ (k + 12) := by
  have hal : (blk x (k + 1)).Aligned := (pow_dvd_pow 2 (by simp; omega)).trans hx
  exact congrArg Block.lo (Block.left_buddy hal (by simp))

/-- A block that was split down comes together again: the merges meet each
right half, and stop at the block that was split. -/
theorem FreeLists.release_splitDown {x k i n : Nat} (hki : k ≤ i) (hn : i < k + n)
    (hempty : ∀ j, k ≤ j → j < i → a.free j = [])
    (hx : 2 ^ (i + 12) ∣ x) (hbud : x ^^^ 2 ^ (i + 12) ∉ a.free i) :
    ((a.splitDown x k i).release n x k).free = (a.push i x).free := by
  -- The induction is on the number of merges that are still to come.
  obtain ⟨d, rfl⟩ : ∃ d, i = k + d := ⟨i - k, by omega⟩
  induction d generalizing k n with
  | zero =>
    obtain ⟨n, rfl⟩ : ∃ n', n = n' + 1 := ⟨n - 1, by omega⟩
    simp only [Nat.add_zero] at hbud ⊢
    rw [splitDown_self, release, if_neg hbud]
  | succ d ih =>
    obtain ⟨n, rfl⟩ : ∃ n', n = n' + 1 := ⟨n - 1, by omega⟩
    have hlist : (a.splitDown x k (k + (d + 1))).free k = [x + 2 ^ (k + 12)] := by
      rw [splitDown_free a (Nat.le_refl k) (by omega), hempty k (Nat.le_refl k) (by omega)]
    have hy : x ^^^ 2 ^ (k + 12) = x + 2 ^ (k + 12) := xor_eq_add (by omega) hx
    have hshift : k + (d + 1) = k + 1 + d := by omega
    have hih := ih (k := k + 1) (n := n) (by omega) (by omega)
      (fun j h1 h2 => hempty j (by omega) (by omega)) (hshift ▸ hx) (hshift ▸ hbud)
    rw [← hshift] at hih
    rw [release]
    simp only [hy, hlist, List.mem_singleton, if_true, List.erase_cons_head]
    rw [Nat.min_eq_left (Nat.le_add_right _ _), ← hih]
    apply release_free_congr
    funext j
    simp only [setOrder_free]
    by_cases hj : j = k
    · subst hj
      rw [setList_free_same, splitDown_free_of a (Or.inl (by omega)),
        hempty j (Nat.le_refl j) (by omega)]
    · rw [setList_free_ne _ _ hj]
      by_cases hout : j < k ∨ k + (d + 1) ≤ j
      · rw [splitDown_free_of a hout, splitDown_free_of a (by omega)]
      · rw [splitDown_free a (by omega) (by omega), splitDown_free a (by omega) (by omega)]

/-- An allocation and the release of its block leave every list as it was. -/
theorem Tiled.release_alloc (h : Tiled T L a) {k x n : Nat} {a' : FreeLists}
    (hk : k ≤ BUDDY_MAX_ORDER) (hn : BUDDY_MAX_ORDER ≤ k + n) (ha : a.alloc k = some (x, a')) :
    (a'.release n x k).free = a.free := by
  obtain ⟨i, xs, hi, hlt, hx, rfl⟩ := FreeLists.alloc_eq_some ha
  obtain ⟨h1, -, h3, -⟩ := a.firstList_spec hk
  rw [← hi] at h1 h3
  have hmem := (a.blk_mem_blocks x i).mpr (by simp [hx])
  have hal : 2 ^ (i + 12) ∣ x := h.tiling.aligned _ (Or.inl hmem)
  have hrest := (a.setList i xs).release_splitDown (n := n) h1 (by omega)
    (fun j hj1 hj2 => by rw [FreeLists.setList_free_ne a _ (by omega), h3 j hj1 hj2]) hal ?_
  · rw [FreeLists.release_free_congr (FreeLists.setOrder_free _ _ _), hrest]
    funext j
    by_cases hj : j = i
    · subst hj
      simp [FreeLists.push, hx]
    · simp [FreeLists.push, hj]
  · rw [FreeLists.setList_free_same]
    intro hc
    refine h.coarse _ hmem ?_
    rw [buddy_blk, a.blk_mem_blocks, hx]
    exact List.mem_cons_of_mem _ hc

end gpgpu.buddy
