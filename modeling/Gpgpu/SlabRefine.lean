-- The code of the slab caches does to the memory what the operations on the
-- lists say. Every record that it looks for is there, and it writes only into
-- free blocks and free slots.
import Gpgpu.SlabLists
import Gpgpu.BuddyRefine

open memory dyadic links

namespace gpgpu.slab

open buddy

/-! ## The links of the slots -/

theorem slab_next_set (m : Mem) (p v : Nat) : slab_next (set_slab_next m p v) p = v % 2 ^ 64 := by
  unfold slab_next set_slab_next
  rw [load_store, show (256 : Nat) ^ 8 = 2 ^ 64 by norm_num]

theorem slab_next_set_apart {m : Mem} {p q v : Nat} (h : p + 8 ≤ q ∨ q + 8 ≤ p) :
    slab_next (set_slab_next m p v) q = slab_next m q := by
  unfold slab_next set_slab_next
  exact load_store_apart h

theorem set_slab_next_outside {m : Mem} {p v y : Nat} (h : y < p ∨ p + 8 ≤ y) :
    set_slab_next m p v y = m y := by
  unfold set_slab_next
  exact store_outside h

theorem slab_next_congr {m m' : Mem} {p : Nat} (h : ∀ y, p ≤ y → y < p + 8 → m' y = m y) :
    slab_next m' p = slab_next m p := by
  unfold slab_next
  exact load_congr h

/-- The carve puts the slots on the list, the last one first. -/
theorem carve_loop_spec {base p s : Nat} (hs : 8 ≤ s) (n i : Nat) (m : Mem) (fl : Nat)
    (zs : List Nat) (hpos : 0 < base) (hend : base + p + (i + n) * s ≤ 2 ^ 64) (hfl : fl < 2 ^ 64)
    (hz : ∀ z ∈ zs, z + 8 ≤ p + i * s ∨ p + (i + n) * s ≤ z)
    (h : Sll (slab_next m) fl (zs.map (base + ·))) :
    let r := carve_loop (base + p) s n i m fl
    Sll (slab_next r.1) r.2
      ((((List.range' i n).map (p + · * s)).reverse ++ zs).map (base + ·)) ∧
    ∀ y, y < base + p + i * s ∨ base + p + (i + n) * s ≤ y → r.1 y = m y := by
  induction n generalizing i m fl zs with
  | zero => exact ⟨by simpa [carve_loop] using h, fun y _ => rfl⟩
  | succ n ih =>
    have hstep : (i + (n + 1)) * s = i * s + s + n * s := by ring
    have hnext : (i + 1 + n) * s = i * s + s + n * s := by ring
    have hone : (i + 1) * s = i * s + s := by ring
    rw [hstep] at hend hz
    have hnode : add64 (base + p) (i * s) = base + (p + i * s) := by
      rw [add64_eq (by omega), Nat.add_assoc]
    have hpush : Sll (slab_next (set_slab_next m (base + (p + i * s)) fl)) (base + (p + i * s))
        (((p + i * s) :: zs).map (base + ·)) := by
      apply h.push (by omega)
      · rw [slab_next_set, Nat.mod_eq_of_lt hfl]
      · intro q hq
        obtain ⟨z, hzm, rfl⟩ := List.mem_map.mp hq
        have := hz z hzm
        exact slab_next_set_apart (by omega)
    have hapart : ∀ z ∈ (p + i * s) :: zs,
        z + 8 ≤ p + (i + 1) * s ∨ p + (i + 1 + n) * s ≤ z := by
      intro z hzm
      rw [hone, hnext]
      cases hzm with
      | head => left; omega
      | tail _ hzm =>
        have := hz z hzm
        omega
    obtain ⟨h1, h2⟩ := ih (i + 1) (set_slab_next m (base + (p + i * s)) fl) (base + (p + i * s))
      ((p + i * s) :: zs) (by rw [hnext]; omega) (by omega) hapart hpush
    unfold carve_loop
    simp only [hnode]
    refine ⟨?_, fun y hy => ?_⟩
    · rw [List.range'_succ, List.map_cons, List.reverse_cons, List.append_assoc,
        List.singleton_append]
      exact h1
    · rw [hstep] at hy
      rw [h2 y (by rw [hone, hnext]; omega), set_slab_next_outside (by omega)]

/-- The loop of `slab_free` takes just the slots between the two addresses off
the list. -/
theorem drop_loop_spec (lo hi : Nat) {n : Nat} {m : Mem} {fl fprev fcurr : Nat}
    (done xs : List Nat)
    (h : Sll (slab_next m) fl (done ++ xs)) (hnd : (done ++ xs).Nodup)
    (hap : ∀ p ∈ done ++ xs, ∀ q ∈ done ++ xs, p ≠ q → p + 8 ≤ q ∨ q + 8 ≤ p)
    (hlt : ∀ p ∈ done ++ xs, p < 2 ^ 64)
    (hprev : (done = [] ∧ fprev = 0) ∨ ∃ as, done = as ++ [fprev]) (hcurr : fcurr = xs.headD 0)
    (hn : xs.length < n) :
    ∃ m' fl', drop_loop lo hi n m fl fprev fcurr = some (m', fl') ∧
      Sll (slab_next m') fl' (done ++ xs.filter fun p => ¬ (p ≥ lo ∧ p < hi)) ∧
      ∀ y, (∀ p ∈ done ++ xs, y < p ∨ p + 8 ≤ y) → m' y = m y := by
  induction xs generalizing n m fl fprev fcurr done with
  | nil =>
    obtain ⟨n, rfl⟩ : ∃ n', n = n' + 1 := ⟨n - 1, by simp at hn; omega⟩
    subst hcurr
    exact ⟨m, fl, by simp [drop_loop], by simpa using h, fun y _ => rfl⟩
  | cons x xs ih =>
    obtain ⟨n, rfl⟩ : ∃ n', n = n' + 1 := ⟨n - 1, by simp at hn; omega⟩
    have hlen : xs.length < n := by simp at hn; omega
    have hcx : fcurr = x := hcurr
    subst hcx
    have hx0 : fcurr ≠ 0 := h.ne_zero fcurr (by simp)
    have hnext := h.next_eq
    have hsub : ∀ p, p ∈ done ++ xs → p ∈ done ++ fcurr :: xs := by
      intro p hp
      rcases List.mem_append.mp hp with hp | hp
      · exact List.mem_append_left _ hp
      · exact List.mem_append_right _ (List.mem_cons_of_mem _ hp)
    have hnd' : (done ++ xs).Nodup :=
      hnd.sublist (List.Sublist.append_left (List.sublist_cons_self _ _) done)
    unfold drop_loop
    rw [if_neg hx0]
    simp only
    by_cases hin : fcurr ≥ lo ∧ fcurr < hi
    · rw [if_pos hin, List.filter_cons_of_neg (by simpa using hin)]
      rcases hprev with ⟨hdone, hprev⟩ | ⟨as, rfl⟩
      · -- No node is kept yet: the head pointer moves on.
        subst hdone hprev
        rw [if_neg (by simp)]
        obtain ⟨m', fl', h1, h2, h3⟩ := ih [] h.tail hnd'
          (fun p hp q hq => hap p (hsub p hp) q (hsub q hq)) (fun p hp => hlt p (hsub p hp))
          (Or.inl ⟨rfl, rfl⟩) hnext hlen
        have hfl : fl = fcurr := h.1
        exact ⟨m', fl', h1, h2, fun y hy => h3 y fun p hp => hy p (hsub p hp)⟩
      · have hp0 : fprev ≠ 0 := h.ne_zero fprev (by simp)
        have hmem : fprev ∈ as ++ [fprev] ++ fcurr :: xs := by simp
        have hnextlt : slab_next m fcurr < 2 ^ 64 := by
          rw [hnext]
          cases xs with
          | nil => exact Nat.two_pow_pos 64
          | cons z zs => exact hlt z (by simp)
        have hne : ∀ y ∈ as ++ xs, y ≠ fprev := by
          intro y hy he
          subst he
          simp only [List.append_assoc, List.singleton_append] at hnd'
          have := (List.nodup_middle.mp hnd')
          exact (List.nodup_cons.mp this).1 hy
        have hkeep : ∀ y ∈ as ++ xs,
            slab_next (set_slab_next m fprev (slab_next m fcurr)) y = slab_next m y := by
          intro y hy
          have hym : y ∈ as ++ [fprev] ++ fcurr :: xs := by
            rcases List.mem_append.mp hy with hy | hy <;> simp [hy]
          exact slab_next_set_apart (hap _ hmem _ hym (hne y hy).symm)
        have hskip : Sll (slab_next (set_slab_next m fprev (slab_next m fcurr))) fl
            (as ++ [fprev] ++ xs) := by
          rw [List.append_assoc, List.singleton_append] at h ⊢
          apply h.skip
          · rw [slab_next_set, Nat.mod_eq_of_lt hnextlt]
          · exact fun y hy => hkeep y (by simp [hy])
          · exact fun y hy => hkeep y (by simp [hy])
        rw [if_pos hp0]
        obtain ⟨m', fl', h1, h2, h3⟩ := ih (as ++ [fprev]) hskip hnd'
          (fun p hp q hq => hap p (hsub p hp) q (hsub q hq)) (fun p hp => hlt p (hsub p hp))
          (Or.inr ⟨as, rfl⟩) hnext hlen
        refine ⟨m', fl', h1, h2, fun y hy => ?_⟩
        rw [h3 y fun p hp => hy p (hsub p hp), set_slab_next_outside (hy fprev hmem)]
    · rw [if_neg hin, List.filter_cons, if_pos (decide_eq_true hin)]
      have hassoc : done ++ fcurr :: xs = done ++ [fcurr] ++ xs := by simp
      rw [hassoc] at h hnd hap hlt
      obtain ⟨m', fl', h1, h2, h3⟩ := ih (done ++ [fcurr]) h hnd hap hlt (Or.inr ⟨done, rfl⟩)
        hnext hlen
      refine ⟨m', fl', h1, by simpa using h2, fun y hy => h3 y ?_⟩
      rw [← hassoc]
      exact hy

/-! ## The records of the pages -/

/-- The records of a cache: each counts the free slots of its page. -/
def Cache.metas (c : Cache) : List SlabPageMeta :=
  c.pages.map fun p => ⟨p, UInt16.ofNat (c.freeIn p), UInt16.ofNat c.perPage⟩

theorem modify_middle {α : Type} (as : List α) (x : α) (bs : List α) (f : α → α) :
    (as ++ x :: bs).modify as.length f = as ++ f x :: bs := by
  induction as with
  | nil => rfl
  | cons a as ih => simpa [List.modify] using ih

/-- The record of a page is found, at the place of the page. -/
theorem Cache.find_meta_eq {c : Cache} {p : Nat} {as bs : List Nat}
    (hpages : c.pages = as ++ p :: bs) (hp : p ∉ as) : find_meta c.metas p = some as.length := by
  unfold find_meta metas
  rw [hpages, List.map_append, List.map_cons, List.findIdx?_append]
  have hnone : (as.map fun p => (⟨p, UInt16.ofNat (c.freeIn p), UInt16.ofNat c.perPage⟩ :
      SlabPageMeta)).findIdx? (fun m => decide (m.page_offset = p)) = none := by
    rw [List.findIdx?_eq_none_iff]
    intro m hm
    obtain ⟨q, hq, rfl⟩ := List.mem_map.mp hm
    exact decide_eq_false fun (he : q = p) => hp (he ▸ hq)
  rw [hnone]
  simp [List.findIdx?_cons]

/-- A page of a cache splits its list of pages. -/
theorem Sound.split_pages {c : Cache} {V : Set Nat} {p : Nat} (h : Sound c V) (hp : p ∈ c.pages) :
    ∃ as bs, c.pages = as ++ p :: bs ∧ p ∉ as ∧ p ∉ bs := by
  obtain ⟨as, bs, hpages⟩ := List.append_of_mem hp
  have hnd := h.pages_nodup
  rw [hpages] at hnd
  have hnot := (List.nodup_cons.mp (List.nodup_middle.mp hnd)).1
  exact ⟨as, bs, hpages, fun hm => hnot (by simp [hm]), fun hm => hnot (by simp [hm])⟩

/-- A change of the count of one page is a change of one record. -/
theorem metas_modify {c : Cache} (c' : Cache) {p : Nat} {as bs : List Nat}
    (hpages : c.pages = as ++ p :: bs) (hsame : c'.pages = c.pages)
    (hper : c'.perPage = c.perPage) (has : p ∉ as) (hbs : p ∉ bs)
    (hother : ∀ q, q ≠ p → c'.freeIn q = c.freeIn q) (f : UInt16 → UInt16)
    (hcount : f (UInt16.ofNat (c.freeIn p)) = UInt16.ofNat (c'.freeIn p)) :
    c.metas.modify as.length (fun m => { m with free_count := f m.free_count }) = c'.metas := by
  have hrest : ∀ l : List Nat, p ∉ l →
      (l.map fun q => (⟨q, UInt16.ofNat (c.freeIn q), UInt16.ofNat c.perPage⟩ : SlabPageMeta)) =
      l.map fun q => ⟨q, UInt16.ofNat (c'.freeIn q), UInt16.ofNat c'.perPage⟩ := by
    intro l hl
    apply List.map_congr_left
    intro q hq
    rw [hother q fun he => hl (he ▸ hq), hper]
  unfold Cache.metas
  rw [hsame, hpages, List.map_append, List.map_append, List.map_cons, List.map_cons, hrest as has,
    hrest bs hbs]
  have hmid := modify_middle
    (as.map fun q => (⟨q, UInt16.ofNat (c'.freeIn q), UInt16.ofNat c'.perPage⟩ : SlabPageMeta))
    ⟨p, UInt16.ofNat (c.freeIn p), UInt16.ofNat c.perPage⟩
    (bs.map fun q => ⟨q, UInt16.ofNat (c'.freeIn q), UInt16.ofNat c'.perPage⟩)
    (fun m => { m with free_count := f m.free_count })
  rw [List.length_map] at hmid
  rw [hmid]
  simp only [hcount, hper]

/-! ## The cache in memory -/

/-- The struct and the memory hold the cache `c`. -/
structure CacheShows (b : BuddyAllocator) (cache : SlabCache) (c : Cache) : Prop where
  object_size : cache.object_size = c.object_size
  marker : cache.marker = c.marker
  pages : cache.pages = c.metas
  list : Sll (slab_next b.mem) cache.free_list (c.free.map (b.vram_base + ·))

variable {T : Nat} {R : Set Block} {b b' : BuddyAllocator} {a : FreeLists} {cache : SlabCache}
  {c : Cache} {V : Set Nat}

/-- The cache stays in memory when no byte of its free slots changes. -/
theorem CacheShows.congr (h : CacheShows b cache c) (hbase : b'.vram_base = b.vram_base)
    (hm : ∀ x ∈ c.free, ∀ y, b.vram_base + x ≤ y → y < b.vram_base + x + 8 → b'.mem y = b.mem y) :
    CacheShows b' cache c := by
  refine ⟨h.object_size, h.marker, h.pages, ?_⟩
  rw [hbase]
  apply h.list.congr
  intro p hp
  obtain ⟨x, hx, rfl⟩ := List.mem_map.mp hp
  exact slab_next_congr fun y h1 h2 => hm x hx y h1 h2

/-- The page of a slot covers the slot. -/
theorem page_covers_slot {s x z : Nat} (hs : SlotSize s) (hx : s ∣ x) (h1 : x ≤ z)
    (h2 : z < x + s) : (blk (pageOf x) 0).Covers z := by
  have h3 := pageOf_le x
  have h4 := slot_fits hs hx
  rw [blk_covers]
  unfold PAGE_SIZE at h4
  omega

/-- A byte of a slot is in no free block. -/
theorem Sound.slot_notMem_free {base x y : Nat} (hc : Sound c V)
    (h : Tiled T (R ∪ pageBlocks c) a) (hx : c.IsSlot x) (h1 : base + x ≤ y)
    (h2 : y < base + x + c.object_size) : ¬ InBlocks base a.blocks y :=
  h.live_notMem_free (Or.inr ⟨_, hx.2, rfl⟩)
    (page_covers_slot hc.size hx.1 (by omega) (by omega))

/-- A slot ends inside the managed memory. -/
theorem Sound.slot_le {x : Nat} (hc : Sound c V) (h : Tiled T (R ∪ pageBlocks c) a)
    (hx : c.IsSlot x) : x + c.object_size ≤ T := by
  have h1 := h.fits (x := pageOf x) (k := 0) (Or.inr (Or.inr ⟨_, hx.2, rfl⟩))
  have h2 := slot_fits hc.size hx.1
  unfold PAGE_SIZE at h2
  omega

theorem Sound.free_addr (hc : Sound c V) (h : Holds T (R ∪ pageBlocks c) b a) :
    ∀ p ∈ c.free.map (b.vram_base + ·), p < 2 ^ 64 := by
  intro p hp
  obtain ⟨x, hx, rfl⟩ := List.mem_map.mp hp
  have h1 := hc.slot_le h.tiled ((hc.mem_free x).mp hx).1
  have h2 := hc.size.pos
  have h3 := h.fits
  omega

theorem CacheShows.head_lt (hs : CacheShows b cache c) (hc : Sound c V)
    (h : Holds T (R ∪ pageBlocks c) b a) : cache.free_list < 2 ^ 64 := by
  rw [hs.list.head_eq]
  cases hl : c.free.map (b.vram_base + ·) with
  | nil => exact Nat.two_pow_pos 64
  | cons p ps => exact hc.free_addr h p (by simp [hl])

/-- A free slot keeps its link when only free blocks change. -/
theorem CacheShows.of_outside (hs : CacheShows b cache c) (hc : Sound c V)
    (h : Tiled T (R ∪ pageBlocks c) a) (hbase : b'.vram_base = b.vram_base)
    (hout : ∀ y, ¬ InBlocks b.vram_base a.blocks y → b'.mem y = b.mem y) :
    CacheShows b' cache c := by
  apply hs.congr hbase
  intro x hx y h1 h2
  have hslot := ((hc.mem_free x).mp hx).1
  have := hc.size.node
  exact hout y (hc.slot_notMem_free h hslot h1 (by omega))

/-! ## `slab_grow` -/

theorem order_of_page : order_of PAGE_SIZE = 0 := by decide

/-- The record of a new page counts all its slots. -/
theorem metas_addPage {p : Nat} (hc : Sound c V) (hp : PAGE_SIZE ∣ p) (hnew : p ∉ c.pages) :
    (c.addPage p).metas = ⟨p, UInt16.ofNat c.perPage, UInt16.ofNat c.perPage⟩ :: c.metas := by
  have hfull : (c.addPage p).freeIn p = c.perPage := by
    apply ((hc.addPage hp hnew).freeIn_eq_iff (List.mem_cons_self ..)).mpr
    exact fun x hx he => hnew (he ▸ (hc.live x hx).2)
  have hpages : (c.addPage p).pages = p :: c.pages := rfl
  have hper : (c.addPage p).perPage = c.perPage := rfl
  unfold Cache.metas
  rw [hpages, List.map_cons, hfull, hper]
  congr 1
  apply List.map_congr_left
  intro q hq
  rw [freeIn_addPage hc hp fun he => hnew (he ▸ hq)]

/-- The lines of `slab_grow` after both allocations have succeeded. -/
theorem grow_page_spec {p : Nat} (h : Holds T (insert (blk p 0) (R ∪ pageBlocks c)) b a)
    (hT : T ≤ 2 ^ 32) (hs : CacheShows b cache c) (hc : Sound c V)
    (hnew : blk p 0 ∉ R ∪ pageBlocks c) :
    ∃ b1, b.write_order (p / PAGE_SIZE) cache.marker = some b1 ∧
      let r := carve_loop (add64 p b1.vram_base) cache.object_size
        (UInt16.ofNat (PAGE_SIZE / cache.object_size)).toNat 0 b1.mem cache.free_list
      let pm : SlabPageMeta := ⟨p, UInt16.ofNat (PAGE_SIZE / cache.object_size),
        UInt16.ofNat (PAGE_SIZE / cache.object_size)⟩
      Holds T (R ∪ pageBlocks (c.addPage p)) { b1 with mem := r.1 }
        (a.setOrder (p / PAGE_SIZE) c.marker) ∧
      CacheShows { b1 with mem := r.1 } { cache with free_list := r.2, pages := pm :: cache.pages }
        (c.addPage p) ∧
      b1.vram_base = b.vram_base ∧
      ∀ y, ¬ InBlocks b.vram_base {blk p 0} y → r.1 y = b.mem y := by
  have hmem : blk p 0 ∈ a.blocks ∪ insert (blk p 0) (R ∪ pageBlocks c) := Or.inr (Or.inl rfl)
  have hdvd : PAGE_SIZE ∣ p := h.tiled.page_dvd hmem
  have hroom := h.tiled.fits hmem
  have hfits := h.fits
  have hpage : p ∉ c.pages := fun hp => hnew (Or.inr ⟨p, hp, rfl⟩)
  have hcount : (UInt16.ofNat (PAGE_SIZE / c.object_size)).toNat = PAGE_SIZE / c.object_size := by
    rw [UInt16.toNat_ofNat', Nat.mod_eq_of_lt hc.size.count.2]
  have hwhole : (0 + PAGE_SIZE / c.object_size) * c.object_size = PAGE_SIZE := by
    rw [Nat.zero_add, Nat.div_mul_cancel hc.size.dvd]
  obtain ⟨b1, hw, hshow, hbase, hmem1⟩ := h.shows.write_order
    (page_lt (h.tiled.page_fits hmem) hT) cache.marker
  have hold : Tiled T (insert (blk p 0) R ∪ pageBlocks c) a := by
    rw [Set.insert_union]
    exact h.tiled
  have hhold : Holds T (insert (blk p 0) R ∪ pageBlocks c) b a :=
    ⟨h.shows, hold, h.base_pos, h.fits⟩
  -- The free slots of the cache lie outside the new page.
  have hapart : ∀ z ∈ c.free, z + 8 ≤ p + 0 * c.object_size ∨
      p + (0 + PAGE_SIZE / c.object_size) * c.object_size ≤ z := by
    intro z hz
    have hslot := ((hc.mem_free z).mp hz).1
    have hne : pageOf z ≠ p := fun he => hpage (he ▸ hslot.2)
    have h1 := slot_fits hc.size hslot.1
    have h2 := pageOf_le z
    have h3 := hc.size.node
    have h4 := page_dvd_pageOf z
    rw [hwhole]
    unfold PAGE_SIZE at *
    omega
  have hcarve := carve_loop_spec hc.size.node (PAGE_SIZE / c.object_size) 0 b1.mem cache.free_list
    c.free h.base_pos (p := p) (by rw [hwhole]; unfold PAGE_SIZE; omega) (hs.head_lt hc hhold) hapart
    (by rw [hmem1]; exact hs.list)
  simp only [hwhole, Nat.zero_mul, Nat.add_zero] at hcarve
  refine ⟨b1, hw, ?_⟩
  have haddr : add64 p b1.vram_base = b.vram_base + p := by
    rw [hbase, add64_eq (by omega), Nat.add_comm]
  simp only [haddr, hs.object_size, hcount]
  have hout : ∀ y, ¬ InBlocks b.vram_base {blk p 0} y →
      (carve_loop (b.vram_base + p) c.object_size (PAGE_SIZE / c.object_size) 0 b1.mem
        cache.free_list).1 y = b.mem y := by
    intro y hy
    rw [hcarve.2 y, hmem1]
    by_contra hin
    refine hy ⟨blk p 0, rfl, by omega, ?_⟩
    rw [blk_covers]
    unfold PAGE_SIZE at hin
    omega
  refine ⟨⟨?_, ?_, ?_, ?_⟩, ⟨rfl, hs.marker, ?_, ?_⟩, hbase, hout⟩
  · rw [← hs.marker]
    apply hshow.congr
    intro y hy
    rw [hbase] at hy
    rw [hout y, hmem1]
    rintro ⟨d, rfl, -, hcov⟩
    exact h.tiled.live_notMem_free (Or.inl rfl) hcov hy
  · rw [pageBlocks_addPage, Set.union_insert]
    exact h.tiled.setOrder _ _
  · rw [hbase]
    exact h.base_pos
  · rw [hbase]
    exact h.fits
  · rw [metas_addPage hc hdvd hpage, hs.pages]
    rfl
  · rw [hbase]
    have hslots : slots c.object_size p =
        ((List.range' 0 (PAGE_SIZE / c.object_size)).map (p + · * c.object_size)).reverse := by
      rw [slots, List.range_eq_range']
    simp only [Cache.addPage, hslots]
    exact hcarve.1

/-- `slab_grow` does what `grow` says, and writes only into free blocks. -/
theorem slab_grow_spec (h : Holds T (R ∪ pageBlocks c) b a) (hT : T ≤ 2 ^ 32)
    (hs : CacheShows b cache c) (hc : Sound c V) (malloc_ok : Bool) :
    let r := c.grow a malloc_ok
    ∃ cache' b', slab_grow cache b malloc_ok = some (if r.1 then 0 else -1, cache', b') ∧
      Holds T (R ∪ pageBlocks r.2.1) b' r.2.2 ∧ CacheShows b' cache' r.2.1 ∧
      b'.vram_base = b.vram_base ∧
      ∀ y, ¬ InBlocks b.vram_base a.blocks y → b'.mem y = b.mem y := by
  obtain ⟨hfail, hsome⟩ := buddy_alloc_eq h PAGE_SIZE
  rw [order_of_page] at hfail hsome
  unfold Cache.grow slab_grow
  cases ha : a.alloc 0 with
  | none =>
    rw [hfail (Or.inr ha)]
    exact ⟨cache, b, by simp, h, hs, rfl, fun y _ => rfl⟩
  | some r =>
    obtain ⟨p, a'⟩ := r
    obtain ⟨htiled, hpL, hord⟩ := h.tiled.alloc (by decide) ha
    have hmem : blk p 0 ∈ a'.blocks ∪ insert (blk p 0) (R ∪ pageBlocks c) := Or.inr (Or.inl rfl)
    have hpage := page_lt (htiled.page_fits hmem) hT
    obtain ⟨b1, hb1, hh1, hbase1, hout1⟩ := (hsome p a' (by decide) ha).2 hpage
    have hne : p ≠ NO_OFFSET := by
      have := htiled.page_fits hmem
      unfold NO_OFFSET
      omega
    have hs1 : CacheShows b1 cache c := hs.of_outside hc h.tiled hbase1 hout1
    -- What the second half of the call writes was free before the first.
    have hfree : ∀ y S, (∀ d ∈ S, d ∈ insert (blk p 0) a'.blocks) → InBlocks b.vram_base S y →
        InBlocks b.vram_base a.blocks y := by
      intro y S hS
      apply h.tiled.free_before htiled (Set.subset_insert _ _)
      intro d hd
      rcases hS d hd with rfl | hd
      · exact ⟨hmem, hpL⟩
      · exact ⟨Or.inl hd, fun hL => htiled.apart d hd (Or.inr hL)⟩
    cases malloc_ok with
    | false =>
      have horder : (a'.page_order (p / PAGE_SIZE)).toNat = 0 := by
        rw [hord, Function.update_self]
        rfl
      obtain ⟨b2, hb2, hh2, hbase2, hout2⟩ := buddy_free_spec hh1 hT (Or.inl rfl) horder
      rw [Set.insert_sdiff_self_of_notMem hpL] at hh2
      have hout : ∀ y, ¬ InBlocks b.vram_base a.blocks y → b2.mem y = b.mem y := by
        intro y hy
        rw [hout2 y, hout1 y hy]
        rw [hbase1]
        exact fun hin => hy (hfree y _ (fun d hd => hd) hin)
      refine ⟨cache, b2, by simp [hb1, hne, hb2], by simpa using hh2, ?_, by rw [hbase2, hbase1],
        hout⟩
      exact hs.of_outside hc h.tiled (by rw [hbase2, hbase1]) hout
    | true =>
      obtain ⟨b2, hw, hh2, hs2, hbase2, hout2⟩ := grow_page_spec hh1 hT hs1 hc hpL
      refine ⟨_, _, ?_, by simpa using hh2, by simpa using hs2, by rw [hbase2, hbase1], ?_⟩
      · rw [hb1]
        simp only [Option.bind_eq_bind, Option.bind_some, hne, if_false, hw]
        rfl
      · intro y hy
        rw [← hout1 y hy]
        apply hout2
        rw [hbase1]
        exact fun hin => hy (hfree y _ (fun d hd => Or.inl hd) hin)

/-! ## `slab_alloc` -/

theorem CacheShows.head_zero_iff (hs : CacheShows b cache c) (hpos : 0 < b.vram_base) :
    cache.free_list = 0 ↔ c.free = [] := by
  rw [hs.list.head_eq]
  cases c.free with
  | nil => simp
  | cons x xs => simp; omega

theorem slab_ready_spec (h : Holds T (R ∪ pageBlocks c) b a) (hT : T ≤ 2 ^ 32)
    (hs : CacheShows b cache c) (hc : Sound c V) (malloc_ok : Bool) :
    let r := c.ready a malloc_ok
    ∃ cache' b', slab_ready cache b malloc_ok = some (if r.1 then 0 else -1, cache', b') ∧
      Holds T (R ∪ pageBlocks r.2.1) b' r.2.2 ∧ CacheShows b' cache' r.2.1 ∧
      b'.vram_base = b.vram_base ∧
      ∀ y, ¬ InBlocks b.vram_base a.blocks y → b'.mem y = b.mem y := by
  unfold Cache.ready slab_ready
  by_cases hempty : c.free = []
  · rw [if_pos hempty, if_pos ((hs.head_zero_iff h.base_pos).mpr hempty)]
    exact slab_grow_spec h hT hs hc malloc_ok
  · rw [if_neg hempty, if_neg fun h0 => hempty ((hs.head_zero_iff h.base_pos).mp h0)]
    exact ⟨cache, b, rfl, h, hs, rfl, fun y _ => rfl⟩

/-- The count of a page goes down with the slot that is taken. -/
theorem metas_take {x : Nat} {xs as bs : List Nat} (hx : c.free = x :: xs)
    (hpages : c.pages = as ++ pageOf x :: bs) (has : pageOf x ∉ as) (hbs : pageOf x ∉ bs) :
    c.metas.modify as.length (fun m => { m with free_count := m.free_count - 1 }) =
      c.take.metas := by
  refine metas_modify c.take hpages rfl rfl has hbs ?_ (fun k => k - 1) ?_
  · intro q hq
    rw [freeIn_take hx q, if_neg (Ne.symm hq), Nat.add_zero]
  · rw [freeIn_take hx, if_pos rfl, UInt16.ofNat_add]
    exact UInt16.add_sub_cancel _ _

theorem take_slot_spec {x : Nat} {xs : List Nat} (h : Holds T (R ∪ pageBlocks c) b a)
    (hs : CacheShows b cache c) (hc : Sound c V) (hx : c.free = x :: xs) :
    ∃ cache', take_slot cache b = some (x, cache') ∧ CacheShows b cache' c.take := by
  have hslot := ((hc.mem_free x).mp (by simp [hx])).1
  have hroom := hc.slot_le h.tiled hslot
  have hsize := hc.size.pos
  have hfits := h.fits
  have hpos := h.base_pos
  have hlist := hs.list
  rw [hx, List.map_cons] at hlist
  have hhead : cache.free_list = b.vram_base + x := hlist.1
  obtain ⟨as, bs, hpages, has, hbs⟩ := hc.split_pages hslot.2
  have hfind : find_meta cache.pages (page_of x) = some as.length := by
    rw [page_of_eq (by omega), hs.pages]
    exact Cache.find_meta_eq hpages has
  unfold take_slot
  rw [hhead, if_neg (by omega), sub64_eq (by omega)]
  simp only [hfind]
  refine ⟨_, rfl, hs.object_size, hs.marker, ?_, ?_⟩
  · simp only [hs.pages]
    exact metas_take hx hpages has hbs
  · simp only [Cache.take, hx, List.tail_cons]
    exact hlist.tail

/-- `slab_alloc` does what `alloc` says, and writes only into free blocks. -/
theorem slab_alloc_spec (h : Holds T (R ∪ pageBlocks c) b a) (hT : T ≤ 2 ^ 32)
    (hs : CacheShows b cache c) (hc : Sound c V) (malloc_ok : Bool) :
    let r := c.alloc a malloc_ok
    ∃ cache' b', slab_alloc cache b malloc_ok = some (r.1.getD NO_OFFSET, cache', b') ∧
      Holds T (R ∪ pageBlocks r.2.1) b' r.2.2 ∧ CacheShows b' cache' r.2.1 ∧
      b'.vram_base = b.vram_base ∧
      ∀ y, ¬ InBlocks b.vram_base a.blocks y → b'.mem y = b.mem y := by
  obtain ⟨cache1, b1, hcode, hh, hs1, hbase, hout⟩ := slab_ready_spec h hT hs hc malloc_ok
  obtain ⟨hsound, hfail, htake⟩ := hc.ready h.tiled malloc_ok
  unfold Cache.alloc slab_alloc
  rw [hcode]
  cases hr : (c.ready a malloc_ok).1 with
  | false =>
    refine ⟨cache1, b1, ?_, by simpa [hr] using hh, by simpa [hr] using hs1, hbase, hout⟩
    simp [hr]
  | true =>
    obtain ⟨x, xs, hx, -⟩ := htake hr
    obtain ⟨cache2, hcode2, hs2⟩ := take_slot_spec hh hs1 hsound hx
    simp only [hr, if_true, hx, List.head?_cons, Option.getD_some]
    exact ⟨cache2, b1, by simp [hcode2], hh, hs2, hbase, hout⟩

/-! ## `slab_free` -/

/-- The byte at address `y` lies in one of the slots. -/
def InSlots (base s : Nat) (zs : List Nat) (y : Nat) : Prop :=
  ∃ z ∈ zs, base + z ≤ y ∧ y < base + z + s

/-- A write outside the free blocks keeps the buddy lists. -/
theorem holds_of_outside {L : Set Block} {m : Mem} (h : Holds T L b a)
    (hm : ∀ y, InBlocks b.vram_base a.blocks y → m y = b.mem y) : Holds T L { b with mem := m } a :=
  ⟨h.shows.congr hm, h.tiled, h.base_pos, h.fits⟩

theorem metas_give {x : Nat} {as bs : List Nat} (hpages : c.pages = as ++ pageOf x :: bs)
    (has : pageOf x ∉ as) (hbs : pageOf x ∉ bs) :
    c.metas.modify as.length (fun m => { m with free_count := m.free_count + 1 }) =
      (c.give x).metas := by
  refine metas_modify (c.give x) hpages rfl rfl has hbs ?_ (fun k => k + 1) ?_
  · intro q hq
    rw [freeIn_give, if_neg (Ne.symm hq), Nat.add_zero]
  · rw [freeIn_give, if_pos rfl, UInt16.ofNat_add]
    rfl

/-- The first lines of `slab_free` put the slot on the list and count it. -/
theorem give_slot_spec {x i : Nat} (h : Holds T (R ∪ pageBlocks c) b a)
    (hs : CacheShows b cache c) (hc : Sound c V) (hx : x ∈ V)
    (hmetas : cache.pages.modify i (fun m => { m with free_count := m.free_count + 1 }) =
      (c.give x).metas) :
    let b0 : BuddyAllocator := { b with
      mem := set_slab_next b.mem (b.vram_base + x) cache.free_list }
    Holds T (R ∪ pageBlocks (c.give x)) b0 a ∧
    CacheShows b0 { cache with
      free_list := b.vram_base + x
      pages := cache.pages.modify i fun m => { m with free_count := m.free_count + 1 } }
      (c.give x) := by
  intro b0
  have hslot := hc.live x hx
  have hnode := hc.size.node
  have hpos := h.base_pos
  refine ⟨?_, hs.object_size, hs.marker, hmetas, ?_⟩
  · apply holds_of_outside h
    intro y hy
    apply set_slab_next_outside
    by_contra hin
    exact hc.slot_notMem_free h.tiled hslot (by omega) (by omega) hy
  · refine hs.list.push (n := b.vram_base + x) (by omega) ?_ ?_
    · rw [slab_next_set, Nat.mod_eq_of_lt (hs.head_lt hc h)]
    · intro p hp
      obtain ⟨z, hz, rfl⟩ := List.mem_map.mp hp
      have hzs := (hc.mem_free z).mp hz
      have hne : x ≠ z := fun he => hzs.2 (he ▸ hx)
      have hap := slots_apart hslot.1 hzs.1.1 hne
      exact slab_next_set_apart (by omega)

/-- There is another record just when the page is not the only one. -/
theorem has_other_iff {p : Nat} {as bs : List Nat} (hpages : c.pages = as ++ p :: bs) :
    has_other c.metas as.length = true ↔ c.pages ≠ [p] := by
  have hlen : c.metas.length = as.length + 1 + bs.length := by
    rw [Cache.metas, List.length_map, hpages, List.length_append, List.length_cons]
    omega
  unfold has_other
  rw [hlen, List.any_eq_true]
  constructor
  · rintro ⟨j, hj, hne⟩ he
    rw [List.mem_range] at hj
    have hsame := congrArg List.length (hpages.symm.trans he)
    simp only [List.length_append, List.length_cons, List.length_nil] at hsame
    simp only [ne_eq, decide_not, Bool.not_eq_eq_eq_not, Bool.not_true,
      decide_eq_false_iff_not] at hne
    omega
  · intro hne
    by_cases has : as = []
    · subst has
      have hbs : bs ≠ [] := fun hbs => hne (by rw [hpages, hbs]; rfl)
      refine ⟨1, ?_, by simp⟩
      have := List.length_pos_of_ne_nil hbs
      rw [List.mem_range]
      simp only [List.length_nil]
      omega
    · refine ⟨0, ?_, ?_⟩
      · rw [List.mem_range]
        omega
      · have := List.length_pos_of_ne_nil has
        simp only [ne_eq, decide_not, Bool.not_eq_eq_eq_not, Bool.not_true,
          decide_eq_false_iff_not]
        omega

/-- The records after a page is gone. -/
theorem metas_dropPage {p : Nat} {as bs : List Nat} (hpages : c.pages = as ++ p :: bs)
    (has : p ∉ as) (hbs : p ∉ bs) : c.metas.eraseIdx as.length = (c.dropPage p).metas := by
  have hrest : ∀ q ∈ as ++ bs, (c.dropPage p).freeIn q = c.freeIn q := by
    intro q hq
    apply freeIn_dropPage
    rintro rfl
    rcases List.mem_append.mp hq with hq | hq
    · exact has hq
    · exact hbs hq
  have herase : (c.dropPage p).pages = as ++ bs := by
    rw [Cache.dropPage, hpages, List.erase_append_right _ has, List.erase_cons_head]
  unfold Cache.metas
  rw [herase, hpages, List.map_append, List.map_cons,
    List.eraseIdx_append_of_length_le (by rw [List.length_map])]
  rw [List.length_map, Nat.sub_self, List.eraseIdx_cons_zero, ← List.map_append]
  apply List.map_congr_left
  intro q hq
  rw [hrest q hq]
  rfl

/-- The slots that the loop of `slab_free` leaves on the list. -/
theorem filter_page {base p : Nat} (hp : PAGE_SIZE ∣ p) (zs : List Nat) :
    (zs.map (base + ·)).filter (fun q => ¬ (q ≥ base + p ∧ q < base + p + PAGE_SIZE)) =
      (zs.filter (pageOf · ≠ p)).map (base + ·) := by
  rw [List.filter_map]
  congr 1
  apply List.filter_congr
  intro z _
  rw [Function.comp_apply]
  apply decide_eq_decide.mpr
  rw [Ne, pageOf_eq_iff hp]
  omega

theorem Sound.free_length_lt (hc : Sound c V) (h : Tiled T (R ∪ pageBlocks c) a) :
    c.free.length < SEARCH_TURNS := by
  have hsub : c.free.toFinset ⊆ Finset.range T := by
    intro x hx
    have h1 := hc.slot_le h ((hc.mem_free x).mp (List.mem_toFinset.mp hx)).1
    have h2 := hc.size.pos
    rw [Finset.mem_range]
    omega
  have hcard := Finset.card_le_card hsub
  rw [List.toFinset_card_of_nodup hc.free_nodup, Finset.card_range] at hcard
  have := h.small
  unfold SEARCH_TURNS
  omega

/-- A byte of a page with no live slot lies in a free slot. -/
theorem Sound.inSlots_of_page {base p y : Nat} (hc : Sound c V) (hp : p ∈ c.pages)
    (hnone : ∀ x ∈ V, pageOf x ≠ p) (hy : InBlocks base {blk p 0} y) :
    InSlots base c.object_size c.free y := by
  obtain ⟨d, rfl, hbase, hcov⟩ := hy
  have hdvd := hc.aligned p hp
  have hpos := hc.size.pos
  have hmod := Nat.mod_lt (y - base) hpos
  have hsplit := Nat.div_add_mod' (y - base) c.object_size
  have hslot : c.object_size ∣ (y - base) / c.object_size * c.object_size := Nat.dvd_mul_left _ _
  have hfirst : p ≤ (y - base) / c.object_size * c.object_size := by
    obtain ⟨j, rfl⟩ := hc.size.dvd.trans hdvd
    have hle : c.object_size * j ≤ y - base := hcov.1
    rw [Nat.mul_comm c.object_size j]
    exact Nat.mul_le_mul_right _ ((Nat.le_div_iff_mul_le hpos).mpr (by rwa [Nat.mul_comm]))
  have hpage : pageOf ((y - base) / c.object_size * c.object_size) = p := by
    rw [pageOf_eq_iff hdvd]
    rw [blk_covers] at hcov
    unfold PAGE_SIZE
    omega
  refine ⟨(y - base) / c.object_size * c.object_size, ?_, by omega, by omega⟩
  rw [hc.mem_free]
  exact ⟨⟨hslot, hpage ▸ hp⟩, fun hv => hnone _ hv hpage⟩

/-- The loop of `slab_free` over the list of the cache. -/
theorem drop_page_spec {p : Nat} (h : Holds T (R ∪ pageBlocks c) b a) (hs : CacheShows b cache c)
    (hc : Sound c V) (hp : p ∈ c.pages) :
    ∃ m fl, drop_loop (b.vram_base + p) (b.vram_base + p + PAGE_SIZE) SEARCH_TURNS b.mem
        cache.free_list 0 cache.free_list = some (m, fl) ∧
      Sll (slab_next m) fl ((c.dropPage p).free.map (b.vram_base + ·)) ∧
      ∀ y, ¬ InSlots b.vram_base c.object_size c.free y → m y = b.mem y := by
  have hnode := hc.size.node
  have hap : ∀ q ∈ c.free.map (b.vram_base + ·), ∀ r ∈ c.free.map (b.vram_base + ·), q ≠ r →
      q + 8 ≤ r ∨ r + 8 ≤ q := by
    intro q hq r hr hne
    obtain ⟨y, hy, rfl⟩ := List.mem_map.mp hq
    obtain ⟨z, hz, rfl⟩ := List.mem_map.mp hr
    have hyz : y ≠ z := fun he => hne (by rw [he])
    have := slots_apart ((hc.mem_free y).mp hy).1.1 ((hc.mem_free z).mp hz).1.1 hyz
    omega
  obtain ⟨m, fl, h1, h2, h3⟩ := drop_loop_spec (b.vram_base + p)
    (b.vram_base + p + PAGE_SIZE) (n := SEARCH_TURNS) [] (c.free.map (b.vram_base + ·))
    hs.list (hc.free_nodup.map fun x y he => by simpa using he) hap (hc.free_addr h)
    (Or.inl ⟨rfl, rfl⟩) hs.list.head_eq (by rw [List.length_map]; exact hc.free_length_lt h.tiled)
  rw [List.nil_append, filter_page (hc.aligned p hp)] at h2
  refine ⟨m, fl, h1, h2, fun y hy => h3 y ?_⟩
  intro q hq
  obtain ⟨z, hz, rfl⟩ := List.mem_map.mp hq
  by_contra hin
  exact hy ⟨z, hz, by omega, by omega⟩

/-- The last lines of `slab_free` take a page with no live slot off the cache and
give it back. -/
theorem slab_shrink_spec {p : Nat} {as bs : List Nat} (h : Holds T (R ∪ pageBlocks c) b a)
    (hT : T ≤ 2 ^ 32) (hend : b.vram_base + T < 2 ^ 64) (hs : CacheShows b cache c)
    (hc : Sound c V) (hR : blk p 0 ∉ R) (hpages : c.pages = as ++ p :: bs) (has : p ∉ as)
    (hbs : p ∉ bs) (hnone : ∀ x ∈ V, pageOf x ≠ p) (k1 k2 : UInt16) :
    ∃ cache' b', slab_shrink cache b as.length ⟨p, k1, k2⟩ = some (cache', b') ∧
      Holds T (R ∪ pageBlocks (c.dropPage p)) b'
        ((a.setOrder (p / PAGE_SIZE) 0).release (BUDDY_MAX_ORDER + 1) p 0) ∧
      CacheShows b' cache' (c.dropPage p) ∧ b'.vram_base = b.vram_base ∧
      ∀ y, ¬ InBlocks b.vram_base a.blocks y →
        ¬ InSlots b.vram_base c.object_size c.free y → b'.mem y = b.mem y := by
  have hp : p ∈ c.pages := by simp [hpages]
  have hL : blk p 0 ∈ R ∪ pageBlocks c := Or.inr ⟨p, hp, rfl⟩
  have hroom := h.tiled.fits (Or.inr hL)
  have hlo : add64 p b.vram_base = b.vram_base + p := by
    rw [add64_eq (by omega), Nat.add_comm]
  have hhi : add64 (b.vram_base + p) PAGE_SIZE = b.vram_base + p + PAGE_SIZE :=
    add64_eq (by unfold PAGE_SIZE; omega)
  obtain ⟨m, fl, hdrop, hlist, hout⟩ := drop_page_spec h hs hc hp
  have hm : Holds T (R ∪ pageBlocks c) { b with mem := m } a := by
    apply holds_of_outside h
    intro y hy
    apply hout
    rintro ⟨z, hz, h1, h2⟩
    exact hc.slot_notMem_free h.tiled ((hc.mem_free z).mp hz).1 h1 h2 hy
  obtain ⟨b1, hw, hshow1, hbase1, hmem1⟩ := hm.shows.write_order
    (page_lt (h.tiled.page_fits (Or.inr hL)) hT) 0
  have hh1 : Holds T (R ∪ pageBlocks c) b1 (a.setOrder (p / PAGE_SIZE) 0) :=
    ⟨hshow1, h.tiled.setOrder _ _, by rw [hbase1]; exact h.base_pos, by rw [hbase1]; exact h.fits⟩
  obtain ⟨b2, hfree, hh2, hbase2, hout2⟩ := buddy_free_spec hh1 hT hL
    (by simp [FreeLists.setOrder])
  have hsets : (R ∪ pageBlocks c) \ {blk p 0} = R ∪ pageBlocks (c.dropPage p) := by
    rw [pageBlocks_dropPage hc, Set.union_sdiff_distrib, Set.sdiff_singleton_eq_self hR]
  rw [hsets] at hh2
  have hb1 : b1.vram_base = b.vram_base := hbase1
  have hm1 : b1.mem = m := hmem1
  have hcode : slab_shrink cache b as.length ⟨p, k1, k2⟩ =
      some ({ cache with free_list := fl, pages := cache.pages.eraseIdx as.length }, b2) := by
    unfold slab_shrink
    simp [hlo, hhi, hdrop, hw, hfree]
  refine ⟨_, b2, hcode, hh2, ⟨hs.object_size, hs.marker, ?_, ?_⟩, by rw [hbase2, hb1], ?_⟩
  · simp only [hs.pages]
    exact metas_dropPage hpages has hbs
  · rw [hbase2, hb1]
    apply hlist.congr
    intro q hq
    obtain ⟨z, hz, rfl⟩ := List.mem_map.mp hq
    obtain ⟨hzf, hzp⟩ := List.mem_filter.mp hz
    have hslot := ((hc.mem_free z).mp hzf).1
    have hnode := hc.size.node
    apply slab_next_congr
    intro y h1 h2
    rw [hout2 y, hm1]
    rw [hb1]
    -- The slot lies in a page that stays, and the call writes into none of those.
    have hcov := page_covers_slot hc.size hslot.1 (z := y - b.vram_base) (by omega) (by omega)
    rintro ⟨d, rfl | hd, hd1, hd2⟩
    · have he := h.tiled.tiling.apart _ (Or.inr hL) _ (Or.inr (Or.inr ⟨_, hslot.2, rfl⟩)) _ hd2 hcov
      rw [(blk_inj.mp he).1] at hzp
      simp at hzp
    · exact hc.slot_notMem_free h.tiled hslot h1 (by omega) ⟨d, hd, hd1, hd2⟩
  · intro y hy1 hy2
    rw [hout2 y, hm1, hout y hy2]
    rw [hb1]
    rintro ⟨d, rfl | hd, hd1, hd2⟩
    · exact hy2 (hc.inSlots_of_page hp hnone ⟨_, rfl, hd1, hd2⟩)
    · exact hy1 ⟨d, hd, hd1, hd2⟩

/-- `slab_free` of a live slot does what `release` says. It writes only into free
blocks, into free slots and into the slot itself. -/
theorem slab_free_spec {x : Nat} (h : Holds T (R ∪ pageBlocks c) b a) (hT : T ≤ 2 ^ 32)
    (hend : b.vram_base + T < 2 ^ 64) (hs : CacheShows b cache c) (hc : Sound c V)
    (hR : ∀ p ∈ c.pages, blk p 0 ∉ R) (hx : x ∈ V) :
    let r := c.release a x
    ∃ cache' b', slab_free cache b x = some (cache', b') ∧
      Holds T (R ∪ pageBlocks r.1) b' r.2 ∧ CacheShows b' cache' r.1 ∧
      b'.vram_base = b.vram_base ∧
      ∀ y, ¬ InBlocks b.vram_base a.blocks y →
        ¬ InSlots b.vram_base c.object_size (x :: c.free) y → b'.mem y = b.mem y := by
  have hslot := hc.live x hx
  have hroom := hc.slot_le h.tiled hslot
  have hsize := hc.size.node
  have hgive := hc.give hx
  obtain ⟨as, bs, hpages, has, hbs⟩ := hc.split_pages hslot.2
  have hmetas : cache.pages.modify as.length
      (fun m => { m with free_count := m.free_count + 1 }) = (c.give x).metas := by
    rw [hs.pages]
    exact metas_give hpages has hbs
  obtain ⟨hh0, hs0⟩ := give_slot_spec h hs hc hx hmetas
  have hnode : add64 x b.vram_base = b.vram_base + x := by
    rw [add64_eq (by omega), Nat.add_comm]
  have hfind : find_meta cache.pages (page_of x) = some as.length := by
    rw [page_of_eq (by omega), hs.pages]
    exact Cache.find_meta_eq hpages has
  have hget : (c.give x).metas[as.length]? = some ⟨pageOf x, UInt16.ofNat ((c.give x).freeIn
      (pageOf x)), UInt16.ofNat (c.give x).perPage⟩ := by
    have hp : (c.give x).pages = as ++ pageOf x :: bs := hpages
    simp [Cache.metas, hp]
  -- Both counts fit in 16 bits, so the records tell when the page is all free.
  have hfull : UInt16.ofNat ((c.give x).freeIn (pageOf x)) = UInt16.ofNat (c.give x).perPage ↔
      (c.give x).freeIn (pageOf x) = (c.give x).perPage := by
    have hle := hgive.freeIn_le (p := pageOf x) hslot.2
    have hlt : (c.give x).perPage < 2 ^ 16 := hc.size.count.2
    rw [← UInt16.toNat_inj, UInt16.toNat_ofNat', UInt16.toNat_ofNat', Nat.mod_eq_of_lt hlt,
      Nat.mod_eq_of_lt (by omega)]
  have hother := has_other_iff (c := c.give x) hpages
  have hwrite : ∀ y, ¬ InSlots b.vram_base c.object_size (x :: c.free) y →
      set_slab_next b.mem (b.vram_base + x) cache.free_list y = b.mem y := by
    intro y hy
    apply set_slab_next_outside
    by_contra hin
    exact hy ⟨x, by simp, by omega, by omega⟩
  unfold slab_free Cache.release
  simp only [hnode, hfind, hmetas, Option.bind_eq_bind, Option.bind_some, hget, hfull, hother]
  rw [hmetas] at hs0
  by_cases hshrink : (c.give x).shrinks (pageOf x)
  · have hnone := (hgive.freeIn_eq_iff (p := pageOf x) hslot.2).mp hshrink.1
    rw [if_pos hshrink, if_pos (And.intro hshrink.1 hshrink.2)]
    obtain ⟨cache', b', h1, h2, h3, h4, h5⟩ := slab_shrink_spec hh0 hT hend hs0 hgive
      (hR _ hslot.2) hpages has hbs hnone (UInt16.ofNat ((c.give x).freeIn (pageOf x)))
      (UInt16.ofNat (c.give x).perPage)
    exact ⟨cache', b', h1, h2, h3, h4,
      fun y hy1 hy2 => (h5 y hy1 hy2).trans (hwrite y hy2)⟩
  · have hstay : ¬ ((c.give x).freeIn (pageOf x) = (c.give x).perPage ∧
        (c.give x).pages ≠ [pageOf x]) := hshrink
    rw [if_neg hshrink, if_neg hstay]
    exact ⟨_, _, rfl, hh0, hs0, rfl, fun y _ hy2 => hwrite y hy2⟩

end gpgpu.slab
