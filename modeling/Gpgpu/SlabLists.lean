-- The slab caches as lists of offsets. A cache keeps its free slots and its
-- pages; how many slots of a page are free is then no data of its own. The
-- invariant says which slots are free, and that no page stands idle.
import Gpgpu.Slab
import Gpgpu.BuddyLists

open memory dyadic

namespace gpgpu.slab

open buddy

/-! ## Slots and pages -/

/-- The sizes that a slab cache may have. A slot holds a node, slots fill a page,
and a page has more than one. -/
structure SlotSize (s : Nat) : Prop where
  node : 8 ≤ s
  dvd : s ∣ PAGE_SIZE
  two : s ≤ 2048

/-- The page of an offset. -/
def pageOf (x : Nat) : Nat := x / PAGE_SIZE * PAGE_SIZE

theorem pageOf_le (x : Nat) : pageOf x ≤ x := Nat.div_mul_le_self x PAGE_SIZE

theorem lt_pageOf_add (x : Nat) : x < pageOf x + PAGE_SIZE := by
  unfold pageOf PAGE_SIZE
  omega

theorem page_dvd_pageOf (x : Nat) : PAGE_SIZE ∣ pageOf x := Nat.dvd_mul_left _ _

theorem pageOf_eq_iff {p x : Nat} (hp : PAGE_SIZE ∣ p) :
    pageOf x = p ↔ p ≤ x ∧ x < p + PAGE_SIZE := by
  unfold pageOf
  unfold PAGE_SIZE at *
  omega

/-- The mask of the source takes an offset to its page. -/
theorem page_of_eq {x : Nat} (hx : x < 2 ^ 64) : page_of x = pageOf x := by
  have hmask : 2 ^ 64 - PAGE_SIZE = (2 ^ 52 - 1) <<< 12 := by decide
  have hpage : pageOf x = (x >>> 12) <<< 12 := by
    rw [Nat.shiftLeft_eq, Nat.shiftRight_eq_div_pow]
    rfl
  rw [page_of, hmask, hpage]
  apply Nat.eq_of_testBit_eq
  intro i
  rw [Nat.testBit_and, Nat.testBit_shiftLeft, Nat.testBit_shiftLeft, Nat.testBit_two_pow_sub_one,
    Nat.testBit_shiftRight]
  by_cases hi : 12 ≤ i
  · rw [Nat.add_sub_cancel' hi]
    by_cases hi64 : i < 64
    · have hlt : i - 12 < 52 := by omega
      simp [hi, hlt]
    · have hbig : x < 2 ^ i := lt_of_lt_of_le hx (Nat.pow_le_pow_right (by omega) (by omega))
      simp [Nat.testBit_lt_two_pow hbig]
  · simp [hi]

/-- The slots of a page, in the order of the list after the carve. -/
def slots (s p : Nat) : List Nat := ((List.range (PAGE_SIZE / s)).map (p + · * s)).reverse

variable {s p x : Nat}

theorem SlotSize.pos (hs : SlotSize s) : 0 < s := by
  have := hs.node
  omega

theorem mem_slots (hs : SlotSize s) (hp : PAGE_SIZE ∣ p) :
    x ∈ slots s p ↔ s ∣ x ∧ pageOf x = p := by
  have hsp : s ∣ p := hs.dvd.trans hp
  rw [pageOf_eq_iff hp]
  simp only [slots, List.mem_reverse, List.mem_map, List.mem_range]
  constructor
  · rintro ⟨i, hi, rfl⟩
    have hlt : (i + 1) * s ≤ PAGE_SIZE / s * s := Nat.mul_le_mul_right s hi
    rw [Nat.div_mul_cancel hs.dvd, Nat.succ_mul] at hlt
    have := hs.pos
    exact ⟨Dvd.dvd.add hsp (Nat.dvd_mul_left _ _), by omega, by omega⟩
  · rintro ⟨hx, h1, h2⟩
    have hd : s ∣ x - p := Nat.dvd_sub hx hsp
    refine ⟨(x - p) / s, ?_, ?_⟩
    · exact Nat.div_lt_div_of_lt_of_dvd hs.dvd (by omega)
    · rw [Nat.div_mul_cancel hd]
      omega

theorem slots_nodup (hs : SlotSize s) (p : Nat) : (slots s p).Nodup := by
  unfold slots
  rw [List.nodup_reverse]
  apply List.nodup_range.map
  intro i j hij
  have hmul : i * s = j * s := Nat.add_left_cancel hij
  exact Nat.eq_of_mul_eq_mul_right hs.pos hmul

theorem slots_length (s p : Nat) : (slots s p).length = PAGE_SIZE / s := by
  simp [slots]

/-- A page has at least two slots, and its slots can be counted in 16 bits. -/
theorem SlotSize.count (hs : SlotSize s) : 2 ≤ PAGE_SIZE / s ∧ PAGE_SIZE / s < 2 ^ 16 := by
  have h1 : 2 * s ≤ PAGE_SIZE := by
    have := hs.two
    unfold PAGE_SIZE
    omega
  refine ⟨(Nat.le_div_iff_mul_le hs.pos).mpr h1, ?_⟩
  exact lt_of_le_of_lt (Nat.div_le_self _ _) (by decide)

/-- A slot does not reach into the next page. -/
theorem slot_fits (hs : SlotSize s) (hx : s ∣ x) : x + s ≤ pageOf x + PAGE_SIZE := by
  have h1 : s ∣ pageOf x + PAGE_SIZE := Dvd.dvd.add (hs.dvd.trans (page_dvd_pageOf x)) hs.dvd
  have h2 := lt_pageOf_add x
  obtain ⟨i, rfl⟩ := hx
  obtain ⟨j, hj⟩ := h1
  rw [hj] at h2 ⊢
  have hij : i < j := Nat.lt_of_mul_lt_mul_left h2
  calc s * i + s = s * (i + 1) := by rw [Nat.mul_succ]
    _ ≤ s * j := Nat.mul_le_mul_left s hij

/-- Different slots of one size lie apart. -/
theorem slots_apart {y : Nat} (hx : s ∣ x) (hy : s ∣ y) (hne : x ≠ y) : x + s ≤ y ∨ y + s ≤ x := by
  obtain ⟨i, rfl⟩ := hx
  obtain ⟨j, rfl⟩ := hy
  have hij : i ≠ j := fun h => hne (by rw [h])
  rcases Nat.lt_or_gt_of_ne hij with h | h
  · left
    calc s * i + s = s * (i + 1) := by rw [Nat.mul_succ]
      _ ≤ s * j := Nat.mul_le_mul_left s h
  · right
    calc s * j + s = s * (j + 1) := by rw [Nat.mul_succ]
      _ ≤ s * i := Nat.mul_le_mul_left s h

/-! ## The caches -/

/-- A slab cache: its free slots, in list order, and its pages. -/
structure Cache where
  object_size : Nat
  marker : UInt8
  free : List Nat
  pages : List Nat

namespace Cache

/-- How many slots of a page are free. -/
def freeIn (c : Cache) (p : Nat) : Nat := c.free.countP (pageOf · = p)

/-- The number of slots of each page. -/
def perPage (c : Cache) : Nat := PAGE_SIZE / c.object_size

/-- An offset at which a slot of the cache starts. -/
def IsSlot (c : Cache) (x : Nat) : Prop := c.object_size ∣ x ∧ pageOf x ∈ c.pages

def addPage (c : Cache) (p : Nat) : Cache :=
  { c with free := slots c.object_size p ++ c.free, pages := p :: c.pages }

def take (c : Cache) : Cache := { c with free := c.free.tail }

def give (c : Cache) (x : Nat) : Cache := { c with free := x :: c.free }

def dropPage (c : Cache) (p : Nat) : Cache :=
  { c with free := c.free.filter (pageOf · ≠ p), pages := c.pages.erase p }

/-! ### The operations -/

/-- `slab_grow` on the lists: if it grew, the cache, and the buddy lists. -/
def grow (c : Cache) (a : FreeLists) (malloc_ok : Bool) : Bool × Cache × FreeLists :=
  match a.alloc 0 with
  | none => (false, c, a)
  | some (p, a') =>
    if malloc_ok then (true, c.addPage p, a'.setOrder (p / PAGE_SIZE) c.marker)
    else (false, c, a'.release (BUDDY_MAX_ORDER + 1) p 0)

/-- The cache and the buddy lists from which `slab_alloc` takes a slot. -/
def ready (c : Cache) (a : FreeLists) (malloc_ok : Bool) : Bool × Cache × FreeLists :=
  if c.free = [] then c.grow a malloc_ok else (true, c, a)

/-- `slab_alloc` on the lists: the slot, the cache and the buddy lists. -/
def alloc (c : Cache) (a : FreeLists) (malloc_ok : Bool) : Option Nat × Cache × FreeLists :=
  let r := c.ready a malloc_ok
  if r.1 then (r.2.1.free.head?, r.2.1.take, r.2.2) else (none, r.2.1, r.2.2)

/-- A page that has just become all free goes back to the buddy allocator,
unless it is the only one. -/
def shrinks (c : Cache) (p : Nat) : Prop := c.freeIn p = c.perPage ∧ c.pages ≠ [p]

instance (c : Cache) (p : Nat) : Decidable (c.shrinks p) := inferInstanceAs (Decidable (_ ∧ _))

/-- `slab_free` on the lists. -/
def release (c : Cache) (a : FreeLists) (x : Nat) : Cache × FreeLists :=
  if (c.give x).shrinks (pageOf x) then
    ((c.give x).dropPage (pageOf x),
      (a.setOrder (pageOf x / PAGE_SIZE) 0).release (BUDDY_MAX_ORDER + 1) (pageOf x) 0)
  else (c.give x, a)

end Cache

/-! ## The invariant -/

/-- The free slots are the slots of the pages that are not live. -/
structure Sound (c : Cache) (V : Set Nat) : Prop where
  size : SlotSize c.object_size
  aligned : ∀ p ∈ c.pages, PAGE_SIZE ∣ p
  pages_nodup : c.pages.Nodup
  free_nodup : c.free.Nodup
  mem_free : ∀ x, x ∈ c.free ↔ c.IsSlot x ∧ x ∉ V
  live : ∀ x ∈ V, c.IsSlot x

/-- The cache has a page, and a page whose slots are all free is its only one. -/
structure Settled (c : Cache) : Prop where
  some_page : c.pages ≠ []
  only : ∀ p ∈ c.pages, c.freeIn p = c.perPage → c.pages = [p]

variable {c : Cache} {V : Set Nat}

theorem Sound.slots_eq (h : Sound c V) (hp : p ∈ c.pages) :
    x ∈ slots c.object_size p ↔ c.IsSlot x ∧ pageOf x = p := by
  rw [mem_slots h.size (h.aligned p hp), Cache.IsSlot]
  constructor
  · rintro ⟨h1, rfl⟩
    exact ⟨⟨h1, hp⟩, rfl⟩
  · rintro ⟨⟨h1, -⟩, h2⟩
    exact ⟨h1, h2⟩

/-- The free slots of a page are among its slots. -/
theorem Sound.free_subset (h : Sound c V) (hp : p ∈ c.pages) :
    c.free.filter (pageOf · = p) ⊆ slots c.object_size p := by
  intro x hx
  rw [List.mem_filter] at hx
  rw [h.slots_eq hp]
  exact ⟨((h.mem_free x).mp hx.1).1, by simpa using hx.2⟩

theorem Sound.freeIn_le (h : Sound c V) (hp : p ∈ c.pages) : c.freeIn p ≤ c.perPage := by
  have hsub := (h.free_nodup.filter (pageOf · = p)).subperm (h.free_subset hp)
  have hlen := hsub.length_le
  rwa [slots_length, ← List.countP_eq_length_filter] at hlen

/-- All slots of a page are free just when none of them is live. -/
theorem Sound.freeIn_eq_iff (h : Sound c V) (hp : p ∈ c.pages) :
    c.freeIn p = c.perPage ↔ ∀ x ∈ V, pageOf x ≠ p := by
  have hsub := (h.free_nodup.filter (pageOf · = p)).subperm (h.free_subset hp)
  have hcount : c.freeIn p = (c.free.filter (pageOf · = p)).length :=
    List.countP_eq_length_filter
  constructor
  · intro heq x hx hxp
    have hslot : x ∈ slots c.object_size p := (h.slots_eq hp).mpr ⟨h.live x hx, hxp⟩
    have hperm := hsub.perm_of_length_le (by rw [slots_length, ← hcount, heq]; rfl)
    have hmem := hperm.mem_iff.mpr hslot
    exact ((h.mem_free x).mp (List.mem_filter.mp hmem).1).2 hx
  · intro hnone
    have hperm : (c.free.filter (pageOf · = p)).Perm (slots c.object_size p) := by
      apply (List.perm_ext_iff_of_nodup (h.free_nodup.filter _) (slots_nodup h.size p)).mpr
      intro x
      rw [List.mem_filter, h.mem_free, h.slots_eq hp]
      constructor
      · rintro ⟨⟨h1, -⟩, h2⟩
        exact ⟨h1, by simpa using h2⟩
      · rintro ⟨h1, h2⟩
        exact ⟨⟨h1, fun hv => hnone x hv h2⟩, by simpa using h2⟩
    rw [hcount, hperm.length_eq, slots_length, Cache.perPage]

/-! ## What the operations keep -/

theorem sound_empty {size : Nat} (hs : SlotSize size) (marker : UInt8) :
    Sound ⟨size, marker, [], []⟩ ∅ :=
  ⟨hs, by simp, List.nodup_nil, List.nodup_nil, by simp [Cache.IsSlot], by simp⟩

theorem Sound.addPage (h : Sound c V) (hp : PAGE_SIZE ∣ p) (hnew : p ∉ c.pages) :
    Sound (c.addPage p) V := by
  have hlive : ∀ x ∈ V, pageOf x ≠ p := fun x hx he => hnew (he ▸ (h.live x hx).2)
  refine ⟨h.size, ?_, ?_, ?_, ?_, ?_⟩
  · intro q hq
    cases hq with
    | head => exact hp
    | tail _ hq => exact h.aligned q hq
  · exact List.nodup_cons.mpr ⟨hnew, h.pages_nodup⟩
  · apply (slots_nodup h.size p).append h.free_nodup
    intro x hx hf
    have h1 := ((mem_slots h.size hp).mp hx).2
    have h2 := ((h.mem_free x).mp hf).1.2
    exact hnew (h1 ▸ h2)
  · intro x
    simp only [Cache.addPage, List.mem_append, mem_slots h.size hp, h.mem_free, Cache.IsSlot,
      List.mem_cons]
    constructor
    · rintro (⟨h1, h2⟩ | ⟨⟨h1, h2⟩, h3⟩)
      · exact ⟨⟨h1, Or.inl h2⟩, fun hv => hlive x hv h2⟩
      · exact ⟨⟨h1, Or.inr h2⟩, h3⟩
    · rintro ⟨⟨h1, h2 | h2⟩, h3⟩
      · exact Or.inl ⟨h1, h2⟩
      · exact Or.inr ⟨⟨h1, h2⟩, h3⟩
  · intro x hx
    exact ⟨(h.live x hx).1, List.mem_cons_of_mem p (h.live x hx).2⟩

theorem Sound.take {xs : List Nat} (h : Sound c V) (hx : c.free = x :: xs) :
    Sound c.take (insert x V) := by
  have hnd := h.free_nodup
  rw [hx, List.nodup_cons] at hnd
  have hslot := (h.mem_free x).mp (by simp [hx])
  refine ⟨h.size, h.aligned, h.pages_nodup, ?_, ?_, ?_⟩
  · simp only [Cache.take, hx, List.tail_cons]
    exact hnd.2
  · intro y
    have hy := h.mem_free y
    simp only [hx, List.mem_cons] at hy
    simp only [Cache.take, hx, List.tail_cons, Set.mem_insert_iff, not_or]
    constructor
    · intro hm
      have h1 := hy.mp (Or.inr hm)
      exact ⟨h1.1, fun he => hnd.1 (he ▸ hm), h1.2⟩
    · rintro ⟨h1, hne, h2⟩
      exact (hy.mpr ⟨h1, h2⟩).resolve_left hne
  · rintro y (rfl | hy)
    · exact hslot.1
    · exact h.live y hy

theorem Sound.give (h : Sound c V) (hx : x ∈ V) : Sound (c.give x) (V \ {x}) := by
  have hnew : x ∉ c.free := fun hf => ((h.mem_free x).mp hf).2 hx
  refine ⟨h.size, h.aligned, h.pages_nodup, List.nodup_cons.mpr ⟨hnew, h.free_nodup⟩, ?_, ?_⟩
  · intro y
    have hy : y ∈ c.free ↔ c.IsSlot y ∧ y ∉ V := h.mem_free y
    change y ∈ x :: c.free ↔ c.IsSlot y ∧ y ∉ V \ {x}
    rw [List.mem_cons, hy, Set.mem_sdiff, Set.mem_singleton_iff]
    by_cases hyx : y = x
    · subst hyx
      simp [h.live y hx]
    · simp [hyx]
  · exact fun y hy => h.live y hy.1

theorem Sound.dropPage (h : Sound c V) (hnone : ∀ x ∈ V, pageOf x ≠ p) :
    Sound (c.dropPage p) V := by
  refine ⟨h.size, ?_, h.pages_nodup.erase p, h.free_nodup.filter _, ?_, ?_⟩
  · exact fun q hq => h.aligned q (List.mem_of_mem_erase hq)
  · intro x
    have hx : x ∈ c.free ↔ c.IsSlot x ∧ x ∉ V := h.mem_free x
    change x ∈ c.free.filter (pageOf · ≠ p) ↔ (c.object_size ∣ x ∧ pageOf x ∈ c.pages.erase p) ∧ _
    rw [List.mem_filter, hx, Cache.IsSlot, h.pages_nodup.mem_erase_iff, decide_eq_true_eq]
    tauto
  · intro x hx
    refine ⟨(h.live x hx).1, ?_⟩
    exact h.pages_nodup.mem_erase_iff.mpr ⟨hnone x hx, (h.live x hx).2⟩

/-! ## No page stands idle -/

theorem freeIn_take {xs : List Nat} (hx : c.free = x :: xs) (p : Nat) :
    c.freeIn p = c.take.freeIn p + if pageOf x = p then 1 else 0 := by
  simp [Cache.freeIn, Cache.take, hx, List.countP_cons]

theorem freeIn_give (c : Cache) (x p : Nat) :
    (c.give x).freeIn p = c.freeIn p + if pageOf x = p then 1 else 0 := by
  simp [Cache.freeIn, Cache.give, List.countP_cons]

theorem freeIn_dropPage {q : Nat} (hne : q ≠ p) : (c.dropPage p).freeIn q = c.freeIn q := by
  simp only [Cache.freeIn, Cache.dropPage, List.countP_filter]
  apply List.countP_congr
  intro x _
  simp only [Bool.and_eq_true, decide_eq_true_eq]
  constructor
  · exact fun hx => hx.1
  · intro hx
    exact ⟨hx, by rw [hx]; exact hne⟩

theorem freeIn_addPage (h : Sound c V) (hp : PAGE_SIZE ∣ p) {q : Nat} (hne : q ≠ p) :
    (c.addPage p).freeIn q = c.freeIn q := by
  have hzero : (slots c.object_size p).countP (pageOf · = q) = 0 := by
    rw [List.countP_eq_zero]
    intro x hx
    rw [((mem_slots h.size hp).mp hx).2]
    simpa using hne.symm
  simp only [Cache.freeIn, Cache.addPage, List.countP_append, hzero, Nat.zero_add]

/-- A slot taken from the one page that may be idle leaves no page idle. -/
theorem Sound.take_settled {xs : List Nat} (h : Sound c V) (hx : c.free = x :: xs)
    (hidle : ∀ p ∈ c.pages, c.freeIn p = c.perPage → p = pageOf x) : Settled c.take := by
  have hmem : pageOf x ∈ c.pages := ((h.mem_free x).mp (by simp [hx])).1.2
  refine ⟨List.ne_nil_of_mem hmem, ?_⟩
  intro p hp hfull
  have hle := h.freeIn_le hp
  have hcount := freeIn_take hx p
  have hper : c.take.perPage = c.perPage := rfl
  rw [hper] at hfull
  by_cases hpx : pageOf x = p
  · rw [if_pos hpx] at hcount
    omega
  · rw [if_neg hpx] at hcount
    exact absurd (hidle p hp (by omega)).symm hpx

theorem Settled.idle (h : Settled c) (hx : pageOf x ∈ c.pages) :
    ∀ p ∈ c.pages, c.freeIn p = c.perPage → p = pageOf x := by
  intro p hp hfull
  rw [h.only p hp hfull, List.mem_singleton] at hx
  exact hx.symm

/-- After a cache with no free slot has grown, only the new page is idle. -/
theorem Sound.addPage_idle (h : Sound c V) (hp : PAGE_SIZE ∣ p) (hempty : c.free = []) :
    ∀ q ∈ (c.addPage p).pages, (c.addPage p).freeIn q = (c.addPage p).perPage → q = p := by
  intro q _ hfull
  by_contra hne
  have htwo := h.size.count.1
  have hper : (c.addPage p).perPage = PAGE_SIZE / c.object_size := rfl
  rw [freeIn_addPage h hp hne, hper] at hfull
  simp only [Cache.freeIn, hempty, List.countP_nil] at hfull
  omega

/-- A slot that comes back leaves no page idle: its page goes, or is the only
one. -/
theorem Sound.release_settled (h : Sound c V) (hset : Settled c) (hx : x ∈ V) (a : FreeLists) :
    Settled (c.release a x).1 := by
  have hmem : pageOf x ∈ c.pages := (h.live x hx).2
  -- A page other than the page of `x` was not idle, as the cache had both.
  have hother : ∀ q ∈ c.pages, q ≠ pageOf x → c.freeIn q ≠ c.perPage := by
    intro q hq hne hfull
    exact hne (hset.idle hmem q hq hfull)
  unfold Cache.release
  split
  · rename_i hshrink
    have hpages : ((c.give x).dropPage (pageOf x)).pages = c.pages.erase (pageOf x) := rfl
    refine ⟨?_, ?_⟩
    · rw [hpages]
      intro hnil
      apply hshrink.2
      have hperm := List.perm_cons_erase hmem
      rw [hnil] at hperm
      exact List.perm_singleton.mp hperm
    · intro q hq hfull
      rw [hpages, h.pages_nodup.mem_erase_iff] at hq
      rw [freeIn_dropPage hq.1, freeIn_give, if_neg (Ne.symm hq.1)] at hfull
      exact absurd hfull (hother q hq.2 hq.1)
  · rename_i hstay
    refine ⟨List.ne_nil_of_mem hmem, ?_⟩
    intro q hq hfull
    by_cases hqx : q = pageOf x
    · by_contra hne
      exact hstay ⟨hqx ▸ hfull, hqx ▸ hne⟩
    · simp only at hfull
      rw [freeIn_give, if_neg (Ne.symm hqx)] at hfull
      exact absurd hfull (hother q hq hqx)

/-! ## The pages as blocks -/

/-- The blocks of the pages of a cache. -/
def pageBlocks (c : Cache) : Set Block := {d | ∃ p ∈ c.pages, d = blk p 0}

theorem pageBlocks_addPage (c : Cache) (p : Nat) :
    pageBlocks (c.addPage p) = insert (blk p 0) (pageBlocks c) := by
  ext d
  simp [pageBlocks, Cache.addPage]

theorem pageBlocks_dropPage (h : Sound c V) (p : Nat) :
    pageBlocks (c.dropPage p) = pageBlocks c \ {blk p 0} := by
  ext d
  simp only [pageBlocks, Cache.dropPage, Set.mem_ofPred_eq, Set.mem_sdiff, Set.mem_singleton_iff,
    h.pages_nodup.mem_erase_iff]
  constructor
  · rintro ⟨q, ⟨hne, hq⟩, rfl⟩
    exact ⟨⟨q, hq, rfl⟩, fun he => hne (blk_inj.mp he).1⟩
  · rintro ⟨⟨q, hq, rfl⟩, hne⟩
    exact ⟨q, ⟨fun he => hne (by rw [he]), hq⟩, rfl⟩

/-- The cases of a call of `grow`. -/
theorem Cache.grow_cases (c : Cache) (a : FreeLists) (malloc_ok : Bool) :
    (a.alloc 0 = none ∧ c.grow a malloc_ok = (false, c, a)) ∨
    (∃ p a', a.alloc 0 = some (p, a') ∧ malloc_ok = false ∧
      c.grow a malloc_ok = (false, c, a'.release (BUDDY_MAX_ORDER + 1) p 0)) ∨
    ∃ p a', a.alloc 0 = some (p, a') ∧ malloc_ok = true ∧
      c.grow a malloc_ok = (true, c.addPage p, a'.setOrder (p / PAGE_SIZE) c.marker) := by
  unfold grow
  cases ha : a.alloc 0 with
  | none => exact Or.inl ⟨rfl, rfl⟩
  | some r =>
    cases malloc_ok with
    | false => exact Or.inr (Or.inl ⟨r.1, r.2, rfl, rfl, rfl⟩)
    | true => exact Or.inr (Or.inr ⟨r.1, r.2, rfl, rfl, rfl⟩)

theorem Cache.alloc_fields (c : Cache) (a : FreeLists) (malloc_ok : Bool) :
    (c.alloc a malloc_ok).2.1.object_size = c.object_size ∧
      (c.alloc a malloc_ok).2.1.marker = c.marker := by
  have hready : (c.ready a malloc_ok).2.1.object_size = c.object_size ∧
      (c.ready a malloc_ok).2.1.marker = c.marker := by
    unfold ready
    split
    · rcases c.grow_cases a malloc_ok with ⟨-, hg⟩ | ⟨p, a', -, -, hg⟩ | ⟨p, a', -, -, hg⟩ <;>
        rw [hg] <;> exact ⟨rfl, rfl⟩
    · exact ⟨rfl, rfl⟩
  unfold alloc
  simp only
  split <;> exact hready

theorem Cache.release_fields (c : Cache) (a : FreeLists) (x : Nat) :
    (c.release a x).1.object_size = c.object_size ∧ (c.release a x).1.marker = c.marker := by
  unfold release
  split <;> exact ⟨rfl, rfl⟩

section

variable {T : Nat} {R : Set Block} {a : FreeLists}

/-- A page that the buddy lists give out is new to the cache. -/
theorem new_page {a' : FreeLists} (h : Tiled T (R ∪ pageBlocks c) a)
    (ha : a.alloc 0 = some (p, a')) : PAGE_SIZE ∣ p ∧ p ∉ c.pages ∧ blk p 0 ∉ R := by
  obtain ⟨htiled, hnew, -⟩ := h.alloc (by decide) ha
  refine ⟨htiled.page_dvd (Or.inr (Or.inl rfl)), ?_, fun hR => hnew (Or.inl hR)⟩
  exact fun hp => hnew (Or.inr ⟨p, hp, rfl⟩)

/-- A slot can be taken from a cache that is ready, and from no idle page but
the one that the slot is on. -/
theorem Sound.ready (hc : Sound c V) (h : Tiled T (R ∪ pageBlocks c) a) (malloc_ok : Bool) :
    Sound (c.ready a malloc_ok).2.1 V ∧
    ((c.ready a malloc_ok).1 = false → (c.ready a malloc_ok).2.1 = c) ∧
    ((c.ready a malloc_ok).1 = true → ∃ x xs, (c.ready a malloc_ok).2.1.free = x :: xs ∧
      (Settled c → ∀ p ∈ (c.ready a malloc_ok).2.1.pages,
        (c.ready a malloc_ok).2.1.freeIn p = (c.ready a malloc_ok).2.1.perPage → p = pageOf x)) := by
  unfold Cache.ready
  by_cases hempty : c.free = []
  · rw [if_pos hempty]
    rcases c.grow_cases a malloc_ok with ⟨-, hg⟩ | ⟨p, a', -, -, hg⟩ | ⟨p, a', ha, -, hg⟩
    · rw [hg]
      exact ⟨hc, fun _ => rfl, fun ht => by cases ht⟩
    · rw [hg]
      exact ⟨hc, fun _ => rfl, fun ht => by cases ht⟩
    · obtain ⟨hdvd, hnew, -⟩ := new_page h ha
      rw [hg]
      refine ⟨hc.addPage hdvd hnew, fun ht => (by cases ht), fun _ => ?_⟩
      have hlen : (slots c.object_size p).length ≠ 0 := by
        rw [slots_length]
        have := hc.size.count.1
        omega
      obtain ⟨x, xs, hx⟩ := List.exists_cons_of_length_pos (Nat.pos_of_ne_zero hlen)
      have hxp : pageOf x = p := ((mem_slots hc.size hdvd).mp (by rw [hx]; simp)).2
      refine ⟨x, xs ++ c.free, by simp [Cache.addPage, hx], fun _ => ?_⟩
      rw [hxp]
      exact hc.addPage_idle hdvd hempty
  · rw [if_neg hempty]
    refine ⟨hc, fun ht => (by cases ht), fun _ => ?_⟩
    obtain ⟨x, xs, hx⟩ := List.exists_cons_of_ne_nil hempty
    have hmem : pageOf x ∈ c.pages := ((hc.mem_free x).mp (by simp [hx])).1.2
    exact ⟨x, xs, hx, fun hset => hset.idle hmem⟩

/-- An allocation that fails leaves the cache as it was. One that succeeds gives
a slot that was not live. -/
theorem Sound.alloc (hc : Sound c V) (h : Tiled T (R ∪ pageBlocks c) a) (malloc_ok : Bool) :
    ((c.alloc a malloc_ok).1 = none → (c.alloc a malloc_ok).2.1 = c) ∧
    ∀ x, (c.alloc a malloc_ok).1 = some x → x ∉ V ∧
      Sound (c.alloc a malloc_ok).2.1 (insert x V) ∧
      (Settled c → Settled (c.alloc a malloc_ok).2.1) := by
  obtain ⟨hsound, hfail, htake⟩ := hc.ready h malloc_ok
  unfold Cache.alloc
  cases hr : (c.ready a malloc_ok).1 with
  | false =>
    simp only [hr, Bool.false_eq_true, if_false]
    exact ⟨fun _ => hfail hr, fun x hx => by cases hx⟩
  | true =>
    obtain ⟨x, xs, hx, hidle⟩ := htake hr
    simp only [hr, if_true, hx, List.head?_cons]
    refine ⟨fun ht => (by cases ht), ?_⟩
    rintro y ⟨rfl⟩
    exact ⟨((hsound.mem_free x).mp (by simp [hx])).2, hsound.take hx,
      fun hset => hsound.take_settled hx (hidle hset)⟩

/-- An allocation from a cache keeps the orders of the live blocks. It may give a
new page the mark of the cache, and one that fails leaves the buddy lists as they
were. -/
theorem Sound.alloc_lists (hc : Sound c V) (h : Tiled T (R ∪ pageBlocks c) a) (malloc_ok : Bool) :
    (∀ d ∈ R ∪ pageBlocks c, ∀ q, d.Covers (q * PAGE_SIZE) →
      (c.alloc a malloc_ok).2.2.page_order q = a.page_order q) ∧
    ((c.alloc a malloc_ok).1 = none → (c.alloc a malloc_ok).2.2.free = a.free) ∧
    (((c.alloc a malloc_ok).2.1.pages = c.pages ∧
        KeepsOrders (R ∪ pageBlocks c) a (c.alloc a malloc_ok).2.2) ∨
      ∃ p a', a.alloc 0 = some (p, a') ∧ (c.alloc a malloc_ok).2.1.pages = p :: c.pages ∧
        (c.alloc a malloc_ok).2.2 = a'.setOrder (p / PAGE_SIZE) c.marker) := by
  unfold Cache.alloc Cache.ready
  by_cases hempty : c.free = []
  · rw [if_pos hempty]
    rcases c.grow_cases a malloc_ok with ⟨-, hg⟩ | ⟨p, a', ha, -, hg⟩ | ⟨p, a', ha, -, hg⟩
    · rw [hg]
      exact ⟨fun _ _ _ _ => rfl, fun _ => rfl, Or.inl ⟨rfl, KeepsOrders.refl _ _⟩⟩
    · rw [hg]
      obtain ⟨htiled, hnew, -⟩ := h.alloc (by decide) ha
      have hrel := htiled.release_keeps (n := BUDDY_MAX_ORDER + 1) (Or.inl rfl)
      rw [Set.insert_sdiff_self_of_notMem hnew] at hrel
      have hkeep := (h.alloc_keeps (by decide) ha).trans hrel subset_rfl
      exact ⟨hkeep.live, fun _ => h.release_alloc (by decide) (by decide) ha,
        Or.inl ⟨rfl, hkeep⟩⟩
    · rw [hg]
      obtain ⟨htiled, hnew, -⟩ := h.alloc (by decide) ha
      refine ⟨fun d hd q hq => ?_, fun hf => ?_, Or.inr ⟨p, a', ha, rfl, rfl⟩⟩
      · have hne : q ≠ p / PAGE_SIZE := by
          rintro rfl
          have he := htiled.page_of_live (Or.inr hd) hq (Or.inr (Or.inl rfl)) rfl
          exact hnew (he ▸ hd)
        simp only [if_true, FreeLists.setOrder, Function.update_of_ne hne]
        exact (h.alloc_keeps (by decide) ha).live d hd q hq
      · have hcount := hc.size.count.1
        have hlen : slots c.object_size p ≠ [] := by
          intro hnil
          have := slots_length c.object_size p
          rw [hnil, List.length_nil] at this
          omega
        simp [Cache.addPage, hlen] at hf
  · rw [if_neg hempty]
    exact ⟨fun _ _ _ _ => rfl, fun _ => rfl, Or.inl ⟨rfl, KeepsOrders.refl _ _⟩⟩

/-- A slot that comes back is free, and its page may be gone. -/
theorem Sound.release (hc : Sound c V) (hx : x ∈ V) (a : FreeLists) :
    Sound (c.release a x).1 (V \ {x}) := by
  have hgive := hc.give hx
  unfold Cache.release
  split
  · rename_i hshrink
    have hp : pageOf x ∈ (c.give x).pages := (hc.live x hx).2
    exact hgive.dropPage ((hgive.freeIn_eq_iff hp).mp hshrink.1)
  · exact hgive

/-- A free of a slot leaves the buddy lists alone, or gives the page back and
takes its mark away. -/
theorem Sound.release_lists (hc : Sound c V) (h : Tiled T (R ∪ pageBlocks c) a) (hx : x ∈ V) :
    ((c.release a x).1.pages = c.pages ∧ (c.release a x).2 = a) ∨
    ((c.release a x).1.pages = c.pages.erase (pageOf x) ∧
      KeepsOrders ((R ∪ pageBlocks c) \ {blk (pageOf x) 0}) a (c.release a x).2 ∧
      ((c.release a x).2.page_order (pageOf x / PAGE_SIZE)).toNat < BUDDY_MAX_ORDER) := by
  have hL : blk (pageOf x) 0 ∈ R ∪ pageBlocks c := Or.inr ⟨_, (hc.live x hx).2, rfl⟩
  unfold Cache.release
  split
  · have hzero : ((a.setOrder (pageOf x / PAGE_SIZE) 0).page_order (pageOf x / PAGE_SIZE)).toNat <
        BUDDY_MAX_ORDER := by
      simp only [FreeLists.setOrder, Function.update_self]
      decide
    have hset : KeepsOrders ((R ∪ pageBlocks c) \ {blk (pageOf x) 0}) a
        (a.setOrder (pageOf x / PAGE_SIZE) 0) := by
      refine ⟨fun d hd q hq => ?_, fun q => ?_⟩
      · have hne : q ≠ pageOf x / PAGE_SIZE := by
          rintro rfl
          exact hd.2 (h.page_of_live hd.1 hq (Or.inr hL) rfl).symm
        simp [FreeLists.setOrder, hne]
      · by_cases hq : q = pageOf x / PAGE_SIZE
        · exact Or.inr (hq ▸ hzero)
        · exact Or.inl (by simp [FreeLists.setOrder, hq])
    have hrel := (h.setOrder (pageOf x / PAGE_SIZE) 0).release_keeps (n := BUDDY_MAX_ORDER + 1) hL
    refine Or.inr ⟨rfl, hset.trans hrel subset_rfl, ?_⟩
    rcases hrel.other (pageOf x / PAGE_SIZE) with he | he
    · rw [he]
      exact hzero
    · exact he
  · exact Or.inl ⟨rfl, rfl⟩

end

end gpgpu.slab
