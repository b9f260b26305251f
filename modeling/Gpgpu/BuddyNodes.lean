-- The free lists of the buddy allocator as lists of offsets. Each edit of the
-- pointers in memory is the same edit of a list, and changes no byte outside
-- the nodes of that list.
import Gpgpu.Lib.Links
import Gpgpu.Buddy

open memory links

namespace gpgpu.buddy

/-! ## The fields of two nodes -/

theorem node_prev_set_prev (m : Mem) (p v : Nat) : node_prev (set_prev m p v) p = v % 2 ^ 64 := by
  unfold node_prev set_prev
  rw [load_store, show (256 : Nat) ^ 8 = 2 ^ 64 by norm_num]

theorem node_next_set_next (m : Mem) (p v : Nat) : node_next (set_next m p v) p = v % 2 ^ 64 := by
  unfold node_next set_next
  rw [load_store, show (256 : Nat) ^ 8 = 2 ^ 64 by norm_num]

theorem node_prev_set_prev_apart {m : Mem} {p q v : Nat} (h : p + 16 ≤ q ∨ q + 16 ≤ p) :
    node_prev (set_prev m p v) q = node_prev m q := by
  unfold node_prev set_prev
  exact load_store_apart (by omega)

theorem node_next_set_next_apart {m : Mem} {p q v : Nat} (h : p + 16 ≤ q ∨ q + 16 ≤ p) :
    node_next (set_next m p v) q = node_next m q := by
  unfold node_next set_next
  exact load_store_apart (by omega)

theorem node_next_set_prev {m : Mem} {p q v : Nat} (h : p = q ∨ p + 16 ≤ q ∨ q + 16 ≤ p) :
    node_next (set_prev m p v) q = node_next m q := by
  unfold node_next set_prev
  exact load_store_apart (by omega)

theorem node_prev_set_next {m : Mem} {p q v : Nat} (h : p = q ∨ p + 16 ≤ q ∨ q + 16 ≤ p) :
    node_prev (set_next m p v) q = node_prev m q := by
  unfold node_prev set_next
  exact load_store_apart (by omega)

theorem set_prev_outside {m : Mem} {p v y : Nat} (h : y < p ∨ p + 16 ≤ y) :
    set_prev m p v y = m y := by
  unfold set_prev
  exact store_outside (by omega)

theorem set_next_outside {m : Mem} {p v y : Nat} (h : y < p ∨ p + 16 ≤ y) :
    set_next m p v y = m y := by
  unfold set_next
  exact store_outside (by omega)

theorem node_prev_lt (m : Mem) (p : Nat) : node_prev m p < 2 ^ 64 := by
  unfold node_prev
  exact load_lt m p 8

theorem node_next_lt (m : Mem) (p : Nat) : node_next m p < 2 ^ 64 := by
  unfold node_next
  exact load_lt m (p + 8) 8

/-! ## The lists of offsets -/

/-- The free lists, by order, as offsets in list order, and the order table. -/
structure FreeLists where
  free : Nat → List Nat
  page_order : Nat → UInt8

namespace FreeLists

def setList (a : FreeLists) (k : Nat) (xs : List Nat) : FreeLists :=
  { a with free := Function.update a.free k xs }

def push (a : FreeLists) (k x : Nat) : FreeLists := a.setList k (x :: a.free k)

def setOrder (a : FreeLists) (page : Nat) (order : UInt8) : FreeLists :=
  { a with page_order := Function.update a.page_order page order }

@[simp] theorem setList_free_same (a : FreeLists) (k : Nat) (xs : List Nat) :
    (a.setList k xs).free k = xs := by simp [setList]

@[simp] theorem setList_free_ne (a : FreeLists) {j k : Nat} (xs : List Nat) (h : j ≠ k) :
    (a.setList k xs).free j = a.free j := by simp [setList, h]

@[simp] theorem setList_page_order (a : FreeLists) (k : Nat) (xs : List Nat) :
    (a.setList k xs).page_order = a.page_order := rfl

@[simp] theorem push_page_order (a : FreeLists) (k x : Nat) :
    (a.push k x).page_order = a.page_order := rfl

@[simp] theorem setOrder_free (a : FreeLists) (page : Nat) (order : UInt8) :
    (a.setOrder page order).free = a.free := rfl

theorem mem_push (a : FreeLists) (k x j y : Nat) :
    y ∈ (a.push k x).free j ↔ y ∈ a.free j ∨ (j = k ∧ y = x) := by
  unfold push
  by_cases h : j = k
  · subst h
    simp [or_comm]
  · simp [h]

end FreeLists

/-- The offsets of the lists are places for nodes: pages of a memory of `T`
bytes at `base`, each on one list only, and once. -/
structure Placed (base T : Nat) (a : FreeLists) : Prop where
  base_pos : 0 < base
  fits : base + T ≤ 2 ^ 64
  page : ∀ k x, x ∈ a.free k → 4096 ∣ x ∧ x + 4096 ≤ T
  nodup : ∀ k, (a.free k).Nodup
  unique : ∀ j k x, x ∈ a.free j → x ∈ a.free k → j = k

/-- The memory and the struct hold the lists `a`. -/
structure Shows (b : BuddyAllocator) (a : FreeLists) : Prop where
  page_order : b.page_order = a.page_order
  lists : ∀ k < BUDDY_MAX_ORDER, Dll (node_next b.mem) (node_prev b.mem) (b.free_list k)
    ((a.free k).map (b.vram_base + ·))

/-- The byte `y` lies in the node of one of the offsets. -/
def NodeByte (base : Nat) (xs : List Nat) (y : Nat) : Prop :=
  ∃ x ∈ xs, base + x ≤ y ∧ y < base + x + 16

section

variable {b : BuddyAllocator} {a : FreeLists} {T : Nat}

theorem Placed.ne_zero {base : Nat} (hp : Placed base T a) {k : Nat} :
    ∀ p ∈ (a.free k).map (base + ·), p ≠ 0 := by
  intro p hm
  obtain ⟨x, -, rfl⟩ := List.mem_map.mp hm
  have := hp.base_pos
  omega

theorem Placed.nodup_map {base : Nat} (hp : Placed base T a) (k : Nat) :
    ((a.free k).map (base + ·)).Nodup :=
  (hp.nodup k).map fun x y h => by simpa using h

/-- Nodes of different offsets do not overlap. -/
theorem apart_of_ne (base : Nat) {x y : Nat} (hx : 4096 ∣ x) (hy : 4096 ∣ y) (h : x ≠ y) :
    base + x + 16 ≤ base + y ∨ base + y + 16 ≤ base + x := by
  omega

/-- The head pointer of a list is null just when the list is empty. -/
theorem Shows.head_ne_zero_iff (hs : Shows b a) (hp : Placed b.vram_base T a) {k : Nat}
    (hk : k < BUDDY_MAX_ORDER) : b.free_list k ≠ 0 ↔ a.free k ≠ [] := by
  rw [Ne, (hs.lists k hk).head_eq_zero_iff hp.ne_zero, List.map_eq_nil_iff]

theorem Shows.head_cons (hs : Shows b a) {k x : Nat} {xs : List Nat} (hk : k < BUDDY_MAX_ORDER)
    (hx : a.free k = x :: xs) : b.free_list k = b.vram_base + x := by
  rw [(hs.lists k hk).1, hx]
  rfl

theorem Shows.head_lt (hs : Shows b a) (hp : Placed b.vram_base T a) {k : Nat}
    (hk : k < BUDDY_MAX_ORDER) : b.free_list k < 2 ^ 64 := by
  cases hx : a.free k with
  | nil =>
    have h0 := (hs.lists k hk).1
    rw [hx] at h0
    rw [h0]
    exact Nat.two_pow_pos 64
  | cons x xs =>
    have hpage := hp.page k x (by simp [hx])
    have := hp.fits
    rw [hs.head_cons hk hx]
    omega

/-! ## A node put at the head -/

/-- `put_back` writes what `push_front` writes. -/
theorem put_back_eq {k node : Nat} (h : b.free_list k < 2 ^ 64) :
    b.put_back k node = b.push_front k node := by
  unfold BuddyAllocator.put_back BuddyAllocator.push_front
  simp only [node_next_set_next, Nat.mod_eq_of_lt h]

theorem push_front_vram_base (b : BuddyAllocator) (k node : Nat) :
    (b.push_front k node).vram_base = b.vram_base := rfl

theorem push_front_outside (hs : Shows b a) (hp : Placed b.vram_base T a) {k x y : Nat}
    (hk : k < BUDDY_MAX_ORDER) (hy : ¬ NodeByte b.vram_base (x :: a.free k) y) :
    (b.push_front k (b.vram_base + x)).mem y = b.mem y := by
  have hnode : y < b.vram_base + x ∨ b.vram_base + x + 16 ≤ y := by
    by_contra hc
    exact hy ⟨x, by simp, by omega, by omega⟩
  unfold BuddyAllocator.push_front
  simp only
  split
  · rename_i h0
    obtain ⟨z, zs, hz⟩ := List.exists_cons_of_ne_nil ((hs.head_ne_zero_iff hp hk).mp h0)
    have hhead : y < b.vram_base + z ∨ b.vram_base + z + 16 ≤ y := by
      by_contra hc
      exact hy ⟨z, by simp [hz], by omega, by omega⟩
    rw [hs.head_cons hk hz, set_prev_outside hhead, set_next_outside hnode,
      set_prev_outside hnode]
  · rw [set_next_outside hnode, set_prev_outside hnode]

/-- The fields of a node after `push_front`. -/
theorem push_front_fields (hs : Shows b a) (hp : Placed b.vram_base T a) {k x : Nat}
    (hk : k < BUDDY_MAX_ORDER) (hx : 4096 ∣ x) (hT : x + 4096 ≤ T) (hfresh : ∀ j, x ∉ a.free j) :
    let m := (b.push_front k (b.vram_base + x)).mem
    node_prev m (b.vram_base + x) = 0 ∧ node_next m (b.vram_base + x) = b.free_list k ∧
    (b.free_list k ≠ 0 → node_prev m (b.free_list k) = b.vram_base + x) ∧
    (∀ j y, y ∈ a.free j → node_next m (b.vram_base + y) = node_next b.mem (b.vram_base + y)) ∧
    ∀ j y, y ∈ a.free j → b.vram_base + y ≠ b.free_list k →
      node_prev m (b.vram_base + y) = node_prev b.mem (b.vram_base + y) := by
  intro m
  have hfits := hp.fits
  have hapart : ∀ {j y}, y ∈ a.free j →
      b.vram_base + x + 16 ≤ b.vram_base + y ∨ b.vram_base + y + 16 ≤ b.vram_base + x :=
    fun {j y} hy => apart_of_ne _ hx (hp.page j y hy).1 (fun h => hfresh j (h ▸ hy))
  have hlt := hs.head_lt hp hk
  by_cases h0 : b.free_list k = 0
  · have hm : m = set_next (set_prev b.mem (b.vram_base + x) 0) (b.vram_base + x)
        (b.free_list k) := by
      simp [m, BuddyAllocator.push_front, h0]
    rw [hm]
    refine ⟨?_, ?_, fun h => absurd h0 h, ?_, ?_⟩
    · rw [node_prev_set_next (Or.inl rfl), node_prev_set_prev, Nat.zero_mod]
    · rw [node_next_set_next, Nat.mod_eq_of_lt hlt]
    · intro j y hy
      rw [node_next_set_next_apart (hapart hy), node_next_set_prev (Or.inr (hapart hy))]
    · intro j y hy _
      rw [node_prev_set_next (Or.inr (hapart hy)), node_prev_set_prev_apart (hapart hy)]
  · have hm : m = set_prev (set_next (set_prev b.mem (b.vram_base + x) 0) (b.vram_base + x)
        (b.free_list k)) (b.free_list k) (b.vram_base + x) := by
      simp [m, BuddyAllocator.push_front, h0]
    obtain ⟨z, zs, hz⟩ := List.exists_cons_of_ne_nil ((hs.head_ne_zero_iff hp hk).mp h0)
    have hzk : z ∈ a.free k := by simp [hz]
    have hh := hs.head_cons hk hz
    have hzx := hapart hzk
    rw [hm]
    refine ⟨?_, ?_, fun _ => ?_, ?_, ?_⟩
    · rw [hh, node_prev_set_prev_apart (by omega), node_prev_set_next (Or.inl rfl),
        node_prev_set_prev, Nat.zero_mod]
    · rw [hh, node_next_set_prev (by omega), node_next_set_next, ← hh, Nat.mod_eq_of_lt hlt]
    · rw [node_prev_set_prev, Nat.mod_eq_of_lt (by omega)]
    · intro j y hy
      have hyz : b.vram_base + z = b.vram_base + y ∨ b.vram_base + z + 16 ≤ b.vram_base + y ∨
          b.vram_base + y + 16 ≤ b.vram_base + z := by
        have h1 := (hp.page k z hzk).1
        have h2 := (hp.page j y hy).1
        omega
      rw [hh, node_next_set_prev hyz, node_next_set_next_apart (hapart hy),
        node_next_set_prev (Or.inr (hapart hy))]
    · intro j y hy hne
      have hyz := apart_of_ne b.vram_base (hp.page k z hzk).1 (hp.page j y hy).1
        (fun h => hne (by rw [hh, h]))
      rw [hh, node_prev_set_prev_apart hyz, node_prev_set_next (Or.inr (hapart hy)),
        node_prev_set_prev_apart (hapart hy)]

theorem push_front_shows (hs : Shows b a) (hp : Placed b.vram_base T a) {k x : Nat}
    (hk : k < BUDDY_MAX_ORDER) (hx : 4096 ∣ x) (hT : x + 4096 ≤ T) (hfresh : ∀ j, x ∉ a.free j) :
    Shows (b.push_front k (b.vram_base + x)) (a.push k x) := by
  obtain ⟨h1, h2, h3, h4, h5⟩ := push_front_fields hs hp hk hx hT hfresh
  refine ⟨hs.page_order, fun j hj => ?_⟩
  rw [push_front_vram_base]
  by_cases hjk : j = k
  · subst hjk
    have hlist : (b.push_front j (b.vram_base + x)).free_list j = b.vram_base + x := by
      simp [BuddyAllocator.push_front]
    rw [hlist, FreeLists.push, FreeLists.setList_free_same, List.map_cons]
    refine (hs.lists j hj).push ?_ (hp.nodup_map j) h1 h2 h3 ?_ ?_
    · simpa using hfresh j
    · intro p hpm
      obtain ⟨y, hy, rfl⟩ := List.mem_map.mp hpm
      exact h4 j y hy
    · intro p hpm hne
      obtain ⟨y, hy, rfl⟩ := List.mem_map.mp hpm
      exact h5 j y hy hne
  · have hlist : (b.push_front k (b.vram_base + x)).free_list j = b.free_list j := by
      simp [BuddyAllocator.push_front, hjk]
    rw [hlist, FreeLists.push, FreeLists.setList_free_ne a _ hjk]
    refine (hs.lists j hj).congr ?_ ?_
    · intro p hpm
      obtain ⟨y, hy, rfl⟩ := List.mem_map.mp hpm
      exact h4 j y hy
    · intro p hpm
      obtain ⟨y, hy, rfl⟩ := List.mem_map.mp hpm
      refine h5 j y hy fun he => ?_
      obtain ⟨z, zs, hz⟩ := List.exists_cons_of_ne_nil
        ((hs.head_ne_zero_iff hp hk).mp (by have := hp.base_pos; omega))
      rw [hs.head_cons hk hz] at he
      obtain rfl : y = z := by omega
      exact hjk (hp.unique j k y hy (by simp [hz]))

/-! ## A node taken out -/

theorem unlink_vram_base (b : BuddyAllocator) (k temp : Nat) :
    (b.unlink k temp).vram_base = b.vram_base := by
  unfold BuddyAllocator.unlink
  simp only
  split <;> split <;> rfl

theorem unlink_page_order (b : BuddyAllocator) (k temp : Nat) :
    (b.unlink k temp).page_order = b.page_order := by
  unfold BuddyAllocator.unlink
  simp only
  split <;> split <;> rfl

/-- The neighbours of a node, as the memory holds them, are nodes of its list. -/
theorem Shows.neighbours (hs : Shows b a) (hp : Placed b.vram_base T a) {k t : Nat}
    (hk : k < BUDDY_MAX_ORDER) (ht : t ∈ a.free k) :
    (node_prev b.mem (b.vram_base + t) = 0 ∨
      ∃ x ∈ a.free k, x ≠ t ∧ node_prev b.mem (b.vram_base + t) = b.vram_base + x) ∧
    (node_next b.mem (b.vram_base + t) = 0 ∨
      ∃ x ∈ a.free k, x ≠ t ∧ node_next b.mem (b.vram_base + t) = b.vram_base + x) := by
  obtain ⟨as, bs, hab⟩ := List.append_of_mem ht
  have hnd := hp.nodup k
  rw [hab] at hnd
  have hl := (hs.lists k hk).2
  have ht0 : b.vram_base + t ≠ 0 := by
    have := hp.base_pos
    omega
  have hpos := hp.base_pos
  rw [hab, List.map_append, List.map_cons] at hl
  constructor
  · rcases List.eq_nil_or_concat as with rfl | ⟨as', x, rfl⟩
    · exact Or.inl (hl.2.1 ht0)
    · right
      refine ⟨x, by simp [hab], ?_, ?_⟩
      · rintro rfl
        simp [List.nodup_append] at hnd
      · have h2 : Linked (node_next b.mem) (node_prev b.mem)
            ((0 :: as'.map (b.vram_base + ·)) ++ (b.vram_base + x) ::
              ((b.vram_base + t) :: (bs.map (b.vram_base + ·) ++ [0]))) := by
          simpa using hl
        exact ((linked_append _ _ _).mp h2).2.2.1 ht0
  · have h2 : Linked (node_next b.mem) (node_prev b.mem)
        ((0 :: as.map (b.vram_base + ·)) ++ (b.vram_base + t) ::
          (bs.map (b.vram_base + ·) ++ [0])) := by
      simpa using hl
    have h3 := ((linked_append _ _ _).mp h2).2
    cases bs with
    | nil => exact Or.inl (h3.1 ht0)
    | cons x bs =>
      right
      refine ⟨x, by simp [hab], ?_, h3.1 ht0⟩
      rintro rfl
      simp [List.nodup_append] at hnd

/-- The memory after `unlink`: at most two writes, at the neighbours. -/
theorem unlink_mem (hs : Shows b a) (hp : Placed b.vram_base T a) {k t : Nat}
    (hk : k < BUDDY_MAX_ORDER) (ht : t ∈ a.free k) :
    let p := node_prev b.mem (b.vram_base + t)
    let n := node_next b.mem (b.vram_base + t)
    let m := if p ≠ 0 then set_next b.mem p n else b.mem
    (b.unlink k (b.vram_base + t)).mem = (if n ≠ 0 then set_prev m n p else m) ∧
    (b.unlink k (b.vram_base + t)).free_list =
      if p = 0 then Function.update b.free_list k n else b.free_list := by
  intro p n m
  have htp := (hp.page k t ht).1
  by_cases h0 : p = 0
  · have h0' : node_prev b.mem (b.vram_base + t) = 0 := h0
    simp only [m, n, h0, BuddyAllocator.unlink, h0', ne_eq, not_true_eq_false, if_true, if_false]
    split <;> exact ⟨rfl, rfl⟩
  · have h0' : node_prev b.mem (b.vram_base + t) ≠ 0 := h0
    obtain ⟨x, hx, hxt, hpx⟩ := (hs.neighbours hp hk ht).1.resolve_left h0
    have hap := apart_of_ne b.vram_base (hp.page k x hx).1 htp hxt
    have hn : node_next (set_next b.mem p n) (b.vram_base + t) = n := by
      rw [show p = b.vram_base + x from hpx]
      exact node_next_set_next_apart hap
    have hv : node_prev (set_next b.mem p n) (b.vram_base + t) = p := by
      rw [show p = b.vram_base + x from hpx, node_prev_set_next (Or.inr hap)]
      exact hpx
    simp only [p, n] at hn hv
    simp only [m, p, n, BuddyAllocator.unlink, if_pos h0', if_neg h0', hn, hv]
    split <;> exact ⟨rfl, rfl⟩

theorem unlink_outside (hs : Shows b a) (hp : Placed b.vram_base T a) {k t y : Nat}
    (hk : k < BUDDY_MAX_ORDER) (ht : t ∈ a.free k) (hy : ¬ NodeByte b.vram_base (a.free k) y) :
    (b.unlink k (b.vram_base + t)).mem y = b.mem y := by
  rw [(unlink_mem hs hp hk ht).1]
  obtain ⟨hprev, hnext⟩ := hs.neighbours hp hk ht
  have hout : ∀ q, (q = 0 ∨ ∃ x ∈ a.free k, x ≠ t ∧ q = b.vram_base + x) → q ≠ 0 →
      y < q ∨ q + 16 ≤ y := by
    intro q hq hq0
    obtain ⟨x, hx, -, rfl⟩ := hq.resolve_left hq0
    by_contra hc
    exact hy ⟨x, hx, by omega, by omega⟩
  split <;> split
  · rw [set_prev_outside (hout _ hnext ‹_›), set_next_outside (hout _ hprev ‹_›)]
  · rw [set_prev_outside (hout _ hnext ‹_›)]
  · rw [set_next_outside (hout _ hprev ‹_›)]
  · rfl

/-- The fields of the nodes after `unlink`. -/
theorem unlink_fields (hs : Shows b a) (hp : Placed b.vram_base T a) {k t : Nat}
    (hk : k < BUDDY_MAX_ORDER) (ht : t ∈ a.free k) :
    let p := node_prev b.mem (b.vram_base + t)
    let n := node_next b.mem (b.vram_base + t)
    let m := (b.unlink k (b.vram_base + t)).mem
    (p ≠ 0 → node_next m p = n) ∧ (n ≠ 0 → node_prev m n = p) ∧
    (∀ j y, y ∈ a.free j → b.vram_base + y ≠ p →
      node_next m (b.vram_base + y) = node_next b.mem (b.vram_base + y)) ∧
    ∀ j y, y ∈ a.free j → b.vram_base + y ≠ n →
      node_prev m (b.vram_base + y) = node_prev b.mem (b.vram_base + y) := by
  intro p n m
  have hfits := hp.fits
  obtain ⟨hprev, hnext⟩ := hs.neighbours hp hk ht
  -- A neighbour and a node of any list are the same node or do not overlap.
  have hcmp : ∀ q, (q = 0 ∨ ∃ x ∈ a.free k, x ≠ t ∧ q = b.vram_base + x) → q ≠ 0 →
      q < 2 ^ 64 ∧ ∀ j y, y ∈ a.free j →
        q = b.vram_base + y ∨ q + 16 ≤ b.vram_base + y ∨ b.vram_base + y + 16 ≤ q := by
    intro q hq hq0
    obtain ⟨x, hx, -, rfl⟩ := hq.resolve_left hq0
    have h1 := hp.page k x hx
    refine ⟨by omega, fun j y hy => ?_⟩
    have h2 := hp.page j y hy
    omega
  have hm : m = if n ≠ 0 then set_prev (if p ≠ 0 then set_next b.mem p n else b.mem) n p
      else (if p ≠ 0 then set_next b.mem p n else b.mem) := (unlink_mem hs hp hk ht).1
  have hnode : ∀ q, (q = 0 ∨ ∃ x ∈ a.free k, x ≠ t ∧ q = b.vram_base + x) → q ≠ 0 →
      ∃ x ∈ a.free k, q = b.vram_base + x := by
    intro q hq hq0
    obtain ⟨x, hx, -, hqx⟩ := hq.resolve_left hq0
    exact ⟨x, hx, hqx⟩
  have hn64 : n < 2 ^ 64 := node_next_lt _ _
  have hp64 : p < 2 ^ 64 := node_prev_lt _ _
  rw [hm]
  by_cases hp0 : p = 0 <;> by_cases hn0 : n = 0
  · simp [hp0, hn0]
  · simp only [hp0, hn0, ne_eq, not_true_eq_false, not_false_eq_true, if_true, if_false]
    have hc := (hcmp n hnext hn0).2
    refine ⟨fun h => h.elim, fun _ => ?_, fun j y hy _ => ?_, fun j y hy hne => ?_⟩
    · rw [node_prev_set_prev, Nat.zero_mod]
    · rw [node_next_set_prev (hc j y hy)]
    · rw [node_prev_set_prev_apart ((hc j y hy).resolve_left (Ne.symm hne))]
  · simp only [hp0, hn0, ne_eq, not_true_eq_false, not_false_eq_true, if_true, if_false]
    have hc := (hcmp p hprev hp0).2
    refine ⟨fun _ => ?_, fun h => h.elim, fun j y hy hne => ?_, fun j y hy _ => ?_⟩
    · rw [node_next_set_next, Nat.zero_mod]
    · rw [node_next_set_next_apart ((hc j y hy).resolve_left (Ne.symm hne))]
    · rw [node_prev_set_next (hc j y hy)]
  · simp only [hp0, hn0, ne_eq, not_false_eq_true, if_true]
    have hcp := (hcmp p hprev hp0).2
    have hcn := (hcmp n hnext hn0).2
    obtain ⟨x, hx, hpx⟩ := hnode p hprev hp0
    obtain ⟨z, hz, hnz⟩ := hnode n hnext hn0
    refine ⟨fun _ => ?_, fun _ => ?_, fun j y hy hne => ?_, fun j y hy hne => ?_⟩
    · rw [node_next_set_prev (by rw [hpx]; exact hcn k x hx), node_next_set_next,
        Nat.mod_eq_of_lt hn64]
    · rw [node_prev_set_prev, Nat.mod_eq_of_lt hp64]
    · rw [node_next_set_prev (hcn j y hy),
        node_next_set_next_apart ((hcp j y hy).resolve_left (Ne.symm hne))]
    · rw [node_prev_set_prev_apart ((hcn j y hy).resolve_left (Ne.symm hne)),
        node_prev_set_next (hcp j y hy)]

theorem unlink_shows (hs : Shows b a) (hp : Placed b.vram_base T a) {k t : Nat}
    (hk : k < BUDDY_MAX_ORDER) (ht : t ∈ a.free k) :
    Shows (b.unlink k (b.vram_base + t)) (a.setList k ((a.free k).erase t)) := by
  obtain ⟨h1, h2, h3, h4⟩ := unlink_fields hs hp hk ht
  have hlists := (unlink_mem hs hp hk ht).2
  refine ⟨(unlink_page_order b k _).trans hs.page_order, fun j hj => ?_⟩
  rw [unlink_vram_base, hlists]
  by_cases hjk : j = k
  · subst hjk
    obtain ⟨as, bs, hab⟩ := List.append_of_mem ht
    have hnd := hp.nodup j
    have htas : t ∉ as := by
      rw [hab, List.nodup_append] at hnd
      exact fun h => hnd.2.2 t h t (by simp) rfl
    have hmem : ∀ y ∈ as ++ bs, y ∈ a.free j := by
      intro y hy
      rw [hab]
      simp only [List.mem_append, List.mem_cons] at hy ⊢
      tauto
    have herase : (a.free j).erase t = as ++ bs := by
      rw [hab, List.erase_append_right _ htas, List.erase_cons_head]
    have hl := hs.lists j hj
    have hmap : (a.free j).map (b.vram_base + ·) =
        as.map (b.vram_base + ·) ++ (b.vram_base + t) :: bs.map (b.vram_base + ·) := by
      rw [hab, List.map_append, List.map_cons]
    rw [FreeLists.setList_free_same, herase, List.map_append]
    rw [hmap] at hl
    refine hl.unlink ?_ ?_ ?_ h1 h2 ?_ ?_
    · rw [← hmap]
      exact hp.nodup_map j
    · rw [← hmap]
      exact hp.ne_zero
    · split <;> simp
    · intro q hq hne
      rw [← List.map_append] at hq
      obtain ⟨y, hy, rfl⟩ := List.mem_map.mp hq
      exact h3 j y (hmem y hy) hne
    · intro q hq hne
      rw [← List.map_append] at hq
      obtain ⟨y, hy, rfl⟩ := List.mem_map.mp hq
      exact h4 j y (hmem y hy) hne
  · have hl : (if node_prev b.mem (b.vram_base + t) = 0 then
        Function.update b.free_list k (node_next b.mem (b.vram_base + t)) else b.free_list) j =
        b.free_list j := by
      split
      · simp [hjk]
      · rfl
    rw [hl, FreeLists.setList_free_ne a _ hjk]
    -- The neighbours are nodes of list `k`, so no node of list `j` changes.
    have hother : ∀ q, (q = 0 ∨ ∃ x ∈ a.free k, x ≠ t ∧ q = b.vram_base + x) →
        ∀ y ∈ a.free j, b.vram_base + y ≠ q := by
      rintro q (rfl | ⟨x, hx, -, rfl⟩) y hy he
      · have := hp.base_pos
        omega
      · obtain rfl : y = x := by omega
        exact hjk (hp.unique j k y hy hx)
    obtain ⟨hprev, hnext⟩ := hs.neighbours hp hk ht
    refine (hs.lists j hj).congr ?_ ?_
    · intro q hq
      obtain ⟨y, hy, rfl⟩ := List.mem_map.mp hq
      exact h3 j y hy (hother _ hprev y hy)
    · intro q hq
      obtain ⟨y, hy, rfl⟩ := List.mem_map.mp hq
      exact h4 j y hy (hother _ hnext y hy)

/-- The head is taken off as any other node is taken out. -/
theorem pop_front_eq (hs : Shows b a) {i : Nat}
    (hi : i < BUDDY_MAX_ORDER) (h0 : b.free_list i ≠ 0) :
    b.pop_front i = b.unlink i (b.free_list i) := by
  have hprev := (hs.lists i hi).prev_head h0
  unfold BuddyAllocator.pop_front BuddyAllocator.unlink
  simp only [hprev, ne_eq, not_true_eq_false, if_false]
  split <;> rfl

/-! ## The search of a list -/

/-- The search of a list ends, and finds an address just when it is a node. -/
theorem search_loop_eq {m : Mem} {p v n : Nat} {xs : List Nat} (h : Sll (node_next m) p xs)
    (hn : xs.length < n) : search_loop m v n p = some (if v ∈ xs then v else 0) := by
  induction xs generalizing p n with
  | nil =>
    obtain ⟨n, rfl⟩ : ∃ n', n = n' + 1 := ⟨n - 1, by simp at hn; omega⟩
    obtain rfl : p = 0 := h
    simp [search_loop]
  | cons x xs ih =>
    obtain ⟨n, rfl⟩ : ∃ n', n = n' + 1 := ⟨n - 1, by simp at hn; omega⟩
    obtain ⟨rfl, h0, hrest⟩ := h
    unfold search_loop
    rw [if_neg h0]
    by_cases hx : p = v
    · subst hx
      simp
    · rw [if_neg hx, ih hrest (by simp at hn; omega)]
      simp [Ne.symm hx]

end

end gpgpu.buddy
