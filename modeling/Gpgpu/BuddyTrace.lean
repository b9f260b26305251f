-- The calls of `buddy_free` one by one, and an allocation that is taken back. A call either
-- puts its block back or merges it and calls itself one order higher. A pair of an alloc and
-- the free of its block leaves no trace that a later call could see.
import Gpgpu.BuddyLaws

open memory dyadic links runs

namespace gpgpu.buddy

open BuddyAllocator

variable {T : Nat} {L : Set Block} {b b' : BuddyAllocator} {a : FreeLists} {s t : State} {x k n turns : Nat}

/-! ## The calls of `buddy_free` -/

/-- The calls of `buddy_free` down to the last, with their orders. No search of a call takes
more than `turns` turns. -/
inductive Nested (turns : Nat) : BuddyAllocator → Nat → List Nat → BuddyAllocator → Prop
  | last {b b' : BuddyAllocator} {offset : Nat} (h : free_level turns b offset = some (b', none)) :
      Nested turns b offset [order_at b offset] b'
  | call {b b1 b' : BuddyAllocator} {offset offset' : Nat} {orders : List Nat}
      (h : free_level turns b offset = some (b1, some offset'))
      (hrest : Nested turns b1 offset' orders b') :
      Nested turns b offset (order_at b offset :: orders) b'

/-- A search that ends takes no longer when it may. -/
theorem search_loop_mono {m : Mem} {v p r n' : Nat} (h : search_loop m v n p = some r) (hn : n ≤ n') :
    search_loop m v n' p = some r := by
  induction n generalizing p n' with
  | zero => cases h
  | succ n ih =>
    obtain ⟨n', rfl⟩ : ∃ n'', n' = n'' + 1 := ⟨n' - 1, by omega⟩
    rw [search_loop] at h ⊢
    split
    · rwa [if_pos ‹_›] at h
    · rw [if_neg ‹_›] at h
      split
      · rwa [if_pos ‹_›] at h
      · rw [if_neg ‹_›] at h
        exact ih h (by omega)

theorem free_level_mono {turns' : Nat} {r : BuddyAllocator × Option Nat}
    (h : free_level turns b x = some r) (hturns : turns ≤ turns') : free_level turns' b x = some r := by
  unfold free_level at h ⊢
  simp only [Option.bind_eq_bind, Option.bind_eq_some_iff] at h ⊢
  obtain ⟨o, ho, list, hlist, temp, htemp, hrest⟩ := h
  exact ⟨o, ho, list, hlist, temp, search_loop_mono htemp hturns, hrest⟩

theorem Nested.mono {turns' : Nat} {orders : List Nat} (h : Nested turns b x orders b')
    (hturns : turns ≤ turns') : Nested turns' b x orders b' := by
  induction h with
  | last h => exact .last (free_level_mono h hturns)
  | call h _ ih => exact .call (free_level_mono h hturns) ih

theorem Nested.calls {orders : List Nat} (h : Nested SEARCH_TURNS b x orders b')
    (hn : orders.length ≤ n) : buddy_free_calls n b x = some b' := by
  induction h generalizing n with
  | last h =>
    obtain ⟨n, rfl⟩ : ∃ n', n = n' + 1 := ⟨n - 1, by simp at hn; omega⟩
    rw [buddy_free_calls_succ, h]
    rfl
  | call h _ ih =>
    obtain ⟨n, rfl⟩ : ∃ n', n = n' + 1 := ⟨n - 1, by simp at hn; omega⟩
    rw [buddy_free_calls_succ, h]
    exact ih (by simpa using hn)

/-- A list has at most one node for each page. -/
theorem Tiled.length_le_pages (h : Tiled T L a) (hT : T ≤ 2 ^ 32) (k : Nat) :
    (a.free k).length ≤ BUDDY_TOTAL_PAGES := by
  have hpages : ((a.free k).map (· / PAGE_SIZE)).Nodup := by
    refine List.Nodup.map_on (fun x hx y hy he => ?_) (h.nodup k)
    have hx' := h.page_dvd (blk_free hx)
    have hy' := h.page_dvd (blk_free hy)
    unfold PAGE_SIZE at he
    omega
  have hsub : ((a.free k).map (· / PAGE_SIZE)).toFinset ⊆ Finset.range BUDDY_TOTAL_PAGES := by
    intro p hp
    obtain ⟨x, hx, rfl⟩ := List.mem_map.mp (List.mem_toFinset.mp hp)
    exact Finset.mem_range.mpr (page_lt (h.page_fits (blk_free hx)) hT)
  have hcard := Finset.card_le_card hsub
  rwa [List.toFinset_card_of_nodup hpages, Finset.card_range, List.length_map] at hcard

/-- The calls for a live block: the orders go up by one, and end inside the lists. -/
theorem Holds.nested (h : Holds T L b a) (hT : T ≤ 2 ^ 32) (hx : blk x k ∈ L)
    (ho : (a.page_order (x / PAGE_SIZE)).toNat = k) (hturns : BUDDY_TOTAL_PAGES < turns) :
    ∃ orders b', Nested turns b x orders b' ∧ orders = List.range' k orders.length ∧
      k + orders.length ≤ BUDDY_MAX_ORDER := by
  have hat : order_at b x = k := by rw [order_at, h.shows.page_order, ho]
  -- The orders that are left go down by one with each call.
  induction hleft : BUDDY_MAX_ORDER - k generalizing b a x k L with
  | zero =>
    have := h.tiled.order_lt (Or.inr hx)
    omega
  | succ left ih =>
    have hk := h.tiled.order_lt (Or.inr hx)
    have hlen := Nat.lt_of_le_of_lt (h.tiled.length_le_pages hT k) hturns
    by_cases hy : x ^^^ 2 ^ (k + 12) ∈ a.free k
    · obtain ⟨b1, hlevel, hb1, hord, -, -⟩ := h.level_merge hT hx ho hlen hy
      have hat1 : order_at b1 (min x (x ^^^ 2 ^ (k + 12))) = k + 1 := by
        rw [order_at, hb1.shows.page_order, hord]
      obtain ⟨orders, b', hnested, hrange, hend⟩ := ih hb1 (Or.inl rfl) hord hat1 (by omega)
      have hcall := Nested.call hlevel hnested
      rw [hat] at hcall
      refine ⟨k :: orders, b', hcall, ?_, ?_⟩
      · rw [List.length_cons, List.range'_succ, ← hrange]
      · rw [List.length_cons]
        omega
    · have hlast := Nested.last (h.level_last hT hx ho hlen hy)
      rw [hat] at hlast
      refine ⟨[k], _, hlast, rfl, ?_⟩
      rw [List.length_singleton]
      omega

/-- A free of a live block ends. Each call of itself has an order one higher than the call
before, the last order is at most 20, and no search takes more turns than there are pages. -/
theorem a_free_climbs_inside_the_lists (mem : Mem) {base size : Nat} (hr : Region base size)
    (hsize : size ≤ 2 ^ 32) (calls : List Call) (hs : run step (start mem base size) calls = some s)
    (hlive : (x, k) ∈ s.live) :
    ∃ orders b', Nested (BUDDY_TOTAL_PAGES + 1) s.allocator x orders b' ∧
      buddy_free s.allocator x = some b' ∧ orders = List.range' k orders.length ∧
      ∀ order ∈ orders, order ≤ 20 := by
  obtain ⟨s', a, hs', h⟩ := run_inv mem hr hsize calls
  obtain rfl := Option.some.inj (hs.symm.trans hs')
  have hT : size / PAGE_SIZE * PAGE_SIZE ≤ 2 ^ 32 :=
    Nat.le_trans (Nat.div_mul_le_self size PAGE_SIZE) hsize
  obtain ⟨orders, b', hnested, hrange, hend⟩ :=
    h.holds.nested hT ⟨_, hlive, rfl⟩ (h.orders _ hlive) (Nat.lt_succ_self _)
  have hmax : BUDDY_MAX_ORDER = 21 := rfl
  refine ⟨orders, b', hnested, ?_, hrange, fun order ho => ?_⟩
  · exact (hnested.mono (by decide)).calls (by omega)
  · rw [hrange, List.mem_range'_1] at ho
    omega

/-- Both halves of a block come back: the second free has two calls. -/
theorem two_halves_merge : ∃ s orders b', run step (start (fun _ => 0) 4096 8192)
      [.alloc 4096, .alloc 4096, .free 0] = some s ∧
    Nested (BUDDY_TOTAL_PAGES + 1) s.allocator 4096 orders b' ∧
      buddy_free s.allocator 4096 = some b' ∧ orders = List.range' 0 orders.length ∧
      ∀ order ∈ orders, order ≤ 20 := by
  have hlive : (run step (start (fun _ => 0) 4096 8192) [.alloc 4096, .alloc 4096, .free 0]).map
      State.live = some [(4096, 0)] := by decide +kernel
  obtain ⟨s, hs, hlive⟩ := Option.map_eq_some_iff.mp hlive
  obtain ⟨orders, b', hall⟩ := a_free_climbs_inside_the_lists _ ⟨by decide, by decide⟩ (by decide) _ hs
    (by rw [hlive]; exact List.mem_singleton_self _)
  exact ⟨s, orders, b', hs, hall⟩

/-! ## An allocation taken back -/

/-- What a call returns. A free returns 0. -/
def answer (s : State) : Call → Option Nat
  | .alloc alloc_size => (buddy_alloc s.allocator alloc_size).map Prod.fst
  | .free offset => (step s (.free offset)).map fun _ => 0

/-- What the calls return, one after the other. -/
def answers : State → List Call → Option (List Nat)
  | _, [] => some []
  | s, c :: calls => do
    let r ← answer s c
    let s' ← step s c
    let rs ← answers s' calls
    return r :: rs

/-- Two states with the same lists, in the same order, and the same live blocks. The order
tables may differ where nothing is live. -/
def Twins (T : Nat) (s t : State) : Prop :=
  ∃ a a', Inv T s a ∧ Inv T t a' ∧ a.free = a'.free ∧ s.live = t.live

theorem FreeLists.splitDown_free_congr {a a' : FreeLists} (h : a.free = a'.free) (x k i : Nat) :
    (a.splitDown x k i).free = (a'.splitDown x k i).free := by
  induction i generalizing a a' with
  | zero => exact h
  | succ i ih =>
    unfold splitDown
    split
    · exact ih (by simp [push, setList, h])
    · exact h

/-- The lists decide what an allocation takes and leaves on them. -/
theorem FreeLists.alloc_free_congr {a a' : FreeLists} (h : a.free = a'.free) (k : Nat) :
    (a.alloc k).map (fun r => (r.1, r.2.free)) = (a'.alloc k).map (fun r => (r.1, r.2.free)) := by
  have hfirst : a.firstList k = a'.firstList k := by rw [firstList, firstList, h]
  unfold alloc
  rw [hfirst, h]
  cases a'.free (a'.firstList k) with
  | nil => rfl
  | cons x xs =>
    dsimp only
    split
    · have hset : (a.setList (a'.firstList k) xs).free = (a'.setList (a'.firstList k) xs).free := by
        simp [setList, h]
      simp only [Option.map_some, setOrder_free, splitDown_free_congr hset]
    · rfl

/-- Twins give the same answer and stay twins. -/
theorem Twins.step (hT : T ≤ 2 ^ 32) (h : Twins T s t) (c : Call) :
    ∃ r s' t', answer s c = some r ∧ answer t c = some r ∧ buddy.step s c = some s' ∧
      buddy.step t c = some t' ∧ Twins T s' t' := by
  obtain ⟨a, a', hs, ht, hfree, hlive⟩ := h
  cases c with
  | alloc n =>
    obtain ⟨hfail, hsome⟩ := hs.alloc_spec hT n
    obtain ⟨hfail', hsome'⟩ := ht.alloc_spec hT n
    have hcongr := FreeLists.alloc_free_congr hfree (order_of n)
    have hk := order_of_le n
    by_cases hnone : order_of n = BUDDY_MAX_ORDER ∨ a.alloc (order_of n) = none
    · have hnone' : order_of n = BUDDY_MAX_ORDER ∨ a'.alloc (order_of n) = none := by
        refine hnone.imp_right fun hn => ?_
        rw [hn] at hcongr
        exact Option.map_eq_none_iff.mp hcongr.symm
      refine ⟨NO_OFFSET, s, t, ?_, ?_, ?_, ?_, a, a', hs, ht, hfree, hlive⟩
      · simp [answer, hfail hnone]
      · simp [answer, hfail' hnone']
      · simp [buddy.step, hfail hnone]
      · simp [buddy.step, hfail' hnone']
    · obtain ⟨hlt, hne⟩ := not_or.mp hnone
      obtain ⟨⟨x, a1⟩, ha⟩ := Option.ne_none_iff_exists'.mp hne
      rw [ha] at hcongr
      obtain ⟨⟨x', a1'⟩, ha', he⟩ := Option.map_eq_some_iff.mp hcongr.symm
      obtain ⟨rfl, hfree1⟩ := Prod.mk.inj he
      obtain ⟨hx, b, hb, hinv⟩ := hsome _ a1 (by omega) ha
      obtain ⟨-, b', hb', hinv'⟩ := hsome' _ a1' (by omega) ha'
      refine ⟨x', _, _, ?_, ?_, ?_, ?_, a1, a1', hinv, hinv', hfree1.symm, by rw [hlive]⟩
      · simp [answer, hb]
      · simp [answer, hb']
      · simp [buddy.step, hb, hx]
      · simp [buddy.step, hb', hx]
  | free x =>
    cases hfind : s.live.find? (·.1 = x) with
    | none =>
      have hfind' := hlive ▸ hfind
      refine ⟨0, s, t, ?_, ?_, ?_, ?_, a, a', hs, ht, hfree, hlive⟩ <;>
        simp [answer, buddy.step, hfind, hfind']
    | some c =>
      obtain ⟨y, k⟩ := c
      have hfind' := hlive ▸ hfind
      obtain rfl : y = x := by simpa using List.find?_some hfind
      obtain ⟨b, hb, hinv⟩ := hs.free_spec hT (List.mem_of_find?_eq_some hfind)
      obtain ⟨b', hb', hinv'⟩ := ht.free_spec hT (List.mem_of_find?_eq_some hfind')
      refine ⟨0, ⟨b, s.live.erase (y, k)⟩, ⟨b', t.live.erase (y, k)⟩, ?_, ?_, ?_, ?_, _, _, hinv,
        hinv', FreeLists.release_free_congr hfree _ _ _, by rw [hlive]⟩
      · simp [answer, buddy.step, hfind, hb]
      · simp [answer, buddy.step, hfind', hb']
      · simp [buddy.step, hfind, hb]
      · simp [buddy.step, hfind', hb']

theorem Twins.answers (hT : T ≤ 2 ^ 32) (h : Twins T s t) (calls : List Call) :
    ∃ rs, buddy.answers s calls = some rs ∧ buddy.answers t calls = some rs := by
  induction calls generalizing s t with
  | nil => exact ⟨[], rfl, rfl⟩
  | cons c calls ih =>
    obtain ⟨r, s', t', hr, hr', hs', ht', htwins⟩ := h.step hT c
    obtain ⟨rs, hrs, hrs'⟩ := ih htwins
    refine ⟨r :: rs, ?_, ?_⟩
    · simp [buddy.answers, hr, hs', hrs]
    · simp [buddy.answers, hr', ht', hrs']

/-- An alloc that is taken back at once leaves every free list as it was, in its order, and
every later run of calls gets the same answers as without the pair. -/
theorem an_alloc_taken_back_leaves_no_trace (mem : Mem) {base size : Nat} (hr : Region base size)
    (hsize : size ≤ 2 ^ 32) (calls : List Call) (hs : run step (start mem base size) calls = some s)
    {offset : Nat} (halloc : buddy_alloc s.allocator n = some (offset, b)) (hoff : offset ≠ NO_OFFSET) :
    ∃ b', buddy_free b offset = some b' ∧
      (∀ k < BUDDY_MAX_ORDER, listed b' k = listed s.allocator k) ∧
      ∀ later, ∃ rs, answers s later = some rs ∧ answers ⟨b', s.live⟩ later = some rs := by
  obtain ⟨s', a, hs', h⟩ := run_inv mem hr hsize calls
  obtain rfl := Option.some.inj (hs.symm.trans hs')
  have hT : size / PAGE_SIZE * PAGE_SIZE ≤ 2 ^ 32 :=
    Nat.le_trans (Nat.div_mul_le_self size PAGE_SIZE) hsize
  obtain ⟨hfail, hsome⟩ := h.alloc_spec hT n
  have hk := order_of_le n
  by_cases hnone : order_of n = BUDDY_MAX_ORDER ∨ a.alloc (order_of n) = none
  · rw [hfail hnone] at halloc
    cases halloc
    exact absurd rfl hoff
  · obtain ⟨hlt, hne⟩ := not_or.mp hnone
    obtain ⟨⟨x, a1⟩, ha⟩ := Option.ne_none_iff_exists'.mp hne
    obtain ⟨-, b1, hb1, hinv1⟩ := hsome x a1 (by omega) ha
    rw [hb1] at halloc
    cases halloc
    obtain ⟨b', hb', hinv⟩ := hinv1.free_spec hT (List.mem_cons_self ..)
    rw [List.erase_cons_head] at hinv
    have hback := h.holds.tiled.release_alloc (n := BUDDY_MAX_ORDER + 1) hk (by omega) ha
    refine ⟨b', hb', fun k hk => ?_, fun later => ?_⟩
    · rw [hinv.holds.listed_eq hk, h.holds.listed_eq hk, hback]
    · exact Twins.answers hT ⟨_, _, h, hinv, hback.symm, rfl⟩ later

/-- A page of two taken back, with the other one live. -/
theorem a_page_taken_back : ∃ s b b', run step (start (fun _ => 0) 4096 8192) [.alloc 4096] = some s ∧
    buddy_alloc s.allocator 100 = some (4096, b) ∧ buddy_free b 4096 = some b' ∧
      (∀ k < BUDDY_MAX_ORDER, listed b' k = listed s.allocator k) ∧
      ∀ later, ∃ rs, answers s later = some rs ∧ answers ⟨b', s.live⟩ later = some rs := by
  have hrun : ((run step (start (fun _ => 0) 4096 8192) [.alloc 4096]).bind fun s =>
      (buddy_alloc s.allocator 100).map Prod.fst) = some 4096 := by decide +kernel
  obtain ⟨s, hs, halloc⟩ := Option.bind_eq_some_iff.mp hrun
  obtain ⟨⟨offset, b⟩, halloc, hoff⟩ := Option.map_eq_some_iff.mp halloc
  obtain rfl : offset = 4096 := hoff
  obtain ⟨b', hall⟩ := an_alloc_taken_back_leaves_no_trace _ ⟨by decide, by decide⟩ (by decide) _ hs
    halloc (by decide)
  exact ⟨s, b, b', hs, halloc, hall⟩

end gpgpu.buddy
