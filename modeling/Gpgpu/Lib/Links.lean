-- Linked lists as the nodes and the two functions that their link fields
-- give. A link of 0 is the null pointer. An edit of a list touches the links
-- of at most two nodes, so each law below names just those.
import Mathlib

namespace links

variable {nxt nxt' prv prv' : Nat → Nat}

/-- Each two neighbours point at each other. A 0 at either end stands for the
end of the list and has no fields. -/
def Linked (nxt prv : Nat → Nat) : List Nat → Prop
  | x :: y :: rest => (x ≠ 0 → nxt x = y) ∧ (y ≠ 0 → prv y = x) ∧ Linked nxt prv (y :: rest)
  | _ => True

/-- The doubly linked list with head pointer `p` and nodes `xs`. -/
def Dll (nxt prv : Nat → Nat) (p : Nat) (xs : List Nat) : Prop :=
  p = xs.headD 0 ∧ Linked nxt prv (0 :: (xs ++ [0]))

/-- The singly linked list with head pointer `p` and nodes `xs`. -/
def Sll (nxt : Nat → Nat) : Nat → List Nat → Prop
  | p, [] => p = 0
  | p, x :: xs => p = x ∧ x ≠ 0 ∧ Sll nxt (nxt x) xs

/-- The nodes that a walk from `p` meets in at most `n` turns. -/
def walk (nxt : Nat → Nat) : Nat → Nat → List Nat
  | 0, _ => []
  | n + 1, p => if p = 0 then [] else p :: walk nxt n (nxt p)

/-! ## The links of a list -/

theorem linked_append (as : List Nat) (x : Nat) (bs : List Nat) :
    Linked nxt prv (as ++ x :: bs) ↔ Linked nxt prv (as ++ [x]) ∧ Linked nxt prv (x :: bs) := by
  induction as with
  | nil => simp [Linked]
  | cons a as ih =>
    cases as with
    | nil => simp [Linked, and_assoc]
    | cons b as =>
      simp only [List.cons_append, Linked] at ih ⊢
      rw [ih]
      simp only [and_assoc]

/-- The links of a list hold in every memory with the same fields: the next
node of all but the last, and the node before of all but the first. -/
theorem Linked.congr {l : List Nat} (h : Linked nxt prv l)
    (hn : ∀ x ∈ l.dropLast, x ≠ 0 → nxt' x = nxt x) (hp : ∀ x ∈ l.tail, x ≠ 0 → prv' x = prv x) :
    Linked nxt' prv' l := by
  induction l with
  | nil => trivial
  | cons x l ih =>
    cases l with
    | nil => trivial
    | cons y l =>
      obtain ⟨h1, h2, h3⟩ := h
      refine ⟨fun hx => ?_, fun hy => ?_, ih h3 (fun z hz => hn z ?_) (fun z hz => hp z ?_)⟩
      · rw [hn x (by simp) hx, h1 hx]
      · rw [hp y (by simp) hy, h2 hy]
      · simp only [List.dropLast_cons_cons, List.mem_cons]
        exact Or.inr hz
      · simp only [List.tail_cons, List.mem_cons] at hz ⊢
        exact Or.inr hz

theorem Dll.congr {p : Nat} {xs : List Nat} (h : Dll nxt prv p xs)
    (hn : ∀ x ∈ xs, nxt' x = nxt x) (hp : ∀ x ∈ xs, prv' x = prv x) : Dll nxt' prv' p xs := by
  refine ⟨h.1, h.2.congr ?_ ?_⟩
  · intro x hx hx0
    rw [← List.cons_append, List.dropLast_concat] at hx
    rcases List.mem_cons.mp hx with h0 | h0
    · exact absurd h0 hx0
    · exact hn x h0
  · intro x hx hx0
    simp only [List.tail_cons, List.mem_append, List.mem_singleton] at hx
    rcases hx with h0 | h0
    · exact hp x h0
    · exact absurd h0 hx0

theorem dll_nil (nxt prv : Nat → Nat) : Dll nxt prv 0 [] := ⟨rfl, by simp [Linked]⟩

/-- The head of a list points at nothing before it. -/
theorem Dll.prev_head {p : Nat} {xs : List Nat} (h : Dll nxt prv p xs) (hp : p ≠ 0) :
    prv p = 0 := by
  obtain ⟨h1, h2⟩ := h
  cases xs with
  | nil => exact absurd h1 hp
  | cons x xs =>
    simp only [List.headD_cons] at h1
    subst h1
    exact h2.2.1 hp

/-- A null head pointer is an empty list, when no node is null. -/
theorem Dll.head_eq_zero_iff {p : Nat} {xs : List Nat} (h : Dll nxt prv p xs)
    (h0 : ∀ x ∈ xs, x ≠ 0) : p = 0 ↔ xs = [] := by
  rw [h.1]
  cases xs with
  | nil => simp
  | cons x xs => simpa using h0 x (by simp)

/-! ## Three edits of a doubly linked list -/

/-- A new node before the head: its two fields, and the field of the old head. -/
theorem Dll.push {p n : Nat} {xs : List Nat} (h : Dll nxt prv p xs) (hn : n ∉ xs)
    (hnd : xs.Nodup) (h1 : prv' n = 0) (h2 : nxt' n = p) (h3 : p ≠ 0 → prv' p = n)
    (hnx : ∀ x ∈ xs, nxt' x = nxt x) (hpx : ∀ x ∈ xs, x ≠ p → prv' x = prv x) :
    Dll nxt' prv' n (n :: xs) := by
  obtain ⟨hh, hl⟩ := h
  refine ⟨rfl, fun h0 => absurd rfl h0, fun _ => h1, ?_⟩
  cases xs with
  | nil =>
    refine ⟨fun _ => ?_, fun h0 => absurd rfl h0, trivial⟩
    rw [h2, hh]
    rfl
  | cons x xs =>
    simp only [List.headD_cons] at hh
    subst hh
    have hrest : Linked nxt prv (p :: xs ++ [0]) := hl.2.2
    refine ⟨fun _ => h2, h3, hrest.congr ?_ ?_⟩
    · intro y hy _
      rw [List.dropLast_concat] at hy
      exact hnx y hy
    · intro y hy hy0
      simp only [List.cons_append, List.tail_cons, List.mem_append, List.mem_singleton] at hy
      rcases hy with hy | hy
      · refine hpx y (List.mem_cons_of_mem _ hy) ?_
        rintro rfl
        exact (List.nodup_cons.mp hnd).1 hy
      · exact absurd hy hy0

/-- A node taken out: the field of the node before it and of the node after it. -/
theorem Linked.unlink {as bs : List Nat} {x t z : Nat}
    (h : Linked nxt prv (as ++ x :: t :: z :: bs)) (ht : t ≠ 0)
    (h1 : x ≠ 0 → nxt' x = nxt t) (h2 : z ≠ 0 → prv' z = prv t)
    (hn : ∀ y ∈ as ++ (z :: bs).dropLast, y ≠ 0 → nxt' y = nxt y)
    (hp : ∀ y ∈ (as ++ [x]).tail ++ bs, y ≠ 0 → prv' y = prv y) :
    Linked nxt' prv' (as ++ x :: z :: bs) := by
  rw [linked_append] at h ⊢
  obtain ⟨hpre, -, hxt, htz, -, hpost⟩ := h
  refine ⟨hpre.congr ?_ ?_, fun hx => ?_, fun hz => ?_, hpost.congr ?_ ?_⟩
  · intro y hy hy0
    rw [List.dropLast_concat] at hy
    exact hn y (List.mem_append_left _ hy) hy0
  · exact fun y hy hy0 => hp y (List.mem_append_left _ hy) hy0
  · rw [h1 hx, htz ht]
  · rw [h2 hz, hxt ht]
  · exact fun y hy hy0 => hn y (List.mem_append_right _ hy) hy0
  · exact fun y hy hy0 => hp y (List.mem_append_right _ hy) hy0

/-- A list with the node `t` taken out, when the node before `t` (or the head
pointer) takes the next node of `t` and the next node takes the node before. -/
theorem Dll.unlink {as bs : List Nat} {t p p' : Nat} (h : Dll nxt prv p (as ++ t :: bs))
    (hnd : (as ++ t :: bs).Nodup) (h0 : ∀ x ∈ as ++ t :: bs, x ≠ 0)
    (hp' : p' = if prv t = 0 then nxt t else p)
    (h1 : prv t ≠ 0 → nxt' (prv t) = nxt t) (h2 : nxt t ≠ 0 → prv' (nxt t) = prv t)
    (hn : ∀ y ∈ as ++ bs, y ≠ prv t → nxt' y = nxt y)
    (hp : ∀ y ∈ as ++ bs, y ≠ nxt t → prv' y = prv y) : Dll nxt' prv' p' (as ++ bs) := by
  obtain ⟨as0, x, hx⟩ : ∃ as0 x, 0 :: as = as0 ++ [x] :=
    ⟨(0 :: as).dropLast, (0 :: as).getLast (by simp), (List.dropLast_append_getLast (by simp)).symm⟩
  obtain ⟨z, bs0, hz⟩ : ∃ z bs0, bs ++ [0] = z :: bs0 := by
    cases bs with
    | nil => exact ⟨0, [], rfl⟩
    | cons b bs => exact ⟨b, bs ++ [0], rfl⟩
  have ht : t ≠ 0 := h0 t (by simp)
  have hsplit : ∀ l, 0 :: (as ++ l ++ bs ++ [0]) = as0 ++ x :: (l ++ z :: bs0) := by
    intro l
    calc 0 :: (as ++ l ++ bs ++ [0]) = (0 :: as) ++ l ++ (bs ++ [0]) := by simp
      _ = as0 ++ x :: (l ++ z :: bs0) := by rw [hx, hz]; simp
  have hl : Linked nxt prv (as0 ++ x :: t :: z :: bs0) := by
    have h' := h.2
    rw [show as ++ t :: bs ++ [0] = as ++ [t] ++ bs ++ [0] by simp, hsplit [t]] at h'
    exact h'
  have hmid := ((linked_append as0 x (t :: z :: bs0)).mp hl).2
  have hprv : prv t = x := hmid.2.1 ht
  have hnxt : nxt t = z := hmid.2.2.1 ht
  rw [hprv] at hp' h1 hn h2
  rw [hnxt] at hp' h1 hp h2
  have hpre : ∀ y ∈ as0 ++ [x], y ≠ 0 → y ∈ as := by
    intro y hy hy0
    rw [← hx] at hy
    exact (List.mem_cons.mp hy).resolve_left hy0
  have hpost : ∀ y ∈ z :: bs0, y ≠ 0 → y ∈ bs := by
    intro y hy hy0
    rw [← hz, List.mem_append, List.mem_singleton] at hy
    exact hy.resolve_right hy0
  have hbs : (z :: bs0).dropLast = bs := by rw [← hz, List.dropLast_concat]
  have hnd' := List.nodup_append.mp hnd
  have hx' : x ∉ as0 := by
    have has : (as0 ++ [x]).Nodup := by
      rw [← hx]
      exact List.nodup_cons.mpr ⟨fun hm => h0 0 (List.mem_append_left _ hm) rfl, hnd'.1⟩
    exact fun hm => (List.nodup_append.mp has).2.2 x hm x (by simp) rfl
  have hz' : z ∉ bs0 := by
    have hbs' : (z :: bs0).Nodup := by
      rw [← hz]
      refine List.nodup_append.mpr ⟨(List.nodup_cons.mp hnd'.2.1).2, List.nodup_singleton 0, ?_⟩
      intro a ha b hb hab
      rw [List.mem_singleton] at hb
      exact h0 a (List.mem_append_right _ (List.mem_cons_of_mem _ ha)) (hab.trans hb)
    exact (List.nodup_cons.mp hbs').1
  refine ⟨?_, ?_⟩
  · rw [hp']
    cases as with
    | nil =>
      have hx0 : x = 0 := by
        cases as0 with
        | nil => simpa using hx.symm
        | cons a as0 => simp at hx
      rw [if_pos hx0]
      cases bs with
      | nil => simpa using (List.cons.inj hz).1.symm
      | cons b bs => simpa using (List.cons.inj hz).1.symm
    | cons a as =>
      have hxm : x ∈ a :: as := by
        cases as0 with
        | nil => simp at hx
        | cons b as0 =>
          rw [List.cons_append, List.cons.injEq] at hx
          rw [hx.2]
          simp
      rw [if_neg (h0 x (List.mem_append_left _ hxm)), h.1]
      rfl
  · have hgoal := hsplit []
    rw [List.append_nil] at hgoal
    rw [hgoal]
    refine hl.unlink ht (fun hx0 => ?_) (fun hz0 => ?_) ?_ ?_
    · rw [h1 hx0, hnxt]
    · rw [h2 hz0, hprv]
    · intro y hy hy0
      rw [hbs] at hy
      rcases List.mem_append.mp hy with hy | hy
      · have hya := hpre y (List.mem_append_left _ hy) hy0
        refine hn y (List.mem_append_left _ hya) ?_
        rintro rfl
        exact hx' hy
      · refine hn y (List.mem_append_right _ hy) ?_
        rintro rfl
        exact hnd'.2.2 y (hpre y (by simp) hy0) y (List.mem_cons_of_mem _ hy) rfl
    · intro y hy hy0
      rcases List.mem_append.mp hy with hy | hy
      · have hya := hpre y (List.mem_of_mem_tail hy) hy0
        refine hp y (List.mem_append_left _ hya) ?_
        rintro rfl
        exact hnd'.2.2 y hya y (List.mem_cons_of_mem _ (hpost y (by simp) hy0)) rfl
      · refine hp y (List.mem_append_right _ (hpost y (List.mem_cons_of_mem _ hy) hy0)) ?_
        rintro rfl
        exact hz' hy

/-! ## Singly linked lists -/

theorem Dll.sll {p : Nat} {xs : List Nat} (h : Dll nxt prv p xs) (h0 : ∀ x ∈ xs, x ≠ 0) :
    Sll nxt p xs := by
  obtain ⟨hp, hl⟩ := h
  -- The first link of `0 :: xs ++ [0]` is the head pointer; the walk starts after it.
  have hwalk : ∀ a, Linked nxt prv (a :: (xs ++ [0])) → Sll nxt (xs.headD 0) xs := by
    clear hp hl
    induction xs with
    | nil => exact fun a _ => rfl
    | cons x xs ih =>
      intro a ha
      have hx : x ≠ 0 := h0 x (by simp)
      refine ⟨rfl, hx, ?_⟩
      have hnext : nxt x = xs.headD 0 := by
        cases xs with
        | nil => exact ha.2.2.1 hx
        | cons y xs => exact ha.2.2.1 hx
      rw [hnext]
      exact ih (fun y hy => h0 y (List.mem_cons_of_mem _ hy)) x ha.2.2
  rw [hp]
  exact hwalk 0 hl

theorem Sll.congr {p : Nat} {xs : List Nat} (h : Sll nxt p xs) (hn : ∀ x ∈ xs, nxt' x = nxt x) :
    Sll nxt' p xs := by
  induction xs generalizing p with
  | nil => exact h
  | cons x xs ih =>
    obtain ⟨h1, h2, h3⟩ := h
    refine ⟨h1, h2, ?_⟩
    rw [hn x (by simp)]
    exact ih h3 fun y hy => hn y (List.mem_cons_of_mem _ hy)

theorem Sll.ne_zero {p : Nat} {xs : List Nat} (h : Sll nxt p xs) : ∀ x ∈ xs, x ≠ 0 := by
  induction xs generalizing p with
  | nil => simp
  | cons x xs ih =>
    intro y hy
    cases hy with
    | head => exact h.2.1
    | tail _ hy => exact ih h.2.2 y hy

theorem Sll.head_eq {p : Nat} {xs : List Nat} (h : Sll nxt p xs) : p = xs.headD 0 := by
  cases xs with
  | nil => exact h
  | cons x xs => exact h.1

theorem Sll.tail {p x : Nat} {xs : List Nat} (h : Sll nxt p (x :: xs)) : Sll nxt (nxt x) xs := h.2.2

/-- The link of a node leads to the rest of the list. -/
theorem Sll.next_eq {p x : Nat} {as bs : List Nat} (h : Sll nxt p (as ++ x :: bs)) :
    nxt x = bs.headD 0 := by
  induction as generalizing p with
  | nil => exact h.tail.head_eq
  | cons a as ih => exact ih h.tail

/-- A node put at the head. -/
theorem Sll.push {p n : Nat} {xs : List Nat} (h : Sll nxt p xs) (hn : n ≠ 0) (h1 : nxt' n = p)
    (hx : ∀ x ∈ xs, nxt' x = nxt x) : Sll nxt' n (n :: xs) := by
  refine ⟨rfl, hn, ?_⟩
  rw [h1]
  exact h.congr hx

/-- A node taken out behind another one. -/
theorem Sll.skip {p a x : Nat} {as bs : List Nat} (h : Sll nxt p (as ++ a :: x :: bs))
    (h1 : nxt' a = nxt x) (has : ∀ y ∈ as, nxt' y = nxt y) (hbs : ∀ y ∈ bs, nxt' y = nxt y) :
    Sll nxt' p (as ++ a :: bs) := by
  induction as generalizing p with
  | nil =>
    refine ⟨h.1, h.2.1, ?_⟩
    rw [h1]
    exact h.tail.tail.congr hbs
  | cons b as ih =>
    refine ⟨h.1, h.2.1, ?_⟩
    rw [has b (by simp)]
    exact ih h.tail fun y hy => has y (by simp [hy])

/-- A walk with turns enough meets the nodes of the list. -/
theorem Sll.walk_eq {p n : Nat} {xs : List Nat} (h : Sll nxt p xs) (hn : xs.length < n) :
    walk nxt n p = xs := by
  induction xs generalizing p n with
  | nil =>
    obtain rfl : p = 0 := h
    cases n with
    | zero => rfl
    | succ n => rw [walk, if_pos rfl]
  | cons x xs ih =>
    obtain ⟨rfl, h0, htail⟩ := h
    cases n with
    | zero => exact absurd hn (Nat.not_lt_zero _)
    | succ n => rw [walk, if_neg h0, ih htail (by simpa using hn)]

end links
