-- Words of 32 bits in a memory of bytes. A vector is a list of words at addresses
-- four apart; writing one says what a later read of it gives and what stays.
import Gpgpu.Lib.Memory

open memory

namespace words

abbrev Word := UInt32

/-- The word in the four bytes at `a`. -/
def word (m : Mem) (a : Nat) : Word := UInt32.ofNat (load m a 4)

/-- The bytes of a list of words, as they lie in memory. -/
def bytesOf (ws : List Word) : Nat → UInt8 := fun i =>
  UInt8.ofNat ((ws.getD (i / 4) 0).toNat / 256 ^ (i % 4))

/-- The `n` words that a reader finds from `a` on. -/
def vec (rd : Nat → Word) (a n : Nat) : List Word := (List.range n).map fun i => rd (a + 4 * i)

/-- The memory after a write of words from `a` on. -/
def put (m : Mem) (a : Nat) (ws : List Word) : Mem := copy m a (bytesOf ws) (4 * ws.length)

/-! ## Reads -/

theorem word_congr {m m' : Mem} {a b : Nat} (h : ∀ i < 4, m' (b + i) = m (a + i)) :
    word m' b = word m a := by
  have h0 := h 0 (by omega)
  have h1 := h 1 (by omega)
  have h2 := h 2 (by omega)
  have h3 := h 3 (by omega)
  simp only [word, load, Nat.add_zero, Nat.add_assoc, Nat.reduceAdd] at *
  rw [h0, h1, h2, h3]

@[simp] theorem vec_length (rd : Nat → Word) (a n : Nat) : (vec rd a n).length = n := by
  simp [vec]

theorem vec_congr {rd rd' : Nat → Word} {a b n : Nat}
    (h : ∀ i < n, rd' (b + 4 * i) = rd (a + 4 * i)) : vec rd' b n = vec rd a n := by
  apply List.map_congr_left
  intro i hi
  exact h i (List.mem_range.mp hi)

theorem vec_getD (rd : Nat → Word) {a n i : Nat} (h : i < n) :
    (vec rd a n).getD i 0 = rd (a + 4 * i) := by
  simp [vec, h]

/-- A vector in two parts. -/
theorem vec_append (rd : Nat → Word) (a n k : Nat) :
    vec rd a (n + k) = vec rd a n ++ vec rd (a + 4 * n) k := by
  have hshift : ∀ i, rd (a + 4 * (n + i)) = rd (a + 4 * n + 4 * i) := by
    intro i
    rw [Nat.mul_add, Nat.add_assoc]
  simp only [vec, List.range_add, List.map_append, List.map_map, Function.comp_def, hshift]

/-- A stretch of a vector. -/
theorem vec_stretch (rd : Nat → Word) {a n i k : Nat} (h : i + k ≤ n) :
    ((vec rd a n).drop i).take k = vec rd (a + 4 * i) k := by
  obtain ⟨r, rfl⟩ := Nat.exists_eq_add_of_le h
  rw [Nat.add_assoc, vec_append, List.drop_left' (vec_length rd a i), vec_append,
    List.take_left' (vec_length ..)]

/-! ## Writes -/

theorem load_bytesOf (ws : List Word) (i : Nat) :
    load (bytesOf ws) (4 * i) 4 = (ws.getD i 0).toNat := by
  have hlt : (ws.getD i 0).toNat < 256 ^ 4 := (ws.getD i 0).toNat_lt
  have hstore := load_store (bytesOf ws) (4 * i) 4 (ws.getD i 0).toNat
  rw [Nat.mod_eq_of_lt hlt] at hstore
  rw [← hstore]
  apply load_congr
  intro x h1 h2
  have hdiv : x / 4 = i := by omega
  have hmod : x % 4 = x - 4 * i := by omega
  unfold store bytesOf
  rw [if_pos (by omega), hdiv, hmod]

theorem word_bytesOf (ws : List Word) (i : Nat) : word (bytesOf ws) (4 * i) = ws.getD i 0 := by
  rw [word, load_bytesOf, UInt32.ofNat_toNat]

theorem put_outside {m : Mem} {a x : Nat} {ws : List Word} (h : x < a ∨ a + 4 * ws.length ≤ x) :
    put m a ws x = m x :=
  copy_outside h

theorem put_inside {m : Mem} {a i : Nat} {ws : List Word} (h : i < 4 * ws.length) :
    put m a ws (a + i) = bytesOf ws i :=
  copy_inside h

theorem word_put {m : Mem} {a i : Nat} {ws : List Word} (h : i < ws.length) :
    word (put m a ws) (a + 4 * i) = ws.getD i 0 := by
  rw [← word_bytesOf]
  apply word_congr
  intro k hk
  rw [Nat.add_assoc, put_inside (by omega)]

/-- A vector is read back as it was written. -/
theorem vec_put (m : Mem) (a : Nat) (ws : List Word) :
    vec (word (put m a ws)) a ws.length = ws := by
  apply List.ext_getElem
  · simp
  · intro i h1 h2
    have hget : (vec (word (put m a ws)) a ws.length).getD i 0 = ws.getD i 0 := by
      rw [vec_getD _ h2, word_put h2]
    rw [List.getD_eq_getElem _ _ h1, List.getD_eq_getElem _ _ h2] at hget
    exact hget

/-- The bytes of a word. -/
theorem byte_of_word (m : Mem) (a : Nat) {i : Nat} (hi : i < 4) :
    m (a + i) = UInt8.ofNat ((word m a).toNat / 256 ^ i) := by
  have h0 := (m a).toNat_lt
  have h1 := (m (a + 1)).toNat_lt
  have h2 := (m (a + 2)).toNat_lt
  have h3 := (m (a + 3)).toNat_lt
  have hlt := load_lt m a 4
  have hword : (word m a).toNat = load m a 4 := UInt32.toNat_ofNat_of_lt' hlt
  rw [hword, ← UInt8.toNat_inj, UInt8.toNat_ofNat']
  simp only [load, Nat.add_assoc, Nat.reduceAdd]
  interval_cases i
  · rw [Nat.add_zero]
    omega
  all_goals omega

/-- The memory after a write, from its words. -/
theorem eq_put {m m' : Mem} {a : Nat} {ws : List Word}
    (hin : ∀ i < ws.length, word m' (a + 4 * i) = ws.getD i 0)
    (hout : ∀ y, y < a ∨ a + 4 * ws.length ≤ y → m' y = m y) : m' = put m a ws := by
  funext y
  by_cases hy : a ≤ y ∧ y < a + 4 * ws.length
  · obtain ⟨i, rfl⟩ := Nat.exists_eq_add_of_le hy.1
    have hi : i < 4 * ws.length := by omega
    have hbyte := byte_of_word m' (a + 4 * (i / 4)) (show i % 4 < 4 by omega)
    rw [show a + 4 * (i / 4) + i % 4 = a + i by omega, hin _ (by omega)] at hbyte
    rw [put_inside hi, hbyte]
    rfl
  · rw [hout y (by omega), put_outside (by omega)]

theorem bytesOf_append_left {xs ys : List Word} {i : Nat} (h : i < 4 * xs.length) :
    bytesOf (xs ++ ys) i = bytesOf xs i := by
  unfold bytesOf
  rw [List.getD_append _ _ _ _ (by omega)]

theorem bytesOf_append_right (xs ys : List Word) (i : Nat) :
    bytesOf (xs ++ ys) (4 * xs.length + i) = bytesOf ys i := by
  have hdiv : (4 * xs.length + i) / 4 = xs.length + i / 4 := by omega
  have hmod : (4 * xs.length + i) % 4 = i % 4 := by omega
  unfold bytesOf
  rw [hdiv, hmod, List.getD_append_right _ _ _ _ (by omega), Nat.add_sub_cancel_left]

/-- Two writes, one behind the other, are one write. -/
theorem put_put (m : Mem) (a : Nat) (xs ys : List Word) :
    put (put m a xs) (a + 4 * xs.length) ys = put m a (xs ++ ys) := by
  funext x
  by_cases h1 : x < a
  · rw [put_outside (by omega), put_outside (by omega), put_outside (by omega)]
  obtain ⟨i, rfl⟩ := Nat.exists_eq_add_of_le (Nat.not_lt.mp h1)
  by_cases h2 : i < 4 * xs.length
  · rw [put_outside (by omega), put_inside h2, put_inside (by simp; omega),
      bytesOf_append_left h2]
  obtain ⟨k, rfl⟩ := Nat.exists_eq_add_of_le (Nat.not_lt.mp h2)
  by_cases h3 : k < 4 * ys.length
  · rw [← Nat.add_assoc, put_inside h3, Nat.add_assoc, put_inside (by simp; omega),
      bytesOf_append_right]
  · rw [put_outside (by omega), put_outside (by omega), put_outside (by simp; omega)]

/-! ## Rows -/

/-- The memory after a write of `n` rows that start `w` bytes apart. -/
def putRows (m : Mem) (a w : Nat) (f : Nat → List Word) (n : Nat) : Mem :=
  (List.range n).foldl (fun m h => put m (a + h * w) (f h)) m

theorem putRows_succ (m : Mem) (a w : Nat) (f : Nat → List Word) (n : Nat) :
    putRows m a w f (n + 1) = put (putRows m a w f n) (a + n * w) (f n) := by
  simp [putRows, List.range_succ]

theorem putRows_outside {m : Mem} {a w n x : Nat} {f : Nat → List Word}
    (hf : ∀ h < n, 4 * (f h).length ≤ w) (hx : x < a ∨ a + n * w ≤ x) :
    putRows m a w f n x = m x := by
  induction n with
  | zero => rfl
  | succ n ih =>
    have hw := hf n (by omega)
    have hmul : (n + 1) * w = n * w + w := by ring
    rw [putRows_succ, put_outside (by omega)]
    exact ih (fun h hh => hf h (by omega)) (by omega)

/-- Every row is read back as it was written. -/
theorem vec_putRows {m : Mem} {a w n h : Nat} {f : Nat → List Word}
    (hf : ∀ h < n, 4 * (f h).length ≤ w) (hh : h < n) :
    vec (word (putRows m a w f n)) (a + h * w) (f h).length = f h := by
  induction n with
  | zero => omega
  | succ n ih =>
    rw [putRows_succ]
    by_cases hlast : h = n
    · subst hlast
      exact vec_put ..
    · have hlt : h < n := by omega
      have hw := hf h hh
      have hmul : (h + 1) * w ≤ n * w := Nat.mul_le_mul_right w hlt
      have hstep : (h + 1) * w = h * w + w := by ring
      -- The last row lies behind the others.
      have hsame : vec (word (put (putRows m a w f n) (a + n * w) (f n))) (a + h * w) (f h).length =
          vec (word (putRows m a w f n)) (a + h * w) (f h).length := by
        apply vec_congr
        intro i hi
        apply word_congr
        intro k hk
        exact put_outside (by omega)
      rw [hsame]
      exact ih (fun h' hh' => hf h' (by omega)) hlt

/-- Rows that fill their places are one vector. -/
theorem putRows_eq_put {m : Mem} {a w n : Nat} {f : Nat → List Word}
    (hf : ∀ h < n, 4 * (f h).length = w) :
    putRows m a w f n = put m a ((List.range n).flatMap f) := by
  have hlen : ∀ k ≤ n, 4 * ((List.range k).flatMap f).length = k * w := by
    intro k hk
    induction k with
    | zero => simp
    | succ k ih =>
      have hk' := hf k (by omega)
      have hmul : (k + 1) * w = k * w + w := by ring
      have hprev := ih (by omega)
      rw [List.range_succ, List.flatMap_append, List.length_append, List.flatMap_singleton]
      omega
  induction n with
  | zero =>
    funext x
    exact (put_outside (by simp; omega)).symm
  | succ n ih =>
    rw [putRows_succ, ih (fun h hh => hf h (by omega)) (fun k hk => hlen k (by omega)),
      ← hlen n (by omega), put_put, List.range_succ, List.flatMap_append, List.flatMap_singleton]

theorem putRows_apart {m : Mem} {a w n x : Nat} {f : Nat → List Word}
    (hx : ∀ h < n, x < a + h * w ∨ a + h * w + 4 * (f h).length ≤ x) : putRows m a w f n x = m x := by
  induction n with
  | zero => rfl
  | succ n ih =>
    rw [putRows_succ, put_outside (hx n (by omega))]
    exact ih fun h hh => hx h (by omega)

/-- The memory after a write of rows, from its words. -/
theorem eq_putRows {m m' : Mem} {a w n : Nat} {f : Nat → List Word}
    (hf : ∀ h < n, 4 * (f h).length ≤ w)
    (hin : ∀ h < n, ∀ i < (f h).length, word m' (a + h * w + 4 * i) = (f h).getD i 0)
    (hout : ∀ y, (∀ h < n, y < a + h * w ∨ a + h * w + 4 * (f h).length ≤ y) → m' y = m y) :
    m' = putRows m a w f n := by
  funext y
  by_cases hy : ∀ h < n, y < a + h * w ∨ a + h * w + 4 * (f h).length ≤ y
  · rw [hout y hy, putRows_apart hy]
  · push Not at hy
    obtain ⟨h, hh, h1, h2⟩ := hy
    obtain ⟨i, rfl⟩ := Nat.exists_eq_add_of_le h1
    -- Both memories have the same word there.
    have hi : i / 4 < (f h).length := by omega
    have hrow := congrArg (·.getD (i / 4) 0) (vec_putRows (m := m) (a := a) hf hh)
    rw [vec_getD _ hi] at hrow
    have hsplit : a + h * w + i = a + h * w + 4 * (i / 4) + i % 4 := by omega
    rw [hsplit, byte_of_word m' _ (by omega), byte_of_word (putRows m a w f n) _ (by omega), hrow,
      hin h hh _ hi]

/-- An `int` that is not negative, as a word. -/
theorem word_of_int {n : Nat} (hn : n < 2 ^ 32) : UInt32.ofInt (n : Int) = UInt32.ofNat n := by
  unfold UInt32.ofInt
  congr 1
  omega

/-- A number below `2 ^ 31`, as an `int` of the host. -/
theorem int_of_word {w : Word} (hw : w.toNat < 2 ^ 31) : w.toBitVec.toInt = (w.toNat : Int) := by
  rw [BitVec.toInt_eq_toNat_cond]
  have hsame : w.toBitVec.toNat = w.toNat := rfl
  rw [hsame, if_pos (by omega)]

end words
