-- Decimal numbers in a text of bytes: how a number is printed, and how the next one is
-- scanned, with the blanks before it and with its sign.
import Mathlib

namespace decimal

/-! ## Bytes -/

/-- The blanks of C: the space, and the bytes from the tab to the carriage return. -/
def space (c : UInt8) : Bool := c == 32 || (9 ≤ c && c ≤ 13)

def digit (c : UInt8) : Bool := 48 ≤ c && c ≤ 57

/-- The number that digits stand for, the highest first. -/
def value (ds : List UInt8) : Nat := ds.foldl (fun n c => 10 * n + (c.toNat - 48)) 0

/-- The digits of a number. -/
def print (n : Nat) : List UInt8 :=
  if n = 0 then [48] else (Nat.digits 10 n).reverse.map fun d => UInt8.ofNat (48 + d)

/-- The sign of a text, and what comes behind it. -/
def sign : List UInt8 → Int × List UInt8
  | 43 :: rest => (1, rest)
  | 45 :: rest => (-1, rest)
  | rest => (1, rest)

/-- The first number of a text and what comes behind it. It is `none` when what comes behind
the blanks is no number. -/
def scan (input : List UInt8) : Option (Int × List UInt8) :=
  let r := sign (input.dropWhile space)
  let ds := r.2.takeWhile digit
  if ds = [] then none else some (r.1 * value ds, r.2.dropWhile digit)

/-- The numbers that a text starts with, at most `n` of them. -/
def first : Nat → List UInt8 → List Int
  | 0, _ => []
  | n + 1, input =>
    match scan input with
    | none => []
    | some (v, rest) => v :: first n rest

/-- The numbers that a text starts with, up to the first thing that is none. -/
def numbers (input : List UInt8) : List Int := first input.length input

variable {c : UInt8} {s w rest input : List UInt8} {v : Int} {n : Nat}

theorem space_iff : space c = true ↔ c.toNat = 32 ∨ 9 ≤ c.toNat ∧ c.toNat ≤ 13 := by
  simp [space, UInt8.le_iff_toNat_le, ← UInt8.toNat_inj]

theorem digit_iff : digit c = true ↔ 48 ≤ c.toNat ∧ c.toNat ≤ 57 := by
  simp [digit, UInt8.le_iff_toNat_le]

/-! ## What is printed -/

theorem digit_of_lt {d : Nat} (h : d < 10) : (UInt8.ofNat (48 + d)).toNat = 48 + d := by
  rw [UInt8.toNat_ofNat']
  omega

theorem print_ne_nil (n : Nat) : print n ≠ [] := by
  unfold print
  split
  · simp
  · rename_i h
    simpa [Nat.digits_eq_nil_iff_eq_zero] using h

theorem print_digits (n : Nat) : ∀ c ∈ print n, digit c = true := by
  intro c hc
  unfold print at hc
  split at hc
  · obtain rfl := List.mem_singleton.mp hc
    decide
  · obtain ⟨d, hd, rfl⟩ := List.mem_map.mp hc
    have hlt : d < 10 := Nat.digits_lt_base (by decide) (List.mem_reverse.mp hd)
    rw [digit_iff, digit_of_lt hlt]
    omega

/-- A printed number stands for itself. -/
theorem value_print (n : Nat) : value (print n) = n := by
  unfold print
  split
  · rename_i h
    rw [h]
    rfl
  · have hfold : ∀ ds : List Nat, (∀ d ∈ ds, d < 10) →
        value (ds.reverse.map fun d => UInt8.ofNat (48 + d)) = Nat.ofDigits 10 ds := by
      intro ds hds
      induction ds with
      | nil => rfl
      | cons d ds ih =>
        have ih := ih fun d' hd' => hds d' (List.mem_cons_of_mem _ hd')
        unfold value at ih ⊢
        rw [List.reverse_cons, List.map_append, List.foldl_append, ih, Nat.ofDigits_cons]
        simp only [List.map_cons, List.map_nil, List.foldl_cons, List.foldl_nil]
        rw [digit_of_lt (hds d (List.mem_cons_self ..))]
        omega
    rw [hfold _ fun d hd => Nat.digits_lt_base (by decide) hd, Nat.ofDigits_digits]

/-! ## What is scanned -/

/-- The text `w` is a number with or without a sign. -/
structure Numeral (w : List UInt8) (v : Int) : Prop where
  some_digit : (sign w).2 ≠ []
  digits : ∀ c ∈ (sign w).2, digit c = true
  number : v = (sign w).1 * value (sign w).2

/-- No digit comes first. -/
def NoDigit (rest : List UInt8) : Prop := ∀ c ∈ rest.head?, digit c = false

theorem sign_other (h1 : c ≠ 43) (h2 : c ≠ 45) : sign (c :: rest) = (1, c :: rest) := by
  unfold sign
  split
  · rename_i he
    exact absurd (List.cons.inj he).1 h1
  · rename_i he
    exact absurd (List.cons.inj he).1 h2
  · rfl

theorem sign_append (h : w ≠ []) : sign (w ++ rest) = ((sign w).1, (sign w).2 ++ rest) := by
  obtain ⟨c, w, rfl⟩ := List.exists_cons_of_ne_nil h
  by_cases h1 : c = 43
  · subst h1
    rfl
  · by_cases h2 : c = 45
    · subst h2
      rfl
    · rw [List.cons_append, sign_other h1 h2, sign_other h1 h2]
      rfl

/-- Digits alone are a number. -/
theorem numeral_digits (hne : w ≠ []) (hw : ∀ c ∈ w, digit c = true) : Numeral w (value w) := by
  obtain ⟨c, w, rfl⟩ := List.exists_cons_of_ne_nil hne
  have hc := digit_iff.mp (hw c (List.mem_cons_self ..))
  have hsign : sign (c :: w) = (1, c :: w) := by
    apply sign_other <;> rintro rfl <;> simp at hc
  exact ⟨by rw [hsign]; exact hne, by rwa [hsign], by rw [hsign, one_mul]⟩

theorem Numeral.ne_nil (h : Numeral w v) : w ≠ [] := by
  rintro rfl
  exact h.some_digit rfl

/-- A number starts with no blank. -/
theorem Numeral.head (h : Numeral w v) : ∀ c ∈ w.head?, space c = false := by
  intro c hc
  obtain ⟨c', w, rfl⟩ := List.exists_cons_of_ne_nil h.ne_nil
  obtain rfl : c' = c := by simpa using hc
  by_contra hspace
  have hsp := space_iff.mp (by simpa using hspace)
  have hsign : sign (c' :: w) = (1, c' :: w) := by
    apply sign_other <;> rintro rfl <;> simp at hsp
  have hdigit := h.digits c' (by rw [hsign]; exact List.mem_cons_self ..)
  rw [digit_iff] at hdigit
  omega

theorem dropWhile_blank (hs : ∀ c ∈ s, space c = true) (hrest : ∀ c ∈ rest.head?, space c = false) :
    (s ++ rest).dropWhile space = rest := by
  rw [List.dropWhile_append_of_pos hs]
  cases rest with
  | nil => rfl
  | cons c rest => simp [hrest c rfl]

/-- The number behind blanks is scanned as a whole. -/
theorem scan_numeral (hs : ∀ c ∈ s, space c = true) (h : Numeral w v) (hrest : NoDigit rest) :
    scan (s ++ (w ++ rest)) = some (v, rest) := by
  have hhead : ∀ c ∈ (w ++ rest).head?, space c = false := by
    intro c hc
    refine h.head c ?_
    obtain ⟨c', w, rfl⟩ := List.exists_cons_of_ne_nil h.ne_nil
    exact hc
  have htake : ((sign w).2 ++ rest).takeWhile digit = (sign w).2 := by
    rw [List.takeWhile_append_of_pos h.digits]
    cases rest with
    | nil => simp
    | cons c rest => simp [hrest c rfl]
  have hdrop : ((sign w).2 ++ rest).dropWhile digit = rest := by
    rw [List.dropWhile_append_of_pos h.digits]
    cases rest with
    | nil => rfl
    | cons c rest => simp [hrest c rfl]
  unfold scan
  rw [dropWhile_blank hs hhead, sign_append h.ne_nil]
  simp only [htake, hdrop, if_neg h.some_digit, h.number]

/-- A scan takes at least one byte. -/
theorem scan_length (h : scan input = some (v, rest)) : rest.length < input.length := by
  have hsign : ∀ r : List UInt8, (sign r).2.length ≤ r.length := by
    intro r
    unfold sign
    split <;> simp
  unfold scan at h
  simp only at h
  split at h
  · cases h
  · rename_i hds
    cases h
    have h1 := (List.dropWhile_suffix space (l := input)).length_le
    have h2 := hsign (input.dropWhile space)
    have h3 := congrArg List.length
      (List.takeWhile_append_dropWhile (p := digit) (l := (sign (input.dropWhile space)).2))
    have h4 := List.length_pos_iff.mpr hds
    rw [List.length_append] at h3
    omega

theorem first_eq {k : Nat} (hn : input.length ≤ n) (hk : input.length ≤ k) :
    first n input = first k input := by
  have hnil : ∀ k, first k [] = [] := by
    intro k
    cases k <;> rfl
  induction n generalizing input k with
  | zero =>
    obtain rfl := List.eq_nil_of_length_eq_zero (Nat.le_zero.mp hn)
    rw [hnil, hnil]
  | succ n ih =>
    cases k with
    | zero =>
      obtain rfl := List.eq_nil_of_length_eq_zero (Nat.le_zero.mp hk)
      rw [hnil, hnil]
    | succ k =>
      rw [first, first]
      cases hscan : scan input with
      | none => rfl
      | some r =>
        have hlt := scan_length hscan
        exact congrArg (r.1 :: ·) (ih (by omega) (by omega))

/-- The numbers one by one. -/
theorem numbers_eq (input : List UInt8) : numbers input =
    match scan input with
    | none => []
    | some (v, rest) => v :: numbers rest := by
  unfold numbers
  rw [first_eq (Nat.le_refl _) (Nat.le_succ _), first]
  cases hscan : scan input with
  | none => rfl
  | some r =>
    have hlt := scan_length hscan
    simp only
    rw [first_eq (Nat.le_of_lt hlt) (Nat.le_refl _)]

end decimal
