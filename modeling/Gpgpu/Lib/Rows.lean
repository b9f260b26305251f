-- Tables of rows in one flat piece of memory. Rows of one width follow each other,
-- so different rows lie apart, and a table of more than two dimensions numbers its
-- rows in row-major order.
import Mathlib

namespace rows

/-! ## The numbers of the rows -/

/-- The number of row `t` in table `h` of group `l`, for `H` tables a group and
`S` rows a table. -/
def cell (H S l h t : Nat) : Nat := (l * H + h) * S + t

theorem pair_lt {L H l h : Nat} (hl : l < L) (hh : h < H) : l * H + h < L * H :=
  calc l * H + h < l * H + H := by omega
    _ = (l + 1) * H := by ring
    _ ≤ L * H := Nat.mul_le_mul_right H hl

theorem pair_inj {H l h l' h' : Nat} (hh : h < H) (hh' : h' < H) (he : l * H + h = l' * H + h') :
    l = l' ∧ h = h' := by
  have hpos : 0 < H := by omega
  have hdiv : ∀ a b, b < H → (a * H + b) / H = a := by
    intro a b hb
    rw [Nat.add_comm, Nat.add_mul_div_right _ _ hpos, Nat.div_eq_of_lt hb, Nat.zero_add]
  have hl : l = l' := by rw [← hdiv l h hh, ← hdiv l' h' hh', he]
  subst hl
  exact ⟨rfl, by omega⟩

theorem cell_lt {L H S l h t : Nat} (hl : l < L) (hh : h < H) (ht : t < S) :
    cell H S l h t < L * H * S :=
  pair_lt (pair_lt hl hh) ht

theorem cell_inj {H S l h t l' h' t' : Nat} (hh : h < H) (hh' : h' < H) (ht : t < S) (ht' : t' < S)
    (he : cell H S l h t = cell H S l' h' t') : l = l' ∧ h = h' ∧ t = t' := by
  obtain ⟨hpair, hrow⟩ := pair_inj ht ht' he
  obtain ⟨hl, hhead⟩ := pair_inj hh hh' hpair
  exact ⟨hl, hhead, hrow⟩

/-! ## The bytes of the rows -/

theorem row_le {n N w : Nat} (h : n < N) : n * w + w ≤ N * w :=
  calc n * w + w = (n + 1) * w := by ring
    _ ≤ N * w := Nat.mul_le_mul_right w h

theorem row_apart {n n' w : Nat} (h : n ≠ n') : n * w + w ≤ n' * w ∨ n' * w + w ≤ n * w := by
  rcases Nat.lt_or_gt_of_ne h with hlt | hgt
  · exact Or.inl (row_le hlt)
  · exact Or.inr (row_le hgt)

end rows
