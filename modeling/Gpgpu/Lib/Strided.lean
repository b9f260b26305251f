-- Arrays with strides. A view says where in a storage each element lies; its elements in
-- row-major order are the same for a view and for a contiguous copy of it.
import Mathlib

namespace strided

/-- A view of a storage: element `i₁, i₂, …` lies at `i₁ * s₁ + i₂ * s₂ + …`. -/
structure View (α : Type) where
  shape : List Nat
  stride : List Nat
  storage : Nat → α
  ranks : stride.length = shape.length

/-- Where the element with an index lies. -/
def offset (stride index : List Nat) : Nat := (List.zipWith (· * ·) index stride).sum

/-- The strides of a row-major array. -/
def rowMajor : List Nat → List Nat
  | [] => []
  | _ :: ds => ds.prod :: rowMajor ds

/-- The index of the `i`-th element in row-major order. -/
def unravel : List Nat → Nat → List Nat
  | [], _ => []
  | _ :: ds, i => i / ds.prod :: unravel ds (i % ds.prod)

theorem rowMajor_length (shape : List Nat) : (rowMajor shape).length = shape.length := by
  induction shape with
  | nil => rfl
  | cons d ds ih => rw [rowMajor, List.length_cons, List.length_cons, ih]

namespace View

variable {α β : Type}

def elem (v : View α) (index : List Nat) : α := v.storage (offset v.stride index)

def isContiguous (v : View α) : Bool := v.stride = rowMajor v.shape

/-- The elements in row-major order. -/
def toList (v : View α) : List α := (List.range v.shape.prod).map fun i => v.elem (unravel v.shape i)

/-- The same storage with the axes the other way round. -/
def transpose (v : View α) : View α :=
  ⟨v.shape.reverse, v.stride.reverse, v.storage, by simp [v.ranks]⟩

/-- A row-major copy. -/
def contiguous (v : View α) : View α :=
  ⟨v.shape, rowMajor v.shape, fun i => v.elem (unravel v.shape i), rowMajor_length _⟩

def map (f : α → β) (v : View α) : View β := ⟨v.shape, v.stride, fun i => f (v.storage i), v.ranks⟩

end View

/-! ## Row-major order -/

/-- In a row-major array the `i`-th element lies at `i`. -/
theorem offset_unravel {shape : List Nat} {i : Nat} (h : i < shape.prod) :
    offset (rowMajor shape) (unravel shape i) = i := by
  induction shape generalizing i with
  | nil =>
    rw [List.prod_nil] at h
    simp [offset, rowMajor, unravel]
    omega
  | cons d ds ih =>
    rw [List.prod_cons] at h
    have hpos : 0 < ds.prod := Nat.pos_of_ne_zero fun hzero => by simp [hzero] at h
    have hrest := ih (Nat.mod_lt i hpos)
    unfold offset at hrest ⊢
    rw [rowMajor, unravel, List.zipWith_cons_cons, List.sum_cons, hrest]
    exact Nat.div_add_mod' i ds.prod

namespace View

variable {α β : Type}

@[simp] theorem toList_length (v : View α) : v.toList.length = v.shape.prod := by simp [toList]

/-- A copy has the elements of the view. -/
@[simp] theorem toList_contiguous (v : View α) : v.contiguous.toList = v.toList := by
  apply List.map_congr_left
  intro i hi
  have hlt : i < v.shape.prod := List.mem_range.mp hi
  show v.elem (unravel v.shape (offset (rowMajor v.shape) (unravel v.shape i))) = _
  rw [offset_unravel hlt]

@[simp] theorem toList_map (f : α → β) (v : View α) : (v.map f).toList = v.toList.map f := by
  unfold toList
  rw [List.map_map]
  rfl

/-- The elements of a vector, in order. -/
theorem getElem?_vector {v : View α} {n i : Nat} (hshape : v.shape = [n]) (hi : i < n) :
    v.toList[i]? = some (v.elem [i]) := by
  simp [toList, hshape, hi, unravel]

/-- The elements of a matrix, row by row. -/
theorem getElem?_matrix {v : View α} {m n r c : Nat} (hshape : v.shape = [m, n]) (hr : r < m)
    (hc : c < n) : v.toList[r * n + c]? = some (v.elem [r, c]) := by
  have hlt : r * n + c < m * n := by nlinarith
  have hdiv : (r * n + c) / n = r := by
    rw [Nat.mul_comm, Nat.mul_add_div (by omega), Nat.div_eq_of_lt hc, Nat.add_zero]
  have hmod : (r * n + c) % n = c := by rw [Nat.mul_comm, Nat.mul_add_mod, Nat.mod_eq_of_lt hc]
  simp [toList, hshape, hlt, unravel, hdiv, hmod]

/-- The transpose of a matrix has its element `c, r` at `r, c`. -/
theorem elem_transpose {v : View α} {m n : Nat} (hshape : v.shape = [m, n]) (r c : Nat) :
    v.transpose.elem [c, r] = v.elem [r, c] := by
  have hlen : v.stride.length = 2 := by rw [v.ranks, hshape]; rfl
  obtain ⟨a, b, hstride⟩ := List.length_eq_two.mp hlen
  simp only [elem, transpose, hstride, offset]
  simp [Nat.add_comm]

theorem shape_transpose {v : View α} {m n : Nat} (hshape : v.shape = [m, n]) :
    v.transpose.shape = [n, m] := by
  simp [transpose, hshape]

end View

end strided
