-- A reduction by exchanges. In each round everyone takes in what its mate has. If the groups
-- of mates lie apart in each round, everyone ends with what its whole group has together.
import Mathlib

namespace butterfly

variable {n : Nat} {α : Type*}

/-- What everyone has after the rounds. -/
def reduce (op : α → α → α) : List (Fin n → Fin n) → (Fin n → α) → Fin n → α
  | [], v => v
  | mate :: mates, v => reduce op mates fun i => op (v i) (v (mate i))

/-- The groups that have come together after the rounds, a group as the bits of its members. -/
def groups : List (Fin n → Fin n) → (Fin n → Nat) → Fin n → Nat
  | [], g => g
  | mate :: mates, g => groups mates fun i => g i ||| g (mate i)

/-- In each round the groups of mates lie apart. -/
def Apart : List (Fin n → Fin n) → (Fin n → Nat) → Prop
  | [], _ => True
  | mate :: mates, g => (∀ i, g i &&& g (mate i) = 0) ∧ Apart mates fun i => g i ||| g (mate i)

instance Apart.decidable : ∀ (mates : List (Fin n → Fin n)) (g : Fin n → Nat),
    Decidable (Apart mates g)
  | [], _ => .isTrue trivial
  | mate :: mates, g =>
    have := Apart.decidable mates fun i => g i ||| g (mate i)
    inferInstanceAs (Decidable (_ ∧ _))

/-- The members of a group. -/
def members (g : Nat) : Finset (Fin n) := Finset.univ.filter fun j => g.testBit j = true

@[simp] theorem mem_members {g : Nat} {j : Fin n} : j ∈ members g ↔ g.testBit j = true := by
  simp [members]

theorem members_or (g h : Nat) : members (n := n) (g ||| h) = members g ∪ members h := by
  ext j
  simp [Nat.testBit_or]

theorem members_disjoint {g h : Nat} (hgh : g &&& h = 0) :
    Disjoint (members (n := n) g) (members h) := by
  refine Finset.disjoint_left.mpr fun j hg hh => ?_
  have hand : (g &&& h).testBit j = true := by
    rw [Nat.testBit_and, mem_members.mp hg, mem_members.mp hh]
    rfl
  rw [hgh, Nat.zero_testBit] at hand
  exact Bool.false_ne_true hand

/-- What holds of groups that lie apart and of what they have, and stays when two come
together, holds after the rounds. -/
theorem reduce_covers (Covers : Finset (Fin n) → α → Prop) {op : α → α → α}
    (hop : ∀ {S T a b}, Disjoint S T → Covers S a → Covers T b → Covers (S ∪ T) (op a b))
    {mates : List (Fin n → Fin n)} {g : Fin n → Nat} {v : Fin n → α} (happ : Apart mates g)
    (hv : ∀ i, Covers (members (g i)) (v i)) (i : Fin n) :
    Covers (members (groups mates g i)) (reduce op mates v i) := by
  induction mates generalizing g v with
  | nil => exact hv i
  | cons mate mates ih =>
    refine ih happ.2 fun i => ?_
    rw [members_or]
    exact hop (members_disjoint (happ.1 i)) (hv i) (hv (mate i))

end butterfly
