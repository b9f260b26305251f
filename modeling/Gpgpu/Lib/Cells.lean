-- A memory of cells that several agents share. A value takes four cells, whatever a cell
-- is: a byte of its bits, or a part of a value that has no bits. Each agent keeps a log of
-- what it reads and writes, and agents whose logs lie apart do not notice each other.
import Mathlib

namespace cells

/-- How a value lies in four cells. -/
structure Cells (V C : Type) where
  cut : V → Fin 4 → C
  join : (Fin 4 → C) → V
  join_cut : ∀ v, join (cut v) = v

variable {V C : Type}

/-- The value in the four cells at `a`. -/
def Cells.get (cs : Cells V C) (m : Nat → C) (a : Nat) : V := cs.join fun k => m (a + k)

/-- The memory after a write of `v` at `a`. -/
def Cells.set (cs : Cells V C) (m : Nat → C) (a : Nat) (v : V) : Nat → C := fun y =>
  if h : a ≤ y ∧ y < a + 4 then cs.cut v ⟨y - a, by omega⟩ else m y

section

variable (cs : Cells V C) {m m' : Nat → C} {a b : Nat} {v : V}

theorem get_congr (h : ∀ y, a ≤ y → y < a + 4 → m' y = m y) : cs.get m' a = cs.get m a := by
  unfold Cells.get
  congr 1
  funext k
  exact h _ (by omega) (by omega)

theorem set_outside {y : Nat} (h : y < a ∨ a + 4 ≤ y) : cs.set m a v y = m y := by
  unfold Cells.set
  rw [dif_neg (by omega)]

@[simp] theorem get_set : cs.get (cs.set m a v) a = v := by
  have hcut : (fun k : Fin 4 => cs.set m a v (a + k)) = cs.cut v := by
    funext k
    unfold Cells.set
    rw [dif_pos ⟨by omega, by omega⟩]
    congr 1
    exact Fin.ext (Nat.add_sub_cancel_left ..)
  unfold Cells.get
  rw [hcut, cs.join_cut]

theorem get_set_apart (h : a + 4 ≤ b ∨ b + 4 ≤ a) : cs.get (cs.set m a v) b = cs.get m b :=
  get_congr cs fun y h1 h2 => set_outside cs (by omega)

end

/-! ## Logs -/

/-- One access of an agent: it reads a value, or writes one. -/
inductive Access (V : Type)
  | load (a : Nat)
  | store (a : Nat) (v : V)

/-- Where an access goes. -/
def Access.place : Access V → Nat
  | .load a => a
  | .store a _ => a

/-- The cell `y` is written by an access of the log. -/
def Stored (log : List (Access V)) (y : Nat) : Prop :=
  ∃ a v, .store a v ∈ log ∧ a ≤ y ∧ y < a + 4

/-- The places that a log writes, the last one first. -/
def written : List (Access V) → List Nat
  | [] => []
  | .load _ :: log => written log
  | .store a _ :: log => a :: written log

/-- The memory after the writes of a log, the last access first. -/
def replay (cs : Cells V C) (m : Nat → C) : List (Access V) → Nat → C
  | [] => m
  | .load _ :: log => replay cs m log
  | .store a v :: log => cs.set (replay cs m log) a v

section

variable {cs : Cells V C} {m m' : Nat → C} {log : List (Access V)} {a y : Nat}

theorem mem_written : a ∈ written log ↔ ∃ v, .store a v ∈ log := by
  induction log with
  | nil => simp [written]
  | cons e log ih =>
    cases e with
    | load b => simp [written, ih]
    | store b w =>
      simp only [written, List.mem_cons, ih, Access.store.injEq]
      constructor
      · rintro (rfl | ⟨v, hv⟩)
        · exact ⟨w, .inl ⟨rfl, rfl⟩⟩
        · exact ⟨v, .inr hv⟩
      · rintro ⟨v, ⟨rfl, -⟩ | hv⟩
        · exact .inl rfl
        · exact .inr ⟨v, hv⟩

theorem stored_iff : Stored log y ↔ ∃ a ∈ written log, a ≤ y ∧ y < a + 4 := by
  constructor
  · rintro ⟨a, v, hmem, hy⟩
    exact ⟨a, mem_written.mpr ⟨v, hmem⟩, hy⟩
  · rintro ⟨a, hmem, hy⟩
    obtain ⟨v, hv⟩ := mem_written.mp hmem
    exact ⟨a, v, hv, hy⟩

theorem replay_outside (h : ¬ Stored log y) : replay cs m log y = m y := by
  induction log with
  | nil => rfl
  | cons e log ih =>
    have htail : ¬ Stored log y := fun ⟨a, v, hmem, hy⟩ => h ⟨a, v, List.mem_cons_of_mem _ hmem, hy⟩
    cases e with
    | load b => exact ih htail
    | store b w =>
      have hb : ¬ (b ≤ y ∧ y < b + 4) := fun hy => h ⟨b, w, List.mem_cons_self .., hy⟩
      rw [replay, set_outside cs (by omega)]
      exact ih htail

/-- A place that the log does not write reads as before. -/
theorem get_replay (h : ∀ b ∈ written log, b + 4 ≤ a ∨ a + 4 ≤ b) :
    cs.get (replay cs m log) a = cs.get m a := by
  apply get_congr
  intro y h1 h2
  apply replay_outside
  rw [stored_iff]
  rintro ⟨b, hb, hy⟩
  have := h b hb
  omega

end

/-- The log reads only in `R` and writes only in `W`. -/
def Within (R W : Nat → Prop) (log : List (Access V)) : Prop :=
  (∀ a, .load a ∈ log → R a) ∧ ∀ a ∈ written log, W a

section

variable {R W : Nat → Prop} {log : List (Access V)} {a : Nat} {v : V}

theorem Within.mono {R' W' : Nat → Prop} (h : Within R W log) (hR : ∀ a, R a → R' a)
    (hW : ∀ a, W a → W' a) : Within R' W' log :=
  ⟨fun a ha => hR a (h.1 a ha), fun a ha => hW a (h.2 a ha)⟩

@[simp] theorem within_nil : Within R W ([] : List (Access V)) := by
  simp [Within, written]

@[simp] theorem within_load : Within R W (.load a :: log) ↔ R a ∧ Within R W log := by
  simp only [Within, List.mem_cons, written, Access.load.injEq]
  constructor
  · rintro ⟨hr, hw⟩
    exact ⟨hr a (.inl rfl), fun b hb => hr b (.inr hb), hw⟩
  · rintro ⟨ha, hr, hw⟩
    refine ⟨?_, hw⟩
    rintro b (rfl | hb)
    · exact ha
    · exact hr b hb

@[simp] theorem within_store : Within R W (.store a v :: log) ↔ W a ∧ Within R W log := by
  simp only [Within, List.mem_cons, written, reduceCtorEq, false_or]
  constructor
  · rintro ⟨hr, hw⟩
    exact ⟨hw a (.inl rfl), hr, fun b hb => hw b (.inr hb)⟩
  · rintro ⟨ha, hr, hw⟩
    refine ⟨hr, ?_⟩
    rintro b (rfl | hb)
    · exact ha
    · exact hw b hb

end

/-! ## Agents that share a memory -/

/-- The logs of the agents lie apart: what one writes no other one touches. -/
def Apart {ι : Type*} (logs : ι → List (Access V)) : Prop :=
  ∀ i j, i ≠ j → ∀ a ∈ written (logs i), ∀ e ∈ logs j, a + 4 ≤ e.place ∨ e.place + 4 ≤ a

/-- Each agent finds what it would find if it had worked alone, but for what others
wrote. -/
def Coherent {ι : Type*} (cs : Cells V C) (m0 : Nat → C) (logs : ι → List (Access V))
    (m : Nat → C) : Prop :=
  ∀ i y, (∀ j, j ≠ i → ¬ Stored (logs j) y) → m y = replay cs m0 (logs i) y

section

variable {ι : Type*} {cs : Cells V C} {m0 m : Nat → C} {logs logs' : ι → List (Access V)} {i : ι}

theorem Apart.mono (h : Apart logs') (hsub : ∀ i, logs i <:+ logs' i) : Apart logs := by
  intro i j hne a ha e he
  obtain ⟨v, hv⟩ := mem_written.mp ha
  exact h i j hne a (mem_written.mpr ⟨v, (hsub i).subset hv⟩) e ((hsub j).subset he)

theorem coherent_start (h : ∀ i, logs i = []) : Coherent cs m0 logs m0 := by
  intro i y _
  rw [h i]
  rfl

/-- An agent reads what it would read alone. -/
theorem Coherent.get_eq (h : Coherent cs m0 logs m) {a : Nat}
    (happ : ∀ j, j ≠ i → ∀ b ∈ written (logs j), b + 4 ≤ a ∨ a + 4 ≤ b) :
    cs.get m a = cs.get (replay cs m0 (logs i)) a := by
  apply get_congr
  intro y h1 h2
  apply h i y
  intro j hne
  rw [stored_iff]
  rintro ⟨b, hb, hy⟩
  have := happ j hne b hb
  omega

variable [DecidableEq ι]

theorem Coherent.load (h : Coherent cs m0 logs m) (a : Nat) :
    Coherent cs m0 (Function.update logs i (.load a :: logs i)) m := by
  intro k y hy
  have hlog : ∀ j, Stored (Function.update logs i (.load a :: logs i) j) y ↔ Stored (logs j) y := by
    intro j
    by_cases hj : j = i
    · subst hj
      simp [stored_iff, written]
    · rw [Function.update_of_ne hj]
  have hreplay : replay cs m0 (Function.update logs i (.load a :: logs i) k) =
      replay cs m0 (logs k) := by
    by_cases hk : k = i
    · subst hk
      rw [Function.update_self]
      rfl
    · rw [Function.update_of_ne hk]
  rw [hreplay]
  exact h k y fun j hne => mt (hlog j).mpr (hy j hne)

/-- A write of one agent leaves the memory coherent. -/
theorem Coherent.store (h : Coherent cs m0 logs m) (a : Nat) (v : V) :
    Coherent cs m0 (Function.update logs i (.store a v :: logs i)) (cs.set m a v) := by
  intro k y hy
  have hother : ∀ j, j ≠ k → ¬ Stored (logs j) y := by
    rintro j hne ⟨b, w, hmem, hin⟩
    refine hy j hne ⟨b, w, ?_, hin⟩
    by_cases hj : j = i
    · subst hj
      rw [Function.update_self]
      exact List.mem_cons_of_mem _ hmem
    · rwa [Function.update_of_ne hj]
  by_cases hk : k = i
  · subst hk
    rw [Function.update_self, replay]
    unfold Cells.set
    split
    · rfl
    · exact h k y hother
  · have hout : y < a ∨ a + 4 ≤ y := by
      by_contra hin
      refine hy i (Ne.symm hk) ⟨a, v, ?_, by omega⟩
      rw [Function.update_self]
      exact List.mem_cons_self ..
    rw [Function.update_of_ne hk, set_outside cs hout]
    exact h k y hother

end

end cells
