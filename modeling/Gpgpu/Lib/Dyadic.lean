-- Dyadic blocks of a line, their buddies, and the ways to tile a segment with
-- them. The free part of a tiling is coarse when no two free blocks are
-- buddies. Then it is the only coarse one: what is taken decides what is free.
import Mathlib

namespace dyadic

/-- A block of `2 ^ exp` places from `lo` on. -/
@[ext]
structure Block where
  lo : Nat
  exp : Nat
deriving DecidableEq

namespace Block

def Covers (b : Block) (x : Nat) : Prop := b.lo ≤ x ∧ x < b.lo + 2 ^ b.exp

def Aligned (b : Block) : Prop := 2 ^ b.exp ∣ b.lo

/-- The other half of the block that holds `b` as a half. -/
def buddy (b : Block) : Block := ⟨b.lo ^^^ 2 ^ b.exp, b.exp⟩

/-- The block that holds `b` as a half. -/
def parent (b : Block) : Block := ⟨min b.lo b.buddy.lo, b.exp + 1⟩

def left (b : Block) : Block := ⟨b.lo, b.exp - 1⟩

def right (b : Block) : Block := ⟨b.lo + 2 ^ (b.exp - 1), b.exp - 1⟩

/-! ## One block -/

theorem covers_lo (b : Block) : b.Covers b.lo := by
  have := Nat.two_pow_pos b.exp
  exact ⟨Nat.le_refl _, by omega⟩

theorem covers_iff {b : Block} (h : b.Aligned) (x : Nat) :
    b.Covers x ↔ x / 2 ^ b.exp = b.lo / 2 ^ b.exp := by
  obtain ⟨c, hc⟩ := h
  have hp := Nat.two_pow_pos b.exp
  have hcomm : c * 2 ^ b.exp = 2 ^ b.exp * c := Nat.mul_comm _ _
  unfold Covers
  rw [hc, Nat.mul_div_cancel_left c hp, Nat.div_eq_iff hp]
  omega

/-- An aligned block is known by its size and one place in it. -/
theorem eq_of_covers {b c : Block} (hb : b.Aligned) (hc : c.Aligned) (he : b.exp = c.exp) {x : Nat}
    (hbx : b.Covers x) (hcx : c.Covers x) : b = c := by
  have h1 := (covers_iff hb x).mp hbx
  have h2 := (covers_iff hc x).mp hcx
  rw [he] at h1
  ext
  · rw [← Nat.mul_div_cancel' hb, ← Nat.mul_div_cancel' hc, he, ← h1, h2]
  · exact he

/-- Of two aligned blocks that meet, the larger holds the smaller. -/
theorem nested {b c : Block} (hb : b.Aligned) (hc : c.Aligned) (he : b.exp ≤ c.exp) {x y : Nat}
    (hbx : b.Covers x) (hcx : c.Covers x) (hby : b.Covers y) : c.Covers y := by
  rw [covers_iff hb] at hbx hby
  rw [covers_iff hc] at hcx ⊢
  have hexp : 2 ^ c.exp = 2 ^ b.exp * 2 ^ (c.exp - b.exp) := by
    rw [← Nat.pow_add, Nat.add_sub_cancel' he]
  rw [← hcx, hexp, ← Nat.div_div_eq_div_mul, ← Nat.div_div_eq_div_mul, hby, hbx]

/-! ## Buddies -/

@[simp] theorem buddy_exp (b : Block) : b.buddy.exp = b.exp := rfl

/-- The buddy of an aligned block is the next block, or the one before it. The
lower of the two starts at a place that is aligned for twice the size. -/
theorem buddy_cases {b : Block} (h : b.Aligned) :
    (b.buddy.lo = b.lo + 2 ^ b.exp ∧ 2 ^ (b.exp + 1) ∣ b.lo) ∨
      (b.lo = b.buddy.lo + 2 ^ b.exp ∧ 2 ^ (b.exp + 1) ∣ b.buddy.lo) := by
  obtain ⟨c, hc⟩ := h
  have hx : b.buddy.lo = (c ^^^ 1) * 2 ^ b.exp := by
    calc b.lo ^^^ 2 ^ b.exp = c <<< b.exp ^^^ 1 <<< b.exp := by
          rw [hc, Nat.shiftLeft_eq, Nat.shiftLeft_eq, Nat.mul_comm, Nat.one_mul]
      _ = (c ^^^ 1) * 2 ^ b.exp := by rw [← Nat.shiftLeft_xor_distrib, Nat.shiftLeft_eq]
  rcases Nat.even_or_odd c with hev | hod
  · left
    obtain ⟨d, hd⟩ := hev
    rw [Nat.xor_one_of_even ⟨d, hd⟩] at hx
    refine ⟨by rw [hx, hc]; ring, d, ?_⟩
    rw [hc, hd]
    ring
  · right
    obtain ⟨d, hd⟩ := hod
    rw [Nat.xor_one_of_odd ⟨d, hd⟩, hd, Nat.add_sub_cancel] at hx
    refine ⟨by rw [hx, hc, hd]; ring, d, ?_⟩
    rw [hx]
    ring

theorem buddy_ne (b : Block) : b.buddy ≠ b := by
  intro h
  have h1 : b.lo ^^^ 2 ^ b.exp = b.lo := congrArg Block.lo h
  have h2 : 2 ^ b.exp = 0 := by
    have h3 := congrArg (b.lo ^^^ ·) h1
    simp at h3
  exact absurd h2 (Nat.two_pow_pos b.exp).ne'

@[simp] theorem buddy_buddy (b : Block) : b.buddy.buddy = b := by
  ext
  · simp [buddy]
  · rfl

theorem parent_aligned {b : Block} (h : b.Aligned) : b.parent.Aligned := by
  unfold Aligned parent
  rcases buddy_cases h with ⟨h1, h2⟩ | ⟨h1, h2⟩
  · rw [Nat.min_eq_left (by omega)]
    exact h2
  · rw [Nat.min_eq_right (by omega)]
    exact h2

theorem parent_covers {b : Block} (h : b.Aligned) (x : Nat) :
    b.parent.Covers x ↔ b.Covers x ∨ b.buddy.Covers x := by
  have hp := Nat.two_pow_pos b.exp
  unfold Covers parent
  simp only [buddy_exp, Nat.pow_succ]
  rcases buddy_cases h with ⟨h1, -⟩ | ⟨h1, -⟩
  · rw [Nat.min_eq_left (by omega)]
    omega
  · rw [Nat.min_eq_right (by omega)]
    omega

/-! ## Halves -/

theorem left_aligned {b : Block} (h : b.Aligned) : b.left.Aligned :=
  (pow_dvd_pow 2 (Nat.sub_le b.exp 1)).trans h

theorem left_covers_or {b : Block} (he : 0 < b.exp) (x : Nat) :
    b.Covers x ↔ b.left.Covers x ∨ b.right.Covers x := by
  have hp : 2 ^ b.exp = 2 ^ (b.exp - 1) + 2 ^ (b.exp - 1) := by
    rw [← Nat.two_mul, ← Nat.pow_succ', Nat.succ_eq_add_one, Nat.sub_add_cancel he]
  unfold Covers left right
  simp only
  omega

theorem left_apart (b : Block) {x : Nat} (hl : b.left.Covers x) : ¬ b.right.Covers x := by
  unfold Covers left right at *
  simp only at *
  omega

theorem right_aligned {b : Block} (h : b.Aligned) : b.right.Aligned :=
  Dvd.dvd.add (left_aligned h) (Nat.dvd_refl _)

/-- The halves of an aligned block are buddies. -/
theorem left_buddy {b : Block} (h : b.Aligned) (he : 0 < b.exp) : b.left.buddy = b.right := by
  ext
  · rcases buddy_cases (left_aligned h) with ⟨h1, -⟩ | ⟨h1, h2⟩
    · exact h1
    · exfalso
      have hsub : b.left.exp + 1 = b.exp := Nat.sub_add_cancel he
      rw [hsub] at h2
      have hd : 2 ^ b.exp ∣ 2 ^ b.left.exp := by
        have hlo : 2 ^ b.exp ∣ b.left.buddy.lo + 2 ^ b.left.exp := h1 ▸ h
        exact (Nat.dvd_add_right h2).mp hlo
      have hlt : 2 ^ b.left.exp < 2 ^ b.exp := Nat.pow_lt_pow_right (by omega) (by omega)
      exact absurd (Nat.le_of_dvd (Nat.two_pow_pos _) hd) (by omega)
  · rfl

end Block

/-! ## Tilings -/

open Block

/-- No place lies in two blocks of the set. -/
def Apart (S : Set Block) : Prop := ∀ b ∈ S, ∀ c ∈ S, ∀ x, b.Covers x → c.Covers x → b = c

/-- The blocks of `S` are aligned and cover each place below `T` exactly once. -/
structure Tiling (T : Nat) (S : Set Block) : Prop where
  aligned : ∀ b ∈ S, b.Aligned
  apart : Apart S
  covered : ∀ x, x < T ↔ ∃ b ∈ S, b.Covers x

variable {T : Nat} {S F F' L A B : Set Block}

/-- Blocks may give way to other blocks that cover the same places. -/
theorem Tiling.replace (h : Tiling T S) (hA : A ⊆ S) (hB : ∀ b ∈ B, b.Aligned) (hap : Apart B)
    (hcov : ∀ x, (∃ a ∈ A, a.Covers x) ↔ ∃ b ∈ B, b.Covers x) : Tiling T (S \ A ∪ B) := by
  -- A block that stays meets no new block: the new block's places were A's.
  have hcross : ∀ b ∈ S \ A, ∀ c ∈ B, ∀ x, b.Covers x → ¬ c.Covers x := by
    intro b hb c hc x hbx hcx
    obtain ⟨a, ha, hax⟩ := (hcov x).mpr ⟨c, hc, hcx⟩
    rw [h.apart b hb.1 a (hA ha) x hbx hax] at hb
    exact hb.2 ha
  refine ⟨?_, ?_, ?_⟩
  · rintro b (hb | hb)
    · exact h.aligned b hb.1
    · exact hB b hb
  · rintro b (hb | hb) c (hc | hc) x hbx hcx
    · exact h.apart b hb.1 c hc.1 x hbx hcx
    · exact absurd hcx (hcross b hb c hc x hbx)
    · exact absurd hbx (hcross c hc b hb x hcx)
    · exact hap b hb c hc x hbx hcx
  · intro x
    rw [h.covered x]
    constructor
    · rintro ⟨b, hb, hbx⟩
      by_cases hbA : b ∈ A
      · obtain ⟨c, hc, hcx⟩ := (hcov x).mp ⟨b, hbA, hbx⟩
        exact ⟨c, Or.inr hc, hcx⟩
      · exact ⟨b, Or.inl ⟨hb, hbA⟩, hbx⟩
    · rintro ⟨b, hb | hb, hbx⟩
      · exact ⟨b, hb.1, hbx⟩
      · obtain ⟨a, ha, hax⟩ := (hcov x).mpr ⟨b, hb, hbx⟩
        exact ⟨a, hA ha, hax⟩

theorem tiling_empty : Tiling 0 ∅ := by
  refine ⟨by simp, fun b hb => absurd hb (by simp), fun x => ?_⟩
  simp

/-- The sizes of the blocks of a tiling add up to what they tile. -/
theorem Tiling.sum_eq (h : Tiling T S) {B : Finset Block} (hB : ∀ b, b ∈ B ↔ b ∈ S) :
    ∑ b ∈ B, 2 ^ b.exp = T := by
  have hapart : (B : Set Block).PairwiseDisjoint fun b => Finset.Ico b.lo (b.lo + 2 ^ b.exp) := by
    intro b hb c hc hne
    rw [Function.onFun, Finset.disjoint_left]
    intro x hbx hcx
    rw [Finset.mem_Ico] at hbx hcx
    exact hne (h.apart b ((hB b).mp hb) c ((hB c).mp hc) x hbx hcx)
  have hunion : B.biUnion (fun b => Finset.Ico b.lo (b.lo + 2 ^ b.exp)) = Finset.range T := by
    ext x
    rw [Finset.mem_biUnion, Finset.mem_range, h.covered x]
    simp only [hB, Finset.mem_Ico, Block.Covers]
  have hcard := Finset.card_biUnion hapart
  rw [hunion, Finset.card_range] at hcard
  simpa using hcard.symm

/-- A tiling grows by an aligned block at its end. -/
theorem Tiling.append (h : Tiling T S) {b : Block} (hb : b.Aligned) (hlo : b.lo = T) :
    Tiling (T + 2 ^ b.exp) (insert b S) := by
  have hnew : ∀ c ∈ S, ∀ x, c.Covers x → ¬ b.Covers x := by
    intro c hc x hcx hbx
    have hlt : x < T := (h.covered x).mpr ⟨c, hc, hcx⟩
    have := hbx.1
    omega
  refine ⟨?_, ?_, ?_⟩
  · rintro c (rfl | hc)
    · exact hb
    · exact h.aligned c hc
  · rintro c (rfl | hc) d (rfl | hd) x hcx hdx
    · rfl
    · exact absurd hcx (hnew d hd x hdx)
    · exact absurd hdx (hnew c hc x hcx)
    · exact h.apart c hc d hd x hcx hdx
  · intro x
    constructor
    · intro hx
      by_cases hT : x < T
      · obtain ⟨c, hc, hcx⟩ := (h.covered x).mp hT
        exact ⟨c, Or.inr hc, hcx⟩
      · exact ⟨b, Or.inl rfl, by omega, by omega⟩
    · rintro ⟨c, rfl | hc, hcx⟩
      · have := hcx.2
        omega
      · exact Nat.lt_add_right _ ((h.covered x).mpr ⟨c, hc, hcx⟩)

/-- A block may give way to its halves. -/
theorem Tiling.split (h : Tiling T S) {b : Block} (hb : b ∈ S) (he : 0 < b.exp) :
    Tiling T (S \ {b} ∪ {b.left, b.right}) := by
  have ha := h.aligned b hb
  refine h.replace (by simpa using hb) ?_ ?_ ?_
  · rintro c (rfl | rfl)
    · exact left_aligned ha
    · exact right_aligned ha
  · rintro c (rfl | rfl) d (rfl | rfl) x hc hd
    · rfl
    · exact absurd hd (left_apart b hc)
    · exact absurd hc (left_apart b hd)
    · rfl
  · intro x
    simp [left_covers_or he x]

/-- A block and its buddy may give way to their parent. -/
theorem Tiling.join (h : Tiling T S) {b : Block} (hb : b ∈ S) (hc : b.buddy ∈ S) :
    Tiling T (S \ {b, b.buddy} ∪ {b.parent}) := by
  have ha := h.aligned b hb
  refine h.replace ?_ ?_ ?_ ?_
  · rintro c (rfl | rfl)
    · exact hb
    · exact hc
  · rintro c rfl
    exact parent_aligned ha
  · rintro c rfl d rfl x - -
    rfl
  · intro x
    simp [parent_covers ha x]

/-- A taken block gives up its right half and keeps its left one. -/
theorem Tiling.split_taken {b : Block} (h : Tiling T (F ∪ insert b L)) (he : 0 < b.exp)
    (hF : b ∉ F) (hL : b ∉ L) : Tiling T (insert b.right F ∪ insert b.left L) := by
  have heq : insert b.right F ∪ insert b.left L =
      (F ∪ insert b L) \ {b} ∪ {b.left, b.right} := by
    ext c
    simp only [Set.mem_union, Set.mem_sdiff, Set.mem_singleton_iff, Set.mem_insert_iff]
    by_cases hc : c = b
    · subst hc
      simp only [hF, hL]
      tauto
    · simp only [hc]
      tauto
  rw [heq]
  exact h.split (Or.inr (Or.inl rfl)) he

/-- A taken block takes in its free buddy. -/
theorem Tiling.join_taken {b : Block} (h : Tiling T (F ∪ L)) (hFL : ∀ c ∈ F, c ∉ L)
    (hb : b ∈ L) (hc : b.buddy ∈ F) :
    Tiling T (F \ {b.buddy} ∪ insert b.parent (L \ {b})) := by
  have heq : F \ {b.buddy} ∪ insert b.parent (L \ {b}) =
      (F ∪ L) \ {b, b.buddy} ∪ {b.parent} := by
    have h1 : b ∉ F := fun hbF => hFL b hbF hb
    have h2 : b.buddy ∉ L := hFL _ hc
    ext c
    simp only [Set.mem_union, Set.mem_sdiff, Set.mem_singleton_iff, Set.mem_insert_iff]
    by_cases hcb : c = b
    · subst hcb
      simp only [h1]
      tauto
    by_cases hcb' : c = b.buddy
    · subst hcb'
      simp only [h2]
      tauto
    · simp only [hcb, hcb']
      tauto
  rw [heq]
  exact h.join (Or.inr hb) (Or.inl hc)

/-! ## Coarse tilings -/

/-- No block of the set has its buddy in the set. -/
def Coarse (F : Set Block) : Prop := ∀ b ∈ F, b.buddy ∉ F

/-- The places of `d` are below `T` and outside the blocks of `L`. -/
def FreeOf (T : Nat) (L : Set Block) (d : Block) : Prop :=
  ∀ x, d.Covers x → x < T ∧ ∀ c ∈ L, ¬ c.Covers x

/-- An aligned block of free places lies in one block of a coarse free part. -/
theorem Tiling.exists_holding (h : Tiling T (F ∪ L)) (hF : Coarse F) {m : Nat}
    (hm : ∀ b ∈ F, m ≤ b.exp) {d : Block} (hd : d.Aligned) (hmd : m ≤ d.exp)
    (hfree : FreeOf T L d) : ∃ b ∈ F, d.exp ≤ b.exp ∧ ∀ x, d.Covers x → b.Covers x := by
  -- The induction is on the size of `d`: two halves that lie in different free
  -- blocks would be two free buddies.
  obtain ⟨n, hn⟩ : ∃ n, d.exp = m + n := ⟨d.exp - m, by omega⟩
  clear hmd
  induction n generalizing d with
  | zero =>
    obtain ⟨hT, hL⟩ := hfree d.lo d.covers_lo
    obtain ⟨b, hb, hbx⟩ := (h.covered d.lo).mp hT
    rcases hb with hb | hb
    · have hle : d.exp ≤ b.exp := by
        have := hm b hb
        omega
      exact ⟨b, hb, hle, fun x hx =>
        nested hd (h.aligned b (Or.inl hb)) hle d.covers_lo hbx hx⟩
    · exact absurd hbx (hL b hb)
  | succ n ih =>
    have hpos : 0 < d.exp := by omega
    have hhalf := left_covers_or hpos
    have hexp : d.left.exp = m + n := by simp only [left]; omega
    obtain ⟨b, hb, hble, hbx⟩ := ih (left_aligned hd)
      (fun x hx => hfree x ((hhalf x).mpr (Or.inl hx))) hexp
    obtain ⟨c, hc, hcle, hcx⟩ := ih (right_aligned hd)
      (fun x hx => hfree x ((hhalf x).mpr (Or.inr hx))) hexp
    have hba := h.aligned b (Or.inl hb)
    have hca := h.aligned c (Or.inl hc)
    by_cases hbd : d.exp ≤ b.exp
    · exact ⟨b, hb, hbd, fun x hx => nested hd hba hbd d.covers_lo (hbx _ d.left.covers_lo) hx⟩
    by_cases hcd : d.exp ≤ c.exp
    · exact ⟨c, hc, hcd, fun x hx => nested hd hca hcd
        ((hhalf _).mpr (Or.inr d.right.covers_lo)) (hcx _ d.right.covers_lo) hx⟩
    have hbl : b = d.left := eq_of_covers hba (left_aligned hd) (by simp only [left] at *; omega)
      (hbx _ d.left.covers_lo) d.left.covers_lo
    have hcr : c = d.right := eq_of_covers hca (right_aligned hd) (by simp only [right] at *; omega)
      (hcx _ d.right.covers_lo) d.right.covers_lo
    have hbud : b.buddy = c := by rw [hbl, hcr, left_buddy hd hpos]
    exact absurd (hbud ▸ hc) (hF b hb)

/-- A free block of a tiling has only free places. -/
theorem Tiling.freeOf (h : Tiling T (F ∪ L)) (hFL : ∀ b ∈ F, b ∉ L) {b : Block} (hb : b ∈ F) :
    FreeOf T L b := by
  intro x hx
  refine ⟨(h.covered x).mpr ⟨b, Or.inl hb, hx⟩, ?_⟩
  intro c hc hcx
  rw [h.apart b (Or.inl hb) c (Or.inr hc) x hx hcx] at hb
  exact hFL c hb hc

/-- A block of another tiling that keeps the taken blocks, and is none of them,
has only free places. -/
theorem Tiling.free_of_kept {x : Nat} {c : Block} (h : Tiling T (F ∪ L)) (h' : Tiling T S)
    (hL : L ⊆ S) (hc : c ∈ S) (hcL : c ∉ L) (hx : c.Covers x) : ∃ b ∈ F, b.Covers x := by
  obtain ⟨b, hb, hbx⟩ := (h.covered x).mp ((h'.covered x).mpr ⟨c, hc, hx⟩)
  rcases hb with hb | hb
  · exact ⟨b, hb, hbx⟩
  · exact absurd (h'.apart b (hL hb) c hc x hbx hx ▸ hb) hcL

theorem Tiling.subset_of_coarse (h : Tiling T (F ∪ L)) (h' : Tiling T (F' ∪ L))
    (hF : Coarse F) (hF' : Coarse F') {m : Nat} (hm : ∀ b ∈ F, m ≤ b.exp)
    (hm' : ∀ b ∈ F', m ≤ b.exp) (hFL : ∀ b ∈ F, b ∉ L) (hFL' : ∀ b ∈ F', b ∉ L) : F ⊆ F' := by
  intro b hb
  have hba := h.aligned b (Or.inl hb)
  obtain ⟨c, hc, hbc, hcov⟩ := h'.exists_holding hF' hm' hba (hm b hb) (h.freeOf hFL hb)
  have hca := h'.aligned c (Or.inl hc)
  obtain ⟨d, hd, hcd, hcov'⟩ := h.exists_holding hF hm hca (hm' c hc) (h'.freeOf hFL' hc)
  have hbd : b = d := h.apart b (Or.inl hb) d (Or.inl hd) b.lo b.covers_lo
    (hcov' _ (hcov _ b.covers_lo))
  have he : b.exp = c.exp := by
    rw [← hbd] at hcd
    omega
  rw [eq_of_covers hba hca he b.covers_lo (hcov _ b.covers_lo)]
  exact hc

/-- Two coarse free parts beside the same taken blocks are the same. -/
theorem Tiling.coarse_unique (h : Tiling T (F ∪ L)) (h' : Tiling T (F' ∪ L))
    (hF : Coarse F) (hF' : Coarse F') {m : Nat} (hm : ∀ b ∈ F, m ≤ b.exp)
    (hm' : ∀ b ∈ F', m ≤ b.exp) (hFL : ∀ b ∈ F, b ∉ L) (hFL' : ∀ b ∈ F', b ∉ L) : F = F' :=
  Set.Subset.antisymm (h.subset_of_coarse h' hF hF' hm hm' hFL hFL')
    (h'.subset_of_coarse h hF' hF hm' hm hFL' hFL)

end dyadic
