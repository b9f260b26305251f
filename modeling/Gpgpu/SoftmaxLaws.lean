-- The law of softmax_decode.S. The lanes of a warp share the row of a head, lane i the elements
-- i, i + 32, …, perhaps none of them. They take the largest element, replace each element by
-- its exp, take the sum and divide by it; two shuffles make the largest and the sum common.
import Gpgpu.Shuffles
import Gpgpu.Sources
import Gpgpu.Kernels

open memory words cells

namespace gpgpu.softmax

open core X F
open kernels (turns turns_iff LANES)

/-- `struct softmax_decode_args`. -/
structure softmax_decode_args where
  scores_off : Nat
  cur_pos : Nat
  max_seq : Nat

variable {V C : Type} {fm : Format V C} {m m1 : Nat → C} {a : softmax_decode_args} {x : Nat → V}
  {args heads qh t : Nat} {i : Fin 32} {l : Lane V}

/-! ## The rows -/

section

variable (fm : Format V C) (x : Nat → V) (S : Nat) (i : Fin 32)

/-- The largest of the first `t` elements of lane `i`. -/
def local_max : Nat → V
  | 0 => fm.ofBits 0xFF800000
  | t + 1 => fm.fmax (local_max t) (x (t * 32 + i))

def warp_max : V := butterfly.reduce fm.fmax upward (fun j => local_max fm x j (turns S j)) i

/-- What the second pass writes in turn `t`. -/
def weight (t : Nat) : V := fm.vexp (fm.fsub (x (t * 32 + i)) (warp_max fm x S i))

/-- The sum of the first `t` weights of lane `i`. -/
def local_sum : Nat → V
  | 0 => fm.ofBits 0
  | t + 1 => fm.fadd (local_sum t) (weight fm x S i t)

def warp_sum : V := butterfly.reduce fm.fadd upward (fun j => local_sum fm x S j (turns S j)) i

/-- What the third pass writes in turn `t`. -/
def out (t : Nat) : V := fm.fdiv (weight fm x S i t) (warp_sum fm x S i)

end

namespace softmax_decode_args

variable (a)

def words : List Nat := [a.scores_off, a.cur_pos, a.max_seq]

/-- The length of a row. -/
def S : Nat := a.cur_pos + 1

/-- How many turns lane `i` takes. -/
def iter_count (i : Fin 32) : Nat := turns a.S i

/-- Where element `j` of row `qh` lies. -/
def s_at (qh j : Nat) : Nat := a.scores_off + 4 * (qh * a.max_seq + j)

variable (fm : Format V C) (x : Nat → V) (qh : Nat) (i : Fin 32)

/-- The places of the second pass, with the weights. -/
def weights (t : Nat) : List (Nat × V) := [(a.s_at qh (t * 32 + i), weight fm x a.S i t)]

/-- The places of the third pass. -/
def outs (t : Nat) : List (Nat × V) := [(a.s_at qh (t * 32 + i), out fm x a.S i t)]

/-- What the places of the second pass hold after `k` turns of the third. -/
def mixed (k t : Nat) : List (Nat × V) := if t < k then a.outs fm x qh i t else a.weights fm x qh i t

/-- What lane `i` has written after `k` turns of the third pass. -/
def passes (k : Nat) : List (Nat × V) :=
  rounds (a.outs fm x qh i) k ++ rounds (a.mixed fm x qh i k) (a.iter_count i)

end softmax_decode_args

/-- The arguments are there, and the matrix lies in the address space. -/
structure Ready (fm : Format V C) (m : Nat → C) (args : Nat) (a : softmax_decode_args) (heads : Nat) :
    Prop where
  loaded : Args fm m args a.words
  args_end : args + 12 ≤ 2 ^ 32
  cur_pos : a.cur_pos < a.max_seq
  heads_le : heads ≤ 2 ^ 19
  scores_end : a.scores_off + 4 * (heads * a.max_seq) ≤ 2 ^ 32

/-- The matrix lies apart from the arguments. -/
def Clear (args : Nat) (a : softmax_decode_args) (heads : Nat) : Prop :=
  a.scores_off + 4 * (heads * a.max_seq) ≤ args ∨ args + 12 ≤ a.scores_off

/-- What lane `i` of a row reads: beside the arguments only its own elements. -/
def Reads (args : Nat) (a : softmax_decode_args) (qh : Nat) (i : Fin 32) (x : Nat) : Prop :=
  InBuf args 12 x ∨ ∃ t < a.iter_count i, x = a.s_at qh (t * 32 + i)

theorem Ready.dims (hready : Ready fm m args a heads) (hqh : qh < heads) : a.max_seq ≤ 2 ^ 30 := by
  have hend := hready.scores_end
  have h : a.max_seq ≤ heads * a.max_seq := Nat.le_mul_of_pos_left _ (by omega)
  omega

theorem Ready.congr (hready : Ready fm m args a heads)
    (hsame : ∀ x, InBuf args 12 x → fm.get m1 x = fm.get m x) : Ready fm m1 args a heads :=
  { hready with loaded := hready.loaded.of_get hsame }

/-- An element lies in its matrix. -/
theorem s_in {j : Nat} (hqh : qh < heads) (hj : j < a.max_seq) :
    InBuf a.scores_off (4 * (heads * a.max_seq)) (a.s_at qh j) :=
  entry_in hqh hj

theorem s_apart {qh' j j' : Nat} (hj : j < a.max_seq) (hj' : j' < a.max_seq) (hne : (qh, j) ≠ (qh', j')) :
    a.s_at qh j + 4 ≤ a.s_at qh' j' ∨ a.s_at qh' j' + 4 ≤ a.s_at qh j :=
  entries_apart hj hj' hne

/-- The element of a turn lies in the row. -/
theorem turn_lt (hready : Ready fm m args a heads) (ht : t < a.iter_count i) :
    t * 32 + i < a.S ∧ t * 32 + i < a.max_seq := by
  have hcur := hready.cur_pos
  have h := turns_iff.mp ht
  unfold softmax_decode_args.S at h ⊢
  omega

/-! ## The largest element -/

/-- What the registers of a lane hold in all passes. -/
structure Base (a : softmax_decode_args) (qh : Nat) (i : Fin 32) (l : Lane V) : Prop where
  active : l.active = true
  s1 : l.x s1 = num (a.s_at qh 0)
  s3 : l.x s3 = num i
  s4 : l.x s4 = num (a.iter_count i)

/-- The lane holds where it is in its row and how many turns are left. -/
structure InRow (a : softmax_decode_args) (qh : Nat) (i : Fin 32) (t pc : Nat) (l : Lane V) : Prop
    extends Base a qh i l where
  pc : l.pc = pc
  s5 : l.x s5 = num (a.iter_count i - t)
  t1 : l.x t1 = num (a.s_at qh (t * 32 + i))

/-- In the first pass, with the largest of `t` elements. -/
structure AtMax (fm : Format V C) (m : Nat → C) (args : Nat) (a : softmax_decode_args) (x : Nat → V)
    (qh : Nat) (i : Fin 32) (t pc : Nat) (l : Lane V) : Prop extends InRow a qh i t pc l where
  ft0 : l.f ft0 = local_max fm x i t
  log : Trace fm m (Reads args a qh i) [] l.log

/-- The count of the turns may go below zero before 31 is added. -/
theorem count_num (S : Nat) : Alu.eval (Alu.eval (num S) (num i) .sub) 31 .add = num (S + 31 - i) := by
  show num S - num i + num 31 = num (S + 31 - i)
  have hilt := i.isLt
  have hsum : num S + num 31 = num (S + 31 - i) + num i := by
    rw [num_add, num_add]
    congr 1
    omega
  rw [UInt32.sub_eq_add_neg, UInt32.add_assoc, UInt32.add_comm (-num i), ← UInt32.add_assoc, hsum,
    ← UInt32.sub_eq_add_neg, UInt32.add_sub_cancel]

theorem starts (hready : Ready fm m args a heads) (hqh : qh < heads) (regs : Regs V) (i : Fin 32) :
    Leads fm (assemble source.softmax_decode) m 24 (begin_lane regs qh (num args) i)
      (AtMax fm m args a x qh i 0 18) := by
  have hheads := hready.heads_le
  have hcur := hready.cur_pos
  have hdims := hready.dims hqh
  refine (leads_loads (n := 12) [(a1, 0), (a2, 1), (a3, 2)] hready.loaded hready.args_end
    (Nat.le_refl _) ⟨by decide, by simp [softmax_decode_args.words]⟩ rfl (by decide)).trans
    fun l hl => ?_
  have hregs := hl.regs
  simp [softmax_decode_args.words] at hregs
  obtain ⟨ha1, ha2, ha3⟩ := hregs
  have hrow : a.scores_off + qh * a.max_seq * 4 = a.s_at qh 0 := by
    unfold softmax_decode_args.s_at
    ring
  have hfirst : a.s_at qh 0 + i * 4 = a.s_at qh i := by
    unfold softmax_decode_args.s_at
    ring
  have hcount : Alu.eval (num (a.cur_pos + 1 + 31 - i)) 5 .srl = num (a.iter_count i) :=
    srl_lit (by omega)
  refine leads_straight [.csrr_mhartid t0, .opi .and s3 t0 0x1F, .opi .srl t1 t0 13, .opi .add s2 a2 1,
    .op .mul t0 t1 a3, .opi .sll t0 t0 2, .op .add s1 a1 t0, .op .sub s4 s2 s3, .opi .add s4 s4 31,
    .opi .srl s4 s4 5, .li t0 0xFF800000, .fmv_s_x ft0 t0, .opi .add s5 s4 0, .opi .sll t1 s3 2,
    .op .add t1 s1 t1] 3 rfl rfl hl.pc hl.active (by decide) fun hpc hactive => ?_
  refine leads_refl ⟨⟨⟨hactive, ?_, ?_, ?_⟩, hpc, ?_, ?_⟩, ?_,
    trace_nil (hl.log.mono (fun x hx => .inl hx) fun _ hx => hx)⟩ <;>
    simp (disch := omega) [straight, act, Act.lane, ha1, ha2, ha3, hl.mhartid, hrow, hfirst, count_num,
      hcount]
  · rfl

theorem Base.goto {pc : Nat} (h : Base a qh i l) : Base a qh i (l.goto pc) := ⟨h.active, h.s1, h.s3, h.s4⟩

/-- The next element of a lane. -/
theorem s_next : a.s_at qh (t * 32 + i) + 128 = a.s_at qh ((t + 1) * 32 + i) := by
  unfold softmax_decode_args.s_at
  ring

/-- The row of the block reads as `x`. -/
def RowIs (fm : Format V C) (m : Nat → C) (a : softmax_decode_args) (qh : Nat) (x : Nat → V) : Prop :=
  ∀ j < a.S, fm.get m (a.s_at qh j) = x j

/-- The address of an element, and the read of it. -/
theorem elem_lt (hready : Ready fm m args a heads) (hqh : qh < heads) (ht : t < a.iter_count i) :
    a.s_at qh (t * 32 + i) < 2 ^ 32 := by
  have hend := hready.scores_end
  have hin : InBuf a.scores_off _ _ := s_in hqh (turn_lt hready ht).2
  unfold InBuf at hin
  omega

theorem count_lt (hready : Ready fm m args a heads) (hqh : qh < heads) : a.iter_count i < 2 ^ 32 := by
  have hdims := hready.dims hqh
  have hcur := hready.cur_pos
  unfold softmax_decode_args.iter_count turns softmax_decode_args.S LANES
  omega

theorem max_turn (hready : Ready fm m args a heads) (hqh : qh < heads) (hx : RowIs fm m a qh x)
    (ht : t < a.iter_count i) (hl : AtMax fm m args a x qh i t 18 l) :
    Leads fm (assemble source.softmax_decode) m 24 l (AtMax fm m args a x qh i (t + 1) 18) := by
  have hlt := elem_lt hready hqh ht
  have hcount := count_lt (i := i) hready hqh
  have hread : Reads args a qh i (a.s_at qh (t * 32 + i)) := .inr ⟨t, ht, rfl⟩
  have hget : fm.get (view fm m l) (a.s_at qh (t * 32 + i)) = x (t * 32 + i) :=
    (hl.log.get (by simp)).trans (hx _ (turn_lt hready ht).1)
  have hless : a.iter_count i - t - 1 = a.iter_count i - (t + 1) := by omega
  refine leads_test 18 rfl hl.pc hl.active (by decide)
    (by rw [hl.s5, x_zero, eq_zero_num (by omega)]) (fun hlast => by omega) fun _ => ?_
  refine leads_straight [.flw ft1 0 t1, .fop .fmax ft0 ft0 ft1, .opi .add t1 t1 128, .opi .add s5 s5 (-1)]
    19 rfl rfl rfl ((active_goto ..).trans hl.active) (by decide) fun hpc hactive => ?_
  refine leads_jump 23 rfl hpc hactive (by decide) (leads_refl ?_)
  refine ⟨⟨⟨(active_goto ..).trans hactive, ?_, ?_, ?_⟩, rfl, ?_, ?_⟩, ?_, ?_⟩ <;>
    simp (disch := omega) [straight, act, Act.lane, FAlu.eval, hl.s1, hl.s3, hl.s4, hl.s5, hl.t1, hl.ft0,
      hl.log, hget, hread, hless, s_next]
  rfl

/-- Before and after a reduction, with a value in `r`. -/
structure AtShuffle (fm : Format V C) (m : Nat → C) (args : Nat) (a : softmax_decode_args) (qh : Nat)
    (i : Fin 32) (ps : List (Nat × V)) (r : F) (v : V) (pc : Nat) (l : Lane V) : Prop
    extends Base a qh i l where
  pc : l.pc = pc
  value : l.f r = v
  log : Trace fm m (Reads args a qh i) ps l.log

/-- The first pass. -/
theorem maxes (hready : Ready fm m args a heads) (hqh : qh < heads) (hx : RowIs fm m a qh x)
    (regs : Regs V) (i : Fin 32) :
    Leads fm (assemble source.softmax_decode) m 24 (begin_lane regs qh (num args) i)
      (AtShuffle fm m args a qh i [] ft0 (local_max fm x i (a.iter_count i)) 24) := by
  refine (starts (x := x) hready hqh regs i).trans fun l hl => ?_
  refine (leads_turns (fun t => AtMax fm m args a x qh i t 18) (Nat.zero_le (a.iter_count i)) hl
    fun t ht l hl => max_turn hready hqh hx ht hl).trans fun l hl => ?_
  refine leads_test 18 rfl hl.pc hl.active (by decide)
    (by rw [hl.s5, x_zero, eq_zero_num (by omega)]) (fun _ => ?_) fun hmore => by omega
  exact leads_refl ⟨hl.toBase.goto, rfl, hl.ft0, hl.log⟩

/-! ## The weights -/

/-- In the second pass, with `t` weights written. -/
structure AtSum (fm : Format V C) (m : Nat → C) (args : Nat) (a : softmax_decode_args) (x : Nat → V)
    (qh : Nat) (i : Fin 32) (t pc : Nat) (l : Lane V) : Prop extends InRow a qh i t pc l where
  ft5 : l.f ft5 = warp_max fm x a.S i
  ft6 : l.f ft6 = local_sum fm x a.S i t
  log : Trace fm m (Reads args a qh i) (rounds (a.weights fm x qh i) t) l.log

theorem sum_starts (hl : AtShuffle fm m args a qh i [] ft0 (warp_max fm x a.S i) 34 l) :
    Leads fm (assemble source.softmax_decode) m 48 l (AtSum fm m args a x qh i 0 39) := by
  have hfirst : a.s_at qh 0 + i * 4 = a.s_at qh i := by
    unfold softmax_decode_args.s_at
    ring
  refine leads_straight [.fmv_s ft5 ft0, .fmv_s_x ft6 zero, .opi .add s5 s4 0, .opi .sll t1 s3 2,
    .op .add t1 s1 t1] 34 rfl rfl hl.pc hl.active (by decide) fun hpc hactive => ?_
  refine leads_refl ⟨⟨⟨hactive, ?_, ?_, ?_⟩, hpc, ?_, ?_⟩, ?_, ?_, hl.log⟩ <;>
    simp [straight, act, Act.lane, hl.s1, hl.s3, hl.s4, hl.value, hfirst]
  rfl

/-- The earlier turns of a lane have not touched the element. -/
theorem turns_apart (hready : Ready fm m args a heads) {t' : Nat} (ht : t < a.iter_count i)
    (ht' : t' < a.iter_count i) (hne : t' ≠ t) :
    a.s_at qh (t' * 32 + i) + 4 ≤ a.s_at qh (t * 32 + i) ∨
      a.s_at qh (t * 32 + i) + 4 ≤ a.s_at qh (t' * 32 + i) := by
  refine s_apart (turn_lt hready ht').2 (turn_lt hready ht).2 fun he => hne ?_
  have := (Prod.mk.inj he).2
  omega

theorem sum_turn (hready : Ready fm m args a heads) (hqh : qh < heads) (hx : RowIs fm m a qh x)
    (ht : t < a.iter_count i) (hl : AtSum fm m args a x qh i t 39 l) :
    Leads fm (assemble source.softmax_decode) m 48 l (AtSum fm m args a x qh i (t + 1) 39) := by
  have hlt := elem_lt hready hqh ht
  have hcount := count_lt (i := i) hready hqh
  have hread : Reads args a qh i (a.s_at qh (t * 32 + i)) := .inr ⟨t, ht, rfl⟩
  have hnew : ∀ p ∈ rounds (a.weights fm x qh i) t,
      p.1 + 4 ≤ a.s_at qh (t * 32 + i) ∨ a.s_at qh (t * 32 + i) + 4 ≤ p.1 := by
    intro p hp
    obtain ⟨t', ht', hp⟩ := mem_rounds.mp hp
    obtain rfl := List.mem_singleton.mp hp
    exact turns_apart hready ht (by omega) (by omega)
  have hget : fm.get (view fm m l) (a.s_at qh (t * 32 + i)) = x (t * 32 + i) :=
    (hl.log.get hnew).trans (hx _ (turn_lt hready ht).1)
  have hless : a.iter_count i - t - 1 = a.iter_count i - (t + 1) := by omega
  refine leads_test 39 rfl hl.pc hl.active (by decide)
    (by rw [hl.s5, x_zero, eq_zero_num (by omega)]) (fun hlast => by omega) fun _ => ?_
  refine leads_straight [.flw ft0 0 t1, .fop .fsub ft0 ft0 ft5, .vexp ft0 ft0, .fsw ft0 0 t1,
    .fop .fadd ft6 ft6 ft0, .opi .add t1 t1 128, .opi .add s5 s5 (-1)]
    40 rfl rfl rfl ((active_goto ..).trans hl.active) (by decide) fun hpc hactive => ?_
  refine leads_jump 47 rfl hpc hactive (by decide) (leads_refl ?_)
  refine ⟨⟨⟨(active_goto ..).trans hactive, ?_, ?_, ?_⟩, rfl, ?_, ?_⟩, ?_, ?_, ?_⟩ <;>
    simp (disch := omega) [straight, act, Act.lane, FAlu.eval, hl.s1, hl.s3, hl.s4, hl.s5, hl.t1, hl.ft5,
      hl.ft6, hget, hless, s_next]
  · rfl
  · rw [rounds_succ]
    exact .store (by simp [hread, hl.log]) rfl rfl hnew

/-- The second pass. -/
theorem sums (hready : Ready fm m args a heads) (hqh : qh < heads) (hx : RowIs fm m a qh x)
    (hl : AtShuffle fm m args a qh i [] ft0 (warp_max fm x a.S i) 34 l) :
    Leads fm (assemble source.softmax_decode) m 48 l
      (AtShuffle fm m args a qh i (rounds (a.weights fm x qh i) (a.iter_count i)) ft6
        (local_sum fm x a.S i (a.iter_count i)) 48) := by
  refine (sum_starts hl).trans fun l hl => ?_
  refine (leads_turns (fun t => AtSum fm m args a x qh i t 39) (Nat.zero_le (a.iter_count i)) hl
    fun t ht l hl => sum_turn hready hqh hx ht hl).trans fun l hl => ?_
  refine leads_test 39 rfl hl.pc hl.active (by decide)
    (by rw [hl.s5, x_zero, eq_zero_num (by omega)]) (fun _ => ?_) fun hmore => by omega
  exact leads_refl ⟨hl.toBase.goto, rfl, hl.ft6, hl.log⟩

/-! ## The division -/

/-- In the third pass, with `k` elements divided. -/
structure AtOut (fm : Format V C) (m : Nat → C) (args : Nat) (a : softmax_decode_args) (x : Nat → V)
    (qh : Nat) (i : Fin 32) (k pc : Nat) (l : Lane V) : Prop extends InRow a qh i k pc l where
  ft6 : l.f ft6 = warp_sum fm x a.S i
  log : Trace fm m (Reads args a qh i) (a.passes fm x qh i k) l.log

theorem AtOut.goto {k pc : Nat} (hl : AtOut fm m args a x qh i k pc l) (pc' : Nat) :
    AtOut fm m args a x qh i k pc' (l.goto pc') :=
  { hl with pc := rfl }

def out_pc (a : softmax_decode_args) (i : Fin 32) (k : Nat) : Nat := if k < a.iter_count i then 62 else 68

theorem passes_zero : a.passes fm x qh i 0 = rounds (a.weights fm x qh i) (a.iter_count i) := by
  unfold softmax_decode_args.passes
  exact rounds_congr fun t _ => if_neg (Nat.not_lt_zero t)

/-- An element is written over. -/
theorem passes_store (hready : Ready fm m args a heads) {k : Nat} (hk : k < a.iter_count i)
    {log : List (Access V)} (hlog : Trace fm m (Reads args a qh i) (a.passes fm x qh i k) log) :
    Trace fm m (Reads args a qh i) (a.passes fm x qh i (k + 1))
      (.store (a.s_at qh (k * 32 + i)) (out fm x a.S i k) :: log) := by
  have hsplit : a.passes fm x qh i (k + 1) = (a.s_at qh (k * 32 + i), out fm x a.S i k) ::
      (rounds (a.outs fm x qh i) k ++ rounds (a.mixed fm x qh i (k + 1)) (a.iter_count i)) := by
    unfold softmax_decode_args.passes
    rw [rounds_succ]
    rfl
  have hplace : ∀ k t, (a.mixed fm x qh i k t).map Prod.fst = [a.s_at qh (t * 32 + i)] := by
    intro k t
    unfold softmax_decode_args.mixed
    split <;> rfl
  rw [hsplit]
  refine hlog.over rfl rfl ?_ fun p hp => ?_
  · unfold softmax_decode_args.passes rounds
    simp only [List.map_append, List.map_flatMap, hplace]
  · rcases List.mem_append.mp hp with hp | hp
    · obtain ⟨t, ht, hmem⟩ := mem_rounds.mp hp
      refine .inr ⟨List.mem_append_left _ hp, ?_⟩
      obtain rfl := List.mem_singleton.mp hmem
      exact turns_apart hready hk (by omega) (by omega)
    · obtain ⟨t, ht, hmem⟩ := mem_rounds.mp hp
      unfold softmax_decode_args.mixed at hmem
      by_cases htk : t = k
      · subst htk
        rw [if_pos (Nat.lt_succ_self t)] at hmem
        exact .inl (List.mem_singleton.mp hmem)
      · have hold : a.mixed fm x qh i k t = a.mixed fm x qh i (k + 1) t := by
          unfold softmax_decode_args.mixed
          by_cases hlt : t < k
          · rw [if_pos hlt, if_pos (by omega)]
          · rw [if_neg hlt, if_neg (by omega)]
        have hfst : p.1 = a.s_at qh (t * 32 + i) := by
          have hp1 : p.1 ∈ (a.mixed fm x qh i (k + 1) t).map Prod.fst := List.mem_map_of_mem hmem
          rw [hplace] at hp1
          exact List.mem_singleton.mp hp1
        refine .inr ⟨List.mem_append_right _ (mem_rounds.mpr ⟨t, ht, hold ▸ hmem⟩), ?_⟩
        rw [hfst]
        exact turns_apart hready hk ht htk

theorem out_turn (hready : Ready fm m args a heads) (hqh : qh < heads) {k : Nat}
    (hk : k < a.iter_count i) (hl : AtOut fm m args a x qh i k 62 l) :
    Leads fm (assemble source.softmax_decode) m 69 l
      (AtOut fm m args a x qh i (k + 1) (out_pc a i (k + 1))) := by
  have hlt := elem_lt hready hqh hk
  have hcount := count_lt (i := i) hready hqh
  have hread : Reads args a qh i (a.s_at qh (k * 32 + i)) := .inr ⟨k, hk, rfl⟩
  have hget : fm.get (view fm m l) (a.s_at qh (k * 32 + i)) = weight fm x a.S i k := by
    refine hl.log.values (_, _) (List.mem_append_right _ (mem_rounds.mpr ⟨k, hk, ?_⟩))
    unfold softmax_decode_args.mixed
    rw [if_neg (Nat.lt_irrefl k)]
    exact List.mem_singleton.mpr rfl
  have hless : a.iter_count i - k - 1 = a.iter_count i - (k + 1) := by omega
  refine leads_line [.flw ft0 0 t1, .fop .fdiv ft0 ft0 ft6, .fsw ft0 0 t1, .opi .add t1 t1 128,
    .opi .add s5 s5 (-1)] 62 rfl rfl hl.pc hl.active (by decide) fun l1 hl1 hpc hactive => ?_
  have hbody : AtOut fm m args a x qh i (k + 1) 67 l1 := by
    subst hl1
    refine ⟨⟨⟨hactive, ?_, ?_, ?_⟩, hpc, ?_, ?_⟩, ?_, ?_⟩ <;>
      simp (disch := omega) [straight, act, Act.lane, FAlu.eval, hl.s1, hl.s3, hl.s4, hl.s5, hl.t1,
        hl.ft6, hget, hless, s_next]
    exact passes_store hready hk (by simp [hread, hl.log])
  refine leads_test 67 rfl hbody.pc hactive (by decide)
    (by rw [hbody.s5, x_zero, ne_zero_num (by omega)]) (fun hmore => ?_) fun hlast => ?_
  · rw [out_pc, if_pos (by omega)]
    exact leads_refl (hbody.goto 62)
  · rw [out_pc, if_neg (by omega)]
    exact leads_refl (hbody.goto 68)

/-- The third pass, and the end of a lane. -/
theorem divides (hready : Ready fm m args a heads) (hqh : qh < heads)
    (hl : AtShuffle fm m args a qh i (rounds (a.weights fm x qh i) (a.iter_count i)) ft6
      (warp_sum fm x a.S i) 58 l) :
    Leads fm (assemble source.softmax_decode) m 69 l
      (LaneDone fm m (Reads args a qh i) (a.passes fm x qh i (a.iter_count i))) := by
  have hcount := count_lt (i := i) hready hqh
  have hfirst : a.s_at qh 0 + i * 4 = a.s_at qh i := by
    unfold softmax_decode_args.s_at
    ring
  refine leads_line [.opi .add s5 s4 0] 58 rfl rfl hl.pc hl.active (by decide)
    fun l1 hl1 hpc hactive => ?_
  have hs5 : l1.x s5 = num (a.iter_count i) := by
    subst hl1
    simp [straight, act, Act.lane, hl.s4]
  have hlog : Trace fm m (Reads args a qh i) (a.passes fm x qh i 0) l1.log := by
    subst hl1
    rw [passes_zero]
    exact hl.log
  refine leads_test 59 rfl hpc hactive (by decide) (by rw [hs5, x_zero, eq_zero_num hcount])
    (fun hzero => ?_) fun hsome => ?_
  · rw [hzero]
    exact leads_ebreak 68 rfl rfl hactive (by decide) ⟨rfl, hlog⟩
  · have hbegin : Leads fm (assemble source.softmax_decode) m 69 (l1.goto 60)
        (AtOut fm m args a x qh i 0 (out_pc a i 0)) := by
      rw [out_pc, if_pos (by omega)]
      refine leads_straight [.opi .sll t1 s3 2, .op .add t1 s1 t1] 60 rfl rfl rfl
        ((active_goto ..).trans hactive) (by decide) fun hpc hactive => ?_
      subst hl1
      refine leads_refl ⟨⟨⟨hactive, ?_, ?_, ?_⟩, hpc, ?_, ?_⟩, ?_, hlog⟩ <;>
        simp [straight, act, Act.lane, hl.s1, hl.s3, hl.s4, hl.value, hfirst]
    refine hbegin.trans fun l hl => ?_
    refine (leads_turns (fun k => AtOut fm m args a x qh i k (out_pc a i k))
      (Nat.zero_le (a.iter_count i)) hl fun k hk l hl => ?_).trans fun l hl => ?_
    · rw [out_pc, if_pos hk] at hl
      exact out_turn hready hqh hk hl
    · rw [out_pc, if_neg (Nat.lt_irrefl _)] at hl
      exact leads_ebreak 68 rfl hl.pc hl.active (by decide) ⟨rfl, hl.log⟩

/-! ## The launch -/

/-- In the end a lane has written its elements of the row. -/
theorem mem_passes {p : Nat × V} (hp : p ∈ a.passes fm x qh i (a.iter_count i)) :
    ∃ t < a.iter_count i, p = (a.s_at qh (t * 32 + i), out fm x a.S i t) := by
  rcases List.mem_append.mp hp with hp | hp
  · obtain ⟨t, ht, hp⟩ := mem_rounds.mp hp
    exact ⟨t, ht, List.mem_singleton.mp hp⟩
  · obtain ⟨t, ht, hp⟩ := mem_rounds.mp hp
    unfold softmax_decode_args.mixed at hp
    rw [if_pos ht] at hp
    exact ⟨t, ht, List.mem_singleton.mp hp⟩

theorem mem_weights {p : Nat × V} {n : Nat} (hp : p ∈ rounds (a.weights fm x qh i) n) :
    ∃ t < n, p = (a.s_at qh (t * 32 + i), weight fm x a.S i t) := by
  obtain ⟨t, ht, hp⟩ := mem_rounds.mp hp
  exact ⟨t, ht, List.mem_singleton.mp hp⟩

/-- The elements of different lanes lie apart. -/
theorem lanes_apart (hready : Ready fm m args a heads) {qh' t' : Nat} {i' : Fin 32}
    (ht : t < a.iter_count i) (ht' : t' < a.iter_count i') (hne : (qh, i) ≠ (qh', i')) :
    a.s_at qh (t * 32 + i) + 4 ≤ a.s_at qh' (t' * 32 + i') ∨
      a.s_at qh' (t' * 32 + i') + 4 ≤ a.s_at qh (t * 32 + i) := by
  refine s_apart (turn_lt hready ht).2 (turn_lt hready ht').2 fun he => hne ?_
  obtain ⟨rfl, hj⟩ := Prod.mk.inj he
  exact congrArg _ (Fin.ext (by omega))

/-- The elements of a lane lie apart from what the others read. -/
theorem reads_apart (hready : Ready fm m args a heads) (hclear : Clear args a heads) (hqh : qh < heads)
    {qh' : Nat} {i' : Fin 32} (ht : t < a.iter_count i) (hne : (qh, i) ≠ (qh', i')) {y : Nat}
    (hy : Reads args a qh' i' y) : a.s_at qh (t * 32 + i) + 4 ≤ y ∨ y + 4 ≤ a.s_at qh (t * 32 + i) := by
  rcases hy with hy | ⟨t', ht', rfl⟩
  · have hin : InBuf a.scores_off _ _ := s_in hqh (turn_lt hready ht).2
    unfold Clear at hclear
    unfold InBuf at hin hy
    omega
  · exact lanes_apart hready ht ht' hne

/-- The shuffles between two passes. -/
theorem shuffles {ps : Fin 32 → List (Nat × V)} {r : F} {v : Fin 32 → V} {pc : Nat} (op : FAlu)
    (hne : ft3 ≠ r) (hcode : ((assemble source.softmax_decode).drop pc).take 10 =
      reduction op ft3 r [1, 2, 4, 8, 16]) {lanes : Fin 32 → Lane V}
    (hlanes : ∀ i, AtShuffle fm m args a qh i (ps i) r (v i) pc (lanes i)) (happ : Apart (logs lanes)) :
    ∃ lanes', Gets fm (assemble source.softmax_decode) m lanes lanes' ∧ ∀ i,
      AtShuffle fm m args a qh i (ps i) r (butterfly.reduce (fun a b => op.eval fm a b) upward v i)
        (pc + 10) (lanes' i) := by
  obtain ⟨lanes', hgets, hred, hpc, hactive⟩ := gets_reduce fm (assemble source.softmax_decode) m op ft3 r
    [1, 2, 4, 8, 16] hne hcode (fun i => (hlanes i).pc) (fun i => (hlanes i).active) happ
  refine ⟨lanes', hgets, fun i => ⟨⟨hactive i, ?_, ?_, ?_⟩, hpc i, ?_, ?_⟩⟩
  · rw [hred.x, (hlanes i).s1]
  · rw [hred.x, (hlanes i).s3]
  · rw [hred.x, (hlanes i).s4]
  · rw [hred.value i, funext fun j => (hlanes j).value]
    rfl
  · rw [hred.log]
    exact (hlanes i).log

/-- A warp: three passes with the shuffles between them. -/
theorem block_ends (hready : Ready fm m args a heads) (hclear : Clear args a heads) (hqh : qh < heads)
    (hx : RowIs fm m a qh x) (regs : Fin 32 → Regs V) :
    ∃ lanes, Gets fm (assemble source.softmax_decode) m
      (fun i => begin_lane (regs i) qh (num args) i) lanes ∧
      ∀ i, LaneDone fm m (Reads args a qh i) (a.passes fm x qh i (a.iter_count i)) (lanes i) := by
  have hother : ∀ {i j : Fin 32}, i ≠ j → (qh, i) ≠ (qh, j) := fun hne he => hne (Prod.mk.inj he).2
  have hnone : ∀ {lanes : Fin 32 → Lane V}, (∀ i, Trace fm m (Reads args a qh i) [] (lanes i).log) →
      Apart (logs lanes) := fun h => apart_of_traces h (by simp) (by simp)
  have hweights : ∀ {lanes : Fin 32 → Lane V}, (∀ i, Trace fm m (Reads args a qh i)
      (rounds (a.weights fm x qh i) (a.iter_count i)) (lanes i).log) → Apart (logs lanes) := by
    refine fun h => apart_of_traces h (fun i j hij p hp p' hp' => ?_) fun i j hij p hp y hy => ?_
    · obtain ⟨t, ht, rfl⟩ := mem_weights hp
      obtain ⟨t', ht', rfl⟩ := mem_weights hp'
      exact lanes_apart hready ht ht' (hother hij)
    · obtain ⟨t, ht, rfl⟩ := mem_weights hp
      exact reads_apart hready hclear hqh ht (hother hij) hy
  obtain ⟨lanes1, hgets1, hlanes1⟩ := gets_leads (fun i => maxes hready hqh hx (regs i) i)
    (fun i l hl _ => hl.pc ▸ Nat.le_refl _) fun lanes hlanes => hnone fun i => (hlanes i).log
  obtain ⟨lanes2, hgets2, hlanes2⟩ := shuffles .fmax (by decide) rfl hlanes1
    (hnone fun i => (hlanes1 i).log)
  obtain ⟨lanes3, hgets3, hlanes3⟩ := gets_leads (fun i => sums hready hqh hx (hlanes2 i))
    (fun i l hl _ => hl.pc ▸ Nat.le_refl _) fun lanes hlanes => hweights fun i => (hlanes i).log
  obtain ⟨lanes4, hgets4, hlanes4⟩ := shuffles .fadd (by decide) rfl hlanes3
    (hweights fun i => (hlanes3 i).log)
  obtain ⟨lanes5, hgets5, hdone⟩ := gets_leads (fun i => divides hready hqh (hlanes4 i))
    (fun i l hl hactive => by rw [hl.ended] at hactive; cases hactive) fun lanes hlanes => by
      refine apart_of_traces (fun i => (hlanes i).log) (fun i j hij p hp p' hp' => ?_)
        fun i j hij p hp y hy => ?_
      · obtain ⟨t, ht, rfl⟩ := mem_passes hp
        obtain ⟨t', ht', rfl⟩ := mem_passes hp'
        exact lanes_apart hready ht ht' (hother hij)
      · obtain ⟨t, ht, rfl⟩ := mem_passes hp
        exact reads_apart hready hclear hqh ht (hother hij) hy
  exact ⟨lanes5, (((hgets1.trans hgets2).trans hgets3).trans hgets4).trans hgets5, hdone⟩

/-- The row `qh` as it lies in the memory. -/
def softmax_decode_args.row (a : softmax_decode_args) (fm : Format V C) (m : Nat → C) (qh j : Nat) : V :=
  fm.get m (a.s_at qh j)

/-- What the launch leaves, whatever the order of the rows. -/
theorem softmax_decode_spec (hready : Ready fm m args a heads) (hclear : Clear args a heads)
    (regs : Nat → Fin 32 → Regs V) {order : List Nat} (horder : order.Perm (List.range heads)) :
    Ends fm (assemble source.softmax_decode) regs (num args) order m fun m' logs =>
      (∀ log ∈ logs, Within (fun y => InBuf args 12 y ∨ InBuf a.scores_off (4 * (heads * a.max_seq)) y)
        (InBuf a.scores_off (4 * (heads * a.max_seq))) log) ∧
      (∀ qh < heads, ∀ i t, t < a.iter_count i → fm.get m' (a.s_at qh (t * 32 + i)) =
        out fm (a.row fm m qh) a.S i t) ∧
      ∀ y, (∀ qh < heads, y < a.s_at qh 0 ∨ a.s_at qh a.S ≤ y) → m' y = m y := by
  have hmem : ∀ qh, qh ∈ order ↔ qh < heads := fun qh => horder.mem_iff.trans List.mem_range
  have hends : Ends fm (assemble source.softmax_decode) regs (num args) order m _ := launch_spec
    (R := fun qh i => Reads args a qh i)
    (P := fun qh i => a.passes fm (a.row fm m qh) qh i (a.iter_count i))
    (horder.nodup_iff.mpr List.nodup_range)
    (fun qh _ qh' _ i i' hne p hp p' hp' => by
      obtain ⟨t, ht, rfl⟩ := mem_passes hp
      obtain ⟨t', ht', rfl⟩ := mem_passes hp'
      exact lanes_apart hready ht ht' hne)
    (fun qh hqh m1 hm1 => by
      -- The other blocks have written neither the arguments nor this row.
      have hsame : ∀ y, (∃ i, Reads args a qh i y) → fm.get m1 y = fm.get m y := by
        rintro y ⟨i, hy⟩
        apply get_congr
        intro z h1 h2
        apply hm1
        rintro qh' hqh' hne ⟨i', p, hp, hin⟩
        obtain ⟨t, ht, rfl⟩ := mem_passes hp
        have := reads_apart hready hclear ((hmem qh').mp hqh') ht (fun he => hne (Prod.mk.inj he).1) hy
        dsimp only at hin
        omega
      refine block_ends (hready.congr fun y hy => hsame y ⟨0, .inl hy⟩) hclear ((hmem qh).mp hqh)
        (fun j hj => hsame _ ⟨Fin.ofNat 32 j, .inr ⟨j / 32, turns_iff.mpr ?_, ?_⟩⟩) (regs qh)
      · rw [Fin.val_ofNat]
        omega
      · rw [Fin.val_ofNat, Nat.mul_comm, Nat.div_add_mod])
  refine hends.mono fun m' logs heff => ⟨fun log hlog => ⟨fun y hy => ?_, fun y hy => ?_⟩,
    fun qh hqh i t ht => ?_, fun y hy => heff.frame y ?_⟩
  · obtain ⟨qh, hqh, i, hR⟩ := heff.reads log hlog y hy
    rcases hR with hR | ⟨t, ht, rfl⟩
    · exact .inl hR
    · exact .inr (s_in ((hmem qh).mp hqh) (turn_lt hready ht).2)
  · obtain ⟨qh, hqh, i, p, hp, rfl⟩ := heff.mem_written hlog hy
    obtain ⟨t, ht, rfl⟩ := mem_passes hp
    exact s_in ((hmem qh).mp hqh) (turn_lt hready ht).2
  · exact heff.values qh ((hmem qh).mpr hqh) i (_, _)
      (List.mem_append_left _ (mem_rounds.mpr ⟨t, ht, List.mem_singleton.mpr rfl⟩))
  · rintro qh hqh ⟨i, p, hp, hin⟩
    obtain ⟨t, ht, rfl⟩ := mem_passes hp
    have hlt := (turn_lt hready ht).1
    have hrow := hy qh ((hmem qh).mp hqh)
    unfold softmax_decode_args.s_at at hin hrow
    dsimp only at hin
    omega

/-! ## Exact numbers -/

/-- The elements of a row, lane by lane. -/
theorem range_eq_lanes (S : Nat) : Finset.range S = Finset.univ.biUnion fun i : Fin 32 =>
    (Finset.range (turns S i)).image fun t => t * 32 + i.val := by
  ext j
  simp only [Finset.mem_range, Finset.mem_biUnion, Finset.mem_univ, true_and, Finset.mem_image]
  constructor
  · intro hj
    have hsplit : j / 32 * 32 + (Fin.ofNat 32 j).val = j := by
      rw [Fin.val_ofNat]
      omega
    exact ⟨Fin.ofNat 32 j, j / 32, turns_iff.mpr (by omega), hsplit⟩
  · rintro ⟨i, t, ht, rfl⟩
    exact turns_iff.mp ht

theorem sum_lanes {M : Type} [AddCommMonoid M] (f : Nat → M) (S : Nat) :
    ∑ i : Fin 32, ∑ t ∈ Finset.range (turns S i), f (t * 32 + i) = ∑ j ∈ Finset.range S, f j := by
  rw [range_eq_lanes S, Finset.sum_biUnion]
  · refine Finset.sum_congr rfl fun i _ => ?_
    rw [Finset.sum_image]
    intro t _ t' _ he
    dsimp only at he
    omega
  · intro i _ i' _ hne
    refine Finset.disjoint_left.mpr fun j hj hj' => hne ?_
    obtain ⟨t, -, rfl⟩ := Finset.mem_image.mp hj
    obtain ⟨t', -, he⟩ := Finset.mem_image.mp hj'
    exact Fin.ext (by omega)

theorem sup_lanes {α : Type} [SemilatticeSup α] [OrderBot α] (f : Nat → α) (S : Nat) :
    (Finset.univ.sup fun i : Fin 32 => (Finset.range (turns S i)).sup fun t => f (t * 32 + i)) =
      (Finset.range S).sup f := by
  rw [range_eq_lanes S, Finset.sup_biUnion]
  refine Finset.sup_congr rfl fun i _ => ?_
  rw [Finset.sup_image]
  rfl

section

variable {K : Type} [Field K] [LinearOrder K] {sqrt exp : K → K} {val : V → WithBot K} {r : Nat → K}
  {n : Nat}

/-- The largest of `r 0`, …, `r n`. -/
def peak (r : Nat → K) (n : Nat) : K := (Finset.range (n + 1)).sup' Finset.nonempty_range_add_one r

/-- The softmax of `r 0`, …, `r n`. -/
def softmax_ref (exp : K → K) (r : Nat → K) (n j : Nat) : K :=
  exp (r j - peak r n) / ∑ i ∈ Finset.range (n + 1), exp (r i - peak r n)

/-- A softmax sums to 1 when `exp` is positive. -/
theorem softmax_ref_sum [IsStrictOrderedRing K] (hpos : ∀ y, 0 < exp y) (r : Nat → K) (n : Nat) :
    ∑ j ∈ Finset.range (n + 1), softmax_ref exp r n j = 1 := by
  unfold softmax_ref
  rw [← Finset.sum_div]
  exact div_self (Finset.sum_pos (fun i _ => hpos _) Finset.nonempty_range_add_one).ne'

theorem exact_local_max (hexact : Exact fm sqrt exp val) (i : Fin 32) (t : Nat) :
    val (local_max fm x i t) = (Finset.range t).sup fun t => val (x (t * 32 + i)) := by
  induction t with
  | zero => exact hexact.lowest
  | succ t ih => rw [local_max, hexact.fmax, ih, Finset.range_add_one, Finset.sup_insert, max_comm]

theorem exact_warp_max (hexact : Exact fm sqrt exp val) (hr : ∀ j < n + 1, val (x j) = r j)
    (i : Fin 32) : val (warp_max fm x (n + 1) i) = (peak r n : K) := by
  unfold warp_max peak
  rw [exact_max hexact, Finset.coe_sup', ← sup_lanes _ (n + 1)]
  refine Finset.sup_congr rfl fun i _ => ?_
  rw [exact_local_max hexact]
  exact Finset.sup_congr rfl fun t ht => hr _ (turns_iff.mp (Finset.mem_range.mp ht))

variable (hexact : Exact fm sqrt exp val) (hr : ∀ j < n + 1, val (x j) = r j)
include hexact hr

theorem exact_weight {t : Nat} (ht : t < turns (n + 1) i) :
    val (weight fm x (n + 1) i t) = (exp (r (t * 32 + i) - peak r n) : K) :=
  hexact.vexp (hexact.fsub (hr _ (turns_iff.mp ht)) (exact_warp_max hexact hr i))

theorem exact_local_sum {t : Nat} (ht : t ≤ turns (n + 1) i) : val (local_sum fm x (n + 1) i t) =
    (∑ t ∈ Finset.range t, exp (r (t * 32 + i) - peak r n) : K) := by
  induction t with
  | zero => exact hexact.zero
  | succ t ih =>
    rw [Finset.sum_range_succ]
    exact hexact.fadd (ih (by omega)) (exact_weight hexact hr ht)

theorem exact_warp_sum : val (warp_sum fm x (n + 1) i) =
    (∑ j ∈ Finset.range (n + 1), exp (r j - peak r n) : K) := by
  rw [← sum_lanes fun j => exp (r j - peak r n)]
  exact exact_sum hexact (fun i => exact_local_sum hexact hr (Nat.le_refl _)) i

/-- Lane `i` writes its part of the softmax. -/
theorem exact_out {t : Nat} (ht : t < turns (n + 1) i) :
    val (out fm x (n + 1) i t) = (softmax_ref exp r n (t * 32 + i) : K) :=
  hexact.fdiv (exact_weight hexact hr ht) (exact_warp_sum hexact hr)

end

/-- The launch replaces the first `cur_pos + 1` elements of each row by their softmax, so that
they sum to 1, and changes nothing else. -/
theorem softmax_decode_writes_the_softmax (fm : Format V C) (regs : Nat → Fin 32 → Regs V) (m : Nat → C)
    (args : Nat) (a : softmax_decode_args) (heads : Nat) (order : List Nat)
    (horder : order.Perm (List.range heads)) (hready : Ready fm m args a heads)
    (hclear : Clear args a heads) {K : Type} [Field K] [LinearOrder K] [IsStrictOrderedRing K]
    (sqrt exp : K → K) (val : V → WithBot K) (hexact : Exact fm sqrt exp val) (hpos : ∀ y, 0 < exp y)
    (r : Nat → Nat → K)
    (hr : ∀ qh < heads, ∀ j < a.cur_pos + 1, val (fm.get m (a.s_at qh j)) = r qh j) :
    Ends fm (assemble source.softmax_decode) regs (num args) order m fun m' _ =>
      (∀ qh < heads, ∀ j < a.cur_pos + 1,
        val (fm.get m' (a.s_at qh j)) = (softmax_ref exp (r qh) a.cur_pos j : K)) ∧
      (∀ qh < heads, ∑ j ∈ Finset.range (a.cur_pos + 1), softmax_ref exp (r qh) a.cur_pos j = 1) ∧
      (∀ qh < heads, ∀ j < a.max_seq, a.cur_pos + 1 ≤ j →
        fm.get m' (a.s_at qh j) = fm.get m (a.s_at qh j)) ∧
      ∀ y, (∀ qh < heads, y < a.s_at qh 0 ∨ a.s_at qh (a.cur_pos + 1) ≤ y) → m' y = m y := by
  refine (softmax_decode_spec hready hclear regs horder).mono fun m' logs ⟨_, hval, hframe⟩ =>
    ⟨fun qh hqh j hj => ?_, fun qh _ => softmax_ref_sum hpos (r qh) a.cur_pos, fun qh hqh j hj hout => ?_,
      hframe⟩
  · have hsplit : j / 32 * 32 + (Fin.ofNat 32 j).val = j := by
      rw [Fin.val_ofNat]
      omega
    have hturn : j / 32 < turns (a.cur_pos + 1) (Fin.ofNat 32 j) :=
      turns_iff.mpr (by omega)
    have hget := hval qh hqh (Fin.ofNat 32 j) (j / 32) hturn
    have hout := exact_out (x := a.row fm m qh) hexact (hr qh hqh) hturn
    rw [hsplit] at hget hout
    rw [hget]
    exact hout
  · -- The rest of a row lies behind its first elements and before the next row.
    refine get_congr _ fun y h1 h2 => hframe y fun qh' hqh' => ?_
    unfold softmax_decode_args.s_at softmax_decode_args.S at *
    rcases Nat.lt_trichotomy qh qh' with hlt | rfl | hlt
    · have h : (qh + 1) * a.max_seq ≤ qh' * a.max_seq := Nat.mul_le_mul_right _ hlt
      rw [Nat.succ_mul] at h
      omega
    · omega
    · have h : (qh' + 1) * a.max_seq ≤ qh * a.max_seq := Nat.mul_le_mul_right _ hlt
      rw [Nat.succ_mul] at h
      have hcur := hready.cur_pos
      omega

/-- Two rows of four, the first three of them numbers in use. -/
def twoRows (y : Nat) : Val ℚ :=
  if y < 12 then .bits ([64, 2, 4].getD (y / 4) 0) else .number y

theorem two_rows_of_three : Ends (exactFormat id fun _ => 1) (assemble source.softmax_decode)
    (fun _ _ => ⟨fun _ => 0, fun _ => .bits 0⟩) (num 0) [1, 0] twoRows fun m' _ =>
      (m' 64).read = (1 / 3 : ℚ) ∧ (m' 88).read = (1 / 3 : ℚ) ∧ (m' 92).read = (92 : ℚ) := by
  have hready : Ready (exactFormat id fun _ => 1) twoRows 0 ⟨64, 2, 4⟩ 2 :=
    ⟨⟨rfl, rfl, rfl, trivial⟩, by decide, by decide, by decide, by decide⟩
  have hrows : ∀ qh < 2, ∀ j < 3, ((exactFormat id fun _ => 1).get twoRows
      (softmax_decode_args.s_at ⟨64, 2, 4⟩ qh j)).read = ((64 + 4 * (qh * 4 + j) : Nat) : ℚ) := by
    intro qh _ j _
    show (twoRows (64 + 4 * (qh * 4 + j))).read = _
    rw [twoRows, if_neg (by omega)]
    rfl
  have h := softmax_decode_writes_the_softmax (exactFormat id fun _ => 1)
    (fun _ _ => ⟨fun _ => 0, fun _ => .bits 0⟩) twoRows 0 ⟨64, 2, 4⟩ 2 [1, 0] (.swap 0 1 []) hready
    (.inr (by decide)) id (fun _ => 1) Val.read (exactFormat_exact id fun _ => 1)
    (fun _ => one_pos) _ hrows
  have hthird : ∀ r : Nat → ℚ, ∀ j, softmax_ref (fun _ => 1) r 2 j = 1 / 3 := by
    intro r j
    unfold softmax_ref
    rw [Finset.sum_const, Finset.card_range]
    norm_num
  refine h.mono fun m' _ ⟨hval, _, hrest, _⟩ => ⟨?_, ?_, ?_⟩
  · have hget := hval 0 (by decide) 0 (by decide)
    rw [hthird] at hget
    exact hget
  · have hget := hval 1 (by decide) 2 (by decide)
    rw [hthird] at hget
    exact hget
  · exact congrArg Val.read (hrest 1 (by decide) 3 (by decide) (by decide))

end gpgpu.softmax
