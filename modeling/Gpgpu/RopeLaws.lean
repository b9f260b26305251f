-- The law of rope.S with the table of the host: lane k turns the pair (k, k + 32) of each head
-- by the cosine and sine that compute_sincos_table has for its position. Over exact numbers a
-- turn keeps the norm of a head, and the turn with (c, -s) takes it back.
import Gpgpu.LaunchLaws
import Gpgpu.Sources
import Gpgpu.Formats
import Gpgpu.Exact
import Gpgpu.Transformer

open memory words cells

namespace gpgpu.rope

open core X F

/-- `struct rope_args`. -/
structure rope_args where
  x_off : Nat
  sincos_off : Nat
  num_heads : Nat
  head_dim : Nat
  token_pos : Nat

variable {V C : Type} {fm : Format V C} {m m1 : Nat → C} {a : rope_args}
  {args max_pos h k : Nat} {i : Fin 32} {regs : Regs V} {l : Lane V}

/-! ## The pairs -/

namespace rope_args

variable (a) (fm) (m)

def words : List Nat := [a.x_off, a.sincos_off, a.num_heads, a.head_dim, a.token_pos]

/-- Where element `k` of head `h` lies. -/
def x_at (h k : Nat) : Nat := a.x_off + 4 * (h * 64 + k)

/-- The cosine and the sine of pair `k` in the table. -/
def cos (k : Nat) : V := fm.get m (a.sincos_off + 4 * (a.token_pos * 64 + 2 * k))

def sin (k : Nat) : V := fm.get m (a.sincos_off + 4 * (a.token_pos * 64 + 2 * k + 1))

/-- The pair `k` of head `h` after its turn. -/
def lo (h k : Nat) : V :=
  fm.fsub (fm.fmul (fm.get m (a.x_at h k)) (a.cos fm m k))
    (fm.fmul (fm.get m (a.x_at h (k + 32))) (a.sin fm m k))

def hi (h k : Nat) : V :=
  fm.fmadd (fm.get m (a.x_at h k)) (a.sin fm m k)
    (fm.fmul (fm.get m (a.x_at h (k + 32))) (a.cos fm m k))

end rope_args

/-- The arguments are there, and the heads and the table lie in the address space. -/
structure Ready (fm : Format V C) (m : Nat → C) (args : Nat) (a : rope_args) (max_pos : Nat) : Prop where
  loaded : Args fm m args a.words
  args_end : args + 20 ≤ 2 ^ 32
  head_dim : a.head_dim = 64
  some_head : 0 < a.num_heads
  token_pos : a.token_pos < max_pos
  x_end : a.x_off + 4 * (a.num_heads * 64) ≤ 2 ^ 32
  table_end : a.sincos_off + 4 * (max_pos * 64) ≤ 2 ^ 32

/-- The heads lie apart from the arguments and the table. -/
structure Clear (args : Nat) (a : rope_args) (max_pos : Nat) : Prop where
  args : a.x_off + 4 * (a.num_heads * 64) ≤ args ∨ args + 20 ≤ a.x_off
  table : a.x_off + 4 * (a.num_heads * 64) ≤ a.sincos_off ∨ a.sincos_off + 4 * (max_pos * 64) ≤ a.x_off

/-- What lane `k` reads: beside the arguments and the table only its own pairs. -/
def Reads (args : Nat) (a : rope_args) (max_pos k x : Nat) : Prop :=
  InBuf args 20 x ∨ InBuf a.sincos_off (4 * (max_pos * 64)) x ∨
    ∃ h < a.num_heads, x = a.x_at h k ∨ x = a.x_at h (k + 32)

/-- What lane `k` writes in turn `h`, the last place first. -/
def place (fm : Format V C) (m : Nat → C) (a : rope_args) (k h : Nat) : List (Nat × V) :=
  [(a.x_at h (k + 32), a.hi fm m h k), (a.x_at h k, a.lo fm m h k)]

theorem reads_cos (hready : Ready fm m args a max_pos) (hk : k < 32) :
    Reads args a max_pos k (a.sincos_off + 4 * (a.token_pos * 64 + 2 * k)) := by
  have := hready.token_pos
  exact .inr (.inl ⟨by omega, by omega⟩)

theorem reads_sin (hready : Ready fm m args a max_pos) (hk : k < 32) :
    Reads args a max_pos k (a.sincos_off + 4 * (a.token_pos * 64 + 2 * k + 1)) := by
  have := hready.token_pos
  exact .inr (.inl ⟨by omega, by omega⟩)

theorem place_congr (hready : Ready fm m args a max_pos)
    (hsame : ∀ x, Reads args a max_pos k x → fm.get m1 x = fm.get m x) (hk : k < 32)
    (hh : h < a.num_heads) : place fm m1 a k h = place fm m a k h := by
  unfold place rope_args.lo rope_args.hi rope_args.cos rope_args.sin
  rw [hsame _ (reads_cos hready hk), hsame _ (reads_sin hready hk),
    hsame _ (.inr (.inr ⟨h, hh, .inl rfl⟩)), hsame _ (.inr (.inr ⟨h, hh, .inr rfl⟩))]

theorem Ready.congr (hready : Ready fm m args a max_pos)
    (hsame : ∀ x, InBuf args 20 x → fm.get m1 x = fm.get m x) : Ready fm m1 args a max_pos :=
  { hready with loaded := hready.loaded.of_get fun x hx => hsame x hx }

/-- The pairs of other lanes and of other heads lie apart. -/
theorem x_apart {h' k' : Nat} (hk : k < 64) (hk' : k' < 64) (hne : (h, k) ≠ (h', k')) :
    a.x_at h k + 4 ≤ a.x_at h' k' ∨ a.x_at h' k' + 4 ≤ a.x_at h k := by
  have hor : h ≠ h' ∨ k ≠ k' := by
    by_contra hcon
    rw [not_or, not_not, not_not] at hcon
    exact hne (Prod.ext hcon.1 hcon.2)
  unfold rope_args.x_at
  omega

/-- An element of a head lies in the buffer of the heads. -/
theorem x_in (hh : h < a.num_heads) (hk : k < 64) :
    InBuf a.x_off (4 * (a.num_heads * 64)) (a.x_at h k) := by
  unfold InBuf rope_args.x_at
  omega

/-! ## One lane -/

/-- At `pc`, with the turns of the first `h` heads made. -/
structure AtHead (fm : Format V C) (m : Nat → C) (args : Nat) (a : rope_args) (max_pos : Nat)
    (i : Fin 32) (h pc : Nat) (l : Lane V) : Prop where
  pc : l.pc = pc
  active : l.active = true
  a1 : l.x a1 = num a.x_off
  a3 : l.x a3 = num a.num_heads
  s1 : l.x s1 = num h
  s2 : l.x s2 = num 256
  s3 : l.x s3 = num (i * 4)
  fa0 : l.f fa0 = a.cos fm m i
  fa1 : l.f fa1 = a.sin fm m i
  log : Trace fm m (Reads args a max_pos i) (rounds (place fm m a i) h) l.log

theorem AtHead.goto {pc : Nat} (hl : AtHead fm m args a max_pos i h pc l) (pc' : Nat) :
    AtHead fm m args a max_pos i h pc' (l.goto pc') :=
  { hl with pc := rfl }

/-- The heads are turned one after the other, with the test at the end. -/
def loop_pc (a : rope_args) (h : Nat) : Nat := if h < a.num_heads then 16 else 30

theorem starts (hready : Ready fm m args a max_pos) :
    Leads fm (assemble source.rope) m 31 (begin_lane regs 0 (num args) i)
      (AtHead fm m args a max_pos i 0 (loop_pc a 0)) := by
  have htable := hready.table_end
  have hpos := hready.token_pos
  refine (leads_loads (n := 20) [(a1, 0), (a2, 1), (a3, 2), (a4, 3), (a5, 4)] hready.loaded
    hready.args_end (Nat.le_refl _) ⟨by decide, by simp [rope_args.words]⟩ rfl
    (by decide)).trans fun l hl => ?_
  have hregs := hl.regs
  simp [rope_args.words, hready.head_dim] at hregs
  obtain ⟨ha1, ha2, ha3, ha4, ha5⟩ := hregs
  have hview : view fm m l = m := view_of_reads hl.log
  have hcos : a.token_pos * 256 + i.val * 4 * 2 + a.sincos_off =
      a.sincos_off + 4 * (a.token_pos * 64 + 2 * i) := by ring
  refine leads_straight [.csrr_mhartid s0, .opi .and s0 s0 0x1F, .opi .sll s2 a4 2, .opi .sll s3 s0 2,
    .op .mul t0 a5 s2, .opi .sll t2 s3 1, .op .add t0 t0 t2, .op .add t0 t0 a2, .flw fa0 0 t0,
    .flw fa1 4 t0, .li s1 0] 5 rfl rfl hl.pc hl.active (by decide) fun hpc hactive => ?_
  rw [loop_pc, if_pos hready.some_head]
  refine leads_refl ⟨hpc, hactive, ?_, ?_, rfl, ?_, ?_, ?_, ?_, ?_⟩ <;>
    simp (disch := omega) [straight, act, Act.lane, ha1, ha2, ha3, ha4, ha5, hl.mhartid, hview, hcos]
  · rfl
  · unfold rope_args.sin
    rw [show 4 * (a.token_pos * 64 + 2 * i.val + 1) = 4 * (a.token_pos * 64 + 2 * i.val) + 4 by ring,
      ← Nat.add_assoc]
  · refine ⟨?_, reads_cos hready i.isLt, trace_nil (hl.log.mono (fun x hx => .inl hx) fun _ hx => hx)⟩
    exact reads_sin hready i.isLt

/-- The earlier turns have not touched the head. -/
theorem rounds_apart (hk : k < 64) {p : Nat × V} (hp : p ∈ rounds (place fm m a i) h) :
    p.1 + 4 ≤ a.x_at h k ∨ a.x_at h k + 4 ≤ p.1 := by
  obtain ⟨t, ht, hp⟩ := mem_rounds.mp hp
  have hne : ∀ k', (t, k') ≠ (h, k) := fun k' he => by
    have := (Prod.mk.inj he).1
    omega
  simp only [place, List.mem_cons, List.not_mem_nil, or_false] at hp
  rcases hp with rfl | rfl
  · exact x_apart (by omega) hk (hne _)
  · exact x_apart (by omega) hk (hne _)

/-- The turn of a head. -/
theorem turn (hready : Ready fm m args a max_pos) (hh : h < a.num_heads)
    (hl : AtHead fm m args a max_pos i h 16 l) :
    Leads fm (assemble source.rope) m 31 l
      (AtHead fm m args a max_pos i (h + 1) (loop_pc a (h + 1))) := by
  have hend := hready.x_end
  have hilt := i.isLt
  have haddr : h * 256 + i.val * 4 + a.x_off = a.x_at h i := by
    unfold rope_args.x_at
    ring
  have hhi : a.x_at h i + 128 = a.x_at h (i + 32) := by
    unfold rope_args.x_at
    ring
  have hlt : a.x_at h i + 132 ≤ 2 ^ 32 := by
    unfold rope_args.x_at
    omega
  have hlo : fm.get (view fm m l) (a.x_at h i) = fm.get m (a.x_at h i) :=
    hl.log.get fun p hp => rounds_apart (by omega) hp
  have hhi' : fm.get (view fm m l) (a.x_at h (i + 32)) = fm.get m (a.x_at h (i + 32)) :=
    hl.log.get fun p hp => rounds_apart (by omega) hp
  refine leads_line [.op .mul t1 s1 s2, .op .add t1 t1 s3, .op .add t1 t1 a1, .flw fa2 0 t1,
    .flw fa3 128 t1, .fop .fmul ft0 fa2 fa0, .fop .fmul ft1 fa3 fa1, .fop .fmul ft2 fa3 fa0,
    .fop .fsub fa4 ft0 ft1, .fmadd fa5 fa2 fa1 ft2, .fsw fa4 0 t1, .fsw fa5 128 t1,
    .opi .add s1 s1 1] 16 rfl rfl hl.pc hl.active (by decide) fun l1 hl1 hpc hactive => ?_
  have hbody : AtHead fm m args a max_pos i (h + 1) 29 l1 := by
    subst hl1
    refine ⟨hpc, hactive, ?_, ?_, ?_, ?_, ?_, ?_, ?_, ?_⟩ <;>
      simp (disch := omega) [straight, act, Act.lane, FAlu.eval, hl.a1, hl.a3, hl.s1, hl.s2, hl.s3,
        hl.fa0, hl.fa1, haddr, hhi, hlo, hhi']
    have hread : Reads args a max_pos i (a.x_at h i) := .inr (.inr ⟨h, hh, .inl rfl⟩)
    have hread' : Reads args a max_pos i (a.x_at h (i + 32)) := .inr (.inr ⟨h, hh, .inr rfl⟩)
    rw [rounds_succ]
    refine .store (.store (by simp [hread, hread', hl.log]) rfl rfl fun p hp => ?_) rfl rfl fun p hp => ?_
    · exact rounds_apart (by omega) hp
    · rcases List.mem_cons.mp hp with rfl | hp
      · exact .inl (by omega)
      · exact rounds_apart (by omega) hp
  refine leads_test 29 rfl hbody.pc hactive (by decide)
    (by rw [hbody.s1, hbody.a3, lt_num (by omega) (by omega)]) (fun hmore => ?_) fun hlast => ?_
  · rw [loop_pc, if_pos hmore]
    exact leads_refl (hbody.goto 16)
  · rw [loop_pc, if_neg hlast]
    exact leads_refl (hbody.goto 30)

/-- A whole lane. -/
theorem lane_done (hready : Ready fm m args a max_pos) :
    Leads fm (assemble source.rope) m 31 (begin_lane regs 0 (num args) i)
      (LaneDone fm m (Reads args a max_pos i) (rounds (place fm m a i) a.num_heads)) := by
  refine (starts hready).trans fun l hl => ?_
  refine (leads_turns (fun h => AtHead fm m args a max_pos i h (loop_pc a h))
    (Nat.zero_le a.num_heads) hl fun h hh l hl => ?_).trans fun l hl => ?_
  · rw [loop_pc, if_pos hh] at hl
    exact turn hready hh hl
  · rw [loop_pc, if_neg (Nat.lt_irrefl _)] at hl
    exact leads_ebreak 30 rfl hl.pc hl.active (by decide) ⟨rfl, hl.log⟩

/-! ## The launch -/

theorem mem_places {n : Nat} {p : Nat × V} (hp : p ∈ rounds (place fm m a k) n) :
    ∃ h < n, ∃ k', (k' = k ∨ k' = k + 32) ∧ p.1 = a.x_at h k' := by
  obtain ⟨h, hh, hp⟩ := mem_rounds.mp hp
  simp only [place, List.mem_cons, List.not_mem_nil, or_false] at hp
  rcases hp with rfl | rfl
  · exact ⟨h, hh, k + 32, .inr rfl, rfl⟩
  · exact ⟨h, hh, k, .inl rfl, rfl⟩

/-- What one warp of `rope.S` leaves. -/
theorem rope_spec (hready : Ready fm m args a max_pos) (hclear : Clear args a max_pos)
    (regs : Nat → Fin 32 → Regs V) :
    Ends fm (assemble source.rope) regs (num args) [0] m fun m' logs =>
      (∀ log ∈ logs, Within (fun x => ∃ k < 32, Reads args a max_pos k x)
        (InBuf a.x_off (4 * (a.num_heads * 64))) log) ∧
      (∀ h < a.num_heads, ∀ k < 32, fm.get m' (a.x_at h k) = a.lo fm m h k ∧
        fm.get m' (a.x_at h (k + 32)) = a.hi fm m h k) ∧
      ∀ y, y < a.x_off ∨ a.x_off + 4 * (a.num_heads * 64) ≤ y → m' y = m y := by
  have hother : ∀ {i i' : Fin 32} {k k' : Nat}, i ≠ i' → (k = i.val ∨ k = i.val + 32) →
      (k' = i'.val ∨ k' = i'.val + 32) → ∀ h h' : Nat, (h, k) ≠ (h', k') := by
    intro i i' k k' hne hk hk' h h' he
    have := (Prod.mk.inj he).2
    exact hne (Fin.ext (by omega))
  have hends : Ends fm (assemble source.rope) regs (num args) [0] m _ := launch_of_lanes 31 regs
    (fun _ i => rounds (place fm m a i) a.num_heads) (fun _ i => Reads args a max_pos i)
    (List.nodup_singleton 0)
    (fun b hb b' hb' i i' hne p hp p' hp' => by
      obtain rfl := List.mem_singleton.mp hb
      obtain rfl := List.mem_singleton.mp hb'
      obtain ⟨h, -, k, hk, hpk⟩ := mem_places hp
      obtain ⟨h', -, k', hk', hpk'⟩ := mem_places hp'
      rw [hpk, hpk']
      exact x_apart (by omega) (by omega) (hother (fun he => hne (congrArg _ he)) hk hk' _ _))
    (fun b hb b' hb' i i' hne p hp x hx => by
      obtain rfl := List.mem_singleton.mp hb
      obtain rfl := List.mem_singleton.mp hb'
      obtain ⟨h, hh, k, hk, hpk⟩ := mem_places hp
      have hin : InBuf a.x_off _ (a.x_at h k) := x_in hh (by omega)
      have hclear1 := hclear.args
      have hclear2 := hclear.table
      rw [hpk]
      rcases hx with hx | hx | ⟨h', -, hx⟩
      · unfold InBuf at hx hin
        omega
      · unfold InBuf at hx hin
        omega
      · have hi : i ≠ i' := fun he => hne (congrArg _ he)
        rcases hx with rfl | rfl
        · exact x_apart (by omega) (by omega) (hother hi hk (.inl rfl) _ _)
        · exact x_apart (by omega) (by omega) (hother hi hk (.inr rfl) _ _))
    fun b hb i m1 hm1 => by
      obtain rfl := List.mem_singleton.mp hb
      rw [rounds_congr fun h hh => (place_congr hready hm1 i.isLt hh).symm]
      exact lane_done (hready.congr fun x hx => hm1 x (.inl hx))
  refine hends.mono fun m' logs heff => ⟨fun log hlog => ⟨fun x hx => ?_, fun x hx => ?_⟩,
    fun h hh k hk => ?_, fun y hy => heff.frame y ?_⟩
  · obtain ⟨_, _, i, hR⟩ := heff.reads log hlog x hx
    exact ⟨i, i.isLt, hR⟩
  · obtain ⟨_, _, i, p, hp, rfl⟩ := heff.mem_written hlog hx
    obtain ⟨h, hh, k, hk, hpk⟩ := mem_places hp
    rw [hpk]
    exact x_in hh (by omega)
  · have hval : ∀ p ∈ place fm m a k h, fm.get m' p.1 = p.2 := fun p hp =>
      heff.values 0 (List.mem_singleton.mpr rfl) ⟨k, hk⟩ p (mem_rounds.mpr ⟨h, hh, hp⟩)
    exact ⟨hval (_, _) (List.mem_cons_of_mem _ (List.mem_cons_self ..)),
      hval (_, _) (List.mem_cons_self ..)⟩
  · rintro b - ⟨i, p, hp, hin⟩
    obtain ⟨h, hh, k, hk, hpk⟩ := mem_places hp
    have hbuf : InBuf a.x_off _ (a.x_at h k) := x_in hh (by omega)
    unfold InBuf at hbuf
    omega

/-! ## The table of the host -/

open transformer

/-- The angle of pair `k` at a position, as the host computes it. -/
def angle (host : Libm) (rope_theta : Word) (pos k : Nat) : Word :=
  host.mul (host.ofNat pos) (sincos_freq host rope_theta 64 k)

theorem table_of_ok {host : Libm} {rope_theta : Word} {calloc_ok : Bool} {table : List Word}
    (h : compute_sincos_table host rope_theta max_pos 64 calloc_ok = some (TRANSFORMER_OK, table)) :
    table = sincos_table host rope_theta max_pos 64 := by
  unfold compute_sincos_table at h
  rw [if_neg (by decide)] at h
  split at h
  · exact absurd (Prod.mk.inj (Option.some.inj h)).1 (by decide)
  rw [if_neg (by decide)] at h
  dsimp only at h
  split at h
  · exact absurd (Prod.mk.inj (Option.some.inj h)).1 (by decide)
  · exact (Prod.mk.inj (Option.some.inj h)).2.symm

/-- The cosine of pair `k` stands at `2 * k` in the row of its position, and the sine behind it. -/
theorem table_entries (host : Libm) (rope_theta : Word) {pos : Nat} (hpos : pos < max_pos)
    (hk : k < 32) :
    (sincos_table host rope_theta max_pos 64).getD (pos * 64 + 2 * k) 0 =
        host.cosf (angle host rope_theta pos k) ∧
      (sincos_table host rope_theta max_pos 64).getD (pos * 64 + 2 * k + 1) 0 =
        host.sinf (angle host rope_theta pos k) := by
  unfold sincos_table angle
  constructor
  · rw [List.getD_eq_getElem?_getD, List.getElem?_map, List.getElem?_range (by omega)]
    have hdiv : (pos * 64 + 2 * k) / 64 = pos := by omega
    have hmod : (pos * 64 + 2 * k) % 64 / 2 = k := by omega
    have heven : (pos * 64 + 2 * k) % 2 = 0 := by omega
    simp only [Option.map_some, Option.getD_some, hdiv, hmod, if_pos heven]
  · rw [List.getD_eq_getElem?_getD, List.getElem?_map, List.getElem?_range (by omega)]
    have hdiv : (pos * 64 + 2 * k + 1) / 64 = pos := by omega
    have hmod : (pos * 64 + 2 * k + 1) % 64 / 2 = k := by omega
    have hodd : ¬ (pos * 64 + 2 * k + 1) % 2 = 0 := by omega
    simp only [Option.map_some, Option.getD_some, hdiv, hmod, if_neg hodd]

/-! ## Exact turns -/

section

variable {K : Type} [Field K]

/-- The elements of the heads after a turn by `(c, s)`. -/
def turned (c s : Nat → K) (x : Nat → Nat → K) (h k : Nat) : K :=
  if k < 32 then x h k * c k - x h (k + 32) * s k
  else x h (k - 32) * s (k - 32) + x h k * c (k - 32)

variable {c s : Nat → K} (x : Nat → Nat → K)

/-- A turn keeps the norm of a head. -/
theorem turned_norm (hone : ∀ k < 32, c k ^ 2 + s k ^ 2 = 1) (h : Nat) :
    ∑ k ∈ Finset.range 64, turned c s x h k ^ 2 = ∑ k ∈ Finset.range 64, x h k ^ 2 := by
  rw [Finset.sum_range_add _ 32 32, Finset.sum_range_add _ 32 32, ← Finset.sum_add_distrib,
    ← Finset.sum_add_distrib]
  refine Finset.sum_congr rfl fun k hk => ?_
  have hk : k < 32 := Finset.mem_range.mp hk
  have hone := hone k hk
  unfold turned
  rw [if_pos hk, if_neg (by omega), Nat.add_sub_cancel_left, Nat.add_comm 32 k]
  linear_combination (x h k ^ 2 + x h (k + 32) ^ 2) * hone

/-- The turn by `(c, -s)` takes a turn back. -/
theorem turned_back (hone : ∀ k < 32, c k ^ 2 + s k ^ 2 = 1) {h k : Nat} (hk : k < 64) :
    turned c (fun k => -s k) (turned c s x) h k = x h k := by
  unfold turned
  by_cases hlt : k < 32
  · have hone := hone k hlt
    rw [if_pos hlt, if_pos hlt, if_neg (by omega), Nat.add_sub_cancel]
    linear_combination x h k * hone
  · obtain ⟨j, rfl⟩ := Nat.exists_eq_add_of_le' (Nat.le_of_not_lt hlt)
    have hj : j < 32 := by omega
    have hone := hone j hj
    rw [if_neg hlt, Nat.add_sub_cancel, if_pos hj, if_neg hlt]
    linear_combination x h (j + 32) * hone

variable [LinearOrder K]

/-- The elements of the heads read as `x`. -/
def Holds (fm : Format V C) (val : V → WithBot K) (m : Nat → C) (a : rope_args) (x : Nat → Nat → K) :
    Prop :=
  ∀ h < a.num_heads, ∀ k < 64, val (fm.get m (a.x_at h k)) = x h k

/-- The entries of the table for the position read as `c` and `s`. -/
def Angles (fm : Format V C) (val : V → WithBot K) (m : Nat → C) (a : rope_args) (c s : Nat → K) :
    Prop :=
  ∀ k < 32, val (a.cos fm m k) = c k ∧ val (a.sin fm m k) = s k

/-- One warp turns the heads by the entries of the table. -/
theorem exact_turn {sqrt exp : K → K} {val : V → WithBot K} {x : Nat → Nat → K} {c s : Nat → K}
    (hexact : Exact fm sqrt exp val) (hready : Ready fm m args a max_pos) (hclear : Clear args a max_pos)
    (regs : Nat → Fin 32 → Regs V) (hx : Holds fm val m a x) (hcs : Angles fm val m a c s) :
    Ends fm (assemble source.rope) regs (num args) [0] m fun m' _ =>
      Holds fm val m' a (turned c s x) := by
  refine (rope_spec hready hclear regs).mono fun m' logs ⟨_, hval, _⟩ h hh k hk => ?_
  unfold turned
  by_cases hlt : k < 32
  · obtain ⟨hcos, hsin⟩ := hcs k hlt
    rw [(hval h hh k hlt).1, if_pos hlt]
    exact hexact.fsub (hexact.fmul (hx h hh k hk) hcos) (hexact.fmul (hx h hh _ (by omega)) hsin)
  · obtain ⟨j, rfl⟩ := Nat.exists_eq_add_of_le' (Nat.le_of_not_lt hlt)
    have hj : j < 32 := by omega
    obtain ⟨hcos, hsin⟩ := hcs j hj
    rw [(hval h hh j hj).2, if_neg hlt, Nat.add_sub_cancel]
    exact hexact.fmadd (hx h hh j (by omega)) hsin (hexact.fmul (hx h hh _ hk) hcos)

end

/-- One warp turns the pairs of each head by the cosine and sine that the host stores for the
position, and changes nothing else. Over exact numbers the norm of each head stays, and a
second launch with the sines turned around gives the heads back. -/
theorem rope_turns_each_pair_by_the_table (fm : Format V C) (regs : Nat → Fin 32 → Regs V) (m : Nat → C)
    (args : Nat) (a : rope_args) (max_pos : Nat) (hready : Ready fm m args a max_pos)
    (hclear : Clear args a max_pos) :
    (Ends fm (assemble source.rope) regs (num args) [0] m fun m' logs =>
      (∀ h < a.num_heads, ∀ k < 32, fm.get m' (a.x_at h k) = a.lo fm m h k ∧
        fm.get m' (a.x_at h (k + 32)) = a.hi fm m h k) ∧
      (∀ log ∈ logs, ∀ x ∈ written log, InBuf a.x_off (4 * (a.num_heads * 64)) x) ∧
      ∀ y, y < a.x_off ∨ a.x_off + 4 * (a.num_heads * 64) ≤ y → m' y = m y) ∧
    (∀ (host : Libm) (rope_theta : Word) (calloc_ok : Bool) (table : List Word),
      compute_sincos_table host rope_theta max_pos 64 calloc_ok = some (TRANSFORMER_OK, table) →
      (∀ j < max_pos * 64, fm.get m (a.sincos_off + 4 * j) = fm.ofBits (table.getD j 0)) →
      ∀ k < 32, a.cos fm m k = fm.ofBits (host.cosf (angle host rope_theta a.token_pos k)) ∧
        a.sin fm m k = fm.ofBits (host.sinf (angle host rope_theta a.token_pos k))) ∧
    ∀ (K : Type) [Field K] [LinearOrder K] (sqrt exp : K → K) (val : V → WithBot K)
      (x : Nat → Nat → K) (c s : Nat → K), Exact fm sqrt exp val → Holds fm val m a x →
      Angles fm val m a c s → (∀ k < 32, c k ^ 2 + s k ^ 2 = 1) →
      Ends fm (assemble source.rope) regs (num args) [0] m fun m' _ =>
        (∃ x', Holds fm val m' a x' ∧ ∀ h < a.num_heads,
          ∑ k ∈ Finset.range 64, x' h k ^ 2 = ∑ k ∈ Finset.range 64, x h k ^ 2) ∧
        ∀ m1, Ready fm m1 args a max_pos →
          (∀ h < a.num_heads, ∀ k < 64, fm.get m1 (a.x_at h k) = fm.get m' (a.x_at h k)) →
          Angles fm val m1 a c (fun k => -s k) →
          Ends fm (assemble source.rope) regs (num args) [0] m1 fun m'' _ => Holds fm val m'' a x := by
  refine ⟨?_, fun host rope_theta calloc_ok table hok htable k hk => ?_, ?_⟩
  · exact (rope_spec hready hclear regs).mono fun m' logs ⟨hlogs, hval, hframe⟩ =>
      ⟨hval, fun log hlog => (hlogs log hlog).2, hframe⟩
  · have hpos := hready.token_pos
    obtain ⟨hcos, hsin⟩ := table_entries host rope_theta hpos hk
    rw [← table_of_ok hok] at hcos hsin
    unfold rope_args.cos rope_args.sin
    rw [htable _ (by omega), htable _ (by omega), hcos, hsin]
    exact ⟨rfl, rfl⟩
  · intro K _ _ sqrt exp val x c s hexact hx hcs hone
    refine (exact_turn hexact hready hclear regs hx hcs).mono fun m' _ hx' =>
      ⟨⟨_, hx', fun h _ => turned_norm x hone h⟩, fun m1 hready1 hm1 hcs1 => ?_⟩
    have hx1 : Holds fm val m1 a (turned c s x) := fun h hh k hk => by rw [hm1 h hh k hk, hx' h hh k hk]
    refine (exact_turn hexact hready1 hclear regs hx1 hcs1).mono fun m'' _ hx'' h hh k hk => ?_
    rw [hx'' h hh k hk, turned_back x hone hk]

/-- One head of ones, and a table with 3/5 and 4/5 for each pair. -/
def onesHead (y : Nat) : Val ℚ :=
  if y < 20 then .bits ([64, 1024, 1, 64, 0].getD (y / 4) 0)
  else if y < 1024 then .number 1
  else if y % 8 = 0 then .number (3 / 5) else .number (4 / 5)

theorem a_head_of_ones_is_turned :
    Ends (exactFormat id id) (assemble source.rope) (fun _ _ => ⟨fun _ => 0, fun _ => .bits 0⟩) (num 0)
      [0] onesHead fun m' _ => m' 64 = .number (-1 / 5) ∧ m' 192 = .number (7 / 5) := by
  have hready : Ready (exactFormat id id) onesHead 0 ⟨64, 1024, 1, 64, 0⟩ 1 :=
    ⟨⟨rfl, rfl, rfl, rfl, rfl, trivial⟩, by decide, rfl, by decide, by decide, by decide, by decide⟩
  have h := (rope_turns_each_pair_by_the_table (exactFormat id id)
    (fun _ _ => ⟨fun _ => 0, fun _ => .bits 0⟩) onesHead 0 ⟨64, 1024, 1, 64, 0⟩ 1 hready
    ⟨by decide, by decide⟩).1
  refine h.mono fun m' _ ⟨hval, _⟩ => ?_
  obtain ⟨hlo, hhi⟩ := hval 0 (by decide) 0 (by decide)
  have hlo' : m' 64 = .number (1 * (3 / 5) - 1 * (4 / 5)) := hlo
  have hhi' : m' 192 = .number (1 * (4 / 5) + 1 * (3 / 5)) := hhi
  rw [hlo', hhi']
  norm_num

end gpgpu.rope
