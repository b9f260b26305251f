-- What an operation of a step can change, whatever the buffers hold and whichever calls
-- the host refuses: only the bytes that it is there to write, and the counters.
import Gpgpu.Ops
import Gpgpu.Lib.Buffers

open memory words buffers

namespace gpgpu.desk

open buddy context kernels device kv weights transformer

/-! ## Where the buffers lie -/

/-- The buffers are where the workspace and the cache say, for any config, with at least the
bytes that were asked for, and `m0` has the code of the kernels. -/
structure Room (dev : Device) (ws : Workspace) (c : KvCache) (lay : Layout Buf) (m0 : Mem) :
    Prop where
  small : lay.top ≤ 2 ^ 32
  ends : lay.base + lay.top < 2 ^ 64
  low : ∀ b, lay.off b < 2 ^ 32
  work : ∀ s, lay.off (.work s) = ws.off s
  bytes : ∀ e ∈ scratch_sizes ws.cfg, e.2 ≤ lay.size (.work e.1)
  code : ∀ k, lay.off (.code k) = ws.kbin k ∧ lay.size (.code k) = (dev.binary k).length
  args : ∀ k, lay.off (.args k) = ws.args k ∧ lay.size (.args k) = 32
  keys : lay.off .keys = c.K_dev_off
  vals : lay.off .vals = c.V_dev_off
  binary : ∀ k, ∀ i < (dev.binary k).length,
    m0 (lay.base + lay.off (.code k) + i) = (dev.binary k).getD i 0

/-- The buffers of the cache have all its rows. -/
structure CacheRoom (lay : Layout Buf) (c : KvCache) : Prop where
  keys : lay.size .keys = c.bytes
  vals : lay.size .vals = c.bytes

/-- The code is as in `m0`, and the cache is where it was. -/
structure Sound (lay : Layout Buf) (m0 : Mem) (c : KvCache) (st : Run) : Prop where
  mapped : st.ctx.vram_mmap = lay.base
  code : ∀ k, lay.Same (.code k) m0 st.ctx.buddy.mem
  place : SamePlace c st

/-- The buffers that the launches of a step write. -/
def Scratchy : Buf → Prop
  | .work s => s ≠ .sincos
  | .args _ => True
  | _ => False

/-- The words of its arguments with the addresses that a kernel stores to. -/
def outputs : Kernel → List Nat
  | .rmsnorm | .broadcast_add | .silu => [1]
  | .gemm | .vmul | .embedding_lookup | .qkt_decode | .pv_decode => [2]
  | .rope | .softmax_decode => [0]
  | .argmax => [2, 3]

/-- A buffer that a launch may write: one that such a word names. -/
def Target (lay : Layout Buf) (k : Kernel) (args : List Nat) (b : Buf) : Prop :=
  Scratchy b ∧ ∃ i ∈ outputs k, args.getD i 0 = lay.off b

/-- All stores lie in buffers with the property. -/
def StoresIn (lay : Layout Buf) (P : Buf → Prop) (stores : Stores) : Prop :=
  ∀ s ∈ stores, ∃ b j, P b ∧ s.1 % 2 ^ 32 = lay.off b + j ∧ j + 4 * s.2.length ≤ lay.size b

/-- The byte `y` is one of those of a store, in a memory that begins at `base`. -/
def InStore (base : Nat) (s : Nat × List Word) (y : Nat) : Prop :=
  base + s.1 % 2 ^ 32 ≤ y ∧ y < base + s.1 % 2 ^ 32 + 4 * s.2.length

theorem StoresIn.mem {lay : Layout Buf} {P : Buf → Prop} {stores : Stores} {s : Nat × List Word} {y : Nat}
    (h : StoresIn lay P stores) (hs : s ∈ stores) (hy : InStore lay.base s y) :
    ∃ b, P b ∧ lay.In b y := by
  obtain ⟨b, j, hb, haddr, hfits⟩ := h s hs
  refine ⟨b, hb, ?_⟩
  unfold InStore at hy
  unfold Layout.In
  omega

theorem store_all_outside {base : Nat} {stores : Stores} {m : Mem} {y : Nat}
    (hy : ∀ s ∈ stores, ¬ InStore base s y) : store_all base m stores y = m y := by
  induction stores generalizing m with
  | nil => rfl
  | cons s stores ih =>
    have hnot := hy s List.mem_cons_self
    unfold InStore at hnot
    rw [store_all_cons, ih fun s' hs' => hy s' (List.mem_cons_of_mem _ hs')]
    simp only [store_all, List.foldl_cons, List.foldl_nil]
    exact put_outside (by omega)

section

variable {env : Env} {ws : Workspace} {c : KvCache} {lay : Layout Buf} {m0 : Mem} {st : Run}
  {pos : Nat} {o : Op} {ops : List Op}

/-! ## A launch -/

/-- The memory when the arguments of a launch are in place. -/
def withArgs (lay : Layout Buf) (k : Kernel) (args : List Nat) (m : Mem) : Mem :=
  put m (lay.base + lay.off (.args k)) (args.map UInt32.ofNat)

/-- The memory after a launch. -/
def afterLaunch (fpu : Fpu) (lay : Layout Buf) (k : Kernel) (args : List Nat) (grid : Nat) (m : Mem) :
    Mem :=
  let m := withArgs lay k args m
  store_all lay.base m (k.stores fpu grid (args.getD · 0) (rd32 lay.base m))

theorem arity_le (k : Kernel) : arity k ≤ 8 := by
  cases k <;> decide

theorem Room.withArgs_changes (hr : Room env.dev ws c lay m0) {k : Kernel} {args : List Nat}
    (hlen : args.length = arity k) (m : Mem) :
    lay.Changes [.args k] m (withArgs lay k args m) := by
  have hsize := (hr.args k).2
  have hle := arity_le k
  exact Layout.changes_put (i := 0) (by rw [List.length_map]; omega)

/-- With the arguments in place the device finds the code of the kernel. -/
theorem Room.code_found (hr : Room env.dev ws c lay m0) (h : Sound lay m0 c st) {k : Kernel}
    {args : List Nat} (hlen : args.length = arity k) :
    env.dev.decode (fun i => withArgs lay k args st.ctx.buddy.mem
      (lay.base + ws.kbin k % 2 ^ 32 + i)) = some k := by
  apply env.dev.decode_binary
  intro i hi
  obtain ⟨hcoff, hcsize⟩ := hr.code k
  have hcfits := lay.fits (.code k)
  have hsmall := hr.small
  have hin : lay.In (.code k) (lay.base + lay.off (.code k) + i) := ⟨by omega, by omega⟩
  have hsame := (hr.withArgs_changes hlen st.ctx.buddy.mem).same (b := .code k) (by simp) _ hin
  rw [← hcoff, Nat.mod_eq_of_lt (by omega), hsame, h.code k _ hin]
  exact hr.binary k i hi

/-- The device finds the words that the host has written. -/
theorem Room.args_found (hr : Room env.dev ws c lay m0) {k : Kernel} {args : List Nat}
    (hlen : args.length = arity k) (hargs : ∀ x ∈ args, x < 2 ^ 32) (m : Mem) :
    ∀ i < arity k, (rd32 lay.base (withArgs lay k args m) (ws.args k + 4 * i)).toNat =
      args.getD i 0 := by
  intro i hi
  obtain ⟨hoff, hsize⟩ := hr.args k
  have hfits := lay.fits (.args k)
  have hsmall := hr.small
  have hle := arity_le k
  have hget : (args.map UInt32.ofNat).getD i 0 = UInt32.ofNat (args.getD i 0) := by
    simp [List.getD, hlen, hi]
  have hmem : args.getD i 0 ∈ args := by
    rw [List.getD_eq_getElem _ _ (by omega)]
    exact List.getElem_mem _
  unfold rd32
  rw [Nat.mod_eq_of_lt (by omega), ← hoff, ← Nat.add_assoc, withArgs,
    word_put (by simpa [hlen] using hi), hget, UInt32.toNat_ofNat_of_lt' (hargs _ hmem)]

/-- The host copies the arguments to their buffer. -/
theorem Room.args_copied (hr : Room env.dev ws c lay m0) (h : Sound lay m0 c st) (k : Kernel)
    (args : List Nat) :
    gpuMemcpy st.ctx (ws.args k) (bytesOf (args.map UInt32.ofNat))
      (4 * (args.map UInt32.ofNat).length) GPU_MEMCPY_H2D =
      (0, st.ctx.setMem (withArgs lay k args st.ctx.buddy.mem), bytesOf (args.map UInt32.ofNat)) := by
  obtain ⟨hoff, hsize⟩ := hr.args k
  have hfits := lay.fits (.args k)
  have hend := hr.ends
  rw [show GPU_MEMCPY_H2D = 0 from rfl, gpuMemcpy_H2D (by rw [h.mapped]; omega), h.mapped, ← hoff]
  rfl

/-- A launch with its own arguments, when the code of its kernel is in place. -/
theorem Room.op_eq (hr : Room env.dev ws c lay m0) (h : Sound lay m0 c st) {k : Kernel}
    {args : List Nat} (grid : Nat) (hlen : args.length = arity k) (hargs : ∀ x ∈ args, x < 2 ^ 32) :
    op env ws k args grid st = some (if env.ok st.calls
      then (TRANSFORMER_OK, launched st (afterLaunch env.dev.fpu lay k args grid st.ctx.buddy.mem))
      else (TRANSFORMER_ERR_LAUNCH, launched st (withArgs lay k args st.ctx.buddy.mem))) := by
  have hcopy := hr.args_copied h k args
  have hcode := hr.code_found h hlen
  have harg := hr.args_found hlen hargs st.ctx.buddy.mem
  unfold afterLaunch
  set m := withArgs lay k args st.ctx.buddy.mem with hm
  have hmap : (st.ctx.setMem m).vram_mmap = lay.base := h.mapped
  have hmem : (st.ctx.setMem m).buddy.mem = m := rfl
  unfold op launch_op
  simp only [hcopy]
  rw [if_neg (by decide)]
  unfold gpuLaunchKernel
  cases env.ok st.calls with
  | false => rfl
  | true =>
    rw [if_neg (by decide)]
    simp only [hmap, hmem, hcode, Option.bind_eq_bind, Option.bind_some]
    rw [stores_congr harg]
    rfl

/-! ## What an operation needs and what it touches -/

/-- The bytes that an operation may change, whatever it reads. -/
def Touches (lay : Layout Buf) (fpu : Fpu) (c : KvCache) (pos : Nat) (o : Op) (y : Nat) : Prop :=
  match o with
  | .token _ => lay.In (.work .token_id_buf) y
  | .launch k args grid => lay.In (.args k) y ∨
      ∃ rd, ∃ s ∈ k.stores fpu grid (args.getD · 0) rd, InStore lay.base s y
  | .append layer => ∃ h < c.num_kv_heads, c.InRows lay.base layer h pos y
  | .commit => False

/-- The arguments of a launch are words, as many as its kernel takes, and an append has room in
the cache. -/
def Formed (lay : Layout Buf) (c : KvCache) (pos : Nat) : Op → Prop
  | .launch k args _ => args.length = arity k ∧ ∀ x ∈ args, x < 2 ^ 32
  | .append layer => layer < c.num_layers ∧ pos < c.max_seq ∧ CacheRoom lay c
  | _ => True

/-- The operation can be made, and leaves the code of the kernels as it is. -/
structure Clean (lay : Layout Buf) (fpu : Fpu) (c : KvCache) (pos : Nat) (o : Op) : Prop where
  formed : Formed lay c pos o
  code : ∀ k y, lay.In (.code k) y → ¬ Touches lay fpu c pos o y

/-- A launch stores in buffers that its arguments name. -/
def InTargets (lay : Layout Buf) (fpu : Fpu) : Op → Prop
  | .launch k args grid =>
    ∀ rd, StoresIn lay (Target lay k args) (k.stores fpu grid (args.getD · 0) rd)
  | _ => True

/-- The operation can be made, and stays in its own buffers. -/
structure Fits (lay : Layout Buf) (fpu : Fpu) (c : KvCache) (pos : Nat) (o : Op) : Prop where
  formed : Formed lay c pos o
  stores : InTargets lay fpu o

/-- The buffers that a step may write: its own and those of the cache. -/
def Mine (b : Buf) : Prop := Scratchy b ∨ b = .keys ∨ b = .vals

theorem Room.rows_in (hr : Room env.dev ws c lay m0) (hcache : CacheRoom lay c) {l h t y : Nat}
    (hl : l < c.num_layers) (hh : h < c.num_kv_heads) (ht : t < c.max_seq)
    (hy : c.InRows lay.base l h t y) : lay.In .keys y ∨ lay.In .vals y := by
  have hrow := row_le_bytes hl hh ht
  obtain ⟨hKsize, hVsize⟩ := hcache
  have hK := hr.keys
  have hV := hr.vals
  unfold KvCache.InRows KvCache.InRow at hy
  unfold Layout.In
  omega

/-- What an operation other than an append touches is scratch. -/
theorem Fits.scratchy {fpu : Fpu} (hfits : Fits lay fpu c pos o) {y : Nat}
    (hy : Touches lay fpu c pos o y) (hne : ∀ layer, o ≠ .append layer) :
    ∃ b, Scratchy b ∧ lay.In b y := by
  cases o with
  | token tok =>
    have hne : Scratch.token_id_buf ≠ .sincos := by decide
    exact ⟨.work .token_id_buf, hne, hy⟩
  | launch k args grid =>
    rcases hy with hy | ⟨rd, s, hs, hy⟩
    · exact ⟨.args k, trivial, hy⟩
    · obtain ⟨b, ⟨hb, -⟩, hin⟩ := (hfits.stores rd).mem hs hy
      exact ⟨b, hb, hin⟩
  | append layer => exact absurd rfl (hne layer)
  | commit => exact hy.elim

theorem Room.touches_in (hr : Room env.dev ws c lay m0) (hfits : Fits lay env.dev.fpu c pos o)
    {y : Nat} (hy : Touches lay env.dev.fpu c pos o y) : ∃ b, Mine b ∧ lay.In b y := by
  by_cases happ : ∀ layer, o ≠ .append layer
  · obtain ⟨b, hb, hin⟩ := hfits.scratchy hy happ
    exact ⟨b, .inl hb, hin⟩
  · obtain ⟨layer, rfl⟩ := not_forall_not.mp happ
    obtain ⟨h, hh, hy⟩ := hy
    obtain ⟨hl, hpos, hcache⟩ := hfits.formed
    rcases hr.rows_in hcache hl hh hpos hy with hy | hy
    · exact ⟨.keys, .inr (.inl rfl), hy⟩
    · exact ⟨.vals, .inr (.inr rfl), hy⟩

/-- A byte of a buffer that is not the step's own is not touched. -/
theorem Room.not_touches (hr : Room env.dev ws c lay m0) (hfits : Fits lay env.dev.fpu c pos o)
    {b : Buf} (hb : ¬ Mine b) {y : Nat} (hy : lay.In b y) : ¬ Touches lay env.dev.fpu c pos o y := by
  intro ht
  obtain ⟨b', hmine, hin⟩ := hr.touches_in hfits ht
  rw [hy.unique hin] at hb
  exact hb hmine

theorem not_mine_code (k : Kernel) : ¬ Mine (.code k) := by
  rintro (h | h | h)
  · exact h
  · cases h
  · cases h

theorem Room.clean (hr : Room env.dev ws c lay m0) (hfits : Fits lay env.dev.fpu c pos o) :
    Clean lay env.dev.fpu c pos o :=
  ⟨hfits.formed, fun k _ hy => hr.not_touches hfits (not_mine_code k) hy⟩

/-! ## One operation -/

/-- What an operation leaves, with the memory `m`. -/
def leaves (env : Env) (st : Run) (o : Op) (m : Mem) : Int × Run :=
  if o.goes env.ok st.calls then
    (TRANSFORMER_OK, ⟨st.ctx.setMem m, o.count st.kv, st.calls + o.cost⟩)
  else (o.error, ⟨st.ctx.setMem m, st.kv, st.calls + o.cost⟩)

theorem Room.token_spec (hr : Room env.dev ws c lay m0) (h : Sound lay m0 c st) (tok : Word) :
    ∃ m, write_token ws tok st = some (leaves env st (.token tok) m) ∧
      ∀ y, ¬ Touches lay env.dev.fpu c pos (.token tok) y → m y = st.ctx.buddy.mem y := by
  have hoff := hr.work .token_id_buf
  have hsize : 4 ≤ lay.size (.work .token_id_buf) :=
    hr.bytes (.token_id_buf, 4) (by simp [scratch_sizes])
  have hfits := lay.fits (.work .token_id_buf)
  have hend := hr.ends
  refine ⟨copy st.ctx.buddy.mem (lay.base + lay.off (.work .token_id_buf) + 0) (bytesOf [tok]) 4,
    ?_, fun y hy => ?_⟩
  · unfold write_token
    rw [show GPU_MEMCPY_H2D = 0 from rfl, gpuMemcpy_H2D (by rw [h.mapped]; omega), h.mapped, ← hoff]
    rfl
  · refine Layout.changes_copy (by omega) y fun b hb => ?_
    rw [List.mem_singleton.mp hb]
    exact hy

theorem Room.launch_spec (hr : Room env.dev ws c lay m0) (h : Sound lay m0 c st) {k : Kernel}
    {args : List Nat} {grid : Nat} (hformed : Formed lay c pos (.launch k args grid)) :
    ∃ m, op env ws k args grid st = some (leaves env st (.launch k args grid) m) ∧
      ∀ y, ¬ Touches lay env.dev.fpu c pos (.launch k args grid) y → m y = st.ctx.buddy.mem y := by
  obtain ⟨hlen, hargs⟩ := hformed
  have hgoes : (Op.launch k args grid).goes env.ok st.calls = env.ok st.calls := by
    simp [Op.goes, Op.cost]
  have hwith : ∀ y, ¬ lay.In (.args k) y →
      withArgs lay k args st.ctx.buddy.mem y = st.ctx.buddy.mem y :=
    fun y hy => hr.withArgs_changes hlen _ y (by simpa using hy)
  rw [hr.op_eq h grid hlen hargs]
  unfold leaves
  rw [hgoes]
  cases env.ok st.calls with
  | false => exact ⟨_, rfl, fun y hy => hwith y fun hin => hy (.inl hin)⟩
  | true =>
    refine ⟨_, rfl, fun y hy => ?_⟩
    rw [afterLaunch, store_all_outside fun s hs hin => hy (.inr ⟨_, s, hs, hin⟩)]
    exact hwith y fun hin => hy (.inl hin)

/-- A cache that keeps its place keeps its rows. -/
theorem InRows_place (hplace : SamePlace c st) (base l h t y : Nat) :
    st.kv.InRows base l h t y ↔ c.InRows base l h t y := by
  unfold SamePlace KvCache.place at hplace
  simp only [KvCache.mk.injEq] at hplace
  obtain ⟨-, h2, h3, h4, h5, h6, -⟩ := hplace
  unfold KvCache.InRows KvCache.InRow KvCache.row KvCache.width
  rw [h2, h3, h4, h5, h6]

theorem Room.rooms (hr : Room env.dev ws c lay m0) (hcache : CacheRoom lay c)
    (h : Sound lay m0 c st) : Rooms lay.top st.ctx st.kv := by
  have hplace := h.place
  unfold SamePlace KvCache.place at hplace
  simp only [KvCache.mk.injEq] at hplace
  obtain ⟨h1, h2, h3, h4, h5, h6, -⟩ := hplace
  have hbytes : st.kv.bytes = c.bytes := by
    unfold KvCache.bytes KvCache.width
    rw [h1, h2, h3, h4]
  have hkeys := lay.fits .keys
  have hvals := lay.fits .vals
  have happ := lay.apart .keys .vals (by decide)
  rw [hr.keys, hcache.keys] at hkeys happ
  rw [hr.vals, hcache.vals] at hvals happ
  refine ⟨?_, ?_, ?_, hr.small, by rw [h.mapped]; exact hr.ends⟩
  · rwa [hbytes, h5]
  · rwa [hbytes, h6]
  · rwa [hbytes, h5, h6]

theorem gpuMemcpy_D2H (ctx : GpgpuCtx) (x n : Nat) (f : Nat → UInt8) :
    ∃ g, gpuMemcpy ctx x f n GPU_MEMCPY_D2H = (0, ctx, g) :=
  ⟨_, rfl⟩

theorem Room.append_spec (hr : Room env.dev ws c lay m0) (h : Sound lay m0 c st) {layer : Nat}
    (hformed : Formed lay c pos (.append layer)) (hready : (Op.append layer).Ready pos st.kv)
    (K V : Nat) : ∃ m, kv_append_from_device env ws layer pos K V st =
        some (leaves env st (.append layer) m) ∧
      ∀ y, ¬ Touches lay env.dev.fpu c pos (.append layer) y → m y = st.ctx.buddy.mem y := by
  obtain ⟨hl, hpos, hcache⟩ := hformed
  obtain ⟨rfl, rfl⟩ := hready
  have hplace := h.place
  unfold SamePlace KvCache.place at hplace
  simp only [KvCache.mk.injEq] at hplace
  obtain ⟨h1, h2, h3, -⟩ := hplace
  have hcur : kv_cache_cur_pos st.kv = some st.kv.filled := if_pos (by omega)
  have hgoes : (Op.append st.kv.pending).goes env.ok st.calls =
      (env.ok st.calls && env.ok (st.calls + 1)) := by
    simp [Op.goes, Op.cost, List.range_succ]
  unfold kv_append_from_device leaves
  rw [hgoes]
  simp only [hcur, Option.bind_eq_bind, Option.bind_some, ne_eq, not_true_eq_false, if_false]
  cases hok : env.ok st.calls && env.ok (st.calls + 1) with
  | false => exact ⟨st.ctx.buddy.mem, rfl, fun _ _ => rfl⟩
  | true =>
    obtain ⟨K_new, hK⟩ := gpuMemcpy_D2H st.ctx K
      (ws.cfg.num_kv_heads * ws.cfg.head_dim % 2 ^ 32 * 4) fun _ => 0
    obtain ⟨V_new, hV⟩ := gpuMemcpy_D2H st.ctx V
      (ws.cfg.num_kv_heads * ws.cfg.head_dim % 2 ^ 32 * 4) fun _ => 0
    obtain ⟨m, hcode, hw⟩ := kv.append_spec K_new V_new (hr.rooms hcache h) (by omega) (by omega)
    refine ⟨m, ?_, fun y hy => hw.outside y fun h' _ hh hin => hy ⟨h', by omega, ?_⟩⟩
    · simp only [hK, hV, hcode, Bool.true_eq_false, if_false, lt_self_iff_false, or_self, if_true,
        Option.map_some, not_true_eq_false]
      rfl
    · rw [← InRows_place h.place, ← h.mapped]
      exact hin

theorem Room.act_spec (hr : Room env.dev ws c lay m0) (h : Sound lay m0 c st)
    (hformed : Formed lay c pos o) (hready : o.Ready pos st.kv) :
    ∃ m, o.act env ws pos st = some (leaves env st o m) ∧
      ∀ y, ¬ Touches lay env.dev.fpu c pos o y → m y = st.ctx.buddy.mem y := by
  cases o with
  | token tok => exact hr.token_spec h tok
  | launch k args grid => exact hr.launch_spec h hformed
  | append layer => exact hr.append_spec h hformed hready _ _
  | commit =>
    obtain ⟨h1, h2, h3⟩ := hready
    refine ⟨st.ctx.buddy.mem, ?_, fun _ _ => rfl⟩
    have hcode : kv_cache_commit_token st.kv =
        some (0, { st.kv with pending := 0, filled := st.kv.filled + 1 }) := by
      unfold kv_cache_commit_token
      rw [if_neg (by omega), if_neg (by omega), if_pos h3]
    show commit_token st = _
    unfold commit_token
    rw [hcode]
    rfl

/-! ## All operations -/

theorem Sound.after {fpu : Fpu} (h : Sound lay m0 c st) (hclean : Clean lay fpu c pos o) {m : Mem}
    (hm : ∀ y, ¬ Touches lay fpu c pos o y → m y = st.ctx.buddy.mem y) (n : Nat) :
    Sound lay m0 c ⟨st.ctx.setMem m, o.count st.kv, n⟩ := by
  refine ⟨h.mapped, fun k y hy => ?_, ?_⟩
  · rw [← h.code k y hy]
    exact hm y (hclean.code k y hy)
  · have hplace := h.place
    unfold SamePlace at hplace ⊢
    rw [← hplace]
    cases o <;> rfl

/-- The operations change only what one of them touches, and the counters end as the refused
calls say. -/
theorem Room.run_spec (hr : Room env.dev ws c lay m0) (h : Sound lay m0 c st)
    (hclean : ∀ o ∈ ops, Clean lay env.dev.fpu c pos o) (hready : ReadyAll pos st.kv ops) :
    ∃ m, run_ops env ws pos ops st = some ((outcome env.ok ops st.calls st.kv).1,
        ⟨st.ctx.setMem m, (outcome env.ok ops st.calls st.kv).2.1,
          (outcome env.ok ops st.calls st.kv).2.2⟩) ∧
      ∀ y, (∀ o ∈ ops, ¬ Touches lay env.dev.fpu c pos o y) → m y = st.ctx.buddy.mem y := by
  induction ops generalizing st with
  | nil => exact ⟨st.ctx.buddy.mem, rfl, fun _ _ => rfl⟩
  | cons o ops ih =>
    have hfirst := hclean o List.mem_cons_self
    obtain ⟨m1, hcode, hm1⟩ := hr.act_spec h hfirst.formed hready.1
    rw [run_ops, List.map_cons, seq, hcode, leaves, outcome]
    cases hgoes : o.goes env.ok st.calls with
    | false =>
      refine ⟨m1, ?_, fun y hy => hm1 y (hy o List.mem_cons_self)⟩
      simp only [Bool.false_eq_true, if_false, Option.bind_some]
      rw [if_pos o.error_ne]
    | true =>
      obtain ⟨m2, hrest, hm2⟩ := ih (h.after hfirst hm1 (st.calls + o.cost))
        (fun o' ho' => hclean o' (List.mem_cons_of_mem _ ho')) hready.2
      refine ⟨m2, ?_, fun y hy => ?_⟩
      · simp only [if_true, Option.bind_some, ne_eq, not_true_eq_false, if_false]
        exact hrest
      · rw [hm2 y fun o' ho' => hy o' (List.mem_cons_of_mem _ ho')]
        exact hm1 y (hy o List.mem_cons_self)

/-- After operations that leave the code as it is the library is sound. -/
theorem Sound.after_all {fpu : Fpu} (h : Sound lay m0 c st)
    (hclean : ∀ o ∈ ops, Clean lay fpu c pos o) {m : Mem}
    (hm : ∀ y, (∀ o ∈ ops, ¬ Touches lay fpu c pos o y) → m y = st.ctx.buddy.mem y) {kv : KvCache}
    (hplace : kv.place = st.kv.place) (n : Nat) : Sound lay m0 c ⟨st.ctx.setMem m, kv, n⟩ := by
  refine ⟨h.mapped, fun k y hy => ?_, hplace.trans h.place⟩
  rw [← h.code k y hy]
  exact hm y fun o ho => (hclean o ho).code k y hy

end

end gpgpu.desk
