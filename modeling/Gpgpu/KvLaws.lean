-- The laws of the cache. Every row that an append wrote stays as it was written,
-- through any calls in any order, and no call touches a byte outside the rows.
import Gpgpu.KvCache
import Gpgpu.PoolLaws

open memory rows runs

namespace gpgpu.kv

open buddy context

/-! ## Where the rows lie -/

namespace KvCache

/-- The sizes and the buffers, without the counters. -/
def place (c : KvCache) : KvCache := { c with filled := 0, pending := 0 }

/-- The bytes of one row. -/
def width (c : KvCache) : Nat := c.head_dim * SIZEOF_FLOAT

/-- The bytes of a buffer. -/
def bytes (c : KvCache) : Nat := c.num_layers * c.num_kv_heads * c.max_seq * c.width

/-- The place in a buffer of the row of layer `l`, head `h` and token `t`. -/
def row (c : KvCache) (l h t : Nat) : Nat := cell c.num_kv_heads c.max_seq l h t * c.width

end KvCache

/-- The two buffers lie apart in the mapped memory. -/
structure Rooms (T : Nat) (ctx : GpgpuCtx) (c : KvCache) : Prop where
  K_fits : c.K_dev_off + c.bytes ≤ T
  V_fits : c.V_dev_off + c.bytes ≤ T
  apart : c.K_dev_off + c.bytes ≤ c.V_dev_off ∨ c.V_dev_off + c.bytes ≤ c.K_dev_off
  small : T ≤ 2 ^ 32
  ends : ctx.vram_mmap + T < 2 ^ 64

/-- The byte `y` is in the row at `x`. -/
def KvCache.InRow (c : KvCache) (x y : Nat) : Prop := x ≤ y ∧ y < x + c.width

/-- The byte `y` is in the row of layer `l`, head `h` and token `t` of one of the two
buffers. -/
def KvCache.InRows (c : KvCache) (base l h t y : Nat) : Prop :=
  c.InRow (base + c.K_dev_off + c.row l h t) y ∨ c.InRow (base + c.V_dev_off + c.row l h t) y

variable {T : Nat} {ctx : GpgpuCtx} {c : KvCache} {l h t l' h' t' : Nat}

/-- A product of four numbers, taken step by step in 64 bits. -/
theorem mul64_chain (a b d e f : Nat) :
    mul64 (mul64 (mul64 (mul64 a b) d) e) f = a * b * d * e * f % 2 ^ 64 := by
  simp [mul64, Nat.mul_mod]

theorem row_le_bytes (hl : l < c.num_layers) (hh : h < c.num_kv_heads) (ht : t < c.max_seq) :
    c.row l h t + c.width ≤ c.bytes :=
  row_le (cell_lt hl hh ht)

/-- Rows of one buffer that differ in layer, head or token lie apart. -/
theorem rows_apart (hh : h < c.num_kv_heads) (hh' : h' < c.num_kv_heads) (ht : t < c.max_seq)
    (ht' : t' < c.max_seq) (hne : (l, h, t) ≠ (l', h', t')) :
    c.row l h t + c.width ≤ c.row l' h' t' ∨ c.row l' h' t' + c.width ≤ c.row l h t := by
  apply row_apart
  intro he
  obtain ⟨rfl, rfl, rfl⟩ := cell_inj hh hh' ht ht' he
  exact hne rfl

/-- A byte of one row is in no other row of two buffers that lie apart. -/
theorem row_alone {base y : Nat}
    (happ : c.K_dev_off + c.bytes ≤ c.V_dev_off ∨ c.V_dev_off + c.bytes ≤ c.K_dev_off)
    (hl : l < c.num_layers) (hl' : l' < c.num_layers) (hh : h < c.num_kv_heads)
    (hh' : h' < c.num_kv_heads) (ht : t < c.max_seq) (ht' : t' < c.max_seq)
    (hne : (l, h, t) ≠ (l', h', t')) (hy : c.InRows base l h t y) : ¬ c.InRows base l' h' t' y := by
  have h1 := row_le_bytes hl hh ht
  have h2 := row_le_bytes hl' hh' ht'
  have h3 := rows_apart hh hh' ht ht' hne
  unfold KvCache.InRows KvCache.InRow at *
  omega

theorem Rooms.row_alone {base y : Nat} (hr : Rooms T ctx c) (hl : l < c.num_layers)
    (hl' : l' < c.num_layers) (hh : h < c.num_kv_heads) (hh' : h' < c.num_kv_heads)
    (ht : t < c.max_seq) (ht' : t' < c.max_seq) (hne : (l, h, t) ≠ (l', h', t'))
    (hy : c.InRows base l h t y) : ¬ c.InRows base l' h' t' y :=
  kv.row_alone hr.apart hl hl' hh hh' ht ht' hne hy

/-- The offset of a layer in a buffer that ends below `2 ^ 32`. -/
theorem layer_off_in (hl : l < c.num_layers) {x : Nat} (hx : x + c.bytes ≤ 2 ^ 32) :
    layer_off c x l = x + l * c.num_kv_heads * c.max_seq * c.width := by
  have hle : l * c.num_kv_heads * c.max_seq * c.width ≤ c.bytes := by
    unfold KvCache.bytes
    gcongr
  have hprod : l * c.num_kv_heads * c.max_seq * c.head_dim * SIZEOF_FLOAT =
      l * c.num_kv_heads * c.max_seq * c.width := by
    unfold KvCache.width
    ring
  unfold layer_off
  rw [mul64_chain, hprod, Nat.mod_eq_of_lt (by omega), add64_eq (by omega)]

/-- The offset that the getters give for a layer. -/
theorem Rooms.layer_off_eq (hr : Rooms T ctx c) (hl : l < c.num_layers) {x : Nat}
    (hx : x + c.bytes ≤ T) : layer_off c x l = x + l * c.num_kv_heads * c.max_seq * c.width :=
  layer_off_in hl (Nat.le_trans hx hr.small)

/-- The head `kh` of a layer finds its row at the place that the loop computes. -/
theorem Rooms.dst_eq (hr : Rooms T ctx c) (hl : l < c.num_layers) (hh : h < c.num_kv_heads)
    (ht : t < c.max_seq) {x : Nat} (hx : x + c.bytes ≤ T) :
    add64 (add64 (layer_off c x l) (mul64 h (mul64 (mul64 c.max_seq c.head_dim) SIZEOF_FLOAT)))
      (mul64 (mul64 t c.head_dim) SIZEOF_FLOAT) = x + c.row l h t := by
  have hrow : l * c.num_kv_heads * c.max_seq * c.width + h * (c.max_seq * c.width) + t * c.width =
      c.row l h t := by
    unfold KvCache.row cell
    ring
  have hle := row_le_bytes hl hh ht
  have hsmall := hr.small
  have hstride : mul64 h (mul64 (mul64 c.max_seq c.head_dim) SIZEOF_FLOAT) =
      h * (c.max_seq * c.width) := by
    unfold mul64
    rw [Nat.mod_mul_mod, Nat.mul_mod_mod, Nat.mul_assoc c.max_seq, ← KvCache.width,
      Nat.mod_eq_of_lt (by omega)]
  have hoffset : mul64 (mul64 t c.head_dim) SIZEOF_FLOAT = t * c.width := by
    unfold mul64
    rw [Nat.mod_mul_mod, Nat.mul_assoc, ← KvCache.width, Nat.mod_eq_of_lt (by omega)]
  have hhead : add64 (x + l * c.num_kv_heads * c.max_seq * c.width) (h * (c.max_seq * c.width)) =
      x + l * c.num_kv_heads * c.max_seq * c.width + h * (c.max_seq * c.width) :=
    add64_eq (by omega)
  rw [hr.layer_off_eq hl hx, hstride, hoffset, hhead, add64_eq (by omega)]
  omega

/-! ## One append -/

/-- The rows of the heads from `n` to `n + k` hold what the host arrays hold. -/
structure RowsHold (c : KvCache) (base l t n k : Nat) (K_new V_new : Nat → UInt8) (m : Mem) :
    Prop where
  K_row : ∀ h, n ≤ h → h < n + k → ∀ i < c.width,
    m (base + c.K_dev_off + c.row l h t + i) = K_new (h * c.width + i)
  V_row : ∀ h, n ≤ h → h < n + k → ∀ i < c.width,
    m (base + c.V_dev_off + c.row l h t + i) = V_new (h * c.width + i)

/-- The rows have come from the host, and no other byte has changed. -/
structure Written (c : KvCache) (base l t n k : Nat) (K_new V_new : Nat → UInt8) (m m' : Mem) :
    Prop extends RowsHold c base l t n k K_new V_new m' where
  outside : ∀ y, (∀ h, n ≤ h → h < n + k → ¬ c.InRows base l h t y) → m' y = m y

/-- Rows stay when no byte of theirs changes. -/
theorem RowsHold.congr {base n k : Nat} {K_new V_new : Nat → UInt8} {m m' : Mem}
    (hw : RowsHold c base l t n k K_new V_new m)
    (hsame : ∀ h, n ≤ h → h < n + k → ∀ y, c.InRows base l h t y → m' y = m y) :
    RowsHold c base l t n k K_new V_new m' := by
  refine ⟨fun h h1 h2 i hi => ?_, fun h h1 h2 i hi => ?_⟩
  · rw [hsame h h1 h2 _ (Or.inl ⟨by omega, by omega⟩), hw.K_row h h1 h2 i hi]
  · rw [hsame h h1 h2 _ (Or.inr ⟨by omega, by omega⟩), hw.V_row h h1 h2 i hi]

/-- The counters play no part in where the rows lie. -/
theorem RowsHold.count {base n k : Nat} {K_new V_new : Nat → UInt8} {m : Mem}
    (hw : RowsHold c base l t n k K_new V_new m) (filled pending : Nat) :
    RowsHold { c with filled, pending } base l t n k K_new V_new m :=
  ⟨hw.K_row, hw.V_row⟩

theorem Rooms.count (hr : Rooms T ctx c) (filled pending : Nat) :
    Rooms T ctx { c with filled, pending } :=
  ⟨hr.K_fits, hr.V_fits, hr.apart, hr.small, hr.ends⟩

/-- A copy to the device, at an offset that lies in the mapping. -/
theorem gpuMemcpy_H2D {dst n : Nat} {src : Nat → UInt8} (hdst : ctx.vram_mmap + dst < 2 ^ 64) :
    gpuMemcpy ctx dst src n 0 =
      (0, ctx.setMem (copy ctx.buddy.mem (ctx.vram_mmap + dst) src n), src) := by
  unfold gpuMemcpy
  rw [if_pos (by rfl), add64_eq hdst]

/-- The memory after one turn of the loop. -/
def writeHead (c : KvCache) (base l h t : Nat) (K_new V_new : Nat → UInt8) (m : Mem) : Mem :=
  copy (copy m (base + (c.K_dev_off + c.row l h t)) (fun i => K_new (h * c.width + i)) c.width)
    (base + (c.V_dev_off + c.row l h t)) (fun i => V_new (h * c.width + i)) c.width

theorem append_turn {n : Nat} {K_new V_new : Nat → UInt8} (hr : Rooms T ctx c)
    (hl : l < c.num_layers) (hh : h < c.num_kv_heads) (ht : t < c.max_seq) :
    append_loop c (layer_off c c.K_dev_off l) (layer_off c c.V_dev_off l)
        (mul64 (mul64 c.max_seq c.head_dim) SIZEOF_FLOAT)
        (mul64 (mul64 t c.head_dim) SIZEOF_FLOAT) K_new V_new (n + 1) h ctx =
      append_loop c (layer_off c c.K_dev_off l) (layer_off c c.V_dev_off l)
        (mul64 (mul64 c.max_seq c.head_dim) SIZEOF_FLOAT)
        (mul64 (mul64 t c.head_dim) SIZEOF_FLOAT) K_new V_new n (h + 1)
        (ctx.setMem (writeHead c ctx.vram_mmap l h t K_new V_new ctx.buddy.mem)) := by
  have hK := hr.K_fits
  have hV := hr.V_fits
  have hsmall := hr.small
  have hend := hr.ends
  have hrow := row_le_bytes hl hh ht
  -- The heads of one row fill at most a buffer, so the 32-bit product is exact.
  have hheads : h * c.width + c.width ≤ c.bytes := by
    have hone : 1 * (c.num_kv_heads * c.width) ≤ c.num_layers * c.max_seq * (c.num_kv_heads * c.width) :=
      Nat.mul_le_mul_right _ (Nat.mul_pos (by omega) (by omega))
    have hle : h * c.width + c.width ≤ c.num_kv_heads * c.width := row_le hh
    have hbytes : c.bytes = c.num_layers * c.max_seq * (c.num_kv_heads * c.width) := by
      unfold KvCache.bytes
      ring
    omega
  have hsrc : h * c.head_dim % 2 ^ 32 * SIZEOF_FLOAT = h * c.width := by
    have hassoc : h * c.head_dim * SIZEOF_FLOAT = h * c.width := Nat.mul_assoc ..
    rw [Nat.mod_eq_of_lt, hassoc]
    unfold SIZEOF_FLOAT at hassoc
    by_contra hge
    omega
  have hwidth : mul64 c.head_dim SIZEOF_FLOAT = c.width := Nat.mod_eq_of_lt (by
    show c.width < 2 ^ 64
    omega)
  rw [append_loop]
  simp only [hr.dst_eq hl hh ht hK, hr.dst_eq hl hh ht hV, hsrc, hwidth]
  rw [gpuMemcpy_H2D (by omega)]
  simp only
  rw [gpuMemcpy_H2D (by show ctx.vram_mmap + _ < _; omega)]
  rfl

/-- The rows that a turn writes, and the bytes that it leaves alone. -/
theorem Rooms.writeHead_written (hr : Rooms T ctx c) (hl : l < c.num_layers)
    (hh : h < c.num_kv_heads) (ht : t < c.max_seq) (base : Nat) (K_new V_new : Nat → UInt8)
    (m : Mem) :
    Written c base l t h 1 K_new V_new m (writeHead c base l h t K_new V_new m) := by
  have hrow := row_le_bytes hl hh ht
  have hapart := hr.apart
  refine ⟨⟨fun h' h1 h2 i hi => ?_, fun h' h1 h2 i hi => ?_⟩, fun y hy => ?_⟩
  · obtain rfl : h' = h := by omega
    unfold writeHead
    rw [copy_outside (by omega), ← Nat.add_assoc, copy_inside hi]
  · obtain rfl : h' = h := by omega
    unfold writeHead
    rw [← Nat.add_assoc base c.V_dev_off, copy_inside hi]
  · have hnot := hy h (by omega) (by omega)
    unfold KvCache.InRows KvCache.InRow at hnot
    unfold writeHead
    rw [copy_outside (by omega), copy_outside (by omega)]

/-- Two stretches of heads, one after the other. -/
theorem Rooms.written_trans {m m' m'' : Mem} {base n k k' : Nat} {K_new V_new : Nat → UInt8}
    (hr : Rooms T ctx c) (hl : l < c.num_layers) (ht : t < c.max_seq)
    (hn : n + k + k' ≤ c.num_kv_heads) (h1 : Written c base l t n k K_new V_new m m')
    (h2 : Written c base l t (n + k) k' K_new V_new m' m'') :
    Written c base l t n (k + k') K_new V_new m m'' := by
  -- A row of the first stretch is in no row of the second one.
  have hfirst : RowsHold c base l t n k K_new V_new m'' := by
    apply h1.toRowsHold.congr
    intro h hge hlt y hy
    apply h2.outside
    intro h' hge' hlt'
    have hne : (l, h, t) ≠ (l, h', t) := by
      simp only [ne_eq, Prod.mk.injEq, not_and]
      omega
    exact hr.row_alone hl hl (by omega) (by omega) ht ht hne hy
  refine ⟨⟨fun h hge hlt => ?_, fun h hge hlt => ?_⟩, fun y hy => ?_⟩
  · by_cases hin : h < n + k
    · exact hfirst.K_row h hge hin
    · exact h2.K_row h (by omega) (by omega)
  · by_cases hin : h < n + k
    · exact hfirst.V_row h hge hin
    · exact h2.V_row h (by omega) (by omega)
  · rw [h2.outside y fun h hge hlt => hy h (by omega) (by omega),
      h1.outside y fun h hge hlt => hy h hge (by omega)]

theorem Rooms.setMem (hr : Rooms T ctx c) (m : Mem) : Rooms T (ctx.setMem m) c :=
  ⟨hr.K_fits, hr.V_fits, hr.apart, hr.small, hr.ends⟩

/-- The loop writes the rows of its heads. -/
theorem append_loop_spec (K_new V_new : Nat → UInt8) (n : Nat) (hr : Rooms T ctx c)
    (hl : l < c.num_layers) (ht : t < c.max_seq) (hn : h + n ≤ c.num_kv_heads) :
    ∃ m, append_loop c (layer_off c c.K_dev_off l) (layer_off c c.V_dev_off l)
        (mul64 (mul64 c.max_seq c.head_dim) SIZEOF_FLOAT)
        (mul64 (mul64 t c.head_dim) SIZEOF_FLOAT) K_new V_new n h ctx = (0, ctx.setMem m) ∧
      Written c ctx.vram_mmap l t h n K_new V_new ctx.buddy.mem m := by
  induction n generalizing h ctx with
  | zero =>
    refine ⟨ctx.buddy.mem, rfl, ⟨fun h' _ _ => ?_, fun h' _ _ => ?_⟩, fun y _ => rfl⟩
    · omega
    · omega
  | succ n ih =>
    have hfirst := hr.writeHead_written (h := h) hl (by omega) ht ctx.vram_mmap K_new V_new
      ctx.buddy.mem
    obtain ⟨m, hcode, hrest⟩ := ih (h := h + 1) (hr.setMem _) (by omega)
    refine ⟨m, ?_, ?_⟩
    · rw [append_turn hr hl (by omega) ht]
      exact hcode
    · rw [Nat.add_comm n 1]
      exact hr.written_trans hl ht (by omega) hfirst hrest

/-- An append that the cache accepts writes the rows of all heads. -/
theorem append_spec (K_new V_new : Nat → UInt8) (hr : Rooms T ctx c) (ht : c.filled < c.max_seq)
    (hl : c.pending < c.num_layers) :
    ∃ m, kv_cache_append_layer ctx c c.pending K_new V_new =
        some (0, ctx.setMem m, { c with pending := c.pending + 1 }) ∧
      Written c ctx.vram_mmap c.pending c.filled 0 c.num_kv_heads K_new V_new ctx.buddy.mem m := by
  obtain ⟨m, hcode, hwritten⟩ := append_loop_spec K_new V_new (h := 0) c.num_kv_heads hr hl ht
    (by omega)
  refine ⟨m, ?_, hwritten⟩
  unfold kv_cache_append_layer kv_cache_K_off kv_cache_V_off
  rw [if_neg (by omega), if_neg (by omega), if_neg (by simp), if_pos hl, if_pos hl]
  simp only [Option.bind_eq_bind, Option.bind_some, hcode]
  rfl

/-! ## Runs -/

/-- What a program does to the cache. -/
inductive Call
  | append (layer : Nat) (K_new V_new : Nat → UInt8)
  | commit

/-- An append that returned 0, with the token that was open then. -/
structure Entry where
  token : Nat
  layer : Nat
  K_new : Nat → UInt8
  V_new : Nat → UInt8

/-- The context, the cache, and the appends that returned 0, the last one first. -/
structure State where
  ctx : GpgpuCtx
  cache : KvCache
  log : List Entry

def step (s : State) : Call → Option State
  | .append layer K_new V_new =>
    (kv_cache_append_layer s.ctx s.cache layer K_new V_new).map fun (r, ctx, cache) =>
      ⟨ctx, cache, if r = 0 then ⟨s.cache.filled, layer, K_new, V_new⟩ :: s.log else s.log⟩
  | .commit => (kv_cache_commit_token s.cache).map fun (_, cache) => { s with cache }

/-- The rows of layer `l` and token `t` have been written. -/
def KvCache.Has (c : KvCache) (t l : Nat) : Prop :=
  (t < c.filled ∧ l < c.num_layers) ∨ (t = c.filled ∧ l < c.pending)

/-- The log has one entry for each row that the counters say is there, the rows hold
what the entries say, and every other byte is as it was in `ctx0`. -/
structure Inv (T : Nat) (ctx0 : GpgpuCtx) (c0 : KvCache) (s : State) : Prop where
  base : s.ctx.vram_mmap = ctx0.vram_mmap
  place : s.cache.place = c0.place
  rooms : Rooms T s.ctx s.cache
  filled_le : s.cache.filled ≤ s.cache.max_seq
  pending_le : s.cache.pending ≤ s.cache.num_layers
  pending_open : 0 < s.cache.pending → s.cache.filled < s.cache.max_seq
  logged : ∀ t l, (t, l) ∈ s.log.map (fun e => (e.token, e.layer)) ↔ s.cache.Has t l
  once : (s.log.map fun e => (e.token, e.layer)).Nodup
  kept : ∀ e ∈ s.log, RowsHold s.cache s.ctx.vram_mmap e.layer e.token 0 s.cache.num_kv_heads
    e.K_new e.V_new s.ctx.buddy.mem
  outside : ∀ y, (∀ e ∈ s.log, ∀ h < s.cache.num_kv_heads,
    ¬ s.cache.InRows s.ctx.vram_mmap e.layer h e.token y) → s.ctx.buddy.mem y = ctx0.buddy.mem y

variable {ctx0 : GpgpuCtx} {c0 : KvCache} {s : State}

theorem Inv.has (hi : Inv T ctx0 c0 s) {e : Entry} (he : e ∈ s.log) : s.cache.Has e.token e.layer :=
  (hi.logged e.token e.layer).mp (List.mem_map_of_mem he)

/-- A row that is there lies in its buffer. -/
theorem Inv.has_lt (hi : Inv T ctx0 c0 s) (hhas : s.cache.Has t l) :
    l < s.cache.num_layers ∧ t < s.cache.max_seq := by
  have h1 := hi.filled_le
  have h2 := hi.pending_le
  have h3 := hi.pending_open
  unfold KvCache.Has at hhas
  omega

/-- An append that is accepted. The rows it writes are none of those in the log. -/
theorem Inv.append (hi : Inv T ctx0 c0 s) (ht : s.cache.filled < s.cache.max_seq)
    (hl : s.cache.pending < s.cache.num_layers) (K_new V_new : Nat → UInt8) :
    ∃ s', step s (.append s.cache.pending K_new V_new) = some s' ∧ Inv T ctx0 c0 s' := by
  obtain ⟨m, hcode, hnew⟩ := append_spec K_new V_new hi.rooms ht hl
  have hfresh : ∀ e ∈ s.log, (e.token, e.layer) ≠ (s.cache.filled, s.cache.pending) := by
    intro e he heq
    have hhas := hi.has he
    simp only [Prod.mk.injEq] at heq
    unfold KvCache.Has at hhas
    omega
  -- A byte of a row in the log is in no new row.
  have hold : ∀ e ∈ s.log, ∀ h < s.cache.num_kv_heads, ∀ y,
      s.cache.InRows s.ctx.vram_mmap e.layer h e.token y → m y = s.ctx.buddy.mem y := by
    intro e he h hh y hy
    obtain ⟨hel, het⟩ := hi.has_lt (hi.has he)
    apply hnew.outside
    intro h' _ hh'
    refine hi.rooms.row_alone hel hl hh (by omega) het ht ?_ hy
    intro heq
    simp only [Prod.mk.injEq] at heq
    exact hfresh e he (by rw [heq.1, heq.2.2])
  refine ⟨⟨s.ctx.setMem m, { s.cache with pending := s.cache.pending + 1 },
    ⟨s.cache.filled, s.cache.pending, K_new, V_new⟩ :: s.log⟩, by simp [step, hcode], ?_⟩
  refine ⟨hi.base, hi.place, (hi.rooms.setMem m).count _ _, hi.filled_le, hl, fun _ => ht,
    fun t l => ?_, ?_, ?_, fun y hy => ?_⟩
  · rw [List.map_cons, List.mem_cons, hi.logged]
    simp only [KvCache.Has, Prod.mk.injEq]
    omega
  · rw [List.map_cons, List.nodup_cons]
    refine ⟨fun hmem => ?_, hi.once⟩
    obtain ⟨e, he, heq⟩ := List.mem_map.mp hmem
    exact hfresh e he heq
  · intro e he
    rcases List.mem_cons.mp he with rfl | he
    · exact hnew.toRowsHold.count _ _
    · have hkept := (hi.kept e he).congr fun h _ hh => hold e he h (by simpa using hh)
      exact hkept.count _ _
  · have hlast := hy _ List.mem_cons_self
    have hrest : s.ctx.buddy.mem y = ctx0.buddy.mem y := by
      apply hi.outside
      intro e he h hh
      exact hy e (List.mem_cons_of_mem _ he) h hh
    rw [← hrest]
    exact hnew.outside y fun h _ hh => hlast h (by simpa using hh)

/-- An append that is refused writes nothing. -/
theorem append_refused (ctx : GpgpuCtx) {layer : Nat} (K_new V_new : Nat → UInt8)
    (hno : ¬ (c.filled < c.max_seq ∧ c.pending < c.num_layers ∧ layer = c.pending)) :
    ∃ r, kv_cache_append_layer ctx c layer K_new V_new = some (r, ctx, c) ∧ r ≠ 0 := by
  unfold kv_cache_append_layer
  split
  · exact ⟨-1, rfl, by decide⟩
  split
  · exact ⟨-2, rfl, by decide⟩
  split
  · exact ⟨-2, rfl, by decide⟩
  · omega

theorem Inv.commit (hi : Inv T ctx0 c0 s) : ∃ s', step s .commit = some s' ∧ Inv T ctx0 c0 s' := by
  simp only [step]
  unfold kv_cache_commit_token
  split
  · exact ⟨s, rfl, hi⟩
  split
  · exact ⟨s, rfl, hi⟩
  rename_i hpos hall
  have hopen := hi.pending_open (by omega)
  rw [if_pos hopen]
  refine ⟨_, rfl, hi.base, hi.place, hi.rooms.count _ _, hopen, Nat.zero_le _, fun h => absurd h (by simp),
    fun t l => ?_, hi.once, fun e he => (hi.kept e he).count _ _, hi.outside⟩
  -- The rows of the closed token are those of all layers.
  rw [hi.logged]
  simp only [KvCache.Has]
  omega

theorem Inv.step (hi : Inv T ctx0 c0 s) (call : Call) :
    ∃ s', kv.step s call = some s' ∧ Inv T ctx0 c0 s' := by
  cases call with
  | commit => exact hi.commit
  | append layer K_new V_new =>
    by_cases hok : s.cache.filled < s.cache.max_seq ∧ s.cache.pending < s.cache.num_layers ∧
        layer = s.cache.pending
    · obtain ⟨ht, hl, rfl⟩ := hok
      exact hi.append ht hl K_new V_new
    · obtain ⟨r, hcode, hr⟩ := append_refused s.ctx K_new V_new hok
      exact ⟨s, by simp [kv.step, hcode, hr], hi⟩

theorem step_log {s' : State} {call : Call} (hstep : step s call = some s') : s.log ⊆ s'.log := by
  cases call with
  | commit =>
    obtain ⟨r, -, rfl⟩ := Option.map_eq_some_iff.mp hstep
    exact List.Subset.refl _
  | append layer K_new V_new =>
    obtain ⟨r, -, rfl⟩ := Option.map_eq_some_iff.mp hstep
    simp only
    split
    · exact List.subset_cons_self _ _
    · exact List.Subset.refl _

/-! ## The fresh cache -/

/-- The bytes that `kv_cache_create` asks for, cut to 64 bits. -/
def KvCache.asked (c : KvCache) : Nat :=
  total_bytes c.num_layers c.num_kv_heads c.max_seq c.head_dim

theorem asked_eq (h : c.bytes < 2 ^ 64) : c.asked = c.bytes := by
  have hprod : c.num_layers * c.num_kv_heads * c.max_seq * c.head_dim * SIZEOF_FLOAT = c.bytes := by
    unfold KvCache.bytes KvCache.width
    ring
  unfold KvCache.asked total_bytes
  rw [mul64_chain, hprod, Nat.mod_eq_of_lt h]

/-- A cache of any dimensions takes two allocations, and what was live before is as it
was. -/
theorem create_takes {pool : Pool} {ctx' : GpgpuCtx} {L H S D : Nat} {host_ok K_ok V_ok : Bool}
    (hcar : Carries T ctx pool)
    (hcode : kv_cache_create ctx L H S D host_ok K_ok V_ok = some (some c, ctx')) :
    ∃ pool', Carries T ctx' pool' ∧
      c = ⟨L, H, S, D, c.K_dev_off, c.V_dev_off, 0, 0⟩ ∧
      pool'.live = (c.V_dev_off, c.asked) :: (c.K_dev_off, c.asked) :: pool.live ∧
      ctx'.vram_mmap = ctx.vram_mmap ∧
      ∀ e ∈ pool.live, ∀ y, InSpan ctx.vram_mmap e y → ctx'.buddy.mem y = ctx.buddy.mem y := by
  unfold kv_cache_create at hcode
  split at hcode
  · cases hcode
  obtain ⟨⟨K, ctx1⟩, hK, hcode⟩ := Option.bind_eq_some_iff.mp hcode
  obtain ⟨pool1, hcar1, hlive1, hmap1, hkeep1⟩ := hcar.grant hK
  simp only at hcode
  split at hcode
  · cases hcode
  rename_i hKok
  obtain ⟨⟨V, ctx2⟩, hV, hcode⟩ := Option.bind_eq_some_iff.mp hcode
  obtain ⟨pool2, hcar2, hlive2, hmap2, hkeep2⟩ := hcar1.grant hV
  simp only at hcode
  split at hcode
  · obtain ⟨r, -, hr⟩ := Option.map_eq_some_iff.mp hcode
    cases hr
  rename_i hVok
  cases hcode
  rw [if_neg hKok] at hlive1
  rw [if_neg hVok, hlive1] at hlive2
  refine ⟨pool2, hcar2, rfl, hlive2, hmap2.trans hmap1, fun e he y hy => ?_⟩
  rw [hkeep2 e (by rw [hlive1]; exact List.mem_cons_of_mem _ he) y (by rw [hmap1]; exact hy),
    hkeep1 e he y hy]

/-- A cache that `kv_cache_create` has made: its buffers are live allocations, and
what was live before is as it was. -/
theorem create_spec {pool : Pool} {ctx' : GpgpuCtx} {L H S D : Nat} {host_ok K_ok V_ok : Bool}
    (hcar : Carries T ctx pool) (hfit : L * H * S * D * SIZEOF_FLOAT < 2 ^ 64)
    (hcode : kv_cache_create ctx L H S D host_ok K_ok V_ok = some (some c, ctx')) :
    ∃ pool', Carries T ctx' pool' ∧
      c = ⟨L, H, S, D, c.K_dev_off, c.V_dev_off, 0, 0⟩ ∧
      pool'.live = (c.V_dev_off, c.bytes) :: (c.K_dev_off, c.bytes) :: pool.live ∧
      ctx'.vram_mmap = ctx.vram_mmap ∧
      ∀ e ∈ pool.live, ∀ y, InSpan ctx.vram_mmap e y → ctx'.buddy.mem y = ctx.buddy.mem y := by
  obtain ⟨pool', hcar', hc, hlive, hrest⟩ := create_takes hcar hcode
  have hbytes : c.bytes < 2 ^ 64 := by
    rw [hc]
    unfold KvCache.bytes KvCache.width
    simp only
    rwa [← Nat.mul_assoc]
  rw [asked_eq hbytes] at hlive
  exact ⟨pool', hcar', hc, hlive, hrest⟩

/-- Two live allocations of the size of a buffer are room for a cache. -/
theorem rooms_of_live {pool : Pool} {rest : List (Nat × Nat)} (hcar : Carries T ctx pool)
    (hlive : pool.live = (c.V_dev_off, c.bytes) :: (c.K_dev_off, c.bytes) :: rest) :
    Rooms T ctx c := by
  have hV : (c.V_dev_off, c.bytes) ∈ pool.live := by simp [hlive]
  have hK : (c.K_dev_off, c.bytes) ∈ pool.live := by simp [hlive]
  have hne : (c.K_dev_off, c.bytes) ≠ (c.V_dev_off, c.bytes) := by
    have hnodup := hcar.good.nodup.of_map
    rw [hlive, List.nodup_cons] at hnodup
    intro he
    exact hnodup.1 (he ▸ List.mem_cons_self)
  have hspan := hcar.good.le_span hK
  have hKle := hcar.good.span_le hK
  have hVle := hcar.good.span_le hV
  have hapart := hcar.good.apart hK hV hne
  have hend := hcar.ends
  have hmapped := hcar.mapped
  simp only at hspan hKle hVle hapart
  refine ⟨by omega, by omega, by omega, hcar.small, by omega⟩

theorem fresh_inv (hr : Rooms T ctx c) (hfilled : c.filled = 0) (hpending : c.pending = 0) :
    Inv T ctx c ⟨ctx, c, []⟩ := by
  refine ⟨rfl, rfl, hr, by simp [hfilled], by simp [hpending], fun h => by simp [hpending] at h,
    fun t l => ?_, List.nodup_nil, fun e he => by simp at he, fun y _ => rfl⟩
  simp [KvCache.Has, hfilled, hpending]

/-! ## Every append is kept -/

/-- Each row that the counters speak of holds what the one append for it brought, at
the place that the getters give, and every byte outside the rows of the log is as it
was in `m0`. -/
structure Recorded (m0 : Mem) (s : State) : Prop where
  rows : ∀ t l, s.cache.Has t l → ∃ e ∈ s.log, e.token = t ∧ e.layer = l ∧
    (∀ f ∈ s.log, f.token = t → f.layer = l → f = e) ∧
    ∃ K_off V_off, kv_cache_K_off s.cache l = some K_off ∧ kv_cache_V_off s.cache l = some V_off ∧
      ∀ h < s.cache.num_kv_heads, ∀ i < s.cache.head_dim, ∀ b < SIZEOF_FLOAT,
        s.ctx.buddy.mem (s.ctx.vram_mmap + (K_off +
            ((h * s.cache.max_seq + t) * s.cache.head_dim + i) * SIZEOF_FLOAT) + b) =
          e.K_new ((h * s.cache.head_dim + i) * SIZEOF_FLOAT + b) ∧
        s.ctx.buddy.mem (s.ctx.vram_mmap + (V_off +
            ((h * s.cache.max_seq + t) * s.cache.head_dim + i) * SIZEOF_FLOAT) + b) =
          e.V_new ((h * s.cache.head_dim + i) * SIZEOF_FLOAT + b)
  outside : ∀ y, (∀ e ∈ s.log, ∀ h < s.cache.num_kv_heads,
    ¬ s.cache.InRows s.ctx.vram_mmap e.layer h e.token y) → s.ctx.buddy.mem y = m0 y

/-- The float `i` of a row lies in the row. -/
theorem float_in_width {i b : Nat} (hi : i < c.head_dim) (hb : b < SIZEOF_FLOAT) :
    i * SIZEOF_FLOAT + b < c.width :=
  pair_lt hi hb

theorem Inv.recorded (hi : Inv T ctx0 c0 s) : Recorded ctx0.buddy.mem s := by
  refine ⟨fun t l hhas => ?_, hi.outside⟩
  obtain ⟨hl, ht⟩ := hi.has_lt hhas
  obtain ⟨e, he, heq⟩ := List.mem_map.mp ((hi.logged t l).mpr hhas)
  simp only [Prod.mk.injEq] at heq
  obtain ⟨rfl, rfl⟩ := heq
  have hsrc : ∀ h i b, (h * s.cache.head_dim + i) * SIZEOF_FLOAT + b =
      h * s.cache.width + (i * SIZEOF_FLOAT + b) := by
    intro h i b
    unfold KvCache.width
    ring
  -- The place that the getters give is the place of the row.
  have hdst : ∀ x h i b, s.ctx.vram_mmap + (x + e.layer * s.cache.num_kv_heads * s.cache.max_seq *
      s.cache.width + ((h * s.cache.max_seq + e.token) * s.cache.head_dim + i) * SIZEOF_FLOAT) + b =
      s.ctx.vram_mmap + x + s.cache.row e.layer h e.token + (i * SIZEOF_FLOAT + b) := by
    intro x h i b
    unfold KvCache.row cell KvCache.width
    ring
  refine ⟨e, he, rfl, rfl, fun f hf h1 h2 => ?_, layer_off s.cache s.cache.K_dev_off e.layer,
    layer_off s.cache s.cache.V_dev_off e.layer, if_pos hl, if_pos hl, fun h hh i hlt b hb => ?_⟩
  · exact List.inj_on_of_nodup_map hi.once hf he (by rw [h1, h2])
  · have hin := float_in_width hlt hb
    rw [hi.rooms.layer_off_eq hl hi.rooms.K_fits, hi.rooms.layer_off_eq hl hi.rooms.V_fits, hdst,
      hdst, hsrc]
    exact ⟨(hi.kept e he).K_row h (Nat.zero_le h) (by omega) _ hin,
      (hi.kept e he).V_row h (Nat.zero_le h) (by omega) _ hin⟩

/-- A row keeps its bytes from the append on. -/
theorem Inv.row_stays {s' : State} (hi : Inv T ctx0 c0 s) (hi' : Inv T ctx0 c0 s')
    (hlog : s.log ⊆ s'.log) {e : Entry} (he : e ∈ s.log) (hh : h < s.cache.num_kv_heads) {y : Nat}
    (hy : s.cache.InRows s.ctx.vram_mmap e.layer h e.token y) :
    s'.ctx.buddy.mem y = s.ctx.buddy.mem y := by
  have hplace : s'.cache.place = s.cache.place := hi'.place.trans hi.place.symm
  have hkept' : RowsHold s.cache s.ctx.vram_mmap e.layer e.token 0 s.cache.num_kv_heads e.K_new
      e.V_new s'.ctx.buddy.mem := by
    have hrows : RowsHold s'.cache.place s'.ctx.vram_mmap e.layer e.token 0
        s'.cache.place.num_kv_heads e.K_new e.V_new s'.ctx.buddy.mem :=
      (hi'.kept e (hlog he)).count 0 0
    rw [hplace, hi'.base, ← hi.base] at hrows
    exact ⟨hrows.K_row, hrows.V_row⟩
  have hkept := hi.kept e he
  rcases hy with ⟨h1, h2⟩ | ⟨h1, h2⟩
  · obtain ⟨i, rfl⟩ := Nat.exists_eq_add_of_le h1
    rw [hkept'.K_row h (Nat.zero_le h) (by omega) i (by omega),
      hkept.K_row h (Nat.zero_le h) (by omega) i (by omega)]
  · obtain ⟨i, rfl⟩ := Nat.exists_eq_add_of_le h1
    rw [hkept'.V_row h (Nat.zero_le h) (by omega) i (by omega),
      hkept.V_row h (Nat.zero_le h) (by omega) i (by omega)]

section

variable {ctx0 ctx1 : GpgpuCtx} {fd : Int} {base size : Nat} {malloc_ok : Slab → Bool}
  {L H S D : Nat} {host_ok K_ok V_ok : Bool} {before : context.State}

/-- A cache of any size, made in any state that the library can reach: after any calls
in any order the rows are recorded, and no later call changes a row. -/
theorem every_append_is_kept (hm : Mapped base size)
    (hinit : gpuInit ctx0 fd base malloc_ok size = some (0, ctx1)) (events : List Event)
    (hbefore : run context.step ⟨ctx1, [], []⟩ events = some before)
    (hfit : L * H * S * D * SIZEOF_FLOAT < 2 ^ 64)
    (hcreate : kv_cache_create before.ctx L H S D host_ok K_ok V_ok = some (some c, ctx))
    (calls more : List Call) :
    ∃ s s', run step ⟨ctx, c, []⟩ calls = some s ∧ run step s more = some s' ∧
      s.cache.place = ⟨L, H, S, D, c.K_dev_off, c.V_dev_off, 0, 0⟩ ∧
      Recorded ctx.buddy.mem s ∧
      ∀ e ∈ s.log, ∀ h < H, ∀ y, s.cache.InRows s.ctx.vram_mmap e.layer h e.token y →
        s'.ctx.buddy.mem y = s.ctx.buddy.mem y := by
  obtain ⟨t0, hrun⟩ := run_follows_pool hm hinit
  obtain ⟨s0, hs0, hf⟩ := hrun events
  obtain rfl : before = s0 := Option.some.inj (hbefore.symm.trans hs0)
  obtain ⟨pool, hcar, hc, hlive, -, -⟩ := create_spec hf.carries hfit hcreate
  have hfresh : Inv (size / PAGE_SIZE * PAGE_SIZE) ctx c ⟨ctx, c, []⟩ :=
    fresh_inv (rooms_of_live hcar hlive) (by rw [hc]) (by rw [hc])
  obtain ⟨s, hs, hi⟩ := run_keeps (fun s call hi => hi.step call) hfresh calls
  obtain ⟨s', hs', hi', hlog⟩ := run_keeps
    (I := fun s' => Inv (size / PAGE_SIZE * PAGE_SIZE) ctx c s' ∧ s.log ⊆ s'.log)
    (fun s1 call h1 => by
      obtain ⟨s2, hstep, hi2⟩ := h1.1.step call
      exact ⟨s2, hstep, hi2, List.Subset.trans h1.2 (step_log hstep)⟩)
    ⟨hi, List.Subset.refl _⟩ more
  have hplace : s.cache.place = ⟨L, H, S, D, c.K_dev_off, c.V_dev_off, 0, 0⟩ := by
    rw [hi.place, hc]
    rfl
  refine ⟨s, s', hs, hs', hplace, hi.recorded, fun e he h hh y hy => ?_⟩
  refine hi.row_stays hi' hlog he ?_ hy
  rw [show s.cache.num_kv_heads = H from congrArg KvCache.num_kv_heads hplace]
  exact hh

theorem two_tokens_are_kept :
    ∃ ctx1 c ctx, gpuInit blankCtx 3 4096 (fun _ => true) 65536 = some (0, ctx1) ∧
      kv_cache_create ctx1 1 2 2 1 true true true = some (some c, ctx) ∧
      ∃ s s', run step ⟨ctx, c, []⟩ [.append 0 (fun i => UInt8.ofNat i) (fun _ => 7), .commit] =
          some s ∧
        run step s [.append 1 (fun _ => 1) (fun _ => 1), .append 0 (fun _ => 2) (fun _ => 3)] =
          some s' ∧
        s.cache.place = ⟨1, 2, 2, 1, c.K_dev_off, c.V_dev_off, 0, 0⟩ ∧
        Recorded ctx.buddy.mem s ∧
        ∀ e ∈ s.log, ∀ h < 2, ∀ y, s.cache.InRows s.ctx.vram_mmap e.layer h e.token y →
          s'.ctx.buddy.mem y = s.ctx.buddy.mem y := by
  have hrun : ((gpuInit blankCtx 3 4096 (fun _ => true) 65536).bind fun r =>
      (kv_cache_create r.2 1 2 2 1 true true true).map fun q => (r.1, q.1.isSome)) =
      some (0, true) := by
    decide +kernel
  obtain ⟨⟨r, ctx1⟩, hinit, hrest⟩ := Option.bind_eq_some_iff.mp hrun
  obtain ⟨⟨oc, ctx⟩, hcreate, heq⟩ := Option.map_eq_some_iff.mp hrest
  simp only [Prod.mk.injEq] at heq
  obtain ⟨rfl, hsome⟩ := heq
  obtain ⟨c, rfl⟩ := Option.isSome_iff_exists.mp hsome
  exact ⟨ctx1, c, ctx, hinit, hcreate, every_append_is_kept ⟨by decide, by decide⟩ hinit []
    (show run context.step ⟨ctx1, [], []⟩ [] = some ⟨ctx1, [], []⟩ from rfl) (by decide) hcreate _ _⟩

/-! ## The size that is asked for -/

/-- The two calls of `gpuMalloc` that make a cache. -/
theorem create_mallocs
    (hcreate : kv_cache_create before.ctx L H S D host_ok K_ok V_ok = some (some c, ctx)) :
    c = ⟨L, H, S, D, c.K_dev_off, c.V_dev_off, 0, 0⟩ ∧
      ∃ after, run context.step before [.malloc c.asked K_ok, .malloc c.asked V_ok] = some after ∧
        after.ctx = ctx ∧
        after.live = (c.V_dev_off, c.asked) :: (c.K_dev_off, c.asked) :: before.live := by
  unfold kv_cache_create at hcreate
  split at hcreate
  · cases hcreate
  obtain ⟨⟨K, ctx1⟩, hK, hcreate⟩ := Option.bind_eq_some_iff.mp hcreate
  simp only at hcreate
  split at hcreate
  · cases hcreate
  rename_i hKok
  obtain ⟨⟨V, ctx2⟩, hV, hcreate⟩ := Option.bind_eq_some_iff.mp hcreate
  simp only at hcreate
  split at hcreate
  · obtain ⟨r, -, hr⟩ := Option.map_eq_some_iff.mp hcreate
    cases hr
  rename_i hVok
  cases hcreate
  refine ⟨rfl, ⟨ctx, _, .offset V :: .offset K :: before.returned⟩, ?_, rfl, rfl⟩
  simp [run, context.step, KvCache.asked, hK, hV, hKok, hVok]

/-- Where an append puts the row of layer `l`, head `h` and token `t` in the buffer at
`dev_off`. -/
def KvCache.dst (c : KvCache) (dev_off l h t : Nat) : Nat :=
  add64 (add64 (layer_off c dev_off l) (mul64 h (mul64 (mul64 c.max_seq c.head_dim) SIZEOF_FLOAT)))
    (mul64 (mul64 t c.head_dim) SIZEOF_FLOAT)

/-- The `n` bytes at `dev_off` hold a buffer, and each row of it. -/
structure Holds (c : KvCache) (dev_off n : Nat) : Prop where
  enough : c.num_layers * c.num_kv_heads * c.max_seq * c.head_dim * SIZEOF_FLOAT ≤ n
  rows : ∀ l < c.num_layers, ∀ h < c.num_kv_heads, ∀ t < c.max_seq,
    dev_off ≤ c.dst dev_off l h t ∧ c.dst dev_off l h t + c.width ≤ dev_off + n

/-- The two blocks behind a cache hold it, just when the size that was asked for was not cut
to 64 bits. -/
theorem the_blocks_hold_the_cache_iff_its_size_is_not_cut (hm : Mapped base size)
    (hinit : gpuInit ctx0 fd base malloc_ok size = some (0, ctx1)) (events : List Event)
    (hbefore : run context.step ⟨ctx1, [], []⟩ events = some before)
    (hcreate : kv_cache_create before.ctx L H S D host_ok K_ok V_ok = some (some c, ctx)) :
    ∃ after, run context.step before [.malloc c.asked K_ok, .malloc c.asked V_ok] = some after ∧
      after.ctx = ctx ∧
      after.live = (c.V_dev_off, c.asked) :: (c.K_dev_off, c.asked) :: before.live ∧
      (Holds c c.K_dev_off (span c.asked) ∧ Holds c c.V_dev_off (span c.asked) ↔
        L * H * S * D * SIZEOF_FLOAT < 2 ^ 64) := by
  obtain ⟨t0, hrun⟩ := run_follows_pool hm hinit
  obtain ⟨s0, hs0, hf⟩ := hrun events
  obtain rfl : before = s0 := Option.some.inj (hbefore.symm.trans hs0)
  obtain ⟨hc, after, hafter, hctx, hlive⟩ := create_mallocs hcreate
  refine ⟨after, hafter, hctx, hlive, fun hholds => ?_, fun hfit => ?_⟩
  · obtain ⟨pool, hcar, -, hpool, -, -⟩ := create_takes hf.carries hcreate
    have hspan := hcar.good.span_le (e := (c.K_dev_off, c.asked)) (by rw [hpool]; simp)
    have hsmall := hcar.small
    have henough := hholds.1.enough
    have hdims : c.num_layers * c.num_kv_heads * c.max_seq * c.head_dim = L * H * S * D := by
      rw [hc]
    rw [hdims] at henough
    dsimp only at hspan
    omega
  · obtain ⟨pool, hcar, -, hpool, -, -⟩ := create_spec hf.carries hfit hcreate
    have hrooms := rooms_of_live hcar hpool
    have hbytes : c.bytes = L * H * S * D * SIZEOF_FLOAT := by
      rw [hc]
      exact (Nat.mul_assoc ..).symm
    have hasked : c.asked = c.bytes := asked_eq (hbytes ▸ hfit)
    have hle := hcar.good.le_span (e := (c.K_dev_off, c.bytes)) (by rw [hpool]; simp)
    have hholds : ∀ x, x + c.bytes ≤ size / PAGE_SIZE * PAGE_SIZE → Holds c x (span c.asked) := by
      intro x hx
      refine ⟨?_, fun l hl h hh t ht => ?_⟩
      · rw [hasked]
        refine Nat.le_trans (Nat.le_of_eq ?_) hle
        unfold KvCache.bytes KvCache.width
        ring
      · unfold KvCache.dst
        rw [hrooms.dst_eq hl hh ht hx, hasked]
        have hrow := row_le_bytes hl hh ht
        dsimp only at hle
        omega
    exact ⟨hholds _ hrooms.K_fits, hholds _ hrooms.V_fits⟩

/-- A cache of four floats. -/
theorem a_small_cache_is_held :
    ∃ ctx1 c ctx after, gpuInit blankCtx 3 4096 (fun _ => true) 65536 = some (0, ctx1) ∧
      kv_cache_create ctx1 1 2 2 1 true true true = some (some c, ctx) ∧
      run context.step ⟨ctx1, [], []⟩ [.malloc c.asked true, .malloc c.asked true] = some after ∧
      after.ctx = ctx ∧ after.live = [(c.V_dev_off, c.asked), (c.K_dev_off, c.asked)] ∧
      (Holds c c.K_dev_off (span c.asked) ∧ Holds c c.V_dev_off (span c.asked) ↔
        1 * 2 * 2 * 1 * SIZEOF_FLOAT < 2 ^ 64) := by
  have hrun : ((gpuInit blankCtx 3 4096 (fun _ => true) 65536).bind fun r =>
      (kv_cache_create r.2 1 2 2 1 true true true).map fun q => (r.1, q.1.isSome)) =
      some (0, true) := by
    decide +kernel
  obtain ⟨⟨r, ctx1⟩, hinit, hrest⟩ := Option.bind_eq_some_iff.mp hrun
  obtain ⟨⟨oc, ctx⟩, hcreate, heq⟩ := Option.map_eq_some_iff.mp hrest
  simp only [Prod.mk.injEq] at heq
  obtain ⟨rfl, hsome⟩ := heq
  obtain ⟨c, rfl⟩ := Option.isSome_iff_exists.mp hsome
  obtain ⟨after, hall⟩ := the_blocks_hold_the_cache_iff_its_size_is_not_cut ⟨by decide, by decide⟩ hinit []
    (show run context.step ⟨ctx1, [], []⟩ [] = some ⟨ctx1, [], []⟩ from rfl) hcreate
  exact ⟨ctx1, c, ctx, after, hinit, hcreate, hall⟩

/-- A cache of `2 ^ 64` bytes gets two slots of 32 bytes, and the row of its ninth head lies
behind its slot. -/
theorem a_huge_cache_gets_two_slots :
    ∃ ctx1 c ctx, gpuInit blankCtx 3 4096 (fun _ => true) 65536 = some (0, ctx1) ∧
      kv_cache_create ctx1 (2 ^ 31) (2 ^ 31) 1 1 true true true = some (some c, ctx) ∧
      span c.asked = 32 ∧ c.dst c.K_dev_off 0 8 0 = c.K_dev_off + 32 ∧
      ¬ Holds c c.K_dev_off (span c.asked) := by
  have hrun : ((gpuInit blankCtx 3 4096 (fun _ => true) 65536).bind fun r =>
      (kv_cache_create r.2 (2 ^ 31) (2 ^ 31) 1 1 true true true).map fun q =>
        (r.1, q.1.map KvCache.K_dev_off)) = some (0, some 4064) := by
    decide +kernel
  obtain ⟨⟨r, ctx1⟩, hinit, hrest⟩ := Option.bind_eq_some_iff.mp hrun
  obtain ⟨⟨oc, ctx⟩, hcreate, heq⟩ := Option.map_eq_some_iff.mp hrest
  simp only [Prod.mk.injEq] at heq
  obtain ⟨rfl, hsome⟩ := heq
  obtain ⟨c, rfl, hK⟩ := Option.map_eq_some_iff.mp hsome
  let before : context.State := ⟨ctx1, [], []⟩
  obtain ⟨hc, -⟩ := create_mallocs (show kv_cache_create before.ctx _ _ _ _ _ _ _ = _ from hcreate)
  have hasked : c.asked = 0 := by
    rw [hc, KvCache.asked, total_bytes, mul64_chain]
    norm_num [SIZEOF_FLOAT]
  have hspan : span c.asked = 32 := by
    rw [hasked]
    rfl
  refine ⟨ctx1, c, ctx, hinit, hcreate, hspan, ?_, fun hholds => ?_⟩
  · rw [hK, hc]
    rfl
  · have henough := hholds.enough
    rw [hspan, hc] at henough
    exact absurd henough (by norm_num [SIZEOF_FLOAT])

end

end gpgpu.kv
