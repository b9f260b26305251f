-- What a decode step works on, without addresses: the vector in each buffer, and for
-- each layer the keys and values so far. The memory of the device shows such a desk
-- while the buffers lie apart, and a launch changes it as the kernel says.
import Gpgpu.Lib.Buffers
import Gpgpu.KvLaws
import Gpgpu.Reference

open memory words buffers

namespace gpgpu.desk

open buddy context kernels device kv weights transformer reference

/-! ## The buffers -/

/-- All buffers on the device: those of the workspace, the code and the arguments of the
kernels, the regions of the weights, and the two of the cache. -/
inductive Buf
  | work (s : Scratch)
  | code (k : Kernel)
  | args (k : Kernel)
  | region (r : Fin 8)
  | keys
  | vals
deriving DecidableEq

/-- The bytes of a buffer of the workspace, for the default config. -/
def workBytes : Scratch → Nat
  | .RESID_A | .RESID_B | .SCRATCH_X | .SCRATCH_Q => 3584
  | .SCRATCH_K | .SCRATCH_V => 512
  | .SCRATCH_SCORES => 7168
  | .SCRATCH_FFN_A | .SCRATCH_FFN_B => 19456
  | .LOGITS => 607744
  | .sincos => 32768
  | .token_id_buf => 4
  | .argmax_debug => 1024

/-- The bytes of a buffer of the cache, for 24 layers, 2 heads and 128 tokens. -/
def CACHE_BYTES : Nat := 1572864

/-- The buffers are where the workspace, the loader and the cache say. -/
structure Placed (dev : Device) (ws : Workspace) (wl : WeightLoader) (lay : Layout Buf) : Prop where
  cfg : ws.cfg = transformer_default_config
  small : lay.top ≤ 2 ^ 32
  ends : lay.base + lay.top < 2 ^ 64
  work : ∀ s, lay.off (.work s) = ws.off s ∧ lay.size (.work s) = workBytes s
  code : ∀ k, lay.off (.code k) = ws.kbin k ∧ lay.size (.code k) = (dev.binary k).length
  args : ∀ k, lay.off (.args k) = ws.args k ∧ lay.size (.args k) = 32
  region : ∀ r : Fin 8, lay.off (.region r) = wl.region_base r ∧ lay.size (.region r) = plan_bytes r
  keys : lay.size .keys = CACHE_BYTES
  vals : lay.size .vals = CACHE_BYTES

/-- At offset `x` a region of the weights has the vector `v` of `n` words. -/
def Rom (lay : Layout Buf) (m : Mem) (x n : Nat) (v : List Word) : Prop :=
  ∃ r i, x = lay.off (.region r) + i ∧ i + 4 * n ≤ lay.size (.region r) ∧
    lay.read m (.region r) i n = v

/-- The memory `m0` has the code of the kernels and the weights of the model. -/
structure Loaded (env : Env) (ws : Workspace) (wl : WeightLoader) (lay : Layout Buf) (M : Model)
    (m0 : Mem) : Prop extends Placed env.dev ws wl lay where
  binary : ∀ k, ∀ i < (env.dev.binary k).length,
    m0 (lay.base + lay.off (.code k) + i) = (env.dev.binary k).getD i 0
  tensor : ∀ l < WL_NUM_LAYERS, ∀ t, ∃ x, weight_loader_layer wl l t = some x ∧
    Rom lay m0 x (TENSOR_TABLE t).n_floats (M.tensor l t)
  embedding : Rom lay m0 wl.embedding_addr (WL_VOCAB_SIZE * WL_HIDDEN_SIZE) M.embedding
  lm_head : Rom lay m0 wl.lm_head_addr (WL_HIDDEN_SIZE * WL_VOCAB_SIZE) M.lm_head
  final_norm : Rom lay m0 wl.final_norm_addr WL_HIDDEN_SIZE M.final_norm
  inv_d : M.inv_d = env.host.div ONE (env.host.ofNat 896)
  eps : M.eps = transformer_default_config.rms_norm_eps
  scale : M.scale = env.host.div ONE (env.host.sqrtf (env.host.ofNat 64))
  ok : ∀ n, env.ok n = true

/-! ## The desk -/

/-- The vectors in the buffers, the rows of scores, and the keys and values that each
layer has so far. -/
structure Desk where
  vec : Scratch → List Word
  scores : List (List Word)
  keys : Nat → List (List Word)
  vals : Nat → List (List Word)
  filled : Nat
  pending : Nat

/-- The desk with another vector in one buffer. -/
def Desk.set (d : Desk) (s : Scratch) (v : List Word) : Desk :=
  { d with vec := Function.update d.vec s v }

@[simp] theorem Desk.set_vec_same (d : Desk) (s : Scratch) (v : List Word) :
    (d.set s v).vec s = v :=
  Function.update_self ..

theorem Desk.set_vec (d : Desk) (s s' : Scratch) (v : List Word) :
    (d.set s v).vec s' = if s' = s then v else d.vec s' :=
  Function.update_apply ..

theorem Desk.set_vec_ne (d : Desk) {s s' : Scratch} (v : List Word) (h : s' ≠ s) :
    (d.set s v).vec s' = d.vec s' :=
  Function.update_of_ne h ..

/-- The scores have rows of their own, and nothing reads the debug buffer. -/
def Plain (s : Scratch) : Prop := s ≠ .SCRATCH_SCORES ∧ s ≠ .argmax_debug

instance : DecidablePred Plain := fun _ => instDecidableAnd

/-- The buffer `b` has the key or value rows of the layers. -/
def RowsOf (lay : Layout Buf) (m : Mem) (b : Buf) (rows : Nat → List (List Word)) : Prop :=
  ∀ l < 24, (rows l).length ≤ 128 ∧ ∀ t < (rows l).length, ∀ h < 2,
    lay.read m b (((l * 2 + h) * 128 + t) * 256) 64 = stretch ((rows l).getD t []) (h * 64) 64

/-- The memory shows the desk, and the code and the weights are as in `m0`. -/
structure Shows (lay : Layout Buf) (m0 m : Mem) (d : Desk) : Prop where
  code : ∀ k, lay.Same (.code k) m0 m
  region : ∀ r, lay.Same (.region r) m0 m
  vecs : ∀ s, Plain s → lay.read m (.work s) 0 (workBytes s / 4) = d.vec s
  heads : d.scores.length ≤ 14
  scores : ∀ h < d.scores.length, (d.scores.getD h []).length ≤ 128 ∧
    lay.read m (.work .SCRATCH_SCORES) (h * 512) (d.scores.getD h []).length = d.scores.getD h []
  keys : RowsOf lay m .keys d.keys
  vals : RowsOf lay m .vals d.vals

/-- The state of a step shows the desk. -/
structure At (lay : Layout Buf) (m0 : Mem) (st : Run) (d : Desk) : Prop where
  mapped : st.ctx.vram_mmap = lay.base
  shows : Shows lay m0 st.ctx.buddy.mem d
  kv : st.kv = ⟨24, 2, 128, 64, lay.off .keys, lay.off .vals, d.filled, d.pending⟩
  filled_le : d.filled ≤ 128
  pending_le : d.pending ≤ 24
  keys_length : ∀ l < 24, (d.keys l).length = d.filled + if l < d.pending then 1 else 0
  vals_length : ∀ l < 24, (d.vals l).length = d.filled + if l < d.pending then 1 else 0

/-! ## Changes that the desk does not see, and those that it does -/

section

variable {dev : Device} {ws : Workspace} {wl : WeightLoader} {lay : Layout Buf} {m0 m m' : Mem}
  {d : Desk} {s : Scratch} {rows : Nat → List (List Word)} {b : Buf}

theorem row_fits {l h t : Nat} (hl : l < 24) (hh : h < 2) (ht : t < 128) :
    ((l * 2 + h) * 128 + t) * 256 + 4 * 64 ≤ CACHE_BYTES := by
  unfold CACHE_BYTES
  omega

theorem scores_row_fits {h n : Nat} (hh : h < 14) (hn : n ≤ 128) :
    h * 512 + 4 * n ≤ workBytes .SCRATCH_SCORES := by
  show h * 512 + 4 * n ≤ 7168
  omega

theorem RowsOf.congr (hrows : RowsOf lay m b rows) (hsize : lay.size b = CACHE_BYTES)
    (hsame : lay.Same b m m') : RowsOf lay m' b rows := by
  intro l hl
  obtain ⟨hlen, hread⟩ := hrows l hl
  refine ⟨hlen, fun t ht h hh => ?_⟩
  rw [hsame.read (by rw [hsize]; exact row_fits hl hh (by omega))]
  exact hread t ht h hh

/-- A change in buffers that the desk does not show, and other rows in the cache. -/
theorem Shows.cache (hp : Placed dev ws wl lay) (hs : Shows lay m0 m d)
    (hcode : ∀ k, lay.Same (.code k) m m') (hregion : ∀ r, lay.Same (.region r) m m')
    (hvec : ∀ s, s ≠ .argmax_debug → lay.Same (.work s) m m') {keys vals : Nat → List (List Word)}
    (hkeys : RowsOf lay m' .keys keys) (hvals : RowsOf lay m' .vals vals) (filled pending : Nat) :
    Shows lay m0 m' { d with keys, vals, filled, pending } := by
  refine ⟨fun k y hy => ?_, fun r y hy => ?_, fun s hplain => ?_, hs.heads, fun h hh => ?_,
    hkeys, hvals⟩
  · rw [hcode k y hy, hs.code k y hy]
  · rw [hregion r y hy, hs.region r y hy]
  · rw [(hvec s hplain.2).read (by rw [(hp.work s).2]; omega)]
    exact hs.vecs s hplain
  · obtain ⟨hlen, hread⟩ := hs.scores h hh
    have hheads := hs.heads
    refine ⟨hlen, ?_⟩
    rw [(hvec .SCRATCH_SCORES (by decide)).read
      (by rw [(hp.work _).2]; exact scores_row_fits (Nat.lt_of_lt_of_le hh hheads) hlen)]
    exact hread

/-- A change in buffers that the desk does not show. -/
theorem Shows.congr (hp : Placed dev ws wl lay) (hs : Shows lay m0 m d)
    (hcode : ∀ k, lay.Same (.code k) m m') (hregion : ∀ r, lay.Same (.region r) m m')
    (hvec : ∀ s, s ≠ .argmax_debug → lay.Same (.work s) m m') (hkeys : lay.Same .keys m m')
    (hvals : lay.Same .vals m m') : Shows lay m0 m' d :=
  hs.cache hp hcode hregion hvec (hs.keys.congr hp.keys hkeys) (hs.vals.congr hp.vals hvals)
    d.filled d.pending

/-- A change in the arguments of a kernel. -/
theorem Shows.args (hp : Placed dev ws wl lay) (hs : Shows lay m0 m d) {k : Kernel}
    (hch : lay.Changes [.args k] m m') : Shows lay m0 m' d :=
  hs.congr hp (fun _ => hch.same (by simp)) (fun _ => hch.same (by simp))
    (fun _ _ => hch.same (by simp)) (hch.same (by simp)) (hch.same (by simp))

/-- A change in the debug buffer. -/
theorem Shows.debug (hp : Placed dev ws wl lay) (hs : Shows lay m0 m d)
    (hch : lay.Changes [.work .argmax_debug] m m') : Shows lay m0 m' d :=
  hs.congr hp (fun _ => hch.same (by simp)) (fun _ => hch.same (by simp))
    (fun s hne => hch.same (by simpa using hne)) (hch.same (by simp)) (hch.same (by simp))

/-- A new vector in a buffer. -/
theorem Shows.set (hp : Placed dev ws wl lay) (hs : Shows lay m0 m d) (hplain : Plain s)
    {v : List Word} (hch : lay.Changes [.work s] m m')
    (hread : lay.read m' (.work s) 0 (workBytes s / 4) = v) : Shows lay m0 m' (d.set s v) := by
  have hsame : ∀ s', s' ≠ s → lay.Same (.work s') m m' := fun s' hne => hch.same (by simpa using hne)
  refine ⟨fun k y hy => ?_, fun r y hy => ?_, fun s' hplain' => ?_, hs.heads, fun h hh => ?_,
    hs.keys.congr hp.keys (hch.same (by simp)), hs.vals.congr hp.vals (hch.same (by simp))⟩
  · rw [hch.same (by simp) y hy, hs.code k y hy]
  · rw [hch.same (by simp) y hy, hs.region r y hy]
  · by_cases heq : s' = s
    · subst heq
      rw [hread, Desk.set_vec_same]
    · rw [Desk.set_vec_ne _ _ heq, (hsame s' heq).read (by rw [(hp.work s').2]; omega)]
      exact hs.vecs s' hplain'
  · obtain ⟨hlen, hold⟩ := hs.scores h hh
    have hheads : h < 14 := Nat.lt_of_lt_of_le hh hs.heads
    refine ⟨hlen, ?_⟩
    rw [(hsame .SCRATCH_SCORES hplain.1.symm).read
      (by rw [(hp.work _).2]; exact scores_row_fits hheads hlen)]
    exact hold

/-! ## Reads of the device -/

/-- A read of the device in a buffer. -/
theorem Placed.vec_rd32 (hp : Placed dev ws wl lay) {i n x : Nat} (hx : x = lay.off b + i)
    (hi : i + 4 * n ≤ lay.size b) : vec (rd32 lay.base m) x n = lay.read m b i n := by
  have hfits := lay.fits b
  have hsmall := hp.small
  apply vec_congr
  intro k hk
  unfold rd32
  rw [Nat.mod_eq_of_lt (by omega), hx]
  congr 1
  omega

theorem Shows.vec_eq (hp : Placed dev ws wl lay) (hs : Shows lay m0 m d) (hplain : Plain s) {n : Nat}
    (hn : n = workBytes s / 4) : vec (rd32 lay.base m) (ws.off s) n = d.vec s := by
  have hsize := (hp.work s).2
  rw [hp.vec_rd32 (b := .work s) (i := 0) (by rw [(hp.work s).1, Nat.add_zero]) (by omega), hn]
  exact hs.vecs s hplain

/-- A stretch of the vector in a buffer. -/
theorem Shows.stretch_eq (hp : Placed dev ws wl lay) (hs : Shows lay m0 m d) (hplain : Plain s)
    {i n : Nat} (hi : i + n ≤ workBytes s / 4) :
    vec (rd32 lay.base m) (ws.off s + i * 4) n = stretch (d.vec s) i n := by
  have hsize := (hp.work s).2
  rw [hp.vec_rd32 (b := .work s) (i := 4 * i) (by rw [(hp.work s).1]; ring) (by omega),
    ← hs.vecs s hplain, stretch, Layout.read_stretch _ _ hi, Nat.zero_add]

/-- A read of the weights. -/
theorem Shows.rom_eq (hp : Placed dev ws wl lay) (hs : Shows lay m0 m d) {x n : Nat} {v : List Word}
    (hrom : Rom lay m0 x n v) : vec (rd32 lay.base m) x n = v := by
  obtain ⟨r, i, hx, hi, hread⟩ := hrom
  rw [hp.vec_rd32 hx hi, (hs.region r).read hi, hread]

theorem workBytes_pos (s : Scratch) : 0 < workBytes s := by
  cases s <;> decide

theorem Placed.work_lt (hp : Placed dev ws wl lay) (s : Scratch) : ws.off s < 2 ^ 32 := by
  obtain ⟨hoff, hsize⟩ := hp.work s
  have hfits := lay.fits (.work s)
  have hsmall := hp.small
  have hpos := workBytes_pos s
  omega

end

/-! ## A launch -/

section

variable {env : Env} {ws : Workspace} {wl : WeightLoader} {lay : Layout Buf} {M : Model} {m0 : Mem}
  {st : Run} {d : Desk}

/-- The state after a launch has left the memory `m`. -/
def launched (st : Run) (m : Mem) : Run :=
  { st with ctx := st.ctx.setMem m, calls := st.calls + 1 }

theorem At.launched {d' : Desk} {m : Mem} (h : At lay m0 st d) (hs : Shows lay m0 m d')
    (hkv : d'.filled = d.filled ∧ d'.pending = d.pending ∧ d'.keys = d.keys ∧ d'.vals = d.vals) :
    At lay m0 (launched st m) d' := by
  obtain ⟨h1, h2, h3, h4⟩ := hkv
  refine ⟨h.mapped, hs, ?_, ?_, ?_, ?_, ?_⟩
  · rw [h1, h2]
    exact h.kv
  · rw [h1]
    exact h.filled_le
  · rw [h2]
    exact h.pending_le
  · rw [h1, h2, h3]
    exact h.keys_length
  · rw [h1, h2, h4]
    exact h.vals_length

/-- An operation finds its kernel and its arguments, and leaves the stores of the
kernel. -/
theorem op_spec (hl : Loaded env ws wl lay M m0) (h : At lay m0 st d) (k : Kernel) {args : List Nat}
    (grid : Nat) (hlen : args.length ≤ 8) (hargs : ∀ x ∈ args, x < 2 ^ 32) :
    ∃ m arg, Shows lay m0 m d ∧ (∀ i < args.length, arg i = args.getD i 0) ∧
      op env ws k args grid st = some (TRANSFORMER_OK, launched st
        (store_all lay.base m (k.stores env.dev.fpu grid arg (rd32 lay.base m)))) := by
  have hp := hl.toPlaced
  obtain ⟨hoff, hsize⟩ := hp.args k
  have hfits := lay.fits (.args k)
  have hsmall := hp.small
  have hend := hp.ends
  let m := put st.ctx.buddy.mem (lay.base + lay.off (.args k) + 0) (args.map UInt32.ofNat)
  have hch : lay.Changes [.args k] st.ctx.buddy.mem m := Layout.changes_put (by simp; omega)
  have hs : Shows lay m0 m d := h.shows.args hp hch
  have hcopy : gpuMemcpy st.ctx (ws.args k) (bytesOf (args.map UInt32.ofNat))
      (4 * (args.map UInt32.ofNat).length) GPU_MEMCPY_H2D =
      (0, st.ctx.setMem m, bytesOf (args.map UInt32.ofNat)) := by
    rw [show GPU_MEMCPY_H2D = 0 from rfl, gpuMemcpy_H2D (by rw [h.mapped]; omega), h.mapped, ← hoff]
    rfl
  -- The code of the kernel is still there.
  have hcode : env.dev.decode (fun i => m (lay.base + ws.kbin k % 2 ^ 32 + i)) = some k := by
    apply env.dev.decode_binary
    intro i hi
    obtain ⟨hcoff, hcsize⟩ := hp.code k
    have hcfits := lay.fits (.code k)
    rw [← hcoff, Nat.mod_eq_of_lt (by omega), hs.code k _ ⟨by omega, by omega⟩]
    exact hl.binary k i hi
  refine ⟨m, fun i => (rd32 lay.base m (ws.args k + 4 * i)).toNat, hs, fun i hi => ?_, ?_⟩
  · have hword : rd32 lay.base m (ws.args k + 4 * i) = (args.map UInt32.ofNat).getD i 0 := by
      unfold rd32
      rw [Nat.mod_eq_of_lt (by omega), ← hoff, ← Nat.add_assoc]
      exact word_put (by simpa using hi)
    have hget : (args.map UInt32.ofNat).getD i 0 = UInt32.ofNat (args.getD i 0) := by
      simp [List.getD, hi]
    have hmem : args.getD i 0 ∈ args := by
      rw [List.getD_eq_getElem _ _ hi]
      exact List.getElem_mem hi
    simp only
    rw [hword, hget, UInt32.toNat_ofNat_of_lt' (hargs _ hmem)]
  · unfold op launch_op
    simp only [hcopy]
    rw [if_neg (by decide)]
    unfold gpuLaunchKernel
    rw [hl.ok, if_neg (by decide)]
    have hmap : (st.ctx.setMem m).vram_mmap = lay.base := h.mapped
    have hmem : (st.ctx.setMem m).buddy.mem = m := rfl
    simp only [hmap, hmem, hcode]
    rfl

end

end gpgpu.desk
