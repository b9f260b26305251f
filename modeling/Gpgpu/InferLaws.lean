-- The loops of the inference driver: each step comes at the end of the cache, so neither the
-- cache nor its assertions ever refuse one, and the array of new tokens has room for all.
import Gpgpu.Infer
import Gpgpu.LifeLaws
import Gpgpu.Stage

open memory words buffers runs

namespace gpgpu.infer_tokens

open buddy context kernels device kv weights transformer desk

/-! ## The protocol -/

/-- A call at the end of the cache, which the cache does not refuse. -/
structure Kept (call : StepCall) : Prop where
  pos : call.cur_pos = call.found.filled
  room : call.found.filled < call.found.max_seq
  max_seq : call.found.max_seq = transformer_default_config.max_seq
  pending : call.found.pending = 0
  code : call.returned ≠ TRANSFORMER_ERR_CACHE

/-- The steps have changed nothing of the context but the bytes of the buffers that they
write, and the cache is where it was. -/
structure Unmoved (lay : Layout Buf) (c : KvCache) (ctx : GpgpuCtx) (st : Run) : Prop where
  context : st.ctx = ctx.setMem st.ctx.buddy.mem
  mem : ∀ y, (∀ b, Mine b → ¬ lay.In b y) → st.ctx.buddy.mem y = ctx.buddy.mem y
  place : SamePlace c st

/-- What the loops leave, whichever call has failed in them. -/
structure Abides (lay : Layout Buf) (c : KvCache) (ctx : GpgpuCtx) (s : Session) : Prop
    extends Unmoved lay c ctx s.st where
  calls : ∀ call ∈ s.calls, Kept call

/-- The cache is at token `pos`, with no layer of it taken in. -/
structure AtToken (lay : Layout Buf) (c : KvCache) (ctx : GpgpuCtx) (pos : Nat) (s : Session) : Prop
    extends Abides lay c ctx s where
  filled : s.st.kv.filled = pos
  pending : s.st.kv.pending = 0

variable {env : Env} {ws : Workspace} {wl : WeightLoader} {c : KvCache}
  {lay : Layout Buf} {ctx : GpgpuCtx} {pos : Nat} {s : Session}

theorem int32_eq (h : pos < 2 ^ 31) : int32 pos = pos := by
  unfold int32
  rw [BitVec.toInt_eq_toNat_cond, BitVec.toNat_ofNat]
  omega

/-- What the loops need of the library. -/
structure Library (env : Env) (ws : Workspace) (wl : WeightLoader) (c : KvCache) (lay : Layout Buf)
    (ctx : GpgpuCtx) : Prop where
  mapped : ctx.vram_mmap = lay.base
  room : Room env.dev ws c lay ctx.buddy.mem
  suited : Suited ws wl c lay
  work : ∀ s, lay.size (.work s) = 4 * floats ws.cfg s
  cfg : ws.cfg = transformer_default_config
  layers : c.num_layers = transformer_default_config.num_layers

/-- The steps have not written the code. -/
theorem Unmoved.sound {st : Run} (hu : Unmoved lay c ctx st) (hl : Library env ws wl c lay ctx) :
    Sound lay ctx.buddy.mem c st := by
  refine ⟨?_, fun k y hy => hu.mem y fun b hb hin => ?_, hu.place⟩
  · rw [hu.context]
    exact hl.mapped
  · rw [hin.unique hy] at hb
    exact not_mine_code k hb

/-! ## The loops -/

/-- One call at token `pos`. If it has gone well, the cache is at the next token. -/
theorem step_keeps (heard : Nat → Int → Int) (hl : Library env ws wl c lay ctx)
    (h : AtToken lay c ctx pos s) (hpos : pos < 128) (tok : Int) :
    ∃ r s', step env ws wl heard tok (int32 pos) s = some (r, s') ∧ Abides lay c ctx s' ∧
      (0 ≤ r → AtToken lay c ctx (pos + 1) s') := by
  have hsound := h.sound hl
  have hlayers : s.st.kv.num_layers = ws.cfg.num_layers := by
    rw [hsound.place.num_layers, hl.layers, hl.cfg]
  have hmax : s.st.kv.max_seq = 128 := hsound.place.max_seq.trans hl.suited.max_seq
  have hopen : Open ws.cfg s.st.kv := by
    refine ⟨by rw [h.filled, hmax]; exact hpos, .inl ⟨?_, h.pending, hlayers⟩⟩
    rw [hl.cfg]
    decide
  obtain ⟨r, st', hst⟩ := hl.room.step_spec hl.suited hsound hopen tok
  have hcases := hst.cases hopen
  have hcode := hst.code
  rw [h.filled] at hcode
  have hunmoved : Unmoved lay c ctx st' := by
    obtain ⟨m, hm⟩ := hst.ctx
    refine ⟨?_, fun y hy => ?_, hst.sound.place⟩
    · rw [hm, h.context]
      rfl
    · rw [hst.frame y fun o ho htouch => ?_, h.mem y hy]
      have hfits : Fits lay env.dev.fpu c s.st.kv.filled o :=
        hl.room.step_fits hl.suited (by rw [h.filled]; exact hpos) _ o ho
      obtain ⟨b, hmine, hin⟩ := hl.room.touches_in hfits htouch
      exact hy b hmine hin
  have hkept : ∀ call ∈ s.calls ++ [⟨tok, pos, s.st.kv, r⟩], Kept call := by
    intro call hcall
    rcases List.mem_append.mp hcall with hcall | hcall
    · exact h.calls call hcall
    · rw [List.mem_singleton.mp hcall]
      refine ⟨by simp only [h.filled], hopen.1, hmax, h.pending, ?_⟩
      simp only [TRANSFORMER_ERR_CACHE]
      rcases hcases with ⟨hr, -⟩ | hr | hr
      · omega
      · rw [hr]
        decide
      · rw [hr]
        decide
  refine ⟨if r < 0 then r else heard s.calls.length r, ⟨st', s.calls ++ [⟨tok, pos, s.st.kv, r⟩]⟩,
    ?_, ⟨hunmoved, hkept⟩, fun hnext => ?_⟩
  · rw [step, int32_eq (by omega), hcode]
    rfl
  · -- A step that returned a code is not taken for one that went well.
    have hkv : st'.kv = { s.st.kv with filled := s.st.kv.filled + 1, pending := 0 } := by
      rcases hcases with ⟨-, hkv⟩ | hr | hr
      · exact hkv
      · rw [hr, if_pos (by decide)] at hnext
        exact absurd hnext (by decide)
      · rw [hr, if_pos (by decide)] at hnext
        exact absurd hnext (by decide)
    exact ⟨⟨hunmoved, hkept⟩, by rw [hkv, ← h.filled], by rw [hkv]⟩

theorem prefill_keeps (heard : Nat → Int → Int) (hl : Library env ws wl c lay ctx) (xs : List Int)
    (next : Int) (h : AtToken lay c ctx pos s) (hpos : pos + xs.length ≤ 128) :
    ∃ r s', prefill env ws wl heard pos xs next s = some (r, s') ∧ Abides lay c ctx s' ∧
      (0 ≤ r → AtToken lay c ctx (pos + xs.length) s') := by
  induction xs generalizing pos s next with
  | nil => exact ⟨next, s, rfl, h.toAbides, fun _ => h⟩
  | cons x xs ih =>
    rw [List.length_cons] at hpos ⊢
    obtain ⟨r, s1, hcode, habides, hnext⟩ := step_keeps heard hl h (by omega) x
    rw [prefill, hcode, Option.bind_some]
    simp only
    split
    next hneg => exact ⟨r, s1, rfl, habides, fun hr => absurd hr (by omega)⟩
    next hr =>
      obtain ⟨r', s2, hcode', habides', hlast⟩ := ih r (hnext (by omega)) (by omega)
      exact ⟨r', s2, hcode', habides', fun hr' => by
        rw [show pos + (xs.length + 1) = pos + 1 + xs.length by omega]
        exact hlast hr'⟩

theorem generate_keeps (heard : Nat → Int → Int) (hl : Library env ws wl c lay ctx)
    {max_new prompt_count : Nat} (eos_token : Int) {n i : Nat} (next : Int) {generated : List Int}
    (hi : 0 < i) (hpos : prompt_count + i - 1 + n ≤ 128) (hlen : generated.length + n ≤ max_new)
    (h : AtToken lay c ctx (prompt_count + i - 1) s) :
    ∃ done generated' s', generate env ws wl heard max_new prompt_count eos_token n i next generated s =
        some (done, generated', s') ∧ Abides lay c ctx s' ∧ generated'.length ≤ max_new := by
  induction n generalizing i s next generated with
  | zero => exact ⟨true, generated, s, rfl, h.toAbides, by omega⟩
  | succ n ih =>
    rw [generate]
    split
    · exact ⟨true, generated, s, rfl, h.toAbides, by omega⟩
    · have hsum : sub64 (add64 prompt_count i) 1 = prompt_count + i - 1 := by
        unfold add64 sub64
        omega
      obtain ⟨r, s1, hcode, habides, hnext⟩ := step_keeps heard hl h (by omega) next
      rw [hsum, hcode, Option.bind_some]
      simp only
      split
      next => exact ⟨false, generated, s1, rfl, habides, by omega⟩
      next hr =>
        rw [record, if_pos (by omega), Option.bind_some]
        refine ih r (by omega) (by omega) (by rw [List.length_append, List.length_singleton]; omega) ?_
        rw [show prompt_count + (i + 1) - 1 = prompt_count + i - 1 + 1 by omega]
        exact hnext (by omega)

/-- Every call of `transformer_step` is at the end of the cache, which has room for it and
does not refuse it, and `generated` has at most `max_new` entries. -/
structure Orderly (max_new : Nat) (out : Finished) : Prop where
  calls : ∀ call ∈ out.calls, Kept call
  generated : out.generated.length ≤ max_new

/-- The loops return, keep the protocol, and leave the context to `cleanup` as they found it. -/
theorem infer_keeps (heard : Nat → Int → Int) (hl : Library env ws wl c lay ctx) (write_ok : Bool)
    {prompt : List Int} {max_new : Nat} (eos_token : Int) (hmax : 0 < max_new)
    (hlen : prompt.length + max_new ≤ 129) (h : AtToken lay c ctx 0 s) :
    ∃ out s', infer env ws wl heard write_ok prompt max_new eos_token s = some (out, s') ∧
      Unmoved lay c ctx s'.st ∧ Orderly max_new out := by
  obtain ⟨next, s1, hcode, habides, hnext⟩ := prefill_keeps heard hl prompt (-1) h (by omega)
  rw [infer, hcode, Option.bind_some]
  simp only
  split
  next => exact ⟨_, s1, rfl, habides.toUnmoved, habides.calls, Nat.zero_le _⟩
  next hr =>
    have hfirst : record max_new [] next = some [next] := if_pos hmax
    have hroom : [next].length + (max_new - 1) ≤ max_new := by
      rw [List.length_singleton]
      omega
    have hstart : AtToken lay c ctx (prompt.length + 1 - 1) s1 := by
      have hs1 := hnext (by omega)
      rwa [Nat.zero_add] at hs1
    obtain ⟨done, generated, s2, hgen, habides', hlen'⟩ := generate_keeps heard hl eos_token next
      Nat.one_pos (by omega) hroom hstart
    rw [hfirst, Option.bind_some, hgen]
    exact ⟨_, s2, rfl, habides'.toUnmoved, habides'.calls, hlen'⟩

/-! ## The library after the calls that set it up -/

variable (env) in
/-- After the calls that set the library up, the loops find what they need. -/
theorem library_of_init {files : WeightFile → Option FileData} {ctx ctx' : GpgpuCtx} {io : InitIo}
    (hprep : Prepared files ctx (some wl) (some c))
    (hinit : transformer_init env.dev env.host io ctx c transformer_default_config =
      some (some ws, ctx')) :
    ∃ lay, Library env ws wl c lay ctx' ∧ AtToken lay c ctx' 0 ⟨⟨ctx', c, 0⟩, []⟩ := by
  obtain ⟨T, pool, hheld⟩ := hprep.provided.held
  obtain ⟨pool', hh, -⟩ := init_housed hheld default_checked.toTyped hinit
  obtain ⟨a, b, d, hi⟩ := init_cases hinit
  have hfresh := hprep.fresh c rfl
  have hlayers : c.num_layers = transformer_default_config.num_layers := congrArg KvCache.num_layers hfresh
  exact ⟨hh.layout, ⟨rfl, hh.room, suited_of_housed hh hi.cfg_eq hfresh,
    fun s => (hh.workroom.work s).2, hi.cfg_eq, hlayers⟩,
    ⟨⟨rfl, fun _ _ => rfl, rfl⟩, by simp⟩, congrArg KvCache.filled hfresh,
    congrArg KvCache.pending hfresh⟩

end gpgpu.infer_tokens
