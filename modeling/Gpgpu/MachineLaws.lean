-- The laws of a step on the machine. Its lanes stay in the buffers that the arguments name, it
-- leaves the weights, the code, the rows of the tokens before it, the other allocations and the
-- lists of the allocator as they were, and a decode returns the tokens of the reference decoder.
import Gpgpu.StepMachine
import Gpgpu.RetryLaws

open memory words buffers cells

namespace gpgpu.desk

open buddy context core kernels device kv weights transformer reference

/-! ## What a step leaves as it was -/

/-- The bytes that a step may write: those of its own buffers and of the rows of its token. -/
def Writable (lay : Layout Buf) (c : KvCache) (pos y : Nat) : Prop :=
  (∃ b, Scratchy b ∧ lay.In b y) ∨ ∃ l < c.num_layers, ∃ h < c.num_kv_heads, c.InRows lay.base l h pos y

/-- Two memories with the same bytes but for those that a step may write. The weights, the code
and the rows of the tokens before it are among the others. -/
structure Spares (lay : Layout Buf) (c : KvCache) (pos : Nat) (m m' : Mem) : Prop where
  frame : ∀ y, ¬ Writable lay c pos y → m' y = m y
  weights : ∀ r, lay.Same (.region r) m m'
  code : ∀ k, lay.Same (.code k) m m'
  rows : ∀ l < c.num_layers, ∀ h < c.num_kv_heads, ∀ t < pos, ∀ y, c.InRows lay.base l h t y →
    m' y = m y

/-- The lists of the allocator, its free bytes and the allocations that are not for the step are
as they were. -/
structure SparesPool (T : Nat) (pool : Pool) (mine : Nat → Prop) (base : Nat) (m : Mem)
    (ctx : GpgpuCtx) : Prop where
  lists : Carries T ctx pool
  free : ∀ y, (∀ e ∈ pool.live, ¬ InSpan base e y) → ctx.buddy.mem y = m y
  others : ∀ e ∈ pool.live, ¬ mine e.1 → ∀ y, InSpan base e y → ctx.buddy.mem y = m y

section

variable {env : Env} {files : WeightFile → Option FileData} {dev : Device} {host : Libm} {io : InitIo}
  {ws : Workspace} {wl : WeightLoader} {c : KvCache} {ctx ctx' : GpgpuCtx} {lay : Layout Buf} {M : Model}
  {m0 : Mem} {fcvt : Int → Word} {ok : Nat → Bool} {st st' : Run} {tok T : Nat} {r : Int} {pool : Pool}

theorem Room.writable_in (hr : Room env.dev ws c lay m0) (hcache : CacheRoom lay c) {pos y : Nat}
    (hpos : pos < c.max_seq) (h : Writable lay c pos y) : ∃ b, Mine b ∧ lay.In b y := by
  rcases h with ⟨b, hb, hy⟩ | ⟨l, hl, h, hh, hy⟩
  · exact ⟨b, .inl hb, hy⟩
  · rcases hr.rows_in hcache hl hh hpos hy with hy | hy
    · exact ⟨.keys, .inr (.inl rfl), hy⟩
    · exact ⟨.vals, .inr (.inr rfl), hy⟩

theorem touches_writable {pos y : Nat} {o : Op} {fpu : Fpu} (hfits : Fits lay fpu c pos o)
    (hy : Touches lay fpu c pos o y) : Writable lay c pos y := by
  by_cases happend : ∀ layer, o ≠ .append layer
  · exact .inl (hfits.scratchy hy happend)
  · obtain ⟨layer, rfl⟩ := not_forall_not.mp happend
    obtain ⟨h, hh, hy⟩ := hy
    exact .inr ⟨layer, hfits.formed.1, h, hh, hy⟩

theorem Stage.frame (hs : Stage dev host ws wl c ctx lay M) (hb : Between dev ws wl c ctx st)
    (hst : Stepped ⟨dev, host, ok⟩ ws wl c lay ctx.buddy.mem tok st r st') :
    Spares lay c st.kv.filled st.ctx.buddy.mem st'.ctx.buddy.mem := by
  have hr : Room (⟨dev, host, ok⟩ : Env).dev ws c lay ctx.buddy.mem := hs.room
  have hpos : st.kv.filled < c.max_seq := hs.suited.max_seq ▸ hb.filled
  have hsame : ∀ b, ¬ Mine b → lay.Same b st.ctx.buddy.mem st'.ctx.buddy.mem := by
    intro b hne y hy
    exact hst.frame y fun o ho => hr.not_touches (hs.fits hb _ o ho) hne hy
  refine ⟨fun y hy => ?_, fun r => hsame _ ?_, fun k => hsame _ (not_mine_code k), ?_⟩
  · exact hst.frame y fun o ho htouch => hy (touches_writable (hs.fits hb _ o ho) htouch)
  · rintro (h | h | h)
    · exact h
    · cases h
    · cases h
  · intro l hl h hh t ht y hy
    exact hst.frame y fun o ho => hr.committed_untouched hs.cache (hs.fits hb _ o ho) hl hh ht hpos hy

/-- A buffer with an allocation of its own lies in the bytes of that allocation. -/
theorem Stage.in_span (hs : Stage dev host ws wl c ctx lay M) (hcar : Carries T ctx pool)
    (howns : Owns (bufOff ws wl c) (bufSize dev) allBufs pool) {b : Buf} {y : Nat} (hy : lay.In b y) :
    InSpan ctx.vram_mmap (bufOff ws wl c b, bufSize dev b) y := by
  have hle := hcar.good.le_span (howns.mem (mem_allBufs b))
  unfold Layout.In at hy
  rw [(hs.bufs b).1, (hs.bufs b).2, ← hs.mapped] at hy
  unfold InSpan
  simp only at hle ⊢
  omega

theorem Stage.frame_pool (hs : Stage dev host ws wl c ctx lay M) (hb : Between dev ws wl c ctx st)
    (hst : Stepped ⟨dev, host, ok⟩ ws wl c lay ctx.buddy.mem tok st r st') (hcar : Carries T ctx pool)
    (howns : Owns (bufOff ws wl c) (bufSize dev) allBufs pool) :
    SparesPool T pool (fun x => ∃ b, Mine b ∧ x = bufOff ws wl c b) ctx.vram_mmap st.ctx.buddy.mem
      st'.ctx := by
  have hr : Room (⟨dev, host, ok⟩ : Env).dev ws c lay ctx.buddy.mem := hs.room
  have hpos : st.kv.filled < c.max_seq := hs.suited.max_seq ▸ hb.filled
  have hframe := (hs.frame hb hst).frame
  have hfree : ∀ y, (∀ e ∈ pool.live, ¬ InSpan ctx.vram_mmap e y) →
      st'.ctx.buddy.mem y = st.ctx.buddy.mem y := by
    intro y hy
    refine hframe y fun hwrite => ?_
    obtain ⟨b, -, hin⟩ := hr.writable_in hs.cache hpos hwrite
    exact hy _ (howns.mem (mem_allBufs b)) (hs.in_span hcar howns hin)
  refine ⟨?_, hfree, fun e he hmine y hy => hframe y fun hwrite => ?_⟩
  · obtain ⟨m, hm⟩ := hst.ctx
    have hctx : st'.ctx = ctx.setMem st'.ctx.buddy.mem := by
      rw [hm, hb.context]
      rfl
    rw [hctx]
    refine hcar.setMem fun y hy => ?_
    rw [← hcar.mapped] at hy
    rw [hfree y hy]
    refine hb.mem y fun b _ hin => hy _ (howns.mem (mem_allBufs b)) (hs.in_span hcar howns ?_)
    unfold Layout.In
    rw [(hs.bufs b).1, (hs.bufs b).2, ← hs.mapped]
    exact hin
  · obtain ⟨b, hb', hin⟩ := hr.writable_in hs.cache hpos hwrite
    have hspan := hs.in_span hcar howns hin
    have hne : e ≠ (bufOff ws wl c b, bufSize dev b) := fun heq => hmine ⟨b, hb', congrArg Prod.fst heq⟩
    have happ := hcar.good.apart he (howns.mem (mem_allBufs b)) hne
    unfold InSpan at hy hspan
    simp only at happ hspan
    omega

/-- Every launch of a step reads in its arguments and in the buffers that they name, and writes
in the buffers of the step; all addresses fit in their 32 bits. So the step leaves the weights, the
code, the rows of earlier tokens, the other allocations and the lists of the allocator alone. -/
theorem a_step_stays_in_its_buffers (hprep : Prepared files ctx (some wl) (some c))
    (hinit : transformer_init dev host io ctx c transformer_default_config = some (some ws, ctx'))
    (hb : Between dev ws wl c ctx' st) (htok : tok < transformer_default_config.vocab_size)
    (ok : Nat → Bool) (fcvt : Int → Word) :
    ∃ lay : Layout Buf, lay.base = ctx'.vram_mmap ∧ lay.top ≤ 2 ^ 32 ∧
      (∀ b, lay.off b = bufOff ws wl c b ∧ lay.size b = bufSize dev b) ∧
      (∃ T pool, Carries T ctx' pool ∧ Owns (bufOff ws wl c) (bufSize dev) allBufs pool) ∧
      (∃ r ts, Steps ⟨dev, host, ok⟩ fcvt ws wl tok st.kv.filled st r ts) ∧
      ∀ r ts, Steps ⟨dev, host, ok⟩ fcvt ws wl tok st.kv.filled st r ts →
        transformer_step ⟨dev, host, ok⟩ ws wl tok st.kv.filled st = some r ∧
        (∀ t ∈ ts, Bounded lay t) ∧
        Spares lay c st.kv.filled st.ctx.buddy.mem r.2.ctx.buddy.mem ∧
        ∀ T pool, Carries T ctx' pool → Owns (bufOff ws wl c) (bufSize dev) allBufs pool →
          SparesPool T pool (fun x => ∃ b, Mine b ∧ x = bufOff ws wl c b) ctx'.vram_mmap
            st.ctx.buddy.mem r.2.ctx := by
  obtain ⟨lay, hs⟩ := stage_of_init hprep hinit
  have hr : Room (⟨dev, host, ok⟩ : Env).dev ws c lay ctx'.buddy.mem := hs.room
  obtain ⟨T, pool, hheld⟩ := hprep.provided.held
  obtain ⟨pool', hh, -⟩ := init_housed hheld default_checked.toTyped hinit
  have howns : Owns (bufOff ws wl c) (bufSize dev) allBufs pool' := by
    rw [← bufBytes_default (hprep.fresh c rfl), ← hs.loaded.cfg]
    exact hh.owns
  obtain ⟨hex, hall⟩ := hs.steps_spec (hs.sound hb) (hs.opens hb) htok
  refine ⟨lay, hs.mapped.symm, hs.room.small, hs.bufs, ⟨T, pool', hh.carries, howns⟩, hex,
    fun r ts hsteps => ?_⟩
  obtain ⟨hcode, hbounded⟩ := hall r ts hsteps
  obtain ⟨r', st', hst⟩ := hr.step_spec hs.suited (hs.sound hb) (hs.opens hb) tok
  have hsame := hst.code
  rw [hcode] at hsame
  cases hsame
  exact ⟨hcode, hbounded, hs.frame hb hst, fun T pool hcar howns => hs.frame_pool hb hst hcar howns⟩

/-- A first step for token 7, on a device with 4 GiB. -/
theorem a_first_step_stays_in_its_buffers : ∃ ctx wl c ws ctx',
    setup (2 ^ 32) = some (ctx, wl, c, ws, ctx') ∧ ∃ lay r ts,
      Steps ⟨wordDevice, wordHost, fun _ => true⟩ (fun _ => 0) ws wl (7 : Nat) c.filled ⟨ctx', c, 0⟩ r ts ∧
      (∀ t ∈ ts, Bounded lay t) ∧ Spares lay c c.filled ctx'.buddy.mem r.2.ctx.buddy.mem := by
  obtain ⟨⟨ctx, wl, c, ws, ctx'⟩, h⟩ := Option.isSome_iff_exists.mp setup_goes_well
  obtain ⟨hprep, hinit⟩ := setup_spec ⟨by decide, by decide⟩ h
  have hb : Between wordDevice ws wl c ctx' ⟨ctx', c, 0⟩ := between_fresh ctx' (hprep.fresh c rfl)
  obtain ⟨lay, -, -, -, -, ⟨r, ts, hstep⟩, hall⟩ := a_step_stays_in_its_buffers hprep hinit hb
    (show 7 < transformer_default_config.vocab_size by decide) (fun _ => true) fun _ => 0
  obtain ⟨-, hbounded, hspares, -⟩ := hall r ts hstep
  exact ⟨ctx, wl, c, ws, ctx', h, lay, r, ts, hstep, hbounded, hspares⟩

/-! ## What a decode returns -/

/-- With all kernels on the machine a decode ends, and whatever the registers and the orders of
the blocks were, its tokens are those of the reference decoder. -/
theorem the_machine_returns_the_reference_tokens (hprep : Prepared files ctx (some wl) (some c))
    (hinit : transformer_init dev host io ctx c transformer_default_config = some (some ws, ctx'))
    {m : Mem} (hm : AgreesBeside dev ws wl c ctx' m) (toks : List Nat) (hlen : toks.length ≤ 128)
    (hids : ∀ x ∈ toks, x < transformer_default_config.vocab_size) (fcvt : Int → Word) :
    (∃ r, Decodes ⟨dev, host, fun _ => true⟩ fcvt ws wl 0 toks ⟨ctx'.setMem m, c, 0⟩ r) ∧
      ∀ r, Decodes ⟨dev, host, fun _ => true⟩ fcvt ws wl 0 toks ⟨ctx'.setMem m, c, 0⟩ r →
        r.1 = (List.range toks.length).map fun i => ((reference_token dev.fpu
          transformer_default_config (modelOf host files) (toks.take (i + 1))).toNat : Int) := by
  obtain ⟨lay, hs, hat, hafter⟩ := stage_begins hprep hinit hm
  have hlen' : ([] : List Nat).length + toks.length ≤ 128 := by simpa using hlen
  obtain ⟨hex, hall⟩ := hs.decodes_spec toks [] _ _ hlen' hids hat hafter
  obtain ⟨st, htokens⟩ := hs.loaded.decode_spec toks [] _ _ hlen' hids hat hafter
  refine ⟨hex, fun r hr => ?_⟩
  have hdecode := hall r hr
  rw [htokens] at hdecode
  exact (congrArg Prod.fst (Option.some.inj hdecode)).symm

end

/-- Two tokens on the machine, on a device with 4 GiB. -/
theorem two_tokens_on_the_machine : ∃ ctx wl c ws ctx', setup (2 ^ 32) = some (ctx, wl, c, ws, ctx') ∧
    ∃ st, Decodes ⟨wordDevice, wordHost, fun _ => true⟩ (fun _ => 0) ws wl 0 [3, 5] ⟨ctx', c, 0⟩
      ([((reference_token wordDevice.fpu transformer_default_config (modelOf wordHost zeroFiles)
          [3]).toNat : Int),
        ((reference_token wordDevice.fpu transformer_default_config (modelOf wordHost zeroFiles)
          [3, 5]).toNat : Int)], st) := by
  obtain ⟨⟨ctx, wl, c, ws, ctx'⟩, h⟩ := Option.isSome_iff_exists.mp setup_goes_well
  obtain ⟨hprep, hinit⟩ := setup_spec ⟨by decide, by decide⟩ h
  obtain ⟨⟨⟨rs, st⟩, hrun⟩, hall⟩ := the_machine_returns_the_reference_tokens hprep hinit
    (fun _ _ => rfl) [3, 5] (by decide) (by decide) fun _ => 0
  have hrs := hall _ hrun
  simp only at hrs
  subst hrs
  exact ⟨ctx, wl, c, ws, ctx', h, st, hrun⟩

end gpgpu.desk
