-- A decode step with its kernels on the machine. The host does what `transformer_step` does, and
-- each launch is a run of the warps of its kernel. Every such run leaves the memory that the model
-- of a step says, and its lanes stay in the buffers that the arguments name.
import Gpgpu.StepHomes

open memory words buffers cells

namespace gpgpu.desk

open buddy context core kernels device kv weights transformer reference

/-! ## A step on the machine -/

/-- A launch that the machine has made, with the accesses of its lanes. The arguments are the
numbers that the host has before it cuts them to the fields. -/
structure Trail where
  k : Kernel
  args : List Nat
  grid : Nat
  logs : List (List (Access Word))

section

variable (env : Env) (fcvt : Int → Word) (ws : Workspace)

/-- An operation. A launch copies its arguments as `launch_op` does and goes to the machine. -/
def Makes (pos : Nat) (o : Op) (st : Run) (r : Int × Run) (ts : List Trail) : Prop :=
  match o with
  | .launch k args grid =>
    let words := args.map UInt32.ofNat
    let copied := gpuMemcpy st.ctx (ws.args k) (bytesOf words) (4 * words.length) GPU_MEMCPY_H2D
    if copied.1 < 0 then r = Prod.mk TRANSFORMER_ERR_IO { st with ctx := copied.2.1 } ∧ ts = []
    else ∃ rc ctx logs, Launches env.dev fcvt copied.2.1 (ws.kbin k) (ws.args k) grid
      (env.ok st.calls) (rc, ctx) logs ∧
      r = (if rc < 0 then TRANSFORMER_ERR_LAUNCH else TRANSFORMER_OK,
        { st with ctx, calls := st.calls + 1 }) ∧ ts = [⟨k, args, grid, logs⟩]
  | o => o.act env ws pos st = some r ∧ ts = []

/-- The operations one by one. The first error code ends them. -/
inductive MakesAll (pos : Nat) : List Op → Run → Int × Run → List Trail → Prop
  | nil (st : Run) : MakesAll pos [] st (TRANSFORMER_OK, st) []
  | stop {o : Op} {ops : List Op} {st st' : Run} {rc : Int} {ts : List Trail} :
      Makes env fcvt ws pos o st (rc, st') ts → rc ≠ TRANSFORMER_OK →
      MakesAll pos (o :: ops) st (rc, st') ts
  | next {o : Op} {ops : List Op} {st st' : Run} {r : Int × Run} {ts ts' : List Trail} :
      Makes env fcvt ws pos o st (TRANSFORMER_OK, st') ts → MakesAll pos ops st' r ts' →
      MakesAll pos (o :: ops) st r (ts ++ ts')

/-- The end of `transformer_step`: the host reads the token. -/
def read_token (r : Int × Run) : Int × Run :=
  if r.1 ≠ TRANSFORMER_OK then r
  else
    let out := gpuMemcpy r.2.ctx (ws.off .token_id_buf) (fun _ => 0) 4 GPU_MEMCPY_D2H
    if out.1 < 0 then Prod.mk TRANSFORMER_ERR_IO r.2 else ((word out.2.2 0).toBitVec.toInt, r.2)

/-- `transformer_step` with the machine. -/
def Steps (wl : WeightLoader) (input_token_id cur_pos : Int) (st : Run) (r : Int × Run)
    (ts : List Trail) : Prop :=
  let tok := UInt32.ofInt input_token_id
  let pos := (UInt32.ofInt cur_pos).toNat
  ∃ out, MakesAll env fcvt ws pos (step_ops env.host ws wl st.kv tok pos) st out ts ∧
    r = read_token ws out

/-- The calls of `transformer_step` for a list of tokens, with the machine. -/
inductive Decodes (wl : WeightLoader) : Nat → List Nat → Run → List Int × Run → Prop
  | nil (pos : Nat) (st : Run) : Decodes wl pos [] st ([], st)
  | cons {pos x : Nat} {xs : List Nat} {st st1 st2 : Run} {r : Int} {rs : List Int}
      {ts : List Trail} : Steps env fcvt ws wl x pos st (r, st1) ts →
      Decodes wl (pos + 1) xs st1 (rs, st2) → Decodes wl pos (x :: xs) st (r :: rs, st2)

end

/-! ## What the lanes do -/

/-- The word at the address `a` of the device lies in buffer `b`. -/
def WordIn (lay : Layout Buf) (b : Buf) (a : Nat) : Prop := InBuf (lay.off b) (lay.size b) a

/-- A launch within bounds. Its arguments fit in 32 bits; its lanes read in the arguments and in
the buffers that the addresses among them name, and write in the buffers for the results. -/
def Bounded (lay : Layout Buf) (t : Trail) : Prop :=
  (∀ x ∈ t.args, x < 2 ^ 32) ∧ ∀ log ∈ t.logs,
    Within (fun a => WordIn lay (.args t.k) a ∨ ∃ b, Names lay t.k t.args b ∧ WordIn lay b a)
      (fun a => ∃ b, Target lay t.k t.args b ∧ WordIn lay b a) log

section

variable {env : Env} {fcvt : Int → Word} {ws : Workspace} {wl : WeightLoader} {c : KvCache}
  {lay : Layout Buf} {m0 : Mem} {st : Run} {pos : Nat} {o : Op} {ops : List Op} {k : Kernel}
  {args : List Nat} {grid : Nat} {rd : Nat → Word}

theorem wordIn_of_span {b : Buf} {p : Nat × Nat} {a : Nat} (h : SpanIn lay b p) (ha : InBuf p.1 p.2 a) :
    WordIn lay b a := by
  unfold SpanIn at h
  unfold InBuf at ha
  exact ⟨by omega, by omega⟩

/-- Accesses in the spans of a launch are accesses in its buffers. -/
theorem Homed.bounded (hr : Room env.dev ws c lay m0) (h : Homed lay k args grid rd)
    (hargs : ∀ x ∈ args, x < 2 ^ 32) {logs : List (List (Access Word))}
    (hkept : Kept k (ws.args k) grid (args.getD · 0) rd logs) : Bounded lay ⟨k, args, grid, logs⟩ := by
  refine ⟨hargs, fun log hlog => (hkept log hlog).mono ?_ ?_⟩
  · rintro a ⟨p, hp, ha⟩
    rw [List.mem_cons, List.mem_append] at hp
    rcases hp with rfl | hp | hp
    · obtain ⟨hoff, hsize⟩ := hr.args k
      have harity := arity_le k
      exact .inl (wordIn_of_span ⟨Nat.le_of_eq hoff, by dsimp only; omega⟩ ha)
    · obtain ⟨b, hb, hspan⟩ := h.own p hp
      exact .inr ⟨b, hb, wordIn_of_span hspan ha⟩
    · obtain ⟨b, hb, hspan⟩ := h.shared p hp
      exact .inr ⟨b, hb, wordIn_of_span hspan ha⟩
  · rintro a ⟨p, hp, ha⟩
    obtain ⟨b, hb, -, hspan⟩ := h.results p hp
    exact ⟨b, hb, wordIn_of_span hspan ha⟩

/-! ## One operation -/

/-- The machine can make the operation, and whatever way it takes, the model says what it leaves
and its launch is within bounds. -/
def Tracked (env : Env) (fcvt : Int → Word) (ws : Workspace) (lay : Layout Buf) (pos : Nat) (o : Op)
    (st : Run) : Prop :=
  (∃ r ts, Makes env fcvt ws pos o st r ts) ∧ ∀ r ts, Makes env fcvt ws pos o st r ts →
    o.act env ws pos st = some r ∧ ∀ t ∈ ts, Bounded lay t

theorem Room.launch_tracked (hr : Room env.dev ws c lay m0) (h : Sound lay m0 c st)
    (hlen : args.length = arity k) (hargs : ∀ x ∈ args, x < 2 ^ 32)
    (hhome : Homed lay k args grid (rd32 lay.base (withArgs lay k args st.ctx.buddy.mem))) :
    Tracked env fcvt ws lay pos (.launch k args grid) st := by
  have hcopy := hr.args_copied h k args
  have hcode := hr.code_found h hlen
  have hfound := hr.args_found hlen hargs st.ctx.buddy.mem
  have hfit := hhome.fit hr
  set ctx := st.ctx.setMem (withArgs lay k args st.ctx.buddy.mem) with hctx
  have hmap : ctx.vram_mmap = lay.base := h.mapped
  have hmem : ctx.buddy.mem = withArgs lay k args st.ctx.buddy.mem := rfl
  rw [← hmap, ← hmem] at hcode hfound hfit
  obtain ⟨⟨⟨rc, ctx'⟩, logs, hex⟩, hall⟩ := @launches_spec _ fcvt _ _ _ _ _ _ hcode hfound hfit
    (env.ok st.calls)
  have hact : ∀ r, gpuLaunchKernel env.dev ctx (ws.kbin k) (ws.args k) grid (env.ok st.calls) = some r →
      op env ws k args grid st = some (if r.1 < 0 then TRANSFORMER_ERR_LAUNCH else TRANSFORMER_OK,
        { st with ctx := r.2, calls := st.calls + 1 }) := by
    intro r hlaunch
    unfold op launch_op
    simp only [hcopy, hlaunch, Option.map_some]
    rfl
  unfold Tracked Makes
  simp only [hcopy, lt_self_iff_false, if_false]
  refine ⟨⟨_, _, rc, ctx', logs, hex, rfl, rfl⟩, ?_⟩
  rintro r ts ⟨rc, ctx', logs, hrun, rfl, rfl⟩
  obtain ⟨hlaunch, hkept⟩ := hall _ _ hrun
  rw [hmap] at hkept
  refine ⟨hact _ hlaunch, fun t ht => ?_⟩
  rw [List.mem_singleton.mp ht]
  exact hhome.bounded hr hargs hkept

/-- An operation that launches nothing. -/
theorem tracked_host (hact : ∃ r, o.act env ws pos st = some r)
    (hhost : ∀ k args grid, o ≠ .launch k args grid) : Tracked env fcvt ws lay pos o st := by
  obtain ⟨r, hr⟩ := hact
  have hmakes : ∀ r ts, Makes env fcvt ws pos o st r ts ↔ o.act env ws pos st = some r ∧ ts = [] := by
    intro r ts
    cases o with
    | launch k args grid => exact absurd rfl (hhost k args grid)
    | token => rfl
    | append => rfl
    | commit => rfl
  refine ⟨⟨r, [], (hmakes r []).mpr ⟨hr, rfl⟩⟩, fun r' ts h => ?_⟩
  obtain ⟨hr', rfl⟩ := (hmakes r' ts).mp h
  exact ⟨hr', fun t ht => absurd ht List.not_mem_nil⟩

theorem Room.tracked (hr : Room env.dev ws c lay m0) (h : Sound lay m0 c st)
    (hfits : Fits lay env.dev.fpu c pos o) (hready : o.Ready pos st.kv) (hhome : HomedOp lay o) :
    Tracked env fcvt ws lay pos o st := by
  obtain ⟨m, hact, -⟩ := hr.act_spec h hfits.formed hready
  cases o with
  | launch k args grid => exact hr.launch_tracked h hfits.formed.1 hfits.formed.2 (hhome _)
  | token => exact tracked_host ⟨_, hact⟩ (by simp)
  | append => exact tracked_host ⟨_, hact⟩ (by simp)
  | commit => exact tracked_host ⟨_, hact⟩ (by simp)

/-! ## All operations -/

/-- The machine can make the operations, and the model says what they leave. -/
def Tracks (env : Env) (fcvt : Int → Word) (ws : Workspace) (lay : Layout Buf) (pos : Nat)
    (ops : List Op) (st : Run) : Prop :=
  (∃ r ts, MakesAll env fcvt ws pos ops st r ts) ∧ ∀ r ts, MakesAll env fcvt ws pos ops st r ts →
    run_ops env ws pos ops st = some r ∧ ∀ t ∈ ts, Bounded lay t

theorem tracks_nil : Tracks env fcvt ws lay pos [] st := by
  refine ⟨⟨_, _, .nil st⟩, fun r ts h => ?_⟩
  cases h
  exact ⟨rfl, fun t ht => absurd ht List.not_mem_nil⟩

theorem tracks_cons (hone : Tracked env fcvt ws lay pos o st)
    (hrest : ∀ st', o.act env ws pos st = some (TRANSFORMER_OK, st') →
      Tracks env fcvt ws lay pos ops st') : Tracks env fcvt ws lay pos (o :: ops) st := by
  have hrun : ∀ rc st', o.act env ws pos st = some (rc, st') → run_ops env ws pos (o :: ops) st =
      if rc ≠ TRANSFORMER_OK then some (rc, st') else run_ops env ws pos ops st' := by
    intro rc st' hact
    rw [run_ops, List.map_cons, seq, hact]
    rfl
  obtain ⟨⟨⟨rc, st'⟩, ts, hex⟩, hall⟩ := hone
  constructor
  · by_cases hrc : rc = TRANSFORMER_OK
    · subst hrc
      obtain ⟨⟨r, ts', hnext⟩, -⟩ := hrest st' (hall _ _ hex).1
      exact ⟨r, _, .next hex hnext⟩
    · exact ⟨_, _, .stop hex hrc⟩
  · intro r ts h
    cases h with
    | stop hmade hrc =>
      obtain ⟨hact, hbounded⟩ := hall _ _ hmade
      refine ⟨?_, hbounded⟩
      rw [hrun _ _ hact, if_pos hrc]
    | next hmade hmore =>
      obtain ⟨hact, hbounded⟩ := hall _ _ hmade
      obtain ⟨hres, hbounded'⟩ := (hrest _ hact).2 _ _ hmore
      refine ⟨?_, fun t ht => (List.mem_append.mp ht).elim (hbounded t) (hbounded' t)⟩
      rw [hrun _ _ hact, if_neg (not_not.mpr rfl)]
      exact hres

/-- After an operation that went well the next one finds the library as it was. -/
theorem Room.act_next (hr : Room env.dev ws c lay m0) (h : Sound lay m0 c st)
    (hfits : Fits lay env.dev.fpu c pos o) (hready : o.Ready pos st.kv) {st' : Run}
    (hact : o.act env ws pos st = some (TRANSFORMER_OK, st')) :
    Sound lay m0 c st' ∧ st'.kv = o.count st.kv := by
  obtain ⟨m, hcode, hm⟩ := hr.act_spec h hfits.formed hready
  rw [hact, leaves] at hcode
  split at hcode
  · cases hcode
    exact ⟨h.after (hr.clean hfits) hm _, rfl⟩
  · exact absurd (congrArg Prod.fst (Option.some.inj hcode)).symm o.error_ne

theorem Room.tracks (hr : Room env.dev ws c lay m0) (h : Sound lay m0 c st)
    (hfits : ∀ o ∈ ops, Fits lay env.dev.fpu c pos o) (hready : ReadyAll pos st.kv ops)
    (hhome : ∀ o ∈ ops, HomedOp lay o) : Tracks env fcvt ws lay pos ops st := by
  induction ops generalizing st with
  | nil => exact tracks_nil
  | cons o ops ih =>
    have hfit := hfits o List.mem_cons_self
    refine tracks_cons (hr.tracked h hfit hready.1 (hhome o List.mem_cons_self)) fun st' hact => ?_
    obtain ⟨hsound, hkv⟩ := hr.act_next h hfit hready.1 hact
    exact ih hsound (fun o' ho' => hfits o' (List.mem_cons_of_mem _ ho')) (hkv ▸ hready.2)
      (fun o' ho' => hhome o' (List.mem_cons_of_mem _ ho'))

/-! ## A whole step -/

theorem step_eq_read (env : Env) (ws : Workspace) (wl : WeightLoader) (tok cur_pos : Int) (st : Run) :
    transformer_step env ws wl tok cur_pos st =
      (seq (step_actions env ws wl (UInt32.ofInt tok) (UInt32.ofInt cur_pos).toNat) st).map
        (read_token ws) := by
  unfold transformer_step
  simp only
  cases seq (step_actions env ws wl (UInt32.ofInt tok) (UInt32.ofInt cur_pos).toNat) st with
  | none => rfl
  | some r =>
    simp only [Option.bind_some, Option.map_some, read_token]
    split
    · rfl
    · split <;> rfl

/-- The token is where the embedding looks for it. -/
theorem Room.token_found (hr : Room env.dev ws c lay m0) (h : Sound lay m0 c st) {w : Word} {st' : Run}
    (hact : write_token ws w st = some (TRANSFORMER_OK, st')) (hlen : args.length = arity k) :
    rd32 lay.base (withArgs lay k args st'.ctx.buddy.mem) (ws.off .token_id_buf) = w := by
  have hoff := hr.work .token_id_buf
  have hsize : 4 ≤ lay.size (.work .token_id_buf) :=
    hr.bytes (.token_id_buf, 4) (by simp [scratch_sizes])
  have hfits := lay.fits (.work .token_id_buf)
  have hend := hr.ends
  have hlow := hr.low (.work .token_id_buf)
  unfold write_token at hact
  rw [show GPU_MEMCPY_H2D = 0 from rfl, gpuMemcpy_H2D (by rw [h.mapped]; omega), h.mapped] at hact
  cases hact
  have hsame := (hr.withArgs_changes hlen (put st.ctx.buddy.mem (lay.base + ws.off .token_id_buf)
    [w])).same (b := .work .token_id_buf) (by simp)
  unfold rd32
  rw [Nat.mod_eq_of_lt (by omega)]
  have hword : word (put st.ctx.buddy.mem (lay.base + ws.off .token_id_buf) [w])
      (lay.base + ws.off .token_id_buf + 4 * 0) = w := word_put Nat.one_pos
  rw [Nat.mul_zero, Nat.add_zero] at hword
  rw [← hword]
  apply word_congr
  intro i hi
  rw [hword]
  exact hsame _ ⟨by omega, by omega⟩

variable {dev : Device} {host : Libm} {ctx : GpgpuCtx} {M : Model} {ok : Nat → Bool} {tok : Nat}

/-- The operations of a step for a token of the vocabulary. -/
theorem Stage.step_tracks (hs : Stage dev host ws wl c ctx lay M) (h : Sound lay ctx.buddy.mem c st)
    (hopen : Open ws.cfg st.kv) (htok : tok < 151936) :
    Tracks ⟨dev, host, ok⟩ fcvt ws lay st.kv.filled
      (step_ops host ws wl c (UInt32.ofInt tok) st.kv.filled) st := by
  have hr : Room (⟨dev, host, ok⟩ : Env).dev ws c lay ctx.buddy.mem := hs.room
  have hlt : st.kv.filled < 128 := by
    have hmax : st.kv.max_seq = 128 := h.place.max_seq.trans hs.suited.max_seq
    exact hmax ▸ hopen.1
  have hfits : ∀ o ∈ step_ops host ws wl c (UInt32.ofInt tok) st.kv.filled,
      Fits lay dev.fpu c st.kv.filled o :=
    hr.step_fits hs.suited hlt _
  have hready : ReadyAll st.kv.filled st.kv (step_ops host ws wl c (UInt32.ofInt tok) st.kv.filled) :=
    (ready_step rfl hopen.1 hopen.2).1
  rw [show step_ops host ws wl c (UInt32.ofInt tok) st.kv.filled = .token (UInt32.ofInt tok) ::
    .launch .embedding_lookup [weight_loader_embedding wl, ws.off .token_id_buf, ws.off .RESID_A,
      ws.cfg.D, ws.cfg.D / 32] 1 :: later_ops host ws wl c st.kv.filled by
    simp only [step_ops, first_ops, later_ops, List.cons_append, List.nil_append]] at hfits hready ⊢
  simp only [List.forall_mem_cons] at hfits
  obtain ⟨hfit1, hfit2, hfits⟩ := hfits
  obtain ⟨hready1, hready2, hready⟩ := hready
  refine tracks_cons (hr.tracked h hfit1 hready1 trivial) fun st1 hact1 => ?_
  obtain ⟨h1, hkv1⟩ := hr.act_next h hfit1 hready1 hact1
  have htoken := hr.token_found h hact1 hfit2.formed.1
  have hword : (UInt32.ofInt (tok : Int)).toNat = tok := by
    rw [word_of_int (by omega), UInt32.toNat_ofNat_of_lt' (by simp only [UInt32.size]; omega)]
  -- The row of the embedding is one of the table because of the token.
  refine tracks_cons (hr.launch_tracked h1 hfit2.formed.1 hfit2.formed.2 (hs.embedding_homed ?_))
    fun st2 hact2 => ?_
  · rw [htoken, hword]
    exact htok
  obtain ⟨h2, hkv2⟩ := hr.act_next h1 hfit2 (hkv1 ▸ hready2) hact2
  exact hr.tracks h2 hfits (by rw [hkv2, hkv1]; exact hready) (hs.later_homed hlt)

/-- The machine can make a step, and whatever way it takes, it is the step of the model. -/
theorem Stage.steps_spec (hs : Stage dev host ws wl c ctx lay M) (h : Sound lay ctx.buddy.mem c st)
    (hopen : Open ws.cfg st.kv) (htok : tok < 151936) :
    (∃ r ts, Steps ⟨dev, host, ok⟩ fcvt ws wl tok st.kv.filled st r ts) ∧
      ∀ r ts, Steps ⟨dev, host, ok⟩ fcvt ws wl tok st.kv.filled st r ts →
        transformer_step ⟨dev, host, ok⟩ ws wl tok st.kv.filled st = some r ∧ ∀ t ∈ ts, Bounded lay t := by
  have hlt : st.kv.filled < 128 := by
    have hmax : st.kv.max_seq = 128 := h.place.max_seq.trans hs.suited.max_seq
    exact hmax ▸ hopen.1
  have hpos : (UInt32.ofInt (st.kv.filled : Int)).toNat = st.kv.filled := by
    rw [word_of_int (by omega), UInt32.toNat_ofNat_of_lt' (by simp only [UInt32.size]; omega)]
  obtain ⟨⟨out, ts, hex⟩, hall⟩ := (hs.step_tracks h hopen htok :
    Tracks ⟨dev, host, ok⟩ fcvt ws lay st.kv.filled _ st)
  unfold Steps
  simp only [hpos, step_ops_place h.place]
  refine ⟨⟨_, ts, out, hex, rfl⟩, ?_⟩
  rintro r ts ⟨out, hmade, rfl⟩
  obtain ⟨hrun, hbounded⟩ := hall _ _ hmade
  refine ⟨?_, hbounded⟩
  rw [step_eq_read, hpos, step_eq hs.suited.layers hs.suited.cache_layers hs.suited.sized h.place, hrun]
  rfl

/-! ## All steps of a decode -/

theorem At.sound (hs : Stage dev host ws wl c ctx lay M) {d : Desk} (h : At lay ctx.buddy.mem st d) :
    Sound lay ctx.buddy.mem c st := by
  refine ⟨h.mapped, h.shows.code, ?_⟩
  unfold SamePlace
  rw [h.kv, hs.room.keys, hs.room.vals, hs.fresh]
  rfl

theorem At.opens (hs : Stage dev host ws wl c ctx lay M) {d : Desk} (h : At lay ctx.buddy.mem st d)
    (hfilled : d.filled < 128) (hpending : d.pending = 0) : Open ws.cfg st.kv := by
  rw [hs.loaded.cfg, h.kv]
  exact ⟨hfilled, .inl ⟨by decide, hpending, rfl⟩⟩

/-- The calls for a list of tokens on the machine return what the model returns. -/
theorem Stage.decodes_spec (hs : Stage dev host ws wl c ctx lay M) : ∀ (more toks : List Nat) (st : Run)
    (d : Desk), toks.length + more.length ≤ 128 → (∀ x ∈ more, x < 151936) →
    At lay ctx.buddy.mem st d → d.After dev.fpu M toks →
    (∃ r, Decodes ⟨dev, host, fun _ => true⟩ fcvt ws wl toks.length more st r) ∧
      ∀ r, Decodes ⟨dev, host, fun _ => true⟩ fcvt ws wl toks.length more st r →
        decode ⟨dev, host, fun _ => true⟩ ws wl toks.length more st = some r := by
  intro more
  induction more with
  | nil =>
    intro toks st d _ _ _ _
    refine ⟨⟨_, .nil _ st⟩, fun r h => ?_⟩
    cases h
    rfl
  | cons x xs ih =>
    intro toks st d hlen hall h hd
    simp only [List.length_cons] at hlen
    have hfilled : st.kv.filled = toks.length := by rw [h.kv, ← hd.filled]
    have hx := hall x List.mem_cons_self
    obtain ⟨st1, d1, hcode, h1, hd1⟩ := hs.loaded.step_spec (by omega) hx h hd
    have hopen := h.opens hs (by rw [hd.filled]; omega) hd.pending
    have hstep := @Stage.steps_spec fcvt _ _ _ _ _ _ _ _ _ (fun _ => true) _ hs (h.sound hs) hopen hx
    rw [hfilled] at hstep
    obtain ⟨⟨r, ts, hex⟩, hevery⟩ := hstep
    have hnext := ih (toks ++ [x]) st1 d1 (by simp; omega)
      (fun y hy => hall y (List.mem_cons_of_mem _ hy)) h1 hd1
    rw [List.length_append, List.length_singleton] at hnext
    obtain ⟨⟨⟨rs, st2⟩, hmore⟩, hrest⟩ := hnext
    constructor
    · have hr := (hevery r ts hex).1
      rw [hcode] at hr
      cases hr
      exact ⟨_, .cons hex hmore⟩
    · intro r h'
      cases h' with
      | cons hmade hmore' =>
        have hr := (hevery _ _ hmade).1
        rw [hcode] at hr
        cases hr
        have hdecode := hrest _ hmore'
        rw [decode, hcode]
        simp only [Option.bind_eq_bind, Option.bind_some, hdecode]
        rfl

end

end gpgpu.desk
