-- A decoder layer and a whole step, as changes of the desk. What a layer leaves is what
-- the reference decoder computes from the keys and values of the desk.
import Gpgpu.DeskAttention

open memory words buffers

namespace gpgpu.desk

open buddy context kernels device kv weights transformer reference

variable {env : Env} {ws : Workspace} {wl : WeightLoader} {lay : Layout Buf} {M : Model} {m0 : Mem}
  {d d' : Desk} {l : Nat} {x : List Word}

/-! ## One layer -/

/-- A vector that is in a buffer. -/
theorem Loaded.finds (hl : Loaded env ws wl lay M m0) {s : Scratch} {n : Nat} {v : List Word}
    (hplain : Plain s) (hn : n = workBytes s / 4) (hv : d.vec s = v) :
    Finds lay m0 d (ws.off s) n v := by
  rw [← hv]
  exact hl.finds_work hplain hn

/-- An operation that reads a tensor of a layer. -/
theorem Loaded.does_tensor (hl : Loaded env ws wl lay M m0) {f : Nat → Action} (hlayer : l < 24)
    (t : Tensor) (hf : ∀ w, Finds lay m0 d w (TENSOR_TABLE t).n_floats (M.tensor l t) →
      Does lay m0 (f w) d d') : Does lay m0 (with_tensor wl l t f) d d' := by
  obtain ⟨w, haddr, hrom⟩ := hl.tensor l hlayer t
  intro st h
  unfold with_tensor
  rw [haddr, Option.bind_some]
  exact hf w (hl.finds_rom hrom (by cases t <;> decide)) st h

theorem Loaded.does_norm (hl : Loaded env ws wl lay M m0) (hlayer : l < 24) (t : Tensor)
    {a c : Scratch} (hv : d.vec a = x)
    (hshape : (TENSOR_TABLE t).n_floats = 896 ∧ workBytes a = 3584 ∧ workBytes c = 3584)
    (hplain : Plain a ∧ Plain c) :
    Does lay m0 (with_tensor wl l t fun w => op_rmsnorm env ws (ws.off a) (ws.off c) w) d
      (d.set c (normed env.dev.fpu M (M.tensor l t) x)) := by
  obtain ⟨hfloats, ha, hc⟩ := hshape
  apply hl.does_tensor hlayer
  intro w hw
  rw [hfloats] at hw
  exact hl.does_rmsnorm (hl.finds hplain.1 (by rw [ha]) hv) hw hplain.2 hc

theorem Loaded.does_times (hl : Loaded env ws wl lay M m0) (hlayer : l < 24) (t : Tensor)
    {a c : Scratch} {K N : Nat} (hv : d.vec a = x)
    (hshape : (TENSOR_TABLE t).n_floats = K * N ∧ workBytes a = 4 * K ∧ workBytes c = 4 * N)
    (hplain : Plain a ∧ Plain c) (hsmall : K < 2 ^ 31 ∧ N < 2 ^ 31) :
    Does lay m0 (with_tensor wl l t fun w => op_gemm env ws (ws.off a) w (ws.off c) 1 K N) d
      (d.set c (times env.dev.fpu K N x (M.tensor l t))) := by
  obtain ⟨hfloats, ha, hc⟩ := hshape
  apply hl.does_tensor hlayer
  intro w hw
  rw [hfloats] at hw
  exact hl.does_gemm (hl.finds hplain.1 (by omega) hv) hw hplain.2 hc hsmall.1 hsmall.2

theorem Loaded.does_bias (hl : Loaded env ws wl lay M m0) (hlayer : l < 24) (t : Tensor)
    {c : Scratch} {N : Nat} (hv : d.vec c = x)
    (hshape : (TENSOR_TABLE t).n_floats = N ∧ workBytes c = 4 * N) (hplain : Plain c)
    (hsmall : N < 2 ^ 31) :
    Does lay m0 (with_tensor wl l t fun b => op_broadcast_add env ws (ws.off c) b (ws.off c) 1 N) d
      (d.set c (plus env.dev.fpu N x (M.tensor l t))) := by
  obtain ⟨hfloats, hc⟩ := hshape
  apply hl.does_tensor hlayer
  intro b hb
  rw [hfloats] at hb
  exact hl.does_add (hl.finds hplain (by omega) hv) hb hplain hc hsmall

/-- A sum of two vectors of the desk. -/
theorem Loaded.does_residual (hl : Loaded env ws wl lay M m0) {a b c : Scratch} {y : List Word}
    {N : Nat} (hx : d.vec a = x) (hy : d.vec b = y)
    (hshape : workBytes a = 4 * N ∧ workBytes b = 4 * N ∧ workBytes c = 4 * N)
    (hplain : Plain a ∧ Plain b ∧ Plain c) (hsmall : N < 2 ^ 31) :
    Does lay m0 (op_broadcast_add env ws (ws.off a) (ws.off b) (ws.off c) 1 N) d
      (d.set c (plus env.dev.fpu N x y)) := by
  obtain ⟨ha, hb, hc⟩ := hshape
  exact hl.does_add (hl.finds hplain.1 (by omega) hx) (hl.finds hplain.2.1 (by omega) hy)
    hplain.2.2 hc hsmall

/-- The parts of the desk that the first and the last actions of a layer leave alone. -/
structure Desk.Keeps (d d' : Desk) : Prop where
  sincos : d'.vec .sincos = d.vec .sincos
  keys : d'.keys = d.keys
  vals : d'.vals = d.vals
  filled : d'.filled = d.filled
  pending : d'.pending = d.pending

theorem Loaded.does_qkv (hl : Loaded env ws wl lay M m0) (hlayer : l < 24) {pos : Nat}
    (hpos : pos < 128) (hsin : d.vec .sincos = M.sincos) (hx : d.vec .RESID_A = x) :
    ∃ d', Does lay m0 (seq (qkv_actions env ws wl l pos)) d d' ∧ d.Keeps d' ∧
      d'.vec .RESID_A = x ∧
      d'.vec .SCRATCH_Q = query env.dev.fpu transformer_default_config M l pos x ∧
      d'.vec .SCRATCH_K = key env.dev.fpu transformer_default_config M l pos x ∧
      d'.vec .SCRATCH_V = value env.dev.fpu transformer_default_config M l x := by
  have hdim : transformer_default_config.num_kv_heads * transformer_default_config.head_dim % 2 ^ 32 =
      kvDim transformer_default_config := by decide
  unfold qkv_actions query key value
  rw [hl.cfg, hdim]
  simp only
  generalize hn : normed env.dev.fpu M (M.tensor l .input_norm) x = n
  refine ⟨_,
    (hl.does_norm hlayer .input_norm hx (by decide) (by decide)).cons <|
    (hl.does_times (x := n) hlayer .q_proj_w ?_ (by decide) (by decide) (by decide)).cons <|
    (hl.does_bias hlayer .q_proj_b (Desk.set_vec_same ..) (by decide) (by decide) (by decide)).cons <|
    (hl.does_times (x := n) hlayer .k_proj_w ?_ (by decide) (by decide) (by decide)).cons <|
    (hl.does_bias hlayer .k_proj_b (Desk.set_vec_same ..) (by decide) (by decide) (by decide)).cons <|
    (hl.does_times (x := n) hlayer .v_proj_w ?_ (by decide) (by decide) (by decide)).cons <|
    (hl.does_bias hlayer .v_proj_b (Desk.set_vec_same ..) (by decide) (by decide) (by decide)).cons <|
    (hl.does_rope (by decide) (by decide) hpos ?_).cons <|
    (hl.does_rope (by decide) (by decide) hpos ?_).cons does_nil, ⟨?_, rfl, rfl, rfl, rfl⟩, ?_⟩
  all_goals simp [Desk.set_vec, hn, hsin, hx]

/-- The query looks at the keys and values with those of its own position. -/
theorem Loaded.does_attend (hl : Loaded env ws wl lay M m0) (hlayer : d.pending < 24)
    (hpos : d.filled < 128) (hkeys : (d.keys d.pending).length = d.filled)
    (hvals : (d.vals d.pending).length = d.filled) :
    ∃ d', Does lay m0 (seq (attend_actions env ws d.pending d.filled)) d d' ∧
      d'.vec .sincos = d.vec .sincos ∧ d'.vec .RESID_A = d.vec .RESID_A ∧
      d'.keys = Function.update d.keys d.pending (d.keys d.pending ++ [d.vec .SCRATCH_K]) ∧
      d'.vals = Function.update d.vals d.pending (d.vals d.pending ++ [d.vec .SCRATCH_V]) ∧
      d'.filled = d.filled ∧ d'.pending = d.pending + 1 ∧
      d'.vec .SCRATCH_X = attention env.dev.fpu transformer_default_config M (d.vec .SCRATCH_Q)
        (d.keys d.pending ++ [d.vec .SCRATCH_K]) (d.vals d.pending ++ [d.vec .SCRATCH_V]) := by
  refine ⟨_,
    (hl.does_append hlayer hpos).cons <|
    (hl.does_qkt hlayer hpos ?_).cons <|
    (hl.does_softmax hpos ?_ ?_).cons <|
    (hl.does_pv hlayer hpos ?_ ?_ ?_).cons does_nil, ?_, ?_, rfl, rfl, rfl, rfl, ?_⟩
  · simp [hkeys]
  · simp [scoresOf]
  · intro h hh
    rw [scoresOf, getD_map_range hh]
    simp [hkeys]
  · simp
  · intro h hh
    rw [getD_map_range hh, softmax_row_length, scoresOf, getD_map_range hh]
    simp [hkeys]
  · simp [hvals]
  · simp [Desk.set_vec]
  · simp [Desk.set_vec]
  · rw [Desk.set_vec_same]
    unfold attention attends
    apply List.flatMap_congr
    intro h hh
    rw [getD_map_range (List.mem_range.mp hh), scoresOf, getD_map_range (List.mem_range.mp hh)]
    simp only [Function.update_self]
    rfl

/-- The output of the attention becomes that of the layer. -/
theorem Loaded.does_ffn (hl : Loaded env ws wl lay M m0) (hlayer : l < 24) {a : List Word}
    (hx : d.vec .RESID_A = x) (ha : d.vec .SCRATCH_X = a) :
    ∃ d', Does lay m0 (seq (ffn_actions env ws wl l)) d d' ∧ d.Keeps d' ∧
      d'.vec .RESID_A = finish env.dev.fpu transformer_default_config M l x a := by
  unfold ffn_actions finish
  rw [hl.cfg]
  simp only
  generalize hr : plus env.dev.fpu transformer_default_config.D x
    (times env.dev.fpu transformer_default_config.D transformer_default_config.D a
      (M.tensor l .o_proj_w)) = r
  generalize hn : normed env.dev.fpu M (M.tensor l .post_norm) r = n
  refine ⟨_,
    (hl.does_times hlayer .o_proj_w ha (by decide) (by decide) (by decide)).cons <|
    (hl.does_residual (x := x) ?_ (Desk.set_vec_same ..) (by decide) (by decide) (by decide)).cons <|
    (hl.does_norm (x := r) hlayer .post_norm ?_ (by decide) (by decide)).cons <|
    (hl.does_times (x := n) hlayer .gate_proj_w ?_ (by decide) (by decide) (by decide)).cons <|
    (hl.does_times (x := n) hlayer .up_proj_w ?_ (by decide) (by decide) (by decide)).cons <|
    (hl.does_silu (hl.finds_work (by decide) (by decide)) (by decide) (by decide) (by decide)).cons <|
    (hl.does_vmul (hl.finds_work (by decide) (by decide)) (hl.finds_work (by decide) (by decide))
      (by decide) (by decide) (by decide) (by decide)).cons <|
    (hl.does_times hlayer .down_proj_w (Desk.set_vec_same ..) (by decide) (by decide)
      (by decide)).cons <|
    (hl.does_residual (x := r) ?_ (Desk.set_vec_same ..) (by decide) (by decide)
      (by decide)).cons does_nil, ⟨?_, rfl, rfl, rfl, rfl⟩, ?_⟩
  all_goals simp [Desk.set_vec, hn, hr, hx]

/-- A layer extends its keys and values, and leaves what the reference layer does. -/
theorem Loaded.does_layer (hl : Loaded env ws wl lay M m0) (hlayer : d.pending < 24)
    (hpos : d.filled < 128) (hsin : d.vec .sincos = M.sincos) (hx : d.vec .RESID_A = x)
    (hkeys : (d.keys d.pending).length = d.filled) (hvals : (d.vals d.pending).length = d.filled)
    {K V : List (List Word)}
    (hK : K = d.keys d.pending ++
      [key env.dev.fpu transformer_default_config M d.pending d.filled x])
    (hV : V = d.vals d.pending ++ [value env.dev.fpu transformer_default_config M d.pending x]) :
    ∃ d', Does lay m0 (transformer_decoder_layer env ws wl d.pending d.filled) d d' ∧
      d'.vec .sincos = M.sincos ∧ d'.keys = Function.update d.keys d.pending K ∧
      d'.vals = Function.update d.vals d.pending V ∧
      d'.filled = d.filled ∧ d'.pending = d.pending + 1 ∧
      d'.vec .RESID_A = block env.dev.fpu transformer_default_config M d.pending d.filled x K V := by
  obtain ⟨d1, h1, hkeep1, hx1, hq, hk, hv⟩ := hl.does_qkv hlayer hpos hsin hx
  have h2 := hl.does_attend (d := d1) (by rw [hkeep1.pending]; exact hlayer)
    (by rw [hkeep1.filled]; exact hpos) (by rw [hkeep1.keys, hkeep1.pending, hkeep1.filled, hkeys])
    (by rw [hkeep1.vals, hkeep1.pending, hkeep1.filled, hvals])
  rw [hkeep1.pending, hkeep1.filled, hkeep1.keys, hkeep1.vals, hkeep1.sincos, hsin, hx1, hq, hk, hv,
    ← hK, ← hV] at h2
  obtain ⟨d2, h2, hsin2, hx2, hkeys2, hvals2, hfilled2, hpending2, ha⟩ := h2
  obtain ⟨d3, h3, hkeep3, hx3⟩ := hl.does_ffn hlayer hx2 ha
  refine ⟨d3, (h1.append h2).append h3, ?_, ?_, ?_, ?_, ?_, hx3⟩
  · rw [hkeep3.sincos, hsin2]
  · rw [hkeep3.keys, hkeys2]
  · rw [hkeep3.vals, hvals2]
  · rw [hkeep3.filled, hfilled2]
  · rw [hkeep3.pending, hpending2]

/-! ## All layers -/

/-- What comes into layer `l`, from the rows that the layers had before the step. -/
abbrev comes (fpu : Fpu) (M : Model) (K V : Nat → List (List Word)) (p tok l : Nat) : List Word :=
  arriving fpu transformer_default_config M K V p tok l

/-- The rows of a layer with one more. -/
abbrev grown (fpu : Fpu) (M : Model) (K V : Nat → List (List Word)) (p tok l : Nat) :
    List (List Word) × List (List Word) :=
  (K l ++ [key fpu transformer_default_config M l p (comes fpu M K V p tok l)],
    V l ++ [value fpu transformer_default_config M l (comes fpu M K V p tok l)])

/-- The desk before layer `l` in the step for `tok` at position `p`. The layers before `l`
have a key and a value for `tok` already, and the others have `K` and `V`. -/
structure Desk.Amid (fpu : Fpu) (M : Model) (K V : Nat → List (List Word)) (p tok l : Nat)
    (d : Desk) : Prop where
  sincos : d.vec .sincos = M.sincos
  filled : d.filled = p
  pending : d.pending = l
  resid : d.vec .RESID_A = comes fpu M K V p tok l
  keys : ∀ l' < 24, d.keys l' = if l' < l then (grown fpu M K V p tok l').1 else K l'
  vals : ∀ l' < 24, d.vals l' = if l' < l then (grown fpu M K V p tok l').2 else V l'

variable {toks : List Nat} {tok p : Nat} {K V : Nat → List (List Word)}

/-- The rows of the layers after layer `l` has got its own. -/
theorem update_rows {rows old : Nat → List (List Word)} (new : Nat → List (List Word))
    (hrows : ∀ l' < 24, rows l' = if l' < l then new l' else old l') (l' : Nat) (hl' : l' < 24) :
    Function.update rows l (new l) l' = if l' < l + 1 then new l' else old l' := by
  by_cases heq : l' = l
  · subst heq
    rw [Function.update_self, if_pos (Nat.lt_succ_self l')]
  · have hiff : l' < l + 1 ↔ l' < l := by omega
    rw [Function.update_of_ne heq, hrows l' hl']
    simp only [hiff]

theorem Loaded.layer_amid (hl : Loaded env ws wl lay M m0) (hlayer : l < 24) (hpos : p < 128)
    (hK : ∀ l < 24, (K l).length = p) (hV : ∀ l < 24, (V l).length = p)
    (hd : d.Amid env.dev.fpu M K V p tok l) :
    ∃ d', Does lay m0 (transformer_decoder_layer env ws wl l p) d d' ∧
      d'.Amid env.dev.fpu M K V p tok (l + 1) := by
  have hkeys := hd.keys l hlayer
  have hvals := hd.vals l hlayer
  rw [if_neg (Nat.lt_irrefl l)] at hkeys hvals
  have h := hl.does_layer (d := d) (by rw [hd.pending]; exact hlayer)
    (by rw [hd.filled]; exact hpos) hd.sincos hd.resid
    (by rw [hd.pending, hd.filled, hkeys, hK l hlayer])
    (by rw [hd.pending, hd.filled, hvals, hV l hlayer]) rfl rfl
  rw [hd.pending, hd.filled, hkeys, hvals] at h
  obtain ⟨d', hdoes, hsin, hkeys', hvals', hfilled, hpending, hresid⟩ := h
  refine ⟨d', hdoes, hsin, hfilled, hpending, hresid, fun l' hl' => ?_, fun l' hl' => ?_⟩
  · rw [hkeys']
    exact update_rows (fun l' => (grown env.dev.fpu M K V p tok l').1) hd.keys l' hl'
  · rw [hvals']
    exact update_rows (fun l' => (grown env.dev.fpu M K V p tok l').2) hd.vals l' hl'

theorem Loaded.layers_amid (hl : Loaded env ws wl lay M m0) (hpos : p < 128)
    (hK : ∀ l < 24, (K l).length = p) (hV : ∀ l < 24, (V l).length = p)
    (hd : d.Amid env.dev.fpu M K V p tok 0) : ∀ n ≤ 24, ∃ d',
      Does lay m0 (seq ((List.range n).map fun l => transformer_decoder_layer env ws wl l p)) d d' ∧
      d'.Amid env.dev.fpu M K V p tok n := by
  intro n hn
  induction n with
  | zero => exact ⟨d, does_nil, hd⟩
  | succ n ih =>
    obtain ⟨d1, h1, hd1⟩ := ih (by omega)
    obtain ⟨d2, h2, hd2⟩ := hl.layer_amid (by omega) hpos hK hV hd1
    refine ⟨d2, ?_, hd2⟩
    rw [List.range_succ, List.map_append]
    exact h1.append (h2.cons does_nil)

/-! ## One step -/

/-- The desk between two steps, with the rows `K` and `V` for `p` positions. -/
structure Desk.Rests (M : Model) (K V : Nat → List (List Word)) (p : Nat) (d : Desk) : Prop where
  sincos : d.vec .sincos = M.sincos
  filled : d.filled = p
  pending : d.pending = 0
  keys : ∀ l < 24, d.keys l = K l
  vals : ∀ l < 24, d.vals l = V l

/-- The token that a step computes from the rows `K` and `V`. -/
def stepToken (fpu : Fpu) (M : Model) (K V : Nat → List (List Word)) (p tok : Nat) : Word :=
  next fpu transformer_default_config M (comes fpu M K V p tok 24)

theorem Loaded.does_step (hl : Loaded env ws wl lay M m0) (hpos : p < 128) (htok : tok < 151936)
    (hK : ∀ l < 24, (K l).length = p) (hV : ∀ l < 24, (V l).length = p) (hd : d.Rests M K V p) :
    ∃ d', Does lay m0 (seq (step_actions env ws wl (UInt32.ofNat tok) p)) d d' ∧
      d'.Rests M (fun l => (grown env.dev.fpu M K V p tok l).1)
        (fun l => (grown env.dev.fpu M K V p tok l).2) (p + 1) ∧
      d'.vec .token_id_buf = [stepToken env.dev.fpu M K V p tok] := by
  have hstart := (hl.does_write_token (d := d) (UInt32.ofNat tok)).cons <|
    (hl.does_embedding htok (Desk.set_vec_same ..)).cons does_nil
  have hbefore : Desk.Amid env.dev.fpu M K V p tok 0 ((d.set .token_id_buf [UInt32.ofNat tok]).set
      .RESID_A (embed transformer_default_config M tok)) := by
    refine ⟨?_, hd.filled, hd.pending, Desk.set_vec_same .., hd.keys, hd.vals⟩
    simp [Desk.set_vec, hd.sincos]
  obtain ⟨d2, hlayers, hd2⟩ := hl.layers_amid hpos hK hV hbefore 24 (Nat.le_refl 24)
  simp only [step_actions, hl.cfg]
  refine ⟨_, (hstart.append hlayers).append <|
    (hl.does_rmsnorm (hl.finds (by decide) (by decide) hd2.resid)
      (hl.finds_rom hl.final_norm (by decide)) (by decide) (by decide)).cons <|
    (hl.does_gemm (hl.finds (by decide) (by decide) (Desk.set_vec_same ..))
      (hl.finds_rom hl.lm_head (by decide)) (by decide) (by decide) (by decide) (by decide)).cons <|
    hl.does_argmax.cons <| (Loaded.does_commit ?_ ?_).cons does_nil, ⟨?_, ?_, rfl, ?_, ?_⟩, ?_⟩
  · show d2.filled < 128
    rw [hd2.filled]
    exact hpos
  · exact hd2.pending
  · simp [Desk.set_vec, hd2.sincos]
  · show d2.filled + 1 = _
    rw [hd2.filled]
  · intro l hlt
    exact (hd2.keys l hlt).trans (by rw [if_pos hlt])
  · intro l hlt
    exact (hd2.vals l hlt).trans (by rw [if_pos hlt])
  · rw [Desk.set_vec_same, Desk.set_vec_same]
    rfl

/-- A call of `transformer_step` returns the token that the rows of the desk give. -/
theorem Loaded.step_rests (hl : Loaded env ws wl lay M m0) (hpos : p < 128) (htok : tok < 151936)
    (hK : ∀ l < 24, (K l).length = p) (hV : ∀ l < 24, (V l).length = p) {st : Run}
    (h : At lay m0 st d) (hd : d.Rests M K V p) :
    ∃ st' d', transformer_step env ws wl tok p st =
        some (((stepToken env.dev.fpu M K V p tok).toNat : Int), st') ∧ At lay m0 st' d' ∧
      d'.Rests M (fun l => (grown env.dev.fpu M K V p tok l).1)
        (fun l => (grown env.dev.fpu M K V p tok l).2) (p + 1) := by
  obtain ⟨d', hdoes, hrests, hout⟩ := hl.does_step hpos htok hK hV hd
  obtain ⟨st', hcode, h'⟩ := hdoes st h
  refine ⟨st', d', ?_, h', hrests⟩
  have hread := h'.shows.vecs .token_id_buf (by decide)
  rw [hout] at hread
  have hplace : (UInt32.ofInt (p : Int)).toNat = p := by
    rw [word_of_int (by omega)]
    exact UInt32.toNat_ofNat_of_lt' (Nat.lt_trans hpos (by decide))
  have hlt : (stepToken env.dev.fpu M K V p tok).toNat < 2 ^ 31 := argmax_lt _ (by decide) _
  unfold transformer_step
  simp only [word_of_int (show tok < 2 ^ 32 by omega), hplace, hcode, Option.bind_some,
    hl.copy_out h']
  rw [if_neg (by simp), if_neg (by decide)]
  have hword : word (copied lay st'.ctx.buddy.mem .token_id_buf 4) 0 =
      stepToken env.dev.fpu M K V p tok := by
    have hhead := (List.cons.inj hread).1
    rw [← hhead]
    apply word_congr
    intro i hi
    unfold copied
    rw [Nat.zero_add, if_pos hi]
    rfl
  rw [hword, int_of_word hlt]

/-- The desk between two steps, after the tokens `toks`. -/
structure Desk.After (fpu : Fpu) (M : Model) (toks : List Nat) (d : Desk) : Prop where
  sincos : d.vec .sincos = M.sincos
  filled : d.filled = toks.length
  pending : d.pending = 0
  keys : ∀ l < 24, d.keys l = keysFor fpu transformer_default_config M l toks
  vals : ∀ l < 24, d.vals l = valuesFor fpu transformer_default_config M l toks

/-- A call of `transformer_step` returns the token of the reference decoder. -/
theorem Loaded.step_spec (hl : Loaded env ws wl lay M m0) (hpos : toks.length < 128)
    (htok : tok < 151936) {st : Run} (h : At lay m0 st d) (hd : d.After env.dev.fpu M toks) :
    ∃ st' d', transformer_step env ws wl tok toks.length st =
        some (((reference_token env.dev.fpu transformer_default_config M (toks ++ [tok])).toNat : Int),
          st') ∧
      At lay m0 st' d' ∧ d'.After env.dev.fpu M (toks ++ [tok]) := by
  have hrests : d.Rests M (fun l => keysFor env.dev.fpu transformer_default_config M l toks)
      (fun l => valuesFor env.dev.fpu transformer_default_config M l toks) toks.length :=
    ⟨hd.sincos, hd.filled, hd.pending, hd.keys, hd.vals⟩
  obtain ⟨st', d', hcode, h', hd'⟩ := hl.step_rests hpos htok
    (fun l _ => keysFor_length ..) (fun l _ => valuesFor_length ..) h hrests
  refine ⟨st', d', ?_, h', hd'.sincos, ?_, hd'.pending, fun l hlt => ?_, fun l hlt => ?_⟩
  · rw [hcode, stepToken, comes, arriving_eq, reference_token_append]
    rfl
  · rw [hd'.filled, List.length_append, List.length_singleton]
  · rw [hd'.keys l hlt, keysFor_append, ← arriving_eq]
  · rw [hd'.vals l hlt, valuesFor_append, ← arriving_eq]

/-! ## Many steps -/

/-- The calls for a list of tokens return the tokens of the reference decoder, each for
the tokens up to its own. -/
theorem Loaded.decode_spec (hl : Loaded env ws wl lay M m0) : ∀ (more toks : List Nat) (st : Run)
    (d : Desk), toks.length + more.length ≤ 128 → (∀ x ∈ more, x < 151936) → At lay m0 st d →
    d.After env.dev.fpu M toks → ∃ st', decode env ws wl toks.length more st =
      some ((List.range more.length).map fun i => ((reference_token env.dev.fpu
        transformer_default_config M (toks ++ more.take (i + 1))).toNat : Int), st') := by
  intro more
  induction more with
  | nil =>
    intro toks st d _ _ _ _
    exact ⟨st, rfl⟩
  | cons x xs ih =>
    intro toks st d hlen hall h hd
    simp only [List.length_cons] at hlen
    obtain ⟨st1, d1, hcode1, h1, hd1⟩ := hl.step_spec (by omega) (hall x List.mem_cons_self) h hd
    obtain ⟨st2, hcode2⟩ := ih (toks ++ [x]) st1 d1 (by simp; omega)
      (fun y hy => hall y (List.mem_cons_of_mem _ hy)) h1 hd1
    rw [List.length_append, List.length_singleton] at hcode2
    refine ⟨st2, ?_⟩
    rw [decode, hcode1]
    simp only [Option.bind_eq_bind, Option.bind_some, hcode2]
    rw [List.length_cons, List.range_succ_eq_map]
    simp [Function.comp_def]

end gpgpu.desk
