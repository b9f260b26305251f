-- A step as a straight line of operations. Which ones they are, and the arguments of
-- their launches, is settled before the first of them runs.
import Gpgpu.DeskOps

open memory words

namespace gpgpu.transformer

open buddy context kernels device kv weights

/-! ## The operations -/

/-- What a step does, one thing at a time. -/
inductive Op
  | token (tok : Word)
  | launch (k : Kernel) (args : List Nat) (grid : Nat)
  | append (layer : Nat)
  | commit

/-- The action of an operation. -/
def Op.act (env : Env) (ws : Workspace) (pos : Nat) : Op → Action
  | .token tok => write_token ws tok
  | .launch k args grid => op env ws k args grid
  | .append layer =>
    kv_append_from_device env ws layer pos (ws.off .SCRATCH_K) (ws.off .SCRATCH_V)
  | .commit => commit_token

/-- The operations one by one, up to the first error. -/
def run_ops (env : Env) (ws : Workspace) (pos : Nat) (ops : List Op) : Action :=
  seq (ops.map (Op.act env ws pos))

section

variable (host : Libm) (ws : Workspace)

def rmsnorm_op (in_off out_off weight_off : Nat) : Op :=
  .launch .rmsnorm [in_off, out_off, weight_off, ws.cfg.D,
    (host.div ONE (host.ofNat ws.cfg.D)).toNat, ws.cfg.rms_norm_eps.toNat] 1

def gemm_op (a_off b_off c_off K N : Nat) : Op :=
  .launch .gemm [a_off, b_off, c_off, 1, K, N] (calc_dispatch (1 * N % 2 ^ 32))

def add_op (x_off b_off y_off N : Nat) : Op :=
  .launch .broadcast_add [x_off, y_off, b_off, 1, N] (calc_dispatch (1 * N % 2 ^ 32))

def rope_op (x_off num_heads pos : Nat) : Op :=
  .launch .rope [x_off, ws.off .sincos, num_heads, ws.cfg.head_dim, pos] 1

/-- The width of a key or a value. -/
def kv_dim : Nat := ws.cfg.num_kv_heads * ws.cfg.head_dim % 2 ^ 32

/-- The query heads that share a key. -/
def q_per_kv : Nat := ws.cfg.num_q_heads / ws.cfg.num_kv_heads

/-- The address of a tensor of a layer. -/
def tensor_addr (wl : WeightLoader) (layer : Nat) (t : Tensor) : Nat :=
  add64 (wl.layer_base layer) (TENSOR_TABLE t).offset

def qkv_ops (wl : WeightLoader) (layer pos : Nat) : List Op :=
  let tensor := tensor_addr wl layer
  [rmsnorm_op host ws (ws.off .RESID_A) (ws.off .SCRATCH_X) (tensor .input_norm),
    gemm_op (ws.off .SCRATCH_X) (tensor .q_proj_w) (ws.off .SCRATCH_Q) ws.cfg.D ws.cfg.D,
    add_op (ws.off .SCRATCH_Q) (tensor .q_proj_b) (ws.off .SCRATCH_Q) ws.cfg.D,
    gemm_op (ws.off .SCRATCH_X) (tensor .k_proj_w) (ws.off .SCRATCH_K) ws.cfg.D (kv_dim ws),
    add_op (ws.off .SCRATCH_K) (tensor .k_proj_b) (ws.off .SCRATCH_K) (kv_dim ws),
    gemm_op (ws.off .SCRATCH_X) (tensor .v_proj_w) (ws.off .SCRATCH_V) ws.cfg.D (kv_dim ws),
    add_op (ws.off .SCRATCH_V) (tensor .v_proj_b) (ws.off .SCRATCH_V) (kv_dim ws),
    rope_op ws (ws.off .SCRATCH_Q) ws.cfg.num_q_heads pos,
    rope_op ws (ws.off .SCRATCH_K) ws.cfg.num_kv_heads pos]

/-- The three launches of the attention. -/
def attention_ops (c : KvCache) (layer pos : Nat) : List Op :=
  let scale := host.div ONE (host.sqrtf (host.ofNat ws.cfg.head_dim))
  [.launch .qkt_decode [ws.off .SCRATCH_Q, layer_off c c.K_dev_off layer, ws.off .SCRATCH_SCORES, pos,
      ws.cfg.max_seq, ws.cfg.head_dim, q_per_kv ws, scale.toNat] ws.cfg.num_q_heads,
    .launch .softmax_decode [ws.off .SCRATCH_SCORES, pos, ws.cfg.max_seq] ws.cfg.num_q_heads,
    .launch .pv_decode [ws.off .SCRATCH_SCORES, layer_off c c.V_dev_off layer, ws.off .SCRATCH_X, pos,
      ws.cfg.max_seq, ws.cfg.head_dim, q_per_kv ws] ws.cfg.num_q_heads]

def ffn_ops (wl : WeightLoader) (layer : Nat) : List Op :=
  let tensor := tensor_addr wl layer
  let (D, I) := (ws.cfg.D, ws.cfg.intermediate)
  [gemm_op (ws.off .SCRATCH_X) (tensor .o_proj_w) (ws.off .SCRATCH_Q) D D,
    add_op (ws.off .RESID_A) (ws.off .SCRATCH_Q) (ws.off .RESID_B) D,
    rmsnorm_op host ws (ws.off .RESID_B) (ws.off .SCRATCH_X) (tensor .post_norm),
    gemm_op (ws.off .SCRATCH_X) (tensor .gate_proj_w) (ws.off .SCRATCH_FFN_A) D I,
    gemm_op (ws.off .SCRATCH_X) (tensor .up_proj_w) (ws.off .SCRATCH_FFN_B) D I,
    .launch .silu [ws.off .SCRATCH_FFN_A, ws.off .SCRATCH_FFN_A, I] (calc_dispatch I),
    .launch .vmul [ws.off .SCRATCH_FFN_A, ws.off .SCRATCH_FFN_B, ws.off .SCRATCH_FFN_A, I] 1,
    gemm_op (ws.off .SCRATCH_FFN_A) (tensor .down_proj_w) (ws.off .SCRATCH_X) I D,
    add_op (ws.off .RESID_B) (ws.off .SCRATCH_X) (ws.off .RESID_A) D]

def layer_ops (wl : WeightLoader) (c : KvCache) (pos layer : Nat) : List Op :=
  qkv_ops host ws wl layer pos ++ .append layer :: attention_ops host ws c layer pos ++
    ffn_ops host ws wl layer

def first_ops (wl : WeightLoader) (tok : Word) : List Op :=
  [.token tok, .launch .embedding_lookup [weight_loader_embedding wl, ws.off .token_id_buf,
    ws.off .RESID_A, ws.cfg.D, ws.cfg.D / 32] 1]

def last_ops (wl : WeightLoader) : List Op :=
  [rmsnorm_op host ws (ws.off .RESID_A) (ws.off .SCRATCH_X) (weight_loader_final_norm wl),
    gemm_op (ws.off .SCRATCH_X) (weight_loader_lm_head wl) (ws.off .LOGITS) ws.cfg.D ws.cfg.vocab_size,
    .launch .argmax [ws.off .LOGITS, ws.cfg.vocab_size, ws.off .token_id_buf, ws.off .argmax_debug] 1,
    .commit]

/-- The operations of a whole step. -/
def step_ops (wl : WeightLoader) (c : KvCache) (tok : Word) (pos : Nat) : List Op :=
  first_ops ws wl tok ++ (List.range ws.cfg.num_layers).flatMap (layer_ops host ws wl c pos) ++
    last_ops host ws wl

end

/-! ## The counters -/

/-- The calls of an operation that the host can refuse. -/
def Op.cost : Op → Nat
  | .token _ | .commit => 0
  | .launch .. => 1
  | .append _ => 2

/-- None of its calls is refused, from the `n`-th call on. -/
def Op.goes (ok : Nat → Bool) (n : Nat) (o : Op) : Bool := (List.range o.cost).all fun i => ok (n + i)

/-- What it returns when one is. -/
def Op.error : Op → Int
  | .append _ => TRANSFORMER_ERR_ALLOC
  | _ => TRANSFORMER_ERR_LAUNCH

/-- The cache after it. -/
def Op.count (c : KvCache) : Op → KvCache
  | .append _ => { c with pending := c.pending + 1 }
  | .commit => { c with pending := 0, filled := c.filled + 1 }
  | _ => c

/-- The cache is at the point where the operation may come. -/
def Op.Ready (pos : Nat) (c : KvCache) : Op → Prop
  | .append layer => c.pending = layer ∧ c.filled = pos
  | .commit => 0 < c.pending ∧ c.pending = c.num_layers ∧ c.filled < c.max_seq
  | _ => True

/-- Every operation finds the cache at its point. -/
def ReadyAll (pos : Nat) : KvCache → List Op → Prop
  | _, [] => True
  | c, o :: ops => o.Ready pos c ∧ ReadyAll pos (o.count c) ops

/-- The cache after all of them. -/
def count_all (c : KvCache) (ops : List Op) : KvCache := ops.foldl Op.count c

def cost_all (ops : List Op) : Nat := (ops.map Op.cost).sum

/-- The code, the cache and the number of calls after the operations, up to the first one
with a refused call. -/
def outcome (ok : Nat → Bool) : List Op → Nat → KvCache → Int × KvCache × Nat
  | [], n, c => (TRANSFORMER_OK, c, n)
  | o :: ops, n, c =>
    if o.goes ok n then outcome ok ops (n + o.cost) (o.count c) else (o.error, c, n + o.cost)

/-- An operation that leaves the cache alone. -/
def Op.Quiet : Op → Prop
  | .token _ | .launch .. => True
  | _ => False

theorem count_all_quiet {c : KvCache} {ops : List Op} (h : ∀ o ∈ ops, o.Quiet) :
    count_all c ops = c := by
  induction ops with
  | nil => rfl
  | cons o ops ih =>
    have ho := h o List.mem_cons_self
    have hcount : o.count c = c := by
      cases o with
      | token => rfl
      | launch => rfl
      | append => exact ho.elim
      | commit => exact ho.elim
    rw [count_all, List.foldl_cons, hcount]
    exact ih fun o' ho' => h o' (List.mem_cons_of_mem _ ho')

theorem readyAll_quiet {pos : Nat} {c : KvCache} {ops : List Op} (h : ∀ o ∈ ops, o.Quiet) :
    ReadyAll pos c ops := by
  induction ops generalizing c with
  | nil => trivial
  | cons o ops ih =>
    have ho := h o List.mem_cons_self
    refine ⟨?_, ih fun o' ho' => h o' (List.mem_cons_of_mem _ ho')⟩
    cases o with
    | token => trivial
    | launch => trivial
    | append => exact ho.elim
    | commit => exact ho.elim

theorem count_all_append (c : KvCache) (ops ops' : List Op) :
    count_all c (ops ++ ops') = count_all (count_all c ops) ops' :=
  List.foldl_append

theorem cost_all_append (ops ops' : List Op) :
    cost_all (ops ++ ops') = cost_all ops + cost_all ops' := by
  simp [cost_all]

theorem Op.count_place (o : Op) (c : KvCache) : (o.count c).place = c.place := by
  cases o <;> rfl

theorem outcome_place (ok : Nat → Bool) (ops : List Op) (n : Nat) (c : KvCache) :
    (outcome ok ops n c).2.1.place = c.place := by
  induction ops generalizing n c with
  | nil => rfl
  | cons o ops ih =>
    rw [outcome]
    split
    · rw [ih, Op.count_place]
    · rfl

/-- All operations are made, or a refused call gives its code. -/
theorem outcome_cases (ok : Nat → Bool) (ops : List Op) (n : Nat) (c : KvCache) :
    ((outcome ok ops n c).1 = TRANSFORMER_OK ∧ (outcome ok ops n c).2.1 = count_all c ops) ∨
      (outcome ok ops n c).1 = TRANSFORMER_ERR_ALLOC ∨
      (outcome ok ops n c).1 = TRANSFORMER_ERR_LAUNCH := by
  induction ops generalizing n c with
  | nil => exact .inl ⟨rfl, rfl⟩
  | cons o ops ih =>
    rw [outcome]
    split
    · exact ih _ _
    · cases o with
      | append => exact .inr (.inl rfl)
      | token => exact .inr (.inr rfl)
      | launch => exact .inr (.inr rfl)
      | commit => exact .inr (.inr rfl)

theorem Op.error_ne (o : Op) : o.error ≠ TRANSFORMER_OK := by
  cases o <;> simp [Op.error, TRANSFORMER_OK, TRANSFORMER_ERR_ALLOC, TRANSFORMER_ERR_LAUNCH]

/-- When no call is refused, all operations are made. -/
theorem outcome_ok {ok : Nat → Bool} {ops : List Op} {n : Nat} (c : KvCache)
    (h : ∀ i < cost_all ops, ok (n + i) = true) :
    outcome ok ops n c = (TRANSFORMER_OK, count_all c ops, n + cost_all ops) := by
  induction ops generalizing n c with
  | nil => rfl
  | cons o ops ih =>
    have hcost : cost_all (o :: ops) = o.cost + cost_all ops := rfl
    have hgoes : o.goes ok n = true := by
      rw [Op.goes, List.all_eq_true]
      intro i hi
      exact h i (by have := List.mem_range.mp hi; omega)
    rw [outcome, if_pos hgoes, ih _ fun i hi => by
      rw [Nat.add_assoc]
      exact h (o.cost + i) (by omega), hcost, Nat.add_assoc]
    rfl

/-- When a call is refused, an operation ends the others. -/
theorem outcome_error {ok : Nat → Bool} {ops : List Op} {n i : Nat} (c : KvCache)
    (hi : i < cost_all ops) (hno : ok (n + i) = false) :
    ∃ ops₁ o ops₂, ops = ops₁ ++ o :: ops₂ ∧ (∀ j < cost_all ops₁, ok (n + j) = true) ∧
      o.goes ok (n + cost_all ops₁) = false ∧
      outcome ok ops n c = (o.error, count_all c ops₁, n + cost_all ops₁ + o.cost) := by
  induction ops generalizing n i c with
  | nil => exact absurd hi (Nat.not_lt_zero i)
  | cons o ops ih =>
    have hcost : cost_all (o :: ops) = o.cost + cost_all ops := rfl
    cases hgoes : o.goes ok n with
    | false =>
      refine ⟨[], o, ops, rfl, fun j hj => absurd hj (Nat.not_lt_zero j), hgoes, ?_⟩
      rw [outcome, hgoes]
      rfl
    | true =>
      have hall : ∀ j < o.cost, ok (n + j) = true := by
        rw [Op.goes, List.all_eq_true] at hgoes
        exact fun j hj => hgoes j (List.mem_range.mpr hj)
      have hge : o.cost ≤ i := by
        by_contra hlt
        rw [hall i (by omega)] at hno
        cases hno
      obtain ⟨ops₁, o', ops₂, rfl, hbefore, hstop, hout⟩ :=
        ih (n := n + o.cost) (i := i - o.cost) (o.count c) (by omega)
          (by rwa [Nat.add_assoc, Nat.add_sub_cancel' hge])
      have hcost₁ : cost_all (o :: ops₁) = o.cost + cost_all ops₁ := rfl
      refine ⟨o :: ops₁, o', ops₂, rfl, fun j hj => ?_, ?_, ?_⟩
      · by_cases hj' : j < o.cost
        · exact hall j hj'
        · have := hbefore (j - o.cost) (by omega)
          rwa [Nat.add_assoc, Nat.add_sub_cancel' (by omega)] at this
      · rwa [hcost₁, ← Nat.add_assoc]
      · rw [outcome, if_pos hgoes, hout, hcost₁, ← Nat.add_assoc]
        rfl

theorem readyAll_append {pos : Nat} {c : KvCache} {ops ops' : List Op} :
    ReadyAll pos c (ops ++ ops') ↔ ReadyAll pos c ops ∧ ReadyAll pos (count_all c ops) ops' := by
  induction ops generalizing c with
  | nil => simp [ReadyAll, count_all]
  | cons o ops ih =>
    rw [List.cons_append, ReadyAll, ReadyAll, ih, and_assoc]
    rfl

/-! ## The counters in a step -/

section

variable {host : Libm} {ws : Workspace} {wl : WeightLoader} {c c' : KvCache} {pos layer : Nat}

theorem qkv_quiet : ∀ o ∈ qkv_ops host ws wl layer pos, o.Quiet := by
  simp [qkv_ops, rmsnorm_op, gemm_op, add_op, rope_op, Op.Quiet]

/-- After its append a layer has only launches. -/
theorem rest_quiet : ∀ o ∈ attention_ops host ws c layer pos ++ ffn_ops host ws wl layer, o.Quiet := by
  simp [attention_ops, ffn_ops, rmsnorm_op, gemm_op, add_op, Op.Quiet]

theorem layer_ops_eq : layer_ops host ws wl c pos layer = qkv_ops host ws wl layer pos ++
    .append layer :: (attention_ops host ws c layer pos ++ ffn_ops host ws wl layer) := by
  simp [layer_ops]

theorem count_layer : count_all c' (layer_ops host ws wl c pos layer) =
    { c' with pending := c'.pending + 1 } := by
  rw [layer_ops_eq, count_all_append, count_all_quiet qkv_quiet, count_all, List.foldl_cons]
  exact count_all_quiet rest_quiet

theorem ready_layer (hpending : c'.pending = layer) (hfilled : c'.filled = pos) :
    ReadyAll pos c' (layer_ops host ws wl c pos layer) := by
  rw [layer_ops_eq, readyAll_append]
  refine ⟨readyAll_quiet qkv_quiet, ?_, readyAll_quiet rest_quiet⟩
  rw [count_all_quiet qkv_quiet]
  exact ⟨hpending, hfilled⟩

variable (host ws wl c) in
/-- The cache is ready for the layers one after the other. -/
theorem ready_layers (hpending : c'.pending = 0) (hfilled : c'.filled = pos) (n : Nat) :
    ReadyAll pos c' ((List.range n).flatMap (layer_ops host ws wl c pos)) ∧
      count_all c' ((List.range n).flatMap (layer_ops host ws wl c pos)) =
        { c' with pending := n } := by
  induction n with
  | zero =>
    refine ⟨trivial, ?_⟩
    have hself : { c' with pending := 0 } = c' := by rw [← hpending]
    exact hself.symm
  | succ n ih =>
    obtain ⟨hready, hcount⟩ := ih
    rw [List.range_succ, List.flatMap_append, List.flatMap_singleton, readyAll_append,
      count_all_append, hcount]
    exact ⟨⟨hready, ready_layer rfl hfilled⟩, count_layer⟩

theorem first_quiet {tok : Word} : ∀ o ∈ first_ops ws wl tok, o.Quiet := by
  simp [first_ops, Op.Quiet]

/-- The cache is ready for a whole step, and the step closes its token. -/
theorem ready_step {tok : Word} (hfilled : c'.filled = pos) (hpos : pos < c'.max_seq)
    (h : (0 < ws.cfg.num_layers ∧ c'.pending = 0 ∧ c'.num_layers = ws.cfg.num_layers) ∨
      (ws.cfg.num_layers = 0 ∧ 0 < c'.pending ∧ c'.pending = c'.num_layers)) :
    ReadyAll pos c' (step_ops host ws wl c tok pos) ∧
      count_all c' (step_ops host ws wl c tok pos) = { c' with filled := pos + 1, pending := 0 } := by
  have hlast : ∀ d : KvCache, 0 < d.pending → d.pending = d.num_layers → d.filled < d.max_seq →
      ReadyAll pos d (last_ops host ws wl) ∧
        count_all d (last_ops host ws wl) = { d with filled := d.filled + 1, pending := 0 } :=
    fun d h1 h2 h3 => ⟨⟨trivial, trivial, trivial, ⟨h1, h2, h3⟩, trivial⟩, rfl⟩
  unfold step_ops
  rw [readyAll_append, readyAll_append]
  simp only [count_all_append, count_all_quiet first_quiet]
  rcases h with ⟨hn, hpending, hlayers⟩ | ⟨hn, hpending, hlayers⟩
  · obtain ⟨hready, hcount⟩ := ready_layers host ws wl c hpending hfilled ws.cfg.num_layers
    obtain ⟨h1, h2⟩ := hlast { c' with pending := ws.cfg.num_layers } hn hlayers.symm
      (by simp only; omega)
    rw [hcount, h2]
    exact ⟨⟨⟨readyAll_quiet first_quiet, hready⟩, h1⟩, by simp only [hfilled]⟩
  · obtain ⟨h1, h2⟩ := hlast c' hpending hlayers (by omega)
    rw [hn]
    refine ⟨⟨⟨readyAll_quiet first_quiet, trivial⟩, h1⟩, ?_⟩
    rw [← hfilled]
    exact h2

theorem cost_layer : cost_all (layer_ops host ws wl c pos layer) = 23 := by
  simp only [layer_ops, qkv_ops, attention_ops, ffn_ops, rmsnorm_op, gemm_op, add_op, rope_op,
    cost_all_append]
  rfl

theorem cost_layers (n : Nat) :
    cost_all ((List.range n).flatMap (layer_ops host ws wl c pos)) = 23 * n := by
  induction n with
  | zero => rfl
  | succ n ih =>
    rw [List.range_succ, List.flatMap_append, List.flatMap_singleton, cost_all_append, ih, cost_layer]
    ring

/-- The calls of a step that the host can refuse: one for the embedding, 23 for each layer, and
three for the token that comes out. -/
theorem cost_step {tok : Word} :
    cost_all (step_ops host ws wl c tok pos) = 1 + 23 * ws.cfg.num_layers + 3 := by
  unfold step_ops
  rw [cost_all_append, cost_all_append, cost_layers]
  rfl

end

/-! ## Actions one after the other -/

variable {env : Env} {ws : Workspace} {wl : WeightLoader} {c : KvCache} {pos layer : Nat} {st : Run}

theorem seq_append (as bs : List Action) (st : Run) : seq (as ++ bs) st =
    (seq as st).bind fun r => if r.1 ≠ TRANSFORMER_OK then some r else seq bs r.2 := by
  induction as generalizing st with
  | nil => rfl
  | cons a as ih =>
    rw [List.cons_append, seq, seq, Option.bind_assoc]
    congr 1
    funext r
    obtain ⟨rc, st⟩ := r
    by_cases hrc : rc ≠ TRANSFORMER_OK
    · simp only [if_pos hrc, Option.bind_some]
    · simp only [if_neg hrc]
      exact ih st

/-- The same cache, but for its counters. -/
def SamePlace (c : KvCache) (st : Run) : Prop := st.kv.place = c.place

theorem SamePlace.num_layers {c : KvCache} {st : Run} (h : SamePlace c st) :
    st.kv.num_layers = c.num_layers :=
  have hplace : st.kv.place.num_layers = c.place.num_layers := congrArg KvCache.num_layers h
  hplace

theorem SamePlace.max_seq {c : KvCache} {st : Run} (h : SamePlace c st) :
    st.kv.max_seq = c.max_seq :=
  have hplace : st.kv.place.max_seq = c.place.max_seq := congrArg KvCache.max_seq h
  hplace

/-- Actions that do the same while the cache keeps its place do the same in a row. -/
theorem seq_congr {as bs : List Action}
    (h : List.Forall₂ (fun a b => ∀ st, SamePlace c st → a st = b st ∧
      ∀ r, b st = some r → SamePlace c r.2) as bs) (hst : SamePlace c st) :
    seq as st = seq bs st := by
  induction h generalizing st with
  | nil => rfl
  | @cons a b as bs hab _ ih =>
    obtain ⟨heq, hkeep⟩ := hab st hst
    rw [seq, seq, heq]
    cases hb : b st with
    | none => rfl
    | some r =>
      simp only [Option.bind_some]
      split
      · rfl
      · exact ih (hkeep r hb)

/-! ## The cache keeps its place -/

theorem op_kv {k : Kernel} {args : List Nat} {grid : Nat} {r : Int × Run}
    (h : op env ws k args grid st = some r) : r.2.kv = st.kv := by
  unfold op launch_op at h
  simp only at h
  split at h
  · cases h
    rfl
  · obtain ⟨q, -, rfl⟩ := Option.map_eq_some_iff.mp h
    rfl

/-- What `kv_append_from_device` does to the cache. -/
theorem append_kv {K V : Nat} {r : Int × Run}
    (h : kv_append_from_device env ws layer pos K V st = some r) :
    (r.1 ≠ TRANSFORMER_OK ∧ r.2.kv = st.kv) ∨
      (r.1 = TRANSFORMER_OK ∧ st.kv.filled < st.kv.max_seq ∧ layer < st.kv.num_layers ∧
        layer = st.kv.pending ∧ r.2.kv = { st.kv with pending := st.kv.pending + 1 }) := by
  unfold kv_append_from_device at h
  obtain ⟨p, -, h⟩ := Option.bind_eq_some_iff.mp h
  simp only at h
  split at h
  · cases h
  split at h
  · cases h
    exact .inl ⟨(by decide : TRANSFORMER_ERR_ALLOC ≠ TRANSFORMER_OK), rfl⟩
  split at h
  · cases h
    exact .inl ⟨(by decide : TRANSFORMER_ERR_IO ≠ TRANSFORMER_OK), rfl⟩
  obtain ⟨⟨rc, ctx, kv⟩, happ, rfl⟩ := Option.map_eq_some_iff.mp h
  by_cases hok : st.kv.filled < st.kv.max_seq ∧ st.kv.pending < st.kv.num_layers ∧
      layer = st.kv.pending
  · obtain ⟨h1, h2, rfl⟩ := hok
    unfold kv_cache_append_layer at happ
    rw [if_neg (by omega), if_neg (by omega), if_neg (by simp)] at happ
    obtain ⟨Kb, -, happ⟩ := Option.bind_eq_some_iff.mp happ
    obtain ⟨Vb, -, happ⟩ := Option.bind_eq_some_iff.mp happ
    simp only at happ
    split at happ
    · rename_i hneg
      cases happ
      refine .inl ⟨?_, rfl⟩
      simp only
      rw [if_pos (by omega)]
      decide
    · cases happ
      exact .inr ⟨rfl, h1, h2, rfl, rfl⟩
  · obtain ⟨rc', hcode, hne⟩ := append_refused st.ctx _ _ hok
    obtain ⟨rfl, -, rfl⟩ : rc = rc' ∧ ctx = st.ctx ∧ kv = st.kv := by
      simpa using happ.symm.trans hcode
    refine .inl ⟨?_, rfl⟩
    simp only
    rw [if_pos hne]
    decide

/-- What `commit_token` does to the cache. -/
theorem commit_kv {r : Int × Run} (h : commit_token st = some r) :
    (r.1 ≠ TRANSFORMER_OK ∧ r.2.kv = st.kv) ∨
      (r.1 = TRANSFORMER_OK ∧ 0 < st.kv.pending ∧ st.kv.pending = st.kv.num_layers ∧
        r.2.kv = { st.kv with pending := 0, filled := st.kv.filled + 1 }) := by
  unfold commit_token at h
  obtain ⟨⟨rc, kv⟩, hcode, rfl⟩ := Option.map_eq_some_iff.mp h
  unfold kv_cache_commit_token at hcode
  split at hcode
  · cases hcode
    exact .inl ⟨(by decide : TRANSFORMER_ERR_CACHE ≠ TRANSFORMER_OK), rfl⟩
  split at hcode
  · cases hcode
    exact .inl ⟨(by decide : TRANSFORMER_ERR_CACHE ≠ TRANSFORMER_OK), rfl⟩
  rename_i hpos heq
  split at hcode
  · cases hcode
    exact .inr ⟨rfl, by omega, by omega, rfl⟩
  · cases hcode

theorem Op.act_place {o : Op} {r : Int × Run} (hst : SamePlace c st)
    (h : o.act env ws pos st = some r) : SamePlace c r.2 := by
  unfold SamePlace at hst ⊢
  rw [← hst]
  cases o with
  | token tok =>
    unfold Op.act write_token at h
    cases h
    rfl
  | launch k args grid => rw [op_kv h]
  | append layer =>
    rcases append_kv h with ⟨-, heq⟩ | ⟨-, -, -, -, heq⟩
    · rw [heq]
    · rw [heq]
      rfl
  | commit =>
    rcases commit_kv h with ⟨-, heq⟩ | ⟨-, -, -, heq⟩
    · rw [heq]
    · rw [heq]
      rfl

/-! ## A step is its operations -/

theorem with_tensor_eq {f : Nat → Action} (hl : layer < WL_NUM_LAYERS) (t : Tensor) :
    with_tensor wl layer t f = f (tensor_addr wl layer t) := by
  funext st
  unfold with_tensor weight_loader_layer
  rw [if_pos hl]
  rfl

/-- An operation stands for an action that does the same while the cache keeps its
place. -/
def StandsFor (env : Env) (ws : Workspace) (c : KvCache) (pos : Nat) (a : Action) (o : Op) : Prop :=
  ∀ st, SamePlace c st → a st = o.act env ws pos st

theorem seq_standsFor {as : List Action} {ops : List Op}
    (h : List.Forall₂ (StandsFor env ws c pos) as ops) (hst : SamePlace c st) :
    seq as st = run_ops env ws pos ops st := by
  apply seq_congr (c := c) _ hst
  rw [List.forall₂_map_right_iff]
  exact h.imp fun a o hao st hst => ⟨hao st hst, fun r hr => Op.act_place hst hr⟩

theorem layer_off_place (hst : SamePlace c st) (layer : Nat) :
    layer_off st.kv st.kv.K_dev_off layer = layer_off c c.K_dev_off layer ∧
      layer_off st.kv st.kv.V_dev_off layer = layer_off c c.V_dev_off layer ∧
      st.kv.num_layers = c.num_layers := by
  unfold SamePlace KvCache.place at hst
  simp only [KvCache.mk.injEq] at hst
  obtain ⟨h1, h2, h3, h4, h5, h6, -⟩ := hst
  unfold layer_off
  rw [h1, h2, h3, h4, h5, h6]
  exact ⟨rfl, rfl, rfl⟩

theorem vmul_standsFor (hI : ws.cfg.intermediate % 32 = 0) (a b d : Nat) :
    StandsFor env ws c pos (op_vmul env ws a b d ws.cfg.intermediate)
      (.launch .vmul [a, b, d, ws.cfg.intermediate] 1) :=
  fun _ _ => if_neg (by simp [hI])

theorem qkv_standsFor (hl : layer < WL_NUM_LAYERS) :
    List.Forall₂ (StandsFor env ws c pos) (qkv_actions env ws wl layer pos)
      (qkv_ops env.host ws wl layer pos) := by
  unfold qkv_actions
  simp only [with_tensor_eq hl]
  repeat (refine .cons (fun _ _ => rfl) ?_)
  exact .nil

/-- What the divisions and assertions of a layer need. -/
structure Sized (cfg : Config) : Prop where
  kv_heads : cfg.num_kv_heads ≠ 0
  blocks : cfg.intermediate % 32 = 0

/-- The addresses in the cache are those of its place. -/
theorem attend_standsFor (hc : layer < c.num_layers) (hkv : ws.cfg.num_kv_heads ≠ 0) :
    List.Forall₂ (StandsFor env ws c pos) (attend_actions env ws layer pos)
      (.append layer :: attention_ops env.host ws c layer pos) := by
  refine .cons (fun _ _ => rfl) <| .cons (fun st hst => ?_) <| .cons (fun _ _ => rfl) <|
    .cons (fun st hst => ?_) .nil
  · obtain ⟨hK, -, hn⟩ := layer_off_place hst layer
    simp only [kv_cache_K_off]
    rw [if_pos (by omega), hK]
    exact if_neg hkv
  · obtain ⟨-, hV, hn⟩ := layer_off_place hst layer
    simp only [kv_cache_V_off]
    rw [if_pos (by omega), hV]
    exact if_neg hkv

theorem ffn_standsFor (hl : layer < WL_NUM_LAYERS) (hI : ws.cfg.intermediate % 32 = 0) :
    List.Forall₂ (StandsFor env ws c pos) (ffn_actions env ws wl layer)
      (ffn_ops env.host ws wl layer) := by
  unfold ffn_actions
  simp only [with_tensor_eq hl]
  repeat (refine .cons (fun _ _ => rfl) ?_)
  exact .cons (vmul_standsFor hI _ _ _) <| .cons (fun _ _ => rfl) <| .cons (fun _ _ => rfl) .nil

theorem layer_eq (hl : layer < WL_NUM_LAYERS) (hc : layer < c.num_layers)
    (hI : Sized ws.cfg) (hst : SamePlace c st) :
    transformer_decoder_layer env ws wl layer pos st =
      run_ops env ws pos (layer_ops env.host ws wl c pos layer) st :=
  seq_standsFor (List.rel_append (List.rel_append (qkv_standsFor hl) (attend_standsFor hc hI.kv_heads))
    (ffn_standsFor hl hI.blocks)) hst

theorem run_ops_append (ops ops' : List Op) (st : Run) : run_ops env ws pos (ops ++ ops') st =
    (run_ops env ws pos ops st).bind fun r =>
      if r.1 ≠ TRANSFORMER_OK then some r else run_ops env ws pos ops' r.2 := by
  unfold run_ops
  rw [List.map_append]
  exact seq_append ..

theorem run_ops_place {ops : List Op} {r : Int × Run} (hst : SamePlace c st)
    (h : run_ops env ws pos ops st = some r) : SamePlace c r.2 := by
  induction ops generalizing st with
  | nil =>
    cases h
    exact hst
  | cons o ops ih =>
    obtain ⟨⟨rc, st1⟩, ho, h⟩ := Option.bind_eq_some_iff.mp h
    have h1 := Op.act_place hst ho
    simp only at h
    split at h
    · cases h
      exact h1
    · exact ih h1 h

theorem layers_eq (hI : Sized ws.cfg) (hst : SamePlace c st) (ls : List Nat)
    (hls : ∀ l ∈ ls, l < WL_NUM_LAYERS ∧ l < c.num_layers) :
    seq (ls.map fun l => transformer_decoder_layer env ws wl l pos) st =
      run_ops env ws pos (ls.flatMap (layer_ops env.host ws wl c pos)) st := by
  induction ls generalizing st with
  | nil => rfl
  | cons l ls ih =>
    obtain ⟨hl, hc⟩ := hls l List.mem_cons_self
    rw [List.map_cons, List.flatMap_cons, run_ops_append, seq, layer_eq hl hc hI hst]
    cases hr : run_ops env ws pos (layer_ops env.host ws wl c pos l) st with
    | none => rfl
    | some r =>
      simp only [Option.bind_some]
      split
      · rfl
      · exact ih (run_ops_place hst hr) fun l' hl' => hls l' (List.mem_cons_of_mem _ hl')

/-- A step runs its operations. -/
theorem step_eq (hL : ws.cfg.num_layers ≤ WL_NUM_LAYERS) (hc : ws.cfg.num_layers ≤ c.num_layers)
    (hI : ws.cfg.num_layers = 0 ∨ Sized ws.cfg) (hst : SamePlace c st) (tok : Word) :
    seq (step_actions env ws wl tok pos) st =
      run_ops env ws pos (step_ops env.host ws wl c tok pos) st := by
  have hfirst : seq [write_token ws tok,
      op_embedding env ws (weight_loader_embedding wl) (ws.off .RESID_A)] =
      run_ops env ws pos (first_ops ws wl tok) := rfl
  unfold step_actions step_ops
  rw [seq_append, seq_append, run_ops_append, run_ops_append, hfirst]
  cases hr : run_ops env ws pos (first_ops ws wl tok) st with
  | none => rfl
  | some r =>
    simp only [Option.bind_some]
    split
    · rfl
    · have hplace := run_ops_place hst hr
      have hlayers : seq ((List.range ws.cfg.num_layers).map fun l =>
          transformer_decoder_layer env ws wl l pos) r.2 = run_ops env ws pos
            ((List.range ws.cfg.num_layers).flatMap (layer_ops env.host ws wl c pos)) r.2 := by
        rcases hI with h0 | hI
        · rw [h0]
          rfl
        · apply layers_eq hI hplace
          intro l hl
          have := List.mem_range.mp hl
          omega
      rw [hlayers]
      rfl

end gpgpu.transformer
