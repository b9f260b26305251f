-- From a checkpoint to the tokens. A decoder that reads the tensors of the checkpoint as they
-- are computes the tokens that the driver writes when it runs on the files of the dump tool.
import Gpgpu.DumpLaws
import Gpgpu.GreedyLaws

open memory words strided decimal

namespace gpgpu.dump

open weights kernels desk transformer reference

/-! ## The decoder on a checkpoint -/

/-- The tensors of a checkpoint whose head is tied to the embedding. -/
structure Tensors (α : Type) where
  embed_tokens : View α
  norm : View α
  layer : Nat → Tensor → View α

variable {α : Type}

def Tensors.checkpoint (Q : Tensors α) : Checkpoint α
  | .embed_tokens => some Q.embed_tokens
  | .lm_head => none
  | .norm => some Q.norm
  | .layer l t => some (Q.layer l t)

section

variable (fpu : Fpu) (cast : α → Word) (host : Libm) (Q : Tensors α)

/-- The elements of a vector. -/
def vector (W : View α) (n : Nat) : List Word := (List.range n).map fun i => cast (W.elem [i])

/-- A row of a matrix. -/
def row (W : View α) (i n : Nat) : List Word := (List.range n).map fun d => cast (W.elem [i, d])

/-- A linear map with `N` outputs: output `n` is the product with row `n` of its weight. -/
def linear (W : View α) (K N : Nat) (x : List Word) : List Word :=
  (List.range N).map fun n =>
    (List.range K).foldl (fun acc k => fpu.fmadd (x.getD k 0) (cast (W.elem [n, k])) acc) 0

/-- What the decoder has beside the tensors: the table of the rotations and three numbers. -/
def constants (host : Libm) : Model where
  embedding := []
  lm_head := []
  final_norm := []
  tensor _ _ := []
  sincos := sincos_table host transformer_default_config.rope_theta 128 64
  inv_d := host.div ONE (host.ofNat 896)
  eps := transformer_default_config.rms_norm_eps
  scale := host.div ONE (host.sqrtf (host.ofNat 64))

namespace Tensors

def normed (W : View α) (x : List Word) : List Word :=
  reference.normed fpu (constants host) (vector cast W HIDDEN_SIZE) x

def query (l p : Nat) (x : List Word) : List Word :=
  let n := normed fpu cast host (Q.layer l .input_norm) x
  rotate fpu transformer_default_config (constants host) transformer_default_config.num_q_heads p
    (plus fpu HIDDEN_SIZE (linear fpu cast (Q.layer l .q_proj_w) HIDDEN_SIZE HIDDEN_SIZE n)
      (vector cast (Q.layer l .q_proj_b) HIDDEN_SIZE))

def key (l p : Nat) (x : List Word) : List Word :=
  let n := normed fpu cast host (Q.layer l .input_norm) x
  rotate fpu transformer_default_config (constants host) NUM_KV_HEADS p
    (plus fpu KV_DIM (linear fpu cast (Q.layer l .k_proj_w) HIDDEN_SIZE KV_DIM n)
      (vector cast (Q.layer l .k_proj_b) KV_DIM))

def value (l : Nat) (x : List Word) : List Word :=
  let n := normed fpu cast host (Q.layer l .input_norm) x
  plus fpu KV_DIM (linear fpu cast (Q.layer l .v_proj_w) HIDDEN_SIZE KV_DIM n)
    (vector cast (Q.layer l .v_proj_b) KV_DIM)

def finish (l : Nat) (x a : List Word) : List Word :=
  let r := plus fpu HIDDEN_SIZE x (linear fpu cast (Q.layer l .o_proj_w) HIDDEN_SIZE HIDDEN_SIZE a)
  let n := normed fpu cast host (Q.layer l .post_norm) r
  let gate := silu fpu INTERMEDIATE (linear fpu cast (Q.layer l .gate_proj_w) HIDDEN_SIZE INTERMEDIATE n)
  let up := linear fpu cast (Q.layer l .up_proj_w) HIDDEN_SIZE INTERMEDIATE n
  let down := linear fpu cast (Q.layer l .down_proj_w) INTERMEDIATE HIDDEN_SIZE
    (vmul fpu INTERMEDIATE gate up)
  plus fpu HIDDEN_SIZE r down

/-- A layer on all positions. Position `p` sees the positions up to `p`. -/
def block (l : Nat) (X : List (List Word)) : List (List Word) :=
  X.mapIdx fun p x =>
    finish fpu cast host Q l x (attention fpu transformer_default_config (constants host)
      (query fpu cast host Q l p x)
      ((X.take (p + 1)).mapIdx fun q y => key fpu cast host Q l q y)
      ((X.take (p + 1)).map (value fpu cast host Q l)))

/-- What comes into layer `l`, at every position. -/
def hidden : Nat → List Nat → List (List Word)
  | 0, toks => toks.map fun tok => row cast Q.embed_tokens tok HIDDEN_SIZE
  | l + 1, toks => block fpu cast host Q l (hidden l toks)

/-- The token that follows. The head is the embedding once more. -/
def token (toks : List Nat) : Nat :=
  let x := (hidden fpu cast host Q NUM_LAYERS toks).getLastD []
  (argmax fpu VOCAB_SIZE
    (linear fpu cast Q.embed_tokens HIDDEN_SIZE VOCAB_SIZE (normed fpu cast host Q.norm x))).toNat

end Tensors

end

/-! ## A model that describes a checkpoint -/

section

variable {fpu : Fpu} {cast : α → Word} {host : Libm} {Q : Tensors α} {M : Model} {files files' : Files}

/-- The words of the model are the elements of the checkpoint, as the decoder uses them. -/
structure Describes (fpu : Fpu) (cast : α → Word) (host : Libm) (Q : Tensors α) (M : Model) : Prop where
  vector : ∀ l < NUM_LAYERS, ∀ t, matrix t = none →
    M.tensor l t = dump.vector cast (Q.layer l t) (TENSOR_TABLE t).n_floats
  linear : ∀ l < NUM_LAYERS, ∀ t K N, matrix t = some (K, N) → ∀ x,
    times fpu K N x (M.tensor l t) = dump.linear fpu cast (Q.layer l t) K N x
  embed : ∀ tok < VOCAB_SIZE, embed transformer_default_config M tok = row cast Q.embed_tokens tok HIDDEN_SIZE
  head : ∀ x, times fpu HIDDEN_SIZE VOCAB_SIZE x M.lm_head =
    dump.linear fpu cast Q.embed_tokens HIDDEN_SIZE VOCAB_SIZE x
  norm : M.final_norm = dump.vector cast Q.norm HIDDEN_SIZE
  sincos : M.sincos = (constants host).sincos
  inv_d : M.inv_d = (constants host).inv_d
  eps : M.eps = (constants host).eps
  scale : M.scale = (constants host).scale

namespace Describes

variable {l : Nat}

theorem normed_eq (h : Describes fpu cast host Q M) {W : List Word} {V : View α}
    (hW : W = dump.vector cast V HIDDEN_SIZE) (x : List Word) :
    reference.normed fpu M W x = Tensors.normed fpu cast host V x := by
  unfold Tensors.normed reference.normed
  rw [hW, h.inv_d, h.eps]

theorem rotate_eq (h : Describes fpu cast host Q M) (heads p : Nat) (x : List Word) :
    rotate fpu transformer_default_config M heads p x =
      rotate fpu transformer_default_config (constants host) heads p x := by
  unfold rotate
  rw [h.sincos]

theorem query_eq (h : Describes fpu cast host Q M) (hl : l < NUM_LAYERS) (p : Nat) (x : List Word) :
    query fpu transformer_default_config M l p x = Q.query fpu cast host l p x := by
  have hw : ∀ n, times fpu transformer_default_config.D transformer_default_config.D n
    (M.tensor l .q_proj_w) = dump.linear fpu cast (Q.layer l .q_proj_w) HIDDEN_SIZE HIDDEN_SIZE n :=
    h.linear l hl .q_proj_w _ _ rfl
  have hb : M.tensor l .q_proj_b = dump.vector cast (Q.layer l .q_proj_b) HIDDEN_SIZE :=
    h.vector l hl .q_proj_b rfl
  unfold query Tensors.query
  simp only [h.rotate_eq, hw, hb, h.normed_eq (h.vector l hl .input_norm rfl)]
  rfl

theorem key_eq (h : Describes fpu cast host Q M) (hl : l < NUM_LAYERS) (p : Nat) (x : List Word) :
    key fpu transformer_default_config M l p x = Q.key fpu cast host l p x := by
  have hw : ∀ n, times fpu transformer_default_config.D (kvDim transformer_default_config) n
    (M.tensor l .k_proj_w) = dump.linear fpu cast (Q.layer l .k_proj_w) HIDDEN_SIZE KV_DIM n :=
    h.linear l hl .k_proj_w _ _ rfl
  have hb : M.tensor l .k_proj_b = dump.vector cast (Q.layer l .k_proj_b) KV_DIM :=
    h.vector l hl .k_proj_b rfl
  unfold key Tensors.key
  simp only [h.rotate_eq, hw, hb, h.normed_eq (h.vector l hl .input_norm rfl)]
  rfl

theorem value_eq (h : Describes fpu cast host Q M) (hl : l < NUM_LAYERS) (x : List Word) :
    reference.value fpu transformer_default_config M l x = Q.value fpu cast host l x := by
  have hw : ∀ n, times fpu transformer_default_config.D (kvDim transformer_default_config) n
    (M.tensor l .v_proj_w) = dump.linear fpu cast (Q.layer l .v_proj_w) HIDDEN_SIZE KV_DIM n :=
    h.linear l hl .v_proj_w _ _ rfl
  have hb : M.tensor l .v_proj_b = dump.vector cast (Q.layer l .v_proj_b) KV_DIM :=
    h.vector l hl .v_proj_b rfl
  unfold reference.value Tensors.value
  simp only [hw, hb, h.normed_eq (h.vector l hl .input_norm rfl)]
  rfl

theorem finish_eq (h : Describes fpu cast host Q M) (hl : l < NUM_LAYERS) (x a : List Word) :
    finish fpu transformer_default_config M l x a = Q.finish fpu cast host l x a := by
  have ho : ∀ n, times fpu transformer_default_config.D transformer_default_config.D n
    (M.tensor l .o_proj_w) = dump.linear fpu cast (Q.layer l .o_proj_w) HIDDEN_SIZE HIDDEN_SIZE n :=
    h.linear l hl .o_proj_w _ _ rfl
  have hgate : ∀ n, times fpu transformer_default_config.D transformer_default_config.intermediate n
    (M.tensor l .gate_proj_w) = dump.linear fpu cast (Q.layer l .gate_proj_w) HIDDEN_SIZE INTERMEDIATE n :=
    h.linear l hl .gate_proj_w _ _ rfl
  have hup : ∀ n, times fpu transformer_default_config.D transformer_default_config.intermediate n
    (M.tensor l .up_proj_w) = dump.linear fpu cast (Q.layer l .up_proj_w) HIDDEN_SIZE INTERMEDIATE n :=
    h.linear l hl .up_proj_w _ _ rfl
  have hdown : ∀ n, times fpu transformer_default_config.intermediate transformer_default_config.D n
    (M.tensor l .down_proj_w) = dump.linear fpu cast (Q.layer l .down_proj_w) INTERMEDIATE HIDDEN_SIZE n :=
    h.linear l hl .down_proj_w _ _ rfl
  unfold finish Tensors.finish
  simp only [ho, hgate, hup, hdown, h.normed_eq (h.vector l hl .post_norm rfl)]
  rfl

theorem attention_eq (h : Describes fpu cast host Q M) (q : List Word) (ks vs : List (List Word)) :
    attention fpu transformer_default_config M q ks vs =
      attention fpu transformer_default_config (constants host) q ks vs := by
  unfold attention attends
  rw [h.scale]

theorem layer_eq (h : Describes fpu cast host Q M) (hl : l < NUM_LAYERS) (X : List (List Word)) :
    layer fpu transformer_default_config M l X = Q.block fpu cast host l X := by
  have hvalues : ∀ Y : List (List Word), Y.map (reference.value fpu transformer_default_config M l) =
      Y.map (Q.value fpu cast host l) := fun Y => List.map_congr_left fun y _ => h.value_eq hl y
  unfold layer Tensors.block block keys values
  simp only [h.query_eq hl, h.key_eq hl, h.finish_eq hl, h.attention_eq, hvalues]

theorem hidden_eq (h : Describes fpu cast host Q M) {toks : List Nat} (htoks : ∀ t ∈ toks, t < VOCAB_SIZE)
    {n : Nat} (hn : n ≤ NUM_LAYERS) :
    reference.hidden fpu transformer_default_config M n toks = Q.hidden fpu cast host n toks := by
  induction n with
  | zero => exact List.map_congr_left fun tok htok => h.embed tok (htoks tok htok)
  | succ n ih =>
    rw [reference.hidden, Tensors.hidden, ih (by omega)]
    exact h.layer_eq (by omega) _

/-- The two decoders compute one token. -/
theorem token_eq (h : Describes fpu cast host Q M) {toks : List Nat}
    (htoks : ∀ t ∈ toks, t < VOCAB_SIZE) :
    (reference_token fpu transformer_default_config M toks).toNat = Q.token fpu cast host toks := by
  have hhead : ∀ x, times fpu transformer_default_config.D transformer_default_config.vocab_size x
    M.lm_head = dump.linear fpu cast Q.embed_tokens HIDDEN_SIZE VOCAB_SIZE x := h.head
  have hlayers : transformer_default_config.num_layers = NUM_LAYERS := rfl
  unfold reference_token next Tensors.token
  rw [hlayers, h.hidden_eq htoks (Nat.le_refl _), hhead, h.normed_eq h.norm]
  rfl

end Describes

/-! ## The files of the tool -/

theorem fileBytes_eq {f : WeightFile} {file : FileData} (h : files f = some file) :
    fileBytes files f = file.data := by
  funext i
  simp only [fileBytes, h]

/-- The words of a file that was written in one piece. -/
theorem fileBytes_fileOf {f : WeightFile} {ws : List Word} {n i : Nat} (h : files f = some (fileOf ws))
    (hlen : ws.length = n) (hi : i < 4 * n) : fileBytes files f (0 + i) = bytesOf ws i := by
  rw [fileBytes_eq h]
  exact fileOf_data hlen hi

theorem modelOf_embedding (host : Libm) (files : Files) : (modelOf host files).embedding =
    vec (word (fileBytes files .embedding)) 0 (VOCAB_SIZE * HIDDEN_SIZE) := by
  have hsize : WL_VOCAB_SIZE * WL_HIDDEN_SIZE = VOCAB_SIZE * HIDDEN_SIZE := rfl
  simp only [modelOf, fileWords, hsize]

theorem modelOf_lm_head (host : Libm) (files : Files) : (modelOf host files).lm_head =
    vec (word (fileBytes files .lm_head)) 0 (HIDDEN_SIZE * VOCAB_SIZE) := by
  have hsize : WL_HIDDEN_SIZE * WL_VOCAB_SIZE = HIDDEN_SIZE * VOCAB_SIZE := rfl
  simp only [modelOf, fileWords, hsize]

theorem modelOf_final_norm (host : Libm) (files : Files) : (modelOf host files).final_norm =
    vec (word (fileBytes files .final_norm)) 0 HIDDEN_SIZE := by
  have hsize : WL_HIDDEN_SIZE = HIDDEN_SIZE := rfl
  simp only [modelOf, fileWords, hsize]

/-- What the dump of a checkpoint leaves describes the checkpoint. -/
theorem dump_describes (fpu : Fpu) (cast : α → Word) (host : Libm) (hQ : Shaped Q.checkpoint)
    (files : Files) : ∃ files', main cast Q.checkpoint false files = (none, files') ∧
      Describes fpu cast host Q (modelOf host files') := by
  obtain ⟨E, hE, hEshape⟩ := hQ.embed_tokens
  obtain ⟨G, hG, hGshape⟩ := hQ.norm
  obtain rfl : Q.embed_tokens = E := Option.some.inj hE
  obtain rfl : Q.norm = G := Option.some.inj hG
  obtain ⟨files', hcode, hlayers, hemb, hhead, hnorm⟩ := main_ok cast hQ hE hEshape hG hGshape files
  have hElen : (Q.embed_tokens.toList.map cast).length = VOCAB_SIZE * HIDDEN_SIZE := by
    simp [hEshape]
  have hTlen : (Q.embed_tokens.transpose.toList.map cast).length = HIDDEN_SIZE * VOCAB_SIZE := by
    simp [View.shape_transpose hEshape]
  have hGlen : (Q.norm.toList.map cast).length = HIDDEN_SIZE := by
    simp [hGshape]
  -- The tensors of a layer, as the loader and the kernels read them.
  have hreads : ∀ l < NUM_LAYERS, ∀ t, Reads cast (fileBytes files' (.layer l)) t (Q.layer l t) := by
    intro l hl t
    obtain ⟨file, hfile, -, hpacked⟩ := hlayers l hl
    obtain ⟨W, hW, hshape⟩ := hQ.layer l hl t
    obtain rfl : Q.layer l t = W := Option.some.inj hW
    rw [fileBytes_eq hfile]
    exact hpacked.reads hW hshape
  refine ⟨files', hcode, fun l hl t ht => ?_, fun l hl t K N ht x => ?_, fun tok htok => ?_,
    fun x => ?_, ?_, rfl, rfl, rfl, rfl⟩
  · have hread := hreads l hl t
    simp only [Reads, ht] at hread
    exact List.map_congr_left fun i hi => hread i (List.mem_range.mp hi)
  · have hread := hreads l hl t
    simp only [Reads, ht] at hread
    obtain ⟨hfloats, -, hgemm⟩ := hread
    have hmul := hgemm fpu x
    rw [← hfloats] at hmul
    exact hmul
  · have hfit : tok * HIDDEN_SIZE + HIDDEN_SIZE ≤ VOCAB_SIZE * HIDDEN_SIZE := by nlinarith
    have hrow := vec_stretch (word (fileBytes files' .embedding)) (a := 0) hfit
    have hD : transformer_default_config.D = HIDDEN_SIZE := rfl
    rw [reference.embed, stretch, modelOf_embedding, hD, hrow]
    refine List.map_congr_left fun d hd => ?_
    have hword := word_of_rows hEshape (fun i hi => fileBytes_fileOf hemb hElen hi) htok
      (List.mem_range.mp hd)
    rw [← hword]
    congr 1
    omega
  · rw [modelOf_lm_head]
    exact gemm_of_words (fun k hk n hn => word_of_matrix hEshape
      (fun i hi => fileBytes_fileOf hhead hTlen hi) hk hn) fpu x
  · rw [modelOf_final_norm]
    exact List.map_congr_left fun i hi => word_of_vector hGshape
      (fun i hi => fileBytes_fileOf hnorm hGlen hi) (List.mem_range.mp hi)

/-! ## Zeros -/

/-- Tensors of zeros, in the shapes that the tool asks for. -/
def zeroTensors : Tensors Word :=
  let zeros := fun shape : List Nat =>
    (⟨shape, rowMajor shape, fun _ => 0, rowMajor_length shape⟩ : View Word)
  ⟨zeros [VOCAB_SIZE, HIDDEN_SIZE], zeros [HIDDEN_SIZE], fun _ t => zeros (checkpoint_shape t)⟩

theorem zeroTensors_shaped : Shaped zeroTensors.checkpoint :=
  ⟨⟨_, rfl, rfl⟩, rfl, fun _ _ _ => ⟨_, rfl, rfl⟩, ⟨_, rfl, rfl⟩⟩

/-- A view whose storage is zero has only zeros, also the other way round. -/
theorem zeros_of_storage {W : View Word} (h : ∀ i, W.storage i = 0) :
    (∀ w ∈ W.toList.map id, w = 0) ∧ ∀ w ∈ W.transpose.toList.map id, w = 0 := by
  have hlist : ∀ V : View Word, (∀ i, V.storage i = 0) → ∀ w ∈ V.toList.map id, w = 0 := by
    intro V hV w hw
    rw [List.map_id, View.toList, List.mem_map] at hw
    obtain ⟨i, -, rfl⟩ := hw
    exact hV _
  exact ⟨hlist W h, hlist W.transpose h⟩

theorem bytesOf_zeros {ws : List Word} (h : ∀ w ∈ ws, w = 0) (i : Nat) : bytesOf ws i = 0 := by
  have hget : ws.getD (i / 4) 0 = 0 := by
    rw [List.getD_eq_getElem?_getD]
    cases hg : ws[i / 4]? with
    | none => rfl
    | some w => exact h w (List.mem_of_getElem? hg)
  unfold bytesOf
  rw [hget, UInt32.toNat_zero, Nat.zero_div]
  rfl

theorem bytesList_zeros {ws : List Word} (h : ∀ w ∈ ws, w = 0) (i : Nat) : (bytesList ws).getD i 0 = 0 := by
  by_cases hi : i < 4 * ws.length
  · rw [bytesList_getD ws hi, bytesOf_zeros h]
  · rw [List.getD_eq_default _ _ (by rw [bytesList_length]; omega)]

/-- A file of zeros in its full size is there already. -/
theorem write_zeros {f : WeightFile} {bytes : List UInt8} (hlen : bytes.length = expected_bytes f)
    (hzero : ∀ i, bytes.getD i 0 = 0) : write zeroFiles f bytes = zeroFiles := by
  have hfile : some (⟨bytes.length, fun i => bytes.getD i 0⟩ : FileData) = zeroFiles f := by
    simp only [zeroFiles, hlen, hzero]
  unfold write
  rw [hfile, Function.update_eq_self]

theorem dump_zero_layers {ls : List Nat} :
    dump_layers id zeroTensors.checkpoint false ls zeroFiles = (none, zeroFiles) := by
  induction ls with
  | nil => rfl
  | cons l ls ih =>
    have hnew : (List.replicate LAYER_BYTES (0 : UInt8)).length = WL_LAYER_BYTES :=
      List.length_replicate
    have hshaped : LayerShaped zeroTensors.checkpoint l := fun _ => ⟨_, rfl, rfl⟩
    obtain ⟨buf, hcode, hlen, hpacked, -⟩ := fill_slots_ok id (by decide : layer_tensors.Nodup) hshaped hnew
    have hzero : ∀ x, buf.getD x 0 = 0 := by
      intro x
      by_cases hx : x < WL_LAYER_BYTES
      · obtain ⟨slot, hslot, hin⟩ := tiles_layer.covers ⟨Nat.zero_le x, hx⟩
        rw [LAYER_OFFSETS_eq, List.mem_map] at hslot
        obtain ⟨t, ht, rfl⟩ := hslot
        rw [slotFor_bytes] at hin
        have hoff : (slotFor t).offset = (TENSOR_TABLE t).offset := rfl
        rw [hoff] at hin
        obtain ⟨i, rfl⟩ := Nat.exists_eq_add_of_le hin.1
        refine (hpacked t ht _ rfl i (by omega)).trans (bytesOf_zeros ?_ i)
        unfold fileOrder
        have hboth := zeros_of_storage (W := zeroTensors.layer l t) fun _ => rfl
        split
        · exact hboth.2
        · exact hboth.1
      · exact List.getD_eq_default _ _ (by omega)
    rw [dump_layers, LAYER_OFFSETS_eq, hcode]
    simp only [Bool.false_eq_true, if_false]
    rw [write_zeros (f := .layer l) hlen hzero]
    exact ih

/-- A dump of what the files hold already leaves them as they are. -/
theorem main_again {ckpt : Checkpoint α} {E G : View α} (htied : ckpt .lm_head = none)
    (hE : ckpt .embed_tokens = some E) (hEshape : E.shape = [VOCAB_SIZE, HIDDEN_SIZE])
    (hG : ckpt .norm = some G) (hGshape : G.shape = [HIDDEN_SIZE])
    (hemb : write files .embedding (bytesList (E.toList.map cast)) = files)
    (hhead : write files .lm_head (bytesList (E.transpose.toList.map cast)) = files)
    (hlayers : dump_layers cast ckpt false (List.range NUM_LAYERS) files = (none, files))
    (hnorm : write files .final_norm (bytesList (G.toList.map cast)) = files) :
    main cast ckpt false files = (none, files) := by
  unfold main
  rw [load_checked_ok hE hEshape]
  simp only [dump_tables_ok htied, hemb, hhead, hlayers, load_checked_ok hG hGshape,
    tensor_to_fp32_bytes_eq, hnorm, ite_self]

/-- The dump of zeros writes files of zeros. -/
theorem dump_zeros : main id zeroTensors.checkpoint false zeroFiles = (none, zeroFiles) := by
  have hemb := zeros_of_storage (W := zeroTensors.embed_tokens) fun _ => rfl
  have hnorm := zeros_of_storage (W := zeroTensors.norm) fun _ => rfl
  have hE : zeroTensors.embed_tokens.shape = [VOCAB_SIZE, HIDDEN_SIZE] := rfl
  have hG : zeroTensors.norm.shape = [HIDDEN_SIZE] := rfl
  have hElen : (bytesList (zeroTensors.embed_tokens.toList.map id)).length = expected_bytes .embedding := by
    rw [bytesList_length, List.length_map, View.toList_length, hE, List.prod_cons, List.prod_singleton]
    decide
  have hTlen : (bytesList (zeroTensors.embed_tokens.transpose.toList.map id)).length =
      expected_bytes .lm_head := by
    rw [bytesList_length, List.length_map, View.toList_length, View.shape_transpose hE, List.prod_cons,
      List.prod_singleton]
    decide
  have hGlen : (bytesList (zeroTensors.norm.toList.map id)).length = expected_bytes .final_norm := by
    rw [bytesList_length, List.length_map, View.toList_length, hG, List.prod_singleton]
    decide
  exact main_again rfl rfl hE rfl hG (write_zeros hElen (bytesList_zeros hemb.1))
    (write_zeros hTlen (bytesList_zeros hemb.2)) dump_zero_layers
    (write_zeros hGlen (bytesList_zeros hnorm.1))

end

end gpgpu.dump

/-! ## From the checkpoint to the tokens -/

namespace gpgpu.infer_tokens

open buddy context kernels device kv weights transformer reference desk dump

/-- Two decoders that agree on ids go on in the same way, as long as they feed ids back. -/
theorem greedy_congr {f g : List Nat → Nat} {P : Nat → Prop} (eos_token : Int)
    (hfg : ∀ toks, (∀ t ∈ toks, P t) → f toks = g toks) {n : Nat} {toks : List Nat}
    (htoks : ∀ t ∈ toks, P t) (hids : ∀ t ∈ (greedy f eos_token n toks).dropLast, P t) :
    greedy f eos_token n toks = greedy g eos_token n toks := by
  induction n generalizing toks with
  | zero => rfl
  | succ n ih =>
    have hhead := hfg toks htoks
    rw [greedy, greedy, ← hhead]
    by_cases hstop : Stops eos_token (f toks)
    · rw [if_pos hstop, if_pos hstop]
    · rw [if_neg hstop, if_neg hstop]
      cases n with
      | zero => rfl
      | succ n =>
        rw [greedy, if_neg hstop, greedy, List.dropLast_cons_of_ne_nil (List.cons_ne_nil _ _)] at hids
        rw [ih]
        · intro t ht
          rcases List.mem_append.mp ht with ht | ht
          · exact htoks t ht
          · rw [List.mem_singleton.mp ht]
            exact hids _ List.mem_cons_self
        · exact fun t ht => hids t (List.mem_cons_of_mem _ ht)

/-- The tool dumps every checkpoint of the right shapes, and the driver on its files writes the
greedy continuation of the decoder that reads the checkpoint itself. -/
theorem the_driver_decodes_the_checkpoint {α : Type} (cast : α → Word) (Q : Tensors α)
    (hQ : Shaped Q.checkpoint) (files : Files) (dev : Device) (host : Libm) (io : MainIo)
    (hm : Mapped io.vram_mmap VRAM_SIZE) :
    ∃ files', dump.main cast Q.checkpoint false files = (none, files') ∧
      (SetsUp dev host files' io → ∀ (values : Option (List Int64)) (prompt : List Nat)
        (max_new_long : Int64) (eos : Option Int64),
        read_tokens values = some (prompt.map Nat.cast) → prompt ≠ [] →
        (∀ x ∈ prompt, x < VOCAB_SIZE) → 0 < max_new_long.toInt →
        prompt.length + max_new_long.toInt.toNat - 1 ≤ transformer_default_config.max_seq →
        (∀ e ∈ eos, 0 ≤ e.toInt ∧ e.toInt ≤ INT32_MAX) →
        (∀ t ∈ (greedy (Q.token dev.fpu cast host) ((eos.map Int64.toInt).getD (-1))
          max_new_long.toInt.toNat prompt).dropLast, t < VOCAB_SIZE) →
        ∃ calls, main dev host files' io (fun _ => true) (fun _ r => r) values max_new_long eos =
          some ⟨if io.write_ok then 0 else 1, calls, (greedy (Q.token dev.fpu cast host)
            ((eos.map Int64.toInt).getD (-1)) max_new_long.toInt.toNat prompt).map Nat.cast⟩) := by
  obtain ⟨files', hdump, hdesc⟩ := dump_describes dev.fpu cast host hQ files
  refine ⟨files', hdump, ?_⟩
  intro hup values prompt max_new_long eos hvalues hne hprompt hmax hlen heos hids
  have htoken : ∀ toks, (∀ t ∈ toks, t < VOCAB_SIZE) →
      Q.token dev.fpu cast host toks = fileToken dev host files' toks := fun toks htoks =>
    (hdesc.token_eq htoks).symm
  have hsame := greedy_congr ((eos.map Int64.toInt).getD (-1)) htoken hprompt hids
  rw [hsame] at hids ⊢
  exact main_follows hup hm hvalues hne hprompt hmax hlen heos hids

/-- On the device that always finds the token 0, zeros go on with zeros. -/
theorem zero_token {toks : List Nat} (htoks : ∀ t ∈ toks, t < VOCAB_SIZE) :
    zeroTensors.token flatDevice.fpu id wordHost toks = 0 := by
  obtain ⟨files', hdump, hdesc⟩ := dump_describes flatDevice.fpu id wordHost zeroTensors_shaped zeroFiles
  obtain rfl : zeroFiles = files' := congrArg Prod.snd (dump_zeros.symm.trans hdump)
  rw [← hdesc.token_eq htoks]
  exact congrFun flat_token toks

theorem the_zero_checkpoint_goes_on_with_zeros :
    ∃ files', dump.main id zeroTensors.checkpoint false zeroFiles = (none, files') ∧
      ∃ calls, main flatDevice wordHost files' goodIo (fun _ => true) (fun _ r => r) (some [7]) 3 none =
        some ⟨0, calls, [0, 0, 0]⟩ := by
  obtain ⟨files', hdump, hmain⟩ := the_driver_decodes_the_checkpoint id zeroTensors zeroTensors_shaped
    zeroFiles flatDevice wordHost goodIo ⟨by decide, by decide⟩
  obtain rfl : zeroFiles = files' := congrArg Prod.snd (dump_zeros.symm.trans hdump)
  have hprompt : ∀ x ∈ [7], x < VOCAB_SIZE := by decide
  have hzeros : greedy (fun _ => 0) (-1) 3 [7] =
      greedy (zeroTensors.token flatDevice.fpu id wordHost) (-1) 3 [7] :=
    greedy_congr (-1) (fun toks htoks => (zero_token htoks).symm) hprompt (by decide)
  have h := hmain flatDevice_sets_up (some [7]) [7] 3 none rfl (by decide) hprompt (by decide) (by decide)
    (by simp) (show ∀ t ∈ (greedy _ (-1) 3 [7]).dropLast, _ from hzeros ▸ (by decide))
  exact ⟨zeroFiles, hdump, h.imp fun calls hc => hc.trans (by
    show some (⟨0, calls, (greedy _ (-1) 3 [7]).map Nat.cast⟩ : Finished) = _
    rw [← hzeros]
    rfl)⟩

end gpgpu.infer_tokens
