-- The reference decoder. It keeps nothing between tokens: for a list of tokens it
-- computes every layer at every position anew, and a position attends to the
-- positions up to its own. The vector functions are those of the kernels.
import Gpgpu.Transformer

open words

namespace gpgpu.reference

open kernels weights transformer

/-- The numbers that the decoder computes with. -/
structure Model where
  embedding : List Word
  lm_head : List Word
  final_norm : List Word
  tensor : Nat → Tensor → List Word
  sincos : List Word
  inv_d : Word
  eps : Word
  scale : Word

/-- Elements `i` to `i + n` of a vector. -/
def stretch (x : List Word) (i n : Nat) : List Word := (x.drop i).take n

variable (fpu : Fpu) (cfg : Config) (M : Model)

/-! ## One position of one layer -/

def embed (tok : Nat) : List Word := stretch M.embedding (tok * cfg.D) cfg.D

def normed (weight x : List Word) : List Word := rmsnorm fpu M.inv_d M.eps x weight

/-- A product with a weight of `N` columns. -/
def times (K N : Nat) (x weight : List Word) : List Word := gemm fpu 1 K N x weight

def plus (N : Nat) (x y : List Word) : List Word := broadcast_add fpu 1 N x y

/-- The rotation of every head for position `p`. -/
def rotate (heads p : Nat) (x : List Word) : List Word :=
  (List.range heads).flatMap fun h =>
    rope_head fpu (stretch M.sincos (p * cfg.head_dim) cfg.head_dim)
      (stretch x (h * cfg.head_dim) cfg.head_dim)

/-- The width of a key or a value. -/
def kvDim (cfg : Config) : Nat := cfg.num_kv_heads * cfg.head_dim

def query (l p : Nat) (x : List Word) : List Word :=
  let n := normed fpu M (M.tensor l .input_norm) x
  rotate fpu cfg M cfg.num_q_heads p
    (plus fpu cfg.D (times fpu cfg.D cfg.D n (M.tensor l .q_proj_w)) (M.tensor l .q_proj_b))

def key (l p : Nat) (x : List Word) : List Word :=
  let n := normed fpu M (M.tensor l .input_norm) x
  rotate fpu cfg M cfg.num_kv_heads p
    (plus fpu (kvDim cfg) (times fpu cfg.D (kvDim cfg) n (M.tensor l .k_proj_w))
      (M.tensor l .k_proj_b))

def value (l : Nat) (x : List Word) : List Word :=
  let n := normed fpu M (M.tensor l .input_norm) x
  plus fpu (kvDim cfg) (times fpu cfg.D (kvDim cfg) n (M.tensor l .v_proj_w)) (M.tensor l .v_proj_b)

/-- The part of a key or a value that the query head `h` looks at: several query heads
share one. -/
def shared (h : Nat) (x : List Word) : List Word :=
  stretch x (h / (cfg.num_q_heads / cfg.num_kv_heads) * cfg.head_dim) cfg.head_dim

/-- The weights of the positions for the query head `h`. -/
def attends (q : List Word) (keys : List (List Word)) (h : Nat) : List Word :=
  softmax_row fpu (keys.map fun k =>
    score fpu M.scale cfg.head_dim (stretch q (h * cfg.head_dim) cfg.head_dim) (shared cfg h k))

/-- Grouped-query attention over the positions whose keys and values are given. -/
def attention (q : List Word) (keys values : List (List Word)) : List Word :=
  (List.range cfg.num_q_heads).flatMap fun h =>
    pv_row fpu cfg.head_dim (attends fpu cfg M q keys h) (values.map (shared cfg h))

/-- The rest of a layer, from what comes into it and the result of the attention. -/
def finish (l : Nat) (x a : List Word) : List Word :=
  let r := plus fpu cfg.D x (times fpu cfg.D cfg.D a (M.tensor l .o_proj_w))
  let n := normed fpu M (M.tensor l .post_norm) r
  let gate := silu fpu cfg.intermediate
    (times fpu cfg.D cfg.intermediate n (M.tensor l .gate_proj_w))
  let up := times fpu cfg.D cfg.intermediate n (M.tensor l .up_proj_w)
  let down := times fpu cfg.intermediate cfg.D (vmul fpu cfg.intermediate gate up)
    (M.tensor l .down_proj_w)
  plus fpu cfg.D r down

/-- What a layer makes of a position, from the keys and values up to it. -/
def block (l p : Nat) (x : List Word) (keys values : List (List Word)) : List Word :=
  finish fpu cfg M l x (attention fpu cfg M (query fpu cfg M l p x) keys values)

/-! ## The whole list of tokens -/

/-- The keys of all positions. -/
def keys (l : Nat) (X : List (List Word)) : List (List Word) :=
  X.mapIdx fun p x => key fpu cfg M l p x

def values (l : Nat) (X : List (List Word)) : List (List Word) := X.map (value fpu cfg M l)

/-- A layer on all positions. Position `p` sees the positions up to `p`. -/
def layer (l : Nat) (X : List (List Word)) : List (List Word) :=
  X.mapIdx fun p x =>
    block fpu cfg M l p x (keys fpu cfg M l (X.take (p + 1))) (values fpu cfg M l (X.take (p + 1)))

/-- What comes into layer `l`, at every position. -/
def hidden : Nat → List Nat → List (List Word)
  | 0, toks => toks.map (embed cfg M)
  | l + 1, toks => layer fpu cfg M l (hidden l toks)

/-- The token that follows, from what the last layer leaves at the last position. -/
def next (x : List Word) : Word :=
  argmax fpu cfg.vocab_size (times fpu cfg.D cfg.vocab_size (normed fpu M M.final_norm x) M.lm_head)

/-- The token that the reference decoder computes for a list of tokens. -/
def reference_token (toks : List Nat) : Word :=
  next fpu cfg M ((hidden fpu cfg M cfg.num_layers toks).getLastD [])

/-! ## A new token changes nothing before it -/

theorem keys_append (l : Nat) (X : List (List Word)) (x : List Word) :
    keys fpu cfg M l (X ++ [x]) = keys fpu cfg M l X ++ [key fpu cfg M l X.length x] := by
  simp [keys, List.mapIdx_concat]

theorem values_append (l : Nat) (X : List (List Word)) (x : List Word) :
    values fpu cfg M l (X ++ [x]) = values fpu cfg M l X ++ [value fpu cfg M l x] := by
  simp [values]

theorem layer_append (l : Nat) (X : List (List Word)) (x : List Word) :
    layer fpu cfg M l (X ++ [x]) = layer fpu cfg M l X ++
      [block fpu cfg M l X.length x (keys fpu cfg M l (X ++ [x])) (values fpu cfg M l (X ++ [x]))] := by
  have hall : (X ++ [x]).take (X.length + 1) = X ++ [x] := by
    apply List.take_of_length_le
    simp
  unfold layer
  rw [List.mapIdx_concat, hall]
  congr 1
  apply List.ext_getElem
  · simp
  · intro p h1 h2
    have hp : p < X.length := by simpa using h2
    simp only [List.getElem_mapIdx]
    rw [List.take_append_of_le_length hp]

@[simp] theorem layer_length (l : Nat) (X : List (List Word)) :
    (layer fpu cfg M l X).length = X.length := by
  simp [layer]

@[simp] theorem hidden_length (l : Nat) (toks : List Nat) :
    (hidden fpu cfg M l toks).length = toks.length := by
  induction l with
  | zero => simp [hidden]
  | succ l ih => simp [hidden, ih]

/-- The keys of layer `l` for a list of tokens. -/
def keysFor (l : Nat) (toks : List Nat) : List (List Word) :=
  keys fpu cfg M l (hidden fpu cfg M l toks)

def valuesFor (l : Nat) (toks : List Nat) : List (List Word) :=
  values fpu cfg M l (hidden fpu cfg M l toks)

@[simp] theorem keysFor_length (l : Nat) (toks : List Nat) :
    (keysFor fpu cfg M l toks).length = toks.length := by
  simp [keysFor, keys]

@[simp] theorem valuesFor_length (l : Nat) (toks : List Nat) :
    (valuesFor fpu cfg M l toks).length = toks.length := by
  simp [valuesFor, values]

/-- What comes into layer `l` at a position that follows `toks`. -/
def incoming (toks : List Nat) (tok : Nat) : Nat → List Word
  | 0 => embed cfg M tok
  | l + 1 => block fpu cfg M l toks.length (incoming toks tok l)
      (keysFor fpu cfg M l toks ++ [key fpu cfg M l toks.length (incoming toks tok l)])
      (valuesFor fpu cfg M l toks ++ [value fpu cfg M l (incoming toks tok l)])

/-- What comes into layer `l` at position `p`, from any keys and values of the positions
before it. -/
def arriving (K V : Nat → List (List Word)) (p tok : Nat) : Nat → List Word
  | 0 => embed cfg M tok
  | l + 1 => block fpu cfg M l p (arriving K V p tok l)
      (K l ++ [key fpu cfg M l p (arriving K V p tok l)])
      (V l ++ [value fpu cfg M l (arriving K V p tok l)])

theorem arriving_eq (toks : List Nat) (tok l : Nat) :
    arriving fpu cfg M (fun l => keysFor fpu cfg M l toks) (fun l => valuesFor fpu cfg M l toks)
      toks.length tok l = incoming fpu cfg M toks tok l := by
  induction l with
  | zero => rfl
  | succ l ih => simp only [arriving, incoming, ih]

/-- Only the keys and values of the layers before it play a part. -/
theorem arriving_congr {K V K' V' : Nat → List (List Word)} {p tok l : Nat}
    (hK : ∀ l' < l, K l' = K' l') (hV : ∀ l' < l, V l' = V' l') :
    arriving fpu cfg M K V p tok l = arriving fpu cfg M K' V' p tok l := by
  induction l with
  | zero => rfl
  | succ l ih =>
    have hlt := Nat.lt_succ_self l
    simp only [arriving]
    rw [ih (fun l' h => hK l' (by omega)) fun l' h => hV l' (by omega), hK l hlt, hV l hlt]

theorem hidden_append (toks : List Nat) (tok l : Nat) :
    hidden fpu cfg M l (toks ++ [tok]) =
      hidden fpu cfg M l toks ++ [incoming fpu cfg M toks tok l] := by
  induction l with
  | zero => simp [hidden, incoming]
  | succ l ih =>
    simp only [hidden, incoming]
    rw [ih, layer_append, keys_append, values_append, hidden_length]
    rfl

theorem keysFor_append (l : Nat) (toks : List Nat) (tok : Nat) :
    keysFor fpu cfg M l (toks ++ [tok]) = keysFor fpu cfg M l toks ++
      [key fpu cfg M l toks.length (incoming fpu cfg M toks tok l)] := by
  unfold keysFor
  rw [hidden_append, keys_append, hidden_length]

theorem valuesFor_append (l : Nat) (toks : List Nat) (tok : Nat) :
    valuesFor fpu cfg M l (toks ++ [tok]) = valuesFor fpu cfg M l toks ++
      [value fpu cfg M l (incoming fpu cfg M toks tok l)] := by
  unfold valuesFor
  rw [hidden_append, values_append]

theorem reference_token_append (toks : List Nat) (tok : Nat) :
    reference_token fpu cfg M (toks ++ [tok]) =
      next fpu cfg M (incoming fpu cfg M toks tok cfg.num_layers) := by
  simp [reference_token, hidden_append]

end gpgpu.reference
