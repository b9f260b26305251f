-- The dump tool (tools/dump_weights.py). It takes a checkpoint apart into the 27 files
-- that the loader reads; every matrix is turned round on the way.
import Gpgpu.Lib.Strided
import Gpgpu.Lib.Words
import Gpgpu.Weights

open memory words strided

namespace gpgpu.dump

open weights

/-! ## The data -/

def HIDDEN_SIZE : Nat := 896

def INTERMEDIATE : Nat := 4864

def NUM_LAYERS : Nat := 24

def NUM_KV_HEADS : Nat := 2

def HEAD_DIM : Nat := 64

def KV_DIM : Nat := NUM_KV_HEADS * HEAD_DIM

def VOCAB_SIZE : Nat := 151936

def TIE_WORD_EMB : Bool := true

/-- The name of a tensor in a checkpoint. -/
inductive Name
  | embed_tokens | lm_head | norm
  | layer (layer_idx : Nat) (local_name : Tensor)

/-- A checkpoint: its tensors by name. The elements are of any type that `torch` casts
to `float32`. -/
abbrev Checkpoint (α : Type) := Name → Option (View α)

/-- An entry of `LAYER_OFFSETS`. -/
structure Slot where
  local_name : Tensor
  offset : Nat
  expected_shape : List Nat

def LAYER_OFFSETS : List Slot :=
  [⟨.input_norm, 0, [HIDDEN_SIZE]⟩,
    ⟨.q_proj_w, 3584, [HIDDEN_SIZE, HIDDEN_SIZE]⟩,
    ⟨.q_proj_b, 3214848, [HIDDEN_SIZE]⟩,
    ⟨.k_proj_w, 3218432, [HIDDEN_SIZE, KV_DIM]⟩,
    ⟨.k_proj_b, 3677184, [KV_DIM]⟩,
    ⟨.v_proj_w, 3677696, [HIDDEN_SIZE, KV_DIM]⟩,
    ⟨.v_proj_b, 4136448, [KV_DIM]⟩,
    ⟨.o_proj_w, 4136960, [HIDDEN_SIZE, HIDDEN_SIZE]⟩,
    ⟨.post_norm, 7348224, [HIDDEN_SIZE]⟩,
    ⟨.gate_proj_w, 7351808, [HIDDEN_SIZE, INTERMEDIATE]⟩,
    ⟨.up_proj_w, 24784384, [HIDDEN_SIZE, INTERMEDIATE]⟩,
    ⟨.down_proj_w, 42216960, [INTERMEDIATE, HIDDEN_SIZE]⟩]

def LAYER_BYTES : Nat := 59649536

def NEEDS_TRANSPOSE : List Tensor :=
  [.q_proj_w, .k_proj_w, .v_proj_w, .o_proj_w, .gate_proj_w, .up_proj_w, .down_proj_w]

/-- The ways in which the tool stops early. -/
inductive Exit
  | not_found (name : Name)
  | shape_mismatch (name : Name) (given expected : List Nat)
  | byte_count (name : Name) (given expected : Nat)
  | assert_tied

/-- The files of the output directory. -/
abbrev Files := WeightFile → Option FileData

/-! ## The tool functions -/

variable {α : Type} (cast : α → Word) (ckpt : Checkpoint α)

/-- `tensor_to_fp32_bytes`, where `cast` is the cast to `float32`. `tobytes` gives the
elements in row-major order. -/
def tensor_to_fp32_bytes (t : View α) : List UInt8 :=
  let t := if t.isContiguous then t else t.contiguous
  let t := (t.map cast).contiguous
  (List.range (4 * t.toList.length)).map (bytesOf t.toList)

def load_tensor (name : Name) : Except Exit (View α) :=
  match ckpt name with
  | none => .error (.not_found name)
  | some t => .ok t

def assert_shape (name : Name) (t : View α) (expected : List Nat) : Except Exit Unit :=
  if t.shape ≠ expected then .error (.shape_mismatch name t.shape expected) else .ok ()

/-- The assignment `buf[start:stop] = data` to a slice of a `bytearray`. -/
def assign_slice (buf : List UInt8) (start stop : Nat) (data : List UInt8) : List UInt8 :=
  buf.take start ++ data ++ buf.drop (max start stop)

/-- The files after a file has been written. -/
def write (files : Files) (f : WeightFile) (bytes : List UInt8) : Files :=
  Function.update files f (some ⟨bytes.length, fun i => bytes.getD i 0⟩)

/-! ## `main` -/

/-- A matrix is checked in the shape of the checkpoint and then turned round. -/
def check_and_turn (full_name : Name) (slot : Slot) (t : View α) : Except Exit (View α) :=
  if slot.local_name ∈ NEEDS_TRANSPOSE then do
    let hf_shape := [slot.expected_shape.getD 1 0, slot.expected_shape.getD 0 0]
    assert_shape full_name t hf_shape
    pure t.transpose.contiguous
  else do
    assert_shape full_name t slot.expected_shape
    pure t

/-- One turn of the loop over `LAYER_OFFSETS`. -/
def fill_slot (layer_idx : Nat) (buf : List UInt8) (slot : Slot) : Except Exit (List UInt8) := do
  let full_name := Name.layer layer_idx slot.local_name
  let t ← load_tensor ckpt full_name
  let t ← check_and_turn full_name slot t
  let data := tensor_to_fp32_bytes cast t
  let expected_bytes := slot.expected_shape.foldl (· * ·) 4
  if data.length ≠ expected_bytes then
    throw (.byte_count full_name data.length expected_bytes)
  return assign_slice buf slot.offset (slot.offset + expected_bytes) data

def fill_slots (layer_idx : Nat) : List Slot → List UInt8 → Except Exit (List UInt8)
  | [], buf => .ok buf
  | slot :: slots, buf => do
    let buf ← fill_slot cast ckpt layer_idx buf slot
    fill_slots layer_idx slots buf

/-- The loop over the layers: how it stopped early, if it did, and the files. -/
def dump_layers (check_only : Bool) : List Nat → Files → Option Exit × Files
  | [], files => (none, files)
  | layer_idx :: rest, files =>
    match fill_slots cast ckpt layer_idx LAYER_OFFSETS (List.replicate LAYER_BYTES 0) with
    | .error e => (some e, files)
    | .ok buf =>
      dump_layers check_only rest (if check_only then files else write files (.layer layer_idx) buf)

/-- Step 3: the embedding and the head. A checkpoint with a head of its own stops the
tool, as the config says that it is tied to the embedding. -/
def dump_tables (check_only : Bool) (emb : View α) (files : Files) : Option Exit × Files :=
  if check_only then (none, files)
  else
    let files := write files .embedding (tensor_to_fp32_bytes cast emb)
    let lm_head : Except Exit (View α) :=
      match ckpt .lm_head with
      | some lm_head => do
        assert_shape .lm_head lm_head [VOCAB_SIZE, HIDDEN_SIZE]
        if TIE_WORD_EMB = false then pure lm_head else throw .assert_tied
      | none => if TIE_WORD_EMB then pure emb else throw .assert_tied
    match lm_head with
    | .error e => (some e, files)
    | .ok lm_head => (none, write files .lm_head (tensor_to_fp32_bytes cast lm_head.transpose))

/-- A tensor that must be there in a given shape. -/
def load_checked (name : Name) (expected : List Nat) : Except Exit (View α) := do
  let t ← load_tensor ckpt name
  assert_shape name t expected
  pure t

def main (check_only : Bool) (files : Files) : Option Exit × Files :=
  match load_checked ckpt .embed_tokens [VOCAB_SIZE, HIDDEN_SIZE] with
  | .error e => (some e, files)
  | .ok emb =>
    match dump_tables cast ckpt check_only emb files with
    | (some e, files) => (some e, files)
    | (none, files) =>
      match dump_layers cast ckpt check_only (List.range NUM_LAYERS) files with
      | (some e, files) => (some e, files)
      | (none, files) =>
        match load_checked ckpt .norm [HIDDEN_SIZE] with
        | .error e => (some e, files)
        | .ok final_norm =>
          (none, if check_only then files
            else write files .final_norm (tensor_to_fp32_bytes cast final_norm))

end gpgpu.dump
