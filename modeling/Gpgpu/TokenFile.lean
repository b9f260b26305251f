-- The token files: what `write_generated` (lib/test/infer_tokens.c) and
-- tools/tokenize_qwen.py write, and how `read_tokens` reads it, with the buffer that doubles.
import Gpgpu.Lib.Decimal
import Gpgpu.Infer

namespace gpgpu.token_file

open decimal infer_tokens

/-! ## The host -/

/-- What the C library gives. `long` is what `%ld` stores for a number; a number that a long
cannot hold may become anything. Memory is granted up to a number of bytes. -/
structure Host where
  long : Int → Int64
  long_eq : ∀ v, -2 ^ 63 ≤ v → v < 2 ^ 63 → (long v).toInt = v
  memory : Nat
  memory_lt : memory < 2 ^ 64
  fopen_ok : Bool
  ferror : Bool

def SIZEOF_INT32 : Nat := 4

/-- `fprintf` with `%d`. -/
def fprintf_d (v : Int) : List UInt8 := if v < 0 then 45 :: print v.natAbs else print v.natAbs

/-- `fscanf` with `%ld`, on the bytes that are left. It is `none` where the call does not
return 1. -/
def fscanf_ld (host : Host) (input : List UInt8) : Option (Int64 × List UInt8) :=
  (scan input).map fun r => (host.long r.1, r.2)

/-! ## The writers -/

/-- The loop of `write_generated`, from token `i` on. -/
def write_loop : Nat → List Int → List UInt8
  | _, [] => []
  | i, t :: tokens => (if i = 0 then [] else [32]) ++ fprintf_d t ++ write_loop (i + 1) tokens

/-- The bytes that `write_generated` writes. -/
def write_generated (tokens : List Int) : List UInt8 := write_loop 0 tokens ++ [10]

/-- The bytes that `tokenize_qwen.py` writes: the numbers joined by spaces. -/
def tokenize_qwen (ids : List Int) : List UInt8 := [32].intercalate (ids.map fprintf_d) ++ [10]

/-! ## The reader -/

/-- The bytes of a buffer with room for `cap` tokens, as a `size_t`. -/
def buffer_bytes (cap : Nat) : Nat := cap * SIZEOF_INT32 % 2 ^ 64

/-- The turns of the loop of `read_tokens`. `ids` is the buffer up to `n`. The result is `none`
after a write outside the buffer, and `some none` where the function returns -1. -/
def read_loop (host : Host) : Nat → List UInt8 → Nat → List Int → Option (Option (List Int))
  | 0, _, _, _ => none
  | turns + 1, input, cap, ids =>
    match fscanf_ld host input with
    | none => some (some ids)
    | some (value, rest) =>
      if value.toInt < 0 ∨ value.toInt > INT32_MAX then some none
      else
        let cap' := if ids.length = cap then cap * 2 % 2 ^ 64 else cap
        if ids.length = cap ∧ host.memory < buffer_bytes cap' then some none
        else if (ids.length + 1) * SIZEOF_INT32 ≤ buffer_bytes cap' then
          read_loop host turns rest cap' (ids ++ [value.toInt32.toInt])
        else none

/-- `read_tokens` on the bytes of a file: its code, and the tokens when the code is 0. -/
def read_tokens (host : Host) (bytes : List UInt8) : Option (Int × List Int) :=
  if host.fopen_ok = false then some (-1, [])
  else if host.memory < buffer_bytes 64 then some (-1, [])
  else
    match read_loop host (bytes.length + 1) bytes 64 [] with
    | none => none
    | some none => some (-1, [])
    | some (some ids) =>
      if host.ferror then some (-1, [])
      else if ids.length = 0 then some (-1, [])
      else some (0, ids)

end gpgpu.token_file
