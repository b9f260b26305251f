-- Floats read as numbers of an ordered field. A reading is exact if the float instructions
-- compute as the field does; minus infinity lies below all numbers. One format that has an
-- exact reading keeps each number as it is.
import Gpgpu.Formats

open words cells

namespace gpgpu.core

variable {V C K : Type} [Field K]

/-- The reading `val` is exact. What `fsqrt.s` and `vexp.s` compute is given by `sqrt` and
`exp`. -/
structure Exact [LinearOrder K] (fm : Format V C) (sqrt exp : K → K) (val : V → WithBot K) : Prop where
  zero : val (fm.ofBits 0) = (0 : K)
  one : val (fm.ofBits 0x3F800000) = (1 : K)
  lowest : val (fm.ofBits 0xFF800000) = ⊥
  fadd {a b : V} {x y : K} : val a = x → val b = y → val (fm.fadd a b) = (x + y : K)
  fsub {a b : V} {x y : K} : val a = x → val b = y → val (fm.fsub a b) = (x - y : K)
  fmul {a b : V} {x y : K} : val a = x → val b = y → val (fm.fmul a b) = (x * y : K)
  fdiv {a b : V} {x y : K} : val a = x → val b = y → val (fm.fdiv a b) = (x / y : K)
  fmadd {a b c : V} {x y z : K} : val a = x → val b = y → val c = z →
    val (fm.fmadd a b c) = (x * y + z : K)
  fmax (a b : V) : val (fm.fmax a b) = max (val a) (val b)
  fsqrt {a : V} {x : K} : val a = x → val (fm.fsqrt a) = (sqrt x : K)
  vexp {a : V} {x : K} : val a = x → val (fm.vexp a) = (exp x : K)

/-! ## A format with an exact reading -/

/-- A number, or a word that is no number but for 0, 1 and minus infinity. -/
inductive Val (K : Type)
  | number (x : K)
  | bits (w : Word)

namespace Val

def read : Val K → WithBot K
  | .number x => x
  | .bits w => if w = 0 then (0 : K) else if w = 0x3F800000 then (1 : K) else ⊥

def toBits : Val K → Word
  | .number _ => 0
  | .bits w => w

/-- The value with a reading. -/
def ofRead : WithBot K → Val K
  | some x => .number x
  | none => .bits 0xFF800000

theorem read_one : (bits 0x3F800000 : Val K).read = (1 : K) := by
  rw [read, if_neg (by decide), if_pos rfl]

theorem read_lowest : (bits 0xFF800000 : Val K).read = ⊥ := by
  rw [read, if_neg (by decide), if_neg (by decide)]

@[simp] theorem read_ofRead (x : WithBot K) : (ofRead x).read = x := by
  cases x with
  | bot => exact read_lowest
  | coe x => rfl

end Val

/-- An instruction on numbers. -/
def exactly (f : K → K → K) (a b : Val K) : Val K := .ofRead (a.read.map₂ f b.read)

theorem read_exactly {f : K → K → K} {a b : Val K} {x y : K} (ha : a.read = x) (hb : b.read = y) :
    (exactly f a b).read = f x y := by
  unfold exactly
  rw [Val.read_ofRead, ha, hb]
  rfl

variable [LinearOrder K]

/-- A value has a first byte. -/
theorem byte_pos : 0 < 4 := by decide

def exactFormat (sqrt exp : K → K) : Format (Val K) (Val K) where
  cut v _ := v
  join f := f ⟨0, byte_pos⟩
  join_cut _ := rfl
  ofBits := .bits
  toBits := Val.toBits
  toBits_ofBits _ := rfl
  ofInt n := .number n
  fadd := exactly (· + ·)
  fsub := exactly (· - ·)
  fmul := exactly (· * ·)
  fdiv := exactly (· / ·)
  fmax a b := .ofRead (max a.read b.read)
  fsgnjn a b := exactly (fun x y => if 0 ≤ y then -|x| else |x|) a b
  fmadd a b c := exactly (· + ·) (exactly (· * ·) a b) c
  fsqrt a := .ofRead (a.read.map sqrt)
  vexp a := .ofRead (a.read.map exp)
  flt a b := decide (a.read < b.read)
  feq a b := decide (a.read = b.read)

theorem exactFormat_exact (sqrt exp : K → K) : Exact (exactFormat sqrt exp) sqrt exp Val.read where
  zero := rfl
  one := Val.read_one
  lowest := Val.read_lowest
  fadd := read_exactly
  fsub := read_exactly
  fmul := read_exactly
  fdiv := read_exactly
  fmadd ha hb hc := read_exactly (read_exactly ha hb) hc
  fmax _ _ := Val.read_ofRead _
  fsqrt ha := (Val.read_ofRead _).trans (by rw [ha]; rfl)
  vexp ha := (Val.read_ofRead _).trans (by rw [ha]; rfl)

/-! ## The same over bytes -/

/-- A byte of a word, or a part of a number. -/
inductive Cell (K : Type)
  | byte (b : UInt8)
  | part (x : K)

namespace Cell

def toByte : Cell K → UInt8
  | .byte b => b
  | .part _ => 0

/-- Four cells are a number if the first one is a part of it. -/
def join (f : Fin 4 → Cell K) : Val K :=
  match f ⟨0, byte_pos⟩ with
  | .part x => .number x
  | .byte _ => .bits (wordCells.join fun i => (f i).toByte)

def cut : Val K → Fin 4 → Cell K
  | .number x, _ => .part x
  | .bits w, i => .byte (wordCells.cut w i)

omit [Field K] [LinearOrder K] in
theorem join_cut (v : Val K) : join (cut v) = v := by
  cases v with
  | number x => rfl
  | bits w => exact congrArg Val.bits (wordCells.join_cut w)

end Cell

/-- The instructions of `exactFormat` on a memory of bytes. -/
def byteFormat (sqrt exp : K → K) : Format (Val K) (Cell K) :=
  { exactFormat sqrt exp with
    cut := Cell.cut
    join := Cell.join
    join_cut := Cell.join_cut }

theorem byteFormat_exact (sqrt exp : K → K) : Exact (byteFormat sqrt exp) sqrt exp Val.read :=
  { exactFormat_exact sqrt exp with }

end gpgpu.core
