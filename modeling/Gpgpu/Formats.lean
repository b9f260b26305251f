-- What the float registers hold. On the device they hold words of 32 bits, in memory as four
-- bytes, and what the float instructions do with them is left open.
import Gpgpu.Core
import Gpgpu.Kernels

open memory words cells

namespace gpgpu.core

open kernels

/-- A word in four bytes, lowest byte first. -/
def wordCells : Cells Word UInt8 where
  cut w k := UInt8.ofNat (w.toNat / 256 ^ k.val)
  join f := UInt32.ofNat ((f 0).toNat + 256 * ((f 1).toNat + 256 * ((f 2).toNat +
    256 * ((f 3).toNat + 256 * 0))))
  join_cut w := by
    have hlt := w.toNat_lt
    rw [← UInt32.toNat_inj]
    simp only [UInt8.toNat_ofNat', UInt32.toNat_ofNat', Fin.val_zero, Fin.val_one,
      show ((2 : Fin 4).val) = 2 from rfl, show ((3 : Fin 4).val) = 3 from rfl]
    omega

/-- The words of the device. `fcvt` is what `fcvt.s.w` makes of an integer. -/
def wordFormat (fpu : Fpu) (fcvt : Int → Word) : Format Word UInt8 where
  toCells := wordCells
  ofBits := id
  toBits := id
  toBits_ofBits _ := rfl
  ofInt := fcvt
  fadd := fpu.fadd
  fsub := fpu.fsub
  fmul := fpu.fmul
  fdiv := fpu.fdiv
  fmax := fpu.fmax
  fsgnjn a b := (a &&& 0x7FFFFFFF) ||| (~~~b &&& 0x80000000)
  fmadd := fpu.fmadd
  fsqrt := fpu.fsqrt
  vexp := fpu.vexp
  flt := fpu.flt
  feq := fpu.feq

/-- Words that count: the float instructions add and multiply them. -/
def countingFpu : Fpu :=
  ⟨(· + ·), (· - ·), (· * ·), (· / ·), max, fun a b c => a * b + c, id, id,
    fun a b => decide (a < b), fun a b => decide (a = b)⟩

def countingFormat : Format Word UInt8 := wordFormat countingFpu UInt32.ofInt

def zeroRegs (_ : Fin 32) : Regs Word := ⟨fun _ => 0, fun _ => 0⟩

/-! ## Words in memory -/

/-- A memory in which the words at `out` have new values is that memory after a write. -/
theorem eq_put_of_gets {fpu : Fpu} {fcvt : Int → Word} {m m' : Mem} {out n : Nat} {val : Nat → Word}
    (hval : ∀ i < n, (wordFormat fpu fcvt).get m' (out + 4 * i) = val i)
    (hframe : ∀ y, y < out ∨ out + 4 * n ≤ y → m' y = m y) :
    m' = put m out ((List.range n).map val) := by
  apply eq_put
  · intro i hi
    rw [List.length_map, List.length_range] at hi
    rw [List.getD_eq_getElem?_getD, List.getElem?_map, List.getElem?_range hi]
    exact hval i hi
  · rwa [List.length_map, List.length_range]

/-- The negation of `fsgnjn.s` turns the sign bit. -/
theorem fsgnjn_self (fpu : Fpu) (fcvt : Int → Word) (w : Word) :
    (wordFormat fpu fcvt).fsgnjn w w = w ^^^ 0x80000000 := by
  show (w &&& 0x7FFFFFFF) ||| (~~~w &&& 0x80000000) = w ^^^ 0x80000000
  have hmask : (0x7FFFFFFF : Word) = ~~~0x80000000 := by decide
  rw [hmask, ← UInt32.toBitVec_inj]
  ext i hi
  simp only [UInt32.toBitVec_or, UInt32.toBitVec_and, UInt32.toBitVec_not, UInt32.toBitVec_xor,
    BitVec.getElem_or, BitVec.getElem_and, BitVec.getElem_not, BitVec.getElem_xor]
  cases w.toBitVec[i] <;> cases (0x80000000 : Word).toBitVec[i] <;> rfl

end gpgpu.core
