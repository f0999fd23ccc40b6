/-
  PythonUltra.Py.Mpz — integers of any size (py/mpz.c).

  An `mpz_t` is a sign and an array of digits; the functions take places of such objects
  (`Ref`), which may be one object. The memory of an object is its digit array: a read or
  a write at or past `alloc` is a fault of its own (`Fault.bounds`), and so is a failed
  assertion. An allocation is refused (`Fault.memory`, the MemoryError of the runtime) or
  leaves arbitrary digits in the new places.

  A pass of a `for` loop up a digit array is `sweep`: at each position the body reads what
  it needs and gives the digit to store. Digits are stored as `mpz_dig_t`, sums are taken
  in `mpz_dbl_dig_t` (`dbl`) or its signed twin (`sdbl`).
-/

import PythonUltra.Lib.Prog
import Mathlib.Logic.Function.Basic
import Mathlib.Algebra.GroupWithZero.Nat
import Mathlib.Algebra.Group.Int.Defs

namespace PythonUltra.Py.Mpz

open PythonUltra.Lib

/-- What mpz.h fixes for a machine, and what its allocator does. -/
structure Config where
  /-- `MPZ_DIG_SIZE` -/
  digSize : Nat
  /-- bits of `mpz_dig_t`, `mpz_dbl_dig_t` and a machine word -/
  digBits : Nat
  dblBits : Nat
  wordBits : Nat
  /-- `MICROPY_OPT_MPZ_BITWISE` -/
  optBitwise : Bool
  /-- the allocator serves an array of so many digits -/
  granted : Nat → Bool
  /-- what stands in the new places of such an array -/
  junk : Nat → Nat → Nat
  four_le_digSize : 4 ≤ digSize
  digSize_le_digBits : digSize ≤ digBits
  digBits_le_dblBits : digBits ≤ dblBits
  two_digSize_le_dblBits : 2 * digSize ≤ dblBits
  digSize_lt_wordBits : digSize < wordBits
  granted_lt {n : Nat} : granted n = true → n < 2 ^ (wordBits - 2)

namespace Config

/-- The calculator's: digits of 16 bits in words of 32, an allocator that serves what its
address space holds. -/
def sh4 (junk : Nat → Nat → Nat) : Config where
  digSize := 16
  digBits := 16
  dblBits := 32
  wordBits := 32
  optBitwise := false
  granted n := decide (n < 2 ^ 30)
  junk := junk
  four_le_digSize := by decide
  digSize_le_digBits := by decide
  digBits_le_dblBits := by decide
  two_digSize_le_dblBits := by decide
  digSize_lt_wordBits := by decide
  granted_lt h := of_decide_eq_true h

variable (c : Config)

/-- `DIG_BASE` -/
def base : Nat := 2 ^ c.digSize

/-- `DIG_MASK` -/
def mask : Nat := 2 ^ c.digSize - 1

/-- `DIG_MSB` -/
def msb : Nat := 2 ^ (c.digSize - 1)

/-- A value kept in an `mpz_dig_t`, an `mpz_dbl_dig_t`, an `mpz_dbl_dig_signed_t`, an `mp_uint_t`. -/
def dig (x : Nat) : Nat := x % 2 ^ c.digBits
def dbl (x : Nat) : Nat := x % 2 ^ c.dblBits
def sdbl (x : Int) : Int := x.bmod (2 ^ c.dblBits)
def word (x : Nat) : Nat := x % 2 ^ c.wordBits

/-- `x & DIG_MASK` of a signed value. -/
def lowDig (x : Int) : Nat := (x % 2 ^ c.digSize).toNat

end Config

/-- `mpz_t`. `alloc` is a bit field, two bits narrower than a word; it is 0 where `dig` is `NULL`. -/
structure MpzT (c : Config) where
  neg : Bool
  fixedDig : Bool
  alloc : Nat
  len : Nat
  dig : Nat → Nat
  alloc_lt : alloc < 2 ^ (c.wordBits - 2)

/-- Objects of the functions' own: clones, constants, the digits `k` and `round_up`, and the int
objects that an operator makes. -/
inductive Temp where
  | k
  | mulTemp
  | powX
  | powN
  | mpzone
  | zInt
  | newLhs
  | res
  | quo
  | rem
deriving DecidableEq, Repr

inductive Ref (ι : Type) where
  | obj (i : ι)
  | temp (t : Temp)
deriving DecidableEq, Repr

inductive Fault where
  | bounds
  | assertion
  | memory
  /-- a loop that has not ended in the turns it was given -/
  | stuck
deriving DecidableEq, Repr

variable {ι α : Type} [DecidableEq ι] {c : Config}

abbrev Heap (c : Config) (ι : Type) : Type := Ref ι → MpzT c

abbrev M (c : Config) (ι α : Type) : Type := Prog (Heap c ι) Fault α

def assert (b : Bool) : M c ι Unit := if b then pure () else Prog.throw .assertion

/-- A field of an object. -/
def look (r : Ref ι) (f : MpzT c → α) : M c ι α := do pure (f ((← Prog.get) r))

def change (r : Ref ι) (f : MpzT c → MpzT c) : M c ι Unit := Prog.modify fun h => Function.update h r (f (h r))

def setLen (r : Ref ι) (n : Nat) : M c ι Unit := change r fun z => { z with len := n }

def setNeg (r : Ref ι) (b : Bool) : M c ι Unit := change r fun z => { z with neg := b }

def readDig (r : Ref ι) (p : Nat) : M c ι Nat := fun h =>
  if p < (h r).alloc then (.ok ((h r).dig p), h) else (.error .bounds, h)

def writeDig (r : Ref ι) (p d : Nat) : M c ι Unit := fun h =>
  if p < (h r).alloc then
    (.ok (), Function.update h r { h r with dig := Function.update (h r).dig p (c.dig d) })
  else (.error .bounds, h)

/-- `memset` of the first `n` digits to zero. -/
def zeroDig (r : Ref ι) (n : Nat) : M c ι Unit := fun h =>
  if n ≤ (h r).alloc then
    (.ok (), Function.update h r { h r with dig := fun p => if p < n then 0 else (h r).dig p })
  else (.error .bounds, h)

/-- `memcpy` of the first `n` digits of `s`. -/
def copyDig (r s : Ref ι) (n : Nat) : M c ι Unit := fun h =>
  if n ≤ (h r).alloc ∧ n ≤ (h s).alloc then
    (.ok (), Function.update h r { h r with dig := fun p => if p < n then (h s).dig p else (h r).dig p })
  else (.error .bounds, h)

/-- A pass up `n` digits of `r` from `o + p` on; `body` gives the next state and the digit. -/
def sweep (r : Ref ι) (o : Nat) (body : Nat → α → M c ι (α × Nat)) : Nat → Nat → α → M c ι α
  | 0, _, a => pure a
  | n + 1, p, a => do
    let ⟨a, d⟩ ← body p a
    writeDig r (o + p) d
    sweep r o body n (p + 1) a

/-! ## Numbers without a sign -/

/-- Also the loops that end mpn_shl and mpn_div. -/
def mpnRemoveTrailingZeros (i : Ref ι) : Nat → M c ι Nat
  | 0 => pure 0
  | n + 1 => do
    if (← readDig i n) = 0 then mpnRemoveTrailingZeros i n else pure (n + 1)

def mpnCmpLoop (i j : Ref ι) : Nat → M c ι Int
  | 0 => pure 0
  | n + 1 => do
    let x ← readDig i n
    let y ← readDig j n
    let cmp := c.sdbl (x - y)
    if cmp < 0 then pure (-1) else if cmp > 0 then pure 1 else mpnCmpLoop i j n

def mpnCmp (i : Ref ι) (ilen : Nat) (j : Ref ι) (jlen : Nat) : M c ι Int :=
  if ilen < jlen then pure (-1) else if ilen > jlen then pure 1 else mpnCmpLoop i j ilen

/-- From the high end; `d` holds the digit read before, and the one read now. -/
def mpnShlLoop (i j : Ref ι) (nWhole nPart : Nat) : Nat → Nat → M c ι Nat
  | 0, d => pure d
  | n + 1, d => do
    let d := d ||| (← readDig j n)
    writeDig i (n + nWhole) ((d >>> (c.digSize - nPart)) &&& c.mask)
    mpnShlLoop i j nWhole nPart n (c.dbl (d <<< c.digSize))

def mpnShl (i j : Ref ι) (jlen n : Nat) : M c ι Nat := do
  let nWhole := c.word (n + c.digSize - 1) / c.digSize
  let nPart := if n % c.digSize = 0 then c.digSize else n % c.digSize
  let d ← mpnShlLoop i j nWhole nPart jlen 0
  writeDig i (nWhole - 1) ((d >>> (c.digSize - nPart)) &&& c.mask)
  zeroDig i (nWhole - 1)
  mpnRemoveTrailingZeros i (jlen + nWhole)

def mpnShr (i j : Ref ι) (jlen n : Nat) : M c ι Nat := do
  let nWhole := n / c.digSize
  let nPart := n % c.digSize
  if nWhole ≥ jlen then pure 0
  else
    let jlen := jlen - nWhole
    sweep i 0 (fun p _ => do
      let d ← readDig j (nWhole + p)
      let d ← if jlen - p > 1 then do pure (d ||| c.dbl ((← readDig j (nWhole + p + 1)) <<< c.digSize)) else pure d
      pure ((), (d >>> nPart) &&& c.mask)) jlen 0 ()
    if (← readDig i (jlen - 1)) = 0 then pure (jlen - 1) else pure jlen

def mpnAdd (i j : Ref ι) (jlen : Nat) (k : Ref ι) (klen : Nat) : M c ι Nat := do
  let carry ← sweep i 0 (fun p carry => do
    let carry := c.dbl (carry + c.dbl ((← readDig j p) + (← readDig k p)))
    pure (carry >>> c.digSize, carry &&& c.mask)) klen 0 0
  let carry ← sweep i 0 (fun p carry => do
    let carry := c.dbl (carry + (← readDig j p))
    pure (carry >>> c.digSize, carry &&& c.mask)) (jlen - klen) klen carry
  let n := klen + (jlen - klen)
  if carry ≠ 0 then
    writeDig i n carry
    pure (n + 1)
  else pure n

def mpnSub (i j : Ref ι) (jlen : Nat) (k : Ref ι) (klen : Nat) : M c ι Nat := do
  let borrow ← sweep i 0 (fun p borrow => do
    let borrow := c.sdbl (borrow + ((← readDig j p) - (← readDig k p)))
    pure (borrow >>> c.digSize, c.lowDig borrow)) klen 0 0
  let _ ← sweep i 0 (fun p borrow => do
    let borrow := c.sdbl (borrow + (← readDig j p))
    pure (borrow >>> c.digSize, c.lowDig borrow)) (jlen - klen) klen borrow
  mpnRemoveTrailingZeros i (klen + (jlen - klen))

def mpnAnd (i j k : Ref ι) (klen : Nat) : M c ι Nat := do
  sweep i 0 (fun p _ => do pure ((), (← readDig j p) &&& (← readDig k p))) klen 0 ()
  mpnRemoveTrailingZeros i klen

/-- The loops of mpn_or and mpn_xor. -/
def mpnMerge (op : Nat → Nat → Nat) (i j : Ref ι) (jlen : Nat) (k : Ref ι) (klen : Nat) : M c ι Nat := do
  sweep i 0 (fun p _ => do pure ((), op (← readDig j p) (← readDig k p))) klen 0 ()
  sweep i 0 (fun p _ => do pure ((), ← readDig j p)) (jlen - klen) klen ()
  pure (klen + (jlen - klen))

def mpnOr (i j : Ref ι) (jlen : Nat) (k : Ref ι) (klen : Nat) : M c ι Nat := mpnMerge (· ||| ·) i j jlen k klen

def mpnXor (i j : Ref ι) (jlen : Nat) (k : Ref ι) (klen : Nat) : M c ι Nat := do
  mpnRemoveTrailingZeros i (← mpnMerge (· ^^^ ·) i j jlen k klen)

/-- The variables of a loop with negative operands; `kdig` is the place it stands at. -/
structure Carries where
  klen : Nat
  kdig : Nat
  carryi : Nat
  carryj : Nat
  carryk : Nat

/-- The loop of mpn_and_neg, mpn_or_neg and mpn_xor_neg: `fj`, `fk` are what an operand's digit
counts, `pad` what one past the end of `k` does. `klen` wraps when it runs out. -/
def mpnNegLoop (fj fk : Nat → Nat) (pad : Nat) (op : Nat → Nat → Nat) (i j : Ref ι) (jlen : Nat) (k : Ref ι)
    (klen carryi carryj carryk : Nat) : M c ι Carries :=
  sweep i 0 (fun p a => do
    let carryj := c.dbl (a.carryj + fj (← readDig j p))
    let klen := c.word (a.klen + (2 ^ c.wordBits - 1))
    let more := decide (klen ≤ jlen - (p + 1))
    let x ← if more then do pure (fk (← readDig k a.kdig)) else pure pad
    let carryk := c.dbl (a.carryk + x)
    let carryi := c.dbl (a.carryi + (op carryj carryk &&& c.mask))
    pure (⟨klen, if more then a.kdig + 1 else a.kdig, carryi >>> c.digSize, carryj >>> c.digSize, carryk >>> c.digSize⟩,
      carryi &&& c.mask)) jlen 0 ⟨klen, 0, carryi, carryj, carryk⟩

/-- `imask`, `jmask`, `kmask` -/
def Config.maskOf (c : Config) (carry : Nat) : Nat := if 0 = carry then 0 else c.mask

def mpnAndNeg (i j : Ref ι) (jlen : Nat) (k : Ref ι) (klen carryi carryj carryk : Nat) : M c ι Nat := do
  let a ← mpnNegLoop (· ^^^ c.maskOf carryj) (· ^^^ c.maskOf carryk) (c.maskOf carryk)
    (fun x y => (x &&& y) ^^^ c.maskOf carryi) i j jlen k klen carryi carryj carryk
  if 0 ≠ a.carryi then
    writeDig i jlen a.carryi
    mpnRemoveTrailingZeros i (jlen + 1)
  else mpnRemoveTrailingZeros i jlen

def mpnOrNeg (i j : Ref ι) (jlen : Nat) (k : Ref ι) (klen carryi carryj carryk : Nat) : M c ι Nat := do
  let a ← mpnNegLoop (· ^^^ c.maskOf carryj) (· ^^^ c.maskOf carryk) (c.maskOf carryk)
    (fun x y => (x ||| y) ^^^ c.maskOf carryi) i j jlen k klen carryi carryj carryk
  assert (a.carryi = 0)
  mpnRemoveTrailingZeros i jlen

def mpnXorNeg (i j : Ref ι) (jlen : Nat) (k : Ref ι) (klen carryi carryj carryk : Nat) : M c ι Nat := do
  let a ← mpnNegLoop (· + c.mask) (· + c.mask) c.mask (· ^^^ ·) i j jlen k klen carryi carryj carryk
  if 0 ≠ a.carryi then
    writeDig i jlen a.carryi
    mpnRemoveTrailingZeros i (jlen + 1)
  else mpnRemoveTrailingZeros i jlen

/-- One digit of `k`; the length of `i` after it. -/
def mpnMulRow (i j : Ref ι) (jlen : Nat) (k : Ref ι) (q : Nat) : M c ι Nat := do
  let carry ← sweep i q (fun p carry => do
    let carry := c.dbl (carry + c.dbl ((← readDig i (q + p)) + c.dbl ((← readDig j p) * (← readDig k q))))
    pure (carry >>> c.digSize, carry &&& c.mask)) jlen 0 0
  if carry ≠ 0 then
    writeDig i (q + jlen) carry
    pure (q + jlen + 1)
  else pure (q + jlen)

def mpnMulLoop (i j : Ref ι) (jlen : Nat) (k : Ref ι) : Nat → Nat → Nat → M c ι Nat
  | 0, _, ilen => pure ilen
  | n + 1, q, _ => do mpnMulLoop i j jlen k n (q + 1) (← mpnMulRow i j jlen k q)

def mpnMul (i j : Ref ι) (jlen : Nat) (k : Ref ι) (klen : Nat) : M c ι Nat := mpnMulLoop i j jlen k klen 0 0

/-- The leading zeros of a digit: `d` is shifted until its leading bit is set. -/
def normShift (d : Nat) : M c ι Nat :=
  Prog.loop .stuck (fun (d, shift) => pure (if d &&& c.msb = 0 then .inl (c.dig (d <<< 1), shift + 1) else .inr shift)) c.digSize (d, 0)

/-- The numerator is shifted in place. -/
def mpnDivNorm (num : Ref ι) (shift numLen : Nat) : M c ι Nat :=
  sweep num 0 (fun p carry => do
    let n ← readDig num p
    pure (c.dig (n >>> (c.digSize - shift)), ((n <<< shift) ||| carry) &&& c.mask)) numLen 0 0

/-- The denominator is shifted as it is read: a digit of it joins what the one below left over. -/
def nextNorm (den : Ref ι) (shift p dNorm : Nat) : M c ι Nat := do
  pure (c.dbl ((← readDig den p) <<< shift) ||| (dNorm >>> c.digSize))

def leadDenDigit (den : Ref ι) (denLen shift : Nat) : M c ι Nat := do
  let lead := c.dbl ((← readDig den (denLen - 1)) <<< shift)
  if denLen ≥ 2 then pure (lead ||| ((← readDig den (denLen - 2)) >>> (c.digSize - shift))) else pure lead

/-- `quo * den` is taken from the digits of `num` from `n` on; the last `d_norm` and the borrow. -/
def mpnDivSub (num den : Ref ι) (denLen shift quo n : Nat) : M c ι (Nat × Int) :=
  sweep num n (fun p a => do
    let dNorm ← nextNorm den shift p a.1
    let x := c.dbl (quo * (dNorm &&& c.mask))
    let lowDigs := c.sdbl (c.lowDig a.2 + (← readDig num (n + p)) - (x &&& c.mask : Nat))
    pure ((dNorm, c.sdbl ((a.2 >>> c.digSize) - (x >>> c.digSize : Nat) + (lowDigs >>> c.digSize))), c.lowDig lowDigs)) denLen 0 (0, 0)

/-- `den` is added back; the last `d_norm` and the carry. -/
def mpnDivAdd (num den : Ref ι) (denLen shift n : Nat) : M c ι (Nat × Nat) :=
  sweep num n (fun p a => do
    let dNorm ← nextNorm den shift p a.1
    let carry := c.dbl (a.2 + ((← readDig num (n + p)) + (dNorm &&& c.mask)))
    pure ((dNorm, carry >>> c.digSize), carry &&& c.mask)) denLen 0 (0, 0)

/-- A turn of `for (; borrow != 0; --quo)` -/
def mpnDivBackTurn (num den : Ref ι) (denLen shift n : Nat) (st : Nat × Int) : M c ι (Nat × Int ⊕ Nat) := do
  if st.2 ≠ 0 then
    let a ← mpnDivAdd num den denLen shift n
    pure (.inl (c.dbl (st.1 + (2 ^ c.dblBits - 1)), c.sdbl (st.2 + a.2)))
  else pure (.inr st.1)

/-- The loop, for no more turns than `quo` has units. -/
def mpnDivBack (num den : Ref ι) (denLen shift n quo : Nat) (borrow : Int) : M c ι Nat :=
  Prog.loop .stuck (mpnDivBackTurn num den denLen shift n) (quo + 1) (quo, borrow)

/-- One digit of the quotient, at `n`; `num` has `den_len + n + 1` digits. -/
def mpnDivStep (num den : Ref ι) (denLen : Nat) (quoDig : Ref ι) (shift lead n : Nat) : M c ι Unit := do
  let quo := c.dbl ((← readDig num (denLen + n)) <<< c.digSize) ||| (← readDig num (denLen + n - 1))
  let quo := quo / lead
  let a ← mpnDivSub num den denLen shift quo n
  let borrow := c.sdbl (a.2 + (← readDig num (denLen + n)))
  let quo ← mpnDivBack num den denLen shift n quo borrow
  writeDig quoDig n (quo &&& c.mask)

/-- The digits of the quotient from the highest down. -/
def mpnDivLoop (num den : Ref ι) (denLen : Nat) (quoDig : Ref ι) (shift lead : Nat) : Nat → M c ι Unit
  | 0 => pure ()
  | n + 1 => do
    mpnDivStep num den denLen quoDig shift lead n
    mpnDivLoop num den denLen quoDig shift lead n

/-- Back from the shift, from the high end. -/
def mpnDivUnnorm (num : Ref ι) (shift : Nat) : Nat → Nat → M c ι Unit
  | 0, _ => pure ()
  | n + 1, carry => do
    let d ← readDig num n
    writeDig num n (((d >>> shift) ||| carry) &&& c.mask)
    mpnDivUnnorm num shift n (c.dig (c.dbl (d <<< (c.digSize - shift))))

/-- The lengths of `num`, which has become the remainder, and of the quotient. -/
def mpnDiv (num : Ref ι) (numLen : Nat) (den : Ref ι) (denLen : Nat) (quoDig : Ref ι) : M c ι (Nat × Nat) := do
  let cmp ← mpnCmp num numLen den denLen
  if cmp = 0 then
    writeDig quoDig 0 1
    pure (0, 1)
  else if cmp < 0 then pure (numLen, 0)
  else
    let shift ← normShift (← readDig den (denLen - 1))
    writeDig num numLen 0
    let _ ← mpnDivNorm num shift (numLen + 1)
    let lead ← leadDenDigit den denLen shift
    let quoLen := numLen + 1 - denLen
    mpnDivLoop num den denLen quoDig shift lead quoLen
    mpnDivUnnorm num shift denLen 0
    let quoLen ← mpnRemoveTrailingZeros quoDig quoLen
    let numLen ← mpnRemoveTrailingZeros num denLen
    pure (numLen, quoLen)

/-! ## Numbers with a sign -/

/-- `MIN_ALLOC` -/
def minAlloc : Nat := 2

def initZero : MpzT c where
  neg := false
  fixedDig := false
  alloc := 0
  len := 0
  dig _ := 0
  alloc_lt := Nat.two_pow_pos _

/-- A digit array after `m_renew`. -/
def MpzT.grown (z : MpzT c) (need : Nat) (h : c.granted need = true) : MpzT c :=
  { z with
    alloc := need
    dig := fun p => if p < z.alloc then z.dig p else c.junk need p
    alloc_lt := c.granted_lt h }

def mpzNeedDig (z : Ref ι) (need : Nat) : M c ι Unit := do
  let need := if need < minAlloc then minAlloc else need
  if (← look z MpzT.alloc) < need then
    assert !(← look z MpzT.fixedDig)
    if h : c.granted need = true then change z fun z => z.grown need h else Prog.throw .memory
  else pure ()

/-- Into an object of the caller's own. -/
def mpzClone (t : Temp) (src : Ref ι) : M c ι (Ref ι) := do
  assert ((← look src MpzT.alloc) ≠ 0)
  let z ← look src id
  if c.granted z.alloc = true then
    change (.temp t) fun _ => { z with fixedDig := false }
    pure (.temp t)
  else Prog.throw .memory

def mpzSet (dest src : Ref ι) : M c ι Unit := do
  mpzNeedDig dest (← look src MpzT.len)
  setNeg dest (← look src MpzT.neg)
  setLen dest (← look src MpzT.len)
  copyDig dest src (← look src MpzT.len)

/-- The digits of `uval`, from `z->len` on; `fuel` is more than it has. -/
def setDigits (z : Ref ι) : Nat → Nat → M c ι Unit
  | 0, _ => pure ()
  | fuel + 1, uval =>
    if uval > 0 then do
      let len ← look z MpzT.len
      writeDig z len (uval &&& c.mask)
      setLen z (len + 1)
      setDigits z fuel (uval >>> c.digSize)
    else pure ()

/-- `MPZ_NUM_DIG_FOR_INT`, and `MPZ_NUM_DIG_FOR_LL` for 64 bits -/
def Config.numDigFor (c : Config) (bits : Nat) : Nat := (bits + c.digSize - 1) / c.digSize

/-- `val` is an `mp_int_t`; `-val` is taken as an `mp_uint_t`. -/
def mpzSetFromInt (z : Ref ι) (val : Int) : M c ι Unit := do
  if val = 0 then
    setNeg z false
    setLen z 0
  else
    mpzNeedDig z (c.numDigFor c.wordBits)
    setNeg z (val < 0)
    setLen z 0
    setDigits z (val.natAbs + 1) val.natAbs

/-- `val` is a `long long`, with `isSigned`. -/
def mpzSetFromLl (z : Ref ι) (val : Int) : M c ι Unit := do
  mpzNeedDig z (c.numDigFor 64)
  setNeg z (val < 0)
  setLen z 0
  setDigits z (val.natAbs + 1) val.natAbs

/-- `if (dest != z) mpz_set(dest, z)` -/
def copyTo (dest z : Ref ι) : M c ι Unit := if dest ≠ z then mpzSet dest z else pure ()

def mpzAbsInpl (dest z : Ref ι) : M c ι Unit := do
  copyTo dest z
  setNeg dest false

def mpzNegInpl (dest z : Ref ι) : M c ι Unit := do
  copyTo dest z
  if (← look dest MpzT.len) ≠ 0 then setNeg dest !(← look dest MpzT.neg)

/-- A digit in memory of its own. -/
def MpzT.ofDig (k : Nat) : MpzT c where
  neg := false
  fixedDig := true
  alloc := 1
  len := 1
  dig _ := k
  alloc_lt := Nat.one_lt_two_pow (by have := c.four_le_digSize; have := c.digSize_lt_wordBits; omega)

def mpzNotInpl (dest z : Ref ι) : M c ι Unit := do
  copyTo dest z
  if (← look dest MpzT.len) = 0 then
    mpzNeedDig dest 1
    writeDig dest 0 1
    setLen dest 1
    setNeg dest true
  else if ← look dest MpzT.neg then
    setNeg dest false
    change (.temp .k) fun _ => .ofDig 1
    setLen dest (← mpnSub dest dest (← look dest MpzT.len) (.temp .k) 1)
  else
    mpzNeedDig dest ((← look dest MpzT.len) + 1)
    change (.temp .k) fun _ => .ofDig 1
    setLen dest (← mpnAdd dest dest (← look dest MpzT.len) (.temp .k) 1)
    setNeg dest true

def mpzShlInpl (dest lhs : Ref ι) (rhs : Nat) : M c ι Unit := do
  if (← look lhs MpzT.len) = 0 ∨ rhs = 0 then mpzSet dest lhs
  else
    mpzNeedDig dest ((← look lhs MpzT.len) + c.word (rhs + c.digSize - 1) / c.digSize)
    setLen dest (← mpnShl dest lhs (← look lhs MpzT.len) rhs)
    setNeg dest (← look lhs MpzT.neg)

/-- Whether one of the digits from `p` on is not zero; `n` of them are left. -/
def anyDig (r : Ref ι) : Nat → Nat → M c ι Bool
  | 0, _ => pure false
  | n + 1, p => do
    if (← readDig r p) ≠ 0 then pure true else anyDig r n (p + 1)

/-- `round_up`: a bit that the shift takes out is set. -/
def roundUp (lhs : Ref ι) (rhs : Nat) : M c ι Bool := do
  let nWhole := rhs / c.digSize
  let nPart := rhs % c.digSize
  let len ← look lhs MpzT.len
  let below ← anyDig lhs (min len nWhole) 0
  if nWhole < len then pure (below || (← readDig lhs nWhole) &&& (1 <<< nPart - 1) != 0) else pure below

/-- One more in magnitude. -/
def addRoundUp (dest : Ref ι) : M c ι Unit := do
  if (← look dest MpzT.len) = 0 then
    writeDig dest 0 1
    setLen dest 1
  else
    change (.temp .k) fun _ => .ofDig 1
    setLen dest (← mpnAdd dest dest (← look dest MpzT.len) (.temp .k) 1)

def mpzShrInpl (dest lhs : Ref ι) (rhs : Nat) : M c ι Unit := do
  if (← look lhs MpzT.len) = 0 ∨ rhs = 0 then mpzSet dest lhs
  else
    mpzNeedDig dest (← look lhs MpzT.len)
    setLen dest (← mpnShr dest lhs (← look lhs MpzT.len) rhs)
    setNeg dest (← look lhs MpzT.neg)
    if ← look dest MpzT.neg then
      if ← roundUp lhs rhs then addRoundUp dest

/-- The sum of the magnitudes, `lhs` having the greater one. -/
def addMag (dest lhs rhs : Ref ι) : M c ι Unit := do
  mpzNeedDig dest ((← look lhs MpzT.len) + 1)
  setLen dest (← mpnAdd dest lhs (← look lhs MpzT.len) rhs (← look rhs MpzT.len))

/-- Their difference. -/
def subMag (dest lhs rhs : Ref ι) : M c ι Unit := do
  mpzNeedDig dest (← look lhs MpzT.len)
  setLen dest (← mpnSub dest lhs (← look lhs MpzT.len) rhs (← look rhs MpzT.len))

/-- The rest of mpz_add_inpl, after the swap. -/
def mpzAddOrdered (dest lhs rhs : Ref ι) : M c ι Unit := do
  if (← look lhs MpzT.neg) = (← look rhs MpzT.neg) then addMag dest lhs rhs else subMag dest lhs rhs
  setNeg dest ((← look lhs MpzT.neg) && decide ((← look dest MpzT.len) ≠ 0))

def mpzAddInpl (dest lhs rhs : Ref ι) : M c ι Unit := do
  let cmp ← mpnCmp lhs (← look lhs MpzT.len) rhs (← look rhs MpzT.len)
  if cmp < 0 then mpzAddOrdered dest rhs lhs else mpzAddOrdered dest lhs rhs

/-- The rest of mpz_sub_inpl; `neg` says that there was a swap. -/
def mpzSubOrdered (dest lhs rhs : Ref ι) (neg : Bool) : M c ι Unit := do
  if (← look lhs MpzT.neg) ≠ (← look rhs MpzT.neg) then addMag dest lhs rhs else subMag dest lhs rhs
  if (← look dest MpzT.len) = 0 then setNeg dest false
  else if neg then setNeg dest !(← look lhs MpzT.neg)
  else setNeg dest (← look lhs MpzT.neg)

def mpzSubInpl (dest lhs rhs : Ref ι) : M c ι Unit := do
  let cmp ← mpnCmp lhs (← look lhs MpzT.len) rhs (← look rhs MpzT.len)
  if cmp < 0 then mpzSubOrdered dest rhs lhs true else mpzSubOrdered dest lhs rhs false

/-- The operand with the most digits first. -/
def mostDigits (op : Ref ι → Ref ι → M c ι Unit) (lhs rhs : Ref ι) : M c ι Unit := do
  if (← look lhs MpzT.len) < (← look rhs MpzT.len) then op rhs lhs else op lhs rhs

def mpzAndOrdered (dest lhs rhs : Ref ι) : M c ι Unit := do
  let lneg ← look lhs MpzT.neg
  let rneg ← look rhs MpzT.neg
  if c.optBitwise then
    if !lneg && !rneg then
      mpzNeedDig dest (← look lhs MpzT.len)
      setLen dest (← mpnAnd dest lhs rhs (← look rhs MpzT.len))
      setNeg dest false
    else
      mpzNeedDig dest ((← look lhs MpzT.len) + 1)
      setLen dest (← mpnAndNeg dest lhs (← look lhs MpzT.len) rhs (← look rhs MpzT.len)
        (lneg == rneg).toNat lneg.toNat rneg.toNat)
      setNeg dest ((← look lhs MpzT.neg) && (← look rhs MpzT.neg))
  else
    mpzNeedDig dest ((← look lhs MpzT.len) + (lneg || rneg).toNat)
    setLen dest (← mpnAndNeg dest lhs (← look lhs MpzT.len) rhs (← look rhs MpzT.len)
      (if lneg = rneg then lneg.toNat else 0) lneg.toNat rneg.toNat)
    setNeg dest ((← look lhs MpzT.neg) && (← look rhs MpzT.neg))

def mpzAndInpl (dest lhs rhs : Ref ι) : M c ι Unit := mostDigits (mpzAndOrdered dest) lhs rhs

def mpzOrOrdered (dest lhs rhs : Ref ι) : M c ι Unit := do
  let lneg ← look lhs MpzT.neg
  let rneg ← look rhs MpzT.neg
  if c.optBitwise then
    if !lneg && !rneg then
      mpzNeedDig dest (← look lhs MpzT.len)
      setLen dest (← mpnOr dest lhs (← look lhs MpzT.len) rhs (← look rhs MpzT.len))
      setNeg dest false
    else
      -- the variant of mpn_or_neg under the option has no carryi of its caller's: it is 1
      mpzNeedDig dest ((← look lhs MpzT.len) + 1)
      setLen dest (← mpnOrNeg dest lhs (← look lhs MpzT.len) rhs (← look rhs MpzT.len) 1 lneg.toNat rneg.toNat)
      setNeg dest true
  else
    mpzNeedDig dest ((← look lhs MpzT.len) + (lneg || rneg).toNat)
    setLen dest (← mpnOrNeg dest lhs (← look lhs MpzT.len) rhs (← look rhs MpzT.len)
      (lneg || rneg).toNat lneg.toNat rneg.toNat)
    setNeg dest ((← look lhs MpzT.neg) || (← look rhs MpzT.neg))

def mpzOrInpl (dest lhs rhs : Ref ι) : M c ι Unit := mostDigits (mpzOrOrdered dest) lhs rhs

def mpzXorOrdered (dest lhs rhs : Ref ι) : M c ι Unit := do
  let lneg ← look lhs MpzT.neg
  let rneg ← look rhs MpzT.neg
  if c.optBitwise then
    if lneg = rneg then
      mpzNeedDig dest (← look lhs MpzT.len)
      if !(← look lhs MpzT.neg) then
        setLen dest (← mpnXor dest lhs (← look lhs MpzT.len) rhs (← look rhs MpzT.len))
      else
        setLen dest (← mpnXorNeg dest lhs (← look lhs MpzT.len) rhs (← look rhs MpzT.len) 0 0 0)
      setNeg dest false
    else
      mpzNeedDig dest ((← look lhs MpzT.len) + 1)
      setLen dest (← mpnXorNeg dest lhs (← look lhs MpzT.len) rhs (← look rhs MpzT.len) 1 (!lneg).toNat (!rneg).toNat)
      setNeg dest true
  else
    mpzNeedDig dest ((← look lhs MpzT.len) + (lneg || rneg).toNat)
    setLen dest (← mpnXorNeg dest lhs (← look lhs MpzT.len) rhs (← look rhs MpzT.len)
      (lneg != rneg).toNat (!lneg).toNat (!rneg).toNat)
    setNeg dest ((← look lhs MpzT.neg) ^^ (← look rhs MpzT.neg))

def mpzXorInpl (dest lhs rhs : Ref ι) : M c ι Unit := mostDigits (mpzXorOrdered dest) lhs rhs

/-- The rest of mpz_mul_inpl, where `dest` is neither operand. -/
def mpzMulApart (dest lhs rhs : Ref ι) : M c ι Unit := do
  mpzNeedDig dest ((← look lhs MpzT.len) + (← look rhs MpzT.len))
  zeroDig dest (← look dest MpzT.alloc)
  setLen dest (← mpnMul dest lhs (← look lhs MpzT.len) rhs (← look rhs MpzT.len))
  setNeg dest ((← look lhs MpzT.neg) != (← look rhs MpzT.neg))

def mpzMulInpl (dest lhs rhs : Ref ι) : M c ι Unit := do
  if (← look lhs MpzT.len) = 0 ∨ (← look rhs MpzT.len) = 0 then mpzSetFromInt dest 0
  else if lhs = dest then
    let temp ← mpzClone .mulTemp lhs
    mpzMulApart dest temp (if rhs = dest then temp else rhs)
  else if rhs = dest then
    let temp ← mpzClone .mulTemp rhs
    mpzMulApart dest lhs temp
  else mpzMulApart dest lhs rhs

/-- `mpz_init_from_int` -/
def mpzInitFromInt (z : Ref ι) (val : Int) : M c ι Unit := do
  change z fun _ => initZero
  mpzSetFromInt z val

/-- The end of mpz_divmod_inpl: check signs and do Python style modulo. -/
def pythonModulo (destQuo destRem lhs rhs : Ref ι) : M c ι Unit := do
  if (← look lhs MpzT.neg) ≠ (← look rhs MpzT.neg) then
    setNeg destQuo (decide ((← look destQuo MpzT.len) ≠ 0))
    if (← look destRem MpzT.len) ≠ 0 then
      mpzInitFromInt (.temp .mpzone) (-1)
      mpzAddInpl destQuo destQuo (.temp .mpzone)
      mpzAddInpl destRem destRem rhs

/-- The start of mpz_divmod_inpl: a quotient of zeros, and the dividend where the remainder will be. -/
def divPrepare (destQuo destRem lhs : Ref ι) : M c ι Unit := do
  mpzNeedDig destQuo ((← look lhs MpzT.len) + 1)
  zeroDig destQuo ((← look lhs MpzT.len) + 1)
  setNeg destQuo false
  setLen destQuo 0
  mpzNeedDig destRem ((← look lhs MpzT.len) + 1)
  mpzSet destRem lhs

def mpzDivmodInpl (destQuo destRem lhs rhs : Ref ι) : M c ι Unit := do
  assert ((← look rhs MpzT.len) ≠ 0)
  divPrepare destQuo destRem lhs
  let lens ← mpnDiv destRem (← look destRem MpzT.len) rhs (← look rhs MpzT.len) destQuo
  setLen destRem lens.1
  setLen destQuo lens.2
  setNeg destRem ((← look destRem MpzT.neg) && decide ((← look destRem MpzT.len) ≠ 0))
  pythonModulo destQuo destRem lhs rhs

/-- Digits on the stack, as many as a machine integer needs, with whatever stands there. -/
def MpzT.fixed : MpzT c where
  neg := false
  fixedDig := true
  alloc := c.numDigFor c.wordBits
  len := 0
  dig := c.junk (c.numDigFor c.wordBits)
  alloc_lt := by
    have h4 := c.four_le_digSize
    have hw := c.digSize_lt_wordBits
    have hdiv : (c.wordBits + c.digSize - 1) / c.digSize ≤ c.wordBits - 2 := by
      refine Nat.lt_succ_iff.mp (Nat.div_lt_of_lt_mul ?_)
      have hmul := Nat.mul_le_mul_right (c.wordBits - 2) h4
      rw [Nat.succ_eq_add_one, Nat.mul_add, Nat.mul_one]
      omega
    exact Nat.lt_of_le_of_lt hdiv Nat.lt_two_pow_self

def mpzInitFixedFromInt (z : Ref ι) (val : Int) : M c ι Unit := do
  change z fun _ => .fixed
  mpzSetFromInt z val

def powOdd (dest x n : Ref ι) : M c ι Unit := do
  if (← readDig n 0) &&& 1 ≠ 0 then mpzMulInpl dest dest x

/-- A turn of the loop of mpz_pow_inpl: `true` to go on. -/
def powTurn (dest x n : Ref ι) : M c ι Bool := do
  if (← look n MpzT.len) > 0 then
    powOdd dest x n
    setLen n (← mpnShr n n (← look n MpzT.len) 1)
    if (← look n MpzT.len) = 0 then pure false
    else
      mpzMulInpl x x x
      pure true
  else pure false

/-- The loop, for no more turns than the exponent has bits. -/
def powLoop (dest x n : Ref ι) (turns : Nat) : M c ι Unit :=
  Prog.loop .stuck (fun _ => do pure (if ← powTurn dest x n then .inl () else .inr ())) turns ()

def mpzPowInpl (dest lhs rhs : Ref ι) : M c ι Unit := do
  if (← look lhs MpzT.len) = 0 ∨ (← look rhs MpzT.neg) then mpzSetFromInt dest 0
  else if (← look rhs MpzT.len) = 0 then mpzSetFromInt dest 1
  else
    let x ← mpzClone .powX lhs
    let n ← mpzClone .powN rhs
    mpzSetFromInt dest 1
    powLoop dest x n ((← look n MpzT.len) * c.digSize)

/-! ## Reading numbers -/

def mpzCmp (z1 z2 : Ref ι) : M c ι Int := do
  let cmp : Int := (← look z2 MpzT.neg).toNat - (← look z1 MpzT.neg).toNat
  if cmp ≠ 0 then pure cmp
  else
    let cmp ← mpnCmp z1 (← look z1 MpzT.len) z2 (← look z2 MpzT.len)
    if ← look z1 MpzT.neg then pure (-cmp) else pure cmp

/-- An `mp_uint_t` read as an `mp_int_t`. -/
def Config.sword (c : Config) (x : Int) : Int := x.bmod (2 ^ c.wordBits)

/-- The digits from the highest down; `none` where the next one would overflow. -/
def asIntLoop (i : Ref ι) : Nat → Nat → M c ι (Option Nat)
  | 0, val => pure (some val)
  | n + 1, val => do
    if val > (2 ^ (c.wordBits - 1) - 1) >>> c.digSize then pure none
    else asIntLoop i n (c.word (val <<< c.digSize) ||| (← readDig i n))

def mpzAsIntChecked (i : Ref ι) : M c ι (Option Int) := do
  match ← asIntLoop i (← look i MpzT.len) 0 with
  | none => pure none
  | some val => if ← look i MpzT.neg then pure (some (c.sword (-val))) else pure (some (c.sword val))

def hashLoop (i : Ref ι) : Nat → Nat → M c ι Nat
  | 0, val => pure val
  | n + 1, val => do hashLoop i n (c.word (val <<< c.digSize) ||| (← readDig i n))

def mpzHash (z : Ref ι) : M c ι Int := do
  let val ← hashLoop z (← look z MpzT.len) 0
  if ← look z MpzT.neg then pure (c.sword (-val)) else pure (c.sword val)

end PythonUltra.Py.Mpz
