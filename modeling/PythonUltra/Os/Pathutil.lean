/-
  PythonUltra.Os.Pathutil — the path resolver in its buffers (pathutil.c).

  A C string argument is its bytes up to the terminator, NULL is `none`. The output buffer
  is a list of `out_size` bytes, with the length of the text in it. `-1` with errno set is
  an exception of `Lib.Prog`; what was written before stays written. The directory test of
  pe_path_chdir is the answer of stat, which is a parameter.
-/

import PythonUltra.Os.Paths
import PythonUltra.Lib.CMem
import PythonUltra.Lib.Prog

namespace PythonUltra.Os.Pathutil

open PythonUltra.Lib PythonUltra.Lib.CMem

inductive PathErrno where
  | einval
  | enametoolong
  | enotdir
  /-- What stat raised. -/
  | stat (code : Nat)
  deriving DecidableEq, Repr

def pePathMax : Nat := 256

/-- A C string: the bytes before the terminator. -/
abbrev CStr := { s : Str // 0 ∉ s }

/-- `out` and `*length`. -/
structure Out where
  bytes : Str
  length : Nat
  deriving DecidableEq, Repr

abbrev Resolving := Prog Out PathErrno

def peAppendComponent (part : Str) : Resolving Unit := fun o =>
  let need := o.length + (if o.length > 1 then 1 else 0) + part.length + 1
  if need > o.bytes.length then (.error .enametoolong, o)
  else
    let o := if o.length > 1 then ⟨o.bytes.set o.length slash, o.length + 1⟩ else o
    let o : Out := ⟨memcpy o.bytes o.length part, o.length + part.length⟩
    (.ok (), { o with bytes := o.bytes.set o.length 0 })

/-- `while(*length > 1 && out[*length - 1] != '/') (*length)--`. -/
def popScan (bytes : Str) : Nat → Nat
  | 0 => 0
  | n + 1 => if n + 1 > 1 ∧ bytes.getD n 0 ≠ slash then popScan bytes n else n + 1

def pePopComponent : Resolving Unit := fun o =>
  if o.length ≤ 1 then (.ok (), o)
  else
    let length := popScan o.bytes o.length
    let length := if length > 1 then length - 1 else length
    (.ok (), ⟨o.bytes.set length 0, length⟩)

/-- `pe_consume`; a turn uses up a byte of the path at least, so its length is fuel enough. -/
def peConsume : Nat → Str → Resolving Unit
  | 0, _ => pure ()
  | fuel + 1, p =>
    let p := p.dropWhile (· = slash)
    if p = [] then pure ()
    else
      let part := p.takeWhile (· ≠ slash)
      let p := p.dropWhile (· ≠ slash)
      if part = dot then peConsume fuel p
      else if part = dotdot then do
        pePopComponent
        peConsume fuel p
      else do
        peAppendComponent part
        peConsume fuel p

/-- The two calls of pe_consume. -/
def peResolve (cwd path : Str) : Resolving Unit := do
  if path.head? ≠ some slash then peConsume cwd.length cwd
  peConsume path.length path

/-- `pe_cwd` is a buffer; what is in `out` afterwards is returned with the result. -/
def pePathResolve (peCwd : Str) (path : Option CStr) (out : Option Str) : Except PathErrno Unit × Option Str :=
  match path, out with
  | some path, some out =>
    if out.length < 2 then (.error .einval, some out)
    else
      let (r, o) := peResolve (cstr peCwd) path.1 ⟨(out.set 0 slash).set 1 0, 1⟩
      (r, some o.bytes)
  | _, out => (.error .einval, out)

/-- `resolved` is the buffer on the stack, `stat` says whether a path is a directory. -/
def pePathChdir (stat : Str → Except PathErrno Bool) (resolved : Str) (path : Option CStr) (peCwd : Str) :
    Except PathErrno Unit × Str :=
  match pePathResolve peCwd path (some resolved) with
  | (.error e, _) => (.error e, peCwd)
  | (.ok (), out) =>
    let resolved := out.getD []
    match stat (cstr resolved) with
    | .error e => (.error e, peCwd)
    | .ok false => (.error .enotdir, peCwd)
    | .ok true => (.ok (), memcpy peCwd 0 (cstr resolved ++ [0]))

/-- `static char pe_cwd[PE_PATH_MAX] = "/"`. -/
def initialCwd : Str := slash :: List.replicate (pePathMax - 1) 0

/-- The buffers `pe_cwd` can be after any calls of pe_path_chdir. -/
inductive Reachable : Str → Prop where
  | initial : Reachable initialCwd
  | chdir {peCwd : Str} (h : Reachable peCwd) (stat : Str → Except PathErrno Bool) (resolved : Str)
      (hsize : resolved.length = pePathMax) (path : Option CStr) :
      Reachable (pePathChdir stat resolved path peCwd).2

end PythonUltra.Os.Pathutil
