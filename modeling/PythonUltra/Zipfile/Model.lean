/-
  PythonUltra.Zipfile.Model — the zipfile module (modules/zipfile/__init__.py).

  The functions follow the source, under its names without the leading underscore. A
  generator consumed by a for loop (`_walk`) is a recursion that takes the loop's body; a
  list that outlives an exception (`created_files`, `created_folders`) is a variable
  beside the world (`Created`). Loops take fuel, each as much as it can need.

  DEFLATE is the parameter `Codec`: a compressor that may write at every call, and a
  decompressor, which turns the bytes from some position on into the non-empty blocks
  read before the end of the stream or an exception. crc32 is uzlib's.
-/

import PythonUltra.Os.Tests
import PythonUltra.Lib.Struct
import Mathlib.Data.List.Sort

namespace PythonUltra.Zipfile

open PythonUltra.Lib PythonUltra.Lib.Prog PythonUltra.Os

/-! ## Paths -/

/-- `path.rstrip("/")`. -/
def rstrip (path : Str) : Str := path.rdropWhile (· == slash)

def join (parts : List Str) : Str := [slash].intercalate parts

def parent (path : Str) : Str :=
  let parts := (rstrip path).splitOn slash
  let value := join parts.dropLast
  if value ≠ [] then value else [slash]

/-- `_join`. -/
def joinPath (folder name : Str) : Str := if folder = [slash] then slash :: name else rstrip folder ++ slash :: name

def absolute (path : Str) : Call Str := do
  let path ← if path.head? = some slash then pure path else do pure (rstrip (← getcwd) ++ slash :: path)
  return pathStr ((path.splitOn slash).foldl
    (fun parts part => if part = dotdot then parts.dropLast else if part ≠ [] ∧ part ≠ dot then parts ++ [part] else parts)
    [])

def size (path : Str) : Call Nat := do return (← stat path).size

/-- `created_files` and `created_folders`. -/
structure Created where
  files : List Str
  folders : List Str
  deriving DecidableEq, Repr

abbrev Extract := Prog (World × Created) Exc

/-- One turn of `_mkdirs`' loop past the choice of `current`. -/
def mkdirOne (current : Str) : Extract Unit :=
  tryCatch (do
      lift (mkdir current)
      modify fun s => (s.1, { s.2 with folders := s.2.folders ++ [current] }))
    fun e => match e with
      | .osError e => do if !(← lift (isDir current)) then throw (.osError e)
      | e => throw e

/-- `current` with the next part. -/
def nextPart (current : Option Str) (part : Str) : Str :=
  match current with
  | none => part
  | some [] => slash :: part
  | some c => c ++ slash :: part

def mkdirs (path : Str) : Extract Unit :=
  if path = [] ∨ path = [slash] then return
  else do
    let _ ← (path.splitOn slash).foldlM (fun (current : Option Str) part =>
      if part = [] then pure current
      else do
        mkdirOne (nextPart current part)
        pure (some (nextPart current part))) (if path.head? = some slash then some [] else none)

/-- A call whose OSError is passed over. -/
def ignoreOSError (x : Call Unit) : Call Unit :=
  tryCatch x fun e => match e with
    | .osError _ => return
    | e => throw e

def cleanup (files folders : List Str) : Call Unit := do
  files.reverse.foldlM (fun _ path => ignoreOSError (remove path)) ()
  folders.reverse.foldlM (fun _ path => ignoreOSError (rmdir path)) ()

def backslash : UInt8 := 92

/-- One turn of `_safe_name`'s loop. -/
def safePart (parts : List Str) (part : Str) : Except Exc (List Str) :=
  if part = [] ∨ part = dot then .ok parts
  else if part = dotdot then .error (.valueError "unsafe ZIP path" [])
  else .ok (parts ++ [part])

def safeName (name : Str) : Except Exc Str := do
  let name := name.map fun c => if c = backslash then slash else c
  let name := name.dropWhile (· == slash)
  return join (← (name.splitOn slash).foldlM safePart [])

/-! ## Codecs -/

structure Codec where
  State : Type
  start : State
  write : State → Bytes → Bytes × State
  close : State → Bytes
  inflate : Bytes → List Bytes × Option Exc

/-- `tinf_crc32tab`. -/
def crc32tab : List UInt32 :=
  [0x00000000, 0x1db71064, 0x3b6e20c8, 0x26d930ac, 0x76dc4190, 0x6b6b51f4, 0x4db26158, 0x5005713c,
   0xedb88320, 0xf00f9344, 0xd6d6a3e8, 0xcb61b38c, 0x9b64c2b0, 0x86d3d2d4, 0xa00ae278, 0xbdbdf21c]

def crcNibble (crc : UInt32) : UInt32 := crc32tab.getD (crc &&& 0x0f).toNat 0 ^^^ (crc >>> 4)

def crcByte (crc : UInt32) (b : UInt8) : UInt32 := crcNibble (crcNibble (crc ^^^ b.toUInt32))

/-- `binascii.crc32(block, crc)`. -/
def crc32 (block : Bytes) (crc : UInt32) : UInt32 := block.foldl crcByte (crc ^^^ 0xffffffff) ^^^ 0xffffffff

/-! ## Writing -/

def localSig : Nat := 0x04034B50
def centralSig : Nat := 0x02014B50
def eocdSig : Nat := 0x06054B50

/-- `<IHHHHHIIIHH`. -/
def localFmt : List Nat := [4, 2, 2, 2, 2, 2, 4, 4, 4, 2, 2]
/-- `<IHHHHHHIIIHHHHHII`. -/
def centralFmt : List Nat := [4, 2, 2, 2, 2, 2, 2, 4, 4, 4, 2, 2, 2, 2, 2, 4, 4]
/-- `<IHHHHIIH`. -/
def eocdFmt : List Nat := [4, 2, 2, 2, 2, 4, 4, 2]

structure Record where
  name : Bytes
  flags : Nat
  method : Nat
  crc : UInt32
  csize : Nat
  usize : Nat
  localOffset : Nat
  isDir : Bool
  deriving DecidableEq, Repr

/-- The central directory's record of an entry. -/
def centralRecord (r : Record) : Bytes :=
  Struct.pack centralFmt [centralSig, 20, 20, r.flags, r.method, 0, 0, r.crc.toNat, r.csize, r.usize, r.name.length,
    0, 0, 0, 0, if r.isDir then 0x10 else 0, r.localOffset]

def endRecord (count centralSize centralOffset : Nat) : Bytes :=
  Struct.pack eocdFmt [eocdSig, 0, 0, count, count, centralSize, centralOffset, 0]

/-! ## Reading -/

/-- `PK\x05\x06`. -/
def signature : Bytes := [0x50, 0x4B, 0x05, 0x06]

/-- `data.rfind(sig)`. -/
def rfind (sig : Bytes) : Bytes → Option Nat
  | [] => if sig = [] then some 0 else none
  | b :: data =>
    match rfind sig data with
    | some i => some (i + 1)
    | none => if sig.isPrefixOf (b :: data) then some 0 else none

def findEocdLoop (f : Reader) (limit : Nat) : Nat → Nat → Bytes → Call Nat
  | 0, _, _ => throw .runtimeError
  | fuel + 1, pos, carry =>
    if pos > limit then do
      let start := max limit (pos - 2048)
      let f ← f.seek start
      let data := (← f.read (pos - start)).1 ++ carry
      match rfind signature data with
      | some idx => return start + idx
      | none => findEocdLoop f limit fuel start (data.take 3)
    else throw (.valueError "ZIP end record not found" [])

def findEocd (f : Reader) (totalSize : Nat) : Call Nat :=
  findEocdLoop f (totalSize - 65557) (totalSize + 1) totalSize []

structure Entry where
  name : Str
  flags : Nat
  method : Nat
  crc : Nat
  csize : Nat
  usize : Nat
  localOffset : Nat
  deriving DecidableEq, Repr

/-- `name_bytes.decode("utf-8")`, and after a UnicodeError `decode("latin-1")`, which
    MicroPython decodes as UTF-8 too. -/
def decodeName (b : Bytes) : Call Str := if utf8Check b then return b else throw .unicodeError

/-- `count` records of the central directory. -/
def centralLoop : Nat → Reader → List Entry → Call (List Entry)
  | 0, _, result => return result
  | count + 1, f, result => do
    let (fixed, f) ← f.read 46
    if fixed.length ≠ 46 then throw (.valueError "truncated central directory" [])
    let values := Struct.unpack centralFmt fixed
    if values.getD 0 0 ≠ centralSig then throw (.valueError "bad central directory" [])
    let (nameBytes, f) ← f.read (values.getD 10 0)
    let f ← f.seekCur (values.getD 11 0 + values.getD 12 0)
    let name ← decodeName nameBytes
    centralLoop count f (result ++ [⟨name, values.getD 3 0, values.getD 4 0, values.getD 7 0, values.getD 8 0,
      values.getD 9 0, values.getD 16 0⟩])

def entries (archive : Str) : Call (List Entry) := do
  let size ← size archive
  let f ← openRead archive
  closing (do
    let eocd ← findEocd f size
    let f ← f.seek eocd
    let (raw, f) ← f.read 22
    if raw.length ≠ 22 then throw (.valueError "truncated ZIP" [])
    let v := Struct.unpack eocdFmt raw
    if v.getD 0 0 ≠ eocdSig ∨ v.getD 1 0 ≠ 0 ∨ v.getD 2 0 ≠ 0 ∨ v.getD 3 0 ≠ v.getD 4 0 then
      throw (.valueError "unsupported multi-disk ZIP" [])
    let f ← f.seek (v.getD 6 0)
    centralLoop (v.getD 4 0) f []) io

/-- The loop over a stored entry: the bytes written and their crc. -/
def storedLoop (out : Path) : Nat → Reader → Nat → Nat → UInt32 → Call (Nat × UInt32)
  | 0, _, _, _, _ => throw .runtimeError
  | fuel + 1, src, remaining, written, crc => do
    if remaining = 0 then return (written, crc)
    else
      let (block, src) ← src.read (min 1024 remaining)
      if block = [] then throw (.valueError "truncated stored entry" [])
      write out block
      storedLoop out fuel src (remaining - block.length) (written + block.length) (crc32 block crc)

/-- The loop over a deflated entry. -/
def inflateLoop (z : Codec) (out : Path) (src : Reader) : Call (Nat × UInt32) := do
  let data := ((← get).contents src.path).drop src.pos
  let r ← (z.inflate data).1.foldlM (fun (r : Nat × UInt32) block => do
    io
    write out block
    return (r.1 + block.length, crc32 block r.2)) (0, 0)
  match (z.inflate data).2 with
  | some e => throw e
  | none => return r

/-- `str(n)`. -/
def strOfNat (n : Nat) : Str := (Nat.toDigits 10 n).map fun c => UInt8.ofNat c.toNat

/-- The body of the inner with statement of `extract`. -/
def copyEntry (z : Codec) (out : Path) (src : Reader) (e : Entry) : Call (Nat × UInt32) :=
  if e.method = 0 then storedLoop out (e.csize + 1) src e.csize 0 0
  else if e.method = 8 then inflateLoop z out src
  else throw (.valueError "unsupported ZIP method " (strOfNat e.method))

/-- The local header of an entry: where its data starts. -/
def openEntry (src : Reader) (e : Entry) : Call Reader := do
  let src ← src.seek e.localOffset
  let (header, src) ← src.read 30
  if header.length ≠ 30 then throw (.valueError "truncated local header" [])
  let values := Struct.unpack localFmt header
  if values.getD 0 0 ≠ localSig then throw (.valueError "bad local header" [])
  src.seekCur (values.getD 9 0 + values.getD 10 0)

/-- A file entry extracted to `target`, its folder being there. -/
def extractFile (z : Codec) (src : Reader) (e : Entry) (clean target : Str) : Extract Unit := do
  if ← lift (isDir target) then throw (.valueError "ZIP target exists: " clean)
  if ← lift (existsPath target) then throw (.valueError "ZIP target exists: " clean)
  let src ← lift (openEntry src e)
  let out ← lift (openWrite target)
  modify fun s => (s.1, { s.2 with files := s.2.files ++ [target] })
  let (written, crc) ← closing (lift (copyEntry z out src e)) (lift io)
  if written ≠ e.usize ∨ crc.toNat ≠ e.crc then throw (.valueError "ZIP CRC/size mismatch: " clean)

/-- One turn of `extract`'s loop. -/
def extractEntry (z : Codec) (destination : Str) (src : Reader) (e : Entry) : Extract Unit := do
  if e.flags % 2 = 1 then throw (.valueError "encrypted ZIP entries unsupported" [])
  let clean ← ofExcept (safeName e.name)
  if clean = [] then return
  let target := joinPath destination clean
  if [slash].isSuffixOf e.name then mkdirs target
  else
    mkdirs (parent target)
    extractFile z src e clean target

/-- `archive.lower()`. -/
def lower (s : Str) : Str := s.map fun c => if 65 ≤ c ∧ c ≤ 90 then c + 32 else c

def defaultDestination (archive : Str) : Str :=
  if [46, 122, 105, 112].isSuffixOf (lower archive) then archive.take (archive.length - 4)
  else archive ++ [95, 102, 105, 108, 101, 115]

def extract (z : Codec) (archive : Str) (destination : Option Str) : Call Str := do
  let destination := destination.getD (defaultDestination archive)
  withVar ⟨[], []⟩ (tryCatch (do
      let entries ← lift (entries archive)
      mkdirs destination
      let src ← lift (openRead archive)
      closing (entries.foldlM (fun _ e => extractEntry z destination src e) ()) (lift io))
    fun e => do
      let created := (← get).2
      lift (cleanup created.files created.folders)
      throw e)
  return destination

end PythonUltra.Zipfile
