/-
  PythonUltra.Py.EmitBc — the bytecode emitter (py/emitbc.c) and the passes that
  mp_compile_to_raw_code makes with it.

  A pass replays one list of calls; an instruction with its operand is the bytes it is
  encoded to (the index of a name or a constant is given at its first use and stays). An
  assert that fails is recorded (`failed`) and the pass goes on, as it does where asserts are
  compiled out. `jumps` is not in the source: where each jump was written and how long.
-/

import PythonUltra.Py.Prelude
import Mathlib.Logic.Function.Basic

namespace PythonUltra.Py.EmitBc

/-- MP_PASS_STACK_SIZE, MP_PASS_CODE_SIZE and MP_PASS_EMIT; MP_PASS_SCOPE emits nothing. -/
inductive Pass where
  | stackSize
  | codeSize
  | emit
  deriving DecidableEq, Repr

/-- What the emitter reads of the function that is compiled. -/
structure Scope where
  /-- The stack size is known after the first pass. -/
  sigs : Pass → Sig
  sigs_eq : sigs .codeSize = sigs .emit
  nState_pos : 0 < (sigs .emit).nState
  name : Nat
  params : List Nat
  /-- The locals that are closed over. -/
  cells : List Nat
  maxNumLabels : Nat

/-- A call of the emitter. -/
inductive Call where
  /-- `emit_write_bytecode_byte` and its like. -/
  | write (stackAdj : Int) (bytes : List Nat)
  /-- `emit_write_bytecode_byte_label`. -/
  | jump (stackAdj : Int) (op label : Nat)
  /-- What follows is dead code. -/
  | suppress
  | adjustStackSize (delta : Int)
  | labelAssign (label : Nat)
  | setSourceLine (line : Nat)

/-- A jump as it was written: `wide` with two bytes for the offset. -/
structure Jump where
  pos : Nat
  op : Nat
  label : Nat
  wide : Bool
  deriving DecidableEq, Repr

structure Emit where
  pass : Pass
  suppress : Bool
  stackSize : Int
  lastSourceLineOffset : Nat
  lastSourceLine : Nat
  labelOffsets : Nat → Nat
  /-- The code info so far; `code_info_offset` is its length. -/
  info : List Nat
  /-- The bytecode so far; `bytecode_offset` is its length. -/
  code : List Nat
  codeInfoSize : Nat
  bytecodeSize : Nat
  overflow : Bool
  nInfo : Nat
  nCell : Nat
  failed : Bool
  jumps : List Jump
  /-- `mp_emit_bc_end_pass` did not ask for another pass; with `overflow` it raised a RuntimeError. -/
  accepted : Bool

namespace Emit

def assert (e : Emit) (cond : Bool) : Emit := { e with failed := e.failed || !cond }

/-- Writes of code info, through `emit_get_cur_to_write_code_info`. -/
def writeInfo (bytes : List Nat) (e : Emit) : Emit :=
  { e.assert (e.pass ≠ .emit || e.info.length + bytes.length ≤ e.codeInfoSize) with info := e.info ++ bytes }

/-- Writes of bytecode, through `emit_get_cur_to_write_bytecode`. -/
def writeCode (bytes : List Nat) (e : Emit) : Emit :=
  if e.suppress then e
  else { e.assert (e.pass ≠ .emit || e.code.length + bytes.length ≤ e.bytecodeSize) with code := e.code ++ bytes }

/-- `mp_emit_bc_adjust_stack_size`. -/
def adjustStackSize (delta : Int) (e : Emit) : Emit :=
  { e.assert (0 ≤ e.stackSize + delta) with stackSize := e.stackSize + delta }

end Emit

/-- `emit_write_code_info_bytes_lines`; the fuel is more than the loop needs. -/
def bytesLines : Nat → Nat → Nat → List Nat
  | 0, _, _ => []
  | fuel + 1, bytesToSkip, linesToSkip =>
    if bytesToSkip > 0 ∨ linesToSkip > 0 then
      if linesToSkip ≤ 6 ∨ bytesToSkip > 0xf then
        -- 0b0LLBBBBB: no lines are skipped until all bytes are
        let b := min bytesToSkip 0x1f
        let l := if b < bytesToSkip then 0 else min linesToSkip 0x3
        (b ||| l <<< 5) :: bytesLines fuel (bytesToSkip - b) (linesToSkip - l)
      else
        -- 0b1LLLBBBB 0bLLLLLLLL
        let b := min bytesToSkip 0xf
        let l := min linesToSkip 0x7ff
        (0x80 ||| b ||| ((l >>> 4) &&& 0x70)) :: (l % 256) :: bytesLines fuel (bytesToSkip - b) (linesToSkip - l)
    else []

/-- MP_BC_POP_JUMP_IF_FALSE: the opcodes up to it have signed offsets. -/
def popJumpIfFalse : Nat := 0x44

def isSigned (op : Nat) : Bool := op ≤ popJumpIfFalse

/-- The offset fits one byte. -/
def short (op : Nat) (offset : Int) : Bool :=
  (isSigned op && decide (-64 ≤ offset) && decide (offset ≤ 63)) || (!isSigned op && decide (0 ≤ offset) && decide (offset ≤ 127))

/-- The distance to a label from the end of a short jump. -/
def distance (e : Emit) (label : Nat) : Int := e.labelOffsets label - e.code.length - 2

/-- The jump takes three bytes, and not two; it does as long as the code size is not known. -/
def wide (e : Emit) (op label : Nat) : Bool := e.pass = .stackSize || !short op (distance e label)

/-- The offset from the end of the instruction. -/
def offsetOf (e : Emit) (op label : Nat) : Int :=
  if e.pass = .stackSize then 0 else if wide e op label then distance e label - 1 else distance e label

/-- The offset as it is stored: signed ones are shifted. -/
def biased (e : Emit) (op label : Nat) : Int :=
  if isSigned op then offsetOf e op label + (if wide e op label then 0x4000 else 0x40) else offsetOf e op label

def jumpBytes (op : Nat) (wide : Bool) (biased : Int) : List Nat :=
  if wide then [op, 0x80 ||| (biased % 128).toNat, (biased / 128 % 256).toNat] else [op, biased.toNat]

/-- `emit_write_bytecode_byte_label`, once the stack is adjusted. -/
def writeJump (op label : Nat) (e : Emit) : Emit :=
  if e.suppress then e
  else
    let wide := wide e op label
    let biased := biased e op label
    let e := e.assert (e.pass = .stackSize || isSigned op || 0 ≤ offsetOf e op label)
    let e := e.assert (wide || (0 ≤ biased && biased ≤ 0x7f))
    let e := { e with
      jumps := e.jumps ++ [(⟨e.code.length, op, label, wide⟩ : Jump)]
      overflow := e.overflow || (wide && e.pass = Pass.emit && !(0 ≤ biased && biased ≤ 0x7fff)) }
    e.writeCode (jumpBytes op wide biased)

/-- `emit_write_bytecode_byte_label`. -/
def emitByteLabel (stackAdj : Int) (op label : Nat) (e : Emit) : Emit := writeJump op label (e.adjustStackSize stackAdj)

/-- `mp_emit_bc_set_source_line`. -/
def emitSourceLine (line : Nat) (e : Emit) : Emit :=
  if line > e.lastSourceLine then
    let bytesToSkip := e.code.length - e.lastSourceLineOffset
    let linesToSkip := line - e.lastSourceLine
    { (e.assert (bytesToSkip > 0 || linesToSkip > 0)).writeInfo
        (bytesLines (bytesToSkip + linesToSkip + 1) bytesToSkip linesToSkip) with
      lastSourceLineOffset := e.code.length
      lastSourceLine := line }
  else e

/-- `mp_emit_bc_label_assign`. -/
def emitLabel (sc : Scope) (label : Nat) (e : Emit) : Emit :=
  let e := { e with suppress := false }
  let e := e.assert (label < sc.maxNumLabels)
  let e := e.assert (e.pass = .stackSize || e.code.length ≤ e.labelOffsets label)
  { e with labelOffsets := Function.update e.labelOffsets label e.code.length }

def step (sc : Scope) (e : Emit) : Call → Emit
  | .write stackAdj bytes => (e.adjustStackSize stackAdj).writeCode bytes
  | .jump stackAdj op label => emitByteLabel stackAdj op label e
  | .suppress => { e with suppress := true }
  | .adjustStackSize delta => e.adjustStackSize delta
  | .labelAssign label => emitLabel sc label e
  | .setSourceLine line => emitSourceLine line e

/-- `mp_emit_bc_start_pass`: the prelude, with the sizes of the pass before. -/
def startPass (sc : Scope) (pass : Pass) (e : Emit) : Emit :=
  let e := { e with pass := pass, suppress := false, stackSize := 0, lastSourceLineOffset := 0, lastSourceLine := 1,
                    info := [], code := [], overflow := false, jumps := [], accepted := false }
  let e := e.writeInfo (sigEncode (sc.sigs pass))
  let e := if pass ≠ .stackSize then e.writeInfo (sizeEncode e.nInfo e.nCell) else e
  let e := { e with nInfo := e.info.length }
  (e.writeInfo (encodeUint sc.name)).writeInfo (sc.params.flatMap encodeUint)

/-- The closure section. -/
def writeCells (e : Emit) (cells : List Nat) : Emit :=
  cells.foldl (fun e c => { (e.assert (c ≤ 255)).writeInfo [c] with nCell := e.nCell + 1 }) { e with nCell := 0 }

/-- The end of MP_PASS_EMIT: code info and bytecode may have shrunk. -/
def checkSizes (e : Emit) : Emit :=
  let e := e.assert (e.info.length ≤ e.codeInfoSize)
  let e := e.assert (e.code.length ≤ e.bytecodeSize)
  if e.info.length ≠ e.codeInfoSize ∨ e.code.length ≠ e.bytecodeSize then
    { e with codeInfoSize := e.info.length, bytecodeSize := e.code.length }
  else { e with accepted := true }

/-- `mp_emit_bc_end_pass`. -/
def endPass (sc : Scope) (e : Emit) : Emit :=
  let e := e.assert (e.stackSize = 0)
  let e := writeCells { e with nInfo := e.info.length - e.nInfo } sc.cells
  match e.pass with
  | .stackSize => e
  | .codeSize => { e with codeInfoSize := e.info.length, bytecodeSize := e.code.length }
  | .emit => checkSizes e

/-- `compile_scope`. -/
def compileScope (sc : Scope) (calls : List Call) (pass : Pass) (e : Emit) : Emit :=
  endPass sc (calls.foldl (step sc) (startPass sc pass e))

/-- A new emitter. -/
def init : Emit where
  pass := .stackSize
  suppress := false
  stackSize := 0
  lastSourceLineOffset := 0
  lastSourceLine := 0
  labelOffsets _ := 0
  info := []
  code := []
  codeInfoSize := 0
  bytecodeSize := 0
  overflow := false
  nInfo := 0
  nCell := 0
  failed := false
  jumps := []
  accepted := false

/-- After the two passes before the first MP_PASS_EMIT, and `n` of these; no more are made once one is accepted. -/
def emitted (sc : Scope) (calls : List Call) : Nat → Emit
  | 0 => compileScope sc calls .codeSize (compileScope sc calls .stackSize init)
  | n + 1 =>
    let e := emitted sc calls n
    if e.accepted then e else compileScope sc calls .emit e

/-! ## The VM -/

/-- `DECODE_ULABEL` and `DECODE_SLABEL`: the offset, and the bytes read. -/
def decodeULabel (ip : List Nat) : Int × Nat :=
  if ip.getD 0 0 &&& 0x80 ≠ 0 then ((((ip.getD 0 0 &&& 0x7f) ||| ip.getD 1 0 <<< 7 : Nat) : Int), 2) else (ip.getD 0 0, 1)

def decodeSLabel (ip : List Nat) : Int × Nat :=
  if ip.getD 0 0 &&& 0x80 ≠ 0 then ((((ip.getD 0 0 &&& 0x7f) ||| ip.getD 1 0 <<< 7 : Nat) : Int) - 0x4000, 2)
  else ((ip.getD 0 0 : Int) - 0x40, 1)

/-- Where the jump at a position goes. -/
def target (code : List Nat) (pos : Nat) : Int :=
  let ip := code.drop (pos + 1)
  let (offset, n) := if isSigned (code.getD pos 0) then decodeSLabel ip else decodeULabel ip
  pos + 1 + n + offset

end PythonUltra.Py.EmitBc
