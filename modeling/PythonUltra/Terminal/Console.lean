/-
  PythonUltra.Terminal.Console — the terminal emulator (console.c): its operations, and
  the primitive actions they are made of.

  The operations follow the source. `consoleWriteRaw` and `consoleWrite` carry the bytes
  still to write instead of a pointer and a count; their loops take fuel, one more than
  the bytes to write, which `writeRaw_stores` and `write_runs` show to be enough.

  An operation is a run of primitive actions (`Act`): what console_write does with one
  byte, one round of console_write_raw, a newline, a cursor move. `opActs` lists the
  actions of an operation in a state, and `exec_eq_run` says that the operation is that
  run, so a property of every action is a property of every moment of every operation.
-/

import PythonUltra.Terminal.Linebuf
import PythonUltra.Lib.Machine

namespace PythonUltra.Terminal

open PythonUltra.Lib.CMem PythonUltra.Lib.Machine

structure Console where
  lines : Linebuf
  cursor : Int
  renderNeeded : Bool
  renderFont : Font
  renderWidth : Int
  renderLines : Int
  deriving DecidableEq, Repr

def consoleNewline (cons : Console) : Console :=
  { cons with
    lines := linebufCleanBacklog (linebufNewline cons.lines)
    cursor := 0
    renderNeeded := true }

def consoleCreate (backlogSize maximumLineCount : Int) : Option Console :=
  let backlogSize := max backlogSize lineMaxLength
  let maximumLineCount := max maximumLineCount 1
  (linebufInit maximumLineCount backlogSize).map fun lines =>
    consoleNewline ⟨lines, -1, true, 0, 0, 0⟩

/-- `console_destroy`: the allocator after it. -/
def consoleDestroy (cons : Console) : Heap := linebufDeinit cons.lines

def consoleComputeView (d : Drsize) (cons : Console) (font : Font) (width lines : Int) : Console :=
  let lazy := width ≠ 0 ∧ cons.renderWidth = width
  { cons with
    renderFont := font
    renderWidth := i16 width
    renderLines := i16 lines
    lines := linebufUpdateRender d font cons.lines width lazy }

def lastLine (cons : Console) : Option Stredit := linebufGetLastLine cons.lines

/-- The editor of the last line replaced. -/
def Console.withEdit (cons : Console) (ed : Stredit) : Console := { cons with lines := { cons.lines with edit := ed } }

def consoleSetCursor (cons : Console) (pos : Int) : Bool × Console :=
  match lastLine cons with
  | none => (false, cons)
  | some ed => if pos < ed.prefixLen ∨ pos > ed.size then (false, cons) else (true, { cons with cursor := i16 pos })

def consoleMoveCursor (cons : Console) (cursorMovement : Int) : Bool × Console :=
  consoleSetCursor cons (cons.cursor + cursorMovement)

/-- One insertion of console_write_raw: `s` at the cursor of the last line. -/
def insertRound (cons : Console) (s : List UInt8) : Bool × Console :=
  match lastLine cons with
  | none => (false, cons)
  | some ed =>
    let r := streditInsert ed cons.cursor s
    if r.1 then
      (true, { cons.withEdit r.2 with cursor := i16 (cons.cursor + s.length), renderNeeded := true })
    else (false, cons)

/-- The bytes the next insertion takes. -/
def roundSize (cons : Console) (n : Nat) : Nat :=
  (min (n : Int) ((lastLine cons).elim 0 streditCapacity)).toNat

def writeRawLoop : Nat → Console → List UInt8 → Bool × Console
  | 0, cons, s => (s.isEmpty, cons)
  | fuel + 1, cons, s =>
    if s = [] then (true, cons)
    else
      let k := roundSize cons s.length
      let r := insertRound cons (s.take k)
      if r.1 then writeRawLoop fuel (if k < s.length then consoleNewline r.2 else r.2) (s.drop k)
      else (false, r.2)

def consoleWriteRaw (cons : Console) (s : List UInt8) : Bool × Console :=
  writeRawLoop (s.length + 1) (if cons.lines.size = 0 then consoleNewline cons else cons) s

/-- `console_write`'s branch for a BS byte. -/
def backspace (cons : Console) : Console :=
  if cons.cursor > 0 then
    match lastLine cons with
    | none => cons
    | some ed =>
      { cons.withEdit (streditDelete ed (cons.cursor - 1) 1).2 with cursor := i16 (cons.cursor - 1) }
  else cons

/-- `ESC [ K`. -/
def eraseToEnd (cons : Console) : Console :=
  match lastLine cons with
  | none => cons
  | some ed => cons.withEdit (streditDelete ed cons.cursor (ed.size - cons.cursor)).2

/-- `ESC 01 D`. -/
def cursorLeft (cons : Console) : Console :=
  { cons with cursor := i16 (cons.cursor - if cons.cursor > 0 then 1 else 0) }

/-- `ESC 01 C`. -/
def cursorRight (cons : Console) : Console :=
  match lastLine cons with
  | none => cons
  | some ed => { cons with cursor := i16 (cons.cursor + if cons.cursor < ed.size then 1 else 0) }

/-- A byte `console_write` passes to `console_write_raw`. -/
def plain (b : UInt8) : Bool := b ≠ 10 && b ≠ 27 && b ≠ 8

/-- The branches of `console_write` for the byte `b` that ended a plain stretch: the
    console, and the bytes left. An escape's cursor moves leave their two bytes to be
    written. -/
def consoleControl (cons : Console) (b : UInt8) (rest : List UInt8) : Console × List UInt8 :=
  if b = 10 then (consoleNewline cons, rest)
  else if b = 8 then (backspace cons, rest)
  else if b = 27 then
    let k := rest.take 2 = [91, 75]
    let cons := if k then eraseToEnd cons else cons
    let rest := if k then rest.drop 2 else rest
    let cons := if rest.take 2 = [1, 68] then cursorLeft cons else cons
    let cons := if rest.take 2 = [1, 67] then cursorRight cons else cons
    (cons, rest)
  else (cons, rest)

def writeLoop : Nat → Console → List UInt8 → Bool × Console
  | 0, cons, s => (s.isEmpty, cons)
  | fuel + 1, cons, s =>
    if s = [] then (true, cons)
    else
      let r := consoleWriteRaw cons (s.takeWhile plain)
      if r.1 then
        match s.dropWhile plain with
        | [] => (true, r.2)
        | b :: rest =>
          let c := consoleControl r.2 b rest
          writeLoop fuel { c.1 with renderNeeded := true } c.2
      else (false, r.2)

/-- `console_write(cons, buf, n)`; a negative `n` means up to the NUL. -/
def consoleWrite (cons : Console) (buf : List UInt8) (n : Int) : Bool × Console :=
  let s := if n < 0 then buf.takeWhile (· ≠ 0) else buf.take n.toNat
  writeLoop (s.length + 1) cons s

def consoleLockPrefix (cons : Console) : Console :=
  match lastLine cons with
  | none => cons
  | some ed => cons.withEdit (streditSetPrefix ed cons.cursor)

def consoleDeleteAtCursor (cons : Console) (n : Int) : Console :=
  match lastLine cons with
  | none => cons
  | some ed =>
    let r := streditDelete ed (cons.cursor - n) n
    { cons.withEdit r.2 with cursor := i16 (cons.cursor - r.1), renderNeeded := true }

def consoleClearCurrentLine (cons : Console) : Console :=
  match lastLine cons with
  | none => cons
  | some ed =>
    { cons.withEdit (streditDelete ed ed.prefixLen ((ed.size : Int) - ed.prefixLen)).2 with
      cursor := ed.prefixLen
      renderNeeded := true }

/-! ## Operations and actions -/

inductive Op where
  | newline
  | write (buf : List UInt8) (n : Int)
  | writeRaw (s : List UInt8)
  | setCursor (pos : Int)
  | moveCursor (d : Int)
  | deleteAtCursor (n : Int)
  | clearCurrentLine
  | lockPrefix
  | computeView (font : Font) (width lines : Int)
  deriving DecidableEq, Repr

def exec (d : Drsize) (cons : Console) : Op → Console
  | .newline => consoleNewline cons
  | .write buf n => (consoleWrite cons buf n).2
  | .writeRaw s => (consoleWriteRaw cons s).2
  | .setCursor pos => (consoleSetCursor cons pos).2
  | .moveCursor m => (consoleMoveCursor cons m).2
  | .deleteAtCursor n => consoleDeleteAtCursor cons n
  | .clearCurrentLine => consoleClearCurrentLine cons
  | .lockPrefix => consoleLockPrefix cons
  | .computeView font width lines => consoleComputeView d cons font width lines

inductive Act where
  | newline
  | insert (s : List UInt8)
  | backspace
  | eraseToEnd
  | cursorLeft
  | cursorRight
  | touch
  | setCursor (pos : Int)
  | deleteAtCursor (n : Int)
  | clearCurrentLine
  | lockPrefix
  | computeView (font : Font) (width lines : Int)
  deriving DecidableEq, Repr

def act (d : Drsize) (cons : Console) : Act → Console
  | .newline => consoleNewline cons
  | .insert s => (insertRound cons s).2
  | .backspace => backspace cons
  | .eraseToEnd => eraseToEnd cons
  | .cursorLeft => cursorLeft cons
  | .cursorRight => cursorRight cons
  | .touch => { cons with renderNeeded := true }
  | .setCursor pos => (consoleSetCursor cons pos).2
  | .deleteAtCursor n => consoleDeleteAtCursor cons n
  | .clearCurrentLine => consoleClearCurrentLine cons
  | .lockPrefix => consoleLockPrefix cons
  | .computeView font width lines => consoleComputeView d cons font width lines

def rawLoopActs : Nat → Console → List UInt8 → List Act
  | 0, _, _ => []
  | fuel + 1, cons, s =>
    if s = [] then []
    else
      let k := roundSize cons s.length
      let r := insertRound cons (s.take k)
      .insert (s.take k) ::
        if r.1 then
          (if k < s.length then [.newline] else []) ++
            rawLoopActs fuel (if k < s.length then consoleNewline r.2 else r.2) (s.drop k)
        else []

def writeRawActs (cons : Console) (s : List UInt8) : List Act :=
  (if cons.lines.size = 0 then [.newline] else []) ++
    rawLoopActs (s.length + 1) (if cons.lines.size = 0 then consoleNewline cons else cons) s

/-- The actions of `consoleControl`. -/
def controlActs (b : UInt8) (rest : List UInt8) : List Act :=
  if b = 10 then [.newline]
  else if b = 8 then [.backspace]
  else if b = 27 then
    let k := rest.take 2 = [91, 75]
    let rest := if k then rest.drop 2 else rest
    (if k then [.eraseToEnd] else []) ++ (if rest.take 2 = [1, 68] then [.cursorLeft] else []) ++
      (if rest.take 2 = [1, 67] then [.cursorRight] else [])
  else []

def writeLoopActs : Nat → Console → List UInt8 → List Act
  | 0, _, _ => []
  | fuel + 1, cons, s =>
    if s = [] then []
    else
      let r := consoleWriteRaw cons (s.takeWhile plain)
      writeRawActs cons (s.takeWhile plain) ++
        if r.1 then
          match s.dropWhile plain with
          | [] => []
          | b :: rest =>
            let c := consoleControl r.2 b rest
            controlActs b rest ++ .touch :: writeLoopActs fuel { c.1 with renderNeeded := true } c.2
        else []

def opActs (cons : Console) : Op → List Act
  | .newline => [.newline]
  | .write buf n =>
    let s := if n < 0 then buf.takeWhile (· ≠ 0) else buf.take n.toNat
    writeLoopActs (s.length + 1) cons s
  | .writeRaw s => writeRawActs cons s
  | .setCursor pos => [.setCursor pos]
  | .moveCursor m => [.setCursor (cons.cursor + m)]
  | .deleteAtCursor n => [.deleteAtCursor n]
  | .clearCurrentLine => [.clearCurrentLine]
  | .lockPrefix => [.lockPrefix]
  | .computeView font width lines => [.computeView font width lines]

/-- The actions of a sequence of operations. -/
def runActs (d : Drsize) : Console → List Op → List Act
  | _, [] => []
  | cons, op :: ops => opActs cons op ++ runActs d (exec d cons op) ops

variable (d : Drsize)

theorem rawLoop_eq_run (fuel : Nat) (cons : Console) (s : List UInt8) :
    (writeRawLoop fuel cons s).2 = run (act d) cons (rawLoopActs fuel cons s) := by
  induction fuel generalizing cons s with
  | zero => rfl
  | succ fuel ih =>
    simp only [writeRawLoop, rawLoopActs]
    split
    · rfl
    · simp only [run_cons, act]
      split
      · rw [ih, run_append]
        split <;> rfl
      · rfl

theorem writeRaw_eq_run (cons : Console) (s : List UInt8) :
    (consoleWriteRaw cons s).2 = run (act d) cons (writeRawActs cons s) := by
  unfold consoleWriteRaw writeRawActs
  rw [rawLoop_eq_run d, run_append]
  split <;> rfl

theorem control_eq_run (cons : Console) (b : UInt8) (rest : List UInt8) :
    (consoleControl cons b rest).1 = run (act d) cons (controlActs b rest) := by
  unfold consoleControl controlActs
  by_cases h1 : b = 10
  · simp [h1, act]
  by_cases h2 : b = 8
  · simp [h2, act]
  by_cases h3 : b = 27
  · simp only [h3]
    repeat' split
    all_goals rfl
  · simp [h1, h2, h3]

theorem writeLoop_eq_run (fuel : Nat) (cons : Console) (s : List UInt8) :
    (writeLoop fuel cons s).2 = run (act d) cons (writeLoopActs fuel cons s) := by
  induction fuel generalizing cons s with
  | zero => rfl
  | succ fuel ih =>
    simp only [writeLoop, writeLoopActs]
    split
    · rfl
    · rw [run_append, ← writeRaw_eq_run d]
      split
      · cases s.dropWhile plain with
        | nil => rfl
        | cons b rest =>
          simp only [ih, run_append, run_cons, ← control_eq_run d]
          rfl
      · rfl

theorem exec_eq_run (cons : Console) (op : Op) : exec d cons op = run (act d) cons (opActs cons op) := by
  cases op with
  | write buf n => exact writeLoop_eq_run d _ _ _
  | writeRaw s => exact writeRaw_eq_run d _ _
  | _ => rfl

theorem run_exec_eq (cons : Console) (ops : List Op) :
    run (exec d) cons ops = run (act d) cons (runActs d cons ops) := by
  induction ops generalizing cons with
  | nil => rfl
  | cons op ops ih => rw [run_cons, ih, runActs, run_append, ← exec_eq_run]

end PythonUltra.Terminal
