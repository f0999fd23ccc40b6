/-
  PythonUltra.Os.Calls — the os module and file objects (modos.c, fdfile.c) over a
  filesystem.

  A `World` is the filesystem, the current directory, and what may go wrong: `fault`
  decides for the nth storage call whether it raises, so that a statement about every
  world is one about every pattern of failures (a full disk, a path longer than
  PE_PATH_MAX, memory). A call that raises changes nothing, but for a write, which may
  have written the first `done` bytes. ENOENT is never raised for a path that is there.
  os.remove and os.rmdir fail only for what they find. `made` records every path a call
  brought into being, in order; no call reads it.

  Each call has one rule (`wp_stat`, `wp_mkdir`, …): what it returns and raises, and what
  the world is then.
-/

import PythonUltra.Os.Paths
import PythonUltra.Lib.Fs
import PythonUltra.Lib.Prog

namespace PythonUltra.Os

open PythonUltra.Lib PythonUltra.Lib.Prog

abbrev Bytes := List UInt8

/-- Exceptions; a message is its fixed text and what is appended to it. -/
inductive Exc where
  | osError (e : Errno)
  | valueError (msg : String) (arg : Str)
  | unicodeError
  | memoryError
  | eofError
  | runtimeError
  | indexError
  deriving DecidableEq, Repr

structure Fault where
  exc : Exc
  done : Nat

structure World where
  fs : Fs Str
  cwd : Path
  fault : Nat → Option Fault
  honest : ∀ n f, fault n = some f → f.exc ≠ .osError .enoent
  clock : Nat
  made : List Path

/-- `honest` of a world in which no call fails. -/
theorem honest_none (n : Nat) (f : Fault) (h : (fun _ => none : Nat → Option Fault) n = some f) : f.exc ≠ .osError .enoent := by cases h

/-- A call of the os module or of a file object. -/
abbrev Call := Prog World Exc

def World.resolve (w : World) (path : Str) : Path := Os.resolve w.cwd path

def World.tick (w : World) : World := { w with clock := w.clock + 1 }

/-- A storage call that may raise. -/
def io : Call Unit := fun w => match w.fault w.clock with
  | some f => (.error f.exc, w.tick)
  | none => (.ok (), w.tick)

def getcwd : Call Str := do return pathStr (← get).cwd

/-- The fields of a stat tuple that are read: the mode and the size. -/
structure Stat where
  mode : Nat
  size : Nat
  deriving DecidableEq, Repr

def statOf : Node → Stat
  | .dir => ⟨0x4000, 0⟩
  | .file b => ⟨0x8000, b.length⟩

def stat (path : Str) : Call Stat := do
  io
  let w ← get
  match w.fs.get (w.resolve path) with
  | some n => return statOf n
  | none => throw (.osError (w.fs.missing (w.resolve path)))

/-- An operation on the filesystem at the path a string names. -/
def onPath (op : Fs Str → Path → Except Errno (Fs Str)) (path : Str) : Call Unit := fun w =>
  match op w.fs (w.resolve path) with
  | .ok fs => (.ok (), { w with fs := fs })
  | .error e => (.error (.osError e), w)

/-- The paths brought into being are recorded. -/
def recordMade (path : Str) : Call Unit := modify fun w => { w with made := w.made ++ [w.resolve path] }

def mkdir (path : Str) : Call Unit := do
  io
  onPath Fs.mkdir path
  recordMade path

def remove (path : Str) : Call Unit := onPath Fs.remove path

def rmdir (path : Str) : Call Unit := onPath Fs.rmdir path

/-- A file open for reading. -/
structure Reader where
  path : Path
  pos : Nat
  deriving DecidableEq, Repr

/-- The contents a file object sees. -/
def World.contents (w : World) (p : Path) : Bytes :=
  match w.fs.get p with
  | some (.file b) => b
  | _ => []

/-- `open(path, "rb")`. -/
def openRead (path : Str) : Call Reader := do
  io
  let w ← get
  match w.fs.get (w.resolve path) with
  | some (.file _) => return ⟨w.resolve path, 0⟩
  | some .dir => throw (.osError .eisdir)
  | none => throw (.osError (w.fs.missing (w.resolve path)))

def Reader.read (r : Reader) (n : Nat) : Call (Bytes × Reader) := do
  io
  let block := (((← get).contents r.path).drop r.pos).take n
  return (block, { r with pos := r.pos + block.length })

def Reader.seek (r : Reader) (pos : Nat) : Call Reader := do
  io
  return { r with pos := pos }

/-- `f.seek(n, 1)`. -/
def Reader.seekCur (r : Reader) (n : Nat) : Call Reader := r.seek (r.pos + n)

/-- `open(path, "wb")`. -/
def openWrite (path : Str) : Call Path := do
  io
  let w ← get
  onPath Fs.create path
  if w.fs.get (w.resolve path) = none then recordMade path
  return w.resolve path

/-- Bytes written at the end of a file open for writing. -/
def write (f : Path) (b : Bytes) : Call Unit := fun w => match w.fault w.clock with
  | some t => (.error t.exc, { w.tick with fs := w.fs.store f (w.contents f ++ b.take t.done) })
  | none => (.ok (), { w.tick with fs := w.fs.store f (w.contents f ++ b) })

/-! ## Rules -/

/-- `w'` is `w` some calls later, with nothing changed. -/
structure Quiet (w w' : World) : Prop where
  fs : w'.fs = w.fs
  cwd : w'.cwd = w.cwd
  fault : w'.fault = w.fault
  made : w'.made = w.made

theorem Quiet.refl (w : World) : Quiet w w := ⟨rfl, rfl, rfl, rfl⟩

theorem Quiet.trans {a b c : World} (h1 : Quiet a b) (h2 : Quiet b c) : Quiet a c :=
  ⟨h2.1.trans h1.1, h2.2.trans h1.2, h2.3.trans h1.3, h2.4.trans h1.4⟩

instance : IsPreorder World Quiet where
  refl := .refl
  trans _ _ _ := .trans

theorem Quiet.tick (w : World) : Quiet w w.tick := ⟨rfl, rfl, rfl, rfl⟩

theorem Quiet.resolve {w w' : World} (h : Quiet w w') (path : Str) : w'.resolve path = w.resolve path := by
  unfold World.resolve; rw [h.cwd]

theorem Quiet.contents {w w' : World} (h : Quiet w w') (p : Path) : w'.contents p = w.contents p := by
  unfold World.contents; rw [h.fs]

/-- Some call may raise `e`. -/
def World.Faults (w : World) (e : Exc) : Prop := ∃ n f, w.fault n = some f ∧ f.exc = e

theorem World.Faults.ne {w : World} {e : Exc} (h : w.Faults e) : e ≠ .osError .enoent := by
  obtain ⟨n, f, hf, rfl⟩ := h
  exact w.honest n f hf

/-- No call raises but for what it finds. -/
def World.Sound (w : World) : Prop := ∀ n, w.fault n = none

theorem World.Sound.not_faults {w : World} (h : w.Sound) {e : Exc} : ¬ w.Faults e := by
  rintro ⟨n, f, hf, -⟩
  rw [h n] at hf
  simp at hf

section

variable {w : World} {R : Exc → World → Prop}

theorem wp_io {Q : Unit → World → Prop} (hQ : ∀ w', Quiet w w' → Q () w')
    (hR : ∀ e w', Quiet w w' → w.Faults e → R e w') : wp io Q R w := by
  unfold wp io
  rcases h : w.fault w.clock with _ | f
  · exact hQ _ (.tick w)
  · exact hR _ _ (.tick w) ⟨_, f, h, rfl⟩

theorem wp_io_then {α : Type} {k : Call α} {Q : α → World → Prop} (hk : ∀ w', Quiet w w' → wp k Q R w')
    (hR : ∀ e w', Quiet w w' → w.Faults e → R e w') : wp (do io; k) Q R w :=
  wp_bind.mpr (wp_io hk hR)

theorem wp_stat {path : Str} {Q : Stat → World → Prop}
    (hQ : ∀ n w', Quiet w w' → w.fs.get (w.resolve path) = some n → Q (statOf n) w')
    (hR : ∀ e w', Quiet w w' →
      w.Faults e ∨ (w.fs.get (w.resolve path) = none ∧ e = .osError (w.fs.missing (w.resolve path))) → R e w') :
    wp (stat path) Q R w := by
  refine wp_io_then (fun w' hw => ?_) fun e w' hw hf => hR e w' hw (Or.inl hf)
  rw [wp_bind, wp_get, hw.fs, hw.resolve]
  rcases h : w.fs.get (w.resolve path) with _ | n
  · exact hR _ _ hw (Or.inr ⟨h, rfl⟩)
  · exact hQ n w' hw h

/-- What a change at one path leaves: `node` there, everything else as it was. -/
structure Changed (w w' : World) (p : Path) (node : Option Node) : Prop where
  get : ∀ q, w'.fs.get q = if q = p then node else w.fs.get q
  cwd : w'.cwd = w.cwd
  fault : w'.fault = w.fault

theorem Changed.resolve {w' : World} {p : Path} {node : Option Node} (h : Changed w w' p node) (path : Str) :
    w'.resolve path = w.resolve path := by
  unfold World.resolve; rw [h.cwd]

theorem Changed.here {w' : World} {p : Path} {node : Option Node} (h : Changed w w' p node) : w'.fs.get p = node := by
  rw [h.get p, if_pos rfl]

theorem wp_mkdir {path : Str} {Q : Unit → World → Prop}
    (hQ : ∀ w', Changed w w' (w.resolve path) (some .dir) → w.fs.get (w.resolve path) = none →
      w.fs.get (w.resolve path).dropLast = some .dir → w.resolve path ≠ [] → w'.made = w.made ++ [w.resolve path] →
      Q () w')
    (hR : ∀ e w', Quiet w w' → w.Faults e ∨ (∃ e', e = .osError e' ∧ w.fs.mkdir (w.resolve path) = .error e') →
      R e w') : wp (mkdir path) Q R w := by
  refine wp_io_then (fun w' hw => ?_) fun e w' hw hf => hR e w' hw (Or.inl hf)
  rw [wp_bind]
  unfold wp onPath
  rw [hw.fs, hw.resolve]
  rcases h : w.fs.mkdir (w.resolve path) with e | fs'
  · exact hR _ _ hw (Or.inr ⟨e, rfl, h⟩)
  · obtain ⟨h1, h2, h3, h4⟩ := Fs.mkdir_ok h
    refine hQ _ ⟨h4, hw.cwd, hw.fault⟩ h1 h3 h2 ?_
    show w'.made ++ [w'.resolve path] = _
    rw [hw.made, hw.resolve]

theorem wp_openRead {path : Str} {Q : Reader → World → Prop}
    (hQ : ∀ b w', Quiet w w' → w.fs.get (w.resolve path) = some (.file b) → Q ⟨w.resolve path, 0⟩ w')
    (hR : ∀ e w', Quiet w w' → w.Faults e ∨ (∀ b, w.fs.get (w.resolve path) ≠ some (.file b)) → R e w') :
    wp (openRead path) Q R w := by
  refine wp_io_then (fun w' hw => ?_) fun e w' hw hf => hR e w' hw (Or.inl hf)
  rw [wp_bind, wp_get, hw.fs, hw.resolve]
  rcases h : w.fs.get (w.resolve path) with _ | (_ | b)
  · exact hR _ _ hw (Or.inr (by rw [h]; simp))
  · exact hR _ _ hw (Or.inr (by rw [h]; simp))
  · exact hQ b w' hw h

/-- `open(path, "wb")` where there was no file before. -/
theorem wp_openWrite {path : Str} {Q : Path → World → Prop} (hnew : w.fs.get (w.resolve path) = none)
    (hQ : ∀ w', Changed w w' (w.resolve path) (some (.file [])) → w.fs.get (w.resolve path).dropLast = some .dir →
      w.resolve path ≠ [] → w'.made = w.made ++ [w.resolve path] → Q (w.resolve path) w')
    (hR : ∀ e w', Quiet w w' → w.Faults e ∨ (∃ e', e = .osError e' ∧ w.fs.create (w.resolve path) = .error e') →
      R e w') : wp (openWrite path) Q R w := by
  refine wp_io_then (fun w' hw => ?_) fun e w' hw hf => hR e w' hw (Or.inl hf)
  rw [wp_bind, wp_get, wp_bind]
  unfold wp onPath
  rw [hw.fs, hw.resolve]
  rcases h : w.fs.create (w.resolve path) with e | fs'
  · exact hR _ _ hw (Or.inr ⟨e, rfl, h⟩)
  · obtain ⟨-, h2, h3, h4⟩ := Fs.create_ok h
    simp only [hnew, if_true]
    refine hQ _ ⟨h4, hw.cwd, hw.fault⟩ h3 h2 ?_
    show w'.made ++ [w'.resolve path] = _
    rw [hw.made, hw.resolve]

theorem wp_write {f : Path} {b c : Bytes} {Q : Unit → World → Prop} (hf : w.fs.get f = some (.file c))
    (hQ : ∀ w', Changed w w' f (some (.file (c ++ b))) → w'.made = w.made → Q () w')
    (hR : ∀ e w' n, Changed w w' f (some (.file (c ++ b.take n))) → w'.made = w.made → w.Faults e → R e w') :
    wp (write f b) Q R w := by
  have hc : w.contents f = c := by unfold World.contents; rw [hf]
  unfold wp write
  rcases h : w.fault w.clock with _ | t
  · exact hQ _ ⟨fun q => by rw [hc]; exact Fs.get_store hf q, rfl, rfl⟩ rfl
  · exact hR _ _ t.done ⟨fun q => by rw [hc]; exact Fs.get_store hf q, rfl, rfl⟩ rfl ⟨_, t, h, rfl⟩

theorem wp_remove {path : Str} {b : Bytes} {Q : Unit → World → Prop}
    (hf : w.fs.get (w.resolve path) = some (.file b))
    (hQ : ∀ w', Changed w w' (w.resolve path) none → w'.made = w.made → Q () w') : wp (remove path) Q R w := by
  obtain ⟨fs', hok, hget⟩ := Fs.remove_file hf
  unfold wp remove onPath
  rw [hok]
  exact hQ _ ⟨hget, rfl, rfl⟩ rfl

theorem wp_rmdir {path : Str} {Q : Unit → World → Prop} (hd : w.fs.get (w.resolve path) = some .dir)
    (hne : w.resolve path ≠ []) (hleaf : ∀ n, w.fs.get (w.resolve path ++ [n]) = none)
    (hQ : ∀ w', Changed w w' (w.resolve path) none → w'.made = w.made → Q () w') : wp (rmdir path) Q R w := by
  obtain ⟨fs', hok, hget⟩ := Fs.rmdir_dir hd hne hleaf
  unfold wp rmdir onPath
  rw [hok]
  exact hQ _ ⟨hget, rfl, rfl⟩ rfl

end

/-! ## Calls that change nothing, and calls that write one file -/

theorem within_io : Within Quiet io := fun w => by
  unfold io
  rcases w.fault w.clock with _ | f <;> exact .tick w

theorem within_stat (path : Str) : Within Quiet (stat path) :=
  within_io.bind fun _ => Within.get.bind fun w => by
    rcases w.fs.get (w.resolve path) with _ | n
    · exact .throw _
    · exact .pure _

theorem within_openRead (path : Str) : Within Quiet (openRead path) :=
  within_io.bind fun _ => Within.get.bind fun w => by
    rcases w.fs.get (w.resolve path) with _ | (_ | b)
    · exact .throw _
    · exact .throw _
    · exact .pure _

theorem within_read (r : Reader) (n : Nat) : Within Quiet (r.read n) :=
  within_io.bind fun _ => Within.get.bind fun _ => .pure _

theorem within_seek (r : Reader) (pos : Nat) : Within Quiet (r.seek pos) := within_io.bind fun _ => .pure _

/-- Nothing has changed but the contents of the file `f`. -/
structure Wrote (f : Path) (w w' : World) : Prop where
  get : ∀ q, q ≠ f → w'.fs.get q = w.fs.get q
  file : (∃ b, w.fs.get f = some (.file b)) → ∃ b, w'.fs.get f = some (.file b)
  cwd : w'.cwd = w.cwd
  fault : w'.fault = w.fault
  made : w'.made = w.made

instance (f : Path) : IsPreorder World (Wrote f) where
  refl _ := ⟨fun _ _ => rfl, id, rfl, rfl, rfl⟩
  trans _ _ _ h1 h2 := ⟨fun q hq => (h2.get q hq).trans (h1.get q hq), h2.file ∘ h1.file, h2.cwd.trans h1.cwd,
    h2.fault.trans h1.fault, h2.made.trans h1.made⟩

theorem Quiet.wrote {w w' : World} (h : Quiet w w') (f : Path) : Wrote f w w' :=
  ⟨fun _ _ => by rw [h.fs], by rw [h.fs]; exact id, h.cwd, h.fault, h.made⟩

theorem within_write (f : Path) (b : Bytes) : Within (Wrote f) (write f b) := fun w => by
  have hstore : ∀ c : Bytes, Wrote f w { w.tick with fs := w.fs.store f c } := fun c =>
    ⟨fun q hq => Fs.get_store_ne hq, fun ⟨b, hb⟩ => ⟨c, by rw [Fs.get_store hb, if_pos rfl]⟩, rfl, rfl, rfl⟩
  unfold write
  rcases w.fault w.clock with _ | t <;> exact hstore _

theorem within_wrote {α : Type} {x : Call α} (h : Within Quiet x) (f : Path) : Within (Wrote f) x :=
  fun w => (h w).wrote f

end PythonUltra.Os
