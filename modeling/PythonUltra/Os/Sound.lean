/-
  PythonUltra.Os.Sound — the calls in a world where none raises but for what it finds.

  The rules of `PythonUltra.Os.Calls` with the faults gone: a call on a path whose node is
  known returns one value, and there is no exception to speak of.
-/

import PythonUltra.Os.Calls

namespace PythonUltra.Os

open PythonUltra.Lib PythonUltra.Lib.Prog

variable {w w' w'' : World} {R : Exc → World → Prop}

theorem Quiet.sound (h : Quiet w w') (hs : w.Sound) : w'.Sound := fun n => by rw [h.fault]; exact hs n

theorem Changed.sound {p : Path} {node : Option Node} (h : Changed w w' p node) (hs : w.Sound) : w'.Sound :=
  fun n => by rw [h.fault]; exact hs n

theorem Changed.quiet {p : Path} {node : Option Node} (h : Changed w w' p node) (hq : Quiet w' w'') :
    Changed w w'' p node :=
  ⟨fun q => by rw [hq.fs]; exact h.get q, hq.cwd.trans h.cwd, hq.fault.trans h.fault⟩

theorem Quiet.changed {p : Path} {node : Option Node} (hq : Quiet w w') (h : Changed w' w'' p node) :
    Changed w w'' p node :=
  ⟨fun q => by rw [h.get q, hq.fs], h.cwd.trans hq.cwd, h.fault.trans hq.fault⟩

theorem Changed.again {p : Path} {node node' : Option Node} (h : Changed w w' p node) (h' : Changed w' w'' p node') :
    Changed w w'' p node' :=
  ⟨fun q => by
    rw [h'.get q, h.get q]
    split <;> rfl, h'.cwd.trans h.cwd, h'.fault.trans h.fault⟩

section

variable (hs : w.Sound)

include hs

theorem sound_io {Q : Unit → World → Prop} (hQ : ∀ w', Quiet w w' → Q () w') : wp io Q R w :=
  wp_io hQ fun _ _ _ hf => absurd hf hs.not_faults

theorem sound_stat {path : Str} {n : Node} {Q : Stat → World → Prop} (h : w.fs.get (w.resolve path) = some n)
    (hQ : ∀ w', Quiet w w' → Q (statOf n) w') : wp (stat path) Q R w := by
  refine wp_stat (fun n' w' hw hn => ?_) fun e w' hw he => ?_
  · rw [h] at hn
    obtain rfl := Option.some.inj hn
    exact hQ w' hw
  · rcases he with hf | ⟨hn, -⟩
    · exact absurd hf hs.not_faults
    · rw [h] at hn; simp at hn

theorem sound_openRead {path : Str} {b : Bytes} {Q : Reader → World → Prop}
    (h : w.fs.get (w.resolve path) = some (.file b)) (hQ : ∀ w', Quiet w w' → Q ⟨w.resolve path, 0⟩ w') :
    wp (openRead path) Q R w := by
  refine wp_openRead (fun _ w' hw _ => hQ w' hw) fun e w' hw he => ?_
  rcases he with hf | hn
  · exact absurd hf hs.not_faults
  · exact absurd h (hn b)

theorem sound_write {f : Path} {b c : Bytes} {Q : Unit → World → Prop} (hf : w.fs.get f = some (.file c))
    (hQ : ∀ w', Changed w w' f (some (.file (c ++ b))) → Q () w') : wp (write f b) Q R w :=
  wp_write hf (fun w' hc _ => hQ w' hc) fun _ _ _ _ _ hf => absurd hf hs.not_faults

end

end PythonUltra.Os
