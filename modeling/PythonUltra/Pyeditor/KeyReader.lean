/-
  PythonUltra.Pyeditor.KeyReader — the editor's key reader against the keyboard
  (modules/pyeditor/__init__.py, `_KeyReader`).

  Parties: the keyboard, which raises events into gint's queue at any time, and the
  editor, which calls read(). Within a call the reader polls; an empty queue (KEYEV_NONE)
  ends a drain, and read() returns or sleeps and drains again. `step` is one move of
  either, so a list of moves is an interleaving.

  gint's keydown() is a parameter: a key is down only if its last press or release among
  the events read is a press (`Down`). `history`, `backlog`, `turns` and `raised` record
  what happened; no move reads them but keydown() its history.

  Proved of every run (`reader_keeps_presses`): what is read of the queue and what is left
  is what was raised; the presses returned and those pending are the presses read, in
  order; and a repeat is returned only from a drain that ends with no press pending, for a
  repeatable key held in it, pressed and not released since.
-/

import PythonUltra.Lib.Machine
import PythonUltra.Pyeditor.Session
import Mathlib.Data.List.Induction

namespace PythonUltra.Pyeditor

open PythonUltra.Lib.Machine

/-- A key event; `other` is any type read() tells none of. -/
inductive Event where
  | down (key : Key)
  | hold (key : Key)
  | up (key : Key)
  | other
  deriving DecidableEq, Repr

/-- What read() returns a key for. -/
inductive Returned where
  | press (key : Key)
  | repeated (key : Key)
  deriving DecidableEq, Repr

/-- `repeat_keys`. -/
def repeatKeys : List Key := [.up, .down, .left, .right, .del]

/-- The branches of the draining loop: what is pending, and `repeat`. -/
def drainEvent (pending : List Key) (rep : Option Key) : Event → List Key × Option Key
  | .down key => (pending ++ [key], none)
  | .hold key => (pending, if key ∈ repeatKeys then some key else rep)
  | .up key => (pending, if some key = rep then none else rep)
  | .other => (pending, rep)

/-- The end of a drain: what read() returns, if it does, and what is pending then. -/
def endDrain (keydown : Key → Bool) : List Key → Option Key → Option Returned × List Key
  | key :: pending, _ => (some (.press key), pending)
  | [], some key => if keydown key then (some (.repeated key), []) else (none, [])
  | [], none => (none, [])

/-- A drain that ended: the events read before it and in it, what was pending, and what
read() returned. -/
structure Turn where
  history : List Event
  backlog : List Event
  pending : List Key
  returned : Option Returned
  deriving DecidableEq, Repr

structure Reading where
  queue : List Event
  pending : List Key
  /-- Within read(): the local `repeat`. -/
  draining : Option (Option Key)
  raised : List Event
  history : List Event
  backlog : List Event
  turns : List Turn
  deriving DecidableEq, Repr

def Reading.init : Reading := ⟨[], [], none, [], [], [], []⟩

inductive Move where
  | raise (ev : Event)
  /-- A call of read(). -/
  | call
  /-- The next step of a call: a pollevent(), and what follows it. -/
  | poll
  deriving DecidableEq, Repr

variable (keydown : List Event → Key → Bool)

def poll (s : Reading) (rep : Option Key) : Reading :=
  match s.queue with
  | ev :: queue =>
    let r := drainEvent s.pending rep ev
    { s with
      queue := queue, pending := r.1, draining := some r.2, backlog := s.backlog ++ [ev] }
  | [] =>
    let r := endDrain (keydown (s.history ++ s.backlog)) s.pending rep
    { s with
      pending := r.2
      -- it returns, or it sleeps and drains anew
      draining := if r.1.isSome then none else some none
      history := s.history ++ s.backlog
      backlog := []
      turns := s.turns ++ [⟨s.history, s.backlog, s.pending, r.1⟩] }

def step (s : Reading) : Move → Reading
  | .raise ev => { s with queue := s.queue ++ [ev], raised := s.raised ++ [ev] }
  | .call => if s.draining.isNone then { s with draining := some none } else s
  | .poll => match s.draining with
    | some rep => poll keydown s rep
    | none => s

/-! ## What is said of a run -/

/-- The keys pressed. -/
def presses (evs : List Event) : List Key := evs.filterMap fun ev => match ev with
  | .down key => some key
  | _ => none

/-- The keys returned for presses. -/
def pressesReturned (turns : List Turn) : List Key := turns.filterMap fun t => match t.returned with
  | some (.press key) => some key
  | _ => none

/-- The last press or release of the key is a press. -/
def Down (evs : List Event) (key : Key) : Prop := ∃ a b, evs = a ++ .down key :: b ∧ .up key ∉ b

/-- The key is held in the events, with no press and no release of it after. -/
def Holding (evs : List Event) (key : Key) : Prop :=
  ∃ a b, evs = a ++ .hold key :: b ∧ presses b = [] ∧ .up key ∉ b

/-- What a drain may return. -/
structure Turn.Ok (t : Turn) : Prop where
  /-- A press pending is returned, the oldest first. -/
  press : ∀ key pending, t.pending = key :: pending → t.returned = some (.press key)
  repeated : ∀ key, t.returned = some (.repeated key) →
    t.pending = [] ∧ key ∈ repeatKeys ∧ Holding t.backlog key ∧ Down (t.history ++ t.backlog) key

structure Faithful (s : Reading) : Prop where
  /-- Events are read in the order they are raised. -/
  fifo : s.history ++ s.backlog ++ s.queue = s.raised
  /-- Every drain has its own events: one return for a backlog. -/
  backlogs : s.turns.flatMap Turn.backlog = s.history
  /-- No press is lost, doubled or overtaken. -/
  presses : pressesReturned s.turns ++ s.pending = presses (s.history ++ s.backlog)
  turns : ∀ t ∈ s.turns, t.Ok

/-! ## Every run -/

/-- The local `repeat` is a repeatable key held in the backlog. -/
structure Synced (s : Reading) : Prop extends Faithful s where
  idle : s.draining = none → s.backlog = []
  held : ∀ key, s.draining = some (some key) → key ∈ repeatKeys ∧ Holding s.backlog key

theorem presses_append (a b : List Event) : presses (a ++ b) = presses a ++ presses b := List.filterMap_append

theorem pressesReturned_append (a b : List Turn) : pressesReturned (a ++ b) = pressesReturned a ++ pressesReturned b :=
  List.filterMap_append

theorem Holding.snoc {evs : List Event} {key : Key} (h : Holding evs key) {ev : Event} (hp : presses [ev] = [])
    (hu : ev ≠ .up key) : Holding (evs ++ [ev]) key := by
  obtain ⟨a, b, rfl, hpb, hub⟩ := h
  refine ⟨a, b ++ [ev], by simp, by rw [presses_append, hpb, hp]; rfl, ?_⟩
  rw [List.mem_append, List.mem_singleton]
  rintro (hm | rfl)
  · exact hub hm
  · exact hu rfl

theorem drainEvent_held {pending : List Key} {rep : Option Key} {backlog : List Event} {ev : Event} {key : Key}
    (hrep : ∀ k, rep = some k → k ∈ repeatKeys ∧ Holding backlog k) (h : (drainEvent pending rep ev).2 = some key) :
    key ∈ repeatKeys ∧ Holding (backlog ++ [ev]) key := by
  cases ev with
  | down k => simp [drainEvent] at h
  | other =>
    obtain ⟨hk, hh⟩ := hrep key h
    exact ⟨hk, hh.snoc rfl (by simp)⟩
  | hold k =>
    simp only [drainEvent] at h
    split at h
    · rename_i hk
      obtain rfl : k = key := by simpa using h
      exact ⟨hk, backlog, [], rfl, rfl, List.not_mem_nil⟩
    · obtain ⟨hk, hh⟩ := hrep key h
      exact ⟨hk, hh.snoc rfl (by simp)⟩
  | up k =>
    simp only [drainEvent] at h
    split at h
    · simp at h
    · rename_i hne
      obtain ⟨hk, hh⟩ := hrep key h
      refine ⟨hk, hh.snoc rfl ?_⟩
      rintro heq
      obtain rfl : k = key := by simpa using heq
      exact hne h.symm

theorem drainEvent_pending (pending : List Key) (rep : Option Key) (ev : Event) :
    (drainEvent pending rep ev).1 = pending ++ presses [ev] := by
  cases ev <;> simp [drainEvent, presses]

theorem endDrain_pending (kd : Key → Bool) (t : Turn) (rep : Option Key) :
    pressesReturned [{ t with returned := (endDrain kd t.pending rep).1 }] ++ (endDrain kd t.pending rep).2 = t.pending := by
  unfold endDrain
  split
  · simp [pressesReturned, *]
  · split <;> simp [pressesReturned, *]
  · simp [pressesReturned, *]

variable {keydown}

theorem endDrain_ok (hkd : ∀ evs key, keydown evs key = true → Down evs key) {s : Reading} {rep : Option Key}
    (hrep : ∀ k, rep = some k → k ∈ repeatKeys ∧ Holding s.backlog k) :
    Turn.Ok ⟨s.history, s.backlog, s.pending, (endDrain (keydown (s.history ++ s.backlog)) s.pending rep).1⟩ := by
  constructor
  · intro key pending hp
    simp only at hp
    simp [hp, endDrain]
  · intro key hr
    simp only at hr ⊢
    unfold endDrain at hr
    split at hr
    · simp at hr
    · rename_i k hp
      split at hr
      · rename_i hdown
        obtain rfl : k = key := by simpa using hr
        obtain ⟨hk, hh⟩ := hrep k rfl
        exact ⟨hp, hk, hh, hkd _ _ hdown⟩
      · simp at hr
    · simp at hr

theorem Synced.poll (hkd : ∀ evs key, keydown evs key = true → Down evs key) {s : Reading} (h : Synced s) {rep : Option Key}
    (hd : s.draining = some rep) : Synced (poll keydown s rep) := by
  have hrep : ∀ k, rep = some k → k ∈ repeatKeys ∧ Holding s.backlog k := fun k hk => h.held k (by rw [hd, hk])
  unfold Pyeditor.poll
  rcases hq : s.queue with _ | ⟨ev, queue⟩
  · have hpend := endDrain_pending (keydown (s.history ++ s.backlog)) ⟨s.history, s.backlog, s.pending, none⟩ rep
    simp only at hpend
    constructor
    · constructor
      · have := h.fifo
        rw [hq] at this
        simpa [hq] using this
      · simp [h.backlogs]
      · simp only [List.append_nil]
        rw [pressesReturned_append, List.append_assoc, hpend, h.presses]
      · intro t ht
        rcases List.mem_append.mp ht with ht | ht
        · exact h.turns t ht
        · obtain rfl := List.mem_singleton.mp ht
          exact endDrain_ok hkd hrep
    · exact fun _ => rfl
    · intro key hkey
      simp only at hkey
      split at hkey <;> simp at hkey
  · constructor
    · constructor
      · have := h.fifo
        rw [hq] at this
        simpa using this
      · exact h.backlogs
      · simp only
        rw [drainEvent_pending, ← List.append_assoc, h.presses, ← List.append_assoc, ← presses_append]
      · exact h.turns
    · intro hc
      simp at hc
    · intro key hkey
      exact drainEvent_held hrep (by simpa using hkey)

theorem Synced.step (hkd : ∀ evs key, keydown evs key = true → Down evs key) {s : Reading} (h : Synced s) (m : Move) :
    Synced (step keydown s m) := by
  cases m with
  | raise ev =>
    refine ⟨⟨?_, h.backlogs, h.presses, h.turns⟩, h.idle, h.held⟩
    show s.history ++ s.backlog ++ (s.queue ++ [ev]) = s.raised ++ [ev]
    rw [← List.append_assoc, h.fifo]
  | call =>
    unfold Pyeditor.step
    simp only
    split
    · exact ⟨⟨h.fifo, h.backlogs, h.presses, h.turns⟩, fun hc => by simp at hc, fun _ hc => by simp at hc⟩
    · exact h
  | poll =>
    unfold Pyeditor.step
    simp only
    split
    · rename_i rep hd
      exact h.poll hkd hd
    · exact h

theorem Synced.init : Synced .init := by
  refine ⟨⟨rfl, rfl, rfl, fun t ht => ?_⟩, fun _ => rfl, fun key hkey => ?_⟩
  · exact absurd ht List.not_mem_nil
  · simp [Reading.init] at hkey

/-- However the keyboard's events and the calls of read() interleave: every press is
returned in order or still pending, and a repeat only where it may be. -/
theorem reader_keeps_presses (hkd : ∀ evs key, keydown evs key = true → Down evs key) (moves : List Move) :
    Faithful (run (step keydown) .init moves) :=
  (run_inv (P := Synced) (fun _ m h => h.step hkd m) .init moves).toFaithful

/-- The last press or release of the key among the events read. -/
def lastDown (evs : List Event) (key : Key) : Bool :=
  evs.foldl (fun down ev => if ev = .down key then true else if ev = .up key then false else down) false

theorem lastDown_down (evs : List Event) (key : Key) (h : lastDown evs key = true) : Down evs key := by
  induction evs using List.reverseRecOn with
  | nil => simp [lastDown] at h
  | append_singleton evs ev ih =>
    simp only [lastDown, List.foldl_append, List.foldl_cons, List.foldl_nil] at h
    split at h
    · rename_i hev
      exact ⟨evs, [], by rw [hev], List.not_mem_nil⟩
    · split at h
      · simp at h
      · rename_i hup
        obtain ⟨a, b, rfl, hb⟩ := ih h
        refine ⟨a, b ++ [ev], by simp, ?_⟩
        rw [List.mem_append, List.mem_singleton]
        exact fun hm => hm.elim hb (Ne.symm hup)

/-- Keys pressed during a call and between two, and a key held and then let go. -/
theorem reader_keeps_presses_typing :
    Faithful (run (step lastDown) .init
      [.raise (.down .right), .raise (.hold .right), .call, .poll, .raise (.down .xot), .poll, .poll, .poll,
        .call, .poll, .raise (.hold .right), .raise (.up .right), .call, .poll, .poll, .poll]) :=
  reader_keeps_presses lastDown_down _

end PythonUltra.Pyeditor
