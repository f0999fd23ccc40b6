/-
  PythonUltra.Pygame.Events — pygame.event: post, get, poll and peek
  (ports/sh/modules/pygame/__init__.py).

  gint's own queue of key events is emptied into `_event_queue` one event at a time, at
  the beginning of a call, and a key may be pressed between any two of these turns. So a
  step is a key, a post, the beginning of a call, or one turn of `_drain_hardware`, the
  last of which ends the call. gint's key codes are a parameter (`code`).

  `run_served`: over every run the queue is that of a ledger of the events in the order
  they came in, which each call served as it should.
-/

import PythonUltra.Lib.Ledger

open PythonUltra.Lib

namespace PythonUltra.Pygame

/-! ## The code -/

def NOEVENT : Int := 0
def QUIT : Int := 0x100
def KEYDOWN : Int := 0x300
def KEYUP : Int := 0x301
def KMOD_SHIFT : Nat := 0x0003
def KMOD_CTRL : Nat := 0x00c0

/-- The keys that the tables name. -/
inductive KeyName where
  | exit | exe | xot | log | ln | sin | cos | tan | frac | fd | leftp | rightp | comma | arrow | mul | div | add | sub
  | digit (n : Fin 10)
  deriving DecidableEq

inductive KeyEv where
  | none | down | up | hold
  /-- the events of a touch screen -/
  | touch
  deriving DecidableEq

/-- What `pollevent` returns. -/
structure Raw where
  type : KeyEv
  key : Int
  shift : Bool
  alpha : Bool
  deriving DecidableEq

/-- A value of an attribute of an event. -/
inductive Value where
  | int (n : Int)
  | bool (b : Bool)
  | str (s : String)
  deriving DecidableEq

/-- `==`, for which True is 1. -/
def Value.eq : Value → Value → Bool
  | .int a, .bool b => a == b.toInt
  | .bool a, .int b => a.toInt == b
  | a, b => a == b

/-- An `Event`. Its type is an attribute as any other, which the attributes it is made with
may set again. -/
structure Event where
  type : Value
  dict : List (String × Value)
  deriving DecidableEq

/-- `Event(event_type, attributes)` -/
def Event.new (eventType : Int) (attributes : List (String × Value)) : Event :=
  ⟨(attributes.lookup "type").getD (.int eventType), attributes⟩

/-- `_ALPHA_KEYS` -/
def alphaKeys : List (Char × KeyName) :=
  [('a', .xot), ('b', .log), ('c', .ln), ('d', .sin), ('e', .cos), ('f', .tan), ('g', .frac), ('h', .fd), ('i', .leftp), ('j', .rightp),
   ('k', .comma), ('l', .arrow), ('m', .digit 7), ('n', .digit 8), ('o', .digit 9), ('p', .digit 4), ('q', .digit 5), ('r', .digit 6),
   ('s', .mul), ('t', .div), ('u', .digit 1), ('v', .digit 2), ('w', .digit 3), ('x', .add), ('y', .sub), ('z', .digit 0)]

/-- `_DIGIT_KEYS` -/
def digitKeys : List (Char × KeyName) :=
  [('0', .digit 0), ('1', .digit 1), ('2', .digit 2), ('3', .digit 3), ('4', .digit 4), ('5', .digit 5), ('6', .digit 6), ('7', .digit 7),
   ('8', .digit 8), ('9', .digit 9)]

/-- A table the other way round, as `_PHYSICAL_ALPHA` and `_PHYSICAL_DIGIT`. -/
def physical (code : KeyName → Int) (table : List (Char × KeyName)) (key : Int) : Option Char :=
  (table.find? fun entry => code entry.2 == key).map Prod.fst

/-- `_translate_event` -/
def translateEvent (code : KeyName → Int) (raw : Raw) : Option Event :=
  if raw.type = .none then none
  else if raw.type = .up ∨ raw.type = .down ∨ raw.type = .hold then
    let eventType := if raw.type = .up then KEYUP else KEYDOWN
    if raw.key = code .exit ∧ eventType = KEYDOWN then some (Event.new QUIT [])
    else
      let (keycode, unicode) :=
        match if raw.alpha then physical code alphaKeys raw.key else none, physical code digitKeys raw.key with
        | some letter, _ => ((letter.toNat : Int), String.singleton (if raw.shift then letter.toUpper else letter))
        | none, some digit => ((digit.toNat : Int), String.singleton digit)
        | none, none => if raw.key = code .exe then (code .exe, "\r") else (raw.key, "")
      let mods := (if raw.shift then KMOD_SHIFT else 0) ||| (if raw.alpha then KMOD_CTRL else 0)
      some (Event.new eventType [("key", .int keycode), ("mod", .int mods), ("unicode", .str unicode), ("scancode", .int raw.key),
        ("repeat", .bool (raw.type = .hold))])
  else none

/-- The `eventtype` of a call: one type, or a tuple, list or set of them. -/
inductive EventType where
  | one (type : Value)
  | several (types : List Value)

def EventType.wanted : EventType → List Value
  | .one type => [type]
  | .several types => types

/-- `item.type in wanted` -/
def EventType.wants (eventtype : EventType) (item : Event) : Bool := eventtype.wanted.any fun type => type.eq item.type

inductive Call where
  | get (eventtype : Option EventType) (pump : Bool)
  | poll
  | peek (eventtype : Option EventType) (pump : Bool)

inductive Reply where
  | events (result : List Event)
  | event (first : Event)
  | flag (found : Bool)
  deriving DecidableEq

/-- `get` after `_drain_hardware`: the result, and the queue it leaves. -/
def getEvents (eventtype : Option EventType) (queue : List Event) : List Event × List Event :=
  match eventtype with
  | none => (queue, [])
  | some eventtype => queue.foldl (fun (result, remaining) item =>
      if eventtype.wants item then (result ++ [item], remaining) else (result, remaining ++ [item])) ([], [])

/-- A call after `_drain_hardware`. -/
def Call.finish (queue : List Event) : Call → Reply × List Event
  | .get eventtype _ => let (result, queue) := getEvents eventtype queue; (.events result, queue)
  | .poll =>
    match getEvents none queue with
    | ([], queue) => (.event (Event.new NOEVENT []), queue)
    | (first :: values, queue) => (.event first, values ++ queue)
  | .peek none _ => (.flag !queue.isEmpty, queue)
  | .peek (some eventtype) _ => (.flag (queue.any eventtype.wants), queue)

/-- `poll` and, where it is to pump, `get` and `peek` drain the hardware. -/
def Call.drains : Call → Bool
  | .get _ pump => pump
  | .poll => true
  | .peek _ pump => pump

/-- `pollevent`, of gint: the oldest event of its queue, or one that says that there is none. -/
def pollevent : List Raw → Raw × List Raw
  | [] => (⟨.none, 0, false, false⟩, [])
  | raw :: hardware => (raw, hardware)

/-- `calling` is the call that is in `_drain_hardware`. -/
structure State where
  hardware : List Raw
  queue : List Event
  calling : Option Call

inductive Act where
  | key (raw : Raw)
  /-- `post`, of an Event or of anything else -/
  | post (item : Option Event)
  | call (c : Call)
  | drain

/-- What happens to events, in order. -/
inductive Log where
  | posted (item : Event)
  | read (raw : Raw)
  | reply (c : Call) (r : Reply)

/-- The end of a call. -/
def State.finish (s : State) (c : Call) : State × List Log :=
  let (r, queue) := c.finish s.queue
  (⟨s.hardware, queue, none⟩, [.reply c r])

/-- A step. none: nothing of the sort happens in this state. -/
def step (code : KeyName → Int) (s : State) : Act → Option (State × List Log)
  | .key raw => some ({ s with hardware := s.hardware ++ [raw] }, [])
  | .post item =>
    match s.calling, item with
    | some _, _ => none
    | none, some item => some ({ s with queue := s.queue ++ [item] }, [.posted item])
    -- TypeError
    | none, none => some (s, [])
  | .call c =>
    match s.calling with
    | some _ => none
    | none => if c.drains then some ({ s with calling := some c }, []) else some (s.finish c)
  | .drain =>
    match s.calling with
    | none => none
    | some c =>
      let (raw, hardware) := pollevent s.hardware
      let read := (s.hardware.take 1).map Log.read
      match translateEvent code raw with
      | none =>
        let (s, log) := { s with hardware := hardware }.finish c
        some (s, read ++ log)
      | some translated => some ({ s with hardware := hardware, queue := s.queue ++ [translated] }, read)

def runActs (code : KeyName → Int) : State → List Act → Option (State × List Log)
  | s, [] => some (s, [])
  | s, act :: acts => do
    let (s, log) ← step code s act
    let (s, rest) ← runActs code s acts
    return (s, log ++ rest)

/-! ## What calls are to serve -/

/-- The numbers that a call serves. -/
def Call.takes (L : Ledger Event) : Call → Nat → Bool
  | .get none _ => fun _ => true
  | .get (some eventtype) _ => L.meets eventtype.wants
  | .poll => L.isFirst
  | .peek _ _ => fun _ => false

/-- What a call is to return. -/
def Call.answer (L : Ledger Event) (c : Call) : Reply :=
  match c with
  | .get _ _ => .events (L.items (L.pending.filter (c.takes L)))
  | .poll => .event ((L.items (L.pending.filter (c.takes L))).head?.getD (Event.new NOEVENT []))
  | .peek none _ => .flag !L.queue.isEmpty
  | .peek (some eventtype) _ => .flag (L.queue.any eventtype.wants)

/-- A posted event and one that a key is translated to enter the ledger; a call serves. -/
def account (code : KeyName → Int) (L : Ledger Event) : Log → Ledger Event
  | .posted item => L.enter item
  | .read raw => ((translateEvent code raw).map L.enter).getD L
  | .reply c _ => L.serve (c.takes L)

/-- Every reply is the one that the ledger has for the call. -/
def Served (code : KeyName → Int) : Ledger Event → List Log → Prop
  | _, [] => True
  | L, entry :: log => (∀ c r, entry = .reply c r → r = c.answer L) ∧ Served code (account code L entry) log

/-- The keys of a run. -/
def pressed (acts : List Act) : List Raw := acts.filterMap fun act => match act with
  | .key raw => some raw
  | _ => none

/-- The events that the program posts. -/
def offered (acts : List Act) : List Event := acts.filterMap fun act => match act with
  | .post item => item
  | _ => none

/-- The posts of a log. -/
def posts (log : List Log) : List Event := log.filterMap fun entry => match entry with
  | .posted item => some item
  | _ => none

/-- The events that came in. -/
def incoming (code : KeyName → Int) (log : List Log) : List Event := log.filterMap fun entry => match entry with
  | .posted item => some item
  | .read raw => translateEvent code raw
  | .reply _ _ => none

/-- What was read of gint's queue. -/
def reads (log : List Log) : List Raw := log.filterMap fun entry => match entry with
  | .read raw => some raw
  | _ => none

variable {code : KeyName → Int} {L : Ledger Event}

/-! ## Calls -/

theorem getEvents_some (eventtype : EventType) (queue : List Event) :
    getEvents (some eventtype) queue = (queue.filter eventtype.wants, queue.filter fun item => !eventtype.wants item) := by
  have hfold : ∀ (items result remaining : List Event), items.foldl (fun (result, remaining) item =>
      if eventtype.wants item then (result ++ [item], remaining) else (result, remaining ++ [item])) (result, remaining) =
        (result ++ items.filter eventtype.wants, remaining ++ items.filter fun item => !eventtype.wants item) := by
    intro items
    induction items with
    | nil => simp
    | cons item items ih =>
      intro result remaining
      rw [List.foldl_cons]
      cases hwants : eventtype.wants item <;> simp [hwants, ih]
  exact hfold queue [] []

/-- A call returns and leaves what the ledger says. -/
theorem finish_served (L : Ledger Event) (c : Call) : c.finish L.queue = (c.answer L, (L.serve (c.takes L)).queue) := by
  cases c with
  | get eventtype pump =>
    cases eventtype with
    | none =>
      rw [Call.answer, Call.takes, L.queue_serve_all.1, L.queue_serve_all.2]
      rfl
    | some eventtype => rw [Call.finish, getEvents_some, Call.answer, Call.takes, L.queue_serve, L.items_served]
  | poll =>
    rw [Call.answer, Call.takes, L.queue_serve_first.1, L.queue_serve_first.2, Call.finish, getEvents]
    cases L.queue with
    | nil => rfl
    | cons first values => simp
  | peek eventtype pump =>
    rw [Call.takes, L.queue_serve_none]
    cases eventtype with
    | none => rfl
    | some eventtype => rfl

/-! ## Runs -/

theorem reads_append (log log' : List Log) : reads (log ++ log') = reads log ++ reads log' := List.filterMap_append

theorem posts_append (log log' : List Log) : posts (log ++ log') = posts log ++ posts log' := List.filterMap_append

theorem right_append {log log' : List Log} :
    Served code L (log ++ log') ↔ Served code L log ∧ Served code (log.foldl (account code) L) log' := by
  induction log generalizing L with
  | nil => simp [Served]
  | cons entry log ih => simp [Served, ih, and_assoc]

theorem account_entered (log : List Log) : (log.foldl (account code) L).entered = L.entered ++ incoming code log := by
  induction log generalizing L with
  | nil => simp [incoming]
  | cons entry log ih =>
    rw [List.foldl_cons, ih]
    cases entry with
    | posted item => simp [account, incoming, Ledger.enter]
    | read raw => cases h : translateEvent code raw <;> simp [account, incoming, h, Ledger.enter]
    | reply c r => simp [account, incoming, Ledger.serve]

theorem finish_step {s s' : State} {c : Call} {log : List Log} (hqueue : s.queue = L.queue) (hfinish : s.finish c = (s', log)) :
    Served code L log ∧ s'.queue = (log.foldl (account code) L).queue ∧ s'.hardware = s.hardware ∧ reads log = [] ∧ posts log = [] := by
  simp only [State.finish, hqueue, finish_served] at hfinish
  cases hfinish
  refine ⟨⟨fun c' r h => ?_, trivial⟩, rfl, rfl, rfl, rfl⟩
  cases h
  rfl

/-- What a step keeps: the ledger has the queue, and gint's queue what is still to be read. -/
theorem step_served {s s' : State} {act : Act} {log : List Log} (hqueue : s.queue = L.queue) (hstep : step code s act = some (s', log)) :
    Served code L log ∧ s'.queue = (log.foldl (account code) L).queue ∧ s.hardware ++ pressed [act] = reads log ++ s'.hardware ∧
      offered [act] = posts log := by
  obtain ⟨hardware, queue, calling⟩ := s
  cases act with
  | key raw =>
    cases hstep
    exact ⟨trivial, hqueue, rfl, rfl⟩
  | post item =>
    cases calling with
    | some c => cases hstep
    | none =>
      cases item with
      | none =>
        cases hstep
        exact ⟨trivial, hqueue, List.append_nil _, rfl⟩
      | some item =>
        cases hstep
        refine ⟨⟨by simp, trivial⟩, ?_, List.append_nil _, rfl⟩
        simp [account, show queue = L.queue from hqueue]
  | call c =>
    cases calling with
    | some c' => cases hstep
    | none =>
      simp only [step] at hstep
      split at hstep
      · cases hstep
        exact ⟨trivial, hqueue, List.append_nil _, rfl⟩
      · obtain ⟨hright, hleft, hhardware, hreads, hposts⟩ := @finish_step code _ _ _ _ _ hqueue (Option.some.inj hstep)
        exact ⟨hright, hleft, by rw [hreads, hhardware]; exact List.append_nil _, hposts.symm⟩
  | drain =>
    cases calling with
    | none => cases hstep
    | some c =>
      cases hardware with
      | nil =>
        -- there is nothing to read
        have hnone : translateEvent code (pollevent []).1 = none := if_pos rfl
        simp only [step, hnone] at hstep
        obtain ⟨hright, hleft, hempty, hreads, hposts⟩ := @finish_step code L _ _ _ _ hqueue (Option.some.inj hstep)
        exact ⟨hright, hleft, by rw [hreads, hempty]; rfl, hposts.symm⟩
      | cons raw hardware =>
        simp only [step, pollevent, List.take_succ_cons, List.take_zero, List.map_cons, List.map_nil, List.cons_append, List.nil_append] at hstep
        cases htranslated : translateEvent code raw with
        | none =>
          simp only [htranslated] at hstep
          obtain ⟨hs, rfl⟩ := Prod.mk.inj (Option.some.inj hstep)
          obtain ⟨hright, hleft, hrest, hreads, hposts⟩ := @finish_step code L ⟨hardware, queue, some c⟩ s' c _ hqueue (Prod.ext hs rfl)
          have hsame : account code L (.read raw) = L := by simp [account, htranslated]
          refine ⟨⟨by simp, ?_⟩, ?_, ?_, hposts.symm⟩
          · rwa [hsame]
          · rw [hleft]
            exact congrArg (fun L' : Ledger Event => (List.foldl (account code) L' _).queue) hsame.symm
          · rw [hrest]
            show _ = raw :: (reads _ ++ hardware)
            rw [hreads]
            exact List.append_nil (raw :: hardware)
        | some translated =>
          simp only [htranslated] at hstep
          cases hstep
          refine ⟨⟨by simp, trivial⟩, ?_, List.append_nil _, rfl⟩
          simp [account, htranslated, show queue = L.queue from hqueue]

/-- What a run keeps. -/
theorem runActs_served {s s' : State} {acts : List Act} {log : List Log} (hqueue : s.queue = L.queue)
    (hrun : runActs code s acts = some (s', log)) :
    Served code L log ∧ s'.queue = (log.foldl (account code) L).queue ∧ s.hardware ++ pressed acts = reads log ++ s'.hardware ∧
      offered acts = posts log := by
  induction acts generalizing s L log with
  | nil =>
    cases hrun
    exact ⟨trivial, hqueue, List.append_nil _, rfl⟩
  | cons act acts ih =>
    obtain ⟨⟨s₁, log₁⟩, hstep, hrest⟩ := Option.bind_eq_some_iff.mp hrun
    obtain ⟨⟨s₂, log₂⟩, hrun₂, hend⟩ := Option.bind_eq_some_iff.mp hrest
    cases hend
    obtain ⟨hright, hleft, hhardware, hposts⟩ := step_served hqueue hstep
    obtain ⟨hright', hleft', hhardware', hposts'⟩ := ih hleft hrun₂
    have hpressed : pressed (act :: acts) = pressed [act] ++ pressed acts := List.filterMap_append (l := [act])
    have hoffered : offered (act :: acts) = offered [act] ++ offered acts := List.filterMap_append (l := [act])
    refine ⟨right_append.mpr ⟨hright, hright'⟩, by rw [hleft', List.foldl_append], ?_, ?_⟩
    · rw [hpressed, ← List.append_assoc, hhardware, List.append_assoc, hhardware', reads_append, List.append_assoc]
    · rw [hoffered, hposts, hposts', posts_append]

/-- Over every run the queue is that of a ledger with the events in the order they came in.
Each event waits or was returned by one call, never by two; a call returns those of the
types it asks for in that order, and those it leaves stay in order. Key events that are
not in the ledger are still in gint's queue, or no events of the module's. -/
theorem run_served {hardware : List Raw} {acts : List Act} {s : State} {log : List Log}
    (hrun : runActs code ⟨hardware, [], none⟩ acts = some (s, log)) :
    ∃ L : Ledger Event, L = log.foldl (account code) Ledger.empty ∧ Served code Ledger.empty log ∧
      L.entered = incoming code log ∧ offered acts = posts log ∧ s.queue = L.items L.pending ∧
      (L.served.flatten ++ L.pending).Perm (List.range L.entered.length) ∧ L.pending.Pairwise (· < ·) ∧
      (∀ taken ∈ L.served, taken.Pairwise (· < ·)) ∧ hardware ++ pressed acts = reads log ++ s.hardware := by
  obtain ⟨hright, hqueue, hhardware, hposts⟩ := runActs_served (L := Ledger.empty) rfl hrun
  refine ⟨_, rfl, hright, ?_, hposts, hqueue, Ledger.partition _, Ledger.ordered _, Ledger.servedOrdered _, hhardware⟩
  rw [account_entered]
  rfl

/-- The codes of gint's key matrix. -/
def exampleCode : KeyName → Int
  | .exit => 0x74
  | .exe => 0x15
  | .digit n => if n = 0 then 0x11 else if n ≤ 3 then 0x20 + n else if n ≤ 6 then 0x30 + (n - 3) else 0x40 + (n - 6)
  | .xot => 0x61
  | .log => 0x62
  | .ln => 0x63
  | .sin => 0x64
  | .cos => 0x65
  | .tan => 0x66
  | .frac => 0x51
  | .fd => 0x52
  | .leftp => 0x53
  | .rightp => 0x54
  | .comma => 0x55
  | .arrow => 0x56
  | .mul => 0x34
  | .div => 0x35
  | .add => 0x24
  | .sub => 0x25

/-- A key that comes in while `poll` drains: `poll` returns the event that was posted. -/
def pollActs : List Act := [.post (some (Event.new 0x8000 [])), .call .poll, .key ⟨.down, 0x21, false, false⟩, .drain, .drain]

def pollLog : List Log := [.posted (Event.new 0x8000 []), .read ⟨.down, 0x21, false, false⟩, .reply .poll (.event (Event.new 0x8000 []))]

/-- What the key is translated to. -/
def oneEvent : Event :=
  Event.new KEYDOWN [("key", .int 49), ("mod", .int 0), ("unicode", .str "1"), ("scancode", .int 0x21), ("repeat", .bool false)]

theorem run_served_poll :
    ∃ L : Ledger Event, L = pollLog.foldl (account exampleCode) Ledger.empty ∧ Served exampleCode Ledger.empty pollLog ∧
      L.entered = incoming exampleCode pollLog ∧ offered pollActs = posts pollLog ∧ [oneEvent] = L.items L.pending ∧
      (L.served.flatten ++ L.pending).Perm (List.range L.entered.length) ∧ L.pending.Pairwise (· < ·) ∧
      (∀ taken ∈ L.served, taken.Pairwise (· < ·)) ∧ [] ++ pressed pollActs = reads pollLog ++ [] :=
  run_served (s := ⟨[], [oneEvent], none⟩) rfl

end PythonUltra.Pygame
