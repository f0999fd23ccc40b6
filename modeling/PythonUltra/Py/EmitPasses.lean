/-
  PythonUltra.Py.EmitPasses — the passes of the emitter, until one is accepted.

  "It must only ever decrease in size on successive passes", the source says of a jump. A jump
  back does. A jump forward is measured from where it is now to where its label was in the
  pass before, so what shrinks in front of it can push the label out of its reach: the jump
  grows, and a pass may then have the size of the one before with its labels elsewhere
  (`grown_jump_misses`). As long as no jump forward grows so (`NoneGrows`), the passes come
  to an end and every jump of the last one lands on its label (`emit_passes_land`).
-/

import PythonUltra.Py.EmitLayout

namespace PythonUltra.Py.EmitBc

/-! ## One pass -/

section

variable {sc : Scope} {e : Emit}

/-- What the calls of a pass leave alone. -/
theorem foldl_frame (sc : Scope) (calls : List Call) : ∀ e : Emit,
    (calls.foldl (step sc) e).pass = e.pass ∧ (calls.foldl (step sc) e).nInfo = e.nInfo ∧
    (calls.foldl (step sc) e).nCell = e.nCell ∧ (calls.foldl (step sc) e).codeInfoSize = e.codeInfoSize ∧
    (calls.foldl (step sc) e).bytecodeSize = e.bytecodeSize ∧ (calls.foldl (step sc) e).accepted = e.accepted := by
  induction calls with
  | nil =>
    intro e
    exact ⟨rfl, rfl, rfl, rfl, rfl, rfl⟩
  | cons c calls ih =>
    intro e
    rw [List.foldl_cons]
    have hrest := ih (step sc e c)
    rw [step_eq sc e c] at hrest ⊢
    exact hrest

theorem foldl_grows (sc : Scope) (calls : List Call) : ∀ e : Emit,
    (∃ more, (calls.foldl (step sc) e).code = e.code ++ more) ∧ ∃ more, (calls.foldl (step sc) e).info = e.info ++ more := by
  induction calls with
  | nil =>
    intro e
    exact ⟨⟨[], (List.append_nil _).symm⟩, [], (List.append_nil _).symm⟩
  | cons c calls ih =>
    intro e
    rw [List.foldl_cons]
    obtain ⟨⟨moreCode, hcode⟩, moreInfo, hinfo⟩ := ih (step sc e c)
    rw [hcode, hinfo, step_eq sc e c]
    exact ⟨⟨codeOf e c ++ moreCode, List.append_assoc _ _ _⟩, infoOf e c ++ moreInfo, List.append_assoc _ _ _⟩

theorem code_le_foldl (sc : Scope) (calls : List Call) (e : Emit) : e.code.length ≤ (calls.foldl (step sc) e).code.length := by
  obtain ⟨⟨more, hmore⟩, _⟩ := foldl_grows sc calls e
  rw [hmore, List.length_append]
  exact Nat.le_add_right _ _

theorem info_le_foldl (sc : Scope) (calls : List Call) (e : Emit) : e.info.length ≤ (calls.foldl (step sc) e).info.length := by
  obtain ⟨_, more, hmore⟩ := foldl_grows sc calls e
  rw [hmore, List.length_append]
  exact Nat.le_add_right _ _

theorem labels_foldl {l : Nat} (calls : List Call) : ∀ e : Emit, l ∉ assigned calls →
    (calls.foldl (step sc) e).labelOffsets l = e.labelOffsets l := by
  induction calls with
  | nil =>
    intro e _
    rfl
  | cons c calls ih =>
    intro e hl
    unfold assigned at hl
    rw [List.flatMap_cons, List.mem_append, not_or] at hl
    rw [List.foldl_cons, ih _ hl.2, step_eq sc e c]
    exact labelsOf_of_not_mem hl.1

/-- A label that is assigned is not assigned again. -/
theorem CallsOk.not_assigned {all : List Nat} {l : Nat} (calls : List Call) : ∀ {done dead depth},
    CallsOk sc all done dead depth calls → l ∈ done → l ∉ assigned calls := by
  induction calls with
  | nil =>
    intro done dead depth _ _ hl
    cases hl
  | cons c calls ih =>
    intro done dead depth hok hdone hl
    obtain ⟨hcall, _, hrest⟩ := hok
    unfold assigned at hl
    rw [List.flatMap_cons, List.mem_append] at hl
    rcases hl with hhere | hlater
    · rw [eq_of_mem_labelOf hhere] at hcall
      exact hcall.1 hdone
    · exact ih hrest (List.mem_append_left _ hdone) hlater

theorem CallsOk.label_here {all : List Nat} {l : Nat} {c : Call} {calls : List Call} {done dead depth}
    (hok : CallsOk sc all done dead depth (c :: calls)) (hl : l ∈ labelOf c) :
    ((c :: calls).foldl (step sc) e).labelOffsets l = e.code.length := by
  have hnot := hok.2.2.not_assigned calls (List.mem_append_right _ hl)
  rw [List.foldl_cons, labels_foldl calls _ hnot, step_eq sc e c]
  exact labelsOf_of_mem hl

/-- A label that is still to come will not be behind. -/
theorem CallsOk.code_le_label {all : List Nat} {l : Nat} (calls : List Call) : ∀ {done dead depth} (e : Emit),
    CallsOk sc all done dead depth calls → l ∈ assigned calls → e.code.length ≤ (calls.foldl (step sc) e).labelOffsets l := by
  induction calls with
  | nil =>
    intro done dead depth e _ hl
    cases hl
  | cons c calls ih =>
    intro done dead depth e hok hl
    unfold assigned at hl
    rw [List.flatMap_cons, List.mem_append] at hl
    by_cases hhere : l ∈ labelOf c
    · rw [hok.label_here hhere]
    · have hlater := ih (step sc e c) hok.2.2 (hl.resolve_left hhere)
      refine Nat.le_trans ?_ hlater
      rw [step_eq sc e c, List.length_append]
      exact Nat.le_add_right _ _

end

/-! ## The same calls in two passes -/

/-- No jump forward that a byte was enough for is out of its reach in the second pass. -/
def NoneGrows (sc : Scope) : List Nat → Emit → Emit → List Call → Prop
  | _, _, _, [] => True
  | done, e, e', c :: calls =>
    StaysShort done e e' c ∧ NoneGrows sc (done ++ labelOf c) (step sc e c) (step sc e' c) calls

def decideNoneGrows (sc : Scope) : ∀ done e e' calls, Decidable (NoneGrows sc done e e' calls)
  | _, _, _, [] => .isTrue trivial
  | done, e, e', c :: calls =>
    have := decideNoneGrows sc (done ++ labelOf c) (step sc e c) (step sc e' c) calls
    inferInstanceAs (Decidable (StaysShort done e e' c ∧
      NoneGrows sc (done ++ labelOf c) (step sc e c) (step sc e' c) calls))

instance (sc : Scope) (done : List Nat) (e e' : Emit) (calls : List Call) : Decidable (NoneGrows sc done e e' calls) :=
  decideNoneGrows sc done e e' calls

section

variable {sc : Scope} {final : Nat → Nat} {all : List Nat}

theorem two_le_length_codeOf {e : Emit} (stackAdj : Int) (op label : Nat) (h : e.suppress = false) :
    2 ≤ (codeOf e (.jump stackAdj op label)).length := by
  simp only [codeOf, h, Bool.false_eq_true, if_false, length_jumpBytes]
  split <;> omega

/-- Two passes that make the same calls, when no jump grows. -/
theorem shrunk_foldl (calls : List Call) : ∀ {done : List Nat} {e e' : Emit}, Shrunk final done e e' → e'.pass ≠ .stackSize →
    CallsOk sc all done e.suppress e.stackSize calls → final = (calls.foldl (step sc) e).labelOffsets →
    (∀ l ∈ all, l ∈ done ∨ l ∈ assigned calls) → NoneGrows sc done e e' calls →
    (e'.pass = .emit → e'.nInfo ≤ e.nInfo ∧ (calls.foldl (step sc) e).code.length ≤ e'.bytecodeSize ∧
      (calls.foldl (step sc) e).info.length ≤ e'.codeInfoSize) →
    Shrunk final (done ++ assigned calls) (calls.foldl (step sc) e) (calls.foldl (step sc) e') ∧
    (calls.foldl (step sc) e').failed = e'.failed ∧ (calls.foldl (step sc) e).stackSize = 0 := by
  induction calls with
  | nil =>
    intro done e e' hs _ hok _ _ _ _
    refine ⟨?_, rfl, hok⟩
    rw [show assigned [] = [] from rfl, List.append_nil]
    exact hs
  | cons c calls ih =>
    intro done e e' hs hpass' hok hfinal hall hnone hroom
    obtain ⟨hcall, hstack, hrest⟩ := id hok
    have hlabel : ∀ label, c = .labelAssign label → final label = e.code.length := by
      intro label hc
      rw [hfinal]
      exact hok.label_here (by simp [hc, labelOf])
    have hnext := hs.step hpass' hcall hlabel hnone.1
    have hcode := codeOf_le hs hpass' hcall hnone.1
    have hinfo := infoOf_le hs c
    have hstepCode : (step sc e c).code.length = e.code.length + (codeOf e c).length := by
      rw [step_eq sc e c, List.length_append]
    have hstepInfo : (step sc e c).info.length = e.info.length + (infoOf e c).length := by
      rw [step_eq sc e c, List.length_append]
    have hallCode := code_le_foldl sc calls (step sc e c)
    have hallInfo := info_le_foldl sc calls (step sc e c)
    rw [List.foldl_cons] at hfinal hroom ⊢
    rw [List.foldl_cons]
    have hforward : ∀ stackAdj op label, c = .jump stackAdj op label → e.suppress = false → label ∉ done →
        e.code.length + 2 ≤ final label := by
      intro stackAdj op label hc hlive hnew
      rw [hc] at hcall
      have hin : label ∈ assigned calls := by
        rcases hall label (hcall hlive).1 with hdone | hmem
        · exact absurd hdone hnew
        · rw [hc] at hmem
          exact hmem
      have hpast := hrest.code_le_label calls (step sc e c) hin
      have htwo := two_le_length_codeOf stackAdj op label hlive
      rw [← hc] at htwo
      rw [hfinal]
      omega
    have hfailed : (step sc e' c).failed = e'.failed := by
      refine step_failed hs hpass' hcall hstack hforward hlabel ?_ ?_
      · intro hemit
        have := hs.code
        have := (hroom hemit).2.1
        omega
      · intro hemit
        have := hs.info
        have := hs.nInfo
        have := hs.nInfo'
        have := hroom hemit
        omega
    have hstate : (step sc e c).suppress = suppressOf e.suppress c ∧ (step sc e c).stackSize = e.stackSize + stackAdjOf c ∧
        (step sc e c).nInfo = e.nInfo := by
      rw [step_eq sc e c]
      exact ⟨rfl, rfl, rfl⟩
    have hstate' : (step sc e' c).pass = e'.pass ∧ (step sc e' c).nInfo = e'.nInfo ∧
        (step sc e' c).bytecodeSize = e'.bytecodeSize ∧ (step sc e' c).codeInfoSize = e'.codeInfoSize := by
      rw [step_eq sc e' c]
      exact ⟨rfl, rfl, rfl, rfl⟩
    have hsum := ih hnext (by rw [hstate'.1]; exact hpass') (by rw [hstate.1, hstate.2.1]; exact hrest) hfinal
      (by
        intro l hl
        rcases hall l hl with hdone | hmem
        · exact .inl (List.mem_append_left _ hdone)
        · unfold assigned at hmem
          rw [List.flatMap_cons, List.mem_append] at hmem
          exact hmem.imp_left (List.mem_append_right _))
      hnone.2
      (by
        rw [hstate'.1, hstate'.2.1, hstate'.2.2.1, hstate'.2.2.2, hstate.2.2]
        exact hroom)
    rw [hfailed, List.append_assoc] at hsum
    exact hsum

end

/-! ## The start and the end of a pass -/

/-- The signature and the sizes. -/
def preludeOf (sc : Scope) (pass : Pass) (e : Emit) : List Nat :=
  sigEncode (sc.sigs pass) ++ if pass ≠ .stackSize then sizeEncode e.nInfo e.nCell else []

def namesOf (sc : Scope) : List Nat := encodeUint sc.name ++ sc.params.flatMap encodeUint

theorem startPass_eq (sc : Scope) (pass : Pass) (e : Emit) : startPass sc pass e = { e with
    pass := pass, suppress := false, stackSize := 0, lastSourceLineOffset := 0, lastSourceLine := 1
    info := preludeOf sc pass e ++ namesOf sc
    code := [], overflow := false, jumps := [], accepted := false
    nInfo := (preludeOf sc pass e).length
    failed := (startPass sc pass e).failed } := by
  cases pass with
  | stackSize => simp [startPass, Emit.writeInfo, Emit.assert, preludeOf, namesOf]
  | codeSize => simp [startPass, Emit.writeInfo, Emit.assert, preludeOf, namesOf]
  | emit => simp [startPass, Emit.writeInfo, Emit.assert, preludeOf, namesOf]

theorem writeInfo_failed {bytes : List Nat} {e : Emit} (h : e.pass = .emit → e.info.length + bytes.length ≤ e.codeInfoSize) :
    (e.writeInfo bytes).failed = e.failed := by
  unfold Emit.writeInfo
  rw [assert_eq (room_eq h)]

theorem startPass_failed {sc : Scope} {pass : Pass} {e : Emit}
    (hroom : pass = .emit → (preludeOf sc pass e).length + (namesOf sc).length ≤ e.codeInfoSize) :
    (startPass sc pass e).failed = e.failed := by
  cases pass with
  | stackSize => simp [startPass, Emit.writeInfo, Emit.assert]
  | codeSize => simp [startPass, Emit.writeInfo, Emit.assert]
  | emit =>
    have h := hroom rfl
    simp only [preludeOf, namesOf, List.length_append, ne_eq, reduceCtorEq, not_false_eq_true, if_true] at h
    unfold startPass
    dsimp only
    rw [if_pos (by decide), writeInfo_failed, writeInfo_failed]
    · rw [writeInfo_failed, writeInfo_failed]
      · intro _
        dsimp only [List.length_nil]
        omega
      · intro _
        simp only [Emit.writeInfo, Emit.assert, List.length_append, List.length_nil]
        omega
    · intro _
      simp only [Emit.writeInfo, Emit.assert, List.length_append, List.length_nil]
      omega
    · intro _
      simp only [Emit.writeInfo, Emit.assert, List.length_append, List.length_nil]
      omega

/-- One local of the closure section. -/
theorem writeCells_failed {cells : List Nat} {e : Emit} (hcells : ∀ c ∈ cells, c ≤ 255)
    (hroom : e.pass = .emit → e.info.length + cells.length ≤ e.codeInfoSize) : (writeCells e cells).failed = e.failed := by
  have h : ∀ (cells : List Nat) (e : Emit), (∀ c ∈ cells, c ≤ 255) →
      (e.pass = .emit → e.info.length + cells.length ≤ e.codeInfoSize) →
      (cells.foldl (fun e c => { (e.assert (c ≤ 255)).writeInfo [c] with nCell := e.nCell + 1 }) e).failed = e.failed := by
    intro cells
    induction cells with
    | nil =>
      intro e _ _
      rfl
    | cons c cells ih =>
      intro e hcells hroom
      have hbyte : decide (c ≤ 255) = true := decide_eq_true (hcells c List.mem_cons_self)
      rw [List.length_cons] at hroom
      rw [List.foldl_cons, ih _ (fun d hd => hcells d (List.mem_cons_of_mem _ hd)), assert_eq hbyte]
      · refine writeInfo_failed fun hpass => ?_
        have := hroom hpass
        rw [List.length_singleton]
        omega
      · intro hpass
        have := hroom hpass
        simp only [Emit.writeInfo, Emit.assert, List.length_append, List.length_singleton]
        omega
  exact h cells { e with nCell := 0 } hcells hroom

theorem writeCells_eq (cells : List Nat) (e : Emit) : writeCells e cells = { e with
    info := e.info ++ cells, nCell := cells.length, failed := (writeCells e cells).failed } := by
  have h : ∀ (cells : List Nat) (e : Emit), ∃ failed, cells.foldl (fun e c => { (e.assert (c ≤ 255)).writeInfo [c] with
      nCell := e.nCell + 1 }) e = { e with info := e.info ++ cells, nCell := e.nCell + cells.length, failed := failed } := by
    intro cells
    induction cells with
    | nil =>
      intro e
      exact ⟨e.failed, by simp⟩
    | cons c cells ih =>
      intro e
      obtain ⟨failed, hrest⟩ := ih { (e.assert (c ≤ 255)).writeInfo [c] with nCell := e.nCell + 1 }
      refine ⟨failed, ?_⟩
      rw [List.foldl_cons, hrest]
      simp [Emit.writeInfo, Emit.assert]
      omega
  obtain ⟨failed, hcells⟩ := h cells { e with nCell := 0 }
  unfold writeCells
  rw [hcells]
  simp

/-- The size of the code info, if the pass is one that sets it. -/
def sizeAfter (pass : Pass) (size length : Nat) : Nat := if pass = .stackSize then size else length

theorem checkSizes_eq (e : Emit) : checkSizes e = { e with
    codeInfoSize := e.info.length
    bytecodeSize := e.code.length
    accepted := e.accepted || decide (e.info.length = e.codeInfoSize ∧ e.code.length = e.bytecodeSize)
    failed := (checkSizes e).failed } := by
  by_cases h : e.info.length = e.codeInfoSize ∧ e.code.length = e.bytecodeSize
  · simp [checkSizes, Emit.assert, h]
  · have hno : ¬ e.info.length = e.codeInfoSize ∨ ¬ e.code.length = e.bytecodeSize := not_and_or.mp h
    simp [checkSizes, Emit.assert, hno, h]

theorem checkSizes_failed {e : Emit} (hinfo : e.info.length ≤ e.codeInfoSize) (hcode : e.code.length ≤ e.bytecodeSize) :
    (checkSizes e).failed = e.failed := by
  unfold checkSizes
  dsimp only
  rw [assert_eq (decide_eq_true hinfo), assert_eq (decide_eq_true hcode)]
  split <;> rfl

theorem endPass_eq (sc : Scope) (e : Emit) : endPass sc e = { e with
    info := e.info ++ sc.cells
    codeInfoSize := sizeAfter e.pass e.codeInfoSize (e.info ++ sc.cells).length
    bytecodeSize := sizeAfter e.pass e.bytecodeSize e.code.length
    nInfo := e.info.length - e.nInfo
    nCell := sc.cells.length
    accepted := e.accepted || (decide (e.pass = .emit) &&
      decide ((e.info ++ sc.cells).length = e.codeInfoSize ∧ e.code.length = e.bytecodeSize))
    failed := (endPass sc e).failed } := by
  unfold endPass
  dsimp only
  rw [writeCells_eq]
  dsimp only [Emit.assert]
  cases hpass : e.pass with
  | stackSize => simp [sizeAfter]
  | codeSize => simp [sizeAfter]
  | emit =>
    dsimp only
    rw [checkSizes_eq]
    simp [sizeAfter]

theorem endPass_failed {sc : Scope} {e : Emit} (hstack : e.stackSize = 0) (hcells : ∀ c ∈ sc.cells, c ≤ 255)
    (hroom : e.pass = .emit → e.info.length + sc.cells.length ≤ e.codeInfoSize ∧ e.code.length ≤ e.bytecodeSize) :
    (endPass sc e).failed = e.failed := by
  have hwritten : (writeCells { e with nInfo := e.info.length - e.nInfo } sc.cells).failed = e.failed :=
    writeCells_failed hcells fun hpass => (hroom hpass).1
  unfold endPass
  dsimp only
  rw [assert_eq (decide_eq_true hstack), writeCells_eq, hwritten]
  dsimp only
  cases hpass : e.pass with
  | stackSize => rfl
  | codeSize => rfl
  | emit =>
    obtain ⟨hinfo, hcode⟩ := hroom hpass
    rw [← List.length_append] at hinfo
    exact checkSizes_failed hinfo hcode

/-! ## One pass after another -/

/-- The calls of a pass before any label is assigned. -/
structure WellFormed (sc : Scope) (calls : List Call) : Prop where
  calls : CallsOk sc (assigned calls) [] false 0 calls
  cells : ∀ c ∈ sc.cells, c ≤ 255

section

variable {sc : Scope} {calls : List Call} {p q : Pass} {b : Emit}

/-- A pass up to its end. -/
def body (sc : Scope) (calls : List Call) (p : Pass) (b : Emit) : Emit := calls.foldl (step sc) (startPass sc p b)

/-- The pass that starts where another ended. -/
theorem shrunk_start (sc : Scope) (calls : List Call) (p q : Pass) (b : Emit) :
    Shrunk (body sc calls p b).labelOffsets [] (startPass sc p b) (startPass sc q (compileScope sc calls p b)) := by
  have hlabels : (compileScope sc calls p b).labelOffsets = (body sc calls p b).labelOffsets := by
    unfold compileScope
    rw [endPass_eq]
    rfl
  rw [startPass_eq sc p b, startPass_eq sc q]
  constructor
  case suppress => rfl
  case stackSize => rfl
  case line => rfl
  case lineOffset => exact Nat.le_refl 0
  case sinceLine => exact Nat.le_refl 0
  case code => exact Nat.le_refl 0
  case nInfo =>
    dsimp only
    rw [List.length_append]
    exact Nat.le_add_right _ _
  case nInfo' =>
    dsimp only
    rw [List.length_append]
    exact Nat.le_add_right _ _
  case info =>
    dsimp only
    rw [List.length_append, List.length_append]
    omega
  case settled =>
    intro l hl
    cases hl
  case moved =>
    intro l hl
    cases hl
  case pending =>
    intro l _
    exact congrFun hlabels l
  case lands =>
    intro _ _ j hj
    cases hj

theorem Shrunk.length_info_le {final : Nat → Nat} {done : List Nat} {e e' : Emit} (hs : Shrunk final done e e')
    (h : e'.nInfo ≤ e.nInfo) : e'.info.length ≤ e.info.length := by
  have := hs.info
  have := hs.nInfo
  have := hs.nInfo'
  omega

/-- The numbers in the prelude of the second pass take no more bytes than those in the first. -/
theorem length_preludeOf_le {e e' : Emit} (hp : p ≠ .stackSize) (hq : q ≠ .stackSize) (hinfo : e'.nInfo ≤ e.nInfo)
    (hcell : e'.nCell = e.nCell) : (preludeOf sc q e').length ≤ (preludeOf sc p e).length := by
  have hsig : sc.sigs q = sc.sigs p := by
    cases p with
    | stackSize => exact absurd rfl hp
    | codeSize =>
      cases q with
      | stackSize => exact absurd rfl hq
      | codeSize => rfl
      | emit => exact sc.sigs_eq.symm
    | emit =>
      cases q with
      | stackSize => exact absurd rfl hq
      | codeSize => exact sc.sigs_eq
      | emit => rfl
  unfold preludeOf
  rw [if_pos hp, if_pos hq, hsig, hcell, List.length_append, List.length_append]
  have := length_sizeEncode_le hinfo e.nCell
  omega

theorem body_frame (sc : Scope) (calls : List Call) (p : Pass) (b : Emit) :
    (body sc calls p b).pass = p ∧ (body sc calls p b).nInfo = (preludeOf sc p b).length ∧
    (body sc calls p b).codeInfoSize = b.codeInfoSize ∧ (body sc calls p b).bytecodeSize = b.bytecodeSize ∧
    (body sc calls p b).accepted = false := by
  obtain ⟨hpass, hinfo, _, hsize, hbytes, haccepted⟩ := foldl_frame sc calls (startPass sc p b)
  unfold body
  rw [hpass, hinfo, hsize, hbytes, haccepted, startPass_eq sc p b]
  exact ⟨rfl, rfl, rfl, rfl, rfl⟩

theorem body_info (sc : Scope) (calls : List Call) (p : Pass) (b : Emit) :
    ∃ more, (body sc calls p b).info = preludeOf sc p b ++ more := by
  obtain ⟨_, more, hmore⟩ := foldl_grows sc calls (startPass sc p b)
  unfold body
  rw [hmore, startPass_eq sc p b]
  exact ⟨namesOf sc ++ more, List.append_assoc _ _ _⟩

theorem compileScope_fields (sc : Scope) (calls : List Call) (p : Pass) (b : Emit) :
    (compileScope sc calls p b).info = (body sc calls p b).info ++ sc.cells ∧
    (compileScope sc calls p b).nInfo = (body sc calls p b).info.length - (preludeOf sc p b).length ∧
    (compileScope sc calls p b).nCell = sc.cells.length ∧
    (p ≠ .stackSize → (compileScope sc calls p b).codeInfoSize = (body sc calls p b).info.length + sc.cells.length ∧
      (compileScope sc calls p b).bytecodeSize = (body sc calls p b).code.length) := by
  obtain ⟨hpass, hinfo, _⟩ := body_frame sc calls p b
  unfold compileScope
  rw [endPass_eq sc (calls.foldl _ _)]
  refine ⟨rfl, congrArg (_ - ·) hinfo, rfl, fun hp => ?_⟩
  have hsize : ∀ size length, sizeAfter (body sc calls p b).pass size length = length := by
    intro size length
    rw [hpass]
    exact if_neg hp
  rw [← List.length_append]
  exact ⟨hsize _ _, hsize _ _⟩

/-- What a pass makes, and what is left to compare. -/
theorem compileScope_made (sc : Scope) (calls : List Call) (p : Pass) (b : Emit) :
    (compileScope sc calls p b).code = (body sc calls p b).code ∧
    (compileScope sc calls p b).jumps = (body sc calls p b).jumps ∧
    (compileScope sc calls p b).labelOffsets = (body sc calls p b).labelOffsets ∧
    (compileScope sc calls p b).overflow = (body sc calls p b).overflow ∧
    ((compileScope sc calls p b).accepted = true ↔ p = .emit ∧
      (body sc calls p b).info.length + sc.cells.length = b.codeInfoSize ∧ (body sc calls p b).code.length = b.bytecodeSize) := by
  obtain ⟨hpass, _, hsize, hbytes, haccepted⟩ := body_frame sc calls p b
  unfold compileScope
  rw [endPass_eq sc (calls.foldl _ _)]
  refine ⟨rfl, rfl, rfl, rfl, ?_⟩
  change ((body sc calls p b).accepted || (decide ((body sc calls p b).pass = .emit) &&
    decide (((body sc calls p b).info ++ sc.cells).length = (body sc calls p b).codeInfoSize ∧
      (body sc calls p b).code.length = (body sc calls p b).bytecodeSize))) = true ↔ _
  rw [hpass, hsize, hbytes, haccepted, List.length_append]
  simp

/-- What the second pass relies on: its prelude has the sizes found by the first. -/
structure Prepared (sc : Scope) (p : Pass) (b t : Emit) : Prop where
  pass : p ≠ .stackSize
  nInfo : t.nInfo ≤ b.nInfo
  nCell : b.nCell = sc.cells.length

theorem shrunk_pass (hwf : WellFormed sc calls) (hq : q ≠ .stackSize)
    (hnone : NoneGrows sc [] (startPass sc p b) (startPass sc q (compileScope sc calls p b)) calls)
    (hprepared : q = .emit → Prepared sc p b (compileScope sc calls p b))
    (hfailed : (compileScope sc calls p b).failed = false) :
    Shrunk (body sc calls p b).labelOffsets (assigned calls) (body sc calls p b) (body sc calls q (compileScope sc calls p b)) ∧
    (compileScope sc calls q (compileScope sc calls p b)).failed = false := by
  have hstart := shrunk_start sc calls p q b
  obtain ⟨_, htInfo, htCell, htSizes⟩ := compileScope_fields sc calls p b
  obtain ⟨_, hnInfo, _⟩ := body_frame sc calls p b
  obtain ⟨hpass, hnInfo', hsize, hbytes, _⟩ := body_frame sc calls q (compileScope sc calls p b)
  have hprelude : q = .emit →
      (preludeOf sc q (compileScope sc calls p b)).length ≤ (preludeOf sc p b).length := by
    intro hemit
    have h := hprepared hemit
    exact length_preludeOf_le h.pass hq h.nInfo (by rw [htCell, h.nCell])
  have hsizes : q = .emit → (compileScope sc calls p b).codeInfoSize = (body sc calls p b).info.length + sc.cells.length ∧
      (compileScope sc calls p b).bytecodeSize = (body sc calls p b).code.length :=
    fun hemit => htSizes (hprepared hemit).pass
  have hnames : (startPass sc p b).info.length = (preludeOf sc p b).length + (namesOf sc).length := by
    rw [startPass_eq sc p b, List.length_append]
  have hgrown := info_le_foldl sc calls (startPass sc p b)
  have hstarted : (startPass sc q (compileScope sc calls p b)).failed = false := by
    rw [startPass_failed, hfailed]
    intro hemit
    have := hprelude hemit
    rw [(hsizes hemit).1]
    unfold body
    omega
  obtain ⟨hshrunk, hrun, hstack⟩ := shrunk_foldl calls hstart
    (by rw [startPass_eq sc q]; exact hq) (by rw [startPass_eq sc p b]; exact hwf.calls) rfl (fun l hl => .inr hl) hnone
    (by
      rw [startPass_eq sc q, startPass_eq sc p b]
      intro hemit
      dsimp only at hemit ⊢
      rw [← startPass_eq sc p b, (hsizes hemit).1, (hsizes hemit).2]
      exact ⟨hprelude hemit, Nat.le_refl _, Nat.le_add_right _ _⟩)
  rw [List.nil_append] at hshrunk
  change Shrunk _ _ (body sc calls p b) (body sc calls q (compileScope sc calls p b)) at hshrunk
  refine ⟨hshrunk, ?_⟩
  have hend : (endPass sc (body sc calls q (compileScope sc calls p b))).failed =
      (body sc calls q (compileScope sc calls p b)).failed := by
    refine endPass_failed ?_ hwf.cells ?_
    · exact hshrunk.stackSize.trans hstack
    · intro hemit
      rw [hpass] at hemit
      have hinfo := hshrunk.length_info_le (by rw [hnInfo, hnInfo']; exact hprelude hemit)
      have hcode := hshrunk.code
      rw [hsize, hbytes, (hsizes hemit).1, (hsizes hemit).2]
      exact ⟨Nat.add_le_add_right hinfo _, hcode⟩
  exact hend.trans (hrun.trans hstarted)

/-! ## The pass that has no pass before it -/

theorem step_failed_stackSize {all done : List Nat} {e : Emit} {c : Call} (hpass : e.pass = .stackSize)
    (hok : CallOk sc all done e.suppress c) (hstack : 0 ≤ e.stackSize + stackAdjOf c) : (step sc e c).failed = e.failed := by
  cases c with
  | write stackAdj bytes =>
    dsimp only [step, stackAdjOf] at hstack ⊢
    rw [adjustStackSize_eq hstack]
    unfold Emit.writeCode
    split
    · rfl
    · simp [Emit.assert, hpass]
  | jump stackAdj op label =>
    dsimp only [step, emitByteLabel, stackAdjOf] at hstack ⊢
    rw [adjustStackSize_eq hstack]
    by_cases h : e.suppress = true
    · simp [writeJump, h]
    · simp [writeJump, Emit.writeCode, Emit.assert, h, hpass, wide]
  | suppress => rfl
  | adjustStackSize delta =>
    dsimp only [step, stackAdjOf] at hstack ⊢
    rw [adjustStackSize_eq hstack]
  | labelAssign label => simp [step, emitLabel, Emit.assert, hpass, hok.2]
  | setSourceLine line =>
    by_cases h : line > e.lastSourceLine
    · simp [step, emitSourceLine, Emit.writeInfo, Emit.assert, h, hpass]
    · simp [step, emitSourceLine, h]

theorem foldl_failed_stackSize {all : List Nat} (calls : List Call) : ∀ {done : List Nat} {e : Emit}, e.pass = .stackSize →
    CallsOk sc all done e.suppress e.stackSize calls →
    (calls.foldl (step sc) e).failed = e.failed ∧ (calls.foldl (step sc) e).stackSize = 0 := by
  induction calls with
  | nil =>
    intro done e _ hok
    exact ⟨rfl, hok⟩
  | cons c calls ih =>
    intro done e hpass hok
    obtain ⟨hcall, hstack, hrest⟩ := hok
    have hstep := step_failed_stackSize hpass hcall hstack
    have hstate : (step sc e c).pass = e.pass ∧ (step sc e c).suppress = suppressOf e.suppress c ∧
        (step sc e c).stackSize = e.stackSize + stackAdjOf c := by
      rw [step_eq sc e c]
      exact ⟨rfl, rfl, rfl⟩
    rw [← hstate.2.1, ← hstate.2.2] at hrest
    rw [List.foldl_cons, ← hstep]
    exact ih (hstate.1.trans hpass) hrest

theorem compileScope_failed_stackSize (hwf : WellFormed sc calls) : (compileScope sc calls .stackSize init).failed = false := by
  obtain ⟨hrun, hstack⟩ := foldl_failed_stackSize (e := startPass sc .stackSize init) calls
    (by rw [startPass_eq]) (by rw [startPass_eq]; exact hwf.calls)
  have hstart : (startPass sc .stackSize init).failed = false := startPass_failed fun h => by cases h
  obtain ⟨hpass, _⟩ := body_frame sc calls .stackSize init
  unfold compileScope
  rw [endPass_failed hstack hwf.cells, hrun, hstart]
  intro hemit
  cases hpass.symm.trans hemit

/-- Every jump is as long as it can be in that pass. -/
theorem noneGrows_stackSize (calls : List Call) : ∀ (done : List Nat) (e e' : Emit), e.pass = .stackSize →
    NoneGrows sc done e e' calls := by
  induction calls with
  | nil =>
    intro done e e' _
    trivial
  | cons c calls ih =>
    intro done e e' hpass
    refine ⟨?_, ih _ _ _ (by rw [step_eq sc e c]; exact hpass)⟩
    cases c with
    | jump stackAdj op label =>
      intro _ _ _
      simp [wide, hpass]
    | write stackAdj bytes => trivial
    | suppress => trivial
    | adjustStackSize delta => trivial
    | labelAssign label => trivial
    | setSourceLine line => trivial

end

/-! ## The passes -/

/-- Where the pass `n` after MP_PASS_STACK_SIZE starts from. -/
def before (sc : Scope) (calls : List Call) : Nat → Emit
  | 0 => compileScope sc calls .stackSize init
  | n + 1 => emitted sc calls n

def passAt : Nat → Pass
  | 0 => .codeSize
  | _ + 1 => .emit

/-- The pass when its prelude is written. -/
def started (sc : Scope) (calls : List Call) (n : Nat) : Emit := startPass sc (passAt n) (before sc calls n)

section

variable {sc : Scope} {calls : List Call}

theorem passAt_ne (n : Nat) : passAt n ≠ .stackSize := by
  cases n with
  | zero => decide
  | succ n => intro h; cases h

/-- The pass `n` is made, and no assert fails in it. -/
structure Made (sc : Scope) (calls : List Call) (n : Nat) : Prop where
  eq : emitted sc calls n = compileScope sc calls (passAt n) (before sc calls n)
  failed : (emitted sc calls n).failed = false
  prepared : Prepared sc (passAt n) (before sc calls n) (emitted sc calls n)

theorem emitted_succ {n : Nat} (h : (emitted sc calls n).accepted = false) :
    emitted sc calls (n + 1) = compileScope sc calls .emit (emitted sc calls n) := by
  rw [emitted, h]
  rfl

theorem emitted_stays {n : Nat} (h : (emitted sc calls n).accepted = true) : ∀ k, emitted sc calls (n + k) = emitted sc calls n := by
  intro k
  induction k with
  | zero => rfl
  | succ k ih =>
    rw [← Nat.add_assoc, emitted, ih, h]
    rfl

theorem emitted_zero_not_accepted : (emitted sc calls 0).accepted = false := by
  have h := (compileScope_made sc calls .codeSize (compileScope sc calls .stackSize init)).2.2.2.2
  rw [Bool.eq_false_iff, emitted, ne_eq, h]
  intro hno
  cases hno.1

theorem nInfo_le_of_shrunk {p q : Pass} {b : Emit} {final : Nat → Nat} {done : List Nat}
    (hs : Shrunk final done (body sc calls p b) (body sc calls q (compileScope sc calls p b))) :
    (compileScope sc calls q (compileScope sc calls p b)).nInfo ≤ (compileScope sc calls p b).nInfo := by
  have hinfo := hs.info
  rw [(body_frame sc calls p b).2.1, (body_frame sc calls q _).2.1] at hinfo
  rw [(compileScope_fields sc calls p b).2.1, (compileScope_fields sc calls q _).2.1]
  exact hinfo

theorem made_zero (hwf : WellFormed sc calls) : Made sc calls 0 := by
  obtain ⟨hshrunk, hfailed⟩ := shrunk_pass (p := .stackSize) (q := .codeSize) (b := init) hwf (by decide)
    (noneGrows_stackSize calls _ _ _ (by rw [startPass_eq])) (fun h => by cases h) (compileScope_failed_stackSize hwf)
  exact ⟨rfl, hfailed, by decide, nInfo_le_of_shrunk hshrunk, (compileScope_fields sc calls .stackSize init).2.2.1⟩

/-- A pass against the one after it. -/
theorem Made.next {n : Nat} (hm : Made sc calls n) (hwf : WellFormed sc calls) (haccepted : (emitted sc calls n).accepted = false)
    (hnone : NoneGrows sc [] (started sc calls n) (started sc calls (n + 1)) calls) :
    Made sc calls (n + 1) ∧
    Shrunk (body sc calls (passAt n) (before sc calls n)).labelOffsets (assigned calls)
      (body sc calls (passAt n) (before sc calls n)) (body sc calls .emit (emitted sc calls n)) := by
  obtain ⟨heq, hfailed, hprepared⟩ := hm
  have hsucc := emitted_succ haccepted
  unfold started at hnone
  change NoneGrows sc [] (startPass sc (passAt n) (before sc calls n)) (startPass sc .emit (emitted sc calls n)) calls at hnone
  rw [heq] at hnone hprepared hfailed
  obtain ⟨hshrunk, hfailed'⟩ := shrunk_pass hwf (by decide) hnone (fun _ => hprepared) hfailed
  have hnInfo := nInfo_le_of_shrunk hshrunk
  have hnCell := (compileScope_fields sc calls (passAt n) (before sc calls n)).2.2.1
  rw [← heq] at hshrunk hfailed' hnInfo hnCell
  refine ⟨⟨hsucc, ?_, by exact passAt_ne (n + 1), ?_, hnCell⟩, hshrunk⟩
  · rw [hsucc]
    exact hfailed'
  · rw [hsucc]
    exact hnInfo

theorem Made.sizes {n : Nat} (hm : Made sc calls n) :
    (emitted sc calls n).codeInfoSize = (body sc calls (passAt n) (before sc calls n)).info.length + sc.cells.length ∧
    (emitted sc calls n).bytecodeSize = (body sc calls (passAt n) (before sc calls n)).code.length := by
  rw [hm.eq]
  exact (compileScope_fields sc calls _ _).2.2.2 (passAt_ne n)

theorem Made.accepted_iff {n : Nat} (hm : Made sc calls n) (hm' : Made sc calls (n + 1)) :
    (emitted sc calls (n + 1)).accepted = true ↔
      (body sc calls .emit (emitted sc calls n)).info.length = (body sc calls (passAt n) (before sc calls n)).info.length ∧
      (body sc calls .emit (emitted sc calls n)).code.length = (body sc calls (passAt n) (before sc calls n)).code.length := by
  obtain ⟨hinfo, hcode⟩ := hm.sizes
  have h := (compileScope_made sc calls .emit (emitted sc calls n)).2.2.2.2
  rw [hinfo, hcode, Nat.add_right_cancel_iff] at h
  rw [hm'.eq]
  exact h.trans (and_iff_right rfl)

theorem Made.preludeOf_le {n : Nat} (hm : Made sc calls n) :
    (preludeOf sc .emit (emitted sc calls n)).length ≤ (preludeOf sc (passAt n) (before sc calls n)).length := by
  have hprepared := hm.prepared
  refine length_preludeOf_le hprepared.pass (by decide) hprepared.nInfo ?_
  rw [hprepared.nCell, hm.eq]
  exact (compileScope_fields sc calls _ _).2.2.1

theorem Made.info_le {n : Nat} {final : Nat → Nat} {done : List Nat} (hm : Made sc calls n)
    (hs : Shrunk final done (body sc calls (passAt n) (before sc calls n)) (body sc calls .emit (emitted sc calls n))) :
    (body sc calls .emit (emitted sc calls n)).info.length ≤ (body sc calls (passAt n) (before sc calls n)).info.length := by
  apply hs.length_info_le
  rw [(body_frame sc calls _ _).2.1, (body_frame sc calls _ _).2.1]
  exact hm.preludeOf_le

theorem Made.smaller {n : Nat} (hm : Made sc calls n) (hwf : WellFormed sc calls) (haccepted : (emitted sc calls n).accepted = false)
    (hnone : NoneGrows sc [] (started sc calls n) (started sc calls (n + 1)) calls)
    (haccepted' : (emitted sc calls (n + 1)).accepted = false) :
    (emitted sc calls (n + 1)).codeInfoSize + (emitted sc calls (n + 1)).bytecodeSize <
      (emitted sc calls n).codeInfoSize + (emitted sc calls n).bytecodeSize := by
  obtain ⟨hm', hshrunk⟩ := hm.next hwf haccepted hnone
  have hinfo := hm.info_le hshrunk
  have hcode := hshrunk.code
  have hdiffer := mt (hm.accepted_iff hm').mpr (by rw [haccepted']; decide)
  rw [hm.sizes.1, hm.sizes.2, hm'.sizes.1, hm'.sizes.2]
  change (body sc calls .emit (emitted sc calls n)).info.length + _ + (body sc calls .emit (emitted sc calls n)).code.length < _
  omega

/-- No jump forward grows, as long as there is another pass. -/
def Settles (sc : Scope) (calls : List Call) : Prop := ∀ n, (emitted sc calls n).accepted = false →
  NoneGrows sc [] (started sc calls n) (started sc calls (n + 1)) calls

theorem made_of_pending (hwf : WellFormed sc calls) (hsettles : Settles sc calls) : ∀ n,
    (∀ m < n, (emitted sc calls m).accepted = false) → Made sc calls n := by
  intro n
  induction n with
  | zero =>
    intro _
    exact made_zero hwf
  | succ n ih =>
    intro hpending
    have hlast := hpending n (Nat.lt_succ_self n)
    have hm := ih fun m hm => hpending m (Nat.lt_succ_of_lt hm)
    exact (hm.next hwf hlast (hsettles n hlast)).1

/-- The passes come to an end. -/
theorem exists_accepted (hwf : WellFormed sc calls) (hsettles : Settles sc calls) : ∃ n, (emitted sc calls n).accepted = true := by
  by_contra hno
  have hpending : ∀ n, (emitted sc calls n).accepted = false := by
    intro n
    rw [Bool.eq_false_iff]
    exact fun h => hno ⟨n, h⟩
  have hdrop : ∀ n, (emitted sc calls n).codeInfoSize + (emitted sc calls n).bytecodeSize + n ≤
      (emitted sc calls 0).codeInfoSize + (emitted sc calls 0).bytecodeSize := by
    intro n
    induction n with
    | zero => exact Nat.le_refl _
    | succ n ih =>
      have hm := made_of_pending hwf hsettles n fun m _ => hpending m
      have := hm.smaller hwf (hpending n) (hsettles n (hpending n)) (hpending (n + 1))
      omega
  have := hdrop ((emitted sc calls 0).codeInfoSize + (emitted sc calls 0).bytecodeSize + 1)
  omega

theorem sizes_read (sc : Scope) (e : Emit) (rest : List Nat) :
    sizeDecode (sigDecode (preludeOf sc .emit e ++ rest)).2 = ((e.nInfo, e.nCell), rest) := by
  obtain ⟨b, bytes, hbytes⟩ := List.exists_cons_of_ne_nil (sizeEncode_ne_nil e.nInfo e.nCell)
  unfold preludeOf
  rw [if_pos (by decide), List.append_assoc, hbytes, List.cons_append, sigDecode_sigEncode _ sc.nState_pos]
  dsimp only
  rw [← List.cons_append, ← hbytes, sizeDecode_sizeEncode]

/-- Every jump of an accepted pass lands on its label: with as much code as before, no label has moved. -/
theorem Made.lands {n : Nat} (hm : Made sc calls n) (hm' : Made sc calls (n + 1))
    (hshrunk : Shrunk (body sc calls (passAt n) (before sc calls n)).labelOffsets (assigned calls)
      (body sc calls (passAt n) (before sc calls n)) (body sc calls .emit (emitted sc calls n)))
    (haccepted : (emitted sc calls (n + 1)).accepted = true) (hoverflow : (emitted sc calls (n + 1)).overflow = false) :
    ∀ j ∈ (emitted sc calls (n + 1)).jumps,
      target (emitted sc calls (n + 1)).code j.pos = (emitted sc calls (n + 1)).labelOffsets j.label := by
  obtain ⟨_, hsame⟩ := (hm.accepted_iff hm').mp haccepted
  have hlabels : ∀ l, (body sc calls .emit (emitted sc calls n)).labelOffsets l =
      (body sc calls (passAt n) (before sc calls n)).labelOffsets l := by
    intro l
    by_cases hl : l ∈ assigned calls
    · have := hshrunk.moved l hl
      omega
    · exact hshrunk.pending l hl
  obtain ⟨hcode, hjumps, hoffsets, hover, _⟩ := compileScope_made sc calls .emit (emitted sc calls n)
  have heq : emitted sc calls (n + 1) = compileScope sc calls .emit (emitted sc calls n) := hm'.eq
  rw [heq] at hoverflow ⊢
  rw [hjumps, hcode, hoffsets]
  intro j hj
  rw [hover] at hoverflow
  rcases hshrunk.lands (body_frame sc calls _ _).1 hoverflow j hj with hland | ⟨_, hland⟩
  · rw [hland.target_eq, hlabels]
  · exact hland.target_eq

/-- The sizes in the prelude of an accepted pass are those of its own sections. -/
theorem Made.sections {n : Nat} (hm : Made sc calls n) (hm' : Made sc calls (n + 1))
    (hshrunk : Shrunk (body sc calls (passAt n) (before sc calls n)).labelOffsets (assigned calls)
      (body sc calls (passAt n) (before sc calls n)) (body sc calls .emit (emitted sc calls n)))
    (haccepted : (emitted sc calls (n + 1)).accepted = true) :
    ∃ lines, sizeDecode (sigDecode (emitted sc calls (n + 1)).info).2 = ((lines.length, sc.cells.length), lines ++ sc.cells) := by
  obtain ⟨hsame, _⟩ := (hm.accepted_iff hm').mp haccepted
  obtain ⟨lines, hlines⟩ := body_info sc calls .emit (emitted sc calls n)
  have heq : emitted sc calls (n + 1) = compileScope sc calls .emit (emitted sc calls n) := hm'.eq
  have hnCell : (emitted sc calls n).nCell = sc.cells.length := by
    rw [hm.eq]
    exact (compileScope_fields sc calls _ _).2.2.1
  have hnInfo : (emitted sc calls n).nInfo = lines.length := by
    -- the prelude and the section are both at most as long, and together they are
    have hprelude := hm.preludeOf_le
    have hinfo := hshrunk.info
    have hpast := hshrunk.nInfo
    rw [(body_frame sc calls _ _).2.1] at hpast
    rw [(body_frame sc calls _ _).2.1, (body_frame sc calls _ _).2.1] at hinfo
    have hfound : (emitted sc calls n).nInfo = (body sc calls (passAt n) (before sc calls n)).info.length -
        (preludeOf sc (passAt n) (before sc calls n)).length := by
      rw [hm.eq]
      exact (compileScope_fields sc calls _ _).2.1
    rw [hlines, List.length_append] at hsame hinfo
    omega
  refine ⟨lines, ?_⟩
  rw [heq, (compileScope_fields sc calls .emit (emitted sc calls n)).1, hlines, List.append_assoc, sizes_read, hnInfo, hnCell]

/-- When no jump forward grows, the passes end, no assert fails in any, and the bytecode of the last one is what it should be:
every jump lands on its label, and the sizes in the prelude are those of the sections. -/
theorem emit_passes_land (sc : Scope) (calls : List Call) (hwf : WellFormed sc calls) (hsettles : Settles sc calls) :
    (∀ n, (emitted sc calls n).failed = false) ∧ ∃ n, (emitted sc calls n).accepted = true ∧
      ((emitted sc calls n).overflow = false → ∀ j ∈ (emitted sc calls n).jumps,
        target (emitted sc calls n).code j.pos = (emitted sc calls n).labelOffsets j.label) ∧
      ∃ lines, sizeDecode (sigDecode (emitted sc calls n).info).2 = ((lines.length, sc.cells.length), lines ++ sc.cells) := by
  have hsome := exists_accepted hwf hsettles
  have hlast := Nat.find_spec hsome
  have hpending : ∀ m < Nat.find hsome, (emitted sc calls m).accepted = false := by
    intro m hm
    exact Bool.eq_false_iff.mpr (Nat.find_min hsome hm)
  constructor
  · intro n
    by_cases hn : n ≤ Nat.find hsome
    · exact (made_of_pending hwf hsettles n fun m hm => hpending m (Nat.lt_of_lt_of_le hm hn)).failed
    · have hstays := emitted_stays hlast (n - Nat.find hsome)
      rw [show Nat.find hsome + (n - Nat.find hsome) = n by omega] at hstays
      rw [hstays]
      exact (made_of_pending hwf hsettles _ hpending).failed
  · refine ⟨Nat.find hsome, hlast, ?_⟩
    cases hfirst : Nat.find hsome with
    | zero =>
      rw [hfirst, emitted_zero_not_accepted] at hlast
      cases hlast
    | succ n =>
      rw [hfirst] at hlast hpending
      have hnot := hpending n (Nat.lt_succ_self n)
      have hm := made_of_pending hwf hsettles n fun m hm => hpending m (Nat.lt_succ_of_lt hm)
      obtain ⟨hm', hshrunk⟩ := hm.next hwf hnot (hsettles n hnot)
      exact ⟨hm.lands hm' hshrunk hlast, hm.sections hm' hshrunk hlast⟩

end

/-! ## A loop, and jumps that change places -/

/-- A function of one argument. -/
def oneArg (maxNumLabels : Nat) : Scope where
  sigs _ := ⟨4, 0, 0, 1, 0, 0⟩
  sigs_eq := rfl
  nState_pos := by decide
  name := 1
  params := [2]
  cells := [0]
  maxNumLabels := maxNumLabels

/-- LOAD_FAST and POP_TOP. -/
def load : Call := .write 1 [0xb0]

def pop : Call := .write (-1) [0x59]

/-- POP_JUMP_IF_TRUE. -/
def jumpIfTrue (label : Nat) : Call := .jump (-1) 0x43 label

/-- LOAD_CONST_NONE and RETURN_VALUE, and nothing after it. -/
def returnNone : List Call := [.write 1 [0x51], .write (-1) [0x63], .suppress]

/-- A loop that is left when its test is true. -/
def loop : List Call :=
  [.setSourceLine 2, .labelAssign 0, load, jumpIfTrue 1, .setSourceLine 3, load, pop, .jump 0 0x42 0, .labelAssign 1] ++ returnNone

theorem emit_passes_land_loop :
    (∀ n, (emitted (oneArg 2) loop n).failed = false) ∧ ∃ n, (emitted (oneArg 2) loop n).accepted = true ∧
      ((emitted (oneArg 2) loop n).overflow = false → ∀ j ∈ (emitted (oneArg 2) loop n).jumps,
        target (emitted (oneArg 2) loop n).code j.pos = (emitted (oneArg 2) loop n).labelOffsets j.label) ∧
      ∃ lines, sizeDecode (sigDecode (emitted (oneArg 2) loop n).info).2 =
        ((lines.length, (oneArg 2).cells.length), lines ++ (oneArg 2).cells) := by
  have haccepted : (emitted (oneArg 2) loop 1).accepted = true := by decide
  refine emit_passes_land (oneArg 2) loop ⟨by decide, by decide⟩ ?_
  intro n hn
  cases n with
  | zero => decide
  | succ n =>
    have hstays := emitted_stays haccepted n
    rw [Nat.add_comm, hstays, haccepted] at hn
    cases hn

/-- ROT_TWO, a number of times. -/
def rotTwo (n : Nat) : List Call := List.replicate n (.write 0 [0x5a])

/-- Three jumps get shorter in the first MP_PASS_EMIT, and three get longer. -/
def exchange : List Call :=
  [load, load, .labelAssign 0] ++ rotTwo 2 ++ [.labelAssign 1] ++ rotTwo 4 ++ [load, jumpIfTrue 3] ++ rotTwo 51 ++
  [load, load, jumpIfTrue 0, jumpIfTrue 1, .labelAssign 2, load, jumpIfTrue 5, .labelAssign 3, .labelAssign 4] ++ rotTwo 58 ++
  [load, jumpIfTrue 2, .labelAssign 5, load, jumpIfTrue 4, pop, pop] ++ returnNone

/-- The pass is accepted, as no size has changed; the first jump lands two bytes past its label. -/
theorem grown_jump_misses :
    WellFormed (oneArg 6) exchange ∧ (emitted (oneArg 6) exchange 1).accepted = true ∧
    (emitted (oneArg 6) exchange 1).overflow = false ∧ (emitted (oneArg 6) exchange 1).failed = false ∧
    ¬ ∀ j ∈ (emitted (oneArg 6) exchange 1).jumps,
      target (emitted (oneArg 6) exchange 1).code j.pos = (emitted (oneArg 6) exchange 1).labelOffsets j.label := by
  exact ⟨⟨by decide +kernel, by decide⟩, by decide +kernel⟩

end PythonUltra.Py.EmitBc
