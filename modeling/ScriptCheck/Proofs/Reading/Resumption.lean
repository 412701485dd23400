import ScriptCheck.Proofs.Reading.Carried
import ScriptCheck.Proofs.Reading.Located

/-!
# Bodies, procedures and scripts that stand elsewhere

The loops that go on after a fault treat moved tokens like the tokens themselves, and
a `def` behind them like the end of the text. A fault moves with its token; one that was
raised at the end of the text is raised at the `def` instead.
-/
namespace ScriptCheck

/-- The cause when `found` stands where the text ended before. -/
def Cause.meet (found : Option Token) : Cause → Cause
  | .unexpected wanted none => .unexpected wanted found
  | cause => cause

/-- Where the text still ends, the cause is the same. -/
@[simp] theorem Cause.meet_none (cause : Cause) : cause.meet none = cause := by
  cases cause with
  | unexpected wanted found => cases found <;> rfl
  | stray c => rfl
  | tooDeep => rfl
  | outOfRange literal => rfl

/-- A fault of a text that ended at `eof`, in new surroundings that end at `eof'`. -/
def Fault.carry (σ : Setting) (eof eof' : Span) (f : Fault) : Fault :=
  if f.span = eof then
    ⟨f.cause.meet (σ.tail.head?.map (·.token)), Complaint.place eof' σ.tail⟩
  else
    ⟨f.cause, σ.move f.span⟩

/-- Every token begins before the end of the text. -/
def Bounded (eof : Span) (ls : List Lexeme) : Prop := ∀ l ∈ ls, l.span.start < eof.start

theorem Bounded.suffix {eof : Span} {ls rest : List Lexeme} (h : Bounded eof ls)
    (hs : rest <:+ ls) : Bounded eof rest := fun l hl => h l (hs.subset hl)

section

variable {σ : Setting} {eof eof' : Span}

theorem Fault.carry_of_start_lt {f : Fault} (h : f.span.start < eof.start) :
    f.carry σ eof eof' = ⟨f.cause, σ.move f.span⟩ := by
  rw [Fault.carry, if_neg]
  intro he
  rw [he] at h
  exact Nat.lt_irrefl _ h

/-- A complaint in the new surroundings is the fault of the old ones, carried over. -/
theorem Complaint.toFault_carry (σ : Setting) (eof' : Span) {ls rest : List Lexeme}
    {why : Complaint} (hb : Bounded eof rest) (hloc : why.Located ls rest) :
    (why.move σ.move).toFault eof' (σ.carry rest) = (why.toFault eof rest).carry σ eof eof' := by
  cases rest with
  | nil =>
    cases why with
    | expected wanted => simp [toFault, Fault.carry, place, Cause.meet, Complaint.move]
    | tooDeep => simp [toFault, Fault.carry, place, Cause.meet, Complaint.move]
    | outOfRange sign digits =>
      obtain ⟨⟨s, after, h⟩, _⟩ := hloc
      cases h
  | cons l rest =>
    have hl : l.span.start < eof.start := hb l List.mem_cons_self
    cases why with
    | expected wanted => rw [Fault.carry_of_start_lt hl]; rfl
    | tooDeep => rw [Fault.carry_of_start_lt hl]; rfl
    | outOfRange sign digits =>
      cases sign with
      | none => rw [Fault.carry_of_start_lt hl]; rfl
      | some s =>
        -- The span of a signed number begins no later than the number itself.
        have hs : (s.merge l.span).start < eof.start := by rw [Span.merge_start]; omega
        rw [toFault, Fault.carry_of_start_lt hs, σ.move.apply_merge]
        rfl

end

/-! ## Bodies -/

section

variable {eof : Span} {l : Lexeme} {ls rest : List Lexeme} {stmt : Stmt} {why : Complaint}

theorem Body.read_end (h : l.token.endsBody = true) :
    Body.read eof (l :: ls) = ⟨[], [], l :: ls⟩ := by
  rw [Body.read]
  simp [h]

theorem Body.read_done (h : l.token.endsBody = false)
    (hrun : Reader.statement.run (l :: ls) = .done stmt rest) :
    Body.read eof (l :: ls) =
      ⟨stmt :: (Body.read eof rest).stmts, (Body.read eof rest).faults,
        (Body.read eof rest).rest⟩ := by
  rw [Body.read]
  simp only [h, Bool.false_eq_true, ↓reduceDIte]
  split <;> simp_all

theorem Body.read_stuck (h : l.token.endsBody = false)
    (hrun : Reader.statement.run (l :: ls) = .stuck why rest) :
    Body.read eof (l :: ls) =
      ⟨(Body.read eof (skipStatement rest)).stmts,
        why.toFault eof rest :: (Body.read eof (skipStatement rest)).faults,
        (Body.read eof (skipStatement rest)).rest⟩ := by
  rw [Body.read]
  simp only [h, Bool.false_eq_true, ↓reduceDIte]
  split <;> simp_all

end

variable {σ : Setting} {eof eof' : Span}

theorem skipStatement_carry (ls : List Lexeme) :
    skipStatement (σ.carry ls) = σ.carry (skipStatement ls) := by
  fun_induction skipStatement ls with
  | case1 =>
    rw [Setting.carry_nil]
    cases htail : σ.tail with
    | nil => rfl
    | cons l ds =>
      have hl : l.token = .defWord := σ.closed l (by rw [htail]; rfl)
      simp [skipStatement, hl, Token.endsBody]
  | case2 l ls h => simp [skipStatement, Lexeme.move, h]
  | case3 l ls h hend => simp [skipStatement, Lexeme.move, h, hend]
  | case4 l ls h hend ih => simpa [skipStatement, Lexeme.move, h, hend] using ih

def Body.carry (σ : Setting) (eof eof' : Span) (b : Body) : Body :=
  ⟨b.stmts.map (Stmt.move σ.move), b.faults.map (Fault.carry σ eof eof'), σ.carry b.rest⟩

theorem Body.read_tail : Body.read eof σ.tail = ⟨[], [], σ.tail⟩ := by
  cases htail : σ.tail with
  | nil => rw [Body.read]
  | cons l ds =>
    have hl : l.token = .defWord := σ.closed l (by rw [htail]; rfl)
    exact Body.read_end (by rw [hl]; rfl)

theorem Body.read_carry (σ : Setting) (eof' : Span) (ls : List Lexeme) (hb : Bounded eof ls) :
    Body.read eof' (σ.carry ls) = (Body.read eof ls).carry σ eof eof' := by
  fun_induction Body.read eof ls with
  | case1 => exact Body.read_tail
  | case2 l ls hend => exact Body.read_end (l := l.move σ.move) hend
  | case3 l ls hend stmt rest hrun more ih =>
    have hs := Reader.follows_statement (σ := σ) (l :: ls)
    rw [hrun, Setting.carry_cons] at hs
    have hmore := ih (hb.suffix (Reader.suffix_of_done hrun))
    rw [Setting.carry_cons, Body.read_done (by simpa using hend) hs, hmore]
    rfl
  | case4 l ls hend why rest hrun more ih =>
    have hs := Reader.follows_statement (σ := σ) (l :: ls)
    rw [hrun, Setting.carry_cons] at hs
    have hrest := hb.suffix (Reader.suffix_of_stuck hrun)
    have hmore := ih (hrest.suffix (suffix_skipStatement rest))
    rw [Setting.carry_cons, Body.read_stuck (by simpa using hend) hs, skipStatement_carry,
      hmore, Complaint.toFault_carry σ eof' hrest (Reader.locates_statement hrun)]
    rfl

/-! ## Procedures and scripts -/

def Attempt.carry (σ : Setting) (eof eof' : Span) (a : Attempt) : Attempt :=
  ⟨a.procedure.map (Procedure.move σ.move), a.faults.map (Fault.carry σ eof eof'),
    σ.carry a.rest⟩

theorem Attempt.read_carry (σ : Setting) (eof' start : Span) (ls : List Lexeme)
    (hb : Bounded eof ls) :
    Attempt.read eof' (σ.move start) (σ.carry ls) =
      (Attempt.read eof start ls).carry σ eof eof' := by
  have hh := Reader.follows_header (σ := σ) ls
  unfold Attempt.read
  cases hrun : Reader.header.run ls with
  | stuck why rest =>
    rw [hrun] at hh
    have hf := Complaint.toFault_carry σ eof'
      (hb.suffix (Reader.suffix_of_stuck hrun)) (Reader.locates_header hrun)
    rw [hh]
    simp only [Outcome.carry, Attempt.carry, hf, Option.map_none, List.map_cons, List.map_nil]
  | done head rest =>
    rw [hrun] at hh
    have hrest := hb.suffix (Reader.suffix_of_done hrun)
    have hbody := Body.read_carry σ eof' rest hrest
    have hclose := Reader.follows_token (σ := σ) (t := .endWord) (by decide)
      (Body.read eof rest).rest
    rw [hh]
    simp only [Outcome.carry, hbody, Body.carry, hclose]
    cases hend : (Reader.token .endWord).run (Body.read eof rest).rest with
    | stuck why rest' =>
      have hf := Complaint.toFault_carry σ eof'
        ((hrest.suffix (Body.suffix_read eof rest)).suffix (Reader.suffix_of_stuck hend))
        (Reader.locates_token _ hend)
      simp only [Attempt.carry, hf, Option.map_none, List.map_append, List.map_cons, List.map_nil]
    | done last rest' =>
      simp only [Attempt.carry, Option.map_some, Procedure.move, Header.move,
        σ.move.apply_merge]

theorem skipProcedure_carry (ls : List Lexeme) :
    skipProcedure (σ.carry ls) = σ.carry (skipProcedure ls) := by
  unfold skipProcedure
  induction ls with
  | nil =>
    rw [Setting.carry_nil]
    cases htail : σ.tail with
    | nil => simpa using htail.symm
    | cons l ds =>
      have hl : l.token = .defWord := σ.closed l (by rw [htail]; rfl)
      simp [hl, htail]
  | cons l ls ih =>
    by_cases hl : l.token = .defWord
    · simp [Lexeme.move, hl]
    · simpa [Lexeme.move, hl] using ih

/-- What is read in the new surroundings: the carried harvest, then that of the tail. -/
def Harvest.carry (σ : Setting) (eof eof' : Span) (h : Harvest) : Harvest :=
  let more := Harvest.read eof' σ.tail
  ⟨h.procedures.map (Procedure.move σ.move) ++ more.procedures,
    h.faults.map (Fault.carry σ eof eof') ++ more.faults⟩

theorem Harvest.carry_moved (m : Move) (h : Harvest) :
    h.carry (.moved m) eof eof' =
      ⟨h.procedures.map (Procedure.move m), h.faults.map (Fault.carry (.moved m) eof eof')⟩ := by
  simp [Harvest.carry, Setting.moved, Harvest.read]

theorem Harvest.read_carry (σ : Setting) (eof' : Span) (ls : List Lexeme) (hb : Bounded eof ls) :
    Harvest.read eof' (σ.carry ls) = (Harvest.read eof ls).carry σ eof eof' := by
  fun_induction Harvest.read eof ls with
  | case1 => rfl
  | case2 l ls hdef tried p hp more ih =>
    have hls := hb.suffix (List.suffix_cons l ls)
    have htried := Attempt.read_carry σ eof' l.span ls hls
    have hmore := ih (hls.suffix (Attempt.suffix_read eof l.span ls))
    rw [Setting.carry_cons, Harvest.read, Lexeme.token_move, if_pos hdef, Lexeme.span_move, htried]
    simp only [Attempt.carry, tried, hp, Option.map_some, hmore]
    simp only [Harvest.carry, List.map_cons, List.cons_append, List.map_append, List.append_assoc]
    rfl
  | case3 l ls hdef tried hp more ih =>
    have hls := hb.suffix (List.suffix_cons l ls)
    have htried := Attempt.read_carry σ eof' l.span ls hls
    have hmore := ih ((hls.suffix (Attempt.suffix_read eof l.span ls)).suffix
      (suffix_skipProcedure _))
    rw [Setting.carry_cons, Harvest.read, Lexeme.token_move, if_pos hdef, Lexeme.span_move, htried]
    simp only [Attempt.carry, tried, hp, Option.map_none, skipProcedure_carry, hmore]
    simp only [Harvest.carry, List.map_append, List.append_assoc]
    rfl
  | case4 l ls hdef more ih =>
    have hls := hb.suffix (List.suffix_cons l ls)
    have hmore := ih (hls.suffix (suffix_skipProcedure ls))
    have hplace : (Complaint.expected (.token .defWord)).Located (l :: ls) (l :: ls) := trivial
    have hf := Complaint.toFault_carry σ eof' hb hplace
    rw [Setting.carry_cons, Harvest.read, Lexeme.token_move, if_neg hdef, skipProcedure_carry,
      hmore]
    simp only [Harvest.carry, List.map_cons, List.cons_append, ← hf]
    rfl

end ScriptCheck
