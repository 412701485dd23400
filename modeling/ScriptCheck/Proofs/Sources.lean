import ScriptCheck.Proofs.Reading.Nodes

/-!
# Every span is the source of its node

The slice of a text at the span of an expression, read on its own, is that expression, and
the slice at the span of a procedure is that procedure. An expression is read again as shown
for its tokens. A procedure is followed by a `def` or by the end of the text, and a reader
takes the one like the other.
-/
namespace ScriptCheck

/-! ## Procedures -/

section

variable {eof start : Span} {ls : List Lexeme} {p : Procedure}

theorem Body.spelled_of_mem (hs : Ordered ls) {st : Stmt} (hst : st ∈ (Body.read eof ls).stmts)
    {n : Expr} (hn : n ∈ st.exprNodes) : Spelled ls n := by
  fun_induction Body.read eof ls with
  | case1 => cases hst
  | case2 => cases hst
  | case3 l ls hend first rest hrun more ih =>
    have hrest := Reader.suffix_of_done hrun
    rcases List.mem_cons.1 hst with rfl | hst
    · exact Grammar.spelled_statement hs hrun n hn
    · exact (ih (hs.sublist hrest.sublist) hst).mono hrest.isInfix
  | case4 l ls hend why rest hrun more ih =>
    have hrest := (suffix_skipStatement rest).trans (Reader.suffix_of_stuck hrun)
    exact (ih (hs.sublist hrest.sublist) hst).mono hrest.isInfix

/-- What a procedure that was closed consists of. -/
theorem Attempt.procedure_inv (h : (Attempt.read eof start ls).procedure = some p) :
    ∃ rest last, rest <:+ ls ∧ p.body = (Body.read eof rest).stmts ∧
      ⟨.endWord, last⟩ :: (Attempt.read eof start ls).rest <:+ ls ∧
      p.span = start.merge last := by
  unfold Attempt.read at h ⊢
  cases hhead : Reader.header.run ls with
  | stuck why rest => simp [hhead] at h
  | done head rest =>
    have hrest := Reader.suffix_of_done hhead
    simp only [hhead] at h ⊢
    cases hend : (Reader.token .endWord).run (Body.read eof rest).rest with
    | stuck why after => simp [hend] at h
    | done last after =>
      simp only [hend, Option.some.injEq] at h ⊢
      have hbody := (Body.suffix_read eof rest).trans hrest
      rw [Grammar.token_inv hend] at hbody
      exact ⟨rest, last, hrest, by rw [← h], hbody, by rw [← h]⟩

theorem Attempt.spelled_of_mem (hs : Ordered ls)
    (hp : (Attempt.read eof start ls).procedure = some p) {n : Expr} (hn : n ∈ p.exprNodes) :
    Spelled ls n := by
  obtain ⟨rest, _, hrest, hbody, _⟩ := Attempt.procedure_inv hp
  obtain ⟨st, hst, hn⟩ := List.mem_flatMap.1 hn
  rw [hbody] at hst
  exact (Body.spelled_of_mem (hs.sublist hrest.sublist) hst hn).mono hrest.isInfix

theorem Harvest.spelled_of_mem (hs : Ordered ls) (hp : p ∈ (Harvest.read eof ls).procedures)
    {n : Expr} (hn : n ∈ p.exprNodes) : Spelled ls n := by
  fun_induction Harvest.read eof ls with
  | case1 => cases hp
  | case2 l ls hdef tried first hfirst more ih =>
    have hls := List.suffix_cons l ls
    have hrest := (Attempt.suffix_read eof l.span ls).trans hls
    rcases List.mem_cons.1 hp with rfl | hp
    · exact (Attempt.spelled_of_mem (hs.sublist hls.sublist) hfirst hn).mono hls.isInfix
    · exact (ih (hs.sublist hrest.sublist) hp).mono hrest.isInfix
  | case3 l ls hdef tried hnone more ih =>
    have hrest := (suffix_skipProcedure tried.rest).trans
      ((Attempt.suffix_read eof l.span ls).trans (List.suffix_cons l ls))
    exact (ih (hs.sublist hrest.sublist) hp).mono hrest.isInfix
  | case4 l ls hdef more ih =>
    have hrest := (suffix_skipProcedure ls).trans (List.suffix_cons l ls)
    exact (ih (hs.sublist hrest.sublist) hp).mono hrest.isInfix

/-- The tokens, read on their own, are the procedure, and its span covers them. -/
structure Forms (eof : Span) (part : List Lexeme) (p : Procedure) : Prop where
  read : Harvest.read eof part = ⟨[p], []⟩
  covers : Covers part p.span

/-- What leaves all of the tail in front of it has taken all before it. -/
theorem Attempt.eq_of_carry_before {a : Attempt} {tail : List Lexeme}
    {htail : ∀ l ∈ tail.head?, l.token = .defWord} {eof' : Span}
    (hp : (a.carry (.before tail htail) eof eof').procedure = some p)
    (hfaults : (a.carry (.before tail htail) eof eof').faults = [])
    (hrest : (a.carry (.before tail htail) eof eof').rest = tail) : a = ⟨some p, [], []⟩ := by
  obtain ⟨procedure, faults, rest⟩ := a
  have hprocedure : procedure.map (Procedure.move .stay) = some p := hp
  rw [funext Procedure.move_stay, Option.map_id'] at hprocedure
  have hrest : rest ++ tail = tail := (Setting.carry_before tail rest htail).symm.trans hrest
  have hfaults : faults = [] := List.map_eq_nil_iff.1 hfaults
  rw [hprocedure, hfaults, List.append_left_eq_self.1 hrest]

/-- A procedure without faults that the next `def` or the end follows is read from its own
tokens alone. -/
theorem Attempt.forms (hs : Ordered (⟨.defWord, start⟩ :: ls)) (hb : Bounded eof ls)
    (hp : (Attempt.read eof start ls).procedure = some p)
    (hfaults : (Attempt.read eof start ls).faults = [])
    (hnext : ∀ l ∈ (Attempt.read eof start ls).rest.head?, l.token = .defWord) :
    ∃ mid, ls = mid ++ (Attempt.read eof start ls).rest ∧
      Forms eof (⟨.defWord, start⟩ :: mid) p := by
  obtain ⟨_, last, _, _, ⟨front, hend⟩, hspan⟩ := Attempt.procedure_inv hp
  generalize hrest : (Attempt.read eof start ls).rest = rest at hnext hend
  have hls : ls = (front ++ [⟨.endWord, last⟩]) ++ rest := by
    rw [← hend]
    simp
  have hmid : Bounded eof (front ++ [⟨.endWord, last⟩]) := by
    intro l hl
    exact hb l (by rw [hls]; exact List.mem_append_left rest hl)
  have hcarry := Attempt.read_carry (.before rest hnext) eof start _ hmid
  rw [Setting.carry_before, ← hls] at hcarry
  change Attempt.read eof start ls = _ at hcarry
  have hattempt : Attempt.read eof start (front ++ [⟨.endWord, last⟩]) = ⟨some p, [], []⟩ := by
    rw [hcarry] at hp hfaults hrest
    exact Attempt.eq_of_carry_before hp hfaults hrest
  refine ⟨front ++ [⟨.endWord, last⟩], hls, ?_, ?_⟩
  · rw [Harvest.read, if_pos rfl, hattempt]
    simp [Harvest.read]
  · rw [hspan]
    apply (covers_singleton ⟨.endWord, last⟩).after
    rw [hls, ← List.cons_append] at hs
    exact hs.sublist (List.sublist_append_left _ rest)

/-- Where nothing is wrong, the next token is a `def`. -/
theorem Harvest.head_of_clean (h : (Harvest.read eof ls).faults = []) :
    ∀ l ∈ ls.head?, l.token = .defWord := by
  cases ls with
  | nil => simp
  | cons l ls =>
    by_cases hl : l.token = .defWord
    · simpa using hl
    · rw [Harvest.read, if_neg hl] at h
      cases h

theorem Harvest.forms_of_mem (hs : Ordered ls) (hb : Bounded eof ls)
    (h : (Harvest.read eof ls).faults = []) (hp : p ∈ (Harvest.read eof ls).procedures) :
    ∃ part, part <:+: ls ∧ Forms eof part p := by
  fun_induction Harvest.read eof ls with
  | case1 => cases hp
  | case2 l ls hdef tried first hfirst more ih =>
    obtain ⟨htried, hmore⟩ := List.append_eq_nil_iff.1 h
    have hls := List.suffix_cons l ls
    have hrest := (Attempt.suffix_read eof l.span ls).trans hls
    rcases List.mem_cons.1 hp with rfl | hp
    · have hl : l = ⟨.defWord, l.span⟩ := by rw [← hdef]
      rw [hl] at hs
      obtain ⟨mid, hmid, hforms⟩ := Attempt.forms hs (hb.suffix hls) hfirst htried
        (Harvest.head_of_clean hmore)
      refine ⟨_, ?_, hforms⟩
      rw [← hl]
      exact ⟨[], tried.rest, by rw [List.nil_append, List.cons_append, ← hmid]⟩
    · obtain ⟨part, hpart, hforms⟩ := ih (hs.sublist hrest.sublist) (hb.suffix hrest) hmore hp
      exact ⟨part, hpart.trans hrest.isInfix, hforms⟩
  | case3 l ls hdef tried hnone more ih =>
    obtain ⟨_, hmore⟩ := List.append_eq_nil_iff.1 h
    have hrest := (suffix_skipProcedure tried.rest).trans
      ((Attempt.suffix_read eof l.span ls).trans (List.suffix_cons l ls))
    obtain ⟨part, hpart, hforms⟩ := ih (hs.sublist hrest.sublist) (hb.suffix hrest) hmore hp
    exact ⟨part, hpart.trans hrest.isInfix, hforms⟩
  | case4 => cases h

end

/-! ## Slices -/

/-- The expression that a text is from its first to its last token. -/
def Expr.read? (text : String) : Option Expr :=
  match Piece.strayFaults (Piece.scan text),
      (Reader.expr nestingLimit).val.run (Piece.lexemes (Piece.scan text)) with
  | [], .done e [] => some e
  | _, _ => none

theorem Expr.read?_of_tokens {text : String} {ls : List Lexeme} {e : Expr}
    (h : Piece.scan text = ls.map .token)
    (hrun : (Reader.expr nestingLimit).val.run ls = .done e []) : read? text = some e := by
  have hstrays : Piece.strayFaults (Piece.scan text) = [] :=
    Piece.strayFaults_eq_nil_iff.2 (by rw [h, Piece.lexemes_map_token])
  unfold read?
  rw [hstrays, h, Piece.lexemes_map_token, hrun]

section

variable {text : String} {ls : List Lexeme}

/-- The slice at the span of a spelled expression is the expression. -/
theorem Spelled.slice (h : Piece.scan text = ls.map .token) {e : Expr} (he : Spelled ls e) :
    ∃ slice e', Text.slice? text e.span = some slice ∧ Expr.read? slice = some e' ∧
      e'.move (.shift e.span.start) = e := by
  obtain ⟨part, ⟨before, after, rfl⟩, hread, hcovers⟩ := he
  rw [List.append_assoc] at h
  obtain ⟨slice, ls', hslice, hscan, hmoved⟩ := Piece.scan_slice h hcovers
  have hfollow := Reader.follows_expr (σ := .moved (.shift e.span.start)) nestingLimit ls'
  rw [Setting.carry_moved, hmoved, hread] at hfollow
  cases hrun : (Reader.expr nestingLimit).val.run ls' with
  | stuck why rest =>
    rw [hrun] at hfollow
    cases hfollow
  | done e' rest =>
    rw [hrun, Outcome.carry, Setting.carry_moved] at hfollow
    injection hfollow with he hrest
    obtain rfl := List.map_eq_nil_iff.1 hrest.symm
    exact ⟨slice, e', hslice, Expr.read?_of_tokens hscan hrun, he.symm⟩

/-- The slice at the span of a procedure is the procedure. -/
theorem Forms.slice {eof : Span} (h : Piece.scan text = ls.map .token) {p : Procedure}
    {part : List Lexeme} (hpart : part <:+: ls) (hp : Forms eof part p) :
    ∃ slice p', Text.slice? text p.span = some slice ∧ Script.read slice = .ok ⟨[p']⟩ ∧
      p'.move (.shift p.span.start) = p := by
  obtain ⟨before, after, rfl⟩ := hpart
  rw [List.append_assoc] at h
  obtain ⟨slice, ls', hslice, hscan, hmoved⟩ := Piece.scan_slice h hp.covers
  have hbounded := bounded_lexemes slice
  rw [hscan, Piece.lexemes_map_token] at hbounded
  have hcarry := Harvest.read_carry (.moved (.shift p.span.start)) eof ls' hbounded
  rw [Setting.carry_moved, hmoved, hp.read, Harvest.carry_moved] at hcarry
  injection hcarry with hprocedures hfaults
  obtain ⟨p', hp', hmove⟩ := List.map_eq_singleton_iff.1 hprocedures.symm
  refine ⟨slice, p', hslice, Script.read_eq_ok_iff_tokens.2 ⟨ls', hscan, ?_, ?_⟩, hmove⟩
  · exact List.map_eq_nil_iff.1 hfaults.symm
  · rw [hp']

end

/-- Every span is exactly the source of its node: the slice of a script at the span of an
expression, read on its own, is that expression, and the slice at the span of a procedure is
a script of that procedure alone, both as many bytes earlier as the slice begins. -/
theorem Script.slice_of_read (text : String) (s : Script) (h : read text = .ok s) :
    (∀ e ∈ s.exprNodes, ∃ slice e', Text.slice? text e.span = some slice ∧
        Expr.read? slice = some e' ∧ e'.move (.shift e.span.start) = e) ∧
      ∀ p ∈ s.procedures, ∃ slice p', Text.slice? text p.span = some slice ∧
        read slice = .ok ⟨[p']⟩ ∧ p'.move (.shift p.span.start) = p := by
  obtain ⟨ls, hscan, hfaults, rfl⟩ := read_eq_ok_iff_tokens.1 h
  have hs := ordered_lexemes text
  have hb := bounded_lexemes text
  rw [hscan, Piece.lexemes_map_token] at hs hb
  constructor
  · intro e he
    obtain ⟨p, hp, he⟩ := List.mem_flatMap.1 he
    exact (Harvest.spelled_of_mem hs hp he).slice hscan
  · intro p hp
    obtain ⟨part, hpart, hforms⟩ := Harvest.forms_of_mem hs hb hfaults hp
    exact hforms.slice hscan hpart

/-- The difference spans its parentheses, and so does the slice that it is read from again. -/
theorem Script.slice_of_read_difference :
    let text := "def f() : Int32 is return (1 - f()) * 2; end"
    ∃ s, read text = .ok s ∧
      s.exprNodes.map (·.span) = [⟨26, 39⟩, ⟨26, 35⟩, ⟨27, 28⟩, ⟨31, 34⟩, ⟨38, 39⟩] ∧
      ∃ e ∈ s.exprNodes, e.span = ⟨26, 35⟩ ∧
        ∃ e', Expr.read? "(1 - f())" = some e' ∧ e'.move (.shift 26) = e := by
  intro text
  have hclean : (harvest text).faults = [] := by decide +kernel
  have hread : read text = .ok ⟨(harvest text).procedures⟩ :=
    read_eq_ok_iff_harvest.2 ⟨hclean, rfl⟩
  have hspans : (Script.mk (harvest text).procedures).exprNodes.map (·.span) =
      [⟨26, 39⟩, ⟨26, 35⟩, ⟨27, 28⟩, ⟨31, 34⟩, ⟨38, 39⟩] := by decide +kernel
  obtain ⟨e, he, hspan⟩ : ∃ e ∈ (Script.mk (harvest text).procedures).exprNodes,
      e.span = ⟨26, 35⟩ := List.mem_map.1 (by rw [hspans]; simp)
  have hslice : Text.slice? text ⟨26, 35⟩ = some "(1 - f())" := by decide +kernel
  obtain ⟨slice, e', hslice', he', hmove⟩ := (slice_of_read text _ hread).1 e he
  rw [hspan, hslice] at hslice'
  cases hslice'
  rw [hspan] at hmove
  exact ⟨_, hread, hspans, e, he, hspan, e', he', hmove⟩

end ScriptCheck
