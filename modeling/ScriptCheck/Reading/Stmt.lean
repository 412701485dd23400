import ScriptCheck.Reading.Expr

/-!
# Reading statements

A statement is told by its first token, and each ends with a semicolon. After a
statement that cannot be read, reading resumes behind the next semicolon, or in front
of the next `end` or `def` if that comes first.
-/

namespace ScriptCheck

namespace Reader

/-- `var x : T;` or `var x : T := e;` -/
def declaration : Reader Stmt := do
  let first ← token .varWord
  let name ← ident
  let _ ← token .colon
  let (ty, _) ← type
  let init ← match ← peek with
    | some ⟨.becomes, _⟩ => do
      let _ ← token .becomes
      some <$> (expr nestingLimit).val
    | _ => pure none
  let last ← token .semicolon
  return .declare name ty init (first.merge last)

/-- `return;` or `return e;` -/
def returning : Reader Stmt := do
  let first ← token .returnWord
  let value ← match ← peek with
    | some ⟨.semicolon, _⟩ => pure none
    | _ => some <$> (expr nestingLimit).val
  let last ← token .semicolon
  return .ret value (first.merge last)

/-- `x := e;` or `f(e, ...);` -/
def action : Reader Stmt := do
  let name ← ident
  match ← peek with
  | some ⟨.becomes, _⟩ =>
    let _ ← token .becomes
    let value ← (expr nestingLimit).val
    let last ← token .semicolon
    return .assign name value (name.span.merge last)
  | some ⟨.openParen, _⟩ =>
    let made ← call (expr nestingLimit) name
    let last ← token .semicolon
    return .call made (name.span.merge last)
  | _ => fail (.expected .assignOrCall)

/-- Any statement. -/
def statement : Reader Stmt := do
  match ← peek with
  | some ⟨.varWord, _⟩ => declaration
  | some ⟨.returnWord, _⟩ => returning
  | some ⟨.name _, _⟩ => action
  | _ => fail (.expected .statement)

theorem consumes_statement : statement.Consumes := by
  refine consumes_bind_right fun seen => ?_
  split
  · exact (consumes_token _).bind _
  · exact (consumes_token _).bind _
  · exact consumes_ident.bind _
  · exact consumes_fail _

end Reader

/-- Does a token end a body, so that no statement can begin there? -/
def Token.endsBody (t : Token) : Bool := t == .endWord || t == .defWord

/-- What is left after giving up on a statement. -/
def skipStatement : List Lexeme → List Lexeme
  | [] => []
  | l :: ts =>
    if l.token = .semicolon then ts
    else if l.token.endsBody then l :: ts
    else skipStatement ts

theorem suffix_skipStatement (ts : List Lexeme) : skipStatement ts <:+ ts := by
  fun_induction skipStatement ts with
  | case1 => exact List.suffix_refl _
  | case2 l ts _ => exact List.suffix_cons _ _
  | case3 l ts _ _ => exact List.suffix_refl _
  | case4 l ts _ _ ih => exact ih.trans (List.suffix_cons _ _)

/-- Giving up in front of a token that ends no body takes at least that token. -/
theorem skipStatement_cons_length {l : Lexeme} {ts : List Lexeme}
    (h : l.token.endsBody = false) : (skipStatement (l :: ts)).length ≤ ts.length := by
  rw [skipStatement]
  split
  · exact Nat.le_refl _
  · simpa [h] using (suffix_skipStatement ts).length_le

/-- Wherever a reader is stuck, giving up on the statement leaves fewer tokens than
there were, unless a body ended there from the start. -/
theorem length_skipStatement_lt {l : Lexeme} {ts rest : List Lexeme}
    (h : l.token.endsBody = false) (hs : rest <:+ l :: ts) :
    (skipStatement rest).length < (l :: ts).length := by
  rcases List.suffix_cons_iff.1 hs with rfl | hs
  · exact Nat.lt_succ_of_le (skipStatement_cons_length h)
  · have := (suffix_skipStatement rest).length_le
    have := hs.length_le
    simp only [List.length_cons]
    omega

/-- The statements of a body, the faults among them, and what is left. -/
structure Body where
  stmts : List Stmt
  faults : List Fault
  rest : List Lexeme

/-- Reads statements up to `end`, `def` or the end of the text. -/
def Body.read (eof : Span) : List Lexeme → Body
  | [] => ⟨[], [], []⟩
  | l :: ts =>
    if _hl : l.token.endsBody then ⟨[], [], l :: ts⟩
    else
      match _h : Reader.statement.run (l :: ts) with
      | .done stmt rest =>
        let more := Body.read eof rest
        ⟨stmt :: more.stmts, more.faults, more.rest⟩
      | .stuck why rest =>
        let more := Body.read eof (skipStatement rest)
        ⟨more.stmts, why.toFault eof rest :: more.faults, more.rest⟩
termination_by ts => ts.length
decreasing_by
  · exact Reader.consumes_statement _h
  · exact length_skipStatement_lt (by simpa using _hl) (Reader.suffix_of_stuck _h)

theorem Body.suffix_read (eof : Span) (ts : List Lexeme) : (Body.read eof ts).rest <:+ ts := by
  fun_induction Body.read eof ts with
  | case1 => exact List.suffix_refl _
  | case2 l ts _ => exact List.suffix_refl _
  | case3 l ts _ stmt rest h more ih => exact ih.trans (Reader.suffix_of_done h)
  | case4 l ts _ why rest h more ih =>
    exact (ih.trans (suffix_skipStatement rest)).trans (Reader.suffix_of_stuck h)

end ScriptCheck
