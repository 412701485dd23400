import ScriptCheck.Reading.Script

/-!
# A parser with a state

Readers are functions of the tokens that are left, and a budget says how deep they may go. The
parser below does the same work with a state that it changes: the token at hand and the pieces
behind it, a counter of nested expressions, and a list of faults. It asks for pieces one token
ahead, and a character that begins no token is recorded on the way there. Its routines call each
other, its loops go round until they are left, and nothing in their text says that this ends. Each
call therefore costs one unit of fuel, and an action without fuel has no ending.

What is done to the state is kept in a log, with the state it is done in.
-/
namespace ScriptCheck.Parser

/-- What a parser holds while it works. -/
structure State where
  /-- Where the text ends. -/
  eof : Span
  /-- The token at hand; at the end of the text there is none. -/
  current : Option Lexeme
  /-- The pieces that have not been asked for yet. -/
  ahead : List Piece
  /-- How many expressions are open, one inside the other. -/
  depth : Nat
  /-- The faults recorded so far. -/
  faults : List Fault
deriving DecidableEq

namespace State

/-- The token at hand and those behind it. -/
def rest (s : State) : List Lexeme :=
  match s.current with
  | none => []
  | some l => l :: Piece.lexemes s.ahead

/-- Goes on to the next token among some pieces. Characters that begin none are recorded. -/
def pull (s : State) : List Piece → State
  | [] => { s with current := none, ahead := [] }
  | .token l :: ps => { s with current := some l, ahead := ps }
  | .stray c span :: ps => pull { s with faults := s.faults ++ [⟨.stray c, span⟩] } ps

/-- The state in which a parser begins with a text: the first token has been asked for. -/
def initial (text : String) : State :=
  pull ⟨.point (Text.byteLength text.toList), none, [], 0, []⟩ (Piece.scan text)

end State

/-- What is done to a state: a token is taken, an expression is entered or left, a procedure or a
statement begins, a complaint is recorded. -/
inductive Act where
  | take
  | enter
  | leave
  | procedure
  | statement
  | record (why : Complaint)
deriving DecidableEq

/-- Does a procedure or a statement begin? -/
def Act.isStart (a : Act) : Bool := a == .procedure || a == .statement

/-- The state behind an act. To take a token is to go on to the next one. -/
def Act.change : Act → State → State
  | .take, s => s.pull s.ahead
  | .enter, s => { s with depth := s.depth + 1 }
  | .leave, s => { s with depth := s.depth - 1 }
  | .procedure, s | .statement, s => s
  | .record why, s => { s with faults := s.faults ++ [why.toFault s.eof s.rest] }

/-- An act, and the state right before it. -/
structure Moment where
  act : Act
  state : State
deriving DecidableEq

/-- How an action ends. -/
structure Ending (α : Type) where
  answer : Except Complaint α
  state : State
  log : List Moment

/-- What is done from a state. Without fuel it comes to no end. -/
structure Action (α : Type) where
  exec : State → Option (Ending α)

namespace Action

variable {α β : Type}

instance : Monad Action where
  pure a := ⟨fun s => some ⟨.ok a, s, []⟩⟩
  bind m f := ⟨fun s =>
    match m.exec s with
    | none => none
    | some ⟨.error why, s', log⟩ => some ⟨.error why, s', log⟩
    | some ⟨.ok a, s', log⟩ => ((f a).exec s').map fun e => ⟨e.answer, e.state, log ++ e.log⟩⟩

/-- Has no ending. -/
def starve : Action α := ⟨fun _ => none⟩

/-- Gives up, with a complaint about the token at hand. -/
def fail (why : Complaint) : Action α := ⟨fun s => some ⟨.error why, s, []⟩⟩

/-- Does something and goes on with its answer, good or bad. -/
def attempt (m : Action α) : Action (Except Complaint α) :=
  ⟨fun s => (m.exec s).map fun e => ⟨.ok e.answer, e.state, e.log⟩⟩

/-- The token at hand. -/
def peek : Action (Option Lexeme) := ⟨fun s => some ⟨.ok s.current, s, []⟩⟩

/-- The place of the token at hand. -/
def place : Action Span := ⟨fun s => some ⟨.ok (Complaint.place s.eof s.rest), s, []⟩⟩

def depth : Action Nat := ⟨fun s => some ⟨.ok s.depth, s, []⟩⟩

/-- Does an act and notes it. Nothing else changes the state. -/
def perform (act : Act) : Action Unit := ⟨fun s => some ⟨.ok (), act.change s, [⟨act, s⟩]⟩⟩

/-- Takes the token at hand, whatever it is, and gives its place. -/
def advance : Action Span := do
  let span ← place
  perform .take
  return span

/-- One level deeper, and back again whatever comes of it. -/
def nested (m : Action α) : Action α := do
  perform .enter
  let answer ← attempt m
  perform .leave
  match answer with
  | .ok a => return a
  | .error why => fail why

/-- Is this the token at hand? -/
def check (t : Token) : Action Bool := do
  return (← peek).map (·.token) == some t

/-- Takes the token at hand if it is this one. -/
def matchToken (t : Token) : Action Bool := do
  if ← check t then
    let _ ← advance
    return true
  else
    return false

/-- Takes the token at hand, which must be this one. -/
def expect (t : Token) : Action Span := do
  if ← check t then advance else fail (.expected (.token t))

/-- Takes the token at hand, which must be a name. -/
def expectIdent : Action Ident := do
  match ← peek with
  | some ⟨.name spelling, _⟩ =>
    let span ← advance
    return ⟨spelling, span⟩
  | _ => fail (.expected .identifier)

/-- Does something between parentheses, and gives the place of the closing one with it. -/
def parenthesized (m : Action α) : Action (α × Span) := do
  let _ ← expect .openParen
  let value ← m
  let close ← expect .closeParen
  return (value, close)

/-- One more item of a list, which goes on if a comma follows. -/
def nextItem (item : Action α) (items : List α) : Action (ForInStep (List α)) := do
  let a ← item
  if ← matchToken .comma then return .yield (items ++ [a]) else return .done (items ++ [a])

/-- Leaves a loop or goes on with it. -/
def proceed (again : α → Action α) : ForInStep α → Action α
  | .done result => pure result
  | .yield carried => again carried

/-- Takes the number at hand, whose sign has been taken already. -/
def literal (sign : Option Span) (digits : String) : Action Expr :=
  if fitsInt32 (Reader.signedValue sign digits) then do
    let span ← advance
    return .int (Reader.signedValue sign digits) (Reader.signedSpan sign span)
  else
    fail (.outOfRange sign digits)

end Action

open Parser.Action

/-! ## Routines -/

/-- The loops of the parser, each with what it carries from round to round. -/
inductive Loop : Type → Type where
  | procedures : Loop (List Procedure)
  | statements : Loop (List Stmt)
  | parameters : Loop (List Param)
  | arguments : Loop (List Expr)
  | operators (tier : Tier) (tighter : List Tier) : Loop Expr
  | toProcedure : Loop Unit
  | toStatement : Loop Unit

/-- The routines of the parser, each with what it gives. An expression is the level of all tiers
of operators. -/
inductive Routine : Type → Type 1 where
  | script : Routine (List Procedure)
  | procedure : Routine Procedure
  | parameterList : Routine (List Param)
  | type : Routine (Ty × Span)
  | statement : Routine Stmt
  | declaration : Routine Stmt
  | returning : Routine Stmt
  | action : Routine Stmt
  | call (callee : Ident) : Routine Call
  | argumentList : Routine (List Expr)
  | level (tiers : List Tier) : Routine Expr
  | unary : Routine Expr
  | operand : Routine Expr
  | primary : Routine Expr
  | skipProcedure : Routine Unit
  | skipStatement : Routine Unit
  | loop {β : Type} (l : Loop β) (carried : β) : Routine β

section

variable (self : {β : Type} → Routine β → Action β)

/-- `x : T` -/
def parameter : Action Param := do
  let name ← expectIdent
  let _ ← expect .colon
  let (ty, span) ← self .type
  return ⟨name.name, ty, name.span.merge span⟩

/-- One round of a loop, which leaves it or goes on. Routines are called through `self`. -/
def round : {β : Type} → Loop β → β → Action (ForInStep β)
  | _, .procedures, done => do
    match ← peek with
    | none => return .done done
    | some l =>
      if l.token = .defWord then
        match ← attempt (self .procedure) with
        | .ok p => return .yield (done ++ [p])
        | .error why =>
          perform (.record why)
          self .skipProcedure
          return .yield done
      else
        perform (.record (.expected (.token .defWord)))
        let _ ← advance
        self .skipProcedure
        return .yield done
  | _, .statements, body => do
    match ← peek with
    | none => return .done body
    | some l =>
      if l.token.endsBody then
        return .done body
      else
        match ← attempt (self .statement) with
        | .ok stmt => return .yield (body ++ [stmt])
        | .error why =>
          perform (.record why)
          self .skipStatement
          return .yield body
  | _, .parameters, params => nextItem (parameter self) params
  | _, .arguments, args => nextItem (self (.level Tier.all)) args
  | _, .operators tier tighter, left => do
    match (← peek).bind fun l => tier.ofToken? l.token with
    | none => return .done left
    | some op =>
      let _ ← advance
      let right ← self (.level tighter)
      return .yield (.join op left right)
  | _, .toProcedure, _ => do
    match ← peek with
    | none => return .done ()
    | some l =>
      if l.token = .defWord then
        return .done ()
      else
        let _ ← advance
        return .yield ()
  | _, .toStatement, _ => do
    match ← peek with
    | none => return .done ()
    | some l =>
      if l.token = .semicolon then
        let _ ← advance
        return .done ()
      else if l.token.endsBody then
        return .done ()
      else
        let _ ← advance
        return .yield ()

/-- What stands between `def` and the body. -/
def heading : Action Header := do
  let name ← expectIdent
  let (params, _) ← parenthesized (self .parameterList)
  let _ ← expect .colon
  let (returns, _) ← self .type
  let _ ← expect .isWord
  return ⟨name, params, returns⟩

/-- The text of a routine. Routines are called through `self`. -/
def code : {α : Type} → Routine α → Action α
  | _, .script => self (.loop .procedures [])
  | _, .procedure => do
    perform .procedure
    let first ← expect .defWord
    let head ← heading self
    let body ← self (.loop .statements [])
    let last ← expect .endWord
    return ⟨head.name, head.params, head.returns, body, first.merge last⟩
  | _, .parameterList => do
    if ← check .closeParen then return [] else self (.loop .parameters [])
  | _, .type => do
    match ← peek with
    | some ⟨.int32Word, _⟩ => return (.int32, ← advance)
    | some ⟨.boolWord, _⟩ => return (.bool, ← advance)
    | some ⟨.voidWord, _⟩ => return (.void, ← advance)
    | _ => fail (.expected .type)
  | _, .statement => do
    perform .statement
    match ← peek with
    | some ⟨.varWord, _⟩ => self .declaration
    | some ⟨.returnWord, _⟩ => self .returning
    | some ⟨.name _, _⟩ => self .action
    | _ => fail (.expected .statement)
  | _, .declaration => do
    let first ← expect .varWord
    let name ← expectIdent
    let _ ← expect .colon
    let (ty, _) ← self .type
    let init ← if ← matchToken .becomes then some <$> self (.level Tier.all) else pure none
    let last ← expect .semicolon
    return .declare name ty init (first.merge last)
  | _, .returning => do
    let first ← expect .returnWord
    let value ← if ← check .semicolon then pure none else some <$> self (.level Tier.all)
    let last ← expect .semicolon
    return .ret value (first.merge last)
  | _, .action => do
    let name ← expectIdent
    if ← matchToken .becomes then
      let value ← self (.level Tier.all)
      let last ← expect .semicolon
      return .assign name value (name.span.merge last)
    else if ← check .openParen then
      let made ← self (.call name)
      let last ← expect .semicolon
      return .call made (name.span.merge last)
    else
      fail (.expected .assignOrCall)
  | _, .call callee => do
    let (args, close) ← parenthesized (self .argumentList)
    return ⟨callee, args, callee.span.merge close⟩
  | _, .argumentList => do
    if ← check .closeParen then return [] else self (.loop .arguments [])
  | _, .level [] => self .unary
  | _, .level (tier :: tighter) => do
    let left ← self (.level tighter)
    self (.loop (.operators tier tighter) left)
  | _, .unary => do
    if nestingLimit ≤ (← depth) then fail .tooDeep else nested (self .operand)
  | _, .operand => do
    match ← peek with
    | some ⟨.minus, _⟩ =>
      let sign ← advance
      match ← peek with
      | some ⟨.number digits, _⟩ => literal (some sign) digits
      | _ =>
        let e ← self .unary
        return .unary .neg e (sign.merge e.span)
    | some ⟨.notOp, _⟩ =>
      let first ← advance
      let e ← self .unary
      return .unary .not e (first.merge e.span)
    | _ => self .primary
  | _, .primary => do
    match ← peek with
    | some ⟨.number digits, _⟩ => literal none digits
    | some ⟨.trueWord, _⟩ =>
      let span ← advance
      return .bool true span
    | some ⟨.falseWord, _⟩ =>
      let span ← advance
      return .bool false span
    | some ⟨.name _, _⟩ =>
      let name ← expectIdent
      if ← check .openParen then
        return (← self (.call name)).toExpr
      else
        return .var name.name name.span
    | some ⟨.openParen, _⟩ =>
      let first ← advance
      let inner ← self (.level Tier.all)
      let last ← expect .closeParen
      return inner.withSpan (first.merge last)
    | _ => fail (.expected .expression)
  | _, .skipProcedure => self (.loop .toProcedure ())
  | _, .skipStatement => self (.loop .toStatement ())
  | _, .loop l carried => do
    proceed (fun carried => self (.loop l carried)) (← round self l carried)

end

/-- Runs a routine with so much fuel, of which each call takes one unit. -/
def run : Nat → {α : Type} → Routine α → Action α
  | 0, _, _ => starve
  | fuel + 1, _, r => code (run fuel) r

end ScriptCheck.Parser
