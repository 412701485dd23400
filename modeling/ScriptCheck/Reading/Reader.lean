import ScriptCheck.Fault
import ScriptCheck.Tree

/-!
# Readers

A reader looks at the tokens that are left, from the front, and is either done,
with a value and the tokens after it, or stuck, with a complaint about the first
token it could not use. Stuck or not, what is left is a suffix of what there was:
readers never put tokens back and never make them up.
-/

namespace ScriptCheck

/-- Why reading cannot go on. The place is the first token that is left; only the
complaint about a signed number reaches back, to its sign. -/
inductive Complaint where
  | expected (wanted : Wanted)
  | tooDeep
  | outOfRange (sign : Option Span) (digits : String)
deriving DecidableEq, Inhabited

namespace Complaint

/-- The span of the first token that is left, or of the end of the text. -/
def place (eof : Span) : List Lexeme → Span
  | [] => eof
  | l :: _ => l.span

/-- The complaint as a fault, where `rest` is left. -/
def toFault (eof : Span) (rest : List Lexeme) : Complaint → Fault
  | .expected wanted => ⟨.unexpected wanted (rest.head?.map (·.token)), place eof rest⟩
  | .tooDeep => ⟨.tooDeep, place eof rest⟩
  | .outOfRange none digits => ⟨.outOfRange digits, place eof rest⟩
  | .outOfRange (some sign) digits => ⟨.outOfRange ("-" ++ digits), sign.merge (place eof rest)⟩

end Complaint

/-- How reading some tokens ends. -/
inductive Outcome (α : Type) where
  | done (value : α) (rest : List Lexeme)
  | stuck (why : Complaint) (rest : List Lexeme)

/-- The tokens that are left. -/
def Outcome.rest {α : Type} : Outcome α → List Lexeme
  | .done _ rest => rest
  | .stuck _ rest => rest

/-- A way to read a value from the front of a list of tokens. -/
structure Reader (α : Type) where
  run : List Lexeme → Outcome α
  suffix : ∀ ts, (run ts).rest <:+ ts

namespace Reader

variable {α β : Type}

/-- A reader that takes at least one token whenever it is done. -/
def Consumes (p : Reader α) : Prop :=
  ∀ ⦃ts a rest⦄, p.run ts = .done a rest → rest.length < ts.length

instance : Monad Reader where
  pure a := ⟨fun ts => .done a ts, fun _ => List.suffix_refl _⟩
  bind p f :=
    { run := fun ts =>
        match p.run ts with
        | .done a rest => (f a).run rest
        | .stuck why rest => .stuck why rest
      suffix := by
        intro ts
        have hp := p.suffix ts
        split
        · next a rest h =>
          rw [h] at hp
          exact ((f a).suffix rest).trans hp
        · next h => rwa [h] at hp }

@[simp] theorem run_pure (a : α) (ts : List Lexeme) :
    (pure a : Reader α).run ts = .done a ts := rfl

theorem run_bind (p : Reader α) (f : α → Reader β) (ts : List Lexeme) :
    (p >>= f).run ts =
      match p.run ts with
      | .done a rest => (f a).run rest
      | .stuck why rest => .stuck why rest := rfl

/-- A sequence is done exactly if both its parts are, one after the other. -/
theorem bind_eq_done {p : Reader α} {f : α → Reader β} {ts rest : List Lexeme} {b : β} :
    (p >>= f).run ts = .done b rest ↔
      ∃ a mid, p.run ts = .done a mid ∧ (f a).run mid = .done b rest := by
  rw [run_bind]
  cases p.run ts <;> simp [and_assoc]

/-- A sequence is stuck exactly if its first part is, or the second after it. -/
theorem bind_eq_stuck {p : Reader α} {f : α → Reader β} {ts rest : List Lexeme}
    {why : Complaint} :
    (p >>= f).run ts = .stuck why rest ↔
      p.run ts = .stuck why rest ∨
        ∃ a mid, p.run ts = .done a mid ∧ (f a).run mid = .stuck why rest := by
  rw [run_bind]
  cases p.run ts <;> simp [and_assoc]

theorem suffix_of_done {p : Reader α} {ts rest : List Lexeme} {a : α}
    (h : p.run ts = .done a rest) : rest <:+ ts := by
  have := p.suffix ts
  rwa [h] at this

theorem suffix_of_stuck {p : Reader α} {ts rest : List Lexeme} {why : Complaint}
    (h : p.run ts = .stuck why rest) : rest <:+ ts := by
  have := p.suffix ts
  rwa [h] at this

/-- Complains about the first token that is left. -/
def fail (why : Complaint) : Reader α :=
  ⟨fun ts => .stuck why ts, fun _ => List.suffix_refl _⟩

/-- The first token, which stays where it is. -/
def peek : Reader (Option Lexeme) :=
  ⟨fun ts => .done ts.head? ts, fun _ => List.suffix_refl _⟩

/-- Takes the first token, if its token passes `pick`. -/
def accept (wanted : Wanted) (pick : Token → Option α) : Reader (α × Span) where
  run
    | [] => .stuck (.expected wanted) []
    | l :: rest =>
      match pick l.token with
      | some a => .done (a, l.span) rest
      | none => .stuck (.expected wanted) (l :: rest)
  suffix := by
    intro ts
    match ts with
    | [] => exact List.suffix_refl _
    | l :: rest =>
      cases h : pick l.token with
      | some a => simp [h, Outcome.rest]
      | none => simp [h, Outcome.rest]

/-- Takes the token `t` and gives its place. -/
def token (t : Token) : Reader Span := do
  let (_, span) ← accept (.token t) fun u => if u = t then some () else none
  return span

/-- Takes a name. -/
def ident : Reader Ident := do
  let (name, span) ← accept .identifier fun
    | .name spelling => some spelling
    | _ => none
  return ⟨name, span⟩

/-- Takes the name of a type. -/
def type : Reader (Ty × Span) :=
  accept .type fun
    | .int32Word => some .int32
    | .boolWord => some .bool
    | .voidWord => some .void
    | _ => none

@[simp] theorem run_fail (why : Complaint) (ts : List Lexeme) :
    (fail why : Reader α).run ts = .stuck why ts := rfl

@[simp] theorem run_peek (ts : List Lexeme) : peek.run ts = .done ts.head? ts := rfl

theorem consumes_fail (why : Complaint) : (fail why : Reader α).Consumes := by
  intro ts a rest h
  simp at h

theorem consumes_accept (wanted : Wanted) (pick : Token → Option α) :
    (accept wanted pick).Consumes := by
  intro ts a rest h
  match ts with
  | [] => simp [accept] at h
  | l :: ts =>
    cases hp : pick l.token with
    | none => simp [accept, hp] at h
    | some b =>
      simp only [accept, hp, Outcome.done.injEq] at h
      simp [← h.2]

/-- If the first part takes a token, the sequence does. -/
theorem Consumes.bind {p : Reader α} (hp : p.Consumes) (f : α → Reader β) :
    (p >>= f).Consumes := by
  intro ts b rest h
  obtain ⟨a, mid, h₁, h₂⟩ := bind_eq_done.1 h
  have := (suffix_of_done h₂).length_le
  have := hp h₁
  omega

/-- If the second part always takes a token, the sequence does. -/
theorem consumes_bind_right {p : Reader α} {f : α → Reader β} (hf : ∀ a, (f a).Consumes) :
    (p >>= f).Consumes := by
  intro ts b rest h
  obtain ⟨a, mid, h₁, h₂⟩ := bind_eq_done.1 h
  have := (suffix_of_done h₁).length_le
  have := hf a h₂
  omega

theorem consumes_token (t : Token) : (token t).Consumes := (consumes_accept ..).bind _

theorem consumes_ident : ident.Consumes := (consumes_accept ..).bind _

theorem consumes_type : type.Consumes := consumes_accept ..

end Reader

/-- A reader together with the fact that it takes a token whenever it is done. -/
abbrev Consumer (α : Type) := { p : Reader α // p.Consumes }

namespace Consumer

variable {α : Type}

/-- The outcome of reading one or more items with commas between them. -/
def itemsFrom (item : Consumer α) (ts : List Lexeme) : Outcome (List α) :=
  match _h : item.val.run ts with
  | .stuck why rest => .stuck why rest
  | .done a (⟨.comma, _⟩ :: rest) =>
    match itemsFrom item rest with
    | .done as rest' => .done (a :: as) rest'
    | .stuck why rest' => .stuck why rest'
  | .done a rest => .done [a] rest
termination_by ts.length
decreasing_by
  have := item.property _h
  simp only [List.length_cons] at this
  omega

theorem suffix_itemsFrom (item : Consumer α) (ts : List Lexeme) :
    (itemsFrom item ts).rest <:+ ts := by
  fun_induction itemsFrom item ts with
  | case1 ts why rest h => exact Reader.suffix_of_stuck h
  | case2 ts a span rest h as rest' hr ih =>
    rw [hr] at ih
    exact (ih.trans (List.suffix_cons _ _)).trans (Reader.suffix_of_done h)
  | case3 ts a span rest h why rest' hr ih =>
    rw [hr] at ih
    exact (ih.trans (List.suffix_cons _ _)).trans (Reader.suffix_of_done h)
  | case4 ts a rest _ h => exact Reader.suffix_of_done h

/-- One or more items with commas between them. -/
def items (item : Consumer α) : Reader (List α) :=
  ⟨itemsFrom item, suffix_itemsFrom item⟩

/-- A list in parentheses, with the place of the closing one. -/
def parenthesized (item : Consumer α) : Consumer (List α × Span) :=
  ⟨do
    let _ ← Reader.token .openParen
    let values ← match ← Reader.peek with
      | some ⟨.closeParen, _⟩ => pure []
      | _ => item.items
    let close ← Reader.token .closeParen
    return (values, close),
  (Reader.consumes_token _).bind _⟩

end Consumer

end ScriptCheck
