/-!
# Plain text

A terminal takes some characters as commands and does not show them: control characters,
and the sequences that an escape character opens. Plain text is what is left without
them, so a log keeps its shape whatever is in the names that it mentions.

All that is left can be shown (`isVisible_of_mem_plainFrom`), and nothing is lost from a
text that held no command (`plainFrom_eq_self`).
-/

namespace ScriptCheck.Text

/-- Is the code point of a character between two others, both included? -/
def within (first last : Nat) (c : Char) : Bool := first ≤ c.toNat && c.toNat ≤ last

/-- Tabs and the ends of lines and pages: the control characters that are part of a text. -/
def isLayout (c : Char) : Bool := c == '\t' || c == '\n' || c == '\x0C' || c == '\r'

/-- Is a character part of the text, and not a command on its own? -/
def isVisible (c : Char) : Bool := isLayout c || (0x20 ≤ c.toNat && c.toNat ≠ 0x7F)

/-- How far a command that takes several characters has come. -/
inductive Command where
  /-- No command has begun. -/
  | none
  /-- After the escape character. -/
  | escape
  /-- After an escape character and some of the marks from space to slash. -/
  | escapeMark
  /-- In the parameters of a command that moves the cursor or sets a color. -/
  | control
  /-- At the head of a message to the device. -/
  | device
  /-- In the numbers at the head of a message to the device. -/
  | deviceNumber
  /-- After the numbers at the head of a message to the device. -/
  | deviceMark
  /-- In a message, or in any other string that is not shown. -/
  | string
  /-- In a message to the window, such as its title. -/
  | window
deriving DecidableEq, Inhabited

namespace Command

/-- Does the encoding of a character hold the byte that ends a string? -/
def endsString (c : Char) : Bool := (String.utf8EncodeChar c).contains 0x9C

/-- The command after one more character. Escape begins another at any time, and cancel
and substitute end it. -/
def next (command : Command) (c : Char) : Command :=
  if c == '\x1B' then escape
  else if c == '\x18' || c == '\x1A' then none
  else match command with
    | none => none
    | escape =>
      if c == '[' then control
      else if c == ']' then window
      else if c == 'P' then device
      else if c == 'X' || c == '^' || c == '_' then string
      else if within 0x20 0x2F c then escapeMark
      else if within 0x30 0x7E c then none
      else escape
    | escapeMark => if within 0x30 0x7E c then none else escapeMark
    | control => if within 0x40 0x7E c then none else control
    | device =>
      if within 0x20 0x2F c then deviceMark
      else if within 0x30 0x3F c then deviceNumber
      else if within 0x40 0x7E c then string
      else device
    | deviceNumber =>
      if within 0x20 0x2F c then deviceMark
      else if within 0x3C 0x7E c then string
      else deviceNumber
    | deviceMark => if within 0x30 0x7E c then string else deviceMark
    | string => if endsString c then none else string
    | window => if c == '\x07' then none else window

/-- Is a character shown although a command is not complete? Layout breaks into a command
as long as its body has not begun. -/
def breaksAt (command : Command) (c : Char) : Bool :=
  isLayout c && match command with
    | escape | escapeMark | control => true
    | _ => false

end Command

/-- The characters of a text that are shown, within a command. `shown` tells whether the
character before was shown: what is visible goes on being shown then, and the command
waits for the next control character. A character beyond ASCII gives the command up. -/
def plainFrom (command : Command) (shown : Bool) : List Char → List Char
  | [] => []
  | c :: cs =>
    if (isVisible c && (shown || command = .none)) || command.breaksAt c then
      c :: plainFrom (if 0x80 ≤ c.toNat then .none else command) true cs
    else plainFrom (command.next c) false cs

/-- A text without the commands in it. -/
def plain (text : String) : String := String.ofList (plainFrom .none false text.toList)

theorem isVisible_of_breaksAt {command : Command} {c : Char} (h : command.breaksAt c) :
    isVisible c := by
  simp only [Command.breaksAt, Bool.and_eq_true] at h
  simp [isVisible, h.1]

/-- All characters of a plain text are visible. -/
theorem isVisible_of_mem_plainFrom {c : Char} {cs : List Char} {command : Command} {shown : Bool}
    (h : c ∈ plainFrom command shown cs) : isVisible c := by
  induction cs generalizing command shown with
  | nil => simp [plainFrom] at h
  | cons d ds ih =>
    unfold plainFrom at h
    split at h
    · rename_i hd
      rcases List.mem_cons.mp h with rfl | h
      · rcases Bool.or_eq_true _ _ |>.mp hd with hd | hd
        · exact (Bool.and_eq_true _ _ |>.mp hd).1
        · exact isVisible_of_breaksAt hd
      · exact ih h
    · exact ih h

/-- Visible characters are kept as they are. -/
theorem plainFrom_eq_self {cs : List Char} (h : ∀ c ∈ cs, isVisible c) (shown : Bool) :
    plainFrom .none shown cs = cs := by
  induction cs generalizing shown with
  | nil => rfl
  | cons c cs ih =>
    have hc : isVisible c := h c List.mem_cons_self
    have rest := ih (fun d hd => h d (List.mem_cons_of_mem c hd)) true
    simp [plainFrom, hc, rest]

end ScriptCheck.Text
