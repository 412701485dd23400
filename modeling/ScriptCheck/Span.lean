/-!
# Byte ranges

A span is a half-open range of UTF-8 byte offsets into a text. Nothing forces
`start ≤ stop`: a reversed span is a value like any other and counts as empty.
-/

namespace ScriptCheck

/-- The bytes from `start` up to, and not including, `stop`. -/
structure Span where
  start : Nat
  stop : Nat
deriving DecidableEq, Inhabited

namespace Span

/-- The smallest span that covers both. -/
def merge (a b : Span) : Span := ⟨min a.start b.start, max a.stop b.stop⟩

/-- Number of bytes covered; a reversed span covers none. -/
def length (s : Span) : Nat := s.stop - s.start

def isEmpty (s : Span) : Bool := s.length == 0

/-- The same range, `n` bytes further on. -/
def shift (n : Nat) (s : Span) : Span := ⟨s.start + n, s.stop + n⟩

/-- The empty range just before byte `n`. -/
def point (n : Nat) : Span := ⟨n, n⟩

/-- The covering span of a whole list, if it has any member. -/
def mergeAll? : List Span → Option Span
  | [] => none
  | s :: rest => some (rest.foldl merge s)

/-- The field-by-field text that error messages and dumps show. -/
def describe (s : Span) : String :=
  s!"Span \x7b start: {s.start}, end: {s.stop} \x7d"

@[simp] theorem merge_start (a b : Span) : (a.merge b).start = min a.start b.start := rfl

@[simp] theorem merge_stop (a b : Span) : (a.merge b).stop = max a.stop b.stop := rfl

theorem merge_comm (a b : Span) : a.merge b = b.merge a := by
  simp [merge, Nat.min_comm, Nat.max_comm]

theorem merge_assoc (a b c : Span) : (a.merge b).merge c = a.merge (b.merge c) := by
  simp [merge, Nat.min_assoc, Nat.max_assoc]

@[simp] theorem merge_self (a : Span) : a.merge a = a := by
  simp [merge]

theorem shift_merge (n : Nat) (a b : Span) :
    (a.merge b).shift n = (a.shift n).merge (b.shift n) := by
  simp only [shift, merge, Span.mk.injEq]
  omega

end Span

end ScriptCheck
