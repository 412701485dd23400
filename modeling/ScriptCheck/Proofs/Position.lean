import Mathlib.Data.List.Induction
import ScriptCheck.Source

/-!
# Lines and columns as addresses

The position of an offset depends on the characters that end at or before it, and on nothing
else. One more such character moves a position on, to the next column or to the next line. So
positions never go back, and no two boundaries between characters share one.
-/
namespace ScriptCheck

namespace Text

/-- The characters that end at or before byte `n`. -/
def passed : List Char → Nat → List Char
  | [], _ => []
  | c :: cs, n => if n < c.utf8Size then [] else c :: passed cs (n - c.utf8Size)

section

variable {cs xs rest : List Char} {m n : Nat}

/-- Behind the passed characters stands one that ends later, or nothing. -/
theorem exists_passed (cs : List Char) (n : Nat) : ∃ rest, cs = passed cs n ++ rest ∧
    byteLength (passed cs n) ≤ n ∧ ∀ c ∈ rest.head?, n < byteLength (passed cs n) + c.utf8Size := by
  induction cs generalizing n with
  | nil => exact ⟨[], rfl, Nat.zero_le n, by simp⟩
  | cons c cs ih =>
    rw [passed]
    split
    · next hlt => exact ⟨c :: cs, rfl, Nat.zero_le n, by simpa using hlt⟩
    · next hle =>
      obtain ⟨rest, hcs, hlength, hnext⟩ := ih (n - c.utf8Size)
      refine ⟨rest, by rw [List.cons_append, ← hcs], ?_, fun d hd => ?_⟩
      · rw [byteLength_cons]
        omega
      · have := hnext d hd
        rw [byteLength_cons]
        omega

theorem passed_append (hle : byteLength xs ≤ n)
    (hnext : ∀ c ∈ rest.head?, n < byteLength xs + c.utf8Size) : passed (xs ++ rest) n = xs := by
  induction xs generalizing n with
  | nil =>
    cases rest with
    | nil => rfl
    | cons c rest =>
      have hlt : n < c.utf8Size := by simpa using hnext c rfl
      rw [List.nil_append, passed, if_pos hlt]
  | cons x xs ih =>
    rw [byteLength_cons] at hle hnext
    rw [List.cons_append, passed, if_neg (by omega), ih (by omega)]
    intro c hc
    have := hnext c hc
    omega

theorem passed_prefix (cs : List Char) (h : m ≤ n) : passed cs m <+: passed cs n := by
  induction cs generalizing m n with
  | nil => exact List.prefix_rfl
  | cons c cs ih =>
    rw [passed]
    split
    · exact List.nil_prefix
    · rw [passed, if_neg (by omega)]
      exact List.cons_prefix_cons.2 ⟨rfl, ih (by omega)⟩

/-- All characters end at or before the end. -/
theorem passed_min (cs : List Char) (n : Nat) :
    passed cs (min n (byteLength cs)) = passed cs n := by
  obtain ⟨rest, hcs, hlength, hnext⟩ := exists_passed cs n
  have htotal : byteLength cs = byteLength (passed cs n) + byteLength rest := by
    rw [← byteLength_append, ← hcs]
  have hsplit : passed (passed cs n ++ rest) (min n (byteLength cs)) = passed cs n := by
    refine passed_append (by omega) fun c hc => ?_
    have := hnext c hc
    omega
  rwa [← hcs] at hsplit

/-- At a boundary between characters all bytes before it belong to passed characters. -/
theorem byteLength_passed {text : String} (h : String.Pos.Raw.IsValid text ⟨n⟩) :
    byteLength (passed text.toList n) = n := by
  obtain ⟨front, back, rfl, hn⟩ := String.Pos.Raw.isValid_iff_exists_append.1 h
  have hn : n = byteLength front.toList := by
    rw [byteLength_toList]
    exact congrArg String.Pos.Raw.byteIdx hn
  rw [String.toList_append, hn, passed_append (Nat.le_refl _)]
  intro c _
  have := c.utf8Size_pos
  omega

end

/-! ## Newline bytes -/

/-- The bytes of a text in UTF-8. -/
def bytes (text : String) : List UInt8 := text.toByteArray.data.toList

theorem bytes_eq (text : String) : bytes text = text.toList.flatMap String.utf8EncodeChar := by
  rw [bytes, ← String.utf8Encode_toList, List.utf8Encode, List.data_toByteArray]

theorem ofNat_ne_newline {k : Nat} (h : 128 ≤ k) (hlt : k < 256) : UInt8.ofNat k ≠ 10 := by
  intro heq
  have hval := congrArg UInt8.toNat heq
  rw [UInt8.toNat_ofNat', Nat.mod_eq_of_lt hlt] at hval
  change k = 10 at hval
  omega

/-- Every byte of a character that takes more than one has its highest bit set. -/
theorem ne_newline_of_mem_utf8EncodeChar {c : Char} (hc : ¬ c.val.toNat ≤ 127) :
    ∀ b ∈ String.utf8EncodeChar c, b ≠ 10 := by
  have hhigh (k : Nat) (h : 128 ≤ k ∧ k < 256) : UInt8.ofNat k ≠ 10 := ofNat_ne_newline h.1 h.2
  unfold String.utf8EncodeChar
  dsimp only
  rw [if_neg hc]
  split
  · simp only [List.forall_mem_cons]
    exact ⟨hhigh _ (by omega), hhigh _ (by omega), List.forall_mem_nil _⟩
  · split
    · simp only [List.forall_mem_cons]
      exact ⟨hhigh _ (by omega), hhigh _ (by omega), hhigh _ (by omega), List.forall_mem_nil _⟩
    · simp only [List.forall_mem_cons]
      exact ⟨hhigh _ (by omega), hhigh _ (by omega), hhigh _ (by omega), hhigh _ (by omega),
        List.forall_mem_nil _⟩

theorem mem_utf8EncodeChar_iff {c : Char} : 10 ∈ String.utf8EncodeChar c ↔ c = '\n' := by
  constructor
  · intro h
    by_cases hc : c.val.toNat ≤ 127
    · have hbyte : (10 : UInt8) = UInt8.ofNat c.val.toNat := by
        unfold String.utf8EncodeChar at h
        dsimp only at h
        rw [if_pos hc] at h
        exact List.mem_singleton.1 h
      have hval := congrArg UInt8.toNat hbyte
      rw [UInt8.toNat_ofNat', Nat.mod_eq_of_lt (by omega)] at hval
      exact Char.ext (UInt32.toNat_inj.1 hval.symm)
    · exact absurd rfl (ne_newline_of_mem_utf8EncodeChar hc 10 h)
  · rintro rfl
    decide

theorem count_utf8EncodeChar (c : Char) :
    (String.utf8EncodeChar c).count 10 = if c = '\n' then 1 else 0 := by
  by_cases hc : c = '\n'
  · subst hc
    decide
  · rw [if_neg hc, List.count_eq_zero, mem_utf8EncodeChar_iff]
    exact hc

/-- A part of a character has no newline. -/
theorem count_take_utf8EncodeChar {c : Char} {k : Nat} (h : k < c.utf8Size) :
    ((String.utf8EncodeChar c).take k).count 10 = 0 := by
  by_cases hc : c = '\n'
  · subst hc
    have hk : k = 0 := Nat.lt_one_iff.1 h
    rw [hk]
    rfl
  · rw [List.count_eq_zero]
    exact fun hmem => hc (mem_utf8EncodeChar_iff.1 (List.mem_of_mem_take hmem))

/-- Newline bytes before an offset are newlines among the passed characters. -/
theorem count_take_bytes (cs : List Char) (n : Nat) :
    ((cs.flatMap String.utf8EncodeChar).take n).count 10 = (passed cs n).count '\n' := by
  induction cs generalizing n with
  | nil => simp [passed]
  | cons c cs ih =>
    have hlength := String.length_utf8EncodeChar c
    rw [List.flatMap_cons, List.take_append, List.count_append, hlength, passed]
    split
    · next hlt =>
      rw [count_take_utf8EncodeChar hlt, Nat.sub_eq_zero_of_le (Nat.le_of_lt hlt)]
      rfl
    · next hle =>
      rw [List.take_of_length_le (by omega), count_utf8EncodeChar, ih, List.count_cons]
      simp only [beq_iff_eq]
      omega

/-! ## Characters by line -/

/-- The line of the `i`-th character, counted from one. A newline belongs to the line it ends. -/
def lineOf (cs : List Char) (i : Nat) : Nat := 1 + (cs.take i).count '\n'

/-- The offset behind the `i`-th character. -/
def endOf (cs : List Char) (i : Nat) : Nat := byteLength (cs.take (i + 1))

/-- How many characters of a line end at or before an offset. -/
def endingBy (cs : List Char) (line n : Nat) : Nat :=
  (List.range cs.length).countP fun i => lineOf cs i = line ∧ endOf cs i ≤ n

theorem byteLength_take_le (cs : List Char) (i : Nat) : byteLength (cs.take i) ≤ byteLength cs := by
  have hsplit := congrArg byteLength (List.take_append_drop i cs)
  rw [byteLength_append] at hsplit
  omega

/-- Only passed characters count. -/
theorem endingBy_append {xs rest : List Char} {n : Nat} (line : Nat) (hle : byteLength xs ≤ n)
    (hnext : ∀ c ∈ rest.head?, n < byteLength xs + c.utf8Size) :
    endingBy (xs ++ rest) line n = (List.range xs.length).countP fun i => lineOf xs i = line := by
  rw [endingBy, List.length_append, List.range_add, List.countP_append, List.countP_map]
  have hlater : (List.range rest.length).countP ((fun i => decide (lineOf (xs ++ rest) i = line ∧
      endOf (xs ++ rest) i ≤ n)) ∘ (xs.length + ·)) = 0 := by
    refine List.countP_eq_zero.2 fun j hj => ?_
    cases rest with
    | nil => simp at hj
    | cons c rest =>
      have hend : endOf (xs ++ c :: rest) (xs.length + j) =
          byteLength xs + (c.utf8Size + byteLength (rest.take j)) := by
        rw [endOf, Nat.add_assoc, List.take_length_add_append, List.take_succ_cons,
          byteLength_append, byteLength_cons]
      have := hnext c rfl
      simp only [Function.comp_apply, decide_eq_true_eq, hend]
      omega
  rw [hlater, Nat.add_zero]
  refine List.countP_congr fun i hi => ?_
  have hi : i < xs.length := List.mem_range.1 hi
  have hend : endOf (xs ++ rest) i ≤ n := by
    rw [endOf, List.take_append_of_le_length hi]
    exact Nat.le_trans (byteLength_take_le xs _) hle
  have hline : lineOf (xs ++ rest) i = lineOf xs i := by
    rw [lineOf, lineOf, List.take_append_of_le_length (Nat.le_of_lt hi)]
  simp [hline, hend]

end Text

/-! ## Positions -/

namespace Position

variable {p q r : Position}

/-- On an earlier line, or on the same line in an earlier column. -/
def Precedes (p q : Position) : Prop := p.line < q.line ∨ p.line = q.line ∧ p.column < q.column

theorem Precedes.trans (h : p.Precedes q) (h' : q.Precedes r) : p.Precedes r := by
  unfold Precedes at *
  omega

theorem Precedes.ne (h : p.Precedes q) : p ≠ q := by
  rintro rfl
  unfold Precedes at h
  omega

/-- A character moves a position on. -/
theorem precedes_next (p : Position) (c : Char) : p.Precedes (p.next c) := by
  unfold Precedes next
  split
  · exact .inl (Nat.lt_succ_self _)
  · exact .inr ⟨rfl, Nat.lt_succ_self _⟩

theorem precedes_foldl_next (p : Position) {xs : List Char} (h : xs ≠ []) :
    p.Precedes (xs.foldl next p) := by
  induction xs generalizing p with
  | nil => exact absurd rfl h
  | cons x xs ih =>
    have hfirst := p.precedes_next x
    cases xs with
    | nil => exact hfirst
    | cons y ys => exact hfirst.trans (ih (p.next x) (List.cons_ne_nil y ys))

theorem advance_eq (p : Position) (cs : List Char) (n : Nat) :
    p.advance cs n = (Text.passed cs n).foldl next p := by
  induction cs generalizing p n with
  | nil => rfl
  | cons c cs ih =>
    rw [advance, Text.passed]
    split
    · rfl
    · rw [ih]
      rfl

/-- The line counts the newlines, and the column the characters of the last line. -/
theorem foldl_next_eq (xs : List Char) : xs.foldl next ⟨1, 1⟩ =
    ⟨1 + xs.count '\n',
      1 + (List.range xs.length).countP fun i => Text.lineOf xs i = 1 + xs.count '\n'⟩ := by
  induction xs using List.reverseRecOn with
  | nil => rfl
  | append_singleton xs c ih =>
    have hline (i : Nat) (hi : i ∈ List.range (xs.length + 1)) :
        Text.lineOf (xs ++ [c]) i = Text.lineOf xs i := by
      rw [Text.lineOf, Text.lineOf,
        List.take_append_of_le_length (Nat.le_of_lt_succ (List.mem_range.1 hi))]
    have hcount : (List.range (xs ++ [c]).length).countP (fun i =>
        Text.lineOf (xs ++ [c]) i = 1 + (xs ++ [c]).count '\n') =
        (List.range (xs.length + 1)).countP fun i =>
          Text.lineOf xs i = 1 + (xs ++ [c]).count '\n' := by
      rw [List.length_append, List.length_singleton]
      refine List.countP_congr fun i hi => ?_
      rw [hline i hi]
    rw [List.foldl_append, ih, List.foldl_cons, List.foldl_nil, next, hcount, List.count_append]
    split
    · next hc =>
      -- No character stands on the new line yet.
      have hnone : (List.range (xs.length + 1)).countP (fun i =>
          Text.lineOf xs i = 1 + (xs.count '\n' + [c].count '\n')) = 0 := by
        refine List.countP_eq_zero.2 fun i _ => ?_
        have := (List.take_sublist i xs).count_le '\n'
        rw [hc, List.count_singleton_self, Text.lineOf, decide_eq_true_eq]
        omega
      rw [hnone, hc, List.count_singleton_self, Nat.add_assoc]
    · next hc =>
      have hzero : [c].count '\n' = 0 := List.count_eq_zero.2 (by simpa [eq_comm] using hc)
      have hlast : Text.lineOf xs xs.length = 1 + xs.count '\n' := by
        rw [Text.lineOf, List.take_length]
      rw [hzero, Nat.add_zero, List.range_succ, List.countP_append]
      simp [hlast, Nat.add_assoc]

end Position

/-! ## Addresses -/

namespace Source

variable {s : Source} {m n : Nat}

/-- The line and column that an offset has by counting: newline bytes before the offset, and
characters of that line that end at or before it. -/
def address (s : Source) (n : Nat) : Position :=
  let line := 1 + ((Text.bytes s.text).take n).count 10
  ⟨line, 1 + Text.endingBy s.chars line n⟩

theorem position_eq (s : Source) (n : Nat) :
    s.position n = (Text.passed s.chars n).foldl Position.next ⟨1, 1⟩ :=
  Position.advance_eq _ _ _

theorem position_min (s : Source) (n : Nat) : s.position (min n s.byteLength) = s.position n := by
  rw [position_eq, position_eq, byteLength, Text.passed_min]

theorem position_eq_address (s : Source) (n : Nat) : s.position n = s.address n := by
  obtain ⟨rest, hchars, hle, hnext⟩ := Text.exists_passed s.chars n
  have hcolumn (line : Nat) := Text.endingBy_append line hle hnext
  have hline : ((Text.bytes s.text).take n).count 10 = (Text.passed s.chars n).count '\n' := by
    rw [Text.bytes_eq, Text.count_take_bytes]
    rfl
  rw [← hchars] at hcolumn
  rw [position_eq, Position.foldl_next_eq, address, hline, hcolumn]

theorem position_mono (s : Source) (h : m ≤ n) :
    s.position m = s.position n ∨ (s.position m).Precedes (s.position n) := by
  obtain ⟨more, hmore⟩ := Text.passed_prefix s.chars h
  rw [position_eq, position_eq, ← hmore, List.foldl_append]
  cases more with
  | nil => exact .inl rfl
  | cons c more => exact .inr (Position.precedes_foldl_next _ (List.cons_ne_nil c more))

/-- Between two boundaries stands a character. -/
theorem precedes_of_lt (hm : String.Pos.Raw.IsValid s.text ⟨m⟩)
    (hn : String.Pos.Raw.IsValid s.text ⟨n⟩) (h : m < n) :
    (s.position m).Precedes (s.position n) := by
  obtain ⟨more, hmore⟩ := Text.passed_prefix s.chars (Nat.le_of_lt h)
  have hlength := congrArg Text.byteLength hmore
  rw [Text.byteLength_append, chars, Text.byteLength_passed hm,
    Text.byteLength_passed hn] at hlength
  rw [position_eq, position_eq, ← hmore, List.foldl_append]
  refine Position.precedes_foldl_next _ fun hnil => ?_
  rw [hnil, Text.byteLength_nil] at hlength
  omega

theorem eq_of_position_eq (hm : String.Pos.Raw.IsValid s.text ⟨m⟩)
    (hn : String.Pos.Raw.IsValid s.text ⟨n⟩) (h : s.position m = s.position n) : m = n := by
  rcases Nat.lt_trichotomy m n with hlt | heq | hlt
  · exact absurd h (precedes_of_lt hm hn hlt).ne
  · exact heq
  · exact absurd h.symm (precedes_of_lt hn hm hlt).ne

end Source

end ScriptCheck
