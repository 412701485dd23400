import ScriptCheck.Proofs.Position

/-!
# Positions from a table of lines

Positions can be looked up in a table of the offsets where lines begin. The line of an offset is
found by binary search, its end is the beginning of the next line or the end of the text, and
the column counts the boundaries between characters from the beginning of the line on. Each of
these steps can fail. For an offset in the text none does, and what is found is its position.
-/
namespace ScriptCheck

namespace Lines

/-- The offsets behind the newlines of a text that begins at `offset`. -/
def startsFrom (offset : Nat) : List Char → List Nat
  | [] => []
  | c :: cs =>
    let stop := offset + c.utf8Size
    if c = '\n' then stop :: startsFrom stop cs else startsFrom stop cs

/-- The offsets at which lines begin. -/
def starts (text : String) : Array Nat := (0 :: startsFrom 0 text.toList).toArray

/-- The index of a number in a part of an ordered table, or else the index at which it would
have to be put in. -/
def search (table : Array Nat) (n lo hi : Nat) : Except Nat Nat :=
  if lo < hi then
    let mid := lo + (hi - lo) / 2
    let found := table.getD mid 0
    if found = n then .ok mid
    else if found < n then search table n (mid + 1) hi
    else search table n lo mid
  else .error lo
termination_by hi - lo

/-- The index of the line of an offset, unless the offset stands before all lines. -/
def index? (table : Array Nat) (n : Nat) : Option Nat :=
  match search table n 0 table.size with
  | .ok i => some i
  | .error 0 => none
  | .error (i + 1) => some i

/-- Where a line begins. The end of the text counts as the beginning of one more line. -/
def start? (table : Array Nat) (size i : Nat) : Option Nat :=
  if i < table.size then table[i]? else if i = table.size then some size else none

/-- How many characters end behind the offset `first` and at or before `stop`. -/
def boundaries (text : String) (first stop : Nat) : Nat :=
  (List.range' first (stop - first)).countP fun b => String.Pos.Raw.isValid text ⟨b + 1⟩

/-- The position of an offset by the table, unless one of the steps fails. -/
def lookup? (text : String) (n : Nat) : Option Position := do
  let i ← index? (starts text) n
  let first ← start? (starts text) text.utf8ByteSize i
  let next ← start? (starts text) text.utf8ByteSize (i + 1)
  return ⟨i + 1, 1 + boundaries text first (min n (min next text.utf8ByteSize))⟩

/-! ## The table -/

section

variable {offset n : Nat} {xs ys : List Char}

theorem startsFrom_append : startsFrom offset (xs ++ ys) =
    startsFrom offset xs ++ startsFrom (offset + Text.byteLength xs) ys := by
  induction xs generalizing offset with
  | nil => rfl
  | cons x xs ih =>
    rw [List.cons_append, startsFrom, startsFrom, Text.byteLength_cons, ← Nat.add_assoc]
    split
    · rw [ih, List.cons_append]
    · rw [ih]

theorem length_startsFrom : (startsFrom offset xs).length = xs.count '\n' := by
  induction xs generalizing offset with
  | nil => rfl
  | cons x xs ih =>
    rw [startsFrom, List.count_cons]
    split
    · next hx => simp [ih, hx]
    · next hx => simp [ih, hx]

/-- A line begins behind a character of the text. -/
theorem bounds_of_mem_startsFrom (h : n ∈ startsFrom offset xs) :
    (∀ x ∈ xs.head?, offset + x.utf8Size ≤ n) ∧ offset < n ∧ n ≤ offset + Text.byteLength xs := by
  induction xs generalizing offset with
  | nil => cases h
  | cons x xs ih =>
    have hpos := x.utf8Size_pos
    rw [Text.byteLength_cons]
    have hlater (h : n ∈ startsFrom (offset + x.utf8Size) xs) : (∀ y ∈ (x :: xs).head?,
        offset + y.utf8Size ≤ n) ∧ offset < n ∧ n ≤ offset + (x.utf8Size + Text.byteLength xs) := by
      obtain ⟨_, hlt, hle⟩ := ih h
      refine ⟨fun y hy => ?_, by omega, by omega⟩
      cases hy
      omega
    rw [startsFrom] at h
    split at h
    · rcases List.mem_cons.1 h with rfl | h
      · refine ⟨fun y hy => ?_, by omega, by omega⟩
        cases hy
        exact Nat.le_refl _
      · exact hlater h
    · exact hlater h

theorem pairwise_startsFrom : (startsFrom offset xs).Pairwise (· < ·) := by
  induction xs generalizing offset with
  | nil => exact List.Pairwise.nil
  | cons x xs ih =>
    rw [startsFrom]
    split
    · exact List.pairwise_cons.2 ⟨fun n hn => (bounds_of_mem_startsFrom hn).2.1, ih⟩
    · exact ih

end

/-! ## Searching -/

section

variable {table : Array Nat} {n k : Nat}

/-- The number stands behind the entry `k` of the table and before the next one. -/
structure Behind (table : Array Nat) (n k : Nat) : Prop where
  lt_size : k < table.size
  lt : ∀ i < k, table.getD i 0 < n
  le : table.getD k 0 ≤ n
  gt : ∀ i, k < i → i < table.size → n < table.getD i 0

/-- Whatever part of the table is left, the place behind `k` is in it. -/
theorem search_of_behind (h : Behind table n k) {lo hi : Nat} (hlo : lo ≤ k + 1) (hk : k + 1 ≤ hi)
    (hhi : hi ≤ table.size) :
    search table n lo hi = .ok k ∨ search table n lo hi = .error (k + 1) := by
  fun_induction search table n lo hi with
  | case1 lo hi hlt mid found heq =>
    have hmid : mid = k := by
      rcases Nat.lt_trichotomy mid k with hlt' | heq' | hgt
      · have := h.lt mid hlt'
        omega
      · exact heq'
      · have := h.gt mid hgt (by omega)
        omega
    exact .inl (by rw [hmid])
  | case2 lo hi hlt mid found hne hbelow ih =>
    refine ih ?_ hk hhi
    by_contra hlater
    have := h.gt mid (by omega) (by omega)
    omega
  | case3 lo hi hlt mid found hne hbelow ih =>
    refine ih hlo ?_ (by omega)
    by_contra hearlier
    rcases Nat.lt_or_eq_of_le (show mid ≤ k by omega) with hlt' | heq'
    · have := h.lt mid hlt'
      omega
    · have := h.le
      rw [← heq'] at this
      omega
  | case4 lo hi hend => exact .inr (by rw [show lo = k + 1 by omega])

theorem index?_of_behind (h : Behind table n k) : index? table n = some k := by
  rcases search_of_behind h (Nat.zero_le _) h.lt_size (Nat.le_refl _) with hs | hs
  · rw [index?, hs]
  · rw [index?, hs]

end

/-! ## Lines and their boundaries -/

/-- Characters as their last line and what stands in front of it. -/
structure LastLine (xs front line : List Char) : Prop where
  eq_append : xs = front ++ line
  unbroken : '\n' ∉ line
  fresh : front = [] ∨ ∃ more, front = more ++ ['\n']

theorem exists_lastLine (xs : List Char) : ∃ front line, LastLine xs front line := by
  induction xs using List.reverseRecOn with
  | nil => exact ⟨[], [], rfl, by simp, .inl rfl⟩
  | append_singleton xs c ih =>
    by_cases hc : c = '\n'
    · exact ⟨xs ++ [c], [], (List.append_nil _).symm, by simp, .inr ⟨xs, by rw [hc]⟩⟩
    · obtain ⟨front, line, rfl, hline, hfront⟩ := ih
      refine ⟨front, line ++ [c], List.append_assoc _ _ _, ?_, hfront⟩
      simpa [hline, eq_comm] using hc

section

variable {text : String} {xs front line rest : List Char} {n : Nat}

theorem foldl_next_of_unbroken (h : '\n' ∉ line) (p : Position) :
    line.foldl Position.next p = ⟨p.line, p.column + line.length⟩ := by
  induction line generalizing p with
  | nil => rfl
  | cons c line ih =>
    obtain ⟨hc, hline⟩ := not_or.1 (List.mem_cons.not.1 h)
    rw [List.foldl_cons, ih hline, Position.next, if_neg (Ne.symm hc), List.length_cons]
    simp only [Position.mk.injEq, true_and]
    omega

/-- The column counts the characters of the last line. -/
theorem LastLine.foldl_next (h : LastLine xs front line) :
    xs.foldl Position.next ⟨1, 1⟩ = ⟨1 + front.count '\n', 1 + line.length⟩ := by
  have hfront : front.foldl Position.next ⟨1, 1⟩ = ⟨1 + front.count '\n', 1⟩ := by
    rcases h.fresh with rfl | ⟨more, rfl⟩
    · rfl
    · rw [List.foldl_append, Position.foldl_next_eq, List.foldl_cons, List.foldl_nil,
        Position.next, if_pos rfl, List.count_append, List.count_singleton_self, Nat.add_assoc]
  rw [h.eq_append, List.foldl_append, hfront, foldl_next_of_unbroken h.unbroken]

/-- Where the last line begins is the last entry of the table so far. -/
theorem LastLine.starts (h : LastLine xs front line) : ∃ earlier,
    0 :: startsFrom 0 xs = earlier ++ [Text.byteLength front] ∧
      earlier.length = front.count '\n' := by
  have hline (offset : Nat) : startsFrom offset line = [] := by
    apply List.eq_nil_of_length_eq_zero
    rw [length_startsFrom, List.count_eq_zero]
    exact h.unbroken
  rw [h.eq_append, startsFrom_append, hline, List.append_nil]
  rcases h.fresh with rfl | ⟨more, rfl⟩
  · exact ⟨[], rfl, rfl⟩
  · refine ⟨0 :: startsFrom 0 more, ?_, ?_⟩
    · rw [startsFrom_append, Nat.zero_add, Text.byteLength_append]
      rfl
    · rw [List.length_cons, length_startsFrom, List.count_append, List.count_singleton_self]

theorem behind_of_append {earlier later : List Nat} {first : Nat}
    (hsorted : (earlier ++ first :: later).Pairwise (· < ·)) (hle : first ≤ n)
    (hlater : ∀ m ∈ later, n < m) :
    Behind (earlier ++ first :: later).toArray n earlier.length := by
  have hget (i : Nat) : (earlier ++ first :: later).toArray.getD i 0 =
      ((earlier ++ first :: later)[i]?).getD 0 := by
    rw [Array.getD_eq_getD_getElem?, List.getElem?_toArray]
  obtain ⟨_, _, hapart⟩ := List.pairwise_append.1 hsorted
  refine ⟨by simp, fun i hi => ?_, ?_, fun i hi hsize => ?_⟩
  · rw [hget, List.getElem?_append_left hi, List.getElem?_eq_getElem hi]
    exact Nat.lt_of_lt_of_le (hapart _ (List.getElem_mem hi) first List.mem_cons_self) hle
  · rw [hget, List.getElem?_append_right (Nat.le_refl _), Nat.sub_self]
    exact hle
  · obtain ⟨j, rfl⟩ : ∃ j, i = earlier.length + (j + 1) := ⟨i - earlier.length - 1, by omega⟩
    have hj : j < later.length := by
      simp only [List.size_toArray, List.length_append, List.length_cons] at hsize
      omega
    rw [hget, List.getElem?_append_right (by omega), Nat.add_sub_cancel_left,
      List.getElem?_cons_succ, List.getElem?_eq_getElem hj]
    exact hlater _ (List.getElem_mem hj)

/-- Inside a character there is no boundary. -/
theorem not_isValid {c : Char} {b : Nat} (h : text.toList = xs ++ c :: rest)
    (hlt : Text.byteLength xs < b) (hb : b < Text.byteLength xs + c.utf8Size) :
    String.Pos.Raw.isValid text ⟨b⟩ = false := by
  rw [String.Pos.Raw.isValid_eq_false_iff]
  intro hvalid
  have hlength := Text.byteLength_passed hvalid
  rw [h, Text.passed_append (Nat.le_of_lt hlt) (by simpa using hb)] at hlength
  omega

/-- A character has one boundary behind its bytes. -/
theorem countP_char {c : Char} (h : text.toList = xs ++ c :: rest) :
    (List.range' (Text.byteLength xs) c.utf8Size).countP
      (fun b => String.Pos.Raw.isValid text ⟨b + 1⟩) = 1 := by
  obtain ⟨k, hk⟩ : ∃ k, c.utf8Size = k + 1 := ⟨c.utf8Size - 1, by have := c.utf8Size_pos; omega⟩
  have hinside : (List.range' (Text.byteLength xs) k).countP
      (fun b => String.Pos.Raw.isValid text ⟨b + 1⟩) = 0 := by
    refine List.countP_eq_zero.2 fun b hb => ?_
    obtain ⟨hle, hlt⟩ := List.mem_range'_1.1 hb
    rw [not_isValid h (by omega) (by omega)]
    exact Bool.false_ne_true
  have hend : String.Pos.Raw.isValid text ⟨Text.byteLength xs + k + 1⟩ = true := by
    have hsplit : text.toList = (xs ++ [c]) ++ rest := by simpa using h
    have hvalid := Text.isValid_of_append hsplit
    rw [Text.byteLength_append, Text.byteLength_cons, Text.byteLength_nil, hk] at hvalid
    exact String.Pos.Raw.isValid_eq_true_iff.2 hvalid
  rw [hk, List.range'_concat, List.countP_append, hinside, Nat.one_mul, List.countP_singleton,
    hend]
  rfl

/-- As many boundaries as characters. -/
theorem boundaries_eq (h : text.toList = front ++ (line ++ rest))
    (hle : Text.byteLength (front ++ line) ≤ n) (hn : n ≤ text.utf8ByteSize)
    (hnext : ∀ c ∈ rest.head?, n < Text.byteLength (front ++ line) + c.utf8Size) :
    boundaries text (Text.byteLength front) n = line.length := by
  unfold boundaries
  induction line generalizing front with
  | nil =>
    refine List.countP_eq_zero.2 fun b hb => ?_
    rw [List.append_nil] at hle hnext
    obtain ⟨hb, hbn⟩ := List.mem_range'_1.1 hb
    cases rest with
    | nil =>
      rw [← Text.byteLength_toList, h, List.append_nil, List.append_nil] at hn
      omega
    | cons c rest =>
      have := hnext c rfl
      rw [not_isValid h (by omega) (by omega)]
      exact Bool.false_ne_true
  | cons c line ih =>
    have hfront : Text.byteLength (front ++ [c]) = Text.byteLength front + c.utf8Size := by simp
    have hrest := @ih (front ++ [c]) (by simpa using h) (by simpa using hle) (by simpa using hnext)
    have hsplit : n - Text.byteLength front =
        c.utf8Size + (n - (Text.byteLength front + c.utf8Size)) := by
      simp only [Text.byteLength_append, Text.byteLength_cons] at hle
      omega
    rw [hfront] at hrest
    rw [hsplit, ← List.range'_append_1, List.countP_append, hrest, countP_char h, List.length_cons,
      Nat.add_comm]

end

theorem start?_succ {table : Array Nat} {n k size : Nat} (h : Behind table n k) (hn : n ≤ size) :
    ∃ next, start? table size (k + 1) = some next ∧ n ≤ next := by
  have hk := h.lt_size
  unfold start?
  by_cases hlt : k + 1 < table.size
  · have hgt := h.gt (k + 1) (Nat.lt_succ_self k) hlt
    rw [Array.getD_eq_getD_getElem?, Array.getElem?_eq_getElem hlt] at hgt
    rw [if_pos hlt, Array.getElem?_eq_getElem hlt]
    exact ⟨_, rfl, Nat.le_of_lt hgt⟩
  · rw [if_neg hlt, if_pos (by omega)]
    exact ⟨size, rfl, hn⟩

/-- Every offset in a text is found, and at its position. -/
theorem lookup?_eq (s : Source) {n : Nat} (hn : n ≤ s.text.utf8ByteSize) :
    lookup? s.text n = some (s.position n) := by
  obtain ⟨rest, hchars, hle, hnext⟩ := Text.exists_passed s.chars n
  obtain ⟨front, line, hlast⟩ := exists_lastLine (Text.passed s.chars n)
  obtain ⟨earlier, hstarts, hcount⟩ := hlast.starts
  let later := startsFrom (Text.byteLength (Text.passed s.chars n)) rest
  have hlist : 0 :: startsFrom 0 s.chars = earlier ++ Text.byteLength front :: later := by
    rw [hchars, startsFrom_append, Nat.zero_add, ← List.cons_append, hstarts, List.append_assoc]
    rfl
  have htable : starts s.text = (earlier ++ Text.byteLength front :: later).toArray :=
    congrArg List.toArray hlist
  have hbehind : Behind (starts s.text) n (front.count '\n') := by
    rw [htable, ← hcount]
    refine behind_of_append ?_ ?_ fun m hm => ?_
    · rw [← hlist]
      exact List.pairwise_cons.2
        ⟨fun m hm => (bounds_of_mem_startsFrom hm).2.1, pairwise_startsFrom⟩
    · rw [hlast.eq_append, Text.byteLength_append] at hle
      omega
    · cases rest with
      | nil => exact absurd hm List.not_mem_nil
      | cons c rest =>
        exact Nat.lt_of_lt_of_le (hnext c rfl) ((bounds_of_mem_startsFrom hm).1 c rfl)
  have hfirst : start? (starts s.text) s.text.utf8ByteSize (front.count '\n') =
      some (Text.byteLength front) := by
    rw [start?, if_pos hbehind.lt_size, htable, List.getElem?_toArray, ← hcount,
      List.getElem?_append_right (Nat.le_refl _), Nat.sub_self]
    rfl
  obtain ⟨next, hstop, hbefore⟩ := start?_succ hbehind hn
  have hcolumn : boundaries s.text (Text.byteLength front) n = line.length := by
    rw [hlast.eq_append] at hle hnext
    refine boundaries_eq ?_ hle hn hnext
    rw [← List.append_assoc, ← hlast.eq_append]
    exact hchars
  rw [Source.position_eq, hlast.foldl_next]
  simp only [lookup?, index?_of_behind hbehind, hfirst, hstop, Option.bind_eq_bind,
    Option.bind_some, Option.pure_def, Nat.min_eq_left (Nat.le_min.2 ⟨hbefore, hn⟩), hcolumn,
    Nat.add_comm]

end Lines

/-- Line and column are a faithful address. A span is located by the positions of its ends. The
position of an offset, cut down to the end of the text if it lies behind it, is the one that
counting gives; looking it up in the table of lines never fails and finds the same. Positions
never go back as offsets grow, tell any two boundaries between characters apart, and are that
of the end for all offsets behind it. -/
theorem Source.locate_faithful (s : Source) :
    (∀ span, s.locate span = ⟨s.name, span, s.position span.start, s.position span.stop⟩) ∧
    (∀ n, s.position n = s.address (min n s.text.utf8ByteSize) ∧
      Lines.lookup? s.text (min n s.text.utf8ByteSize) = some (s.position n)) ∧
    (∀ m n, m ≤ n → s.position m = s.position n ∨ (s.position m).Precedes (s.position n)) ∧
    (∀ m n, String.Pos.Raw.IsValid s.text ⟨m⟩ → String.Pos.Raw.IsValid s.text ⟨n⟩ →
      s.position m = s.position n → m = n) ∧
    ∀ n, s.text.utf8ByteSize ≤ n → s.position n = s.position s.text.utf8ByteSize := by
  have hclamp (n : Nat) : s.position (min n s.text.utf8ByteSize) = s.position n := by
    rw [← Text.byteLength_toList]
    exact s.position_min n
  refine ⟨fun _ => rfl, fun n => ⟨?_, ?_⟩, fun _ _ => s.position_mono, fun _ _ => eq_of_position_eq,
    fun n hn => ?_⟩
  · rw [← hclamp n, position_eq_address]
  · rw [Lines.lookup?_eq s (Nat.min_le_right _ _), hclamp]
  · rw [← hclamp n, Nat.min_eq_right hn]

/-- Offset 2 is inside a character, offset 4 begins a line, and 99 lies behind the end. -/
theorem Source.locate_faithful_accent :
    let s : Source := ⟨"main", "aé\nb"⟩
    (List.range 6).map s.position = [⟨1, 1⟩, ⟨1, 2⟩, ⟨1, 2⟩, ⟨1, 3⟩, ⟨2, 1⟩, ⟨2, 2⟩] ∧
      (s.position 2 = s.position 3 ∨ (s.position 2).Precedes (s.position 3)) ∧
      (s.position 3 = s.position 4 → 3 = 4) ∧ s.position 99 = s.position 5 := by
  intro s
  obtain ⟨_, _, hmono, hinj, hend⟩ := locate_faithful s
  exact ⟨by decide, hmono 2 3 (by decide), hinj 3 4 (by decide +kernel) (by decide +kernel),
    hend 99 (by decide)⟩

end ScriptCheck
