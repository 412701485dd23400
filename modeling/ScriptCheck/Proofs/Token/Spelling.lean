import ScriptCheck.Reading.Expr
import ScriptCheck.Proofs.Token.Pieces

/-!
# Spelling tokens

Every token has a spelling, and scanning finds the token again wherever a space or the end
of the text follows. So a list of tokens can be written with single spaces between them: the
pieces of that text are these tokens, and nothing else.
-/
namespace ScriptCheck

/-- The words that cannot be names. -/
def Token.reserved : List String :=
  ["def", "is", "end", "var", "return", "true", "false", "and", "or", "not", "Int32", "Bool",
    "Void"]

/-! ## Characters -/

namespace Scan

variable {c : Char}

/-- `[a-zA-Z_]` -/
def Letter (c : Char) : Prop := 'a' ≤ c ∧ c ≤ 'z' ∨ 'A' ≤ c ∧ c ≤ 'Z' ∨ c = '_'

/-- `[0-9]` -/
def Digit (c : Char) : Prop := '0' ≤ c ∧ c ≤ '9'

theorem isDigit_iff : c.isDigit = true ↔ Digit c := by
  simp [Char.isDigit, Digit, Char.le_def]

theorem isNameStart_iff : isNameStart c = true ↔ Letter c := by
  have hupper : c.isUpper = decide ('A' ≤ c ∧ c ≤ 'Z') := rfl
  have hlower : c.isLower = (decide ('a' ≤ c) && decide (c ≤ 'z')) := rfl
  have halpha : c.isAlpha = (c.isUpper || c.isLower) := rfl
  simp only [isNameStart, halpha, hupper, hlower, Letter, Bool.or_eq_true, Bool.and_eq_true,
    decide_eq_true_eq, beq_iff_eq]
  constructor
  · rintro ((h | h) | h)
    · exact .inr (.inl h)
    · exact .inl h
    · exact .inr (.inr h)
  · rintro (h | h | h)
    · exact .inl (.inr h)
    · exact .inl (.inl h)
    · exact .inr h

theorem isNamePart_iff : isNamePart c = true ↔ Letter c ∨ Digit c := by
  rw [← isNameStart_iff, ← isDigit_iff]
  simp only [isNamePart, isNameStart, Char.isAlphanum, Bool.or_eq_true]
  exact or_right_comm

theorem isBlank_iff : isBlank c = true ↔ c ∈ [' ', '\t', '\n', '\r', '\x0c'] := by
  simp [isBlank, or_assoc]

end Scan

/-- A letter or underscore, then letters, digits and underscores. -/
def Scan.isWord (w : String) : Bool :=
  match w.toList with
  | [] => false
  | c :: cs => isNameStart c && cs.all isNamePart

/-- May a script call something so? -/
def Scan.isName (w : String) : Bool := isWord w && !Token.reserved.contains w

namespace Token

/-- How a token is written. -/
def spelling : Token → String
  | .defWord => "def"
  | .isWord => "is"
  | .endWord => "end"
  | .varWord => "var"
  | .returnWord => "return"
  | .trueWord => "true"
  | .falseWord => "false"
  | .andOp => "and"
  | .orOp => "or"
  | .notOp => "not"
  | .int32Word => "Int32"
  | .boolWord => "Bool"
  | .voidWord => "Void"
  | .name spelling => spelling
  | .number digits => digits
  | .plus => "+"
  | .minus => "-"
  | .star => "*"
  | .slash => "/"
  | .percent => "%"
  | .equal => "=="
  | .notEqual => "!="
  | .less => "<"
  | .greater => ">"
  | .lessEqual => "<="
  | .greaterEqual => ">="
  | .becomes => ":="
  | .openParen => "("
  | .closeParen => ")"
  | .semicolon => ";"
  | .comma => ","
  | .colon => ":"

/-- The word is scanned as the token, all of it, in front of a space or the end. -/
def Scans (w : String) (t : Token) : Prop :=
  ∃ c cs, w.toList = c :: cs ∧
    ∀ rest : List Char, (∀ d ∈ rest.head?, d = ' ') → Scan.cut c (cs ++ rest) = (.token t, cs)

/-! ## Words and numbers -/

section

variable {w : String} {c d : Char} {cs rest : List Char}

theorem takeWhile_append_of_head {p : Char → Bool} (hcs : ∀ d ∈ cs, p d = true)
    (hrest : ∀ d ∈ rest.head?, p d = false) : (cs ++ rest).takeWhile p = cs := by
  rw [List.takeWhile_append_of_pos hcs]
  cases rest with
  | nil => exact List.append_nil cs
  | cons d rest => simp [hrest d rfl]

theorem takeWhile_append_space {p : Char → Bool} (hspace : p ' ' = false)
    (hcs : ∀ d ∈ cs, p d = true) (hrest : ∀ d ∈ rest.head?, d = ' ') :
    (cs ++ rest).takeWhile p = cs :=
  takeWhile_append_of_head hcs fun d hd => by rw [hrest d hd, hspace]

theorem isBlank_eq_false {p : Char → Bool} (hp : [' ', '\t', '\n', '\r', '\x0c'].any p = false)
    (h : p c = true) : Scan.isBlank c = false := by
  refine Bool.eq_false_iff.2 fun hblank => ?_
  exact Bool.eq_false_iff.1 hp (List.any_eq_true.2 ⟨c, Scan.isBlank_iff.1 hblank, h⟩)

theorem isNameStart_of_isDigit (h : c.isDigit = true) : Scan.isNameStart c = false := by
  refine Bool.eq_false_iff.2 fun hstart => ?_
  have hdigit : c.val.toNat ≤ '9'.val.toNat := UInt32.le_iff_toNat_le.1 (Scan.isDigit_iff.1 h).2
  have h9 : '9'.val.toNat = 57 := rfl
  have hA : 'A'.val.toNat = 65 := rfl
  have ha : 'a'.val.toNat = 97 := rfl
  rcases Scan.isNameStart_iff.1 hstart with ⟨hlower, _⟩ | ⟨hupper, _⟩ | rfl
  · have := UInt32.le_iff_toNat_le.1 hlower
    omega
  · have := UInt32.le_iff_toNat_le.1 hupper
    omega
  · revert h
    decide

/-- A word is scanned as one token. -/
theorem scans_ofWord (h : Scan.isWord w = true) : Scans w (ofWord w) := by
  unfold Scan.isWord at h
  cases hw : w.toList with
  | nil => simp [hw] at h
  | cons c cs =>
    simp only [hw, Bool.and_eq_true, List.all_eq_true] at h
    obtain ⟨hstart, hpart⟩ := h
    refine ⟨c, cs, hw, fun rest hrest => ?_⟩
    have hmore := takeWhile_append_space (by decide) hpart hrest
    unfold Scan.cut
    rw [if_neg (Bool.eq_false_iff.1 (isBlank_eq_false rfl hstart)), if_pos hstart]
    simp only [hmore, ← hw, String.ofList_toList]

theorem ofWord_of_not_reserved (h : w ∉ reserved) : ofWord w = .name w := by
  unfold ofWord
  split
  case h_14 => rfl
  all_goals exact absurd (by decide) h

theorem scans_name (h : Scan.isName w = true) : Scans w (.name w) := by
  simp only [Scan.isName, Bool.and_eq_true, Bool.not_eq_true', List.contains_eq_mem,
    decide_eq_false_iff_not] at h
  rw [← ofWord_of_not_reserved h.2]
  exact scans_ofWord h.1

/-- Digits in a row are scanned as one token. -/
theorem scans_digits (hne : w.toList ≠ []) (hdigits : ∀ c ∈ w.toList, c.isDigit = true) :
    Scans w (.number w) := by
  cases hw : w.toList with
  | nil => exact absurd hw hne
  | cons c cs =>
    obtain ⟨hc, hcs⟩ := List.forall_mem_cons.1 (hw ▸ hdigits)
    refine ⟨c, cs, hw, fun rest hrest => ?_⟩
    have hmore := takeWhile_append_space (by decide) hcs hrest
    unfold Scan.cut
    rw [if_neg (Bool.eq_false_iff.1 (isBlank_eq_false rfl hc)),
      if_neg (Bool.eq_false_iff.1 (isNameStart_of_isDigit hc)), if_pos hc]
    simp only [hmore, ← hw, String.ofList_toList]

theorem scans_number (n : Nat) : Scans (toString n) (.number (toString n)) := by
  have hchars : (toString n).toList = Nat.toDigits 10 n := Nat.toList_repr
  refine scans_digits (fun h => Nat.toDigits_ne_nil (hchars.symm.trans h)) fun c hc => ?_
  rw [hchars] at hc
  exact Nat.isDigit_of_mem_toDigits (by decide) (by decide) hc

end

/-- A number is the value of its digits. -/
theorem decimal_toString (n : Nat) : decimal (toString n) = n := by
  have hchars : (toString n).toList = Nat.toDigits 10 n := Nat.toList_repr
  rw [decimal, hchars, ← Nat.ofDigitChars_eq_foldl]
  exact Nat.ofDigitChars_ten_toDigits

/-! ## Symbols -/

/-- No word, number or gap begins with the character. -/
def isSymbol (c : Char) : Bool := !Scan.isBlank c && !Scan.isNameStart c && !c.isDigit

theorem cut_symbol {c : Char} (h : isSymbol c = true) (cs : List Char) :
    Scan.cut c cs =
      match cs with
      | [] => (Scan.single c, [])
      | d :: ds =>
        if c = '/' ∧ d = '/' then (.gap, d :: ds.takeWhile (· != '\n'))
        else
          match ofPair c d with
          | some t => (.token t, [d])
          | none => (Scan.single c, []) := by
  simp only [isSymbol, Bool.and_eq_true, Bool.not_eq_true'] at h
  unfold Scan.cut
  refine (if_neg (by simp [h.1.1])).trans
    ((if_neg (by simp [h.1.2])).trans ((if_neg (by simp [h.2])).trans ?_))
  cases cs <;> rfl

/-- A character that makes a token, and makes none with a space behind it. -/
theorem scans_single {w : String} {t : Token} {c : Char} (hw : w.toList = [c])
    (hc : isSymbol c = true) (ht : ofSingle c = some t) (hpair : ofPair c ' ' = none) :
    Scans w t := by
  refine ⟨c, [], hw, fun rest hrest => ?_⟩
  have hsingle : Scan.single c = .token t := by rw [Scan.single, ht]
  rw [List.nil_append, cut_symbol hc, hsingle]
  cases rest with
  | nil => rfl
  | cons d rest =>
    obtain rfl : d = ' ' := hrest d rfl
    simp [hpair]

/-- Two characters that make a token together. -/
theorem scans_pair {w : String} {t : Token} {c d : Char} (hw : w.toList = [c, d])
    (hc : isSymbol c = true) (hd : d ≠ '/') (ht : ofPair c d = some t) : Scans w t := by
  refine ⟨c, [d], hw, fun rest _ => ?_⟩
  rw [List.singleton_append, cut_symbol hc]
  simp [hd, ht]

/-- Every token but a name and a number is spelled in one way. -/
def isFixed : Token → Bool
  | .name _ | .number _ => false
  | _ => true

theorem scans_of_isFixed {t : Token} (h : t.isFixed = true) : Scans t.spelling t := by
  cases t
  case name | number => cases h
  case equal | notEqual | lessEqual | greaterEqual | becomes =>
    exact scans_pair rfl rfl (by decide) rfl
  case plus | minus | star | slash | percent | less | greater | openParen | closeParen
      | semicolon | comma | colon =>
    exact scans_single rfl rfl rfl rfl
  -- The reserved words are left.
  all_goals exact scans_ofWord (by decide)

end Token

/-! ## Texts -/

/-- The tokens as a text, with single spaces between them. -/
def Token.text (ts : List Token) : String := " ".intercalate (ts.map spelling)

namespace Piece

/-- A word that spells a token is one piece, and scanning goes on behind it. -/
theorem scanFrom_spelled {w : String} {t : Token} (h : Token.Scans w t) (offset : Nat)
    (rest : List Char) (hrest : ∀ d ∈ rest.head?, d = ' ') :
    scanFrom offset (w.toList ++ rest) =
      .token ⟨t, ⟨offset, offset + Text.byteLength w.toList⟩⟩ ::
        scanFrom (offset + Text.byteLength w.toList) rest := by
  obtain ⟨c, cs, hw, hcut⟩ := h
  rw [hw]
  exact scanFrom_of_cut (hcut rest hrest)

theorem scanFrom_space (offset : Nat) (cs : List Char) :
    scanFrom offset (' ' :: cs) = scanFrom (offset + 1) cs := by
  rw [scanFrom]
  rfl

/-- Spelled tokens with single spaces between them are scanned as these tokens. -/
theorem exists_scan_text {ts : List Token} (h : ∀ t ∈ ts, Token.Scans t.spelling t) :
    ∃ ls : List Lexeme, scan (Token.text ts) = ls.map .token ∧ ls.map (·.token) = ts := by
  suffices hfrom : ∀ offset, ∃ ls : List Lexeme,
      scanFrom offset ([' '].intercalate (ts.map (·.spelling.toList))) = ls.map .token ∧
        ls.map (·.token) = ts by
    rw [scan, Token.text, String.toList_intercalate, List.map_map]
    exact hfrom 0
  induction ts with
  | nil => exact fun offset => ⟨[], by simp [scanFrom], rfl⟩
  | cons t ts ih =>
    obtain ⟨ht, hts⟩ := List.forall_mem_cons.1 h
    intro offset
    cases ts with
    | nil =>
      refine ⟨[⟨t, ⟨offset, offset + Text.byteLength t.spelling.toList⟩⟩], ?_, rfl⟩
      have hscan := scanFrom_spelled ht offset [] (by simp)
      rw [List.append_nil] at hscan
      simp [hscan, scanFrom]
    | cons t' ts =>
      obtain ⟨ls, hls, htokens⟩ := ih hts (offset + Text.byteLength t.spelling.toList + 1)
      refine ⟨⟨t, ⟨offset, offset + Text.byteLength t.spelling.toList⟩⟩ :: ls, ?_,
        congrArg (t :: ·) htokens⟩
      rw [List.map_cons] at hls
      rw [List.map_cons, List.map_cons, List.intercalate_cons_cons, List.append_assoc,
        scanFrom_spelled ht _ _ (by simp), List.singleton_append, scanFrom_space, hls]
      rfl

end Piece

end ScriptCheck
