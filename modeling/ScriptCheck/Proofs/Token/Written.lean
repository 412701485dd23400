import ScriptCheck.Proofs.Token.Slices
import ScriptCheck.Proofs.Token.Stream

/-!
# Tokens written with gaps between them

The logical operators have two spellings each, all other tokens have one. Between two spellings
stands a separator: a blank, and then blanks and comments that end with their line. However
spellings and separators are chosen, the text has the tokens that were written, where they were
written, and nothing else.
-/
namespace ScriptCheck

open Scan

/-! ## Spellings -/

namespace Token

/-- The ways to write a token. -/
def spellings : Token → List String
  | .andOp => ["and", "&&"]
  | .orOp => ["or", "||"]
  | .notOp => ["not", "!"]
  | t => [t.spelling]

/-- Names and numbers keep their spelling. Is it one that a name or a number can have? -/
def isWritable : Token → Bool
  | .name w => isName w
  | .number digits => !digits.toList.isEmpty && digits.toList.all Char.isDigit
  | _ => true

/-- A token in one of its spellings. -/
structure Written where
  token : Token
  word : String
  writable : token.isWritable = true
  spelled : word ∈ token.spellings

variable {t : Token} {w : String} {part rest : List Char}

theorem scans_of_mem_spellings (ht : t.isWritable = true) (hw : w ∈ t.spellings) : Scans w t := by
  by_cases hfixed : t.isFixed = true
  · have hone (h : t.spellings = [t.spelling]) : Scans w t := by
      rw [h, List.mem_singleton] at hw
      rw [hw]
      exact scans_of_isFixed hfixed
    have htwo {v : String} (h : t.spellings = [t.spelling, v]) (hv : Scans v t) : Scans w t := by
      rw [h, List.mem_cons, List.mem_singleton] at hw
      rcases hw with rfl | rfl
      · exact scans_of_isFixed hfixed
      · exact hv
    cases t with
    | andOp => exact htwo rfl (scans_pair rfl rfl (by decide) rfl)
    | orOp => exact htwo rfl (scans_pair rfl rfl (by decide) rfl)
    | notOp => exact htwo rfl (scans_single rfl rfl rfl rfl)
    | name | number => cases hfixed
    | _ => exact hone rfl
  · cases t with
    | name x =>
      obtain rfl := List.mem_singleton.1 hw
      exact scans_name ht
    | number digits =>
      obtain rfl := List.mem_singleton.1 hw
      simp only [isWritable, Bool.and_eq_true, Bool.not_eq_true', List.isEmpty_eq_false_iff,
        List.all_eq_true] at ht
      exact scans_digits ht.1 ht.2
    | _ => exact absurd rfl hfixed

/-- What is scanned as a token is what its pattern says. -/
theorem Scans.wins (h : Scans w t) : t.Wins w.toList := by
  obtain ⟨c, cs, hw, hcut⟩ := h
  have hright := cut_right c cs
  have hall := hcut [] (by simp)
  rw [List.append_nil] at hall
  rw [hall] at hright
  rw [hw]
  exact hright.1

/-- No pattern of a token matches a blank. -/
theorem Matches.isBlank_eq_false {c : Char} (h : t.Matches part) (hc : c ∈ part) :
    isBlank c = false := by
  cases part with
  | nil => cases hc
  | cons d more =>
    have hform := matches_iff_form.1 h
    rcases List.mem_cons.1 hc with rfl | hc
    · exact isBlank_of_form hform
    · cases hform with
      | word _ hmore => exact Token.isBlank_eq_false rfl (hmore c hc)
      | number _ hmore => exact Token.isBlank_eq_false rfl (hmore c hc)
      | single _ _ hmore =>
        subst hmore
        cases hc
      | pair d' _ ht hmore =>
        subst hmore
        obtain rfl := List.mem_singleton.1 hc
        unfold ofPair at ht
        split at ht
        case h_8 => cases ht
        all_goals rfl

/-- In front of a blank or the end nothing longer than a token matches. -/
theorem Wins.longest (h : t.Wins part) (hrest : ∀ c ∈ rest.head?, isBlank c = true) :
    Longest part rest := by
  intro other hp hother
  refine Nat.le_of_not_lt fun hlt => ?_
  -- A longer match has the token and the blank behind it at its front.
  obtain ⟨more, rfl⟩ :=
    List.prefix_of_prefix_length_le (List.prefix_append part rest) hp (Nat.le_of_lt hlt)
  cases more with
  | nil => simp at hlt
  | cons c more =>
    have hblank : isBlank c = true := by
      obtain ⟨after, rfl⟩ := (List.prefix_append_right_inj part).1 hp
      exact hrest c rfl
    cases part with
    | nil => exact not_matches_nil h.1
    | cons d ds =>
      have hform := matches_iff_form.1 h.1
      rcases hother with ⟨t', h'⟩ | hblanks | ⟨body, hbody, _⟩
      · have := h'.isBlank_eq_false (List.mem_append_right _ List.mem_cons_self)
        rw [hblank] at this
        cases this
      · have := isBlank_iff.2 (hblanks.2 d List.mem_cons_self)
        rw [isBlank_of_form hform] at this
        cases this
      · cases ds with
        | nil =>
          cases hbody
          cases hblank
        | cons e ds =>
          cases hbody
          exact not_form_comment hform

end Token

/-! ## Separators -/

namespace Scan

/-- Blanks, and comments that end with their line, in any order. -/
inductive Gap : List Char → Prop
  | nil : Gap []
  | blank {c : Char} {cs : List Char} : isBlank c = true → Gap cs → Gap (c :: cs)
  | comment {body cs : List Char} : '\n' ∉ body → Gap cs →
    Gap ('/' :: '/' :: body ++ '\n' :: cs)

/-- What stands between two tokens. It begins with a blank, since a slash behind a slash would
take both into a comment. -/
structure Separator where
  first : Char
  more : List Char
  blank : isBlank first = true
  gap : Gap more

def Separator.chars (sep : Separator) : List Char := sep.first :: sep.more

end Scan

namespace Piece

/-- A gap leaves no piece. -/
theorem scanFrom_gap {cs : List Char} (h : Gap cs) (n : Nat) (rest : List Char) :
    scanFrom n (cs ++ rest) = scanFrom (n + Text.byteLength cs) rest := by
  have hone {c : Char} (hc : isBlank c = true) (n : Nat) (cs : List Char) :
      scanFrom n (c :: cs) = scanFrom (n + c.utf8Size) cs :=
    @scanFrom_blanks n [c] cs (by simpa using hc)
  induction h generalizing n with
  | nil => rfl
  | @blank c cs hc _ ih =>
    rw [List.cons_append, hone hc, ih, Text.byteLength_cons, Nat.add_assoc]
  | @comment body cs hbody _ ih =>
    have hline : ∀ c ∈ ('\n' :: (cs ++ rest)).head?, c = '\n' := by simp
    have hparts : ('/' :: '/' :: body ++ '\n' :: cs) ++ rest =
        '/' :: ('/' :: body) ++ '\n' :: (cs ++ rest) := List.append_assoc _ _ _
    rw [hparts, scanFrom_of_cut (cut_comment hbody hline), ofCut, List.nil_append, hone rfl, ih,
      Text.byteLength_append, Text.byteLength_cons '\n', Nat.add_assoc, Nat.add_assoc]

theorem scanFrom_separator (sep : Separator) (n : Nat) (rest : List Char) :
    scanFrom n (sep.chars ++ rest) = scanFrom (n + Text.byteLength sep.chars) rest :=
  scanFrom_gap (.blank sep.blank sep.gap) n rest

/-- A written token is one piece, if a blank or the end follows. -/
theorem scanFrom_written (w : Token.Written) (n : Nat) {rest : List Char}
    (hrest : ∀ c ∈ rest.head?, isBlank c = true) :
    scanFrom n (w.word.toList ++ rest) =
      .token ⟨w.token, ⟨n, n + w.word.utf8ByteSize⟩⟩ ::
        scanFrom (n + w.word.utf8ByteSize) rest := by
  have hwins := (Token.scans_of_mem_spellings w.writable w.spelled).wins
  rw [← Text.byteLength_toList]
  cases hword : w.word.toList with
  | nil =>
    rw [hword] at hwins
    exact absurd hwins.1 Token.not_matches_nil
  | cons c more =>
    rw [hword] at hwins
    exact scanFrom_of_cut (cut_eq_token hwins (hwins.longest hrest))

end Piece

/-! ## Texts -/

namespace Token.Written

/-- Written tokens in a row, with the separators `gaps 0`, `gaps 1`, ... between them. -/
def chars (gaps : Nat → Separator) : List Written → List Char
  | [] => []
  | [w] => w.word.toList
  | w :: v :: ws => w.word.toList ++ ((gaps 0).chars ++ chars (fun i => gaps (i + 1)) (v :: ws))

def text (gaps : Nat → Separator) (ws : List Written) : String := String.ofList (chars gaps ws)

/-- The tokens in the places where they are written, the first one at byte `n`. -/
def lexemes (gaps : Nat → Separator) (n : Nat) : List Written → List Lexeme
  | [] => []
  | w :: ws =>
    ⟨w.token, ⟨n, n + w.word.utf8ByteSize⟩⟩ ::
      lexemes (fun i => gaps (i + 1)) (n + w.word.utf8ByteSize + Text.byteLength (gaps 0).chars) ws

theorem scanFrom_chars (gaps : Nat → Separator) (n : Nat) (ws : List Written) :
    Piece.scanFrom n (chars gaps ws) = (lexemes gaps n ws).map .token := by
  induction ws generalizing gaps n with
  | nil => rw [chars, Piece.scanFrom]; rfl
  | cons w ws ih =>
    cases ws with
    | nil =>
      rw [chars, ← List.append_nil w.word.toList, Piece.scanFrom_written w n (by simp),
        Piece.scanFrom]
      rfl
    | cons v ws =>
      have hblank : ∀ c ∈ ((gaps 0).chars ++ chars (fun i => gaps (i + 1)) (v :: ws)).head?,
          isBlank c = true := by
        intro c hc
        cases hc
        exact (gaps 0).blank
      rw [chars, Piece.scanFrom_written w n hblank, Piece.scanFrom_separator, ih]
      rfl

theorem map_token_lexemes (gaps : Nat → Separator) (n : Nat) (ws : List Written) :
    (lexemes gaps n ws).map (·.token) = ws.map (·.token) := by
  induction ws generalizing gaps n with
  | nil => rfl
  | cons w ws ih => rw [lexemes, List.map_cons, List.map_cons, ih]

/-- Where a token is said to stand, its spelling stands. -/
theorem map_slice_lexemes {all : String} {front : List Char} {gaps : Nat → Separator}
    {ws : List Written} (h : all.toList = front ++ chars gaps ws) :
    (lexemes gaps (Text.byteLength front) ws).map (fun l => Text.slice? all l.span) =
      ws.map (some ·.word) := by
  induction ws generalizing gaps front with
  | nil => rfl
  | cons w ws ih =>
    have hword {rest : List Char} (h : all.toList = front ++ (w.word.toList ++ rest)) :
        Text.slice? all ⟨Text.byteLength front, Text.byteLength front + w.word.utf8ByteSize⟩ =
          some w.word := by
      rw [Text.slice?_of_append h rfl (by rw [Text.byteLength_toList]), String.ofList_toList]
    cases ws with
    | nil =>
      rw [chars, ← List.append_nil w.word.toList] at h
      rw [lexemes, List.map_cons, hword h]
      rfl
    | cons v ws =>
      rw [chars] at h
      have hoffset : Text.byteLength front + w.word.utf8ByteSize +
          Text.byteLength (gaps 0).chars =
            Text.byteLength (front ++ w.word.toList ++ (gaps 0).chars) := by
        rw [Text.byteLength_append, Text.byteLength_append, Text.byteLength_toList]
      have hmore : all.toList = (front ++ w.word.toList ++ (gaps 0).chars) ++
          chars (fun i => gaps (i + 1)) (v :: ws) := by
        rw [h, List.append_assoc, List.append_assoc]
      rw [lexemes, List.map_cons, hword h, hoffset, ih hmore]
      rfl

end Token.Written

/-- Whatever tokens are written, in whatever spellings and with whatever separators between them,
the text has these tokens and no fault, each where its spelling stands. -/
theorem Cursor.tokenize_written (gaps : Nat → Separator) (ws : List Token.Written) :
    Piece.scan (Token.Written.text gaps ws) = (Token.Written.lexemes gaps 0 ws).map .token ∧
      (start (Token.Written.text gaps ws)).tokenize =
        .ok ⟨Token.Written.lexemes gaps 0 ws,
          .point (Token.Written.text gaps ws).utf8ByteSize⟩ ∧
      (Token.Written.lexemes gaps 0 ws).map (·.token) = ws.map (·.token) ∧
      (Token.Written.lexemes gaps 0 ws).map
          (fun l => Text.slice? (Token.Written.text gaps ws) l.span) =
        ws.map (some ·.word) := by
  have hchars : (Token.Written.text gaps ws).toList = Token.Written.chars gaps ws :=
    String.toList_ofList
  have hscan : Piece.scan (Token.Written.text gaps ws) =
      (Token.Written.lexemes gaps 0 ws).map .token := by
    rw [Piece.scan, hchars]
    exact Token.Written.scanFrom_chars gaps 0 ws
  refine ⟨hscan, ?_, Token.Written.map_token_lexemes gaps 0 ws,
    @Token.Written.map_slice_lexemes _ [] _ _ hchars⟩
  rw [tokenize_eq, pieces_start, hscan, eof_start, Piece.gather_map_token]

example :
    let sep : Separator :=
      ⟨'\t', _, rfl, @Gap.comment [' ', ':', '=', ' ', 'é'] [] (by decide) .nil⟩
    let ws : List Token.Written := [⟨.slash, "/", rfl, by decide⟩, ⟨.orOp, "||", rfl, by decide⟩,
      ⟨.name "or1", "or1", rfl, by decide⟩]
    Token.Written.text (fun _ => sep) ws = "/\t// := é\n||\t// := é\nor1" ∧
      Token.Written.lexemes (fun _ => sep) 0 ws =
        [⟨.slash, ⟨0, 1⟩⟩, ⟨.orOp, ⟨11, 13⟩⟩, ⟨.name "or1", ⟨23, 26⟩⟩] := by
  decide +kernel

end ScriptCheck
