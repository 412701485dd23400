import ScriptCheck.Proofs.Token.Spelling

/-!
# Longest matches

The patterns of the language, one per kind of token and two for what is skipped, said without
any order in which to try them. A cut takes the longest text at the front that some pattern
matches; of two tokens that match it, a reserved word goes before a name. Cutting on to the end
is the only way to part a text like that.
-/
namespace ScriptCheck

namespace Scan

/-! ## Patterns -/

/-- The words and symbols that are tokens as they stand. -/
def fixed : List (String × Token) :=
  [("def", .defWord), ("is", .isWord), ("end", .endWord), ("var", .varWord),
    ("return", .returnWord), ("true", .trueWord), ("false", .falseWord), ("and", .andOp),
    ("&&", .andOp), ("or", .orOp), ("||", .orOp), ("not", .notOp), ("!", .notOp),
    ("Int32", .int32Word), ("Bool", .boolWord), ("Void", .voidWord), ("+", .plus), ("-", .minus),
    ("*", .star), ("/", .slash), ("%", .percent), ("==", .equal), ("!=", .notEqual), ("<", .less),
    (">", .greater), ("<=", .lessEqual), (">=", .greaterEqual), (":=", .becomes),
    ("(", .openParen), (")", .closeParen), (";", .semicolon), (",", .comma), (":", .colon)]

/-- `[ \t\n\r\f]+` -/
def Blanks (cs : List Char) : Prop :=
  cs ≠ [] ∧ ∀ c ∈ cs, c ∈ [' ', '\t', '\n', '\r', '\x0c']

/-- `//[^\n]*` -/
def Comment (cs : List Char) : Prop := ∃ body, cs = '/' :: '/' :: body ∧ '\n' ∉ body

end Scan

open Scan

/-- The pattern of a token matches these characters, all of them. -/
inductive Token.Matches : Token → List Char → Prop
  | fixed {w : String} {t : Token} : (w, t) ∈ Scan.fixed → Matches t w.toList
  | name {c : Char} {cs : List Char} : Letter c → (∀ d ∈ cs, Letter d ∨ Digit d) →
    Matches (.name (String.ofList (c :: cs))) (c :: cs)
  | number {c : Char} {cs : List Char} : Digit c → (∀ d ∈ cs, Digit d) →
    Matches (.number (String.ofList (c :: cs))) (c :: cs)

/-- Some pattern, of a token or of what is skipped, matches these characters. -/
def Scan.Matched (cs : List Char) : Prop := (∃ t, Token.Matches t cs) ∨ Blanks cs ∨ Comment cs

/-- No pattern matches more of the text `part ++ rest` from its front than `part`. -/
def Scan.Longest (part rest : List Char) : Prop :=
  ∀ other, other <+: part ++ rest → Matched other → other.length ≤ part.length

/-- The token matches, and whatever else does is the name that is spelled so: a reserved word
wins over it. -/
def Token.Wins (t : Token) (part : List Char) : Prop :=
  Matches t part ∧ ∀ t', Matches t' part → t' = t ∨ t' = .name (String.ofList part)

/-! ## What a match looks like -/

/-- The ways in which a token can be written, by the first character. -/
inductive Token.Form (t : Token) (c : Char) (more : List Char) : Prop
  | word : isNameStart c = true → (∀ d ∈ more, isNamePart d = true) →
    t = ofWord (String.ofList (c :: more)) ∨ t = .name (String.ofList (c :: more)) → Form t c more
  | number : c.isDigit = true → (∀ d ∈ more, d.isDigit = true) →
    t = .number (String.ofList (c :: more)) → Form t c more
  | single : isSymbol c = true → ofSingle c = some t → more = [] → Form t c more
  | pair (d : Char) : isSymbol c = true → ofPair c d = some t → more = [d] → Form t c more

namespace Token

variable {t : Token} {c d : Char} {cs more : List Char}

/-- Which of the fixed spellings a character and the ones behind it are. -/
def isForm (t : Token) : List Char → Bool
  | [] => false
  | c :: more =>
    (isNameStart c && more.all isNamePart && t == ofWord (String.ofList (c :: more))) ||
      (isSymbol c &&
        match more with
        | [] => ofSingle c == some t
        | [d] => ofPair c d == some t
        | _ => false)

theorem form_of_isForm (h : isForm t (c :: more) = true) : Form t c more := by
  simp only [isForm, Bool.or_eq_true, Bool.and_eq_true, List.all_eq_true, beq_iff_eq] at h
  rcases h with ⟨⟨hc, hmore⟩, ht⟩ | ⟨hc, ht⟩
  · exact .word hc hmore (.inl ht)
  · split at ht
    · exact .single hc (beq_iff_eq.1 ht) rfl
    · next d => exact .pair d hc (beq_iff_eq.1 ht) rfl
    · cases ht

theorem all_isForm_fixed : Scan.fixed.all (fun p => isForm p.2 p.1.toList) = true := by
  decide +kernel

theorem mem_fixed_of_ofSingle (h : ofSingle c = some t) : (String.ofList [c], t) ∈ Scan.fixed := by
  unfold ofSingle at h
  split at h <;> cases h <;> decide

theorem mem_fixed_of_ofPair (h : ofPair c d = some t) : (String.ofList [c, d], t) ∈ Scan.fixed := by
  unfold ofPair at h
  split at h <;> cases h <;> decide

theorem all_reserved_fixed : reserved.all (fun w => Scan.fixed.contains (w, ofWord w)) = true := by
  decide +kernel

/-- The patterns of tokens, read by the first character. -/
theorem matches_iff_form : Matches t (c :: more) ↔ Form t c more := by
  constructor
  · intro h
    generalize hcs : c :: more = cs at h
    cases h with
    | @fixed w t h =>
      have hform := List.all_eq_true.1 all_isForm_fixed _ h
      rw [← hcs] at hform
      exact form_of_isForm hform
    | name hc hmore =>
      cases hcs
      exact .word (isNameStart_iff.2 hc) (fun d hd => isNamePart_iff.2 (hmore d hd)) (.inr rfl)
    | number hc hmore =>
      cases hcs
      exact .number (isDigit_iff.2 hc) (fun d hd => isDigit_iff.2 (hmore d hd)) rfl
  · intro h
    cases h with
    | word hc hmore ht =>
      have hname : Matches (.name (String.ofList (c :: more))) (c :: more) :=
        .name (isNameStart_iff.1 hc) fun d hd => isNamePart_iff.1 (hmore d hd)
      rcases ht with rfl | rfl
      · by_cases hw : String.ofList (c :: more) ∈ reserved
        · have hmem := List.contains_iff_mem.1 (List.all_eq_true.1 all_reserved_fixed _ hw)
          have hfixed := Matches.fixed hmem
          rwa [String.toList_ofList] at hfixed
        · rwa [ofWord_of_not_reserved hw]
      · exact hname
    | number hc hmore ht =>
      subst ht
      exact .number (isDigit_iff.1 hc) fun d hd => isDigit_iff.1 (hmore d hd)
    | single hc ht hmore =>
      subst hmore
      have hfixed := Matches.fixed (mem_fixed_of_ofSingle ht)
      rwa [String.toList_ofList] at hfixed
    | pair d hc ht hmore =>
      subst hmore
      have hfixed := Matches.fixed (mem_fixed_of_ofPair ht)
      rwa [String.toList_ofList] at hfixed

theorem not_matches_nil : ¬ Matches t [] := by
  intro h
  generalize hcs : ([] : List Char) = cs at h
  cases h with
  | @fixed w t h =>
    have hform := List.all_eq_true.1 all_isForm_fixed _ h
    rw [← hcs] at hform
    cases hform
  | name => cases hcs
  | number => cases hcs

theorem isSymbol_iff : isSymbol c = true ↔
    isBlank c = false ∧ isNameStart c = false ∧ c.isDigit = false := by
  simp [isSymbol, and_assoc]

theorem Form.of_isNameStart (h : Form t c more) (hc : isNameStart c = true) :
    (∀ d ∈ more, isNamePart d = true) ∧
      (t = ofWord (String.ofList (c :: more)) ∨ t = .name (String.ofList (c :: more))) := by
  cases h with
  | word _ hmore ht => exact ⟨hmore, ht⟩
  | number hdigit => simp [isNameStart_of_isDigit hdigit] at hc
  | single hs => simp [isSymbol_iff, hc] at hs
  | pair d hs => simp [isSymbol_iff, hc] at hs

theorem Form.of_isDigit (h : Form t c more) (hc : c.isDigit = true) :
    (∀ d ∈ more, d.isDigit = true) ∧ t = .number (String.ofList (c :: more)) := by
  cases h with
  | word hs => simp [isNameStart_of_isDigit hc] at hs
  | number _ hmore ht => exact ⟨hmore, ht⟩
  | single hs => simp [isSymbol_iff, hc] at hs
  | pair d hs => simp [isSymbol_iff, hc] at hs

theorem Form.of_isSymbol (h : Form t c more) (hc : isSymbol c = true) :
    more = [] ∧ ofSingle c = some t ∨ ∃ d, more = [d] ∧ ofPair c d = some t := by
  have hsymbol := isSymbol_iff.1 hc
  cases h with
  | word hs => simp [hsymbol] at hs
  | number hs => simp [hsymbol] at hs
  | single _ ht hmore => exact .inl ⟨hmore, ht⟩
  | pair d _ ht hmore => exact .inr ⟨d, hmore, ht⟩

theorem Wins.eq {t' : Token} (h : t.Wins cs) (h' : t'.Wins cs) : t' = t := by
  rcases h.2 t' h'.1 with ht' | ht'
  · exact ht'
  · rcases h'.2 t h.1 with ht | ht
    · exact ht.symm
    · exact ht'.trans ht.symm

end Token

namespace Scan

variable {t : Token} {c d : Char} {cs more rest part other : List Char}

/-- No token begins with a blank. -/
theorem isBlank_of_form (h : Token.Form t c more) : isBlank c = false := by
  cases h with
  | word hc => exact Token.isBlank_eq_false rfl hc
  | number hc => exact Token.isBlank_eq_false rfl hc
  | single hc => exact (Token.isSymbol_iff.1 hc).1
  | pair d hc => exact (Token.isSymbol_iff.1 hc).1

/-- A match that does not begin with a blank is a token or a comment. -/
theorem Matched.form_or_comment (h : Matched (c :: more)) (hc : isBlank c = false) :
    (∃ t, Token.Form t c more) ∨ c = '/' ∧ ∃ body, more = '/' :: body := by
  rcases h with ⟨t, h⟩ | h | ⟨body, h, _⟩
  · exact .inl ⟨t, Token.matches_iff_form.1 h⟩
  · have hblank := isBlank_iff.2 (h.2 c List.mem_cons_self)
    rw [hc] at hblank
    cases hblank
  · cases h
    exact .inr ⟨rfl, body, rfl⟩

/-- What else can stand where a word begins is a part of it. -/
theorem Matched.of_isNameStart (h : Matched (c :: more)) (hc : isNameStart c = true) :
    ∀ d ∈ more, isNamePart d = true := by
  rcases h.form_or_comment (Token.isBlank_eq_false rfl hc) with ⟨t, hform⟩ | ⟨rfl, _⟩
  · exact (hform.of_isNameStart hc).1
  · cases hc

theorem Matched.of_isDigit (h : Matched (c :: more)) (hc : c.isDigit = true) :
    ∀ d ∈ more, d.isDigit = true := by
  rcases h.form_or_comment (Token.isBlank_eq_false rfl hc) with ⟨t, hform⟩ | ⟨rfl, _⟩
  · exact (hform.of_isDigit hc).1
  · cases hc

theorem Matched.of_isSymbol (h : Matched (c :: more)) (hc : Token.isSymbol c = true) :
    more = [] ∧ (Token.ofSingle c).isSome = true ∨
      (∃ d, more = [d] ∧ (Token.ofPair c d).isSome = true) ∨
      c = '/' ∧ ∃ body, more = '/' :: body := by
  rcases h.form_or_comment (Token.isSymbol_iff.1 hc).1 with ⟨t, hform⟩ | hcomment
  · rcases hform.of_isSymbol hc with ⟨rfl, ht⟩ | ⟨d, rfl, ht⟩
    · exact .inl ⟨rfl, by rw [ht]; rfl⟩
    · exact .inr (.inl ⟨d, rfl, by rw [ht]; rfl⟩)
  · exact .inr (.inr hcomment)

theorem length_le_takeWhile {p : Char → Bool} (h : more <+: cs) (hmore : ∀ d ∈ more, p d = true) :
    more.length ≤ (cs.takeWhile p).length := by
  obtain ⟨rest, rfl⟩ := h
  rw [List.takeWhile_append_of_pos hmore, List.length_append]
  omega

theorem not_matched_nil : ¬ Matched [] := by
  rintro (⟨t, h⟩ | h | ⟨body, h, _⟩)
  · exact Token.not_matches_nil h
  · exact h.1 rfl
  · cases h

/-- A match at the front of a text begins with its first character. -/
theorem Matched.exists_cons (h : Matched other) (hp : other <+: c :: cs) :
    ∃ more, other = c :: more ∧ more <+: cs := by
  cases other with
  | nil => exact absurd h not_matched_nil
  | cons d more =>
    obtain ⟨rfl, hmore⟩ := List.cons_prefix_cons.1 hp
    exact ⟨more, rfl, hmore⟩

/-! ## Cuts -/

/-- The cut is what the patterns say of the front `part` of the text `part ++ rest`. -/
def Cut.Right (part rest : List Char) : Cut → Prop
  | .gap => Blanks part ∨ Comment part ∧ ∀ c ∈ rest.head?, c = '\n'
  | .token t => t.Wins part ∧ Longest part rest
  | .stray => part.length = 1 ∧ ∀ other, other <+: part ++ rest → ¬ Matched other

theorem longest_of_forall (hcs : more ++ rest = cs)
    (h : ∀ more', more' <+: cs → Matched (c :: more') → more'.length ≤ more.length) :
    Longest (c :: more) rest := by
  intro other hp hother
  rw [List.cons_append, hcs] at hp
  obtain ⟨more', rfl, hmore'⟩ := hother.exists_cons hp
  exact Nat.succ_le_succ (h more' hmore' hother)

theorem right_word (hc : isNameStart c = true) (hcs : cs.takeWhile isNamePart ++ rest = cs) :
    (Cut.token (.ofWord (String.ofList (c :: cs.takeWhile isNamePart)))).Right
      (c :: cs.takeWhile isNamePart) rest := by
  have hmore := List.all_eq_true.1 (List.all_takeWhile (p := isNamePart) (l := cs))
  refine ⟨⟨Token.matches_iff_form.2 (.word hc hmore (.inl rfl)), fun t' ht' => ?_⟩, ?_⟩
  · exact ((Token.matches_iff_form.1 ht').of_isNameStart hc).2
  · exact longest_of_forall hcs fun more' hmore' h =>
      length_le_takeWhile hmore' (h.of_isNameStart hc)

theorem right_number (hc : c.isDigit = true) (hcs : cs.takeWhile Char.isDigit ++ rest = cs) :
    (Cut.token (.number (String.ofList (c :: cs.takeWhile Char.isDigit)))).Right
      (c :: cs.takeWhile Char.isDigit) rest := by
  have hmore := List.all_eq_true.1 (List.all_takeWhile (p := Char.isDigit) (l := cs))
  refine ⟨⟨Token.matches_iff_form.2 (.number hc hmore rfl), fun t' ht' => ?_⟩, ?_⟩
  · exact .inl ((Token.matches_iff_form.1 ht').of_isDigit hc).2
  · exact longest_of_forall hcs fun more' hmore' h =>
      length_le_takeWhile hmore' (h.of_isDigit hc)

/-- A symbol that makes nothing with the character behind it. -/
theorem right_single (hc : Token.isSymbol c = true) (hcomment : ¬ (c = '/' ∧ cs.head? = some '/'))
    (hpair : ∀ d ∈ cs.head?, Token.ofPair c d = none) : (single c).Right [c] cs := by
  -- Whatever else a match may be, it is this one character.
  have honly (more : List Char) (hp : more <+: cs) (h : Matched (c :: more)) :
      more = [] ∧ (Token.ofSingle c).isSome = true := by
    have hhead {d : Char} {ds : List Char} (hds : d :: ds <+: cs) : cs.head? = some d := by
      obtain ⟨rest, rfl⟩ := hds
      rfl
    rcases h.of_isSymbol hc with honly | ⟨d, rfl, hsome⟩ | ⟨rfl, body, rfl⟩
    · exact honly
    · rw [hpair d (hhead hp)] at hsome
      cases hsome
    · exact absurd ⟨rfl, hhead hp⟩ hcomment
  cases ht : Token.ofSingle c with
  | some t =>
    rw [single, ht]
    refine ⟨⟨Token.matches_iff_form.2 (.single hc ht rfl), fun t' ht' => ?_⟩, ?_⟩
    · rcases (Token.matches_iff_form.1 ht').of_isSymbol hc with ⟨_, ht'⟩ | ⟨d, hmore, _⟩
      · exact .inl (Option.some.inj (ht'.symm.trans ht))
      · cases hmore
    · exact longest_of_forall (List.nil_append cs) fun more hp h =>
        Nat.le_of_eq (congrArg List.length (honly more hp h).1)
  | none =>
    rw [single, ht]
    refine ⟨rfl, fun other hp h => ?_⟩
    obtain ⟨more, rfl, hmore⟩ := h.exists_cons hp
    have := (honly more hmore h).2
    rw [ht] at this
    cases this

theorem right_pair (hc : Token.isSymbol c = true) (hcomment : ¬ (c = '/' ∧ d = '/'))
    (ht : Token.ofPair c d = some t) : (Cut.token t).Right [c, d] rest := by
  refine ⟨⟨Token.matches_iff_form.2 (.pair d hc ht rfl), fun t' ht' => ?_⟩, ?_⟩
  · rcases (Token.matches_iff_form.1 ht').of_isSymbol hc with ⟨hmore, _⟩ | ⟨d', hmore, ht'⟩
    · cases hmore
    · cases hmore
      exact .inl (Option.some.inj (ht'.symm.trans ht))
  · refine longest_of_forall (List.singleton_append (x := d)) fun more hp h => ?_
    rcases h.of_isSymbol hc with ⟨rfl, _⟩ | ⟨d', rfl, _⟩ | ⟨rfl, body, rfl⟩
    · exact Nat.zero_le _
    · exact Nat.le_refl _
    · exact absurd ⟨rfl, (List.cons_prefix_cons.1 hp).1.symm⟩ hcomment

/-- What follows the longest run of some characters begins with another. -/
theorem head_of_takeWhile_append {p : Char → Bool} (h : cs.takeWhile p ++ rest = cs) :
    ∀ c ∈ rest.head?, p c = false := by
  have hrest : rest = cs.dropWhile p :=
    List.append_cancel_left (h.trans List.takeWhile_append_dropWhile.symm)
  intro c hc
  have hhead := List.head?_dropWhile_not p cs
  rw [← hrest, hc] at hhead
  exact hhead

theorem right_comment (hcs : cs.takeWhile (· != '\n') ++ rest = cs) :
    Cut.gap.Right ('/' :: '/' :: cs.takeWhile (· != '\n')) rest := by
  refine .inr ⟨⟨_, rfl, fun hmem => ?_⟩, fun c hc => ?_⟩
  · have := List.all_eq_true.1 List.all_takeWhile _ hmem
    cases this
  · simpa using head_of_takeWhile_append hcs c hc

/-- Every cut is right. -/
theorem cut_right (c : Char) (cs : List Char) :
    (cut c cs).1.Right (c :: (cut c cs).2) (cs.drop (cut c cs).2.length) := by
  have hcs := cut_append_drop c cs
  by_cases hblank : isBlank c = true
  · simp only [cut, hblank, if_true]
    exact .inl ⟨by simp, by simpa using isBlank_iff.1 hblank⟩
  by_cases hname : isNameStart c = true
  · simp only [cut, hblank, hname, if_true] at hcs ⊢
    exact right_word hname hcs
  by_cases hdigit : c.isDigit = true
  · simp only [cut, hblank, hname, hdigit, if_true] at hcs ⊢
    exact right_number hdigit hcs
  have hsymbol : Token.isSymbol c = true := by simp [Token.isSymbol, hblank, hname, hdigit]
  rw [Token.cut_symbol hsymbol] at hcs ⊢
  cases cs with
  | nil => exact right_single hsymbol (by simp) (by simp)
  | cons d ds =>
    by_cases hcomment : c = '/' ∧ d = '/'
    · simp only [hcomment, and_self, if_true] at hcs ⊢
      exact right_comment (List.cons.inj hcs).2
    · simp only [hcomment, if_false] at hcs ⊢
      cases ht : Token.ofPair c d with
      | some t => exact right_pair hsymbol hcomment ht
      | none => exact right_single hsymbol (by simpa using hcomment) (by simpa using ht)

/-- No token has a comment at its front. -/
theorem not_form_comment {body : List Char} : ¬ Token.Form t '/' ('/' :: body) := by
  intro h
  rcases h.of_isSymbol rfl with ⟨hmore, _⟩ | ⟨d, hmore, ht⟩
  · cases hmore
  · cases hmore
    cases ht

/-- The only right token is the one that is cut. -/
theorem cut_eq_token (hwins : t.Wins (c :: more)) (hlongest : Longest (c :: more) rest) :
    cut c (more ++ rest) = (.token t, more) := by
  have hright := cut_right c (more ++ rest)
  have hcs := cut_append_drop c (more ++ rest)
  have hform := Token.matches_iff_form.1 hwins.1
  generalize cut c (more ++ rest) = found at hright hcs ⊢
  obtain ⟨kind, more'⟩ := found
  simp only at hright hcs
  generalize (more ++ rest).drop more'.length = rest' at hright hcs
  -- Both are fronts of the same text.
  have hpart : c :: more <+: (c :: more') ++ rest' := ⟨rest, by simp [hcs]⟩
  have hpart' : c :: more' <+: (c :: more) ++ rest := ⟨rest', by simp [hcs]⟩
  cases kind with
  | gap =>
    rcases hright with hblanks | ⟨hcomment, _⟩
    · have := isBlank_iff.2 (hblanks.2 c List.mem_cons_self)
      rw [isBlank_of_form hform] at this
      cases this
    · have hle := hlongest _ hpart' (.inr (.inr hcomment))
      obtain ⟨body, hbody, _⟩ := hcomment
      cases hbody
      obtain ⟨after, hafter⟩ := List.prefix_of_prefix_length_le hpart' (List.prefix_append _ _) hle
      cases hafter
      exact absurd hform not_form_comment
  | token t' =>
    obtain ⟨hwins', hlongest'⟩ := hright
    have hle := hlongest' _ hpart (.inl ⟨t, hwins.1⟩)
    have hle' := hlongest _ hpart' (.inl ⟨t', hwins'.1⟩)
    have hwithin := List.prefix_of_prefix_length_le hpart' (List.prefix_append _ _) hle'
    cases hwithin.eq_of_length (Nat.le_antisymm hle' hle)
    rw [hwins.eq hwins']
  | stray => exact absurd (.inl ⟨t, hwins.1⟩) (hright.2 _ hpart)

/-- Where no pattern matches, the first character is cut off as a stray. -/
theorem cut_eq_stray (h : ∀ other, other <+: c :: cs → ¬ Matched other) :
    cut c cs = (.stray, []) := by
  have hright := cut_right c cs
  have hprefix : c :: (cut c cs).2 <+: c :: cs :=
    List.cons_prefix_cons.2 ⟨rfl, _, cut_append_drop c cs⟩
  have hnone := h _ hprefix
  generalize cut c cs = found at hright hnone ⊢
  obtain ⟨kind, more⟩ := found
  cases kind with
  | gap =>
    rcases hright with hblanks | ⟨hcomment, _⟩
    · exact absurd (.inr (.inl hblanks)) hnone
    · exact absurd (.inr (.inr hcomment)) hnone
  | token t => exact absurd (.inl ⟨t, hright.1.1⟩) hnone
  | stray =>
    have hmore : more = [] := List.eq_nil_of_length_eq_zero (Nat.succ.inj hright.1)
    rw [hmore]

end Scan

/-! ## Parting a text -/

namespace Piece

/-- The text `cs`, which begins at byte `n`, is parted into gaps and these pieces. Gaps are runs
of blanks, and comments that reach to the end of their line. A token is the longest match where it
stands, and a stray is one character where nothing matches. -/
inductive Parted : Nat → List Char → List Piece → Prop
  | done {n : Nat} : Parted n [] []
  | blanks {n : Nat} {part rest : List Char} {ps : List Piece} : Blanks part →
    Parted (n + Text.byteLength part) rest ps → Parted n (part ++ rest) ps
  | comment {n : Nat} {part rest : List Char} {ps : List Piece} : Comment part →
    (∀ c ∈ rest.head?, c = '\n') → Parted (n + Text.byteLength part) rest ps →
    Parted n (part ++ rest) ps
  | token {n : Nat} {part rest : List Char} {ps : List Piece} {t : Token} : t.Wins part →
    Longest part rest → Parted (n + Text.byteLength part) rest ps →
    Parted n (part ++ rest) (.token ⟨t, ⟨n, n + Text.byteLength part⟩⟩ :: ps)
  | stray {n : Nat} {c : Char} {rest : List Char} {ps : List Piece} :
    (∀ other, other <+: c :: rest → ¬ Matched other) →
    Parted (n + c.utf8Size) rest ps → Parted n (c :: rest) (.stray c ⟨n, n + c.utf8Size⟩ :: ps)

theorem parted_scanFrom (n : Nat) (cs : List Char) : Parted n cs (scanFrom n cs) := by
  fun_induction scanFrom n cs with
  | case1 => exact .done
  | case2 n c cs found stop ih =>
    have hright := Scan.cut_right c cs
    have hcs : (c :: found.2) ++ cs.drop found.2.length = c :: cs :=
      congrArg (c :: ·) (Scan.cut_append_drop c cs)
    have hstop : stop = n + Text.byteLength (c :: found.2) := by
      rw [Text.byteLength_cons, ← Nat.add_assoc]
    rw [← hcs, hstop]
    rw [hstop] at ih
    change found.1.Right (c :: found.2) (cs.drop found.2.length) at hright
    generalize cs.drop found.2.length = rest at hright ih ⊢
    obtain ⟨kind, more⟩ := found
    cases kind with
    | gap =>
      rcases hright with hblanks | ⟨hcomment, hend⟩
      · exact .blanks hblanks ih
      · exact .comment hcomment hend ih
    | token t => exact .token hright.1 hright.2 ih
    | stray =>
      obtain ⟨hlength, hnone⟩ := hright
      obtain rfl : more = [] := List.eq_nil_of_length_eq_zero (Nat.succ.inj hlength)
      exact .stray hnone ih

theorem scanFrom_blanks {n : Nat} {part rest : List Char} (h : ∀ c ∈ part, isBlank c = true) :
    scanFrom n (part ++ rest) = scanFrom (n + Text.byteLength part) rest := by
  induction part generalizing n with
  | nil => rfl
  | cons c part ih =>
    obtain ⟨hc, hpart⟩ := List.forall_mem_cons.1 h
    have hcut : Scan.cut c ([] ++ (part ++ rest)) = (.gap, []) := by simp [Scan.cut, hc]
    have hscan := scanFrom_of_cut (n := n) hcut
    rw [ih hpart] at hscan
    rw [Text.byteLength_cons, ← Nat.add_assoc]
    exact hscan

theorem cut_comment {body rest : List Char} (hbody : '\n' ∉ body)
    (hrest : ∀ c ∈ rest.head?, c = '\n') :
    Scan.cut '/' ('/' :: body ++ rest) = (.gap, '/' :: body) := by
  have hinside : ∀ c ∈ body, (c != '\n') = true :=
    fun c hc => bne_iff_ne.2 fun h => hbody (h ▸ hc)
  have hline : (body ++ rest).takeWhile (· != '\n') = body :=
    Token.takeWhile_append_of_head hinside fun c hc => by simp [hrest c hc]
  rw [Token.cut_symbol rfl]
  simp [hline]

/-- There is one way to part a text. -/
theorem Parted.eq_scanFrom {n : Nat} {cs : List Char} {ps : List Piece} (h : Parted n cs ps) :
    ps = scanFrom n cs := by
  induction h with
  | done => rw [scanFrom]
  | blanks hpart _ ih => rw [scanFrom_blanks fun c hc => isBlank_iff.2 (hpart.2 c hc), ← ih]
  | comment hpart hend _ ih =>
    obtain ⟨body, rfl, hbody⟩ := hpart
    rw [scanFrom_of_cut (cut_comment hbody hend), ← ih]
    rfl
  | @token n part rest ps t hwins hlongest _ ih =>
    cases part with
    | nil => exact absurd hwins.1 Token.not_matches_nil
    | cons c more =>
      rw [scanFrom_of_cut (Scan.cut_eq_token hwins hlongest), ← ih]
      rfl
  | @stray n c rest ps hnone _ ih =>
    have hcut : Scan.cut c ([] ++ rest) = (.stray, []) := Scan.cut_eq_stray hnone
    have hscan := scanFrom_of_cut (n := n) hcut
    rw [← show ps = scanFrom (n + Text.byteLength [c]) rest from ih] at hscan
    exact hscan.symm

theorem parted_iff {n : Nat} {cs : List Char} {ps : List Piece} :
    Parted n cs ps ↔ ps = scanFrom n cs :=
  ⟨Parted.eq_scanFrom, fun h => h ▸ parted_scanFrom n cs⟩

end Piece
end ScriptCheck
