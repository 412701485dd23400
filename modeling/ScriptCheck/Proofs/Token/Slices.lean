import ScriptCheck.Proofs.Reading.Joined

/-!
# Slices of a text

A slice that begins where a token begins and ends where a token ends has, on its own, just
the tokens that it has within the text. Before it, because a cut depends on nothing in front
of it; behind it, because a cut that ends where the slice does has not used anything further
on.
-/
namespace ScriptCheck

namespace Text

/-- The first `n` bytes and what follows them, unless byte `n` is inside a character or
behind the end. -/
def splitBytes? : List Char → Nat → Option (List Char × List Char)
  | cs, 0 => some ([], cs)
  | [], _ + 1 => none
  | c :: cs, n + 1 =>
    if c.utf8Size ≤ n + 1 then
      (splitBytes? cs (n + 1 - c.utf8Size)).map fun (front, rest) => (c :: front, rest)
    else none

/-- The part of a text that stands at a span. -/
def slice? (text : String) (s : Span) : Option String := do
  let (_, rest) ← splitBytes? text.toList s.start
  let (part, _) ← splitBytes? rest s.length
  return String.ofList part

theorem splitBytes?_append (xs ys : List Char) :
    splitBytes? (xs ++ ys) (byteLength xs) = some (xs, ys) := by
  induction xs with
  | nil => cases ys <;> rfl
  | cons c xs ih =>
    have hc := c.utf8Size_pos
    obtain ⟨n, hn⟩ : ∃ n, byteLength (c :: xs) = n + 1 := ⟨c.utf8Size + byteLength xs - 1, by
      rw [byteLength_cons]
      omega⟩
    have hle : c.utf8Size ≤ n + 1 := by
      rw [← hn, byteLength_cons]
      omega
    have hrest : n + 1 - c.utf8Size = byteLength xs := by
      rw [← hn, byteLength_cons]
      omega
    rw [hn, List.cons_append, splitBytes?, if_pos hle, hrest, ih]
    rfl

theorem slice?_of_append {text : String} {s : Span} {xs ys zs : List Char}
    (h : text.toList = xs ++ (ys ++ zs)) (hstart : byteLength xs = s.start)
    (hstop : s.start + byteLength ys = s.stop) : slice? text s = some (String.ofList ys) := by
  have hlength : s.length = byteLength ys := by
    unfold Span.length
    omega
  unfold slice?
  rw [h, ← hstart, splitBytes?_append, hlength]
  show (splitBytes? (ys ++ zs) (byteLength ys)).bind _ = _
  rw [splitBytes?_append]
  rfl

end Text

/-! ## Tokens and the span that they cover -/

/-- The span runs from the start of the first token to the end of the last. -/
structure Covers (ls : List Lexeme) (s : Span) : Prop where
  first : ∃ l rest, ls = l :: rest ∧ s.start = l.span.start
  last : ∃ front l, ls = front ++ [l] ∧ s.stop = l.span.stop

theorem covers_singleton (l : Lexeme) : Covers [l] l.span :=
  ⟨⟨l, [], rfl, rfl⟩, ⟨[], l, rfl, rfl⟩⟩

/-- Two covered parts and all between them are covered by the merged span. -/
theorem Covers.merge {as mid bs : List Lexeme} {s t : Span} (ha : Covers as s) (hb : Covers bs t)
    (h : Ordered (as ++ (mid ++ bs))) : Covers (as ++ (mid ++ bs)) (s.merge t) := by
  obtain ⟨⟨a, as', rfl, hs⟩, ⟨front, a', ha', hs'⟩⟩ := ha
  obtain ⟨⟨b, bs', hb, ht⟩, ⟨front', b', rfl, ht'⟩⟩ := hb
  constructor
  · refine ⟨a, as' ++ (mid ++ (front' ++ [b'])), rfl, ?_⟩
    have hle : a.span.start ≤ b.span.start := h.start_le (by rw [hb]; simp)
    rw [Span.merge_start]
    omega
  · refine ⟨(a :: as') ++ (mid ++ front'), b', by simp, ?_⟩
    have hle : a'.span.stop ≤ b'.span.stop := by
      have h' : Ordered (((a :: as') ++ (mid ++ front')) ++ [b']) := by simpa using h
      exact h'.stop_le (by rw [ha']; simp)
    rw [Span.merge_stop]
    omega

/-- A token, then some others, and then a covered part. -/
theorem Covers.after {l : Lexeme} {mid bs : List Lexeme} {t : Span} (hb : Covers bs t)
    (h : Ordered (l :: (mid ++ bs))) : Covers (l :: (mid ++ bs)) (l.span.merge t) :=
  (covers_singleton l).merge hb h

/-! ## Cuts and slices -/

namespace Scan

theorem takeWhile_append_of_length_le {p : Char → Bool} {cs ds : List Char}
    (h : ((cs ++ ds).takeWhile p).length ≤ cs.length) :
    (cs ++ ds).takeWhile p = cs.takeWhile p := by
  induction cs with
  | nil => exact List.eq_nil_of_length_eq_zero (Nat.le_zero.1 h)
  | cons c cs ih =>
    by_cases hc : p c
    · simp only [List.cons_append, List.takeWhile_cons, hc, if_true, List.length_cons] at h ⊢
      rw [ih (by omega)]
    · simp [hc]

/-- A cut that ends within `cs` does not depend on what follows. -/
theorem cut_append {c : Char} {cs ds : List Char} (h : (cut c (cs ++ ds)).2.length ≤ cs.length) :
    cut c (cs ++ ds) = cut c cs := by
  unfold cut at h ⊢
  by_cases hblank : isBlank c
  · simp only [hblank, if_true]
  simp only [hblank, Bool.false_eq_true, if_false] at h ⊢
  by_cases hname : isNameStart c
  · simp only [hname, if_true] at h ⊢
    rw [takeWhile_append_of_length_le h]
  simp only [hname, Bool.false_eq_true, if_false] at h ⊢
  by_cases hdigit : c.isDigit
  · simp only [hdigit, if_true] at h ⊢
    rw [takeWhile_append_of_length_le h]
  simp only [hdigit, Bool.false_eq_true, if_false] at h ⊢
  cases cs with
  | cons d cs =>
    simp only [List.cons_append] at h ⊢
    by_cases hcomment : c = '/' ∧ d = '/'
    · simp only [hcomment, and_self, if_true, List.length_cons] at h ⊢
      rw [takeWhile_append_of_length_le (by omega)]
    · simp only [hcomment, if_false]
  | nil =>
    -- Only the character itself: a longer cut would not have ended here.
    cases ds with
    | nil => rfl
    | cons d ds =>
      simp only [List.nil_append] at h ⊢
      by_cases hcomment : c = '/' ∧ d = '/'
      · simp [hcomment] at h
      · simp only [hcomment, if_false] at h ⊢
        cases hpair : Token.ofPair c d with
        | some t => simp [hpair] at h
        | none => rfl

end Scan

namespace Piece

theorem ofCut_eq (c : Char) (s : Span) (cut : Scan.Cut) :
    ofCut c s cut = [] ∨ ∃ p, ofCut c s cut = [p] ∧ p.span = s := by
  cases cut with
  | gap => exact .inl rfl
  | token t => exact .inr ⟨_, rfl, rfl⟩
  | stray => exact .inr ⟨_, rfl, rfl⟩

/-- A piece and all behind it are the pieces of the text from there on. -/
theorem scanFrom_before {offset : Nat} {cs : List Char} (ps : List Piece) {qs : List Piece}
    {q : Piece} (h : scanFrom offset cs = ps ++ q :: qs) :
    ∃ xs ys, cs = xs ++ ys ∧ offset + Text.byteLength xs = q.span.start ∧
      scanFrom q.span.start ys = q :: qs := by
  fun_induction scanFrom offset cs generalizing ps with
  | case1 => simp at h
  | case2 offset c cs found stop ih =>
    have hlater {ps' : List Piece} (h' : scanFrom stop (cs.drop found.2.length) = ps' ++ q :: qs) :
        ∃ xs ys, c :: cs = xs ++ ys ∧ offset + Text.byteLength xs = q.span.start ∧
          scanFrom q.span.start ys = q :: qs := by
      obtain ⟨xs, ys, hdrop, hstart, hscan⟩ := ih _ h'
      refine ⟨c :: (found.2 ++ xs), ys, ?_, ?_, hscan⟩
      · rw [List.cons_append, List.append_assoc, ← hdrop, Scan.cut_append_drop]
      · rw [← hstart, Text.byteLength_cons, Text.byteLength_append]
        simp only [stop]
        omega
    rcases ofCut_eq c ⟨offset, stop⟩ found.1 with hcut | ⟨p, hcut, hp⟩
    · rw [hcut] at h
      exact hlater h
    · cases ps with
      | cons p' ps =>
        rw [hcut] at h
        injection h with _ h
        exact hlater h
      | nil =>
        have hq : p = q := by
          rw [hcut] at h
          injection h
        refine ⟨[], c :: cs, rfl, by rw [← hq, hp]; rfl, ?_⟩
        rw [← hq, hp, hq, scanFrom]
        exact h

/-- The pieces up to and with one are those of the text up to its end. -/
theorem scanFrom_behind {offset : Nat} {cs : List Char} (ps : List Piece) {qs : List Piece}
    {p : Piece} (h : scanFrom offset cs = ps ++ p :: qs) :
    ∃ xs ys, cs = xs ++ ys ∧ offset + Text.byteLength xs = p.span.stop ∧
      scanFrom offset xs = ps ++ [p] := by
  fun_induction scanFrom offset cs generalizing ps with
  | case1 => simp at h
  | case2 offset c cs found stop ih =>
    -- A text that ends where the cut does, or further on, begins with the same cut.
    have hfront {xs ys : List Char} (hdrop : cs.drop found.2.length = xs ++ ys) :
        c :: cs = (c :: (found.2 ++ xs)) ++ ys ∧
          scanFrom offset (c :: (found.2 ++ xs)) =
            ofCut c ⟨offset, stop⟩ found.1 ++ scanFrom stop xs := by
      have hcs : (found.2 ++ xs) ++ ys = cs := by
        rw [List.append_assoc, ← hdrop, Scan.cut_append_drop]
      have hcut : Scan.cut c (found.2 ++ xs) = found := by
        have hsame : Scan.cut c ((found.2 ++ xs) ++ ys) = found := by rw [hcs]
        have hle : (Scan.cut c ((found.2 ++ xs) ++ ys)).2.length ≤ (found.2 ++ xs).length := by
          rw [hsame, List.length_append]
          omega
        exact (Scan.cut_append hle).symm.trans hsame
      refine ⟨by rw [List.cons_append, hcs], ?_⟩
      rw [scanFrom, hcut, List.drop_left]
    have hlater {ps' : List Piece} (h' : scanFrom stop (cs.drop found.2.length) = ps' ++ p :: qs)
        (hps : ps = ofCut c ⟨offset, stop⟩ found.1 ++ ps') :
        ∃ xs ys, c :: cs = xs ++ ys ∧ offset + Text.byteLength xs = p.span.stop ∧
          scanFrom offset xs = ps ++ [p] := by
      obtain ⟨xs, ys, hdrop, hstop, hscan⟩ := ih _ h'
      obtain ⟨hsplit, hread⟩ := hfront hdrop
      refine ⟨c :: (found.2 ++ xs), ys, hsplit, ?_, ?_⟩
      · rw [← hstop, Text.byteLength_cons, Text.byteLength_append]
        simp only [stop]
        omega
      · rw [hread, hscan, hps, List.append_assoc]
    rcases ofCut_eq c ⟨offset, stop⟩ found.1 with hcut | ⟨p', hcut, hp⟩
    · rw [hcut] at h
      exact hlater h (by rw [hcut]; rfl)
    · cases ps with
      | cons p'' ps =>
        rw [hcut] at h
        injection h with hp'' h
        exact hlater h (by rw [hcut, hp'']; rfl)
      | nil =>
        have hp' : p' = p := by
          rw [hcut] at h
          injection h
        obtain ⟨hsplit, hread⟩ := hfront (List.nil_append _).symm
        refine ⟨c :: (found.2 ++ []), _, hsplit, ?_, ?_⟩
        · rw [← hp', hp, List.append_nil, Text.byteLength_cons]
          simp only [stop]
          omega
        · rw [hread, hcut, hp', scanFrom]
          rfl

/-- Pieces that are tokens elsewhere are tokens. -/
theorem eq_map_token_of_move {m : Move} {ps : List Piece} {ls : List Lexeme}
    (h : ps.map (Piece.move m) = ls.map .token) :
    ps = (lexemes ps).map .token ∧ (lexemes ps).map (Lexeme.move m) = ls := by
  constructor
  · apply strayFaults_eq_nil_iff.1
    have hmoved : strayFaults (ps.map (Piece.move m)) = [] := by
      rw [h]
      exact strayFaults_eq_nil_iff.2 (by rw [lexemes_map_token])
    rw [strayFaults_move] at hmoved
    exact List.map_eq_nil_iff.1 hmoved
  · rw [← lexemes_move, h, lexemes_map_token]

/-- The slice at a span that is covered by tokens has just these tokens. -/
theorem scan_slice {text : String} {before part after : List Lexeme} {s : Span}
    (h : scan text = (before ++ (part ++ after)).map .token) (hs : Covers part s) :
    ∃ (slice : String) (ls : List Lexeme), Text.slice? text s = some slice ∧
      scan slice = ls.map .token ∧ ls.map (Lexeme.move (.shift s.start)) = part := by
  obtain ⟨⟨first, rest, hfirst, hstart⟩, ⟨front, last, hlast, hstop⟩⟩ := hs
  have htext : scanFrom 0 text.toList =
      before.map .token ++ .token first :: (rest ++ after).map .token := by
    rw [← List.map_cons, ← List.cons_append, ← hfirst, ← List.map_append]
    exact h
  obtain ⟨xs, ys, hchars, hxs, hys⟩ := scanFrom_before _ htext
  have hxs : Text.byteLength xs = s.start := by
    rw [hstart]
    exact (Nat.zero_add _).symm.trans hxs
  have hbehind : scanFrom s.start ys = front.map .token ++ .token last :: after.map .token := by
    rw [hstart]
    refine hys.trans ?_
    rw [← List.map_cons, ← List.cons_append, ← hfirst, hlast]
    simp
  obtain ⟨zs, ws, rfl, hzs, hread⟩ := scanFrom_behind _ hbehind
  have hslice : Text.slice? text s = some (String.ofList zs) :=
    Text.slice?_of_append hchars hxs (by rw [hstop]; exact hzs)
  have hmoved : (scanFrom 0 zs).map (Piece.move (.shift s.start)) = part.map .token := by
    rw [← scanFrom_add, Nat.zero_add, hread, hlast]
    simp
  obtain ⟨htokens, hpart⟩ := eq_map_token_of_move hmoved
  refine ⟨String.ofList zs, lexemes (scanFrom 0 zs), hslice, ?_, hpart⟩
  rw [scan, String.toList_ofList]
  exact htokens

end Piece

end ScriptCheck
