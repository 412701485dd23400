import Mathlib.Data.List.Pairwise
import ScriptCheck.Proofs.Scope
import ScriptCheck.Proofs.Reading.Joined

/-!
# The order of diagnostics

Reading goes through the tokens from the front and never back, so its faults come in the
order of the tokens they are about. One of them reaches further back: the fault of a signed
number out of range begins at the sign. Stray characters are merged in by where faults end,
and one that splits such a number from its sign ends before it and begins behind it. There,
and nowhere else, the diagnostics of a text are not in the order in which they begin.
-/
namespace ScriptCheck

/-! ## Merging and a second order -/

namespace Order

variable {α : Type} {key : α → Nat} {R : α → α → Prop} {x : α} {xs ys : List α}

/-- Of two items one comes first. -/
theorem eq_or_rel_or_rel (h : xs.Pairwise R) {a b : α} (ha : a ∈ xs) (hb : b ∈ xs) :
    a = b ∨ R a b ∨ R b a := by
  have : Std.Symm fun a b => R a b ∨ R b a := ⟨fun _ _ => Or.symm⟩
  have heither : xs.Pairwise fun a b => R a b ∨ R b a := h.imp Or.inl
  by_cases hab : a = b
  · exact .inl hab
  · exact .inr (heither.forall ha hb hab)

theorem pairwise_insert (hsorted : Sorted key ys) (h : ys.Pairwise R)
    (hle : ∀ y ∈ ys, key x ≤ key y → R x y) (hlt : ∀ y ∈ ys, key y < key x → R y x) :
    (insert key x ys).Pairwise R := by
  induction ys with
  | nil => exact List.pairwise_singleton _ _
  | cons y ys ih =>
    obtain ⟨hfirst, hrest⟩ := List.pairwise_cons.1 h
    obtain ⟨hkey, hkeys⟩ := List.pairwise_cons.1 hsorted
    rw [insert]
    split
    · next hxy =>
      refine List.pairwise_cons.2 ⟨fun z hz => hle z hz ?_, h⟩
      rcases List.mem_cons.1 hz with rfl | hz'
      · exact hxy
      · exact Nat.le_trans hxy (hkey z hz')
    · next hxy =>
      refine List.pairwise_cons.2 ⟨fun z hz => ?_, ih hkeys hrest
        (fun z hz => hle z (List.mem_cons_of_mem _ hz))
        (fun z hz => hlt z (List.mem_cons_of_mem _ hz))⟩
      rcases List.mem_cons.1 ((insert_perm key x ys).mem_iff.1 hz) with rfl | hz
      · exact hlt y List.mem_cons_self (Nat.lt_of_not_le hxy)
      · exact hfirst z hz

/-- A merge keeps a relation that agrees with the keys wherever an item is merged in. -/
theorem pairwise_merge (hsorted : Sorted key ys) (h : ys.Pairwise R)
    (hle : ∀ x ∈ xs, ∀ y ∈ xs ++ ys, key x ≤ key y → R x y)
    (hlt : ∀ x ∈ xs, ∀ y ∈ xs ++ ys, key y < key x → R y x) :
    (merge key xs ys).Pairwise R := by
  induction xs with
  | nil => exact h
  | cons x xs ih =>
    have hmore : (merge key xs ys).Pairwise R :=
      ih (fun x' hx' y hy => hle x' (List.mem_cons_of_mem _ hx') y (List.mem_cons_of_mem _ hy))
        (fun x' hx' y hy => hlt x' (List.mem_cons_of_mem _ hx') y (List.mem_cons_of_mem _ hy))
    have hmem (y : α) (hy : y ∈ merge key xs ys) : y ∈ x :: xs ++ ys :=
      List.mem_cons_of_mem _ ((merge_perm key xs ys).mem_iff.1 hy)
    exact pairwise_insert (sorted_merge xs hsorted) hmore
      (fun y hy => hle x List.mem_cons_self y (hmem y hy))
      (fun y hy => hlt x List.mem_cons_self y (hmem y hy))

end Order

/-! ## Faults of the grammar -/

/-- On the way from `ls` to `rest` the faults `fs` are raised, one after the other. -/
inductive Raises (eof : Span) : List Lexeme → List Fault → List Lexeme → Prop
  | none {ls rest : List Lexeme} : rest <:+ ls → Raises eof ls [] rest
  | fault {ls mid rest : List Lexeme} {why : Complaint} {fs : List Fault} :
    mid <:+ ls → why.Located ls mid → Raises eof mid fs rest →
      Raises eof ls (why.toFault eof mid :: fs) rest

namespace Raises

variable {eof : Span} {ls ls' mid rest : List Lexeme} {fs gs : List Fault}

theorem mono (h : Raises eof ls fs rest) (hs : ls <:+ ls') : Raises eof ls' fs rest := by
  cases h with
  | none hrest => exact .none (hrest.trans hs)
  | fault hmid hloc hmore => exact .fault (hmid.trans hs) (hloc.mono hs) hmore

theorem append (h : Raises eof ls fs mid) (h' : Raises eof mid gs rest) :
    Raises eof ls (fs ++ gs) rest := by
  induction h with
  | none hmid => exact h'.mono hmid
  | fault hmid hloc _ ih => exact .fault hmid hloc (ih h')

theorem raised_of_mem (h : Raises eof ls fs rest) {f : Fault} (hf : f ∈ fs) :
    f.Raised eof ls := by
  induction h with
  | none => cases hf
  | fault hmid hloc _ ih =>
    rcases List.mem_cons.1 hf with rfl | hf
    · exact ⟨_, _, hmid, hloc, rfl⟩
    · exact (ih hf).mono hmid

end Raises

theorem Body.raises (eof : Span) (ls : List Lexeme) :
    Raises eof ls (Body.read eof ls).faults (Body.read eof ls).rest := by
  fun_induction Body.read eof ls with
  | case1 => exact .none (List.suffix_refl _)
  | case2 => exact .none (List.suffix_refl _)
  | case3 l ls hend stmt rest hrun more ih => exact ih.mono (Reader.suffix_of_done hrun)
  | case4 l ls hend why rest hrun more ih =>
    exact .fault (Reader.suffix_of_stuck hrun) (Reader.locates_statement hrun)
      (ih.mono (suffix_skipStatement rest))

theorem Attempt.raises (eof start : Span) (ls : List Lexeme) :
    Raises eof ls (Attempt.read eof start ls).faults (Attempt.read eof start ls).rest := by
  unfold Attempt.read
  split
  · next why rest hrun =>
    exact .fault (Reader.suffix_of_stuck hrun) (Reader.locates_header hrun)
      (.none (List.suffix_refl _))
  · next head rest hrun =>
    have hbody := (Body.raises eof rest).mono (Reader.suffix_of_done hrun)
    simp only
    split
    · next why rest' hend =>
      exact hbody.append (.fault (Reader.suffix_of_stuck hend) (Reader.locates_token _ hend)
        (.none (List.suffix_refl _)))
    · next last rest' hend =>
      simpa using hbody.append (.none (Reader.suffix_of_done hend))

theorem Harvest.raises (eof : Span) (ls : List Lexeme) :
    Raises eof ls (Harvest.read eof ls).faults [] := by
  fun_induction Harvest.read eof ls with
  | case1 => exact .none (List.suffix_refl _)
  | case2 l ls hdef tried p hp more ih =>
    exact ((Attempt.raises eof l.span ls).append ih).mono (List.suffix_cons l ls)
  | case3 l ls hdef tried hp more ih =>
    exact ((Attempt.raises eof l.span ls).append (ih.mono (suffix_skipProcedure _))).mono
      (List.suffix_cons l ls)
  | case4 l ls hdef more ih =>
    have hloc : (Complaint.expected (.token .defWord)).Located (l :: ls) (l :: ls) := trivial
    exact .fault (List.suffix_refl _) hloc
      (ih.mono ((suffix_skipProcedure ls).trans (List.suffix_cons l ls)))

section

variable {n : Nat} {ls rest : List Lexeme} {f : Fault}

/-- A sign stands before its number, and neither is empty. -/
theorem Complaint.Located.signed {s : Span} {digits : String} (ho : Ordered ls)
    (hloc : (Complaint.outOfRange (some s) digits).Located ls rest) :
    ∃ s' after, rest = ⟨.number digits, s'⟩ :: after ∧ ⟨.minus, s⟩ ∈ ls ∧
      s.start < s.stop ∧ s.stop ≤ s'.start ∧ s'.start < s'.stop := by
  obtain ⟨⟨s', after, rfl⟩, hsign⟩ := hloc
  have hpair := ho.sublist (hsign s rfl).sublist
  have hbehind : ⟨.number digits, s'⟩ ∈ ⟨.minus, s⟩ :: (⟨.number digits, s'⟩ : Lexeme) :: after :=
    List.mem_cons_of_mem _ List.mem_cons_self
  exact ⟨s', after, rfl, (hsign s rfl).subset List.mem_cons_self,
    hpair.nonempty _ List.mem_cons_self,
    (List.pairwise_cons.1 hpair.apart).1 _ List.mem_cons_self, hpair.nonempty _ hbehind⟩

/-- A fault begins no later than the first token that is left, and ends with it. -/
theorem Complaint.span_toFault {why : Complaint} (ho : Ordered ls) (eof : Span)
    (hloc : why.Located ls rest) :
    (why.toFault eof rest).span.start ≤ (place eof rest).start ∧
      (why.toFault eof rest).span.stop = (place eof rest).stop := by
  cases why with
  | expected wanted => exact ⟨Nat.le_refl _, rfl⟩
  | tooDeep => exact ⟨Nat.le_refl _, rfl⟩
  | outOfRange sign digits =>
    cases sign with
    | none => exact ⟨Nat.le_refl _, rfl⟩
    | some s =>
      obtain ⟨s', after, rfl, _, _, hapart, hnumber⟩ := hloc.signed ho
      simp only [toFault, place, Span.merge_start, Span.merge_stop]
      omega

/-- Places follow the tokens. -/
theorem Complaint.place_mono (ho : Ordered ls) (hn : ∀ l ∈ ls, l.span.stop ≤ n)
    (h : rest <:+ ls) :
    (place (.point n) ls).start ≤ (place (.point n) rest).start ∧
      (place (.point n) ls).stop ≤ (place (.point n) rest).stop := by
  cases ls with
  | nil =>
    obtain rfl := List.suffix_nil.1 h
    exact ⟨Nat.le_refl _, Nat.le_refl _⟩
  | cons first ls =>
    have hfirst := ho.nonempty first List.mem_cons_self
    cases rest with
    | nil =>
      have := hn first List.mem_cons_self
      simp only [place, Span.point]
      omega
    | cons l rest =>
      have hl := h.subset List.mem_cons_self
      refine ⟨ho.start_le hl, ?_⟩
      rcases List.mem_cons.1 hl with rfl | hl
      · exact Nat.le_refl _
      · have := (List.pairwise_cons.1 ho.apart).1 l hl
        have := ho.nonempty l (List.mem_cons_of_mem _ hl)
        simp only [place]
        omega

/-- No fault begins before the first of the tokens in which it is raised, nor ends before
it. -/
theorem Fault.Raised.place_le (h : f.Raised (.point n) ls) (ho : Ordered ls)
    (hn : ∀ l ∈ ls, l.span.stop ≤ n) :
    (Complaint.place (.point n) ls).start ≤ f.span.start ∧
      (Complaint.place (.point n) ls).stop ≤ f.span.stop := by
  obtain ⟨why, rest, hrest, hloc, rfl⟩ := h
  have hplace := Complaint.place_mono ho hn hrest
  rw [(Complaint.span_toFault ho _ hloc).2]
  refine ⟨?_, hplace.2⟩
  cases why with
  | expected wanted => exact hplace.1
  | tooDeep => exact hplace.1
  | outOfRange sign digits =>
    cases sign with
    | none => exact hplace.1
    | some s =>
      have hsign := Complaint.place_mono ho hn (hloc.2 s rfl)
      exact Nat.le_min.2 ⟨hsign.1, hplace.1⟩

/-- Faults come in the order of the text, by their beginnings and by their ends. -/
theorem Raises.pairwise {fs : List Fault} (h : Raises (.point n) ls fs rest) (ho : Ordered ls)
    (hn : ∀ l ∈ ls, l.span.stop ≤ n) :
    fs.Pairwise fun f g => f.span.start ≤ g.span.start ∧ f.span.stop ≤ g.span.stop := by
  induction h with
  | none => exact List.Pairwise.nil
  | fault hmid hloc hmore ih =>
    have ho' := ho.sublist hmid.sublist
    have hn' := fun l hl => hn l (hmid.subset hl)
    refine List.pairwise_cons.2 ⟨fun g hg => ?_, ih ho' hn'⟩
    have hfirst := Complaint.span_toFault ho (.point n) hloc
    have hg := (hmore.raised_of_mem hg).place_le ho' hn'
    omega

/-- A fault is at the end, at one token, or about a number and its sign. -/
theorem Fault.Raised.span_cases {eof : Span} (h : f.Raised eof ls) (ho : Ordered ls) :
    f.span = eof ∨ (∃ l ∈ ls, f.span = l.span) ∨
      ∃ digits, f.cause = .outOfRange ("-" ++ digits) ∧
        ∃ sign ∈ ls, ∃ number ∈ ls, sign.span.stop ≤ number.span.start ∧
          f.span = ⟨sign.span.start, number.span.stop⟩ := by
  obtain ⟨why, rest, hrest, hloc, rfl⟩ := h
  have hplace : Complaint.place eof rest = eof ∨
      ∃ l ∈ ls, Complaint.place eof rest = l.span := by
    cases rest with
    | nil => exact .inl rfl
    | cons l rest => exact .inr ⟨l, hrest.subset List.mem_cons_self, rfl⟩
  cases why with
  | expected wanted => exact hplace.imp_right .inl
  | tooDeep => exact hplace.imp_right .inl
  | outOfRange sign digits =>
    cases sign with
    | none => exact hplace.imp_right .inl
    | some s =>
      obtain ⟨s', after, rfl, hsign, hminus, hapart, hnumber⟩ := hloc.signed ho
      refine .inr (.inr ⟨digits, rfl, ⟨.minus, s⟩, hsign, ⟨.number digits, s'⟩,
        hrest.subset List.mem_cons_self, hapart, ?_⟩)
      simp only [Complaint.toFault, Complaint.place, Span.merge, Span.mk.injEq]
      omega

end

/-! ## Stray characters among them -/

/-- `f` is about a character that stands between the sign and the digits of the number out
of range that `g` is about. -/
def Fault.Splits (f g : Fault) : Prop :=
  f.isLexical = true ∧ (∃ digits, g.cause = .outOfRange ("-" ++ digits)) ∧
    g.span.start < f.span.start ∧ f.span.stop < g.span.stop

section

variable {text : String} {f g : Fault}

theorem Piece.apart_of_mem {p q : Piece} (hp : p ∈ scan text) (hq : q ∈ scan text) :
    p = q ∨ p.span.stop ≤ q.span.start ∨ q.span.stop ≤ p.span.start :=
  Order.eq_or_rel_or_rel (pairwise_scanFrom 0 text.toList) hp hq

theorem Piece.isLexical_of_mem_strayFaults {ps : List Piece} (h : f ∈ strayFaults ps) :
    f.isLexical = true := by
  obtain ⟨p, _, hf⟩ := List.mem_filterMap.1 h
  cases p with
  | token l => cases hf
  | stray c s =>
    cases hf
    rfl

/-- Two strays begin in the order in which they end. -/
theorem start_le_of_strays (hf : f ∈ Piece.strayFaults (Piece.scan text))
    (hg : g ∈ Piece.strayFaults (Piece.scan text)) (h : f.span.stop ≤ g.span.stop) :
    f.span.start ≤ g.span.start := by
  have := bounds_of_mem_strayFaults hf
  have := bounds_of_mem_strayFaults hg
  obtain ⟨c, hc⟩ := Piece.exists_of_mem_strayFaults hf
  obtain ⟨d, hd⟩ := Piece.exists_of_mem_strayFaults hg
  rcases Piece.apart_of_mem hc hd with heq | hapart | hapart
  · injection heq with _ hspan
    exact Nat.le_of_eq (congrArg Span.start hspan)
  · simp only [Piece.span] at hapart
    omega
  · simp only [Piece.span] at hapart
    omega

/-- A stray that ends before a fault of the grammar begins before it or splits it, and one
that ends behind it begins behind it. -/
theorem stray_and_raised (hf : f ∈ Piece.strayFaults (Piece.scan text))
    (hg : g.Raised (Script.eof text) (Piece.lexemes (Piece.scan text))) :
    (f.span.stop ≤ g.span.stop → f.span.start ≤ g.span.start ∨ f.Splits g) ∧
      (g.span.stop < f.span.stop → g.span.start ≤ f.span.start) := by
  have hbounds := bounds_of_mem_strayFaults hf
  have ho := ordered_lexemes text
  have hapart (l : Lexeme) (hl : l ∈ Piece.lexemes (Piece.scan text)) :
      f.span.stop ≤ l.span.start ∨ l.span.stop ≤ f.span.start := by
    obtain ⟨c, hc⟩ := Piece.exists_of_mem_strayFaults hf
    refine (Piece.apart_of_mem hc (Piece.mem_lexemes hl)).resolve_left ?_
    intro h
    cases h
  rcases hg.span_cases ho with hspan | ⟨l, hl, hspan⟩ |
    ⟨digits, hcause, sign, hsign, number, hnumber, hbehind, hspan⟩
  · simp only [hspan, Script.eof, Span.point]
    omega
  · have := hapart l hl
    have := ho.nonempty l hl
    rw [hspan]
    omega
  · have hs := hapart sign hsign
    have hn := hapart number hnumber
    have := ho.nonempty sign hsign
    have := ho.nonempty number hnumber
    rw [hspan]
    refine ⟨fun hstop => ?_, fun hstop => by simp only at hstop ⊢; omega⟩
    simp only at hstop
    by_cases hstart : f.span.start ≤ sign.span.start
    · exact .inl hstart
    · refine .inr ⟨Piece.isLexical_of_mem_strayFaults hf, ⟨digits, hcause⟩, ?_, ?_⟩
      · rw [hspan]
        exact Nat.lt_of_not_le hstart
      · rw [hspan]
        simp only
        omega

end

namespace Script

theorem pairwise_read_lexemes (text : String) :
    (Harvest.read (eof text) (Piece.lexemes (Piece.scan text))).faults.Pairwise fun f g =>
      f.span.start ≤ g.span.start ∧ f.span.stop ≤ g.span.stop := by
  refine (Harvest.raises _ _).pairwise (ordered_lexemes text) fun l hl => ?_
  have := Piece.bounds_of_mem_scanFrom (Piece.mem_lexemes hl)
  simp only [Piece.span] at this
  omega

/-- The faults of a text come in the order in which they end. -/
theorem sorted_stop_faults (text : String) :
    Order.Sorted (·.span.stop) (faultsOf (read text)) := by
  rw [faultsOf_read]
  exact Order.sorted_merge _ ((pairwise_read_lexemes text).imp And.right)

/-- They come in the order in which they begin as well, but for strays that split a number
from its sign. -/
theorem pairwise_faults (text : String) :
    (faultsOf (read text)).Pairwise fun f g => f.span.start ≤ g.span.start ∨ f.Splits g := by
  rw [faultsOf_read]
  have hpair := pairwise_read_lexemes text
  refine Order.pairwise_merge (hpair.imp And.right) (hpair.imp fun h => .inl h.1) ?_ ?_
  · intro x hx y hy hle
    rcases List.mem_append.1 hy with hy | hy
    · exact .inl (start_le_of_strays hx hy hle)
    · exact (stray_and_raised hx (Harvest.raised_of_mem hy)).1 hle
  · intro x hx y hy hlt
    rcases List.mem_append.1 hy with hy | hy
    · exact .inl (start_le_of_strays hy hx (Nat.le_of_lt hlt))
    · exact .inl ((stray_and_raised hx (Harvest.raised_of_mem hy)).2 hlt)

theorem sorted_start_faults_iff (text : String) :
    Order.Sorted (·.span.start) (faultsOf (read text)) ↔
      ∀ f ∈ faultsOf (read text), ∀ g ∈ faultsOf (read text), ¬ f.Splits g := by
  constructor
  · -- The number ends behind the character, so it stands behind it; and yet it begins before.
    intro hsorted f hf g hg ⟨_, _, hstart, hstop⟩
    have hboth := hsorted.and (sorted_stop_faults text)
    rcases Order.eq_or_rel_or_rel hboth hf hg with rfl | ⟨hle, _⟩ | ⟨_, hle⟩
    · exact Nat.lt_irrefl _ hstart
    · exact Nat.not_le.2 hstart hle
    · exact Nat.not_le.2 hstop hle
  · intro h
    exact (pairwise_faults text).imp_of_mem fun hf hg hfg => hfg.resolve_right (h _ hf _ hg)

end Script

/-- The diagnostics of a source come in the order of its text exactly if no stray character
stands between the sign and the digits of a number out of range. -/
theorem Source.sorted_diagnostics_iff (source : Source) :
    Order.Sorted (·.location.span.start) source.analyze.diagnostics ↔
      ∀ f ∈ Script.faultsOf (Script.read source.text),
        ∀ g ∈ Script.faultsOf (Script.read source.text), ¬ f.Splits g := by
  rw [← Script.sorted_start_faults_iff]
  unfold analyze
  cases Script.read source.text with
  | ok script =>
    have hsorted :
        Order.Sorted (·.location.span.start) (source.checkScript script).diagnostics := by
      rw [diagnostics_checkScript]
      exact List.pairwise_map.2 (Order.sorted_sort _ _)
    exact ⟨fun _ => List.Pairwise.nil, fun _ => hsorted⟩
  | error faults => exact List.pairwise_map

/-- The sign of the number stands before the stray, and is reported behind it. -/
theorem Source.diagnostics_split_number :
    let source : Source := ⟨"main", "def f() : Int32 is return -@9999999999; end"⟩
    source.analyze.diagnostics.map (·.location.span) = [⟨27, 28⟩, ⟨26, 38⟩] ∧
      ¬ Order.Sorted (·.location.span.start) source.analyze.diagnostics := by
  unfold Order.Sorted
  decide +kernel

end ScriptCheck
