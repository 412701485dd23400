import ScriptCheck.Proofs.Reading.Text

/-!
# Texts joined at a `def`

Reading starts afresh at every `def`. So a text with a second one behind it that begins
with `def` is read as the two are on their own: first the faults of the first text, then
those of the second at their new places. Only where the first text came to its end too
early there is now a `def` to complain about. This holds for broken texts as well, wherever
in a header, a parameter list, an expression or a statement they break off.
-/
namespace ScriptCheck

/-! ## Merging by a key -/

namespace Order

variable {α : Type} {key : α → Nat} {x : α} {xs xs' ys ys' zs : List α}

theorem insert_append_of_lt (h : ∀ y ∈ ys, key y < key x) :
    insert key x (ys ++ zs) = ys ++ insert key x zs := by
  induction ys with
  | nil => rfl
  | cons y ys ih =>
    obtain ⟨hy, hys⟩ := List.forall_mem_cons.1 h
    rw [List.cons_append, insert, if_neg (Nat.not_le.2 hy), ih hys, List.cons_append]

theorem insert_append_of_le (h : ∀ z ∈ zs, key x ≤ key z) :
    insert key x (ys ++ zs) = insert key x ys ++ zs := by
  induction ys with
  | nil =>
    cases zs with
    | nil => rfl
    | cons z zs => simp [insert, h z List.mem_cons_self]
  | cons y ys ih =>
    rw [List.cons_append, insert, insert, ih]
    split <;> rfl

/-- Two merges stand one behind the other if no item of the second comes early. -/
theorem merge_append (hlt : ∀ x ∈ xs', ∀ y ∈ ys, key y < key x)
    (hle : ∀ x ∈ xs, ∀ z ∈ xs' ++ ys', key x ≤ key z) :
    merge key (xs ++ xs') (ys ++ ys') = merge key xs ys ++ merge key xs' ys' := by
  have hright : merge key xs' (ys ++ ys') = ys ++ merge key xs' ys' := by
    clear hle
    induction xs' with
    | nil => rfl
    | cons x xs' ih =>
      obtain ⟨hx, hxs⟩ := List.forall_mem_cons.1 hlt
      change insert key x (merge key xs' (ys ++ ys')) = _
      rw [ih hxs, insert_append_of_lt hx]
      rfl
  have hleft (zs : List α) (h : ∀ x ∈ xs, ∀ z ∈ zs, key x ≤ key z) :
      merge key xs (ys ++ zs) = merge key xs ys ++ zs := by
    clear hle
    induction xs with
    | nil => rfl
    | cons x xs ih =>
      obtain ⟨hx, hxs⟩ := List.forall_mem_cons.1 h
      change insert key x (merge key xs (ys ++ zs)) = _
      rw [ih hxs, insert_append_of_le hx]
      rfl
  have hsplit : merge key (xs ++ xs') (ys ++ ys') = merge key xs (merge key xs' (ys ++ ys')) :=
    List.foldr_append
  rw [hsplit, hright]
  exact hleft _ fun x hx z hz => hle x hx z ((merge_perm key xs' ys').mem_iff.1 hz)

theorem insert_map {g : α → α} (h : ∀ y ∈ ys, key (g x) ≤ key (g y) ↔ key x ≤ key y) :
    insert key (g x) (ys.map g) = (insert key x ys).map g := by
  induction ys with
  | nil => rfl
  | cons y ys ih =>
    obtain ⟨hy, hys⟩ := List.forall_mem_cons.1 h
    rw [List.map_cons, insert, insert, ih hys]
    by_cases hxy : key x ≤ key y
    · rw [if_pos hxy, if_pos (hy.2 hxy)]
      rfl
    · rw [if_neg hxy, if_neg (fun h => hxy (hy.1 h))]
      rfl

/-- A map that keeps the order of the keys can be made before or after merging. -/
theorem merge_map {g : α → α}
    (h : ∀ x ∈ xs, ∀ y ∈ xs ++ ys, key (g x) ≤ key (g y) ↔ key x ≤ key y) :
    merge key (xs.map g) (ys.map g) = (merge key xs ys).map g := by
  induction xs with
  | nil => rfl
  | cons x xs ih =>
    have hxs : merge key (xs.map g) (ys.map g) = (merge key xs ys).map g := by
      refine ih fun x' hx' y hy => h x' (List.mem_cons_of_mem _ hx') y ?_
      exact List.mem_cons_of_mem _ hy
    change insert key (g x) (merge key (xs.map g) (ys.map g)) =
      (insert key x (merge key xs ys)).map g
    rw [hxs]
    refine insert_map fun y hy => h x List.mem_cons_self y ?_
    exact List.mem_cons_of_mem _ ((merge_perm key xs ys).mem_iff.1 hy)

end Order

/-! ## Where faults are -/

/-- The fault is a complaint about some token of `ls`, or about the end behind them. -/
def Fault.Raised (eof : Span) (ls : List Lexeme) (f : Fault) : Prop :=
  ∃ (why : Complaint) (rest : List Lexeme),
    rest <:+ ls ∧ why.Located ls rest ∧ f = why.toFault eof rest

section

variable {eof : Span} {ls ls' : List Lexeme} {f : Fault} {n : Nat}

theorem Fault.Raised.mono (h : f.Raised eof ls) (hs : ls <:+ ls') : f.Raised eof ls' := by
  obtain ⟨why, rest, hrest, hloc, rfl⟩ := h
  exact ⟨why, rest, hrest.trans hs, hloc.mono hs, rfl⟩

theorem Fault.Raised.stop_le (h : f.Raised eof ls) (heof : eof.stop ≤ n)
    (hls : ∀ l ∈ ls, l.span.stop ≤ n) : f.span.stop ≤ n := by
  obtain ⟨why, rest, hrest, hloc, rfl⟩ := h
  have hplace : (Complaint.place eof rest).stop ≤ n := by
    cases rest with
    | nil => exact heof
    | cons l rest => exact hls l (hrest.subset List.mem_cons_self)
  cases why with
  | expected wanted => exact hplace
  | tooDeep => exact hplace
  | outOfRange sign digits =>
    cases sign with
    | none => exact hplace
    | some s =>
      have hs : s.stop ≤ n := hls ⟨.minus, s⟩ ((hloc.2 s rfl).subset List.mem_cons_self)
      exact Nat.max_le.2 ⟨hs, hplace⟩

theorem Body.raised_of_mem (h : f ∈ (Body.read eof ls).faults) : f.Raised eof ls := by
  fun_induction Body.read eof ls with
  | case1 => cases h
  | case2 => cases h
  | case3 l ls hend stmt rest hrun more ih => exact (ih h).mono (Reader.suffix_of_done hrun)
  | case4 l ls hend why rest hrun more ih =>
    have hrest := Reader.suffix_of_stuck hrun
    rcases List.mem_cons.1 h with rfl | h
    · exact ⟨why, rest, hrest, Reader.locates_statement hrun, rfl⟩
    · exact (ih h).mono ((suffix_skipStatement rest).trans hrest)

theorem Attempt.raised_of_mem {start : Span} (h : f ∈ (Attempt.read eof start ls).faults) :
    f.Raised eof ls := by
  unfold Attempt.read at h
  split at h
  · next why rest hrun =>
    rw [List.mem_singleton.1 h]
    exact ⟨why, rest, Reader.suffix_of_stuck hrun, Reader.locates_header hrun, rfl⟩
  · next head rest hrun =>
    have hrest := Reader.suffix_of_done hrun
    simp only at h
    split at h
    · next why rest' hend =>
      have hbody := Body.suffix_read eof rest
      rcases List.mem_append.1 h with h | h
      · exact (Body.raised_of_mem h).mono hrest
      · rw [List.mem_singleton.1 h]
        exact ⟨why, rest', ((Reader.suffix_of_stuck hend).trans hbody).trans hrest,
          (Reader.locates_token _ hend).mono (hbody.trans hrest), rfl⟩
    · exact (Body.raised_of_mem h).mono hrest

theorem Harvest.raised_of_mem (h : f ∈ (Harvest.read eof ls).faults) : f.Raised eof ls := by
  fun_induction Harvest.read eof ls with
  | case1 => cases h
  | case2 l ls hdef tried p hp more ih =>
    have hls := List.suffix_cons l ls
    rcases List.mem_append.1 h with h | h
    · exact (Attempt.raised_of_mem h).mono hls
    · exact (ih h).mono ((Attempt.suffix_read eof l.span ls).trans hls)
  | case3 l ls hdef tried hp more ih =>
    have hls := List.suffix_cons l ls
    rcases List.mem_append.1 h with h | h
    · exact (Attempt.raised_of_mem h).mono hls
    · exact (ih h).mono
        ((suffix_skipProcedure _).trans ((Attempt.suffix_read eof l.span ls).trans hls))
  | case4 l ls hdef more ih =>
    rcases List.mem_cons.1 h with rfl | h
    · exact ⟨.expected (.token .defWord), l :: ls, List.suffix_refl _, trivial, rfl⟩
    · exact (ih h).mono ((suffix_skipProcedure ls).trans (List.suffix_cons l ls))

end

/-! ## Joined texts -/

def Fault.move (m : Move) (f : Fault) : Fault := ⟨f.cause, m f.span⟩

/-- A fault of a text that ended at `eof`, now that a `def` stands at `place` behind it: a
fault at the end is raised at the `def`, and every other stays as it is. -/
def Fault.atDef (eof place : Span) (f : Fault) : Fault :=
  if f.span = eof then ⟨f.cause.meet (some .defWord), place⟩ else f

/-- The faults that reading ended with, none if the text is a script. -/
def Script.faultsOf : Except (List Fault) Script → List Fault
  | .ok _ => []
  | .error faults => faults

theorem Script.faultsOf_read (text : String) :
    faultsOf (read text) = (harvest text).faults := by
  unfold read
  cases h : (harvest text).faults with
  | nil => simp [h, faultsOf]
  | cons f fs => simp [h, faultsOf]

namespace Piece

theorem lexemes_append (ps qs : List Piece) : lexemes (ps ++ qs) = lexemes ps ++ lexemes qs :=
  List.filterMap_append

theorem strayFaults_append (ps qs : List Piece) :
    strayFaults (ps ++ qs) = strayFaults ps ++ strayFaults qs := List.filterMap_append

theorem lexemes_move (m : Move) (ps : List Piece) :
    lexemes (ps.map (Piece.move m)) = (lexemes ps).map (Lexeme.move m) := by
  unfold lexemes
  rw [List.filterMap_map, List.map_filterMap]
  congr 1
  funext p
  cases p <;> rfl

theorem strayFaults_move (m : Move) (ps : List Piece) :
    strayFaults (ps.map (Piece.move m)) = (strayFaults ps).map (Fault.move m) := by
  unfold strayFaults
  rw [List.filterMap_map, List.map_filterMap]
  congr 1
  funext p
  cases p <;> rfl

theorem exists_of_mem_strayFaults {ps : List Piece} {f : Fault} (h : f ∈ strayFaults ps) :
    ∃ c, .stray c f.span ∈ ps := by
  obtain ⟨p, hp, hf⟩ := List.mem_filterMap.1 h
  cases p with
  | token l => cases hf
  | stray c s =>
    cases hf
    exact ⟨c, hp⟩

end Piece

/-- Moved tokens with nothing behind them: faults move, and the end with them. -/
theorem Fault.carry_moved (m : Move) (eof : Span) (f : Fault) :
    f.carry (.moved m) eof (m eof) = f.move m := by
  obtain ⟨cause, span⟩ := f
  by_cases h : span = eof
  · simp [Fault.carry, Fault.move, Setting.moved, Complaint.place, h]
  · simp [Fault.carry, Fault.move, Setting.moved, h]

/-- The tokens of two texts, the second of which begins with `def`. -/
theorem Harvest.read_append_def {eofA eofB s : Span} {la lb : List Lexeme} (n : Nat)
    (ha : Bounded eofA la) (hb : Bounded eofB (⟨.defWord, s⟩ :: lb)) :
    let first := Harvest.read eofA la
    let second := Harvest.read eofB (⟨.defWord, s⟩ :: lb)
    Harvest.read (eofB.shift n) (la ++ (⟨.defWord, s⟩ :: lb).map (Lexeme.move (.shift n))) =
      ⟨first.procedures ++ second.procedures.map (Procedure.move (.shift n)),
        first.faults.map (Fault.atDef eofA (s.shift n)) ++
          second.faults.map (Fault.move (.shift n))⟩ := by
  have hsecond := Harvest.read_carry (.moved (.shift n)) (eofB.shift n) _ hb
  rw [Setting.carry_moved] at hsecond
  let tail := (⟨.defWord, s⟩ :: lb).map (Lexeme.move (.shift n))
  have hdef : ∀ l ∈ tail.head?, l.token = .defWord := by
    intro l hl
    cases hl
    rfl
  have hfirst := Harvest.read_carry (.before tail hdef) (eofB.shift n) _ ha
  rw [Setting.carry_before] at hfirst
  have hprocs : Procedure.move .stay = id := funext Procedure.move_stay
  have hfaults : Fault.carry (.before tail hdef) eofA (eofB.shift n) =
      Fault.atDef eofA (s.shift n) := rfl
  have hmoved : Fault.carry (.moved (.shift n)) eofB (eofB.shift n) = Fault.move (.shift n) :=
    funext (Fault.carry_moved (.shift n) eofB)
  refine hfirst.trans ?_
  rw [Harvest.carry, hfaults]
  simp only [Setting.before, hprocs, List.map_id]
  rw [show Harvest.read (eofB.shift n) tail = _ from hsecond, Harvest.carry, hmoved]
  simp [Setting.moved, Harvest.read]

theorem Fault.atDef_of_start_lt {eof place : Span} {f : Fault} (h : f.span.start < eof.start) :
    f.atDef eof place = f := by
  rw [Fault.atDef, if_neg]
  intro he
  rw [he] at h
  exact Nat.lt_irrefl _ h

/-- Raising the faults at the end later changes no comparison with an earlier fault. -/
theorem Fault.atDef_stop_le_iff {eof place : Span} {x y : Fault}
    (hstart : x.span.start < eof.start) (hstop : x.span.stop ≤ eof.stop)
    (hplace : eof.stop ≤ place.stop) :
    (x.atDef eof place).span.stop ≤ (y.atDef eof place).span.stop ↔
      x.span.stop ≤ y.span.stop := by
  rw [Fault.atDef_of_start_lt hstart]
  by_cases hy : y.span = eof
  · simp only [Fault.atDef, hy, if_true]
    omega
  · rw [Fault.atDef, if_neg hy]

theorem Fault.atDef_stop_le {eof place : Span} {x : Fault} {n : Nat} (hx : x.span.stop ≤ n)
    (hplace : place.stop ≤ n) : (x.atDef eof place).span.stop ≤ n := by
  unfold Fault.atDef
  split
  · exact hplace
  · exact hx

theorem Fault.move_shift_stop (n : Nat) (f : Fault) :
    (f.move (.shift n)).span.stop = f.span.stop + n := rfl

section

variable {a b : String} {s : Span} {rest : List Piece} {f : Fault}

theorem bounds_of_mem_strayFaults (h : f ∈ Piece.strayFaults (Piece.scan a)) :
    f.span.start < f.span.stop ∧ f.span.stop ≤ Text.byteLength a.toList := by
  obtain ⟨c, hc⟩ := Piece.exists_of_mem_strayFaults h
  have := Piece.bounds_of_mem_scanFrom hc
  simp only [Piece.span] at this
  omega

/-- Reading raises no fault beyond the end of the text. -/
theorem stop_le_of_mem_faults
    (h : f ∈ (Harvest.read (Script.eof a) (Piece.lexemes (Piece.scan a))).faults) :
    f.span.stop ≤ Text.byteLength a.toList := by
  refine (Harvest.raised_of_mem h).stop_le (Nat.le_refl _) fun l hl => ?_
  have := Piece.bounds_of_mem_scanFrom (Piece.mem_lexemes hl)
  simp only [Piece.span] at this
  omega

/-- Stray characters of a text that begins with a token stand behind that token. -/
theorem stop_lt_of_mem_strayFaults {l : Lexeme} (hscan : Piece.scan b = .token l :: rest)
    (h : f ∈ Piece.strayFaults (Piece.scan b)) : l.span.stop < f.span.stop := by
  have hf := (bounds_of_mem_strayFaults h).1
  obtain ⟨c, hc⟩ := Piece.exists_of_mem_strayFaults h
  have hpair := Piece.pairwise_scanFrom 0 b.toList
  rw [show Piece.scanFrom 0 b.toList = _ from hscan] at hpair
  rw [hscan] at hc
  rcases List.mem_cons.1 hc with hc | hc
  · cases hc
  · have := (List.pairwise_cons.1 hpair).1 _ hc
    simp only [Piece.span] at this
    omega

/-- Merging the faults of a joined text merges those of its two parts. -/
theorem mergeFaults_append_def (hscan : Piece.scan b = .token ⟨.defWord, s⟩ :: rest)
    (found found' : List Fault)
    (hfound : ∀ f ∈ found, f.span.stop ≤ Text.byteLength a.toList) :
    let n := Text.byteLength a.toList + 1
    let strays := Piece.strayFaults (Piece.scan a)
    let strays' := Piece.strayFaults (Piece.scan b)
    Piece.mergeFaults (strays ++ strays'.map (Fault.move (.shift n)))
        (found.map (Fault.atDef (Script.eof a) (s.shift n)) ++ found'.map (Fault.move (.shift n))) =
      (Piece.mergeFaults strays found).map (Fault.atDef (Script.eof a) (s.shift n)) ++
        (Piece.mergeFaults strays' found').map (Fault.move (.shift n)) := by
  intro n strays strays'
  have hn : Text.byteLength a.toList < n := Nat.lt_succ_self _
  have hbounds : ∀ x ∈ strays, x.span.start < (Script.eof a).start ∧
      x.span.stop ≤ Text.byteLength a.toList := by
    intro x hx
    have := bounds_of_mem_strayFaults hx
    simp only [Script.eof, Span.point]
    omega
  -- The strays of the first text are far from its end, so they stay as they are.
  have hstay : strays.map (Fault.atDef (Script.eof a) (s.shift n)) = strays :=
    (List.map_congr_left fun x hx => Fault.atDef_of_start_lt (hbounds x hx).1).trans
      (List.map_id strays)
  have hplace : (Script.eof a).stop ≤ (s.shift n).stop := by
    simp only [Script.eof, Span.point, Span.shift]
    omega
  unfold Piece.mergeFaults
  rw [Order.merge_append, ← Order.merge_map, ← Order.merge_map, hstay]
  · intro x _ y _
    simp only [Fault.move_shift_stop]
    omega
  · intro x hx y _
    exact Fault.atDef_stop_le_iff (hbounds x hx).1 (hbounds x hx).2 hplace
  · -- A stray of the second text stands behind its `def`.
    intro x hx y hy
    obtain ⟨x', hx', rfl⟩ := List.mem_map.1 hx
    obtain ⟨y', hy', rfl⟩ := List.mem_map.1 hy
    have hlt : s.stop < x'.span.stop := stop_lt_of_mem_strayFaults hscan hx'
    have hle : (y'.atDef (Script.eof a) (s.shift n)).span.stop ≤ s.stop + n :=
      Fault.atDef_stop_le (by have := hfound y' hy'; omega) (Nat.le_refl _)
    rw [Fault.move_shift_stop]
    omega
  · intro x hx z hz
    have hz' : n ≤ z.span.stop := by
      rcases List.mem_append.1 hz with hz | hz
      · obtain ⟨z', _, rfl⟩ := List.mem_map.1 hz
        rw [Fault.move_shift_stop]
        omega
      · obtain ⟨z', _, rfl⟩ := List.mem_map.1 hz
        rw [Fault.move_shift_stop]
        omega
    have := (hbounds x hx).2
    omega

/-- All that is found in a joined text: what is found in the first, then what is found in
the second. -/
theorem Script.harvest_append_def (hscan : Piece.scan b = .token ⟨.defWord, s⟩ :: rest) :
    let n := Text.byteLength a.toList + 1
    harvest (a ++ "\n" ++ b) =
      ⟨(harvest a).procedures ++ (harvest b).procedures.map (Procedure.move (.shift n)),
        (harvest a).faults.map (Fault.atDef (eof a) (s.shift n)) ++
          (harvest b).faults.map (Fault.move (.shift n))⟩ := by
  intro n
  have hlb : Piece.lexemes (Piece.scan b) = ⟨.defWord, s⟩ :: Piece.lexemes rest := by
    rw [hscan]
    rfl
  have heof : Script.eof (a ++ "\n" ++ b) = (Script.eof b).shift n := by
    simp only [Script.eof, Span.point, Span.shift, String.toList_append, Text.byteLength_append, n]
    have : Text.byteLength "\n".toList = 1 := by decide
    congr 1 <;> omega
  have hboundB := bounded_lexemes b
  rw [hlb] at hboundB
  have hread := Harvest.read_append_def n (bounded_lexemes a) hboundB
  rw [← hlb, ← Piece.lexemes_move, ← Piece.lexemes_append, ← Piece.scan_append_newline, ← heof]
    at hread
  have hmerge := mergeFaults_append_def (a := a) hscan
    (Harvest.read (eof a) (Piece.lexemes (Piece.scan a))).faults
    (Harvest.read (eof b) (Piece.lexemes (Piece.scan b))).faults
    fun f hf => stop_le_of_mem_faults hf
  rw [Script.harvest_eq, hread, Piece.scan_append_newline, Piece.strayFaults_append,
    Piece.strayFaults_move]
  exact congrArg _ hmerge

end

/-- A `def` is a hard point to resume at: a text with another behind it that begins with
`def` has the faults of the first, those at its end raised at that `def`, and then the
faults of the second; and two scripts make one. -/
theorem Script.read_joined (a b : String) (s : Span)
    (h : (Piece.scan b).head? = some (.token ⟨.defWord, s⟩)) :
    let n := Text.byteLength a.toList + 1
    faultsOf (read (a ++ "\n" ++ b)) =
        (faultsOf (read a)).map (Fault.atDef (eof a) (s.shift n)) ++
          (faultsOf (read b)).map (Fault.move (.shift n)) ∧
      ∀ first second, read a = .ok first → read b = .ok second →
        read (a ++ "\n" ++ b) =
          .ok ⟨first.procedures ++ (second.move (.shift n)).procedures⟩ := by
  intro n
  obtain ⟨rest, hscan⟩ : ∃ rest, Piece.scan b = .token ⟨.defWord, s⟩ :: rest := by
    cases hb : Piece.scan b with
    | nil => rw [hb] at h; cases h
    | cons p rest =>
      rw [hb] at h
      injection h with hp
      exact ⟨rest, by rw [hp]⟩
  have hharvest := harvest_append_def (a := a) hscan
  constructor
  · simp only [faultsOf_read, hharvest, n]
  · intro first second hfirst hsecond
    obtain ⟨hfa, rfl⟩ := read_eq_ok_iff_harvest.1 hfirst
    obtain ⟨hfb, rfl⟩ := read_eq_ok_iff_harvest.1 hsecond
    refine read_eq_ok_iff_harvest.2 ⟨?_, ?_⟩
    · rw [hharvest, hfa, hfb]
      rfl
    · rw [hharvest]
      rfl

/-- A parameter list that breaks off is closed off by the next `def`, which is read. -/
theorem Script.read_joined_unclosed :
    (Piece.scan "def g() : Void is end").head? = some (.token ⟨.defWord, ⟨0, 3⟩⟩) ∧
      faultsOf (read ("def f(@" ++ "\n" ++ "def g() : Void is end")) =
        [⟨.stray '@', ⟨6, 7⟩⟩, ⟨.unexpected .identifier (some .defWord), ⟨8, 11⟩⟩] := by
  have h : (Piece.scan "def g() : Void is end").head? = some (.token ⟨.defWord, ⟨0, 3⟩⟩) := by
    decide +kernel
  refine ⟨h, ?_⟩
  rw [(read_joined "def f(@" "def g() : Void is end" ⟨0, 3⟩ h).1]
  decide +kernel

end ScriptCheck
