import ScriptCheck.Proofs.Parser.Agreement
import ScriptCheck.Proofs.Parser.Endings
import ScriptCheck.Proofs.Reading.Parts
import ScriptCheck.Proofs.Token.Stream

/-!
# What is recorded while reading ahead

Whichever routine goes on to the next token, and for whatever reason, the characters on the way
there that begin no token are recorded then and once. No act takes a fault back. So the recorded
strays and those that are still ahead are together the same at all times, and at the end of the
text none is ahead.

Complaints are recorded at the token at hand. What has been recorded by then ends no later than
that token, and what is recorded afterwards ends behind it or with it. So the faults stand in the
order in which they end, strays first, and a list in this order can be put together from its two
parts: it is what is collected from a text.
-/
namespace ScriptCheck

namespace Order

variable {α : Type} {key : α → Nat} {x y : α} {xs ys : List α}

theorem merge_concat_left (hys : ∀ y ∈ ys, key y < key x) (hxs : ∀ z ∈ xs, key z ≤ key x) :
    merge key (xs ++ [x]) ys = merge key xs ys ++ [x] := by
  have happend : merge key (xs ++ [x]) (ys ++ []) = merge key xs ys ++ merge key [x] [] :=
    merge_append (List.forall_mem_singleton.2 hys) fun z hz =>
      List.forall_mem_singleton.2 (hxs z hz)
  rwa [List.append_nil] at happend

theorem merge_concat_right (h : ∀ z ∈ xs, key z ≤ key y) :
    merge key xs (ys ++ [y]) = merge key xs ys ++ [y] := by
  have happend : merge key (xs ++ []) (ys ++ [y]) = merge key xs ys ++ merge key [] [y] :=
    merge_append (List.forall_mem_nil _) fun z hz => List.forall_mem_singleton.2 (h z hz)
  rwa [List.append_nil] at happend

end Order

/-! ## Faults in their order -/

/-- The list is put together from its strays and its other faults by where they end, and all of
them end by `k`. -/
structure Woven (fs : List Fault) (k : Nat) : Prop where
  merged : Piece.mergeFaults (fs.filter (·.isLexical)) (fs.filter (!·.isLexical)) = fs
  stop_le : ∀ f ∈ fs, f.span.stop ≤ k

namespace Woven

variable {fs : List Fault} {f : Fault} {k : Nat}

theorem nil : Woven [] k := ⟨rfl, List.forall_mem_nil _⟩

theorem stop_le_concat (h : Woven fs k) (hk : k ≤ f.span.stop) :
    ∀ g ∈ fs ++ [f], g.span.stop ≤ f.span.stop :=
  List.forall_mem_append.2 ⟨fun g hg => Nat.le_trans (h.stop_le g hg) hk,
    List.forall_mem_singleton.2 (Nat.le_refl _)⟩

/-- A stray comes behind all that end before it. -/
theorem stray (h : Woven fs k) (hf : f.isLexical = true) (hk : k < f.span.stop) :
    Woven (fs ++ [f]) f.span.stop := by
  refine ⟨?_, h.stop_le_concat (Nat.le_of_lt hk)⟩
  have hlt (g : Fault) (hg : g ∈ fs) : g.span.stop < f.span.stop :=
    Nat.lt_of_le_of_lt (h.stop_le g hg) hk
  have hstrays : (fs ++ [f]).filter (·.isLexical) = fs.filter (·.isLexical) ++ [f] := by simp [hf]
  have hothers : (fs ++ [f]).filter (!·.isLexical) = fs.filter (!·.isLexical) := by simp [hf]
  rw [hstrays, hothers, Piece.mergeFaults, Order.merge_concat_left]
  · exact congrArg (· ++ [f]) h.merged
  · exact fun g hg => hlt g (List.mem_filter.1 hg).1
  · exact fun g hg => Nat.le_of_lt (hlt g (List.mem_filter.1 hg).1)

/-- Any other fault comes behind all that end no later. -/
theorem fault (h : Woven fs k) (hf : f.isLexical = false) (hk : k ≤ f.span.stop) :
    Woven (fs ++ [f]) f.span.stop := by
  refine ⟨?_, h.stop_le_concat hk⟩
  have hstrays : (fs ++ [f]).filter (·.isLexical) = fs.filter (·.isLexical) := by simp [hf]
  have hothers : (fs ++ [f]).filter (!·.isLexical) = fs.filter (!·.isLexical) ++ [f] := by
    simp [hf]
  rw [hstrays, hothers, Piece.mergeFaults, Order.merge_concat_right]
  · exact congrArg (· ++ [f]) h.merged
  · exact fun g hg => Nat.le_trans (h.stop_le g (List.mem_filter.1 hg).1) hk

end Woven

/-! ## Strays on the way -/

/-- The pieces stand one behind the other, and all of them before `n`; none is empty. -/
structure Piece.InOrder (n : Nat) (ps : List Piece) : Prop where
  nonempty : ∀ p ∈ ps, p.span.start < p.span.stop
  apart : ps.Pairwise fun p q => p.span.stop ≤ q.span.start
  stop_le : ∀ p ∈ ps, p.span.stop ≤ n

theorem Piece.InOrder.sublist {n : Nat} {ps qs : List Piece} (h : InOrder n qs)
    (hs : ps.Sublist qs) : InOrder n ps :=
  ⟨fun p hp => h.nonempty p (hs.subset hp), h.apart.sublist hs,
    fun p hp => h.stop_le p (hs.subset hp)⟩

theorem Piece.inOrder_scan (text : String) : InOrder (Text.byteLength text.toList) (scan text) where
  nonempty p hp := (bounds_of_mem_scanFrom hp).2.1
  apart := pairwise_scanFrom 0 text.toList
  stop_le p hp := by
    have := (bounds_of_mem_scanFrom hp).2.2
    omega

namespace Parser

namespace State

variable {s : State} {ps : List Piece} {n k : Nat}

/-- The strays that are recorded already, and those that are still ahead. -/
def strays (s : State) : List Fault :=
  s.faults.filter (·.isLexical) ++ Piece.strayFaults s.ahead

/-- The token at hand and all pieces behind it. -/
def pieces (s : State) : List Piece := s.current.toList.map .token ++ s.ahead

/-- On the way to the next token each stray is recorded, and once. -/
theorem strays_pull (s : State) (ps : List Piece) :
    (s.pull ps).strays = s.faults.filter (·.isLexical) ++ Piece.strayFaults ps := by
  induction ps generalizing s with
  | nil => rfl
  | cons p ps ih =>
    cases p with
    | token l => rfl
    | stray c span =>
      have hstray : Piece.strayFaults (.stray c span :: ps) =
          ⟨.stray c, span⟩ :: Piece.strayFaults ps := rfl
      refine (ih _).trans ?_
      simp [hstray, Fault.isLexical]

/-- What is left is what stood there, from the next token on. -/
theorem pieces_pull (s : State) (ps : List Piece) : (s.pull ps).pieces <:+ ps := by
  induction ps generalizing s with
  | nil => exact List.suffix_rfl
  | cons p ps ih =>
    cases p with
    | token l => exact List.suffix_rfl
    | stray c span => exact (ih _).trans (List.suffix_cons _ _)

/-- If no token follows, nothing does. -/
theorem ahead_pull (s : State) (ps : List Piece) (h : (s.pull ps).current = none) :
    (s.pull ps).ahead = [] := by
  induction ps generalizing s with
  | nil => rfl
  | cons p ps ih =>
    cases p with
    | token l => cases h
    | stray c span => exact ih _ h

/-- If all faults so far end before the pieces begin, they end by the next token when it is at
hand, with the strays before it among them. -/
theorem woven_pull (hps : Piece.InOrder n ps) (hfaults : Woven s.faults k)
    (hk : ∀ p ∈ ps, k ≤ p.span.start) (hn : k ≤ n) :
    Woven (s.pull ps).faults (Complaint.place (.point n) (s.pull ps).rest).stop := by
  induction ps generalizing s k with
  | nil => exact ⟨hfaults.merged, fun f hf => Nat.le_trans (hfaults.stop_le f hf) hn⟩
  | cons p ps ih =>
    have hfirst := hk p List.mem_cons_self
    have hnonempty := hps.nonempty p List.mem_cons_self
    cases p with
    | token l =>
      refine ⟨hfaults.merged, fun f hf => Nat.le_trans (hfaults.stop_le f hf) ?_⟩
      exact Nat.le_trans hfirst (Nat.le_of_lt hnonempty)
    | stray c span =>
      have hstray : Woven (s.faults ++ [⟨.stray c, span⟩]) span.stop :=
        hfaults.stray rfl (Nat.lt_of_le_of_lt hfirst hnonempty)
      have hbehind := (List.pairwise_cons.1 hps.apart).1
      exact ih (hps.sublist (List.sublist_cons_self _ _)) hstray hbehind
        (hps.stop_le _ List.mem_cons_self)

end State

/-- No act loses a stray, records one twice or one that is not there. -/
theorem Act.strays_change (act : Act) (s : State) : (act.change s).strays = s.strays := by
  cases act with
  | take => exact State.strays_pull s s.ahead
  | record why =>
    have hfault := why.isLexical_toFault s.eof s.rest
    simp [Act.change, State.strays, hfault]
  | _ => rfl

/-- The same holds for all that is done, step after step. -/
theorem Trace.strays {s s' : State} {log : List Moment} (h : Trace s log s') :
    (∀ m ∈ log, m.state.strays = s.strays) ∧ s'.strays = s.strays :=
  h.invariant (P := fun t => t.strays = s.strays)
    (fun m _ hm => (m.act.strays_change m.state).trans hm) rfl

/-! ## Along a text -/

/-- How a parser of the text stands at any time. What is at hand or ahead is the rest of the
text; nothing is ahead of its end. Each stray of the text is recorded or ahead, and what is
recorded stands in order. -/
structure State.Recorded (text : String) (s : State) : Prop where
  eof_eq : s.eof = Script.eof text
  suffix : s.pieces <:+ Piece.scan text
  ahead_eq : s.current = none → s.ahead = []
  strays_eq : s.strays = Piece.strayFaults (Piece.scan text)
  woven : Woven s.faults (Complaint.place (Script.eof text) s.rest).stop

section

variable {text : String} {s : State} {ps : List Piece} {k : Nat}

theorem State.recorded_pull (heof : s.eof = Script.eof text) (hps : ps <:+ Piece.scan text)
    (hstrays : s.faults.filter (·.isLexical) ++ Piece.strayFaults ps =
      Piece.strayFaults (Piece.scan text))
    (hfaults : Woven s.faults k) (hk : ∀ p ∈ ps, k ≤ p.span.start)
    (hn : k ≤ Text.byteLength text.toList) : (s.pull ps).Recorded text where
  eof_eq := (s.eof_pull ps).trans heof
  suffix := (s.pieces_pull ps).trans hps
  ahead_eq := s.ahead_pull ps
  strays_eq := (s.strays_pull ps).trans hstrays
  woven := woven_pull ((Piece.inOrder_scan text).sublist hps.sublist) hfaults hk hn

theorem State.recorded_initial (text : String) : (State.initial text).Recorded text :=
  recorded_pull rfl List.suffix_rfl rfl Woven.nil (fun _ _ => Nat.zero_le _) (Nat.zero_le _)

/-- The token at hand ends before all pieces behind it. -/
theorem State.Recorded.place_le (h : s.Recorded text) :
    (∀ p ∈ s.ahead, (Complaint.place (Script.eof text) s.rest).stop ≤ p.span.start) ∧
      (Complaint.place (Script.eof text) s.rest).stop ≤ Text.byteLength text.toList := by
  have horder := (Piece.inOrder_scan text).sublist h.suffix.sublist
  have hend := h.ahead_eq
  obtain ⟨eof, current, ahead, depth, faults⟩ := s
  cases current with
  | none =>
    obtain rfl : ahead = [] := hend rfl
    exact ⟨List.forall_mem_nil _, Nat.le_refl _⟩
  | some l =>
    exact ⟨(List.pairwise_cons.1 horder.apart).1, horder.stop_le (.token l) List.mem_cons_self⟩

/-- What one lawful act does to the faults. -/
theorem State.Recorded.step {inner : Bool} {d : Nat} {m : Moment}
    (hm : m.Lawful (Piece.lexemes (Piece.scan text)) inner d) (h : m.state.Recorded text) :
    (m.act.change m.state).Recorded text := by
  obtain ⟨act, s⟩ := m
  have hstrays := (act.strays_change s).trans h.strays_eq
  cases act with
  | take =>
    have hahead : s.ahead <:+ s.pieces := List.suffix_append _ _
    exact recorded_pull h.eof_eq (hahead.trans h.suffix) h.strays_eq h.woven h.place_le.1
      h.place_le.2
  | record why =>
    have hspan := (Complaint.span_toFault (ordered_lexemes text) s.eof (hm.record why rfl)).2
    have hwoven := h.woven
    refine ⟨h.eof_eq, h.suffix, h.ahead_eq, hstrays, ?_⟩
    rw [← h.eof_eq] at hwoven ⊢
    have hfault := hwoven.fault (why.isLexical_toFault s.eof s.rest) (Nat.le_of_eq hspan.symm)
    rw [hspan] at hfault
    exact hfault
  | _ => exact ⟨h.eof_eq, h.suffix, h.ahead_eq, hstrays, h.woven⟩

/-- A run of lawful acts, from the state in which a parser begins with the text. -/
theorem Trace.recorded {inner : Bool} {d : Nat} {log : List Moment} {t : State}
    (h : Trace (State.initial text) log t)
    (hlog : ∀ m ∈ log, m.Lawful (Piece.lexemes (Piece.scan text)) inner d) :
    (∀ m ∈ log, m.state.Recorded text) ∧ t.Recorded text :=
  h.invariant (fun m hm => State.Recorded.step (hlog m hm)) (State.recorded_initial text)

end

theorem State.view_initial (text : String) : (State.initial text).view =
    ⟨Script.eof text, Piece.lexemes (Piece.scan text), 0, []⟩ :=
  State.view_pull _ _

/-- The state at the end of a text, where some faults have been recorded. -/
def State.final (text : String) (faults : List Fault) : State :=
  ⟨Script.eof text, none, [], 0, faults⟩

/-- At the end of the text all strays are recorded, and so the faults are those of the readers
with the strays merged in. -/
theorem State.Recorded.eq_final {text : String} {t : State} {complaints : List Fault}
    (h : t.Recorded text) (hview : t.view = ⟨Script.eof text, [], 0, complaints⟩) :
    t = State.final text
      (Piece.mergeFaults (Piece.strayFaults (Piece.scan text)) complaints) := by
  obtain ⟨heof, -, hahead, hstrays, hwoven⟩ := h
  obtain ⟨eof, current, ahead, depth, faults⟩ := t
  simp only [State.view, View.mk.injEq] at hview
  obtain ⟨-, hrest, hdepth, hcomplaints⟩ := hview
  cases current with
  | some l => cases hrest
  | none =>
    obtain rfl : ahead = [] := hahead rfl
    have hlexical : faults.filter (·.isLexical) = Piece.strayFaults (Piece.scan text) := by
      rw [← hstrays]
      exact (List.append_nil _).symm
    have hfaults := hwoven.merged
    simp only [hlexical, hcomplaints] at hfaults
    simp only [State.final, hfaults, ← heof, hdepth]

/-- A text is read to its end, with the procedures and faults that are collected from it. -/
theorem exists_script (text : String) : ∃ procedures faults log,
    Settles (fun fuel => run fuel .script) (State.initial text)
      ⟨.ok procedures, .final text faults, log⟩ ∧
    Trace (State.initial text) log (.final text faults) ∧
    (∀ m ∈ log, m.Lawful (Piece.lexemes (Piece.scan text)) false 0) ∧
    Script.harvest text = ⟨procedures, faults⟩ := by
  have hrest : (State.initial text).rest = Piece.lexemes (Piece.scan text) := State.rest_pull _ _
  have hdepth : (State.initial text).depth = 0 := State.depth_pull _ _
  have hreturns : Returns (Piece.lexemes (Piece.scan text)) false (fun fuel => run fuel .script)
      (State.initial text) := returns_run .script _
  obtain ⟨⟨answer, t, log⟩, hsettles, hlawful, -⟩ := hreturns (hrest ▸ List.suffix_rfl)
  have hgives := hsettles.gives fun fuel => meets_run fuel .script _ hdepth
  rw [State.view_initial] at hgives
  obtain ⟨rfl, hview⟩ := hgives
  have hmoments := hlawful.moments
  rw [hdepth] at hmoments
  obtain rfl := (hlawful.trace.recorded hmoments).2.eq_final hview
  exact ⟨_, _, log, hsettles, hlawful.trace, hmoments, rfl⟩

/-- No stray is lost, repeated or put out of place. Whatever a routine does, fail or recover, the
strays that are recorded and those ahead are together what they were. So a text is read to its end
with all its strays recorded, and what is recorded are its faults: they mark parts of the text and
come in the order in which they end. -/
theorem faults_keep_strays :
    (∀ {α : Type} (r : Routine α) (s : State),
      ∃ e, Settles (fun fuel => run fuel r) s e ∧ Trace s e.log e.state ∧
        (∀ m ∈ e.log, m.state.strays = s.strays) ∧ e.state.strays = s.strays) ∧
    ∀ text : String,
      (∃ procedures faults log,
        Settles (fun fuel => run fuel .script) (State.initial text)
          ⟨.ok procedures, .final text faults, log⟩ ∧
        Trace (State.initial text) log (.final text faults) ∧
        (∀ m ∈ log, m.state.Recorded text) ∧
        Script.read text = if faults.isEmpty then .ok ⟨procedures⟩ else .error faults) ∧
      (Script.faultsOf (Script.read text)).filter (·.isLexical) =
        Piece.strayFaults (Cursor.start text).results ∧
      (∀ f ∈ Script.faultsOf (Script.read text), f.span.PartOf text) ∧
      Order.Sorted (·.span.stop) (Script.faultsOf (Script.read text)) := by
  refine ⟨fun r s => ?_, fun text => ?_⟩
  · obtain ⟨e, hsettles, hlawful, -⟩ := returns_run r s List.suffix_rfl
    obtain ⟨hlog, hend⟩ := hlawful.trace.strays
    exact ⟨e, hsettles, hlawful.trace, hlog, hend⟩
  · obtain ⟨procedures, faults, log, hsettles, htrace, hlawful, hharvest⟩ := exists_script text
    obtain ⟨hlog, hend⟩ := htrace.recorded hlawful
    refine ⟨⟨procedures, faults, log, hsettles, htrace, hlog, ?_⟩, ?_, fun f hf => ?_,
      Script.sorted_stop_faults text⟩
    · rw [Script.read, hharvest]
    · rw [Script.faultsOf_read, hharvest, Cursor.results_eq, Cursor.pieces_start, ← hend.strays_eq]
      exact (List.append_nil _).symm
    · rw [Script.faultsOf_read] at hf
      exact Script.partOf_of_mem_harvest hf

-- A stray before the first token, one that is met while skipping, and one in a heading.
example : ((run 30 .script).exec (State.initial "#x @ def f(?")).map (·.state.faults) =
    some [⟨.stray '#', ⟨0, 1⟩⟩, ⟨.unexpected (.token .defWord) (some (.name "x")), ⟨1, 2⟩⟩,
      ⟨.stray '@', ⟨3, 4⟩⟩, ⟨.stray '?', ⟨11, 12⟩⟩, ⟨.unexpected .identifier none, ⟨12, 12⟩⟩] := by
  decide +kernel

end Parser

end ScriptCheck
