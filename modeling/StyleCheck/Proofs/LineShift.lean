import StyleCheck.Proofs.DoLoops

/-!
# Lines further down

Empty lines in front of every file, with every place in a unit as many lines further down
(`Scene.down`), leave the lines, columns and tokens that the rules of indentation look at. So each
rule reports what it did, as many lines further down (`Finding.Moved`).
-/

namespace StyleCheck

/-! ## Moving down -/

def Pos.down (k : Nat) (p : Pos) : Pos := ⟨p.line + k, p.column⟩

def Extent.down (k : Nat) (e : Extent) : Extent := ⟨e.file, e.start.down k, e.stop.down k⟩

def Node.down (k : Nat) (n : Node) : Node :=
  { n with location := n.location.down k, extent := n.extent.down k }

def Token.down (k : Nat) (t : Token) : Token := { t with start := t.start.down k }

def TranslationUnit.down (k : Nat) (u : TranslationUnit) : TranslationUnit :=
  ⟨u.root.map (Node.down k), u.tokens.map (Token.down k)⟩

/-- Every file with empty lines in front of it. -/
def FileSystem.down (k : Nat) (fs : FileSystem) : FileSystem :=
  ⟨fs.entries.map fun e => (e.1, List.replicate k Text.newline ++ e.2)⟩

def Violation.down (k : Nat) (v : Violation) : Violation := { v with line := v.line + k }

def Scene.down (k : Nat) (s : Scene) : Scene := ⟨s.files.down k, s.unit.down k, s.style⟩

variable {k : Nat}

theorem Pos.down_inj {p q : Pos} : p.down k = q.down k ↔ p = q := by
  cases p
  cases q
  simp only [down, Pos.mk.injEq]
  omega

/-! ## Lines -/

namespace Text

theorem splitLines_newlines (k : Nat) (t : Text) :
    splitLines (List.replicate k newline ++ t) =
      List.replicate k ⟨[], [newline]⟩ ++ splitLines t := by
  induction k with
  | zero => rfl
  | succ k ih =>
    rw [List.replicate_succ, List.replicate_succ, List.cons_append, List.cons_append, ← ih]
    simp [splitLines, newline]

theorem lines_newlines (k : Nat) (t : Text) :
    lines (List.replicate k newline ++ t) = List.replicate k [] ++ lines t := by
  rw [lines, splitLines_newlines, List.map_append, List.map_replicate]
  rfl

theorem lineAt_down (ls : List Text) {n : Int} (hn : 1 ≤ n) :
    lineAt (List.replicate k [] ++ ls) (n + k) = lineAt ls n := by
  have h1 : (n + k - 1).toNat = k + (n - 1).toNat := by omega
  unfold lineAt atOffset?
  rw [if_pos (by omega), if_pos (by omega), h1,
    List.getElem?_append_right (by rw [List.length_replicate]; omega), List.length_replicate,
    Nat.add_sub_cancel_left]

end Text

theorem FileSystem.openFile_down (fs : FileSystem) (name : String) :
    (fs.down k).openFile name =
      (fs.openFile name).map (List.replicate k Text.newline ++ ·) := by
  have hl : ∀ es : List (String × Text),
      (es.map fun e => (e.1, List.replicate k Text.newline ++ e.2)).lookup name =
        (es.lookup name).map (List.replicate k Text.newline ++ ·) := by
    intro es
    induction es with
    | nil => rfl
    | cons e es ih =>
      rw [List.map_cons, List.lookup_cons, List.lookup_cons, ih]
      cases name == e.1 <;> rfl
  rw [openFile, openFile, down, hl]
  cases fs.entries.lookup name <;> rfl

namespace Scene

variable {s : Scene} {e : Extent}

theorem line_down (file : String) {n : Int} (hn : 1 ≤ n) :
    (s.down k).line file (n + k) = s.line file n := by
  unfold line FileSystem.read FileSystem.source
  rw [show (s.down k).files = s.files.down k from rfl, FileSystem.openFile_down]
  cases s.files.openFile (absoluteName file) with
  | error e => rfl
  | ok text =>
    show Text.lineAt (Text.lines (List.replicate k Text.newline ++ text)) (n + k) = _
    rw [Text.lines_newlines, Text.lineAt_down _ hn]
    rfl

theorem column_down (he : 1 ≤ e.start.line) : (s.down k).column (e.down k) = s.column e := by
  cases hf : e.file with
  | none => simp only [column, Extent.down, hf]
  | some file =>
    simp only [column, Extent.down, hf, Pos.down, line_down file he]
    rfl

theorem lineStart_down (he : 1 ≤ e.start.line) :
    (s.down k).lineStart (e.down k) = s.lineStart e := by
  cases hf : e.file with
  | none => simp only [lineStart, Extent.down, hf]
  | some file =>
    simp only [lineStart, Extent.down, hf, Pos.down, line_down file he]
    rfl

theorem startsLine_down (he : 1 ≤ e.start.line) :
    (s.down k).startsLine (e.down k) = s.startsLine e := by
  rw [startsLine, startsLine, lineStart_down he, column_down he]

end Scene

/-! ## Tokens -/

theorem Pos.before_down (p q : Pos) : (p.down k).before (q.down k) = p.before q := by
  rw [Bool.eq_iff_iff]
  show (decide (p.line + k < q.line + k) ||
    (decide (p.line + k = q.line + k) && decide (p.column < q.column))) = true ↔ _
  simp only [before, Bool.or_eq_true, Bool.and_eq_true, decide_eq_true_eq]
  omega

namespace Token

theorem behind_down (text : Text) : ∀ p : Pos,
    behind (p.down k) text = (behind p text).down k := by
  induction text with
  | nil => intro p; rfl
  | cons b text ih =>
    intro p
    rw [behind, behind, ← ih]
    congr 1
    split
    · simp only [Pos.down, Pos.mk.injEq, and_true]
      omega
    · rfl

theorem stop_down (t : Token) : (t.down k).stop = t.stop.down k := behind_down _ _

theorem extent_down (t : Token) : (t.down k).extent = t.extent.down k := by
  rw [extent, stop_down]
  rfl

theorem takeThrough_down (stop : Pos) (ts : List Token) :
    takeThrough (stop.down k) (ts.map (down k)) = (takeThrough stop ts).map (down k) := by
  induction ts with
  | nil => rfl
  | cons t ts ih =>
    rw [List.map_cons, takeThrough, takeThrough, stop_down, Pos.before_down, ih, List.map_cons]
    split <;> rfl

theorem within_down (ts : List Token) (file : Option String) (start stop : Pos) :
    within (ts.map (down k)) file (start.down k) (stop.down k) =
      (within ts file start stop).map (down k) := by
  have hp : ((fun t => some t.file == file && !t.start.before (start.down k)) ∘ down k) =
      fun t : Token => some t.file == file && !t.start.before start := by
    funext t
    exact congrArg (fun b => some t.file == file && !b) (Pos.before_down t.start start)
  rw [within, within, List.filter_map, hp, takeThrough_down]

end Token

namespace Scene

variable {s : Scene} {e : Extent}

theorem tokensOf_down (he : 1 ≤ e.stop.line) (adjust : Int → Int) :
    (s.down k).tokensOf (e.down k) adjust =
      (s.tokensOf e adjust).map (List.map (Token.down k)) := by
  cases hf : e.file with
  | none => simp only [tokensOf, Extent.down, hf]; rfl
  | some file =>
    simp only [tokensOf, Extent.down, hf]
    show ((s.down k).line file (e.stop.line + k) >>= _) =
      Except.map _ (s.line file e.stop.line >>= _)
    rw [line_down file he]
    cases s.line file e.stop.line with
    | error f => rfl
    | ok line =>
      exact congrArg Except.ok (Token.within_down s.unit.tokens (some file) e.start
        ⟨e.stop.line, adjust (min e.stop.column (Text.trimEnd line).length)⟩)

end Scene

/-! ## Nodes -/

namespace Node

theorem down_keepsAccess : KeepsAccess (down k) := ⟨fun _ => rfl, fun _ _ => rfl⟩

theorem down_keepsLoops : KeepsLoops (down k) where
  id _ := rfl
  kind n := (Alike.refl n.kind).mono fun _ h => h ▸ Iff.rfl
  attached _ := rfl
  detached _ := rfl
  located m n := by
    have hp : (m.location.down k == n.location.down k) = (m.location == n.location) := by
      rw [Bool.eq_iff_iff, beq_iff_eq, beq_iff_eq, Pos.down_inj]
    exact congrArg (m.file == n.file && ·) hp

end Node

theorem Tree.extent_down (t : Tree) : (t.map (Node.down k)).extent = t.extent.down k := by
  rw [extent, node_map]
  rfl

/-! ## Rules -/

/-- The second judgement reports what the first does, as far down. -/
abbrev Finding.Moved (k : Nat) : Finding Unit → Finding Unit → Prop :=
  Report.Parallel (Violation.down k) Eq

theorem Finding.flag_moved (rule : String) (e : Extent) (text : String) :
    Moved k (flag rule e text) (flag rule (e.down k) text) := .note _

theorem Finding.flagToken_moved (rule : String) (t : Token) (text : String) :
    Moved k (flag rule t.extent text) (flag rule (t.down k).extent text) := by
  rw [Token.extent_down]
  exact flag_moved rule t.extent text

namespace Token

theorem openingBrace?_down (ts : List Token) :
    openingBrace? (ts.map (down k)) = (openingBrace? ts).map (down k) := List.find?_map ..

theorem closingBrace?_down (ts : List Token) :
    closingBrace? (ts.map (down k)) = (closingBrace? ts).map (down k) := by
  rw [closingBrace?, ← List.map_reverse]
  exact List.find?_map ..

theorem beforeBrace?_down (ts : List Token) : ∀ previous : Option Token,
    beforeBrace? (previous.map (down k)) (ts.map (down k)) =
      (beforeBrace? previous ts).map (down k) := by
  induction ts with
  | nil => intro previous; rfl
  | cons t ts ih =>
    intro previous
    rw [List.map_cons, beforeBrace?, beforeBrace?, ← Option.map_some, ih]
    show (if t.isMark "\x7b" then _ else _) = _
    split <;> rfl

theorem first_down (ts : List Token) :
    first (ts.map (down k)) = (first ts).map (down k) := by
  cases ts <;> rfl

end Token

namespace Scene

open Finding (Moved flag_moved flagToken_moved)

theorem checkClosing_moved (ts : List Token) :
    Moved k (checkClosing ts) (checkClosing (ts.map (Token.down k))) := by
  unfold checkClosing
  rw [Token.first_down, Token.closingBrace?_down]
  refine .bind_map fun first _ => ?_
  have hcolumn : Extent.startOnSameColumn (some (first.down k).extent)
      (((Token.closingBrace? ts).map (Token.down k)).map Token.extent) =
        Extent.startOnSameColumn (some first.extent)
          ((Token.closingBrace? ts).map Token.extent) := by
    cases Token.closingBrace? ts <;> rfl
  simp only [hcolumn, present_map]
  exact .ite Iff.rfl (.bind_map fun closing _ => flagToken_moved ..) (.pure rfl)

theorem checkSameLine_moved (ts : List Token) (opening : Token) :
    Moved k (checkSameLine ts opening)
      (checkSameLine (ts.map (Token.down k)) (opening.down k)) := by
  have hprevious : Token.beforeBrace? none (ts.map (Token.down k)) =
      (Token.beforeBrace? none ts).map (Token.down k) := Token.beforeBrace?_down ts none
  have hline : Extent.startOnSameLine
      (((Token.beforeBrace? none ts).map (Token.down k)).map Token.extent)
        (some (opening.down k).extent) =
      Extent.startOnSameLine ((Token.beforeBrace? none ts).map Token.extent)
        (some opening.extent) := by
    cases Token.beforeBrace? none ts with
    | none => rfl
    | some previous =>
      refine congrArg some ?_
      rw [Bool.eq_iff_iff, beq_iff_eq, beq_iff_eq]
      exact Int.add_left_inj _
  unfold checkSameLine
  simp only [hprevious, hline]
  exact .ite Iff.rfl (flagToken_moved ..) (checkClosing_moved ts)

theorem checkNextLine_moved (ts : List Token) (opening : Token) :
    Moved k (checkNextLine ts opening)
      (checkNextLine (ts.map (Token.down k)) (opening.down k)) := by
  have hprevious : Token.beforeBrace? none (ts.map (Token.down k)) =
      (Token.beforeBrace? none ts).map (Token.down k) := Token.beforeBrace?_down ts none
  unfold checkNextLine
  rw [hprevious, present_map, Token.first_down]
  refine .bind_map fun previous _ => ?_
  have hline : (previous.down k).start.line + 1 ≠ (opening.down k).start.line ↔
      previous.start.line + 1 ≠ opening.start.line := by
    simp only [Token.down, Pos.down]
    omega
  refine .ite hline.symm ?_ ?_
  · exact (flagToken_moved ..).bind fun _ => checkClosing_moved ts
  · refine .bind_map fun first _ => ?_
    refine .ite Iff.rfl ?_ (checkClosing_moved ts)
    exact (flagToken_moved ..).bind fun _ => checkClosing_moved ts

variable {s : Scene} {f : Frame} {e : Extent} {ts : List Token}

theorem checkStart_moved (he : 1 ≤ e.start.line) (offset : Int) :
    Moved k (s.checkStart f e offset) ((s.down k).checkStart f (e.down k) offset) := by
  unfold checkStart
  rw [startsLine_down he, column_down he]
  refine .bind_same fun starts _ => .ite Iff.rfl ?_ (.pure rfl)
  exact .bind_same fun column _ => .ite Iff.rfl (flag_moved ..) (.pure rfl)

/-- Tokens start in line one or further down. -/
def OnLines (ts : List Token) : Prop := ∀ t ∈ ts, 1 ≤ t.start.line

theorem column_token_down {t : Token} (ht : 1 ≤ t.start.line) :
    (s.down k).column (t.down k).extent = s.column t.extent := by
  rw [Token.extent_down]
  exact column_down ht

theorem closingBrace?_onLines (hts : OnLines ts) {t : Token}
    (h : present "extent" (Token.closingBrace? ts) = .ok t) : 1 ≤ t.start.line :=
  hts t (List.mem_reverse.mp (List.mem_of_find?_eq_some (present_eq_ok.mp h)))

theorem checkNextLineIndent_moved (hts : OnLines ts) {opening : Token} (ho : opening ∈ ts) :
    Moved k (s.checkNextLineIndent f ts opening)
      ((s.down k).checkNextLineIndent f (ts.map (Token.down k)) (opening.down k)) := by
  have hprevious : Token.beforeBrace? none (ts.map (Token.down k)) =
      (Token.beforeBrace? none ts).map (Token.down k) := Token.beforeBrace?_down ts none
  unfold checkNextLineIndent
  rw [hprevious, present_map, Token.closingBrace?_down, present_map,
    column_token_down (hts opening ho)]
  refine .bind_map fun previous _ => ?_
  have hline : previous.start.line = opening.start.line + 1 ↔
      (previous.down k).start.line = (opening.down k).start.line + 1 := by
    simp only [Token.down, Pos.down]
    omega
  refine .ite_bind hline (flagToken_moved ..) ?_
  refine .bind_same fun column _ => .ite Iff.rfl (flagToken_moved ..) ?_
  refine .bind_map fun closing hclosing => ?_
  rw [column_token_down (closingBrace?_onLines hts hclosing)]
  exact .bind_same fun closingColumn _ => .ite Iff.rfl (flagToken_moved ..) (.pure rfl)

theorem checkBraces_moved (hs : OnLines s.unit.tokens) (he : 1 ≤ e.stop.line)
    (placement : BracePlacement) :
    Moved k (s.checkBraces f e placement) ((s.down k).checkBraces f (e.down k) placement) := by
  unfold checkBraces
  rw [tokensOf_down he]
  refine .bind_map fun ts hts => ?_
  rw [Token.openingBrace?_down, Token.closingBrace?_down]
  cases hopening : Token.openingBrace? ts with
  | none =>
    refine .ite ?_ (.giveUp _) (.pure rfl)
    rw [Option.isSome_map]
  | some opening =>
    cases placement with
    | sameLine => exact checkSameLine_moved ts opening
    | nextLine => exact checkNextLine_moved ts opening
    | nextLineIndent =>
      exact checkNextLineIndent_moved (fun t ht => hs t (tokensOf_subset hts ht))
        (List.mem_of_find?_eq_some hopening)
    | other _ => exact .giveUp _

theorem checkCompound_moved (hs : OnLines s.unit.tokens) (he : 1 ≤ e.stop.line) :
    Moved k (s.checkCompound f e) ((s.down k).checkCompound f (e.down k)) := by
  unfold checkCompound
  rw [tokensOf_down he]
  refine .ite Iff.rfl (.pure rfl) (.bind_map fun ts hts => ?_)
  have hlines : OnLines ts := fun t ht => hs t (tokensOf_subset hts ht)
  rw [Token.openingBrace?_down, Token.closingBrace?_down, present_map, present_map]
  refine .bind_map fun opening hopening => ?_
  rw [column_token_down (hlines opening (List.mem_of_find?_eq_some (present_eq_ok.mp hopening)))]
  refine .bind_same fun column _ => .ite Iff.rfl (flagToken_moved ..) ?_
  refine .bind_map fun closing hclosing => ?_
  rw [column_token_down (closingBrace?_onLines hlines hclosing)]
  exact .bind_same fun closingColumn _ => .ite Iff.rfl (flagToken_moved ..) (.pure rfl)

theorem checkDoKeyword_moved {l : DoLoop} (hl : 1 ≤ l.doKeyword.start.line) :
    Moved k (s.checkDoKeyword f l) ((s.down k).checkDoKeyword f (l.map (Token.down k))) := by
  unfold checkDoKeyword
  rw [show (l.map (Token.down k)).doKeyword = l.doKeyword.down k from rfl, column_token_down hl]
  exact .bind_same fun column _ => .ite Iff.rfl (flagToken_moved ..) (.pure rfl)

theorem checkKeywordColumns_moved {l : DoLoop} (hdo : 1 ≤ l.doKeyword.start.line)
    (hwhile : 1 ≤ l.whileKeyword.start.line) :
    Moved k (s.checkKeywordColumns l) ((s.down k).checkKeywordColumns (l.map (Token.down k))) := by
  unfold checkKeywordColumns
  rw [show (l.map (Token.down k)).doKeyword = l.doKeyword.down k from rfl,
    show (l.map (Token.down k)).whileKeyword = l.whileKeyword.down k from rfl,
    column_token_down hdo, column_token_down hwhile]
  refine .bind_same fun whileColumn _ => .bind_same fun doColumn _ => ?_
  exact .ite Iff.rfl (flagToken_moved ..) (.pure rfl)

theorem checkDoOpening_moved {opening : Token} (ho : 1 ≤ opening.start.line) (levels : Levels) :
    Moved k (s.checkDoOpening levels opening)
      ((s.down k).checkDoOpening levels (opening.down k)) := by
  unfold checkDoOpening
  rw [column_token_down ho]
  exact .bind_same fun column _ => .ite Iff.rfl (flagToken_moved ..) (.pure rfl)

theorem checkDoSameLine_moved {l : DoLoop} {opening closing : Token}
    (hdo : 1 ≤ l.doKeyword.start.line) (hc : 1 ≤ closing.start.line) :
    Moved k (s.checkDoSameLine l opening closing)
      ((s.down k).checkDoSameLine (l.map (Token.down k)) (opening.down k) (closing.down k)) := by
  unfold checkDoSameLine
  rw [show (l.map (Token.down k)).doKeyword = l.doKeyword.down k from rfl,
    show (l.map (Token.down k)).whileKeyword = l.whileKeyword.down k from rfl,
    column_token_down hdo, column_token_down hc]
  refine .ite_bind ?_ (flagToken_moved ..) (.ite_bind ?_ (flagToken_moved ..) ?_)
  · exact not_congr (Int.add_left_inj _).symm
  · exact not_congr (Int.add_left_inj _).symm
  · refine .bind_same fun closingColumn _ => .bind_same fun doColumn _ => ?_
    exact .ite Iff.rfl (flagToken_moved ..) (.pure rfl)

theorem checkDoNextLine_moved {l : DoLoop} {opening closing : Token}
    (hdo : 1 ≤ l.doKeyword.start.line) (hwhile : 1 ≤ l.whileKeyword.start.line)
    (ho : 1 ≤ opening.start.line) (hc : 1 ≤ closing.start.line) :
    Moved k (s.checkDoNextLine f l opening closing)
      ((s.down k).checkDoNextLine f (l.map (Token.down k)) (opening.down k) (closing.down k)) := by
  have hline : ∀ {a b : Token}, a.start.line + 1 ≠ b.start.line ↔
      (a.down k).start.line + 1 ≠ (b.down k).start.line := by
    intro a b
    simp only [Token.down, Pos.down]
    omega
  unfold checkDoNextLine
  refine (checkKeywordColumns_moved hdo hwhile).bind fun _ => ?_
  rw [show (l.map (Token.down k)).doKeyword = l.doKeyword.down k from rfl,
    show (l.map (Token.down k)).whileKeyword = l.whileKeyword.down k from rfl,
    column_token_down ho, column_token_down hc]
  refine .ite_bind hline (flagToken_moved ..) (.ite_bind ?_ (flagToken_moved ..) ?_)
  · rw [ne_comm, hline, ne_comm]
  · refine .bind_same fun closingColumn _ => .bind_same fun openingColumn _ => ?_
    refine .ite_bind Iff.rfl (flagToken_moved ..) ?_
    rw [show (s.down k).style = s.style from rfl]
    cases s.style.blockBraces with
    | nextLine => exact checkDoOpening_moved ho _
    | nextLineIndent => exact checkDoOpening_moved ho _
    | sameLine => exact .giveUp _
    | other _ => exact .giveUp _

theorem checkDoLoop_moved {t : Tree} (hs : OnLines s.unit.tokens)
    (ht : ∀ d, s.doLoopTree t = .ok d → 1 ≤ d.extent.stop.line ∧
      ∀ body ∈ d.children, body.node.kind = .ok .compoundStmt → 1 ≤ body.extent.stop.line) :
    Moved k (s.checkDoLoop f t) ((s.down k).checkDoLoop f (t.map (Node.down k))) := by
  have hl : Alike (fun l l' => l' = l.map (Token.down k) ∧ l.From s.unit.tokens) (s.doLoop t)
      ((s.down k).doLoop (t.map (Node.down k))) := by
    have hroot : (s.down k).unit.root = s.unit.root.map (Node.down k) := rfl
    refine doLoop_map (τ := Token.down k) Node.down_keepsLoops (fun _ => rfl) (fun _ => rfl) hroot
      fun d hd => ⟨?_, ?_⟩
    · exact tokensOf_down (ht d hd).1
    · exact fun body hb hk => tokensOf_down ((ht d hd).2 body hb hk)
  unfold checkDoLoop
  refine (Report.Parallel.lift hl).bind @fun l _ ⟨h, hfrom⟩ => ?_
  subst h
  have hdo := hs _ hfrom.doKeyword
  have hwhile := hs _ hfrom.whileKeyword
  refine (checkDoKeyword_moved hdo).bind fun _ => ?_
  rw [show (l.map (Token.down k)).braces = l.braces.map (Prod.map (Token.down k) (Token.down k))
    from rfl]
  rcases hb : l.braces with _ | ⟨opening, closing⟩
  · exact checkKeywordColumns_moved hdo hwhile
  · obtain ⟨ho, hc⟩ := hfrom.braces opening closing hb
    exact .ite Iff.rfl (checkDoSameLine_moved hdo (hs _ hc))
      (checkDoNextLine_moved hdo hwhile (hs _ ho) (hs _ hc))

variable {t : Tree}

theorem checkBlock_moved (hs : OnLines s.unit.tokens) (hstart : 1 ≤ t.extent.start.line)
    (hstop : 1 ≤ t.extent.stop.line) (placement : BracePlacement) :
    Moved k (s.checkBlock f t placement)
      ((s.down k).checkBlock f (t.map (Node.down k)) placement) := by
  unfold checkBlock
  rw [Tree.extent_down]
  exact (checkStart_moved hstart 0).bind fun _ => checkBraces_moved hs hstop placement

theorem checkAccessLabel_moved (parent : Frame) (ht : 1 ≤ t.extent.start.line) :
    Moved k (s.checkAccessLabel parent f t)
      ((s.down k).checkAccessLabel parent f (t.map (Node.down k))) := by
  unfold checkAccessLabel
  rw [Tree.extent_down]
  refine .ite Iff.rfl (.ite Iff.rfl ?_ (.giveUp _)) (checkStart_moved ht 0)
  exact checkStart_moved ht _

theorem checkJumpLabel_moved (ht : 1 ≤ t.extent.start.line) :
    Moved k (s.checkJumpLabel f t) ((s.down k).checkJumpLabel f (t.map (Node.down k))) := by
  unfold checkJumpLabel
  rw [Tree.extent_down, startsLine_down ht, column_down ht]
  refine .ite Iff.rfl ?_ (checkStart_moved ht 0)
  refine .bind_same fun starts _ => .ite Iff.rfl (flag_moved ..) ?_
  exact .bind_same fun column _ => .ite Iff.rfl (flag_moved ..) (.pure rfl)

end Scene

end StyleCheck
