import Mathlib.Algebra.GroupWithZero.Nat
import StyleCheck.Proofs.Lexing
import StyleCheck.Proofs.ReportedLines

/-!
# Places of comments

`LinesOf` says which lines a text has. A line and a column are those of one byte (`ByteAt`), and an
offset is located by the one pair that is its own (`locate_eq_iff`). The places of a comment are
those of its first byte and of its last one (`places_of_comments`).
-/

namespace StyleCheck.Text

/-! ## Lines of a text -/

/-- A text that no line ends in. -/
def Unbroken (t : Text) : Prop := ∀ b ∈ t, b ≠ newline ∧ b ≠ carriageReturn

/-- A text is cut into lines behind every line feed and every carriage return, but not between the
two. What is left behind the last cut is a line too. -/
inductive LinesOf : Text → List Line → Prop
  | nil : LinesOf [] []
  | last {body : Text} : body ≠ [] → Unbroken body → LinesOf body [⟨body, []⟩]
  | cons {body ending rest : Text} {ls : List Line} : Unbroken body →
      ending ∈ [[newline], [carriageReturn], [carriageReturn, newline]] →
      (ending = [carriageReturn] → rest.head? ≠ some newline) → LinesOf rest ls →
      LinesOf (body ++ (ending ++ rest)) (⟨body, ending⟩ :: ls)

variable {t u body ending : Text} {b : UInt8} {l : Line} {ls : List Line}

theorem unbroken_nil : Unbroken [] := List.forall_mem_nil _

theorem unbroken_cons : Unbroken (b :: t) ↔ (b ≠ newline ∧ b ≠ carriageReturn) ∧ Unbroken t :=
  List.forall_mem_cons

theorem LinesOf.push (h : LinesOf t ls) (hb : b ≠ newline ∧ b ≠ carriageReturn) :
    LinesOf (b :: t) (pushByte b ls) := by
  cases h with
  | nil => exact .last (List.cons_ne_nil _ _) (unbroken_cons.mpr ⟨hb, unbroken_nil⟩)
  | last _ hbody => exact .last (List.cons_ne_nil _ _) (unbroken_cons.mpr ⟨hb, hbody⟩)
  | cons hbody hending hnext hrest =>
    exact .cons (unbroken_cons.mpr ⟨hb, hbody⟩) hending hnext hrest

theorem linesOf_splitLines (t : Text) : LinesOf t (splitLines t) := by
  fun_induction splitLines t with
  | case1 => exact .nil
  | case2 t ih =>
    refine @LinesOf.cons [] [carriageReturn, newline] t _ unbroken_nil (by decide) ?_ ih
    exact fun h => by cases h
  | case3 b t hne hb ih =>
    refine @LinesOf.cons [] [b] t _ unbroken_nil ?_ (fun hreturn hnext => ?_) ih
    · rcases hb with rfl | rfl <;> decide
    · obtain ⟨u, rfl⟩ : ∃ u, t = newline :: u := List.head?_eq_some_iff.mp hnext
      exact hne u (List.cons.inj hreturn).1 rfl
  | case4 b t _ hb ih => exact ih.push (not_or.mp hb)

theorem splitLines_cons (hb : b ≠ newline ∧ b ≠ carriageReturn) :
    splitLines (b :: t) = pushByte b (splitLines t) := by
  rw [splitLines, if_neg (not_or.mpr hb)]
  exact fun u h _ => hb.2 h

theorem splitLines_append (hbody : Unbroken body) (hu : splitLines u = l :: ls) :
    splitLines (body ++ u) = ⟨body ++ l.body, l.ending⟩ :: ls := by
  induction body with
  | nil => exact hu
  | cons b body ih =>
    obtain ⟨hb, hbody⟩ := unbroken_cons.mp hbody
    rw [List.cons_append, splitLines_cons hb, ih hbody]
    rfl

theorem splitLines_break (h : ending ∈ [[newline], [carriageReturn], [carriageReturn, newline]])
    (hnext : ending = [carriageReturn] → t.head? ≠ some newline) :
    splitLines (ending ++ t) = ⟨[], ending⟩ :: splitLines t := by
  simp only [List.mem_cons, List.not_mem_nil, or_false] at h
  rcases h with rfl | rfl | rfl
  · rw [List.singleton_append, splitLines, if_pos (.inl rfl)]
    exact fun u h _ => absurd h (by decide)
  · rw [List.singleton_append, splitLines, if_pos (.inr rfl)]
    rintro u - rfl
    exact hnext rfl rfl
  · rfl

/-- The lines of a text are those that it is split into. -/
theorem linesOf_iff : LinesOf t ls ↔ splitLines t = ls := by
  refine ⟨fun h => ?_, fun h => h ▸ linesOf_splitLines t⟩
  induction h with
  | nil => rfl
  | @last body hne hbody =>
    obtain ⟨front, b, rfl⟩ := (List.eq_nil_or_concat' body).resolve_left hne
    obtain ⟨hfront, hb⟩ := List.forall_mem_append.mp hbody
    have hlast : splitLines [b] = [⟨[b], []⟩] := splitLines_cons (hb b List.mem_cons_self)
    exact splitLines_append hfront hlast
  | cons hbody hending hnext _ ih =>
    rw [splitLines_append hbody (splitLines_break hending hnext), ih, List.append_nil]

/-! ## Bytes by line and column -/

/-- How many bytes the first `n` lines have. -/
def bytesIn (ls : List Line) (n : Nat) : Nat := ((ls.take n).map fun l => l.full.length).sum

/-- A line and a column, both counted from one, of the byte at an offset: the line has such a
column, and the lines in front of it and the bytes in front of the column add up to the offset. -/
structure ByteAt (ls : List Line) (line column offset : Nat) : Prop where
  exists_line : ∃ l, 1 ≤ line ∧ ls[line - 1]? = some l ∧ 1 ≤ column ∧ column ≤ l.full.length
  offset_eq : bytesIn ls (line - 1) + (column - 1) = offset

variable {offset i j n line column : Nat}

theorem bytesIn_succ (h : ls[n]? = some l) : bytesIn ls (n + 1) = bytesIn ls n + l.full.length := by
  rw [bytesIn, List.take_add_one, h]
  simp [bytesIn]

theorem bytesIn_mono (ls : List Line) (h : i ≤ j) : bytesIn ls i ≤ bytesIn ls j := by
  obtain ⟨d, rfl⟩ := Nat.exists_eq_add_of_le h
  rw [bytesIn, bytesIn, List.take_add, List.map_append, List.sum_append]
  omega

theorem inLine_iff : InLine ls offset i ↔ bytesIn ls i ≤ offset ∧ offset < bytesIn ls (i + 1) := by
  simp only [InLine, List.length_flatMap]
  rfl

theorem InLine.line_le {offset' : Nat} (h : InLine ls offset i) (h' : InLine ls offset' j)
    (hle : offset ≤ offset') : i ≤ j := by
  rw [inLine_iff] at h h'
  by_contra hij
  have := bytesIn_mono ls (show j + 1 ≤ i by omega)
  omega

theorem InLine.unique (h : InLine ls offset i) (h' : InLine ls offset j) : i = j :=
  Nat.le_antisymm (h.line_le h' (Nat.le_refl _)) (h'.line_le h (Nat.le_refl _))

/-- The pair of an offset: the line that it is in, and as many columns as bytes are left over. -/
theorem byteAt_iff : ByteAt ls line column offset ↔
    ∃ i, line = i + 1 ∧ InLine ls offset i ∧ column = offset - bytesIn ls i + 1 := by
  simp only [inLine_iff]
  constructor
  · rintro ⟨⟨l, hline, hl, hcolumn, hle⟩, hoffset⟩
    have hsucc := bytesIn_succ hl
    refine ⟨line - 1, ?_, ?_, ?_⟩ <;> omega
  · rintro ⟨i, rfl, hin, rfl⟩
    obtain ⟨l, hl⟩ : ∃ l, ls[i]? = some l := ⟨_, List.getElem?_eq_getElem (inLine_iff.mpr hin).lt⟩
    have hsucc := bytesIn_succ hl
    exact ⟨⟨l, by omega, hl, by omega, by omega⟩, by rw [Nat.add_sub_cancel]; omega⟩

theorem locateFrom_column : ∀ {ls : List Line} {offset i n : Nat}, InLine ls offset i →
    (locateFrom n ls offset).2 = offset - bytesIn ls i + 1 := by
  intro ls
  induction ls with
  | nil =>
    intro offset i n h
    exact absurd h.lt (Nat.not_lt_zero i)
  | cons l ls ih =>
    intro offset i n h
    rw [locateFrom]
    cases i with
    | zero =>
      rw [if_pos (inLine_cons_zero.mp h)]
      rfl
    | succ i =>
      obtain ⟨hle, hin⟩ := inLine_cons_succ.mp h
      have hbytes : bytesIn (l :: ls) (i + 1) = l.full.length + bytesIn ls i := by simp [bytesIn]
      rw [if_neg (by omega), ih hin, hbytes]
      omega

/-- The byte at an offset is located by the one pair that is its own. -/
theorem locate_eq_iff (h : offset < t.length) :
    locate t offset = (line, column) ↔ ByteAt (splitLines t) line column offset := by
  have hlt : offset < ((splitLines t).flatMap Line.full).length := by rwa [joinLines_splitLines]
  obtain ⟨i, hline, hin⟩ := (locateFrom_eq (n := 1) hlt).mp rfl
  have hpair : locate t offset = (i + 1, offset - bytesIn (splitLines t) i + 1) :=
    Prod.ext (by rw [locate, hline, Nat.add_comm]) (locateFrom_column hin)
  rw [hpair, byteAt_iff, Prod.mk.injEq]
  constructor
  · rintro ⟨rfl, rfl⟩
    exact ⟨i, rfl, hin, rfl⟩
  · rintro ⟨j, rfl, hj, rfl⟩
    rw [hin.unique hj]
    exact ⟨rfl, rfl⟩

theorem ByteAt.unique {line' column' : Nat} (h : ByteAt ls line column offset)
    (h' : ByteAt ls line' column' offset) : line' = line ∧ column' = column := by
  obtain ⟨i, rfl, hi, rfl⟩ := byteAt_iff.mp h
  obtain ⟨j, rfl, hj, rfl⟩ := byteAt_iff.mp h'
  rw [hi.unique hj]
  exact ⟨rfl, rfl⟩

theorem ByteAt.line_le {line' column' offset' : Nat} (h : ByteAt ls line column offset)
    (h' : ByteAt ls line' column' offset') (hle : offset ≤ offset') : line ≤ line' := by
  obtain ⟨i, rfl, hi, -⟩ := byteAt_iff.mp h
  obtain ⟨j, rfl, hj, -⟩ := byteAt_iff.mp h'
  have := hi.line_le hj hle
  omega

/-! ## Comments -/

variable {c d : Comment}

/-- A comment is at least two bytes of its text, and its places are those of the first and of the
last of them. -/
theorem byteAt_of_mem_comments (hc : c ∈ comments t) :
    c.start.offset + 2 ≤ c.stop.offset ∧ 2 ≤ c.stop.column ∧
      ByteAt (splitLines t) c.start.line c.start.column c.start.offset ∧
      ByteAt (splitLines t) c.stop.line (c.stop.column - 1) (c.stop.offset - 1) := by
  obtain ⟨s, hs, rfl⟩ := List.mem_map.mp hc
  have hstop := ((forms_lexing t).forms s hs).2.stop_le
  rw [Span.stop] at hstop
  have hfirst := (locate_eq_iff (show s.offset < t.length by omega)).mp rfl
  have hlast := (locate_eq_iff (show s.offset + s.length - 1 < t.length by omega)).mp rfl
  obtain ⟨l, -, -, hcolumn, -⟩ := hlast.exists_line
  refine ⟨hstop.1, ?_, hfirst, hlast⟩
  exact Nat.succ_le_succ hcolumn

/-- Two comments that start in one place are one. -/
theorem eq_of_start_eq (hc : c ∈ comments t) (hd : d ∈ comments t)
    (hline : d.start.line = c.start.line) (hcolumn : d.start.column = c.start.column) : d = c := by
  have hoffset : d.start.offset = c.start.offset := by
    rw [← (byteAt_of_mem_comments hc).2.2.1.offset_eq,
      ← (byteAt_of_mem_comments hd).2.2.1.offset_eq, hline, hcolumn]
  obtain ⟨s, hs, rfl⟩ := List.mem_map.mp hc
  obtain ⟨r, hr, rfl⟩ := List.mem_map.mp hd
  have hforms := (forms_lexing t).forms
  rw [(hforms r hr).2.unique (hforms s hs).2 hoffset]

/-- The places of a comment are in the lines of its text. It starts at the line and column of its
first byte, the only ones that add up to its offset, so no other comment starts there. It stops
behind its last byte, on the line of that byte. -/
theorem places_of_comments (hls : LinesOf t ls) (hc : c ∈ comments t) :
    (1 ≤ c.start.line ∧ c.start.line ≤ c.stop.line ∧ c.stop.line ≤ ls.length) ∧
      (∃ first, ls[c.start.line - 1]? = some first ∧
        bytesIn ls (c.start.line - 1) + (c.start.column - 1) = c.start.offset ∧
        1 ≤ c.start.column ∧ c.start.column ≤ first.full.length) ∧
      (∃ last, ls[c.stop.line - 1]? = some last ∧
        ByteAt ls c.stop.line (c.stop.column - 1) (c.stop.offset - 1) ∧
        bytesIn ls (c.stop.line - 1) + (c.stop.column - 1) = c.stop.offset ∧
        2 ≤ c.stop.column ∧ c.stop.column ≤ last.full.length + 1) ∧
      (∀ line column, ByteAt ls line column c.start.offset →
        line = c.start.line ∧ column = c.start.column) ∧
      ∀ d ∈ comments t, d.start.line = c.start.line → d.start.column = c.start.column → d = c := by
  obtain rfl := linesOf_iff.mp hls
  obtain ⟨hlength, hcolumn, hfirst, hlast⟩ := byteAt_of_mem_comments hc
  obtain ⟨l, hline, hl, hstart⟩ := hfirst.exists_line
  obtain ⟨m, -, hm, hstop⟩ := hlast.exists_line
  have hlines : c.stop.line - 1 < (splitLines t).length := (List.getElem?_eq_some_iff.mp hm).1
  have hle := hfirst.line_le hlast (by omega)
  have hoffset := hlast.offset_eq
  refine ⟨⟨hline, hle, by omega⟩, ⟨l, hl, hfirst.offset_eq, hstart⟩,
    ⟨m, hm, hlast, by omega, hcolumn, by omega⟩, fun line column h => hfirst.unique h,
    fun d hd => eq_of_start_eq hc hd⟩

/-- A carriage return ends a line, and a comment goes on behind it. -/
theorem places_of_comments_across :
    let t := ofString "x\r// y\rz\n"
    let ls : List Line := [⟨[0x78], [0x0D]⟩, ⟨[0x2F, 0x2F, 0x20, 0x79], [0x0D]⟩, ⟨[0x7A], [0x0A]⟩]
    let c : Comment := ⟨⟨2, 1, 2⟩, ⟨3, 2, 8⟩, ofString "// y\rz"⟩
    LinesOf t ls ∧ c ∈ comments t ∧ c.start.line < c.stop.line ∧
      (bytesIn ls 1 + 0 = 2 ∧ bytesIn ls 2 + 1 = 8) ∧
      (∀ line column, ByteAt ls line column 2 → line = 2 ∧ column = 1) ∧ ByteAt ls 3 1 7 := by
  intro t ls c
  have hls : LinesOf t ls := linesOf_iff.mpr (by decide +kernel)
  have hc : c ∈ comments t := by decide +kernel
  obtain ⟨-, ⟨_, -, hstart, -⟩, ⟨_, -, hlast, hstop, -⟩, hunique, -⟩ := places_of_comments hls hc
  exact ⟨hls, hc, by decide, ⟨hstart, hstop⟩, hunique, hlast⟩

end StyleCheck.Text
