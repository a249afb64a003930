import StyleCheck.Proofs.ReportedLines

/-!
# Suppressed rows and shown lines

A mark suppresses its row, and a violation is shown with its line. A row is made of lines: all but
its last end in a carriage return alone. So the mark that counts in a row is that of its last line
with ink (`Text.mem_suppressedRows`), and rows suppress the lines that carry the mark just if no
marked line has a lone carriage return in front of it or ink behind it in its row
(`Text.MarksFitLines`).
-/

namespace StyleCheck

/-- What holds of the entries of a list holds of its head and of its tail, one place further on. -/
theorem forall_getElem?_cons {α : Type} {P : Nat → α → Prop} {a : α} {l : List α} :
    (∀ i x, (a :: l)[i]? = some x → P i x) ↔ P 0 a ∧ ∀ i x, l[i]? = some x → P (i + 1) x := by
  constructor
  · exact fun h => ⟨h 0 a rfl, fun i x hx => h (i + 1) x hx⟩
  · rintro ⟨ha, hl⟩ (_ | i) x hx
    · cases hx
      exact ha
    · exact hl i x hx

namespace Text

variable {t u v : Text}

/-! ## The mark -/

theorem return_not_mem_mark : carriageReturn ∉ suppressionMark := by decide +kernel

theorem trimEnd_append_blanks (hv : v.all isBlank = true) (u : Text) :
    trimEnd (u ++ v) = trimEnd u := by
  have hdrop : v.reverse.dropWhile isBlank = [] := by
    rw [List.dropWhile_eq_nil_iff]
    intro b hb
    exact List.all_eq_true.mp hv b (List.mem_reverse.mp hb)
  simp [trimEnd, List.reverse_append, List.dropWhile_append, hdrop]

theorem trimEnd_concat_ink {b : UInt8} (hb : isBlank b = false) (u : Text) :
    trimEnd (u ++ [b]) = u ++ [b] := by
  simp [trimEnd, hb]

/-- A text carries the mark if nothing but blanks stands behind one. -/
theorem isSuppressed_iff : t.isSuppressed = true ↔
    ∃ u v, t = u ++ suppressionMark ++ v ∧ v.all isBlank = true := by
  rw [isSuppressed, List.isSuffixOf_iff_suffix, trim]
  constructor
  · rintro ⟨u, hu⟩
    have hend := List.rdropWhile_append_rtakeWhile (p := isBlank) (l := t.dropWhile isBlank)
    rw [show List.rdropWhile isBlank (t.dropWhile isBlank) = u ++ suppressionMark from hu.symm]
      at hend
    refine ⟨t.takeWhile isBlank ++ u, (t.dropWhile isBlank).rtakeWhile isBlank, ?_, ?_⟩
    · rw [List.append_assoc, List.append_assoc, ← List.append_assoc u, hend,
        List.takeWhile_append_dropWhile]
    · exact List.all_eq_true.mpr fun b => List.mem_rtakeWhile_imp
  · rintro ⟨u, v, rfl, hv⟩
    -- the mark begins with ink, so the blanks in front end before it
    obtain ⟨w, hw⟩ : ∃ w, (u ++ suppressionMark ++ v).dropWhile isBlank =
        w ++ suppressionMark ++ v := by
      rw [List.append_assoc, List.dropWhile_append]
      split
      · exact ⟨[], rfl⟩
      · exact ⟨_, (List.append_assoc ..).symm⟩
    have hink : trimEnd (w ++ suppressionMark) = w ++ suppressionMark := by
      rw [show suppressionMark = suppressionMark.dropLast ++ [0x74] from rfl, ← List.append_assoc]
      exact trimEnd_concat_ink rfl _
    rw [hw, trimEnd_append_blanks hv, hink]
    exact List.suffix_append w suppressionMark

theorem not_isSuppressed_nil : isSuppressed [] = false := by decide +kernel

/-- Behind a carriage return the mark is looked for first; if there are only blanks, in front. -/
theorem isSuppressed_append_return : (u ++ carriageReturn :: v).isSuppressed = true ↔
    v.isSuppressed = true ∨ v.all isBlank = true ∧ u.isSuppressed = true := by
  simp only [isSuppressed_iff]
  constructor
  · rintro ⟨a, b, hab, hb⟩
    rw [List.append_eq_append_iff] at hab
    rcases hab with ⟨c, hc, hv⟩ | ⟨c, hu, hc⟩
    · cases c with
      | nil =>
        rw [List.nil_append] at hv
        subst hv
        simp only [List.all_cons, Bool.and_eq_true] at hb
        exact .inr ⟨hb.2, a, [], by simpa using hc.symm, rfl⟩
      | cons x c =>
        obtain ⟨rfl, rfl⟩ := List.cons.inj hv
        -- the mark has no carriage return, so it stands behind this one
        rw [List.append_cons, List.append_eq_append_iff] at hc
        rcases hc with ⟨d, hd, hmark⟩ | ⟨d, -, rfl⟩
        · rcases List.eq_nil_or_concat d with rfl | ⟨d, y, rfl⟩
          · exact .inl ⟨[], b, by rw [hmark]; rfl, hb⟩
          · have hy : y = carriageReturn := by
              have := congrArg List.getLast? hd
              simpa using this.symm
            refine absurd ?_ return_not_mem_mark
            rw [hmark, hy]
            simp
        · exact .inl ⟨d, b, rfl, hb⟩
    · subst hu hc
      simp only [List.all_append, List.all_cons, Bool.and_eq_true] at hb
      exact .inr ⟨hb.2.2, a, c, rfl, hb.1⟩
  · rintro (⟨a, b, rfl, hb⟩ | ⟨hv, a, b, rfl, hb⟩)
    · exact ⟨u ++ carriageReturn :: a, b, by simp, hb⟩
    · refine ⟨a, b ++ carriageReturn :: v, by simp, ?_⟩
      simp only [List.all_append, List.all_cons, hb, hv]
      rfl

theorem isSuppressed_append_return_nil :
    (u ++ [carriageReturn]).isSuppressed = u.isSuppressed := by
  rw [Bool.eq_iff_iff, isSuppressed_append_return]
  simp [not_isSuppressed_nil]

/-! ## Rows of lines -/

/-- Whether a line is the last of its row. -/
def Line.endsRow (l : Line) : Bool := l.ending.contains newline

/-- The ways in which lines end. The last line may have no ending. -/
def endings : List Text := [[], [newline], [carriageReturn], [carriageReturn, newline]]

/-- Lines that end, each but the last, and in one of the known ways. -/
def Ended (ls : List Line) : Prop :=
  (∀ l ∈ ls, l.ending ∈ endings) ∧ ls.Pairwise fun l _ => l.ending ≠ []

theorem ended_splitLines (t : Text) : Ended (splitLines t) := by
  fun_induction splitLines t with
  | case1 => exact ⟨List.forall_mem_nil _, .nil⟩
  | case2 t ih =>
    refine ⟨List.forall_mem_cons.mpr ⟨by decide, ih.1⟩, .cons (fun _ _ => ?_) ih.2⟩
    exact List.cons_ne_nil _ _
  | case3 b t _ hb ih =>
    refine ⟨List.forall_mem_cons.mpr ⟨?_, ih.1⟩, .cons (fun _ _ => List.cons_ne_nil _ _) ih.2⟩
    rcases hb with rfl | rfl <;> decide
  | case4 b t _ _ ih =>
    cases hls : splitLines t with
    | nil => exact ⟨by simp [pushByte, endings], List.pairwise_singleton _ _⟩
    | cons l ls =>
      rw [hls] at ih
      obtain ⟨h1, h2⟩ := ih
      rw [List.pairwise_cons] at h2
      exact ⟨List.forall_mem_cons.mpr (List.forall_mem_cons.mp h1), .cons h2.1 h2.2⟩

/-- Puts a text in front of the first row, or makes it one. -/
def prependToRow (u : Text) : List Text → List Text
  | [] => [u]
  | r :: rs => (u ++ r) :: rs

/-- The rows that lines make. -/
def rowsOf : List Line → List Text
  | [] => []
  | l :: ls =>
    if l.endsRow then (l.body ++ l.ending.dropLast) :: rowsOf ls
    else prependToRow l.full (rowsOf ls)

theorem rowsOf_pushByte (b : UInt8) (ls : List Line) :
    rowsOf (pushByte b ls) = pushToRow b (rowsOf ls) := by
  cases ls with
  | nil => rfl
  | cons l ls =>
    show (if l.endsRow then _ else _) = pushToRow b (if l.endsRow then _ else _)
    split
    · rfl
    · cases hrows : rowsOf ls <;> simp [prependToRow, pushToRow, Line.full]

/-- The rows of a text are those that its lines make. -/
theorem rowsOf_splitLines (t : Text) : rowsOf (splitLines t) = rows t := by
  fun_induction splitLines t with
  | case1 => rfl
  | case2 t ih => simp [rowsOf, rows, ih, Line.endsRow, newline, pushToRow]
  | case3 b t _ hb ih =>
    rcases hb with rfl | rfl
    · simp [rowsOf, rows, ih, Line.endsRow]
    · cases hr : rows t <;>
        simp [rowsOf, rows, ih, hr, Line.endsRow, Line.full, newline, carriageReturn, prependToRow,
          pushToRow]
  | case4 b t _ hb ih =>
    rw [rowsOf_pushByte, ih, rows, if_neg (by simpa using fun h => hb (.inl h))]

/-- The row that line `i` is in, counted from zero: as many rows end in front of it. -/
def rowOf (ls : List Line) (i : Nat) : Nat := (ls.take i).countP Line.endsRow

@[simp] theorem rowOf_zero (ls : List Line) : rowOf ls 0 = 0 := rfl

theorem rowOf_succ (l : Line) (ls : List Line) (i : Nat) :
    rowOf (l :: ls) (i + 1) = rowOf ls i + l.endsRow.toNat := by
  cases h : l.endsRow <;> simp [rowOf, h]

theorem rowOf_le (ls : List Line) (i : Nat) : rowOf ls i ≤ i :=
  List.countP_le_length.trans (List.length_take_le i ls)

/-- Only blanks stand behind line `i` in its row. -/
def ClosesRow (ls : List Line) (i : Nat) : Prop :=
  ∀ j l, i < j → ls[j]? = some l → rowOf ls j = rowOf ls i → l.body.all isBlank = true

variable {l : Line} {ls : List Line}

theorem closesRow_zero : ClosesRow (l :: ls) 0 ↔
    ∀ j m, ls[j]? = some m → rowOf ls j + l.endsRow.toNat = 0 → m.body.all isBlank = true := by
  constructor
  · intro h j m hm hrow
    exact h (j + 1) m (by omega) hm (by rw [rowOf_succ, hrow, rowOf_zero])
  · rintro h (_ | j) m hj hm hrow
    · omega
    · exact h j m hm (by rw [← rowOf_succ, hrow, rowOf_zero])

theorem closesRow_succ {i : Nat} : ClosesRow (l :: ls) (i + 1) ↔ ClosesRow ls i := by
  constructor
  · intro h j m hj hm hrow
    exact h (j + 1) m (by omega) hm (by rw [rowOf_succ, rowOf_succ, hrow])
  · rintro h (_ | j) m hj hm hrow
    · omega
    · rw [rowOf_succ, rowOf_succ] at hrow
      exact h j m (by omega) hm (by omega)

theorem rowsOf_eq_nil : rowsOf ls = [] ↔ ls = [] := by
  cases ls with
  | nil => exact iff_of_true rfl rfl
  | cons l ls =>
    rw [rowsOf]
    split
    · simp
    · cases rowsOf ls <;> simp [prependToRow]

theorem blank_of_mem_endings {e : Text} (h : e ∈ endings) : e.all isBlank = true := by
  revert e
  decide

theorem blank_dropLast_of_mem_endings {e : Text} (h : e ∈ endings) :
    e.dropLast.all isBlank = true := by
  revert e
  decide

/-- A row is blank if all its lines are. -/
theorem blank_rowsOf (h : ∀ l ∈ ls, l.ending ∈ endings) : ∀ {r : Nat} {row : Text},
    (rowsOf ls)[r]? = some row →
    (row.all isBlank = true ↔
      ∀ j l, ls[j]? = some l → rowOf ls j = r → l.body.all isBlank = true) := by
  induction ls with
  | nil =>
    intro r row hrow
    cases hrow
  | cons l ls ih =>
    obtain ⟨hl, hls⟩ := List.forall_mem_cons.mp h
    intro r row hrow
    rw [forall_getElem?_cons]
    simp only [rowOf_zero, rowOf_succ]
    rw [rowsOf] at hrow
    cases he : l.endsRow with
    | true =>
      rw [he, if_pos rfl] at hrow
      cases r with
      | zero =>
        cases hrow
        simp [blank_dropLast_of_mem_endings hl]
      | succ r =>
        rw [ih hls hrow]
        simp
    | false =>
      rw [he, if_neg Bool.false_ne_true] at hrow
      cases hrows : rowsOf ls with
      | nil =>
        rw [hrows] at hrow
        obtain rfl := rowsOf_eq_nil.mp hrows
        cases r with
        | zero =>
          cases hrow
          simp [Line.full, blank_of_mem_endings hl]
        | succ r => cases hrow
      | cons first rest =>
        rw [hrows] at hrow ih
        cases r with
        | zero =>
          cases hrow
          have hfirst := ih hls (r := 0) rfl
          simp only [Line.full, List.all_append, blank_of_mem_endings hl, Bool.and_true,
            Bool.and_eq_true, hfirst]
          simp
        | succ r =>
          rw [ih hls (r := r + 1) hrow]
          simp

theorem ending_of_not_endsRow (h : l.ending ∈ endings) (he : l.endsRow = false) :
    l.ending = [] ∨ l.ending = [carriageReturn] := by
  rw [Line.endsRow] at he
  simp only [endings, List.mem_cons, List.not_mem_nil, or_false] at h
  rcases h with h | h | h | h
  · exact .inl h
  · simp [h] at he
  · exact .inr h
  · simp [h] at he

theorem isSuppressed_of_endsRow (h : l.ending ∈ endings) (he : l.endsRow = true) :
    (l.body ++ l.ending.dropLast).isSuppressed = l.body.isSuppressed := by
  rw [Line.endsRow] at he
  simp only [endings, List.mem_cons, List.not_mem_nil, or_false] at h
  rcases h with h | h | h | h
  · simp [h] at he
  · simp [h]
  · simp [h, newline, carriageReturn] at he
  · rw [h]
    exact isSuppressed_append_return_nil

theorem isSuppressed_full (h : l.ending ∈ endings) (he : l.endsRow = false) :
    l.full.isSuppressed = l.body.isSuppressed := by
  rcases ending_of_not_endsRow h he with h | h
  · rw [Line.full, h, List.append_nil]
  · rw [Line.full, h, isSuppressed_append_return_nil]

/-- A row carries the mark if its last line with ink does. -/
theorem suppressed_rowsOf (h : Ended ls) : ∀ {r : Nat},
    (∃ row, (rowsOf ls)[r]? = some row ∧ row.isSuppressed = true) ↔
      ∃ i l, ls[i]? = some l ∧
        (l.body.isSuppressed = true ∧ rowOf ls i = r ∧ ClosesRow ls i) := by
  induction ls with
  | nil => simp [rowsOf]
  | cons l ls ih =>
    obtain ⟨hl, hls⟩ := List.forall_mem_cons.mp h.1
    obtain ⟨hend, hpair⟩ := List.pairwise_cons.mp h.2
    replace ih := @ih ⟨hls, hpair⟩
    intro r
    rw [exists_getElem?_cons, rowsOf]
    simp only [rowOf_zero, rowOf_succ, closesRow_zero, closesRow_succ]
    cases he : l.endsRow with
    | true =>
      rw [if_pos rfl]
      cases r with
      | zero => simp [isSuppressed_of_endsRow hl he]
      | succ r =>
        rw [List.getElem?_cons_succ, ih]
        simp
    | false =>
      rw [if_neg Bool.false_ne_true]
      cases hrows : rowsOf ls with
      | nil =>
        obtain rfl := rowsOf_eq_nil.mp hrows
        cases r <;> simp [prependToRow, isSuppressed_full hl he]
      | cons first rest =>
        -- there is a line behind this one, so it ends, and in a carriage return alone
        have hne : l.ending ≠ [] := by
          cases ls with
          | nil => cases hrows
          | cons m ls => exact hend m List.mem_cons_self
        have hreturn := (ending_of_not_endsRow hl he).resolve_left hne
        rw [hrows] at ih
        cases r with
        | zero =>
          have hfirst : first.isSuppressed = true ↔ ∃ i m, ls[i]? = some m ∧
              (m.body.isSuppressed = true ∧ rowOf ls i = 0 ∧ ClosesRow ls i) := by
            rw [← ih]
            simp
          have hblank := @blank_rowsOf ls hls 0 first (by rw [hrows]; rfl)
          have hrow : (l.full ++ first).isSuppressed = true ↔
              first.isSuppressed = true ∨
                first.all isBlank = true ∧ l.body.isSuppressed = true := by
            rw [Line.full, hreturn, List.append_assoc, List.singleton_append,
              isSuppressed_append_return]
          simp only [prependToRow, List.getElem?_cons_zero, Option.some.injEq, exists_eq_left',
            hrow, hfirst, hblank, Bool.toNat_false, Nat.add_zero, true_and]
          rw [or_comm, and_comm]
        | succ r =>
          have hrest := @ih (r + 1)
          simp only [prependToRow, List.getElem?_cons_succ] at hrest ⊢
          rw [hrest]
          simp

theorem mem_suppressedFrom {rows : List Text} : ∀ {n m : Nat}, m ∈ suppressedFrom n rows ↔
    ∃ r row, rows[r]? = some row ∧ (m = n + r ∧ row.isSuppressed = true) := by
  induction rows with
  | nil => simp [suppressedFrom]
  | cons row rows ih =>
    intro n m
    rw [exists_getElem?_cons, suppressedFrom]
    simp only [Nat.add_zero, Nat.add_comm _ 1, ← Nat.add_assoc]
    cases hrow : row.isSuppressed with
    | true =>
      rw [if_pos rfl, List.mem_cons, ih]
      simp
    | false =>
      rw [if_neg Bool.false_ne_true, ih]
      simp

/-- Line `i` carries the mark, and is the last line of row `r` with ink. -/
def MarksRow (ls : List Line) (i r : Nat) : Prop :=
  ∃ l, ls[i]? = some l ∧ (l.body.isSuppressed = true ∧ rowOf ls i = r ∧ ClosesRow ls i)

/-- Row `r`, counted from zero, is suppressed if one of its lines marks it. -/
theorem mem_suppressedRows {r : Nat} :
    r + 1 ∈ suppressedRows t ↔ ∃ i, MarksRow (splitLines t) i r := by
  rw [suppressedRows, mem_suppressedFrom, ← rowsOf_splitLines]
  refine Iff.trans ?_ (suppressed_rowsOf (ended_splitLines t))
  constructor
  · rintro ⟨q, row, hrow, hq, hs⟩
    obtain rfl : r = q := by omega
    exact ⟨row, hrow, hs⟩
  · rintro ⟨row, hrow, hs⟩
    exact ⟨r, row, hrow, by omega, hs⟩

/-! ## Rows that are lines -/

/-- In front of a line, every line ends its row unless it ends in a carriage return alone. -/
theorem rowOf_eq_self (h : Ended ls) {i : Nat} (hi : i < ls.length) :
    rowOf ls i = i ↔ ∀ j < i, ∀ m, ls[j]? = some m → m.ending ≠ [carriageReturn] := by
  have hlen : (ls.take i).length = i := List.length_take_of_le hi.le
  have hends : ∀ j < i, ∀ m, ls[j]? = some m →
      (m.endsRow = true ↔ m.ending ≠ [carriageReturn]) := by
    intro j hj m hm
    obtain ⟨hjlen, rfl⟩ := List.getElem?_eq_some_iff.mp hm
    have hne := List.pairwise_iff_getElem.mp h.2 j i hjlen hi hj
    constructor
    · intro he hreturn
      simp [Line.endsRow, hreturn, newline, carriageReturn] at he
    · intro hreturn
      rw [← Bool.not_eq_false]
      intro he
      rcases ending_of_not_endsRow (h.1 _ (List.getElem_mem hjlen)) he with h | h
      · exact hne h
      · exact hreturn h
  rw [rowOf]
  conv_lhs => rhs; rw [← hlen]
  rw [List.countP_eq_length]
  constructor
  · intro hall j hj m hm
    refine (hends j hj m hm).mp (hall m (List.mem_of_getElem? (i := j) ?_))
    rw [List.getElem?_take_of_lt hj, hm]
  · intro hall m hm
    obtain ⟨j, hj⟩ := List.mem_iff_getElem?.mp hm
    rw [List.getElem?_take] at hj
    split at hj
    · next hji => exact (hends j hji m hj).mpr (hall j hji m hj)
    · cases hj

/-- No line with the mark has a lone carriage return in front of it, nor ink behind it in its
row. -/
def MarksFitLines (t : Text) : Prop :=
  ∀ i l, (splitLines t)[i]? = some l → l.body.isSuppressed = true →
    (∀ j < i, ∀ m, (splitLines t)[j]? = some m → m.ending ≠ [carriageReturn]) ∧
      ClosesRow (splitLines t) i

/-- Without lone carriage returns every line is a row, and the marks fit. -/
theorem marksFitLines_of_no_lone_return (h : ∀ l ∈ splitLines t, l.ending ≠ [carriageReturn]) :
    t.MarksFitLines := by
  have hself : ∀ {i l}, (splitLines t)[i]? = some l → rowOf (splitLines t) i = i := by
    intro i l hl
    rw [rowOf_eq_self (ended_splitLines t) (List.getElem?_eq_some_iff.mp hl).1]
    exact fun j _ m hm => h m (List.mem_of_getElem? hm)
  intro i l hl _
  refine ⟨fun j _ m hm => h m (List.mem_of_getElem? hm), fun j m hj hm hrow => ?_⟩
  rw [hself hl, hself hm] at hrow
  omega

theorem getElem?_lines {n : Nat} {b : Text} : (lines t)[n]? = some b ↔
    ∃ l, (splitLines t)[n]? = some l ∧ l.body = b := by
  rw [lines, List.getElem?_map, Option.map_eq_some_iff]

/-- If every row that is suppressed has the number of a line with the mark, and the other way round,
then lines with the mark have the number of their row. -/
theorem marksRow_of_agree
    (h : ∀ n, n + 1 ∈ suppressedRows t ↔ ∃ b, (lines t)[n]? = some b ∧ b.isSuppressed = true)
    (d : Nat) : ∀ {i : Nat}, (splitLines t).length ≤ i + d →
      (∃ b, (lines t)[i]? = some b ∧ b.isSuppressed = true) → MarksRow (splitLines t) i i := by
  -- from the last line on: the line that marks row `i` cannot be a later one, as that marks another
  induction d with
  | zero =>
    rintro i hi ⟨b, hb, -⟩
    obtain ⟨l, hl, -⟩ := getElem?_lines.mp hb
    have := (List.getElem?_eq_some_iff.mp hl).1
    omega
  | succ d ih =>
    intro i hi hb
    obtain ⟨q, hq⟩ := mem_suppressedRows.mp ((h i).mpr hb)
    obtain ⟨m, hm, hs, hrow, hclose⟩ := hq
    have hle := rowOf_le (splitLines t) q
    rcases Nat.eq_or_lt_of_le (show i ≤ q by omega) with rfl | hlt
    · exact ⟨m, hm, hs, hrow, hclose⟩
    · obtain ⟨_, -, -, hself, -⟩ := ih (i := q) (by omega) ⟨_, getElem?_lines.mpr ⟨m, hm, rfl⟩, hs⟩
      omega

/-- Rows suppress the lines with the mark, and no others, just if the marks fit. -/
theorem marksFitLines_iff : t.MarksFitLines ↔ ∀ n, n + 1 ∈ suppressedRows t ↔
    ∃ b, (lines t)[n]? = some b ∧ b.isSuppressed = true := by
  have hlt : ∀ {i l}, (splitLines t)[i]? = some l → i < (splitLines t).length :=
    fun hl => (List.getElem?_eq_some_iff.mp hl).1
  constructor
  · intro h n
    rw [mem_suppressedRows]
    constructor
    · rintro ⟨i, l, hl, hs, hrow, -⟩
      rw [(rowOf_eq_self (ended_splitLines t) (hlt hl)).mpr (h i l hl hs).1] at hrow
      exact ⟨l.body, getElem?_lines.mpr ⟨l, hrow ▸ hl, rfl⟩, hs⟩
    · rintro ⟨b, hb, hs⟩
      obtain ⟨l, hl, rfl⟩ := getElem?_lines.mp hb
      obtain ⟨hfront, hclose⟩ := h n l hl hs
      exact ⟨n, l, hl, hs, (rowOf_eq_self (ended_splitLines t) (hlt hl)).mpr hfront, hclose⟩
  · intro h i l hl hs
    obtain ⟨_, -, -, hself, hclose⟩ := marksRow_of_agree h _ (Nat.le_add_left _ i)
      ⟨_, getElem?_lines.mpr ⟨l, hl, rfl⟩, hs⟩
    exact ⟨(rowOf_eq_self (ended_splitLines t) (hlt hl)).mp hself, hclose⟩

end Text

/-! ## Suppressions that were asked before -/

namespace Suppressions

/-- What is known changes no answer, and stays what the files say. -/
theorem has_of_faithful {files : FileSystem} {s : Suppressions} (h : s.Faithful files.suppressed)
    (file : Option String) (line : Int) :
    (s.has files file line).1 = files.suppresses file line ∧
      (s.has files file line).2.Faithful files.suppressed := by
  cases file with
  | none => exact ⟨rfl, h⟩
  | some name =>
    obtain ⟨hrows, hkept⟩ := h.fetch (absoluteName name)
    exact ⟨congrArg (Except.map (onRow line)) hrows, hkept⟩

/-- What is known after some questions. -/
def asked (files : FileSystem) (questions : List (Option String × Int)) : Suppressions :=
  questions.foldl (fun s q => (s.has files q.1 q.2).2) .empty

theorem asked_faithful (files : FileSystem) (questions : List (Option String × Int)) :
    (asked files questions).Faithful files.suppressed :=
  List.foldlRecOn questions _ (FileTable.empty_faithful _) fun _ h q _ =>
    (has_of_faithful h q.1 q.2).2

end Suppressions

variable {files : FileSystem} {name : String} {text : Text}

theorem FileSystem.suppresses_line (h : files.openFile (absoluteName name) = .ok text) (n : Nat) :
    files.suppresses (some name) (n + 1) = .ok (decide (n + 1 ∈ suppressedRows text)) := by
  have hmem : onRow (n + 1) (suppressedRows text) = decide (n + 1 ∈ suppressedRows text) := by
    rw [onRow, Bool.eq_iff_iff, List.any_eq_true, decide_eq_true_eq]
    constructor
    · rintro ⟨m, hm, he⟩
      have := eq_of_beq he
      obtain rfl : m = n + 1 := by omega
      exact hm
    · exact fun hm => ⟨n + 1, hm, by simp⟩
  rw [suppresses, suppressed, h, ← hmem]
  rfl

/-! ## Lines that are shown -/

/-- A line of the file that a name stands for. -/
def FileSystem.line (files : FileSystem) (name : String) (n : Int) : Except Fault Text := do
  let file ← files.read name
  Text.lineAt file.lines n

theorem FileSystem.line_eq (h : files.openFile (absoluteName name) = .ok text) (n : Nat) :
    files.line name (n + 1) =
      match (Text.lines text)[n]? with
      | some line => .ok line
      | none => .error .entryOutOfRange := by
  have hline : files.line name (n + 1) = Text.lineAt (Text.lines text) (n + 1) := by
    simp only [line, read, source, h]
    rfl
  have hoff : Text.atOffset? (Text.lines text) ((n : Int) + 1 - 1) = (Text.lines text)[n]? := by
    rw [Text.atOffset?, if_pos (by omega), show ((n : Int) + 1 - 1).toNat = n by omega]
  cases hn : (Text.lines text)[n]? <;> simp only [hline, Text.lineAt, hoff, hn]

namespace Violation

/-- What is shown below the report of a violation in a line. -/
def source (showSource : Bool) (v : Violation) (line : Text) : List Text :=
  if showSource then [Text.trimEnd line, Text.ofString (caret v.column), []] else []

/-- A violation is reported, and then shown with its line if it is in a file. -/
theorem display_eq (files : FileSystem) (showSource : Bool) (v : Violation) :
    v.display files showSource =
      match v.file with
      | none => ⟨[Text.ofString v.report], .ok ()⟩
      | some name =>
        match files.line name v.line with
        | .ok line => ⟨Text.ofString v.report :: v.source showSource line, .ok ()⟩
        | .error e => ⟨[Text.ofString v.report], .error e⟩ := by
  unfold display
  cases v.file with
  | none => rfl
  | some name =>
    dsimp only [FileSystem.line]
    cases files.read name with
    | error e => rfl
    | ok file =>
      show (Report.note (Text.ofString v.report) >>= fun _ =>
          liftM (Text.lineAt file.lines v.line) >>= _) =
        match Text.lineAt file.lines v.line with
        | .ok line => _
        | .error e => _
      cases Text.lineAt file.lines v.line with
      | error e => rfl
      | ok line =>
        unfold source
        cases showSource <;> rfl

end Violation

namespace Suppressions

/-- A line of a file is judged by the marks of the row of its number. This is the mark of the line
itself, for every line of the file, just if the marks of the file fit its lines. Then a violation is
suppressed by the mark of the line that it is shown with. -/
theorem judges_lines_iff (h : files.openFile (absoluteName name) = .ok text)
    (questions : List (Option String × Int)) :
    let judged := fun n : Nat => ((asked files questions).has files (some name) (n + 1)).1
    (∀ n, ∃ b, judged n = .ok b ∧
      (b = true ↔ ∃ i, Text.MarksRow (Text.splitLines text) i n)) ∧
    ((∀ n, judged n = .ok true ↔ ∃ line, (Text.lines text)[n]? = some line ∧
        line.isSuppressed = true) ↔ text.MarksFitLines) ∧
    (text.MarksFitLines → ∀ (o : DisplayOptions) (v : Violation) (n : Nat),
      o.ignoreSuppressions = false → v.file = some name → v.line = n + 1 →
      v.displayUnlessSuppressed files o =
        match (Text.lines text)[n]? with
        | some line =>
          if line.isSuppressed then pure ()
          else ⟨Text.ofString v.report :: v.source o.showSource line, .ok ()⟩
        | none => ⟨[Text.ofString v.report], .error .entryOutOfRange⟩) := by
  intro judged
  have hjudged : ∀ n, judged n = .ok (decide (n + 1 ∈ suppressedRows text)) := by
    intro n
    show (has _ _ _ _).1 = _
    rw [(has_of_faithful (asked_faithful files questions) (some name) (n + 1)).1,
      FileSystem.suppresses_line h]
  refine ⟨fun n => ⟨_, hjudged n, ?_⟩, ?_, fun hfit o v n ho hv hn => ?_⟩
  · rw [decide_eq_true_eq, Text.mem_suppressedRows]
  · rw [Text.marksFitLines_iff]
    simp only [hjudged, Except.ok.injEq, decide_eq_true_eq]
  · have hrows := Text.marksFitLines_iff.mp hfit n
    have hdisplay := v.display_eq files o.showSource
    rw [hv, hn] at hdisplay
    simp only [FileSystem.line_eq h] at hdisplay
    unfold Violation.displayUnlessSuppressed
    rw [ho, if_neg Bool.false_ne_true, hv, hn, FileSystem.suppresses_line h]
    show (if decide (n + 1 ∈ suppressedRows text) then pure ()
      else v.display files o.showSource) = _
    cases hline : (Text.lines text)[n]? with
    | none =>
      rw [hline] at hrows hdisplay
      simp [hrows, hdisplay]
    | some line =>
      rw [hline] at hrows hdisplay
      simp [hrows, hdisplay]

/-- A mark in front of a carriage return and a line feed. -/
def markedLine : FileSystem := ⟨[("/a.cc", Text.ofString "x\r\ny // nolint \r\nz")]⟩

/-- The second line is suppressed by its own mark, and the last one is shown. -/
theorem judges_lines_iff_marked :
    ∃ text, markedLine.openFile (absoluteName "a.cc") = .ok text ∧ text.MarksFitLines ∧
      ((asked markedLine [(some "/a.cc", 3)]).has markedLine (some "a.cc") 2).1 = .ok true ∧
      Violation.displayUnlessSuppressed markedLine ⟨false, true, []⟩
          ⟨"rule", some "a.cc", 2, 1, "text"⟩ = pure () ∧
      (Violation.displayUnlessSuppressed markedLine ⟨false, true, []⟩
          ⟨"rule", some "a.cc", 3, 1, "text"⟩).notes =
        ["[a.cc:3/1] rule : text", "z", "^", ""].map Text.ofString := by
  have hopen : markedLine.openFile (absoluteName "a.cc") =
      .ok (Text.ofString "x\r\ny // nolint \r\nz") := rfl
  have hfit := Text.marksFitLines_of_no_lone_return
    (t := Text.ofString "x\r\ny // nolint \r\nz") (by decide +kernel)
  obtain ⟨-, hiff, hshown⟩ := judges_lines_iff hopen [(some "/a.cc", 3)]
  refine ⟨_, hopen, hfit, (hiff.mpr hfit 1).mpr ⟨_, rfl, by decide +kernel⟩, ?_, ?_⟩
  · exact hshown hfit _ ⟨"rule", some "a.cc", 2, 1, "text"⟩ 1 rfl rfl rfl
  · rw [hshown hfit _ ⟨"rule", some "a.cc", 3, 1, "text"⟩ 2 rfl rfl rfl]
    decide +kernel

/-- A mark in the second line, behind a lone carriage return. -/
def loneReturn : FileSystem := ⟨[("/a.cc", Text.ofString "a\rb // nolint\n")]⟩

/-- The first line has no mark and is suppressed, and the second has one and is shown. -/
theorem judges_line_by_mark_of_next :
    ∃ text, loneReturn.openFile (absoluteName "a.cc") = .ok text ∧
      (Text.lines text).map Text.isSuppressed = [false, true] ∧
      (has .empty loneReturn (some "a.cc") 1).1 = .ok true ∧
      (has .empty loneReturn (some "a.cc") 2).1 = .ok false ∧
      (Violation.displayUnlessSuppressed loneReturn ⟨false, true, []⟩
          ⟨"rule", some "a.cc", 1, 1, "text"⟩).notes = [] ∧
      (Violation.displayUnlessSuppressed loneReturn ⟨false, true, []⟩
          ⟨"rule", some "a.cc", 2, 1, "text"⟩).notes =
        ["[a.cc:2/1] rule : text", "b // nolint", "^", ""].map Text.ofString := by
  refine ⟨_, rfl, ?_, rfl, rfl, ?_, ?_⟩ <;> decide +kernel

end Suppressions

end StyleCheck
