import StyleCheck.Indent.Levels
import StyleCheck.Proofs.ByteOrder
import StyleCheck.Proofs.Filters

/-!
# Histories of levels

Levels that objects of some names refer to are built, widened and asked in any order. No two names
ever refer to the same levels (`LevelStore.after_unshared`), so a command changes those of its own
name alone. It acts on the store behind the commands before it, so a history is told by the numbers
of its commands (`LevelStore.CommandAt`). What a name accepts is what its last building gave and
what was added to it since (`LevelStore.accepts_iff_history`).
-/

namespace StyleCheck

theorem bind_eq_ok {α β : Type} {x : Except Fault α} {f : α → Except Fault β} {b : β} :
    (x >>= f) = .ok b ↔ ∃ a, x = .ok a ∧ f a = .ok b := by
  cases x <;> simp [bind, Except.bind]

/-! ## Sets of columns -/

namespace Levels

variable {l m : Levels} {n column d : Int}

theorem accepts_insert : (l.insert column).accepts n = true ↔ l.accepts n = true ∨ n = column := by
  rw [accepts_iff, accepts_iff, ← List.mem_singleton]
  exact OrdSet.mem_insertAll (s := l.columns) (l := [column])

theorem accepts_union :
    (l.union m).accepts n = true ↔ l.accepts n = true ∨ m.accepts n = true := by
  rw [accepts_iff, accepts_iff, accepts_iff]
  exact OrdSet.mem_insertAll

theorem accepts_shift_iff : (l.shift d).accepts n = true ↔ l.accepts (n - d) = true := by
  rw [accepts_shift, accepts_iff]
  constructor
  · rintro ⟨a, ha, rfl⟩
    rwa [Int.add_sub_cancel]
  · intro h
    exact ⟨n - d, h, by omega⟩

/-- There is a last column, and it is the largest. -/
theorem exceeds_iff (l : Levels) (n : Int) :
    ∃ b, l.exceeds n = .ok b ∧ (b = true ↔ ∃ c, l.accepts c = true ∧ n < c) := by
  obtain ⟨front, last, hcolumns⟩ := (List.eq_nil_or_concat l.columns.toList).resolve_left l.nonempty
  rw [List.concat_eq_append] at hcolumns
  have hlast : ∀ c ∈ l.columns.toList, c ≤ last := by
    intro c hc
    have hascending := l.columns.ascending
    rw [hcolumns] at hc hascending
    rcases List.mem_append.mp hc with hc | hc
    · have hlt := (List.pairwise_append.mp hascending).2.2 c hc last (by simp)
      exact (Int.compare_eq_lt.mp hlt).le
    · exact (List.mem_singleton.mp hc).le
  refine ⟨decide (n < last), by simp [exceeds, hcolumns], ?_⟩
  rw [decide_eq_true_iff]
  constructor
  · intro hlt
    exact ⟨last, accepts_iff.mpr (by simp [hcolumns]), hlt⟩
  · rintro ⟨c, hc, hlt⟩
    have := hlast c (accepts_iff.mp hc)
    omega

end Levels

/-! ## What a command does -/

namespace LevelStore

/-- The levels of a name accept a column. -/
def Accepts (s : LevelStore) (v : String) (n : Int) : Prop :=
  ∃ l, s.get v = .ok l ∧ l.accepts n = true

/-- A command builds levels for a name, and does not fail. -/
def Builds (v : String) (s : LevelStore) (c : Command) : Prop :=
  c.isMake = true ∧ ∃ r, (s.step v c).1 = .ok r

/-- Levels are built with column `n` in them: as the one that is given, or as one that the base
accepts, moved by the offset. -/
def Gives (n : Int) (s : LevelStore) : Command → Prop
  | .make (some column) _ _ => n = column
  | .make none (some base) (some offset) => s.Accepts base (n - offset)
  | _ => False

/-- Column `n` is added to levels: on its own, or as one that other levels accept. -/
def Adds (n : Int) (s : LevelStore) : Command → Prop
  | .insert column => n = column
  | .union other => s.Accepts other n
  | _ => False

/-- Names refer to levels that there are, and no two names to the same. -/
structure Unshared (s : LevelStore) : Prop where
  inRange : ∀ {v a}, s.ref? v = some a → a < s.cells.length
  apart : ∀ {v w a}, s.ref? v = some a → s.ref? w = some a → v = w

/-- The levels that a command on `v` can leave `v` with. -/
inductive Leaves (s : LevelStore) (v : String) : Command → Levels → Prop
  | single (column : Int) (base : Option String) (offset : Option Int) :
      Leaves s v (.make (some column) base offset) (.single column)
  | shift {base : String} {m : Levels} (offset : Int) : s.get base = .ok m →
      Leaves s v (.make none (some base) (some offset)) (m.shift offset)
  | insert {old : Levels} (column : Int) : s.get v = .ok old →
      Leaves s v (.insert column) (old.insert column)
  | union {old m : Levels} {other : String} : s.get v = .ok old → s.get other = .ok m →
      Leaves s v (.union other) (old.union m)
  | ask {c : Command} {l : Levels} : s.get v = .ok l → c.isMake = false → (∀ n, ¬ Adds n s c) →
      Leaves s v c l

variable {s : LevelStore} {v w : String} {c : Command} {l : Levels} {n : Int}

theorem get_eq_ok : s.get v = .ok l ↔ ∃ a, s.ref? v = some a ∧ s.cells[a]? = some l := by
  unfold get
  cases s.ref? v with
  | none => simp
  | some a =>
    rw [Option.bind_some]
    cases hcell : s.cells[a]? <;> simp [hcell]

theorem get_of_ref?_eq_none (h : s.ref? v = none) : s.get v = .error (.absent v) := by
  rw [get, h]
  rfl

theorem ref?_put (s : LevelStore) (v w : String) (l : Levels) :
    (s.put v l).ref? w = if w = v then some s.cells.length else s.ref? w := by
  unfold ref? put
  by_cases h : w = v
  · subst h
    simp
  · rw [if_neg h]
    simp only [List.lookup_cons, beq_eq_false_iff_ne.mpr h, lookup_filter_ne h]

theorem ref?_update (s : LevelStore) (v w : String) (l : Levels) :
    (s.update v l).ref? w = s.ref? w := by
  unfold update
  cases s.ref? v <;> rfl

theorem length_update (s : LevelStore) (v : String) (l : Levels) :
    (s.update v l).cells.length = s.cells.length := by
  unfold update
  cases s.ref? v with
  | none => rfl
  | some a => exact List.length_set

namespace Unshared

theorem put (h : s.Unshared) (v : String) (l : Levels) : (s.put v l).Unshared where
  inRange := by
    intro w a hw
    rw [ref?_put] at hw
    show a < (s.cells ++ [l]).length
    rw [List.length_append, List.length_singleton]
    split at hw
    · cases hw
      omega
    · exact Nat.lt_succ_of_lt (h.inRange hw)
  apart := by
    intro w x a hw hx
    rw [ref?_put] at hw hx
    -- the new number is larger than those that are in use
    split at hw <;> split at hx
    · next hwv hxv => rw [hwv, hxv]
    · cases hw
      exact absurd (h.inRange hx) (Nat.lt_irrefl _)
    · cases hx
      exact absurd (h.inRange hw) (Nat.lt_irrefl _)
    · exact h.apart hw hx

theorem update (h : s.Unshared) (v : String) (l : Levels) : (s.update v l).Unshared where
  inRange := by
    intro w a hw
    rw [length_update]
    exact h.inRange (ref?_update s v w l ▸ hw)
  apart := by
    intro w x a hw hx
    exact h.apart (ref?_update s v w l ▸ hw) (ref?_update s v x l ▸ hx)

theorem get_put (h : s.Unshared) (v w : String) (l : Levels) :
    (s.put v l).get w = if w = v then .ok l else s.get w := by
  by_cases hw : w = v
  · rw [if_pos hw, get_eq_ok]
    exact ⟨s.cells.length, by rw [ref?_put, if_pos hw], List.getElem?_concat_length⟩
  · have href : (s.put v l).ref? w = s.ref? w := by rw [ref?_put, if_neg hw]
    rw [if_neg hw]
    cases ha : s.ref? w with
    | none => rw [get_of_ref?_eq_none ha, get_of_ref?_eq_none (href.trans ha)]
    | some a =>
      have hcell : (s.put v l).cells[a]? = s.cells[a]? := List.getElem?_append_left (h.inRange ha)
      rw [get, get, href, ha, Option.bind_some, Option.bind_some, hcell]

/-- Changing the levels of a name changes those of no other, since no other refers to them. -/
theorem get_update (h : s.Unshared) {old : Levels} (hv : s.get v = .ok old) (w : String)
    (l : Levels) : (s.update v l).get w = if w = v then .ok l else s.get w := by
  obtain ⟨a, ha, -⟩ := get_eq_ok.mp hv
  have hcells : (s.update v l).cells = s.cells.set a l := by
    rw [LevelStore.update, ha]
  by_cases hw : w = v
  · rw [if_pos hw, get_eq_ok]
    refine ⟨a, by rw [ref?_update, hw, ha], ?_⟩
    rw [hcells, List.getElem?_set_self (h.inRange ha)]
  · rw [if_neg hw]
    cases hb : s.ref? w with
    | none => rw [get_of_ref?_eq_none hb, get_of_ref?_eq_none ((ref?_update s v w l).trans hb)]
    | some b =>
      have hne : a ≠ b := by
        rintro rfl
        exact hw (h.apart hb ha)
      rw [get, get, ref?_update, hb, Option.bind_some, Option.bind_some, hcells,
        List.getElem?_set_ne hne]

end Unshared

/-- A command fails and changes nothing, or it gives its name the levels that it answers with: to a
new object if it builds one, and to the object of the name if not. -/
theorem step_cases (s : LevelStore) (v : String) (c : Command) :
    (∃ e, s.answer v c = .error e ∧ s.step v c = (.error e, s)) ∨
      ∃ a l, s.answer v c = .ok (a, l) ∧
        s.step v c = (.ok (a, l), if c.isMake then s.put v l else s.update v l) := by
  unfold step
  cases s.answer v c with
  | error e => exact .inl ⟨e, rfl, rfl⟩
  | ok r => exact .inr ⟨r.1, r.2, rfl, rfl⟩

theorem accepts_of_get (h : s.get v = .ok l) : s.Accepts v n ↔ l.accepts n = true := by
  simp [Accepts, h]

theorem leaves_of_answer {a : Answer} (h : s.answer v c = .ok (a, l)) : s.Leaves v c l := by
  cases c with
  | make column base offset =>
    cases base with
    | none =>
      cases column with
      | some column =>
        cases h
        exact .single column none offset
      | none => cases h
    | some base =>
      obtain ⟨m?, hm, h⟩ := bind_eq_ok.mp h
      cases hb : s.get base with
      | error e =>
        rw [hb] at hm
        cases hm
      | ok m =>
        rw [hb] at hm
        cases hm
        cases column with
        | some column =>
          cases h
          exact .single column base offset
        | none =>
          cases offset with
          | some offset =>
            cases h
            exact .shift offset hb
          | none => cases h
  | accepts column =>
    obtain ⟨old, hv, h⟩ := bind_eq_ok.mp h
    cases h
    exact .ask hv rfl fun _ => id
  | exceeds column =>
    obtain ⟨old, hv, h⟩ := bind_eq_ok.mp h
    obtain ⟨b, -, h⟩ := bind_eq_ok.mp h
    cases h
    exact .ask hv rfl fun _ => id
  | insert column =>
    obtain ⟨old, hv, h⟩ := bind_eq_ok.mp h
    cases h
    exact .insert column hv
  | union other =>
    obtain ⟨old, hv, h⟩ := bind_eq_ok.mp h
    obtain ⟨m, hw, h⟩ := bind_eq_ok.mp h
    cases h
    exact .union hv hw
  | isMultiple =>
    obtain ⟨old, hv, h⟩ := bind_eq_ok.mp h
    cases h
    exact .ask hv rfl fun _ => id
  | render =>
    obtain ⟨old, hv, h⟩ := bind_eq_ok.mp h
    cases h
    exact .ask hv rfl fun _ => id

/-- A command that fails adds nothing to levels that there are. -/
theorem not_adds_of_error {e : Fault} (hv : s.get v = .ok l) (h : s.answer v c = .error e) :
    ¬ Adds n s c := by
  cases c with
  | insert column =>
    rw [answer, hv] at h
    cases h
  | union other =>
    rintro ⟨m, hm, -⟩
    rw [answer, hv, hm] at h
    cases h
  | _ => exact id

namespace Leaves

theorem accepts_of_make (h : s.Leaves v c l) (hc : c.isMake = true) :
    l.accepts n = true ↔ Gives n s c := by
  cases h with
  | single column base offset => exact Levels.accepts_single
  | shift offset hb => rw [Levels.accepts_shift_iff, Gives, accepts_of_get hb]
  | insert column hv => cases hc
  | union hv hw => cases hc
  | ask hv hnot hadds =>
    rw [hnot] at hc
    cases hc

theorem accepts_of_keep (h : s.Leaves v c l) (hc : c.isMake = false) :
    l.accepts n = true ↔ s.Accepts v n ∨ Adds n s c := by
  cases h with
  | single column base offset => cases hc
  | shift offset hb => cases hc
  | insert column hv => rw [Levels.accepts_insert, accepts_of_get hv, Adds]
  | union hv hw => rw [Levels.accepts_union, accepts_of_get hv, Adds, accepts_of_get hw]
  | ask hv hnot hadds => rw [accepts_of_get hv, or_iff_left (hadds n)]

/-- Only levels that there are can be kept. -/
theorem exists_get (h : s.Leaves v c l) (hc : c.isMake = false) : ∃ old, s.get v = .ok old := by
  cases h with
  | single column base offset => cases hc
  | shift offset hb => cases hc
  | insert column hv => exact ⟨_, hv⟩
  | union hv hw => exact ⟨_, hv⟩
  | ask hv hnot hadds => exact ⟨_, hv⟩

end Leaves

/-! ## Steps -/

section

variable (h : s.Unshared)

include h

theorem Unshared.step (w : String) (c : Command) : (s.step w c).2.Unshared := by
  rcases s.step_cases w c with ⟨e, -, hs⟩ | ⟨a, l, -, hs⟩
  · rw [hs]
    exact h
  · rw [hs]
    dsimp only
    split
    · exact h.put w l
    · exact h.update w l

/-- Behind a command that does not fail its name has the levels that it answers with, and the other
names have theirs. -/
theorem get_step {a : Answer} (ha : s.answer v c = .ok (a, l)) (w : String) :
    (s.step v c).2.get w = if w = v then .ok l else s.get w := by
  rcases s.step_cases v c with ⟨e, he, -⟩ | ⟨b, m, hb, hs⟩
  · cases he.symm.trans ha
  · cases hb.symm.trans ha
    rw [hs]
    cases hc : c.isMake with
    | true => exact h.get_put v w l
    | false =>
      obtain ⟨old, hold⟩ := (leaves_of_answer ha).exists_get hc
      exact h.get_update hold w l

theorem get_step_of_ne (hne : v ≠ w) : (s.step w c).2.get v = s.get v := by
  rcases s.step_cases w c with ⟨e, -, hs⟩ | ⟨a, l, ha, -⟩
  · rw [hs]
  · rw [get_step h ha, if_neg hne]

theorem get_step_self {a : Answer} (ha : s.answer v c = .ok (a, l)) :
    (s.step v c).2.get v = .ok l := by
  rw [get_step h ha, if_pos rfl]

/-- There are levels behind a command if there were before, or if it builds them. -/
theorem exists_get_step : (∃ l, (s.step v c).2.get v = .ok l) ↔
    (∃ l, s.get v = .ok l) ∨ Builds v s c := by
  rcases s.step_cases v c with ⟨e, ha, hs⟩ | ⟨a, m, ha, hs⟩
  · simp [Builds, hs]
  · refine iff_of_true ⟨m, get_step_self h ha⟩ ?_
    cases hc : c.isMake with
    | true => exact .inr ⟨hc, _, by rw [hs]⟩
    | false => exact .inl ((leaves_of_answer ha).exists_get hc)

theorem accepts_step_of_builds (hb : Builds v s c) :
    (s.step v c).2.Accepts v n ↔ Gives n s c := by
  obtain ⟨hc, r, hr⟩ := hb
  rcases s.step_cases v c with ⟨e, -, hs⟩ | ⟨a, m, ha, -⟩
  · rw [hs] at hr
    cases hr
  · rw [accepts_of_get (get_step_self h ha), (leaves_of_answer ha).accepts_of_make hc]

theorem accepts_step_of_keeps (hb : ¬ Builds v s c) (hv : s.get v = .ok l) :
    (s.step v c).2.Accepts v n ↔ s.Accepts v n ∨ Adds n s c := by
  rcases s.step_cases v c with ⟨e, ha, hs⟩ | ⟨a, m, ha, hs⟩
  · rw [hs, or_iff_left (not_adds_of_error hv ha)]
  · have hc : c.isMake = false := by
      by_contra hmake
      exact hb ⟨by simpa using hmake, _, by rw [hs]⟩
    rw [accepts_of_get (get_step_self h ha), (leaves_of_answer ha).accepts_of_keep hc]

end

theorem step_accepts (hv : s.get v = .ok l) (n : Int) :
    (s.step v (.accepts n)).1 = .ok (.truth (l.accepts n), l) := by
  rw [step, answer, hv]
  rfl

theorem step_exceeds {b : Bool} (hv : s.get v = .ok l) (hb : l.exceeds n = .ok b) :
    (s.step v (.exceeds n)).1 = .ok (.truth b, l) := by
  have ha : s.answer v (.exceeds n) = .ok (.truth b, l) := by
    rw [answer, hv]
    show (l.exceeds n >>= _) = _
    rw [hb]
    rfl
  rw [step, ha]

/-! ## Histories -/

/-- The store behind some commands. -/
def after (history : List (String × Command)) : LevelStore :=
  history.foldl (fun s c => (s.step c.1 c.2).2) empty

/-- Command `i` of a history is one on `v`, and `P` holds of it in the store that it meets. -/
def CommandAt (history : List (String × Command)) (v : String) (P : LevelStore → Command → Prop)
    (i : Nat) : Prop :=
  ∃ c, history[i]? = some (v, c) ∧ P (after (history.take i)) c

/-- Command `i` is the last that built the levels of `v`. -/
def LastBuilt (history : List (String × Command)) (v : String) (i : Nat) : Prop :=
  CommandAt history v (Builds v) i ∧ ∀ j, i < j → ¬ CommandAt history v (Builds v) j

variable {history : List (String × Command)} {P : LevelStore → Command → Prop} {i : Nat}

theorem after_concat (history : List (String × Command)) (w : String) (c : Command) :
    after (history ++ [(w, c)]) = ((after history).step w c).2 := by
  rw [after, List.foldl_append]
  rfl

theorem empty_unshared : empty.Unshared where
  inRange h := by cases h
  apart h := by cases h

theorem after_unshared (history : List (String × Command)) : (after history).Unshared :=
  List.foldlRecOn history _ empty_unshared fun _ h c _ => h.step c.1 c.2

theorem CommandAt.lt_length (h : CommandAt history v P i) : i < history.length := by
  obtain ⟨c, hc, -⟩ := h
  exact (List.getElem?_eq_some_iff.mp hc).1

theorem commandAt_concat : CommandAt (history ++ [(w, c)]) v P i ↔
    CommandAt history v P i ∨ i = history.length ∧ w = v ∧ P (after history) c := by
  rcases Nat.lt_trichotomy i history.length with hlt | rfl | hlt
  · have hne : i ≠ history.length := by omega
    simp [CommandAt, List.getElem?_append_left hlt, List.take_append_of_le_length hlt.le, hne]
  · have hnot : ¬ CommandAt history v P history.length := fun h => absurd h.lt_length (by omega)
    rw [or_iff_right hnot]
    simp [CommandAt]
  · have hne : i ≠ history.length := by omega
    refine iff_of_false (fun h => ?_) (fun h => ?_)
    · have := h.lt_length
      rw [List.length_append, List.length_singleton] at this
      omega
    · rcases h with h | h
      · exact absurd h.lt_length (by omega)
      · exact hne h.1

/-- Levels are not changed by commands on other names. -/
theorem get_after_append {later : List (String × Command)} (h : ∀ c ∈ later, c.1 ≠ v) :
    (after (history ++ later)).get v = (after history).get v := by
  induction later using List.reverseRecOn with
  | nil => rw [List.append_nil]
  | append_singleton later x ih =>
    rw [List.forall_mem_append, List.forall_mem_singleton] at h
    rw [← List.append_assoc, after_concat, get_step_of_ne (after_unshared _) h.2.symm, ih h.1]

/-- The last building is the last command, or it was the last before and the command is none. -/
theorem lastBuilt_concat : LastBuilt (history ++ [(w, c)]) v i ↔
    (i = history.length ∧ w = v ∧ Builds v (after history) c) ∨
      LastBuilt history v i ∧ ¬ (w = v ∧ Builds v (after history) c) := by
  unfold LastBuilt
  simp only [commandAt_concat]
  constructor
  · rintro ⟨hold | hnew, hlast⟩
    · refine .inr ⟨⟨hold, fun j hj hb => hlast j hj (.inl hb)⟩, fun hb => ?_⟩
      exact hlast history.length hold.lt_length (.inr ⟨rfl, hb⟩)
    · exact .inl hnew
  · rintro (⟨rfl, hnew⟩ | ⟨⟨hold, hlast⟩, hkeeps⟩)
    · refine ⟨.inr ⟨rfl, hnew⟩, fun j hj hb => ?_⟩
      rcases hb with hb | ⟨rfl, -⟩
      · exact absurd hb.lt_length (by omega)
      · omega
    · refine ⟨.inl hold, fun j hj hb => ?_⟩
      rcases hb with hb | ⟨-, hb⟩
      · exact hlast j hj hb
      · exact hkeeps hb

/-- A name has levels if they were built. -/
theorem exists_get_after : (∃ l, (after history).get v = .ok l) ↔ ∃ i, LastBuilt history v i := by
  induction history using List.reverseRecOn with
  | nil => simp [after, empty, get, LastBuilt, CommandAt]
  | append_singleton history x ih =>
    obtain ⟨w, c⟩ := x
    simp only [lastBuilt_concat, exists_or, exists_eq_left, exists_and_right, ← ih, after_concat]
    by_cases hw : w = v
    · subst hw
      rw [exists_get_step (after_unshared history)]
      tauto
    · rw [get_step_of_ne (after_unshared history) (Ne.symm hw)]
      simp [hw]

/-- A name accepts what its last building gave, and what was added to it since. -/
theorem accepts_iff_history (h : LastBuilt history v i) : (after history).Accepts v n ↔
    CommandAt history v (Gives n) i ∨ ∃ j, i < j ∧ CommandAt history v (Adds n) j := by
  induction history using List.reverseRecOn with
  | nil => exact absurd h.1.lt_length (Nat.not_lt_zero i)
  | append_singleton history x ih =>
    obtain ⟨w, c⟩ := x
    rw [after_concat]
    simp only [commandAt_concat]
    rcases lastBuilt_concat.mp h with ⟨rfl, rfl, hbuilds⟩ | ⟨hold, hkeeps⟩
    · -- the last command builds the levels, and there is nothing since
      have hbefore : ∀ P j, history.length ≤ j → ¬ CommandAt history w P j :=
        fun P j hj hc => absurd hc.lt_length (by omega)
      rw [accepts_step_of_builds (after_unshared history) hbuilds,
        or_iff_right (hbefore _ _ le_rfl), and_iff_right rfl, and_iff_right rfl, or_iff_left]
      rintro ⟨j, hj, hc | ⟨rfl, -⟩⟩
      · exact hbefore _ j hj.le hc
      · exact absurd hj (Nat.lt_irrefl _)
    · -- the last command may add to the levels
      have hi := hold.1.lt_length
      have hgives : (CommandAt history v (Gives n) i ∨
          i = history.length ∧ w = v ∧ Gives n (after history) c) ↔
          CommandAt history v (Gives n) i := or_iff_left fun hend => hi.ne hend.1
      have hadds : (∃ j, i < j ∧ (CommandAt history v (Adds n) j ∨
          j = history.length ∧ w = v ∧ Adds n (after history) c)) ↔
          (∃ j, i < j ∧ CommandAt history v (Adds n) j) ∨ w = v ∧ Adds n (after history) c := by
        simp only [and_or_left, exists_or]
        simp [hi]
      rw [hgives, hadds, ← or_assoc, ← ih hold]
      by_cases hw : w = v
      · subst hw
        obtain ⟨l, hl⟩ := exists_get_after.mpr ⟨i, hold⟩
        rw [accepts_step_of_keeps (after_unshared history) (fun hb => hkeeps ⟨rfl, hb⟩) hl,
          and_iff_right rfl]
      · rw [or_iff_left fun hend => hw hend.1, Accepts,
          get_step_of_ne (after_unshared history) (Ne.symm hw), Accepts]

/-- Whatever was done to a store, levels that it holds hold a column. So it can be asked whether
they exceed a column, and they do just if they accept a larger one. No other name refers to them.
They were built last by some command that did not fail. They accept the columns that this command
gave, by what its base accepted then, and those that were added since, by what the added levels
accepted then. Commands on other names do not change them. -/
theorem levels_by_history (history : List (String × Command))
    (h : (after history).get v = .ok l) :
    l.columns.toList ≠ [] ∧
    (∀ n, ∃ b, ((after history).step v (.exceeds n)).1 = .ok (.truth b, l) ∧
      (b = true ↔ ∃ c, l.accepts c = true ∧ n < c)) ∧
    (∀ w, w ≠ v → (after history).ref? w ≠ (after history).ref? v) ∧
    (∃ i, LastBuilt history v i) ∧
    (∀ i, LastBuilt history v i → ∀ n, ∃ b,
      ((after history).step v (.accepts n)).1 = .ok (.truth b, l) ∧
      (b = true ↔ CommandAt history v (Gives n) i ∨
        ∃ j, i < j ∧ CommandAt history v (Adds n) j)) ∧
    ∀ later, (∀ c ∈ later, c.1 ≠ v) → (after (history ++ later)).get v = .ok l := by
  refine ⟨l.nonempty, fun n => ?_, fun w hw hshared => ?_, exists_get_after.mp ⟨l, h⟩,
    fun i hi n => ?_, fun later hlater => ?_⟩
  · obtain ⟨b, hb, hiff⟩ := l.exceeds_iff n
    exact ⟨b, step_exceeds h hb, hiff⟩
  · obtain ⟨a, ha, -⟩ := get_eq_ok.mp h
    exact hw ((after_unshared history).apart (hshared.trans ha) ha)
  · exact ⟨_, step_accepts h n, by rw [← accepts_of_get h, accepts_iff_history hi]⟩
  · rw [get_after_append hlater, h]

/-- The levels of `b` are built on those of `a`, which are widened later and then added to `b`. In
between a building of `b` fails. -/
def twoLevels : List (String × Command) :=
  [("a", .make (some 4) none none), ("b", .make none (some "a") (some 2)),
    ("b", .make none none (some 1)), ("a", .insert 8), ("b", .union "a")]

/-- Column 6 is accepted by the offset, and column 8 since it was added. Column 10 is not, since `a`
did not accept 8 when `b` was built on it. -/
theorem levels_by_history_of_two :
    let l := ((Levels.single 4).insert 6).insert 8
    (after twoLevels).get "b" = .ok l ∧ (after twoLevels).ref? "a" ≠ (after twoLevels).ref? "b" ∧
      LastBuilt twoLevels "b" 1 ∧
      CommandAt twoLevels "b" (Gives 6) 1 ∧ CommandAt twoLevels "b" (Adds 8) 4 ∧
      ((after twoLevels).step "b" (.accepts 6)).1 = .ok (.truth true, l) ∧
      ((after twoLevels).step "b" (.accepts 8)).1 = .ok (.truth true, l) ∧
      ¬ (CommandAt twoLevels "b" (Gives 10) 1 ∨
        ∃ j, 1 < j ∧ CommandAt twoLevels "b" (Adds 10) j) ∧
      (after (twoLevels ++ [("a", .insert 20)])).get "b" = .ok l := by
  intro l
  have hget : (after twoLevels).get "b" = .ok l := by decide +kernel
  have hbuilt : LastBuilt twoLevels "b" 1 := by
    refine ⟨⟨_, rfl, rfl, _, rfl⟩, fun j hj hb => ?_⟩
    have hlt : j < 5 := hb.lt_length
    obtain ⟨c, hc, hmake, r, hr⟩ := hb
    obtain rfl | rfl | rfl : j = 2 ∨ j = 3 ∨ j = 4 := by omega
    · cases hc
      cases hr
    · simp [twoLevels] at hc
    · cases hc
      cases hmake
  obtain ⟨-, -, hshared, -, haccepts, hlater⟩ := levels_by_history twoLevels hget
  have hgives : CommandAt twoLevels "b" (Gives 6) 1 := ⟨_, rfl, .single 4, rfl, rfl⟩
  have hadds : CommandAt twoLevels "b" (Adds 8) 4 := ⟨_, rfl, (Levels.single 4).insert 8, rfl, rfl⟩
  refine ⟨hget, hshared "a" (by decide), hbuilt, hgives, hadds, ?_, ?_, ?_, hlater _ (by decide)⟩
  · obtain ⟨b, hb, hiff⟩ := haccepts 1 hbuilt 6
    rw [hb, hiff.mpr (.inl hgives)]
  · obtain ⟨b, hb, hiff⟩ := haccepts 1 hbuilt 8
    rw [hb, hiff.mpr (.inr ⟨4, by decide, hadds⟩)]
  · obtain ⟨b, hb, hiff⟩ := haccepts 1 hbuilt 10
    have hfalse : ((after twoLevels).step "b" (.accepts 10)).1 = .ok (.truth false, l) := by
      decide +kernel
    cases hb.symm.trans hfalse
    exact fun h => absurd (hiff.mpr h) Bool.false_ne_true

end LevelStore

end StyleCheck
