import StyleCheck.Proofs.BraceLevels
import StyleCheck.Proofs.LineStarts

/-!
# Access labels stay in their column

The frame of a class, struct or union moves every child one level further in once an access label
was met in it, labels included, and the rule for labels takes that level back. So all labels of a
record are held to one column, the one that its members stand in as long as no label was met
(`IndentCheck.labels_keep_column`). The frame is marked by its own children alone: what stands in a
record inside it leaves no mark.
-/

namespace StyleCheck

/-- The column of what stands in a record that stands in this one, in front of all labels. -/
def IndentStyle.memberColumn (style : IndentStyle) (column : Int) : Int :=
  column + style.levelSize * (Frame.bracesAdd style.recordBraces + style.insideRecord.isOn.toInt)

/-- What members stand further in behind a label. -/
def IndentStyle.belowLabel (style : IndentStyle) (labelled : Bool) : Int :=
  style.levelSize * (style.belowVisibility.isOn && labelled).toInt

namespace Frame

variable {style : IndentStyle} {f child : Frame} {k : Kind} {column : Int}

/-- The levels of what stands in a record. -/
theorem childLevels_of_record (hflags : style.HasFlags) (hform : f.construct.form = k.form)
    (hk : k.isRecord = true) (hf : f.levels = .single column) :
    f.childLevels style = .single (style.memberColumn column + style.belowLabel f.marked) := by
  have hbraces : k.checkedBraces? style = some style.recordBraces := by
    cases k <;> first | rfl | cases hk
  have hswitch : k ≠ .switchStmt := by
    rintro rfl
    cases hk
  have hsetting : k.bodySetting style = style.insideRecord := by
    cases k <;> first | rfl | cases hk
  rw [childLevels_of_braces hflags hform hbraces hf, if_neg hswitch, Kind.levelsAt, hsetting, hk,
    Bool.true_and, Int.mul_add, ← Int.add_assoc]
  rfl

/-- A label in a record is expected in the column of the record's members, marked or not. -/
theorem expects_of_record (hform : f.construct.form = .record)
    (hlabel : child.construct.form = .accessLabel)
    (hlevels : child.levels = .single (column + style.belowLabel f.marked)) :
    f.expects style child = .single column := by
  have hkeeps : f.keepsMark = true := by rw [keepsMark, hform]; rfl
  rw [expects, hlevels, IndentStyle.belowLabel]
  cases hon : style.belowVisibility.isOn <;> cases hmark : f.marked <;>
    simp [hlabel, hkeeps, Levels.single_shift]

end Frame

/-- The complaint about a construct that belongs in one column. -/
def Scene.outOfColumn (e : Extent) (column : Int) : Violation :=
  ⟨"indent.generic", e.file, e.start.line, e.start.column,
    "Invalid indent. Expecting one of \x7b" ++ toString column ++ "\x7d"⟩

/-- A label in a record is reported if it starts its line in another column than the members of the
record have in front of all labels. -/
theorem Scene.check_label_of_record {s : Scene} {parent f : Frame} {t : Tree} {column found : Int}
    {starts : Bool} (hform : parent.construct.form = .record)
    (hlabel : f.construct.form = .accessLabel)
    (hlevels : f.levels = .single (column + s.style.belowLabel parent.marked))
    (hstarts : s.startsLine t.extent = .ok starts) (hfound : s.column t.extent = .ok found) :
    s.check parent f t =
      if starts = true ∧ found ≠ column then .note (outOfColumn t.extent column) else pure () := by
  have hkeeps : parent.keepsMark = true := by rw [Frame.keepsMark, hform]; rfl
  rw [check_accessLabel hlabel (fun _ => hkeeps), checkStart_of_startsLine hstarts hfound,
    misindented, Frame.expects_of_record hform hlabel hlevels, Levels.shift_zero]
  simp only [Bool.and_eq_true, Bool.not_eq_true', ← Bool.not_eq_true, Levels.accepts_single]
  rfl

namespace IndentCheck

variable {files : FileSystem} {u : TranslationUnit} {dirs : List String} {checks : List TreeAudit}
  {i : Nat} {vs : ViolationSet} {style : IndentStyle} {done rest : List Visit} {c : IndentCheck}
  {d : Tree}

/-- Where a tree is entered inside a walk and the check goes on, its innermost frame tells where the
tree belongs. All labels let through so far were checked. -/
theorem tells_inside (hi : checks[i]? = some ⟨.indent (.ofStyle style), vs⟩)
    (hu : u.root.Distinct)
    (hsplit : (u.visits (.ofDirs dirs)).1 = done ++ .event (.enter d) :: rest)
    (hc : Walk.Inside files u dirs checks i done c) (hgoing : c.stopped = none) :
    let checked := VisitFilter.letsThrough dirs
    let above := Event.openTrees (Visit.events done)
    u.root.Lineage (d :: above) ∧ c.style = style ∧ ∃ f outer, c.frames = f :: outer ∧
      f.Tells style checked above ∧ f.MarkTells checked d above := by
  intro checked above
  obtain ⟨es, -, hes, -, hfol⟩ := hc.follow hi
  obtain ⟨es', hes', ⟨hfin, -⟩ | ⟨more, htour⟩⟩ := TranslationUnit.event_next hsplit hc.begun
  · cases hfin
  rw [hes, List.cons.injEq] at hes'
  rw [← hes'.2] at htour
  have habove : above = es.foldl Event.after [] := by
    show Event.openTrees (Visit.events done) = _
    rw [hes]
    rfl
  have horder := (Event.tour_orderly (p := checked) u.root .top).1
  rw [htour, Event.orderly_append] at horder
  rw [follow_start] at hfol
  rw [habove]
  refine ⟨horder.2.1, tells_on_tour hu (fun _ _ h => h) u.root .top rfl rfl
    (show _ = Frame.root :: [] from rfl) ⟨false, rfl⟩ trivial htour hfol ?_ hgoing⟩
  intro o ho
  have hmem : .enter o.tree ∈ u.root.tour checked := by
    rw [htour]
    exact List.mem_append_left _ (enter_mem_of_mem_openings ho)
  obtain ⟨b, -, hb, heq | heq⟩ := Tree.mem_tour hmem
  · cases heq
    exact hb
  · cases heq

/-- Children of a class, struct or union whose frame has one level, on a walk. The frame is marked
just if one of the children in front is an access label that was let through. Each child is looked
at, in the column of the members, and behind a label as much further in as the style says. Each
label that starts its line is reported if it stands in another column than that of the members,
whatever stands in front of it. -/
theorem labels_keep_column (hflags : style.HasFlags)
    (hi : checks[i]? = some ⟨.indent (.ofStyle style), vs⟩) (hu : u.root.Distinct)
    (hsplit : (u.visits (.ofDirs dirs)).1 = done ++ .event (.enter d) :: rest)
    (hc : Walk.Inside files u dirs checks i done c) (hgoing : c.stopped = none) {record : Tree}
    {recordKind kind : Kind} (hrecord : record ∈ u.root.preorder) (hd : d ∈ record.children)
    (hk : record.node.kind = .ok recordKind) (hrk : recordKind.isRecord = true)
    (hkind : d.node.kind = .ok kind) :
    let labelled := record.labelledBefore (VisitFilter.letsThrough dirs) d
    ∃ f outer level, c.frames = f :: outer ∧ f.OpenedFor record ∧ f.levels = .single level ∧
      f.marked = labelled ∧
      (kind ≠ .templateTemplateParameter → ∃ op, c.opening? d = .ok (some op) ∧ op.parent = f ∧
        op.frame.levels = .single (style.memberColumn level + style.belowLabel labelled) ∧
        (kind = .cxxAccessSpecDecl → ∀ starts column,
          Scene.startsLine ⟨files, u, style⟩ d.extent = .ok starts →
          Scene.column ⟨files, u, style⟩ d.extent = .ok column →
          c.step files u (.enter d) = do
            if starts = true ∧ column ≠ style.memberColumn level then
              Report.note (Scene.outOfColumn d.extent (style.memberColumn level))
            return c.push op)) := by
  intro labelled
  obtain ⟨hlineage, hstyle, f, outer, hframes, htells, hmark⟩ := tells_inside hi hu hsplit hc hgoing
  obtain ⟨above, habove⟩ := hlineage.parent hu hrecord hd
  rw [habove] at htells hmark
  obtain ⟨hopened, hlevels, -⟩ := htells
  have hplain : record.node.isRangeLoop = false := by
    refine Node.isRangeLoop_eq_false hk ?_
    rintro rfl
    cases hrk
  have hform : f.construct.form = .record := by
    obtain ⟨k, hk', hform⟩ := hopened.form_eq
    cases hk.symm.trans hk'
    rw [hform, Kind.form_of_isRecord hrk]
  refine ⟨f, outer, _, hframes, hopened, hlevels, hmark hplain, fun hne => ?_⟩
  obtain ⟨g, hg, hgl⟩ := Frame.enterKind_of_flags hflags f hne (some d)
  rw [Frame.childLevels_of_record hflags (hform.trans (Kind.form_of_isRecord hrk).symm) hrk hlevels,
    hmark hplain] at hgl
  have hallows : f.allows d.node = .ok true := by rw [Frame.allows, hform]
  have hop := opening?_of_allows hkind hgoing hframes hallows (hstyle ▸ hg)
  refine ⟨_, hop, rfl, hgl, ?_⟩
  rintro rfl starts column hstarts hcolumn
  have hlabel : g.construct.form = .accessLabel := by
    obtain ⟨k, hk', hform⟩ := (Frame.openedFor_of_enterKind hkind hg).form_eq
    cases hkind.symm.trans hk'
    exact hform
  rw [step_enter_of_some hop, hstyle, Scene.check_label_of_record hform hlabel
    (hgl.trans (by rw [hmark hplain])) hstarts hcolumn]
  split <;> rfl

end IndentCheck

/-! A small unit to walk through -/

theorem IndentStyle.standard_hasFlags : standard.HasFlags where
  belowVisibility := ⟨_, rfl⟩
  insideRecord := ⟨_, rfl⟩
  insideFunction := ⟨_, rfl⟩
  insideBlock := ⟨_, rfl⟩
  insideSwitch := ⟨_, rfl⟩
  insideCase := ⟨_, rfl⟩
  insideNamespace := ⟨_, rfl⟩

/-- A class with two labels, and with a struct that has a label between them. -/
def TranslationUnit.nestedLabels : TranslationUnit where
  root := .number <| .mk (.atStart .translationUnit) [
    .mk (.atStart .classDecl) [
      .mk (.atStart .cxxAccessSpecDecl) [],
      .mk (.atStart .structDecl) [.mk (.atStart .cxxAccessSpecDecl) []],
      .mk (.atStart .cxxAccessSpecDecl) [],
      .mk (.atStart .fieldDecl) []]]
  tokens := []

/-- The second label of the class belongs in the fourth column like the first. It stands in column
zero and is reported. -/
theorem IndentCheck.labels_keep_column_of_second :
    ∃ done rest c t, (TranslationUnit.nestedLabels.visits (.ofDirs ["/"])).1 =
        done ++ .event (.enter t) :: rest ∧
      Walk.Inside .oneLine .nestedLabels ["/"] [.ofCheck (.indent (.ofStyle .standard))] 0 done c ∧
      t.node.id = 5 ∧ (c.step .oneLine .nestedLabels (.enter t)).notes =
        [⟨"indent.generic", some "a.cc", 1, 1, "Invalid indent. Expecting one of \x7b4\x7d"⟩] := by
  let visits := (TranslationUnit.nestedLabels.visits (.ofDirs ["/"])).1
  let numbered (id : Nat) (k : Kind) : Node := { Node.atStart k with id := id }
  let label : Tree := .mk (numbered 5 .cxxAccessSpecDecl) []
  let record : Tree := .mk (numbered 1 .classDecl) [
    .mk (numbered 2 .cxxAccessSpecDecl) [],
    .mk (numbered 3 .structDecl) [.mk (numbered 4 .cxxAccessSpecDecl) []],
    label, .mk (numbered 6 .fieldDecl) []]
  have hsplit : visits = visits.take 15 ++ .event (.enter label) :: visits.drop 16 := rfl
  have hchild : record ∈ TranslationUnit.nestedLabels.root.children := List.mem_singleton_self _
  have hrecord := Tree.mem_preorder_of_child hchild (Tree.self_mem_preorder _)
  have hlabel : label ∈ record.children := by simp [record, Tree.children]
  obtain ⟨c, hc, hq⟩ := Walk.Inside.of_any .oneLine [.ofCheck (.indent (.ofStyle .standard))] 0
    (fun c => c.stopped.isNone && c.frames.head?.any fun f => f.levels = .single 0) hsplit
    (by decide +kernel) (by decide +kernel) (by decide +kernel)
  rw [Bool.and_eq_true, Option.isNone_iff_eq_none] at hq
  obtain ⟨f, outer, level, hframes, -, hlevels, -, hlooked⟩ :=
    labels_keep_column (i := 0) IndentStyle.standard_hasFlags rfl (Tree.number_distinct _) hsplit hc
      hq.1 hrecord hlabel rfl rfl rfl
  obtain ⟨op, -, -, -, hstep⟩ := hlooked (by decide)
  obtain rfl : level = 0 := by
    have hzero := hq.2
    rw [hframes, List.head?_cons, Option.any_some, decide_eq_true_iff, hlevels] at hzero
    exact Levels.single_inj.mp hzero
  refine ⟨_, _, c, label, hsplit, hc, rfl, ?_⟩
  rw [hstep rfl true 0 rfl rfl, if_pos (by decide)]
  rfl

end StyleCheck
