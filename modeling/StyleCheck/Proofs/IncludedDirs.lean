import StyleCheck.Proofs.SeenFiles

/-!
# Names that start with the name of a directory

The name of a path starts with the name of a directory if the path is the directory or below it
(`Within`), but also if the path goes on beside the directory with a longer part that starts with
the directory's last one (`OutgrownBy`). A filter does not tell these apart. So it lets a file
through that is in none of its directories, unless all of them are in roots that are among them.
-/

namespace StyleCheck

namespace AbsPath

/-- A path that is a directory or below it. -/
def Within (d p : AbsPath) : Prop := d.doubled = p.doubled ∧ d.parts <+: p.parts

instance (d p : AbsPath) : Decidable (d.Within p) := inferInstanceAs (Decidable (_ ∧ _))

/-- The parts of a path that goes on beside a directory, with a longer part that starts with the
directory's last one. -/
def Outgrow (ds ps : List (List Char)) : Prop :=
  ∃ above x y below, ds = above ++ [x] ∧ ps = above ++ y :: below ∧ x <+: y ∧ x ≠ y

/-- A directory that a path goes on beside. -/
def OutgrownBy (d p : AbsPath) : Prop := d.doubled = p.doubled ∧ Outgrow d.parts p.parts

/-! ## Joined parts -/

theorem prefix_append_slash {x : List Char} (hx : '/' ∉ x) (y z : List Char) :
    x <+: y ++ '/' :: z ↔ x <+: y := by
  induction x generalizing y with
  | nil => simp
  | cons c x ih =>
    rw [List.mem_cons, not_or] at hx
    cases y with
    | nil => simp [Ne.symm hx.1]
    | cons d y => rw [List.cons_append, List.cons_prefix_cons, List.cons_prefix_cons, ih hx.2]

theorem append_slash_prefix {x y : List Char} (hx : '/' ∉ x) (hy : '/' ∉ y) (a b : List Char) :
    x ++ '/' :: a <+: y ++ '/' :: b ↔ x = y ∧ a <+: b := by
  induction x generalizing y with
  | nil =>
    cases y with
    | nil => simp
    | cons d y =>
      have hd : '/' ≠ d := List.ne_of_not_mem_cons hy
      simp [hd]
  | cons c x ih =>
    rw [List.mem_cons, not_or] at hx
    cases y with
    | nil => simp [Ne.symm hx.1]
    | cons d y =>
      rw [List.mem_cons, not_or] at hy
      simp [List.cons_prefix_cons, ih hx.2 hy.2, and_assoc]

theorem join_eq_nil {ps : List (List Char)} (hps : ∀ p ∈ ps, ProperPart p) :
    join ps = [] ↔ ps = [] := by
  cases ps with
  | nil => simp [join]
  | cons p ps =>
    have hp := (hps p List.mem_cons_self).1
    cases ps <;> simp [join, hp]

theorem not_outgrow_nil {ds : List (List Char)} : ¬ Outgrow ds [] := by
  rintro ⟨above, x, y, below, -, h, -⟩
  simp at h

theorem outgrow_singleton {x y : List Char} {ps : List (List Char)} :
    Outgrow [x] (y :: ps) ↔ x <+: y ∧ x ≠ y := by
  constructor
  · rintro ⟨above, x', y', below, hd, hp, h⟩
    cases above with
    | nil =>
      cases hd
      cases hp
      exact h
    | cons a above => simp at hd
  · exact fun h => ⟨[], x, y, ps, rfl, rfl, h⟩

theorem outgrow_cons {x y e : List Char} {ds ps : List (List Char)} :
    Outgrow (x :: e :: ds) (y :: ps) ↔ x = y ∧ Outgrow (e :: ds) ps := by
  constructor
  · rintro ⟨above, x', y', below, hd, hp, h⟩
    cases above with
    | nil => simp at hd
    | cons a above =>
      rw [List.cons_append, List.cons.injEq] at hd hp
      exact ⟨hd.1.trans hp.1.symm, above, x', y', below, hd.2, hp.2, h⟩
  · rintro ⟨rfl, above, x', y', below, hd, hp, h⟩
    exact ⟨x :: above, x', y', below, by rw [hd]; rfl, by rw [hp]; rfl, h⟩

/-- Joined parts start with others that they go on from, or that they outgrow. -/
theorem join_prefix_join {ds ps : List (List Char)} (hds : ∀ d ∈ ds, ProperPart d)
    (hps : ∀ p ∈ ps, ProperPart p) : join ds <+: join ps ↔ ds <+: ps ∨ Outgrow ds ps := by
  induction ds generalizing ps with
  | nil => simp [join]
  | cons x ds ih =>
    obtain ⟨hx, hds⟩ := List.forall_mem_cons.mp hds
    cases ps with
    | nil =>
      have hne : join (x :: ds) ≠ [] := by
        rw [ne_eq, join_eq_nil (List.forall_mem_cons.mpr ⟨hx, hds⟩)]
        exact List.cons_ne_nil x ds
      simp [join, hne, not_outgrow_nil]
    | cons y ps =>
      obtain ⟨hy, hps⟩ := List.forall_mem_cons.mp hps
      have hx' : '/' ∉ x := hx.2.2.2
      have hy' : '/' ∉ y := hy.2.2.2
      cases ds with
      | nil =>
        -- the last part may be cut short anywhere
        have hfirst : join [x] <+: join (y :: ps) ↔ x <+: y := by
          cases ps with
          | nil => rfl
          | cons z ps => exact prefix_append_slash hx' y _
        rw [hfirst, outgrow_singleton, List.cons_prefix_cons]
        by_cases hxy : x = y <;> simp [hxy]
      | cons e ds =>
        -- a part with more behind it ends at a slash, so there the two are equal
        rw [outgrow_cons, List.cons_prefix_cons, ← and_or_left]
        cases ps with
        | nil =>
          have hno : ¬ join (x :: e :: ds) <+: join [y] := fun h => hy' (h.subset (by simp [join]))
          simp [hno, not_outgrow_nil]
        | cons z ps => rw [join, join, append_slash_prefix hx' hy', ih hds hps]

/-- What the name of a path starts with. The name of the root starts every name, also one that
starts with two slashes. -/
theorem toName_prefix_iff {d p : AbsPath} (hd : ∀ q ∈ d.parts, ProperPart q)
    (hp : ∀ q ∈ p.parts, ProperPart q) : d.toName.toList <+: p.toName.toList ↔
      d.Within p ∨ d.OutgrownBy p ∨ d = ⟨false, []⟩ ∧ p.doubled = true := by
  obtain ⟨dd, ds⟩ := d
  obtain ⟨pd, ps⟩ := p
  have hjoin := join_prefix_join hd hp
  cases dd with
  | false =>
    cases pd with
    | false => simp [toName, Within, OutgrownBy, hjoin]
    | true =>
      -- the second slash stands against the first part, if there is one
      have hroot : join ds <+: '/' :: join ps ↔ ds = [] := by
        rw [List.prefix_cons_iff, ← join_eq_nil hd]
        simp [join_ne_slash hd]
      simp [toName, Within, OutgrownBy, hroot]
  | true =>
    cases pd with
    | false =>
      have hno : ¬ '/' :: join ds <+: join ps := by
        rintro ⟨cs, hcs⟩
        exact join_ne_slash hp _ hcs.symm
      simp [toName, Within, OutgrownBy, hno]
    | true => simp [toName, Within, OutgrownBy, hjoin]

/-! ## A path that outgrows a directory -/

/-- A part that stands for itself does so too with letters behind it. -/
theorem ProperPart.append_replicate {x : List Char} (h : ProperPart x) (n : Nat) :
    ProperPart (x ++ List.replicate (n + 1) 'a') := by
  have hmem : 'a' ∈ x ++ List.replicate (n + 1) 'a' := by simp
  refine ⟨List.ne_nil_of_mem hmem, ?_, ?_, ?_⟩
  · intro he
    rw [he] at hmem
    exact absurd hmem (by decide)
  · intro he
    rw [he] at hmem
    exact absurd hmem (by decide)
  · simp [h.2.2.2]

/-- Beside a directory that is in no other, a path goes on that is in none. -/
theorem exists_outgrown (paths : List AbsPath) {d : AbsPath} (hd : ∀ q ∈ d.parts, ProperPart q)
    (hne : d.parts ≠ []) (htop : ∀ e ∈ paths, e.Within d → e = d) :
    ∃ p : AbsPath, (∀ q ∈ p.parts, ProperPart q) ∧ d.OutgrownBy p ∧ ∀ e ∈ paths, ¬ e.Within p := by
  obtain ⟨doubled, ds⟩ := d
  obtain ⟨above, x, rfl⟩ := List.eq_nil_or_concat ds |>.resolve_left hne
  rw [List.concat_eq_append] at *
  obtain ⟨habove, hx⟩ := List.forall_mem_append.mp hd
  -- longer than any part of the paths
  let n := (paths.flatMap (·.parts)).flatten.length
  have hlong : ∀ e ∈ paths, ∀ q ∈ e.parts, q.length ≤ n := fun e he q hq =>
    (List.sublist_flatten_of_mem (List.mem_flatMap.mpr ⟨e, he, hq⟩)).length_le
  refine ⟨⟨doubled, above ++ [x ++ List.replicate (n + 1) 'a']⟩, ?_, ⟨rfl, ?_⟩, ?_⟩
  · exact List.forall_mem_append.mpr ⟨habove, List.forall_mem_singleton.mpr
      ((List.forall_mem_singleton.mp hx).append_replicate n)⟩
  · exact ⟨above, x, _, [], rfl, rfl, List.prefix_append _ _, by simp⟩
  · rintro e he ⟨hdoubled, hprefix⟩
    rcases List.prefix_concat_iff.mp hprefix with heq | habv
    · have hlen := hlong e he (x ++ List.replicate (n + 1) 'a') (by simp [heq])
      rw [List.length_append, List.length_replicate] at hlen
      omega
    · rw [htop e he ⟨hdoubled, habv.trans (List.prefix_append _ _)⟩] at habv
      have hlen : (above ++ [x]).length ≤ above.length := habv.length_le
      rw [List.length_append, List.length_singleton] at hlen
      omega

end AbsPath

namespace VisitFilter

open AbsPath

/-- What the name of a file that is let through starts with. -/
theorem letsFile_iff_paths {dirs : List String} {name : String} : letsFile dirs name = true ↔
    ∃ d ∈ dirs, (ofName d).Within (ofName name) ∨ (ofName d).OutgrownBy (ofName name) ∨
      ofName d = ⟨false, []⟩ ∧ (ofName name).doubled = true := by
  rw [letsFile_iff]
  exact exists_congr fun d => and_congr_right fun _ =>
    toName_prefix_iff (ofName_proper d) (ofName_proper name)

/-- A filter that was asked nothing before lets a file through if it is in one of the directories,
if it goes on beside one of them, or if its name starts with two slashes and the root is one of
them. For every directory that is in no other, except for the roots, there is a file that goes on
beside it and is in none of the directories. -/
theorem fresh_lets_outgrown (dirs : List String) :
    (∀ name, ∃ answer, ((ofDirs dirs).allowsFile name).1 = .ok answer ∧
      (answer = true ↔ ∃ d ∈ dirs, (ofName d).Within (ofName name) ∨
        (ofName d).OutgrownBy (ofName name) ∨
        ofName d = ⟨false, []⟩ ∧ (ofName name).doubled = true)) ∧
    ∀ d ∈ dirs, (ofName d).parts ≠ [] →
      (∀ e ∈ dirs, (ofName e).Within (ofName d) → ofName e = ofName d) →
      ∃ name, (ofName d).OutgrownBy (ofName name) ∧
        ((ofDirs dirs).allowsFile name).1 = .ok true ∧
        ∀ e ∈ dirs, ¬ (ofName e).Within (ofName name) := by
  have hanswer : ∀ name, ((ofDirs dirs).allowsFile name).1 = .ok (letsFile dirs name) := by
    intro name
    obtain ⟨f, hf, -⟩ := (ofDirs_coherent dirs).allowsFile name
    rw [hf]
  refine ⟨fun name => ⟨_, hanswer name, letsFile_iff_paths⟩, fun d hd hne htop => ?_⟩
  obtain ⟨p, hp, hgrown, hout⟩ := exists_outgrown (dirs.map ofName) (ofName_proper d) hne
    (List.forall_mem_map.mpr htop)
  have hname : ofName p.toName = p := ofName_toName hp
  refine ⟨p.toName, by rwa [hname], ?_, ?_⟩
  · rw [hanswer, letsFile_iff_paths.mpr ⟨d, hd, .inr (.inl (by rwa [hname]))⟩]
  · rw [hname]
    exact fun e he => hout _ (List.mem_map_of_mem he)

/-- One directory in another. -/
theorem fresh_lets_outgrown_nested :
    ((ofDirs ["/src", "/src/lib"]).allowsFile "lib/../src/x.h").1 = .ok true ∧
    ∃ name, (ofName "/src").OutgrownBy (ofName name) ∧
      ((ofDirs ["/src", "/src/lib"]).allowsFile name).1 = .ok true ∧
      ∀ e ∈ ["/src", "/src/lib"], ¬ (ofName e).Within (ofName name) := by
  obtain ⟨hall, hsome⟩ := fresh_lets_outgrown ["/src", "/src/lib"]
  refine ⟨?_, hsome "/src" List.mem_cons_self (by decide +kernel) (by decide +kernel)⟩
  obtain ⟨answer, hanswer, hiff⟩ := hall "lib/../src/x.h"
  rw [hanswer, hiff.mpr ⟨"/src", List.mem_cons_self, .inl (by decide +kernel)⟩]

/-- A file beside the only directory is let through. -/
theorem fresh_lets_sibling :
    ((ofDirs ["/src"]).allowsFile "/src2/a.cpp").1 = .ok true ∧
      ∀ d ∈ ["/src"], ¬ (ofName d).Within (ofName "/src2/a.cpp") := by
  decide +kernel

end VisitFilter

end StyleCheck
