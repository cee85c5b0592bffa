/-
  What sorting one file does to the tree around it.

  A sort goes on to write only if it is no dry run and the file can be loaded and changes (`Rewrites`);
  else it reports and leaves the tree alone (`sortFile_idle`). A sort that writes has made a backup
  under a free name first (`sortFile_rewrites`), and then
  * it has no report if the backup is not below the workspace, which is where the file itself is not
    (`below?_withName_isSome`);
  * else the file at its temporary place is gone, whoever it belonged to, and every other file but the
    sorted one is as it was (`file?_written`).
  So a sort touches its target alone exactly when the file it would write is in the workspace and
  nothing is at its temporary place (`sortFile_touches`).
-/
import MemberOrder.Proofs.Workspace.Versions

namespace MemberOrder.Workspace

/-! ## Places beside a file -/

/-- What is beside a path is below the directories that its parent is below. -/
theorem below?_withName_isSome (w p : Path) (name : String) :
    (w.below? (p.withName name)).isSome = true ↔ w <+: p.dropLast ∨ w = p.withName name := by
  have hinside : (w.below? (p.withName name)).isSome = true ↔ w <+: p.withName name := by
    rw [Path.below?, ← List.isPrefixOf_iff_prefix]
    split <;> simp_all
  rw [hinside, Path.withName, List.prefix_concat_iff, or_comm]

theorem withName_notMem_parents (p : Path) (name other : String) :
    p.withName name ∉ (p.withName other).parents := by
  intro hmem
  obtain ⟨k, hk, hkeq⟩ := List.mem_map.mp hmem
  have hlength := congrArg List.length hkeq
  have hk := List.mem_range.mp hk
  simp only [Path.withName, List.length_take, List.length_append, List.length_singleton] at hlength hk
  omega

/-- A file that is put beside a path makes nothing else beside it a directory. -/
theorem isDirectory_insert_withName (t : FileTree) (p : Path) (name other : String) (f : File) :
    (t.insert (p.withName other) f).isDirectory (p.withName name) = t.isDirectory (p.withName name) := by
  have hno : p.withName name ∉ (p.withName other).parents.filter fun d => !t.isDirectory d :=
    fun hmem => withName_notMem_parents p name other (List.mem_filter.mp hmem).1
  have hdirectories : (t.insert (p.withName other) f).directories.contains (p.withName name) =
      t.directories.contains (p.withName name) := by
    rw [Bool.eq_iff_iff, List.contains_iff_mem, List.contains_iff_mem]
    exact List.mem_append.trans (or_iff_left hno)
  rw [FileTree.isDirectory, hdirectories, FileTree.isDirectory]

/-! ## Sorts that write and sorts that do not -/

namespace Engine

/-- A sort goes on to write the file at a path: it is no dry run, and the file can be loaded and changes. -/
structure Rewrites (e : Engine) (dryRun : Bool) (relative : String) (t : FileTree) (p : Path) (text : String)
    (o : Options) : Prop where
  wet : dryRun = false
  target : e.target t relative = .ok p
  load : e.load t p = .ok (text, o)
  modified : (runReport relative dryRun text o).modified = true

variable {e : Engine} {dryRun : Bool} {relative : String} {t : FileTree} {p q : Path} {text : String}
  {o : Options}

/-- The text that a sort writes. -/
def sortedText (relative : String) (text : String) (o : Options) : String :=
  ((runReport relative false text o).content.map (·.after)).getD text

theorem target_error {report : Report} (h : e.target t relative = .error report) :
    report.written = false := by
  unfold target at h
  split at h
  · cases h
    rfl
  · split at h
    · cases h
      rfl
    · split at h
      · cases h
        rfl
      · cases h

/-- A sort that does not go on to write reports, and leaves the tree alone. -/
theorem sortFile_idle (h : ∀ p text o, ¬ e.Rewrites dryRun relative t p text o) :
    (e.sortFile dryRun relative t).1 = t ∧
      ∃ report, (e.sortFile dryRun relative t).2 = .ok report ∧ report.written = false := by
  unfold sortFile
  split
  · rename_i report htarget
    exact ⟨rfl, report, rfl, target_error htarget⟩
  · rename_i p htarget
    split
    · exact ⟨rfl, _, rfl, rfl⟩
    · rename_i text o hload
      dsimp only
      split
      · exact ⟨rfl, _, rfl, rfl⟩
      · rename_i hgoes
        rw [Bool.not_eq_true, Bool.or_eq_false_iff, Bool.not_eq_false'] at hgoes
        exact absurd ⟨hgoes.1, htarget, hload, hgoes.2⟩ (h p text o)

/-- A sort that goes on to write makes a backup; it has no report if that is not below the workspace. -/
theorem sortFile_rewrites (h : e.Rewrites dryRun relative t p text o) {f : File} (hf : t.file? p = some f) :
    e.sortFile dryRun relative t =
      match e.workspace.below? (freshBackup t p) with
      | none => (t.insert (freshBackup t p) f,
          .error ⟨t.textOf (freshBackup t p), t.textOf e.workspace⟩)
      | some inside =>
        match write (t.insert (freshBackup t p) f) p (sortedText relative text o) with
        | .ok written =>
          (written, .ok { runReport relative dryRun text o with backup := some inside.text, written := true })
        | .error error => (t.insert (freshBackup t p) f,
            .ok { runReport relative dryRun text o with
              backup := some inside.text, status := .failed, success := false
              writeError := some error }) := by
  obtain ⟨rfl, htarget, hload, hmodified⟩ := h
  unfold sortFile
  simp only [htarget, hload, hmodified, backUp_eq hf]
  rfl

theorem Rewrites.file (h : e.Rewrites dryRun relative t p text o) : ∃ f, t.file? p = some f := load_ok h.load

theorem Rewrites.supported (h : e.Rewrites dryRun relative t p text o) : isSupported p = true :=
  target_ok h.target

/-- The path, the text and the options of a sort that writes are those of its target. -/
theorem Rewrites.unique (h : e.Rewrites dryRun relative t p text o) {p' : Path} {text' : String}
    {o' : Options} (h' : e.Rewrites dryRun relative t p' text' o') : p' = p ∧ text' = text ∧ o' = o := by
  have htarget := h'.target.symm.trans h.target
  obtain rfl : p' = p := by simpa using htarget
  have hload := h'.load.symm.trans h.load
  simp only [Except.ok.injEq, Prod.mk.injEq] at hload
  exact ⟨rfl, hload⟩

/-! ## The tree afterwards -/

section Trees

variable {f : File} {t' : FileTree}

theorem temporary_ne (hp : isSupported p = true) : p ≠ temporary p := fun heq => by
  rw [heq, isSupported_of_isTemporary (isTemporary_temporary p)] at hp
  cases hp

/-- After a file was written, its backup holds what it was, its temporary place is empty, and every other
file is as it was. -/
theorem file?_written (ht : t.Distinct) (hp : isSupported p = true) (hf : t.file? p = some f)
    (h : write (t.insert (freshBackup t p) f) p text = .ok t') :
    t'.file? (freshBackup t p) = some f ∧ t'.file? (temporary p) = none ∧
      ∀ q, q ≠ p → q ≠ freshBackup t p → q ≠ temporary p → t'.file? q = t.file? q := by
  have hdistinct : (t.insert (freshBackup t p) f).Distinct := ht.insert
  have hbackup : freshBackup t p ≠ p := (ne_freshBackup (FileTree.has_of_file? hf)).symm
  refine ⟨?_, ?_, fun q hqp hqb hqt => ?_⟩
  · rw [file?_write hdistinct h hbackup (isTemporary_of_isBackup (isBackup_freshBackup t p))]
    exact FileTree.file?_insert_self t _ f
  · rw [write_ok h, FileTree.file?_insert_of_ne (temporary_ne hp).symm, FileTree.file?_keep hdistinct]
    cases (t.insert (freshBackup t p) f).file? (temporary p) <;> simp
  · have hkept : (q != temporary p) = true := bne_iff_ne.mpr hqt
    rw [write_ok h, FileTree.file?_insert_of_ne hqp, FileTree.file?_keep hdistinct,
      FileTree.file?_insert_of_ne hqb]
    simp only [hkept]
    cases t.file? q <;> rfl

theorem write_of_free (text : String) (hfree : t.isDirectory (temporary p) = false) :
    ∃ t', write t p text = .ok t' := by
  rw [write, hfree, if_neg (by decide)]
  exact ⟨_, rfl⟩

theorem isDirectory_saved (t : FileTree) (p : Path) (f : File) :
    (t.insert (freshBackup t p) f).isDirectory (temporary p) = t.isDirectory (temporary p) := by
  obtain ⟨j, hj, -⟩ := freshBackup_free t p
  rw [hj]
  exact isDirectory_insert_withName t p _ _ f

/-- A sort that goes on to write ends without a report, with a backup as the only change, if the backup is
not below the workspace; else it ends with the file written, unless a directory is in the way. -/
theorem sortFile_writes (h : e.Rewrites dryRun relative t p text o) (hf : t.file? p = some f)
    (hfree : t.isDirectory (temporary p) = false) :
    (e.workspace.below? (freshBackup t p) = none ∧
      e.sortFile dryRun relative t = (t.insert (freshBackup t p) f,
        .error ⟨t.textOf (freshBackup t p), t.textOf e.workspace⟩)) ∨
    ∃ inside t', e.workspace.below? (freshBackup t p) = some inside ∧
      write (t.insert (freshBackup t p) f) p (sortedText relative text o) = .ok t' ∧
      e.sortFile dryRun relative t = (t', .ok { runReport relative dryRun text o with
        backup := some inside.text, written := true }) := by
  rw [sortFile_rewrites h hf]
  cases hbelow : e.workspace.below? (freshBackup t p) with
  | none => exact .inl ⟨rfl, rfl⟩
  | some inside =>
    rw [← isDirectory_saved t p f] at hfree
    obtain ⟨t', ht'⟩ := write_of_free (sortedText relative text o) hfree
    refine .inr ⟨inside, t', rfl, ht', ?_⟩
    rw [ht']

end Trees

/-! ## What a sort touches -/

/-- What is wanted of a sort: it reports; the tree is as it was unless the file was written; and then no
other path than that of the file and that of one new backup has another file than before. -/
def TouchesTargetOnly (e : Engine) (dryRun : Bool) (relative : String) (t : FileTree) : Prop :=
  ∃ report, (e.sortFile dryRun relative t).2 = .ok report ∧
    (report.written = false → (e.sortFile dryRun relative t).1 = t) ∧
    (report.written = true → ∃ p b, e.target t relative = .ok p ∧ isBackup b = true ∧ t.has b = false ∧
      (e.sortFile dryRun relative t).1.file? b = t.file? p ∧
      ∀ q, q ≠ p → q ≠ b → (e.sortFile dryRun relative t).1.file? q = t.file? q)

/-- A sort that writes a file of the workspace with nothing at its temporary place touches it alone. -/
theorem Rewrites.touchesTargetOnly (h : e.Rewrites dryRun relative t p text o) (ht : t.Distinct)
    (hbelow : (e.workspace.below? (freshBackup t p)).isSome = true) (hnone : t.has (temporary p) = false) :
    e.TouchesTargetOnly dryRun relative t := by
  obtain ⟨f, hf⟩ := h.file
  rw [FileTree.has, Bool.or_eq_false_iff] at hnone
  rcases sortFile_writes h hf hnone.2 with ⟨hstranded, -⟩ | ⟨inside, t', -, hwrite, hsort⟩
  · rw [hstranded] at hbelow
    cases hbelow
  · obtain ⟨hbackup, htemp, hothers⟩ := file?_written ht h.supported hf hwrite
    obtain ⟨-, -, hfree⟩ := freshBackup_free t p
    unfold TouchesTargetOnly
    rw [hsort]
    refine ⟨_, rfl, fun hno => Bool.noConfusion hno, fun _ => ⟨p, freshBackup t p, h.target,
      isBackup_freshBackup t p, hfree, hbackup.trans hf.symm, fun q hqp hqb => ?_⟩⟩
    by_cases hqt : q = temporary p
    · rw [hqt, htemp]
      exact (Option.not_isSome_iff_eq_none.mp (Bool.eq_false_iff.mp hnone.1)).symm
    · exact hothers q hqp hqb hqt

/-- A sort that writes and touches its target alone writes a file of the workspace, with no file at its
temporary place. -/
theorem Rewrites.of_touchesTargetOnly (h : e.Rewrites dryRun relative t p text o) (ht : t.Distinct)
    (hfree : t.isDirectory (temporary p) = false) (hwanted : e.TouchesTargetOnly dryRun relative t) :
    (e.workspace.below? (freshBackup t p)).isSome = true ∧ t.file? (temporary p) = none := by
  obtain ⟨f, hf⟩ := h.file
  obtain ⟨report, hreport, -, hothers⟩ := hwanted
  rcases sortFile_writes h hf hfree with ⟨-, hsort⟩ | ⟨inside, t', hbelow, hwrite, hsort⟩
  · rw [hsort] at hreport
    cases hreport
  · refine ⟨by rw [hbelow]; rfl, ?_⟩
    rw [hsort] at hreport hothers
    cases hreport
    obtain ⟨p', b, htarget, -, hb, -, hsame⟩ := hothers rfl
    obtain rfl : p' = p := by simpa using htarget.symm.trans h.target
    obtain ⟨-, htemp, -⟩ := file?_written ht h.supported hf hwrite
    by_contra hsome
    obtain ⟨g, hg⟩ := Option.ne_none_iff_exists'.mp hsome
    have hne : temporary p' ≠ b := by
      rintro rfl
      rw [FileTree.has_of_file? hg] at hb
      cases hb
    have hkept := hsame (temporary p') (temporary_ne h.supported).symm hne
    rw [htemp, hg] at hkept
    cases hkept

/-- In every case, the only files that a sort that writes may touch are its target, its backup and what is
at its temporary place; a sort that does not write touches none. -/
theorem sortFile_others (ht : t.Distinct)
    (hcalls : ∀ p text o, e.Rewrites dryRun relative t p text o → t.isDirectory (temporary p) = false)
    (hq : ∀ p text o, e.Rewrites dryRun relative t p text o →
      q ≠ p ∧ q ≠ freshBackup t p ∧ q ≠ temporary p) :
    (e.sortFile dryRun relative t).1.file? q = t.file? q := by
  by_cases hgoes : ∃ p text o, e.Rewrites dryRun relative t p text o
  · obtain ⟨p, text, o, h⟩ := hgoes
    obtain ⟨f, hf⟩ := h.file
    obtain ⟨hqp, hqb, hqt⟩ := hq p text o h
    rcases sortFile_writes h hf (hcalls p text o h) with ⟨-, hsort⟩ | ⟨inside, t', -, hwrite, hsort⟩
    · rw [hsort]
      exact FileTree.file?_insert_of_ne hqb
    · rw [hsort]
      exact (file?_written ht h.supported hf hwrite).2.2 q hqp hqb hqt
  · rw [(sortFile_idle fun p text o h => hgoes ⟨p, text, o, h⟩).1]

/-- A sort has no report exactly if it goes on to write a file whose backup is not below the workspace. -/
theorem sortFile_error_iff (hcalls : ∀ p text o, e.Rewrites dryRun relative t p text o →
      t.isDirectory (temporary p) = false) (failure : OutsideWorkspace) :
    (e.sortFile dryRun relative t).2 = .error failure ↔
      ∃ p text o, e.Rewrites dryRun relative t p text o ∧ e.workspace.below? (freshBackup t p) = none ∧
        failure = ⟨t.textOf (freshBackup t p), t.textOf e.workspace⟩ := by
  by_cases hgoes : ∃ p text o, e.Rewrites dryRun relative t p text o
  · obtain ⟨p, text, o, h⟩ := hgoes
    obtain ⟨f, hf⟩ := h.file
    rcases sortFile_writes h hf (hcalls p text o h) with ⟨hnone, hsort⟩ | ⟨inside, t', hbelow, -, hsort⟩
    · rw [hsort]
      constructor
      · intro heq
        cases heq
        exact ⟨p, text, o, h, hnone, rfl⟩
      · rintro ⟨p', text', o', h', -, rfl⟩
        rw [(h.unique h').1]
    · rw [hsort]
      refine ⟨fun heq => (nomatch heq), ?_⟩
      rintro ⟨p', text', o', h', hnone, -⟩
      rw [(h.unique h').1, hbelow] at hnone
      cases hnone
  · obtain ⟨-, report, hreport, -⟩ := sortFile_idle fun p text o h => hgoes ⟨p, text, o, h⟩
    rw [hreport]
    refine ⟨fun heq => (nomatch heq), ?_⟩
    rintro ⟨p, text, o, h, -⟩
    exact absurd ⟨p, text, o, h⟩ hgoes

/-- Whatever tree of files, engine, path and mode, if no directory is in the way of the temporary file: a
sort reports and touches its target alone exactly if the file it goes on to write, if any, is below the
workspace and no file is at its temporary place; it has no report exactly if the backup it made is not
below the workspace; and no file but the target, the backup and the one at the temporary place is touched
in any case. -/
theorem sortFile_touches (e : Engine) (dryRun : Bool) (relative : String) (t : FileTree) (ht : t.Distinct)
    (hcalls : ∀ p text o, e.Rewrites dryRun relative t p text o → t.isDirectory (temporary p) = false) :
    (e.TouchesTargetOnly dryRun relative t ↔ ∀ p text o, e.Rewrites dryRun relative t p text o →
      (e.workspace <+: p.dropLast ∨ e.workspace = freshBackup t p) ∧ t.file? (temporary p) = none) ∧
    (∀ failure, (e.sortFile dryRun relative t).2 = .error failure ↔
      ∃ p text o, e.Rewrites dryRun relative t p text o ∧ e.workspace.below? (freshBackup t p) = none ∧
        failure = ⟨t.textOf (freshBackup t p), t.textOf e.workspace⟩) ∧
    ∀ q, (∀ p text o, e.Rewrites dryRun relative t p text o →
        q ≠ p ∧ q ≠ freshBackup t p ∧ q ≠ temporary p) →
      (e.sortFile dryRun relative t).1.file? q = t.file? q := by
  have hbelow (p : Path) : (e.workspace.below? (freshBackup t p)).isSome = true ↔
      e.workspace <+: p.dropLast ∨ e.workspace = freshBackup t p := by
    obtain ⟨j, hj, -⟩ := freshBackup_free t p
    rw [hj]
    exact below?_withName_isSome e.workspace p _
  refine ⟨⟨fun hwanted p text o h => ?_, fun hall => ?_⟩, sortFile_error_iff hcalls,
    fun q hq => sortFile_others ht hcalls hq⟩
  · rw [← hbelow]
    exact h.of_touchesTargetOnly ht (hcalls p text o h) hwanted
  · by_cases hgoes : ∃ p text o, e.Rewrites dryRun relative t p text o
    · obtain ⟨p, text, o, h⟩ := hgoes
      obtain ⟨hinside, hnone⟩ := hall p text o h
      refine h.touchesTargetOnly ht ((hbelow p).mpr hinside) ?_
      rw [FileTree.has, hnone, hcalls p text o h]
      rfl
    · obtain ⟨hsame, report, hreport, hwritten⟩ := sortFile_idle fun p text o h => hgoes ⟨p, text, o, h⟩
      refine ⟨report, hreport, fun _ => hsame, fun h => ?_⟩
      rw [hwritten] at h
      cases h

/-- A file in a directory that is out of order, and one whose name looks like its backup. -/
def shelved : FileTree where
  root := "/w"
  files := [(["d", "a.json"], { bytes := Utf8.encode "\x7b\"b\":1,\"a\":2\x7d".toList }),
    (["d", "a.json.propsort.backup"], { bytes := Utf8.encode "old".toList }),
    (["e", "b.json"], { bytes := Utf8.encode "[]".toList })]
  directories := [["d"], ["e"]]

/-- From its own directory it is sorted, with a second backup, and nothing else is touched. -/
theorem sortFile_touches_shelved :
    TouchesTargetOnly { workspace := ["d"] } false "a.json" shelved ∧
    ((sortFile { workspace := ["d"] } false "a.json" shelved).2.toOption.map fun r => (r.written, r.backup)) =
      some (true, some "a.json-1.propsort.backup") := by
  obtain ⟨hreport, htarget⟩ :
      ((sortFile { workspace := ["d"] } false "a.json" shelved).2.toOption.map fun r => (r.written, r.backup)) =
        some (true, some "a.json-1.propsort.backup") ∧
      target { workspace := ["d"] } shelved "a.json" = .ok ["d", "a.json"] := by
    decide +kernel
  have hplace {p : Path} {text : String} {o : Options}
      (h : Rewrites { workspace := ["d"] } false "a.json" shelved p text o) : p = ["d", "a.json"] := by
    simpa using h.target.symm.trans htarget
  refine ⟨?_, hreport⟩
  refine (sortFile_touches { workspace := ["d"] } false "a.json" shelved (by decide)
    fun p text o h => ?_).1.mpr fun p text o h => ?_
  · rw [hplace h]
    decide
  · rw [hplace h]
    exact ⟨.inl (by decide), by decide⟩

/-- A file beside the workspace that is out of order. -/
def beside : FileTree where
  root := "/r"
  files := [(["a.json"], { bytes := Utf8.encode "\x7b\"b\":1,\"a\":2\x7d".toList }),
    (["w", "x.json"], { bytes := Utf8.encode "\x7b\x7d".toList })]
  directories := [["w"]]

/-- A sort of a file beside the workspace has no report, and one of a file with something at its temporary
place takes that away, with every file-system call succeeding. -/
theorem sortFile_touches_others :
    ¬ TouchesTargetOnly { workspace := ["w"] } false "../a.json" beside ∧
    ¬ TouchesTargetOnly { workspace := [] } false "a.json" crowded ∧
    beside.isDirectory (temporary ["a.json"]) = false ∧
    crowded.isDirectory (temporary ["a.json"]) = false := by
  refine ⟨?_, ?_, by decide, by decide⟩
  · rintro ⟨report, hreport, -⟩
    have hfailure : (sortFile { workspace := ["w"] } false "../a.json" beside).2 =
        .error ⟨"/r/a.json.propsort.backup", "/r/w"⟩ := by decide +kernel
    rw [hfailure] at hreport
    cases hreport
  · rintro ⟨report, hreport, -, hothers⟩
    obtain ⟨hwritten, hplace, hgone⟩ :
        ((sortFile { workspace := [] } false "a.json" crowded).2.toOption.map (·.written)) = some true ∧
        target { workspace := [] } crowded "a.json" = .ok ["a.json"] ∧
        (sortFile { workspace := [] } false "a.json" crowded).1.file? (temporary ["a.json"]) ≠
          crowded.file? (temporary ["a.json"]) := by
      decide +kernel
    rw [hreport] at hwritten
    obtain ⟨p, b, htarget, -, hb, -, hsame⟩ := hothers (by simpa [Except.toOption] using hwritten)
    obtain rfl : p = ["a.json"] := by simpa using htarget.symm.trans hplace
    have hne : temporary ["a.json"] ≠ b := by
      rintro rfl
      exact absurd hb (by decide)
    exact hgone (hsame (temporary ["a.json"]) (by decide) hne)

end Engine

end MemberOrder.Workspace
