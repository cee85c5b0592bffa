/-
  The engine never loses a version of a file.

  A run is a list of operations; a scan sorts, one after the other, the files that it has found on the
  tree it starts with. So a run is made of acts (`Engine.run_eq_performAll`). An act keeps the versions
  of files (`KeepsVersions`): a dry run changes nothing, a file of a language does not change unless the
  same act makes a backup under a free name that holds what it was, and backups stay as they are until a
  clean-up removes them. For a sort this follows from the three trees it can leave (`sortFile_cases`).
  Hence every version that a run has seen is in the tree at its end, at its path or in a backup, unless
  backups were cleaned up after it (`Engine.run_keeps_versions`).
-/
import Mathlib.Data.List.Nodup
import MemberOrder.Proofs.Fallible
import MemberOrder.Proofs.Text.Offsets
import MemberOrder.Workspace.Engine

/-!
## What is at a path after a tree has changed, and the names of backups

A tree is `Distinct` when it has one file per path. Inserting a file shows at its own path and at no
other; of the files that are kept, each is where it was. A file has more names for backups than a tree
has files and directories, so one of the names that are tried is free (`freshBackup_free`). What
ends in the suffix of a backup or of a temporary file has an extension that no language has
(`not_isSupported_of_endsWith`).
-/

namespace MemberOrder.Workspace

namespace FileTree

/-! ## Files at paths -/

/-- No path has two files. -/
def Distinct (t : FileTree) : Prop := (t.files.map (·.1)).Nodup

instance (t : FileTree) : Decidable t.Distinct := inferInstanceAs (Decidable (List.Nodup _))

variable {t : FileTree} {p q : Path} {f : File}

theorem has_of_file? (h : t.file? p = some f) : t.has p = true := by
  rw [has, h]
  rfl

/-- Files that are changed at their paths. -/
theorem lookup_map {change : Path × File → Path × File} (hpath : ∀ x, (change x).1 = x.1)
    (files : List (Path × File)) (q : Path) :
    (files.map change).lookup q = (files.lookup q).map fun g => (change (q, g)).2 := by
  induction files with
  | nil => rfl
  | cons x rest ih =>
    obtain ⟨r, g⟩ := x
    have hhead : change (r, g) = (r, (change (r, g)).2) := Prod.ext (hpath (r, g)) rfl
    rw [List.map_cons, hhead, List.lookup_cons, List.lookup_cons]
    by_cases hqr : q = r
    · rw [hqr, beq_self_eq_true]
      rfl
    · rw [beq_eq_false_iff_ne.mpr hqr]
      exact ih

/-- A file put in the place of the one at its path. -/
def replaced (p : Path) (f : File) : Path × File → Path × File :=
  fun x => if x.1 == p then (x.1, f) else x

theorem replaced_path (p : Path) (f : File) (x : Path × File) : (replaced p f x).1 = x.1 := by
  rw [replaced]
  split <;> rfl

theorem insert_files (t : FileTree) (p : Path) (f : File) : (t.insert p f).files =
    if (t.file? p).isSome then t.files.map (replaced p f) else t.files ++ [(p, f)] := rfl

theorem file?_insert_self (t : FileTree) (p : Path) (f : File) : (t.insert p f).file? p = some f := by
  rw [file?, insert_files]
  split
  · rename_i hsome
    obtain ⟨g, hg⟩ := Option.isSome_iff_exists.mp hsome
    rw [file?] at hg
    rw [lookup_map (replaced_path p f), hg]
    simp [replaced]
  · rename_i hnone
    rw [file?] at hnone
    rw [List.lookup_append, Option.not_isSome_iff_eq_none.mp hnone, Option.none_or, List.lookup_cons_self]

theorem file?_insert_of_ne (h : q ≠ p) : (t.insert p f).file? q = t.file? q := by
  have hne : (q == p) = false := beq_eq_false_iff_ne.mpr h
  rw [file?, insert_files]
  split
  · rw [lookup_map (replaced_path p f)]
    simp [replaced, hne, file?]
  · rw [List.lookup_append, List.lookup_cons, hne]
    exact Option.or_none

theorem lookup_eq_none {files : List (Path × File)} (h : p ∉ files.map (·.1)) : files.lookup p = none := by
  rw [List.lookup_eq_none_iff]
  intro x hx
  rw [bne_iff_ne]
  rintro rfl
  exact h (List.mem_map_of_mem hx)

theorem Distinct.map (h : t.Distinct) {change : Path × File → Path × File}
    (hpath : ∀ x, (change x).1 = x.1) : Distinct { t with files := t.files.map change } := by
  unfold Distinct
  rw [List.map_map]
  exact (congrArg List.Nodup (List.map_congr_left fun x _ => hpath x)).mpr h

theorem Distinct.insert (h : t.Distinct) : (t.insert p f).Distinct := by
  rw [Distinct, insert_files]
  split
  · exact h.map (replaced_path p f)
  · rename_i hnone
    rw [List.map_append, List.nodup_append]
    refine ⟨h, List.nodup_singleton p, fun a ha b hb heq => hnone ?_⟩
    rw [List.map_singleton, List.mem_singleton] at hb
    obtain ⟨x, hx, hxa⟩ := List.mem_map.mp ha
    refine List.lookup_isSome_iff.mpr ⟨x, hx, beq_iff_eq.mpr ?_⟩
    exact hb.symm.trans (heq.symm.trans hxa.symm)

theorem Distinct.keep (h : t.Distinct) (test : Path → File → Bool) : (t.keep test).Distinct :=
  List.Nodup.sublist (List.filter_sublist.map _) h

/-- What is kept is where it was. -/
theorem file?_keep (h : t.Distinct) (test : Path → File → Bool) :
    (t.keep test).file? p = (t.file? p).filter (test p) := by
  unfold Distinct at h
  show (t.files.filter fun x => test x.1 x.2).lookup p = (t.files.lookup p).filter (test p)
  generalize t.files = files at h ⊢
  induction files with
  | nil => rfl
  | cons x rest ih =>
    obtain ⟨q, g⟩ := x
    obtain ⟨hq, hrest⟩ := List.nodup_cons.mp h
    rw [List.filter_cons, List.lookup_cons]
    by_cases hpq : p = q
    · subst hpq
      have hnone : (rest.filter fun x => test x.1 x.2).lookup p = none :=
        lookup_eq_none fun hmem => hq ((List.filter_sublist.map _).subset hmem)
      rw [beq_self_eq_true, Option.filter_some]
      split
      · exact List.lookup_cons_self
      · exact hnone
    · have hne : (p == q) = false := beq_eq_false_iff_ne.mpr hpq
      rw [hne]
      split
      · rw [List.lookup_cons, hne]
        exact ih hrest
      · exact ih hrest

end FileTree

/-! ## Names of backups -/

theorem fileName_withName (p : Path) (name : String) : (p.withName name).fileName = name := by
  simp [Path.withName, Path.fileName]

theorem backupName_endsWith (name : String) (k : Nat) :
    Text.endsWith (backupName name k) backupSuffix = true := by
  rw [Text.endsWith, backupName, String.toList_append, List.isSuffixOf_iff_suffix]
  exact List.suffix_append _ _

theorem backupName_injective (name : String) : Function.Injective (backupName name) := by
  intro j k h
  have h := congrArg String.toList h
  rw [backupName, backupName, String.toList_append, String.toList_append] at h
  have h := List.append_cancel_right h
  match j, k with
  | 0, 0 => rfl
  | 0, k + 1 =>
    have hlength := congrArg List.length h
    simp [String.toList_append] at hlength
  | j + 1, 0 =>
    have hlength := congrArg List.length h
    simp [String.toList_append] at hlength
  | j + 1, k + 1 =>
    have hdigits : Nat.toDigits 10 (j + 1) = Nat.toDigits 10 (k + 1) := by
      simpa [String.toList_append] using h
    rw [← Nat.ofDigitChars_ten_toDigits (n := j + 1), hdigits, Nat.ofDigitChars_ten_toDigits]

/-- A backup is tried at each of some names until one is free. -/
theorem freshBackupFrom_spec (t : FileTree) (p : Path) (fuel k : Nat) :
    ∃ j, freshBackupFrom t p fuel k = p.withName (backupName p.fileName j) ∧
      (t.has (p.withName (backupName p.fileName j)) = true →
        ∀ i, k ≤ i → i ≤ k + fuel → t.has (p.withName (backupName p.fileName i)) = true) := by
  induction fuel generalizing k with
  | zero =>
    refine ⟨k, rfl, fun hhas i hki hik => ?_⟩
    rwa [Nat.le_antisymm hik hki]
  | succ fuel ih =>
    rw [freshBackupFrom]
    cases hhas : t.has (p.withName (backupName p.fileName k)) with
    | false => exact ⟨k, by simp, fun h => by simp [hhas] at h⟩
    | true =>
      obtain ⟨j, hj, hall⟩ := ih (k + 1)
      refine ⟨j, by simpa [hhas] using hj, fun h i hki hik => ?_⟩
      rcases Nat.eq_or_lt_of_le hki with rfl | hlt
      · exact hhas
      · exact hall h i hlt (by omega)

/-- A name is found that is free: there are more names than files and directories. -/
theorem freshBackup_free (t : FileTree) (p : Path) :
    ∃ j, freshBackup t p = p.withName (backupName p.fileName j) ∧ t.has (freshBackup t p) = false := by
  obtain ⟨j, hj, hall⟩ := freshBackupFrom_spec t p (t.files.length + t.directories.length + 1) 0
  refine ⟨j, hj, Bool.eq_false_iff.mpr fun hhas => ?_⟩
  rw [freshBackup, hj] at hhas
  have htaken := hall hhas
  let places := (List.range (t.files.length + t.directories.length + 1)).map
    fun i => p.withName (backupName p.fileName i)
  have hnodup : places.Nodup := by
    refine List.Nodup.map (fun i k heq => ?_) List.nodup_range
    have hname := congrArg Path.fileName heq
    rw [fileName_withName, fileName_withName] at hname
    exact backupName_injective p.fileName hname
  have hsubset : places ⊆ t.files.map (·.1) ++ t.directories := by
    intro q hq
    obtain ⟨i, hi, rfl⟩ := List.mem_map.mp hq
    have hplace := htaken i (Nat.zero_le i) (by have := List.mem_range.mp hi; omega)
    rw [FileTree.has, FileTree.isDirectory, Bool.or_eq_true, Bool.or_eq_true] at hplace
    rw [List.mem_append]
    rcases hplace with hfile | hempty | hdirectory
    · obtain ⟨x, hx, heq⟩ := List.lookup_isSome_iff.mp hfile
      exact .inl (eq_of_beq heq ▸ List.mem_map_of_mem hx)
    · simp [Path.withName] at hempty
    · exact .inr (List.contains_iff_mem.mp hdirectory)
  have hlength := hnodup.length_le_of_subset hsubset
  simp only [places, List.length_map, List.length_range, List.length_append] at hlength
  omega

/-! ## Extensions of no language -/

/-- What follows the last separator goes to the last piece. -/
theorem splitAt_append {isSeparator : Char → Bool} {tail : List Char}
    (htail : ∀ c ∈ tail, isSeparator c = false) (front : List Char) :
    ∃ pieces piece, Text.splitAt isSeparator (front ++ tail) = pieces ++ [piece ++ tail] := by
  induction front with
  | nil =>
    refine ⟨[], [], ?_⟩
    rw [List.nil_append]
    induction tail with
    | nil => rfl
    | cons c rest ih =>
      rw [Text.splitAt, ih fun d hd => htail d (List.mem_cons_of_mem c hd), htail c List.mem_cons_self]
      rfl
  | cons c rest ih =>
    obtain ⟨pieces, piece, hpieces⟩ := ih
    rw [List.cons_append, Text.splitAt, hpieces]
    cases isSeparator c with
    | true => exact ⟨[] :: pieces, piece, rfl⟩
    | false =>
      cases pieces with
      | nil => exact ⟨[], c :: piece, rfl⟩
      | cons first others => exact ⟨(c :: first) :: others, piece, rfl⟩

theorem extensionOf_append {front tail : List Char} (hfront : front ≠ []) (htail : tail ≠ [])
    (hpoint : '.' ∉ tail) : FileType.extensionOf (front ++ '.' :: tail) = '.' :: tail := by
  have hall : ∀ c ∈ tail.reverse, (c != '.') = true := by
    intro c hc
    rw [bne_iff_ne]
    rintro rfl
    exact hpoint (List.mem_reverse.mp hc)
  have hreverse : (front ++ '.' :: tail).reverse = tail.reverse ++ '.' :: front.reverse := by simp
  have hrun : (front ++ '.' :: tail).reverse.takeWhile (· != '.') = tail.reverse := by
    rw [hreverse, List.takeWhile_append_of_pos hall, List.takeWhile_cons_of_neg (by decide),
      List.append_nil]
  unfold FileType.extensionOf
  simp only [hrun]
  rw [hreverse, List.drop_left]
  simp [hfront, htail]

/-- The suffix of a name whose end is known. -/
theorem suffixOf_append {name : String} {front inner tail : List Char}
    (hname : name.toList = front ++ (inner ++ '.' :: tail)) (hinner : inner ≠ []) (htail : tail ≠ [])
    (hpoint : '.' ∉ tail) (hslash : '/' ∉ inner ++ '.' :: tail) :
    FileType.suffixOf name = String.ofList ('.' :: tail) := by
  have hplain : ∀ c ∈ inner ++ '.' :: tail, (c == '/') = false := by
    intro c hc
    rw [beq_eq_false_iff_ne]
    rintro rfl
    exact hslash hc
  obtain ⟨pieces, piece, hpieces⟩ := splitAt_append hplain front
  -- the last piece is no empty one and no point, so it is the last name
  have hkept : [piece ++ (inner ++ '.' :: tail)].filter (fun p => !p.isEmpty && p != ['.']) =
      [piece ++ (inner ++ '.' :: tail)] := by
    have hne : piece ++ (inner ++ '.' :: tail) ≠ ['.'] := by
      intro heq
      have hlength := congrArg List.length heq
      have hinner := List.length_pos_of_ne_nil hinner
      simp only [List.length_append, List.length_cons, List.length_nil] at hlength
      omega
    simp [hne]
  have hcomponents : (FileType.components name).getLast? = some (piece ++ (inner ++ '.' :: tail)) := by
    rw [FileType.components, hname, hpieces, List.filter_append, hkept]
    simp
  have hfront : piece ++ inner ≠ [] := fun heq => hinner (List.append_eq_nil_iff.mp heq).2
  rw [FileType.suffixOf, hcomponents]
  dsimp only
  rw [← List.append_assoc, extensionOf_append hfront htail hpoint]

/-- Whether the engine sorts files of this name. -/
def isSupported (p : Path) : Bool := (FileType.ofPath? p.fileName).isSome

/-- Whether a file is a backup by its name. -/
def isBackup (p : Path) : Bool := Text.endsWith p.fileName backupSuffix

/-- Whether a file is a temporary one by its name. -/
def isTemporary (p : Path) : Bool := Text.endsWith p.fileName tempSuffix

/-- A name that ends in two suffixes of which no language has the second. -/
theorem not_isSupported_of_endsWith {p : Path} {suffix : String} {inner tail : List Char}
    (hsuffix : suffix.toList = inner ++ '.' :: tail) (hinner : inner ≠ []) (htail : tail ≠ [])
    (hpoint : '.' ∉ tail) (hslash : '/' ∉ inner ++ '.' :: tail)
    (hnone : FileType.extensions.lookup (Text.lower (String.ofList ('.' :: tail))) = none)
    (h : Text.endsWith p.fileName suffix = true) : isSupported p = false := by
  obtain ⟨front, hfront⟩ := List.isSuffixOf_iff_suffix.mp h
  have hname := hfront.symm.trans (congrArg (front ++ ·) hsuffix)
  rw [isSupported, FileType.ofPath?, suffixOf_append hname hinner htail hpoint hslash, hnone]
  rfl

theorem isSupported_of_isBackup {p : Path} (h : isBackup p = true) : isSupported p = false := by
  have hsuffix : backupSuffix.toList = ".propsort".toList ++ '.' :: "backup".toList := by decide
  exact not_isSupported_of_endsWith hsuffix (by decide) (by decide) (by decide) (by decide) (by decide) h

theorem isSupported_of_isTemporary {p : Path} (h : isTemporary p = true) : isSupported p = false := by
  have hsuffix : tempSuffix.toList = ".propsort".toList ++ '.' :: "tmp".toList := by decide
  exact not_isSupported_of_endsWith hsuffix (by decide) (by decide) (by decide) (by decide) (by decide) h

theorem isTemporary_of_isBackup {p : Path} (h : isBackup p = true) : isTemporary p = false := by
  refine Bool.eq_false_iff.mpr fun htemp => ?_
  have hsuffix := List.suffix_of_suffix_length_le (List.isSuffixOf_iff_suffix.mp htemp)
    (List.isSuffixOf_iff_suffix.mp h) (by decide)
  exact absurd (List.isSuffixOf_iff_suffix.mpr hsuffix) (by decide)

end MemberOrder.Workspace

/-! ## The engine never loses a version of a file -/

namespace MemberOrder.Workspace

/-! ## Runs -/

/-- Time passes. -/
def FileTree.aged (t : FileTree) (seconds : Nat) : FileTree :=
  { t with files := t.files.map fun x => (x.1, { x.2 with age := x.2.age + seconds }) }

/-- What the file at a path holds. -/
def FileTree.bytes? (t : FileTree) (p : Path) : Option (List UInt8) := (t.file? p).map (·.bytes)

/-- The acts that runs are made of. -/
inductive Act where
  | sort (dryRun : Bool) (relative : String)
  | cleanUp (maxAge : Int)
  | wait (seconds : Nat)
  deriving Repr, DecidableEq

/-- What is asked of an engine. -/
inductive Operation where
  | single (act : Act)
  | scan (dryRun : Bool) (extensions : List String) (maxDepth : Int)
  deriving Repr, DecidableEq

namespace Act

/-- Whether an act is a dry run. -/
def isDry : Act → Bool
  | .sort dryRun _ => dryRun
  | .cleanUp _ | .wait _ => false

/-- Whether an act may remove backups. -/
def cleans : Act → Bool
  | .cleanUp _ => true
  | .sort _ _ | .wait _ => false

end Act

/-- Whether an operation is a dry run. -/
def Operation.isDry : Operation → Bool
  | .single act => act.isDry
  | .scan dryRun _ _ => dryRun

namespace Engine

/-- The tree after an act. -/
def perform (e : Engine) (act : Act) (t : FileTree) : FileTree :=
  match act with
  | .sort dryRun relative => (e.sortFile dryRun relative t).1
  | .cleanUp maxAge => (e.cleanUp maxAge t).1
  | .wait seconds => t.aged seconds

/-- The tree after acts, one after the other. -/
def performAll (e : Engine) (acts : List Act) (t : FileTree) : FileTree :=
  acts.foldl (fun t act => e.perform act t) t

/-- The tree after an operation. -/
def apply (e : Engine) (op : Operation) (t : FileTree) : FileTree :=
  match op with
  | .single act => e.perform act t
  | .scan dryRun extensions maxDepth => (e.scan dryRun extensions maxDepth t).1

/-- The tree after operations, one after the other. -/
def run (e : Engine) (ops : List Operation) (t : FileTree) : FileTree :=
  ops.foldl (fun t op => e.apply op t) t

/-- The acts of an operation on a tree. -/
def actsOf (e : Engine) (t : FileTree) : Operation → List Act
  | .single act => [act]
  | .scan dryRun extensions maxDepth =>
    (discover t e.workspace extensions maxDepth).map (.sort dryRun)

/-- The acts of a run. -/
def acts (e : Engine) : List Operation → FileTree → List Act
  | [], _ => []
  | op :: rest, t => e.actsOf t op ++ e.acts rest (e.apply op t)

theorem sortFiles_eq (e : Engine) (dryRun : Bool) (names : List String) (t : FileTree) :
    (e.sortFiles dryRun names t).1 = e.performAll (names.map (.sort dryRun)) t := by
  induction names generalizing t with
  | nil => rfl
  | cons relative rest ih => exact ih (e.sortFile dryRun relative t).1

theorem apply_eq_performAll (e : Engine) (op : Operation) (t : FileTree) :
    e.apply op t = e.performAll (e.actsOf t op) t := by
  cases op with
  | single act => rfl
  | scan dryRun extensions maxDepth => exact e.sortFiles_eq dryRun _ t

theorem performAll_append (e : Engine) (before after : List Act) (t : FileTree) :
    e.performAll (before ++ after) t = e.performAll after (e.performAll before t) :=
  List.foldl_append

theorem run_eq_performAll (e : Engine) (ops : List Operation) (t : FileTree) :
    e.run ops t = e.performAll (e.acts ops t) t := by
  induction ops generalizing t with
  | nil => rfl
  | cons op rest ih => rw [acts, performAll_append, ← apply_eq_performAll, ← ih, run, List.foldl_cons, run]

end Engine

/-- What an act keeps of the files of a tree. -/
structure KeepsVersions (act : Act) (t t' : FileTree) : Prop where
  dry : act.isDry = true → t' = t
  saves {p : Path} {f : File} (hf : t.file? p = some f) (hp : isSupported p = true)
    (hchanged : t'.bytes? p ≠ some f.bytes) :
    ∃ b, isBackup b = true ∧ t.has b = false ∧ t'.bytes? b = some f.bytes
  backups {p : Path} {f : File} (hf : t.file? p = some f) (hp : isBackup p = true) :
    t'.bytes? p = some f.bytes ∨ (act.cleans = true ∧ t'.file? p = none)

/-! ## Sorting a file -/

section Sorting

variable {e : Engine} {t : FileTree} {p : Path}

theorem target_ok {relative : String} (h : e.target t relative = .ok p) : isSupported p = true := by
  unfold Engine.target at h
  split at h
  · cases h
  · split at h
    · cases h
    · split at h
      · cases h
      · rename_i hsome
        cases h
        rw [isSupported]
        simpa [← Option.isSome_iff_ne_none] using hsome

theorem load_ok {loaded : String × Options} (h : e.load t p = .ok loaded) : ∃ f, t.file? p = some f := by
  unfold Engine.load at h
  cases hf : t.file? p with
  | none =>
    rw [hf] at h
    cases h
  | some f => exact ⟨f, rfl⟩

theorem backUp_eq {f : File} (h : t.file? p = some f) :
    Engine.backUp t p = (t.insert (freshBackup t p) f, freshBackup t p) := by
  simp only [Engine.backUp, h]

theorem write_ok {t' : FileTree} {text : String} (h : Engine.write t p text = .ok t') :
    t' = (t.keep fun q _ => q != Engine.temporary p).insert p { bytes := Utf8.encode text.toList } := by
  unfold Engine.write at h
  split at h
  · cases h
  · cases h
    rfl

/-- Sorting a file leaves the tree alone, or makes a backup, or makes a backup and writes the file. -/
theorem sortFile_cases (e : Engine) (dryRun : Bool) (relative : String) (t : FileTree) :
    (e.sortFile dryRun relative t).1 = t ∨
    dryRun = false ∧ ∃ p f, isSupported p = true ∧ t.file? p = some f ∧
      ((e.sortFile dryRun relative t).1 = t.insert (freshBackup t p) f ∨
        ∃ text, Engine.write (t.insert (freshBackup t p) f) p text =
          .ok (e.sortFile dryRun relative t).1) := by
  unfold Engine.sortFile
  split
  · exact .inl rfl
  · rename_i p htarget
    split
    · exact .inl rfl
    · rename_i text options hload
      obtain ⟨f, hf⟩ := load_ok hload
      dsimp only
      split
      · exact .inl rfl
      · rename_i hwet
        have hwet : dryRun = false := by
          rw [Bool.not_eq_true, Bool.or_eq_false_iff] at hwet
          exact hwet.1
        refine .inr ⟨hwet, p, f, target_ok htarget, hf, ?_⟩
        rw [backUp_eq hf]
        dsimp only
        split
        · exact .inl rfl
        · split
          · rename_i written hwritten
            exact .inr ⟨_, hwritten⟩
          · exact .inl rfl

theorem isTemporary_temporary (p : Path) : isTemporary (Engine.temporary p) = true := by
  rw [isTemporary, Engine.temporary, fileName_withName, Text.endsWith, String.toList_append,
    List.isSuffixOf_iff_suffix]
  exact List.suffix_append _ _

theorem isBackup_freshBackup (t : FileTree) (p : Path) : isBackup (freshBackup t p) = true := by
  obtain ⟨j, hj, -⟩ := freshBackup_free t p
  rw [hj, isBackup, fileName_withName]
  exact backupName_endsWith _ _

/-- A file that is written is the only one that changes; the temporary one is gone. -/
theorem file?_write {t' : FileTree} {text : String} (ht : t.Distinct) (h : Engine.write t p text = .ok t')
    {q : Path} (hqp : q ≠ p) (hq : isTemporary q = false) : t'.file? q = t.file? q := by
  have htemp : (q != Engine.temporary p) = true := by
    rw [bne_iff_ne]
    rintro rfl
    rw [isTemporary_temporary] at hq
    cases hq
  rw [write_ok h, FileTree.file?_insert_of_ne hqp, FileTree.file?_keep ht]
  simp only [htemp]
  cases t.file? q <;> rfl

theorem bytes?_of_file? {t t' : FileTree} {p : Path} {f : File} (h : t'.file? p = t.file? p)
    (hf : t.file? p = some f) : t'.bytes? p = some f.bytes := by
  rw [FileTree.bytes?, h, hf]
  rfl

/-- Where files other than one are as they were and a backup of that one was made, versions are kept. -/
theorem keepsVersions_of_backup {act : Act} {t' : FileTree} {f : File} (hwet : act.isDry = false)
    (hp : isSupported p = true) (hf : t.file? p = some f)
    (hbackup : t'.file? (freshBackup t p) = some f)
    (hothers : ∀ q, q ≠ p → t.has q = true → isTemporary q = false → t'.file? q = t.file? q) :
    KeepsVersions act t t' where
  dry h := by
    rw [hwet] at h
    cases h
  saves {q g} hg hq hchanged := by
    by_cases hqp : q = p
    · subst hqp
      rw [hf] at hg
      cases hg
      obtain ⟨-, -, hfree⟩ := freshBackup_free t q
      refine ⟨freshBackup t q, isBackup_freshBackup t q, hfree, ?_⟩
      rw [FileTree.bytes?, hbackup]
      rfl
    · have htemp : isTemporary q = false := Bool.eq_false_iff.mpr fun htemp => by
        rw [isSupported_of_isTemporary htemp] at hq
        cases hq
      exact absurd (bytes?_of_file? (hothers q hqp (FileTree.has_of_file? hg) htemp) hg) hchanged
  backups {q g} hg hq := by
    have hqp : q ≠ p := by
      rintro rfl
      rw [isSupported_of_isBackup hq] at hp
      cases hp
    exact .inl (bytes?_of_file?
      (hothers q hqp (FileTree.has_of_file? hg) (isTemporary_of_isBackup hq)) hg)

/-- A tree that is left alone keeps its versions. -/
theorem keepsVersions_self (act : Act) (t : FileTree) : KeepsVersions act t t where
  dry _ := rfl
  saves hf _ hchanged := absurd (bytes?_of_file? rfl hf) hchanged
  backups hf _ := .inl (bytes?_of_file? rfl hf)

theorem ne_freshBackup {q : Path} (hq : t.has q = true) : q ≠ freshBackup t p := by
  rintro rfl
  obtain ⟨-, -, hfree⟩ := freshBackup_free t p
  rw [hfree] at hq
  cases hq

theorem sortFile_keepsVersions (ht : t.Distinct) (e : Engine) (dryRun : Bool) (relative : String) :
    KeepsVersions (.sort dryRun relative) t (e.sortFile dryRun relative t).1 ∧
      (e.sortFile dryRun relative t).1.Distinct := by
  rcases sortFile_cases e dryRun relative t with hsame | ⟨rfl, p, f, hp, hf, hsaved | ⟨text, hwritten⟩⟩
  · rw [hsame]
    exact ⟨keepsVersions_self _ t, ht⟩
  · rw [hsaved]
    refine ⟨keepsVersions_of_backup rfl hp hf (FileTree.file?_insert_self t _ f) ?_, ht.insert⟩
    exact fun q _ hq _ => FileTree.file?_insert_of_ne (ne_freshBackup hq)
  · have hsaved : (t.insert (freshBackup t p) f).Distinct := ht.insert
    have hbackup : freshBackup t p ≠ p := (ne_freshBackup (FileTree.has_of_file? hf)).symm
    refine ⟨keepsVersions_of_backup rfl hp hf ?_ fun q hqp hq htemp => ?_, ?_⟩
    · rw [file?_write hsaved hwritten hbackup (isTemporary_of_isBackup (isBackup_freshBackup t p))]
      exact FileTree.file?_insert_self t _ f
    · rw [file?_write hsaved hwritten hqp htemp]
      exact FileTree.file?_insert_of_ne (ne_freshBackup hq)
    · rw [write_ok hwritten]
      exact (hsaved.keep _).insert

theorem file?_cleanUp (ht : t.Distinct) (e : Engine) (maxAge : Int) {f : File} (hf : t.file? p = some f) :
    (e.cleanUp maxAge t).1.file? p = if e.isOldBackup maxAge p f then none else some f := by
  rw [Engine.cleanUp, FileTree.file?_keep ht, hf]
  cases h : e.isOldBackup maxAge p f <;> simp [h]

/-- A clean-up removes files that are backups and changes none. -/
theorem cleanUp_keepsVersions (ht : t.Distinct) (e : Engine) (maxAge : Int) :
    KeepsVersions (.cleanUp maxAge) t (e.cleanUp maxAge t).1 where
  dry h := nomatch h
  saves {p f} hf hp hchanged := by
    have hno : isBackup p = false := Bool.eq_false_iff.mpr fun hbackup => by
      rw [isSupported_of_isBackup hbackup] at hp
      cases hp
    have hold : e.isOldBackup maxAge p f = false := by
      rw [isBackup] at hno
      simp [Engine.isOldBackup, hno]
    have hkept := file?_cleanUp ht e maxAge hf
    rw [hold, if_neg (by decide), ← hf] at hkept
    exact absurd (bytes?_of_file? hkept hf) hchanged
  backups {p f} hf _ := by
    have hkept := file?_cleanUp ht e maxAge hf
    split at hkept
    · exact .inr ⟨rfl, hkept⟩
    · rw [← hf] at hkept
      exact .inl (bytes?_of_file? hkept hf)

theorem bytes?_aged (t : FileTree) (seconds : Nat) (p : Path) : (t.aged seconds).bytes? p = t.bytes? p := by
  have hfile : (t.aged seconds).file? p =
      (t.file? p).map fun f => { f with age := f.age + seconds } := by
    refine FileTree.lookup_map ?_ t.files p
    exact fun _ => rfl
  rw [FileTree.bytes?, FileTree.bytes?, hfile, Option.map_map]
  rfl

end Sorting

/-! ## Acts and runs -/

namespace Engine

/-- An act keeps the versions of files, and one file per path. -/
theorem perform_keepsVersions (e : Engine) (act : Act) {t : FileTree} (ht : t.Distinct) :
    KeepsVersions act t (e.perform act t) ∧ (e.perform act t).Distinct := by
  cases act with
  | sort dryRun relative => exact sortFile_keepsVersions ht e dryRun relative
  | cleanUp maxAge => exact ⟨cleanUp_keepsVersions ht e maxAge, ht.keep _⟩
  | wait seconds =>
    have hsame {p : Path} {f : File} (hf : t.file? p = some f) :
        (e.perform (.wait seconds) t).bytes? p = some f.bytes :=
      (bytes?_aged t seconds p).trans (bytes?_of_file? rfl hf)
    refine ⟨KeepsVersions.mk (fun h => nomatch h) ?_ ?_, ht.map fun _ => rfl⟩
    · exact fun hf _ hchanged => absurd (hsame hf) hchanged
    · exact fun hf _ => .inl (hsame hf)

theorem performAll_distinct (e : Engine) (acts : List Act) {t : FileTree} (ht : t.Distinct) :
    (e.performAll acts t).Distinct := by
  induction acts generalizing t with
  | nil => exact ht
  | cons act rest ih => exact ih (e.perform_keepsVersions act ht).2

/-- The bytes are at a path or in a backup. -/
def Holds (t : FileTree) (p : Path) (bytes : List UInt8) : Prop :=
  ∃ q, (q = p ∨ isBackup q = true) ∧ t.bytes? q = some bytes

theorem exists_file?_of_bytes? {t : FileTree} {p : Path} {bytes : List UInt8}
    (h : t.bytes? p = some bytes) : ∃ f, t.file? p = some f ∧ f.bytes = bytes :=
  Option.map_eq_some_iff.mp h

/-- What a tree holds is held after acts that remove no backups. -/
theorem performAll_holds (e : Engine) {acts : List Act} (hacts : ∀ act ∈ acts, act.cleans = false)
    {t : FileTree} (ht : t.Distinct) {p : Path} (hp : isSupported p = true) {bytes : List UInt8}
    (h : Holds t p bytes) : Holds (e.performAll acts t) p bytes := by
  induction acts generalizing t with
  | nil => exact h
  | cons act rest ih =>
    obtain ⟨hkeeps, hdistinct⟩ := e.perform_keepsVersions act ht
    refine ih (fun a ha => hacts a (List.mem_cons_of_mem act ha)) hdistinct ?_
    obtain ⟨q, hq, hbytes⟩ := h
    obtain ⟨f, hf, rfl⟩ := exists_file?_of_bytes? hbytes
    rcases hq with rfl | hq
    · -- the file is as it was, or a backup was made of it
      by_cases hsame : (e.perform act t).bytes? q = some f.bytes
      · exact ⟨q, .inl rfl, hsame⟩
      · obtain ⟨b, hb, -, hsaved⟩ := hkeeps.saves hf hp hsame
        exact ⟨b, .inr hb, hsaved⟩
    · rcases hkeeps.backups hf hq with hsame | ⟨hcleans, -⟩
      · exact ⟨q, .inr hq, hsame⟩
      · rw [hacts act List.mem_cons_self] at hcleans
        cases hcleans

theorem sortFile_dry (e : Engine) (relative : String) (t : FileTree) :
    (e.sortFile true relative t).1 = t :=
  (sortFile_cases e true relative t).resolve_right fun h => nomatch h.1

/-- A dry run leaves the tree alone. -/
theorem apply_dry (e : Engine) {op : Operation} (hop : op.isDry = true) (t : FileTree) :
    e.apply op t = t := by
  cases op with
  | single act =>
    cases act with
    | sort dryRun relative =>
      cases hop
      exact e.sortFile_dry relative t
    | cleanUp maxAge => cases hop
    | wait seconds => cases hop
  | scan dryRun extensions maxDepth =>
    cases hop
    rw [apply_eq_performAll, actsOf]
    induction discover t e.workspace extensions maxDepth with
    | nil => rfl
    | cons relative rest ih =>
      rw [List.map_cons, performAll, List.foldl_cons]
      show e.performAll _ (e.sortFile true relative t).1 = t
      rw [sortFile_dry]
      exact ih

/-- Whatever operations are run on a tree of files, the run is one of its acts in turn; each of these
leaves the tree alone if it is a dry run, backs a file of a language up under a free name if it changes
it, changes no backup and removes none unless it is a clean-up; an operation that is a dry run leaves
every tree alone; and every version of a file of a language that was there between two acts is there in
the end, at its path or in a backup, if there is no clean-up in between. -/
theorem run_keeps_versions (e : Engine) (ops : List Operation) (t : FileTree) (ht : t.Distinct) :
    e.run ops t = e.performAll (e.acts ops t) t ∧
    (∀ before act after, e.acts ops t = before ++ act :: after →
      KeepsVersions act (e.performAll before t) (e.perform act (e.performAll before t))) ∧
    (∀ op, op.isDry = true → ∀ t', e.apply op t' = t') ∧
    ∀ before after, e.acts ops t = before ++ after → (∀ act ∈ after, act.cleans = false) →
      ∀ p f, (e.performAll before t).file? p = some f → isSupported p = true →
        Holds (e.run ops t) p f.bytes := by
  refine ⟨e.run_eq_performAll ops t, fun before act after _ => ?_, fun op hop => e.apply_dry hop, ?_⟩
  · exact (e.perform_keepsVersions act (e.performAll_distinct before ht)).1
  · intro before after hacts hcleans p f hf hp
    rw [e.run_eq_performAll, hacts, performAll_append]
    refine e.performAll_holds hcleans (e.performAll_distinct before ht) hp ⟨p, .inl rfl, ?_⟩
    rw [FileTree.bytes?, hf]
    rfl

/-- A file that is out of order, one whose name looks like a backup of it, and one that is in the way of
the temporary file. -/
def crowded : FileTree where
  root := "/w"
  files := [(["a.json"], { bytes := Utf8.encode "\x7b\"b\":1,\"a\":2\x7d".toList }),
    (["a.json.propsort.backup"], { bytes := Utf8.encode "old".toList, age := 9 }),
    (["a.json.propsort.tmp"], { bytes := Utf8.encode "half".toList })]

/-- Sorting it makes a second backup, and a clean-up removes the first one alone. -/
theorem run_keeps_versions_crowded :
    ((run { workspace := [] } [.scan false [] 10, .single (.cleanUp 5)] crowded).files.map fun x =>
        (x.1, Utf8.decode x.2.bytes)) =
      [(["a.json"], .ok "\x7b\"a\":2,\"b\":1\x7d".toList),
        (["a.json-1.propsort.backup"], .ok "\x7b\"b\":1,\"a\":2\x7d".toList)] ∧
    Holds (run { workspace := [] } [.scan false [] 10] crowded) ["a.json"]
      (Utf8.encode "\x7b\"b\":1,\"a\":2\x7d".toList) := by
  refine ⟨by decide +kernel, ?_⟩
  have hversions := (run_keeps_versions { workspace := [] } [.scan false [] 10] crowded (by decide)).2.2.2
  exact hversions [] _ rfl (by decide +kernel) ["a.json"] _ rfl (by decide)

end Engine

end MemberOrder.Workspace
