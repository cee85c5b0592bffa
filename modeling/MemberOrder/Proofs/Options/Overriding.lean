/-
  Settings that are laid over others.

  A name that is there as it is written keeps its place and gets the new value; else it comes last
  (`insert`). Of the spellings of one option the last one counts, so a setting that is laid over others
  counts unless another spelling of its option comes behind its own name (`later`). The option set that
  comes out is the one in which every option that is laid over has the last of these values alone
  (`toOptions_insertAll`).

  The file type of a path and what a command line gives are laid over in this way, each option once
  (`distinct_given`) and with a value (`given_of_read`).
-/
import Mathlib.Data.List.Nodup
import MemberOrder.CommandLine.Run
import MemberOrder.Proofs.Fallible

namespace MemberOrder.Settings

variable {s base overrides : Settings} {name name' option : String} {v : Node} {e : String × Node}

/-! ## Spellings -/

theorem splitWords_of_small {before : Option Char} {cs : List Char} (h : ∀ c ∈ cs, c.isUpper = false) :
    splitWords before cs = cs := by
  induction cs generalizing before with
  | nil => rfl
  | cons c rest ih =>
    rw [List.forall_mem_cons] at h
    rw [splitWords, h.1, Bool.false_and, if_neg Bool.false_ne_true, ih h.2]

/-- A name without capitals and hyphens is written in one way. -/
theorem snakeCase_of_small (h : ∀ c ∈ name.toList, c.isUpper = false ∧ c ≠ '-') : snakeCase name = name := by
  have hsame : name.toList.map (fun c => if c == '-' then '_' else c) = name.toList := by
    conv_rhs => rw [← List.map_id name.toList]
    refine List.map_congr_left fun c hc => ?_
    rw [if_neg (by simpa using (h c hc).2), id]
  rw [snakeCase, hsame, splitWords_of_small fun c hc => (h c hc).1, String.ofList_toList]

/-- The entries that give an option a value, in any spelling. -/
def spelled (s : Settings) (option : String) : Settings :=
  s.filter fun e => snakeCase e.1 == option && !e.2.isNull

/-- The entries that give an option a value, behind the one with a name as it is written. -/
def later : Settings → (name : String) → Settings
  | [], _ => []
  | e :: rest, name => if e.1 == name then spelled rest (snakeCase name) else later rest name

/-- What counts when an entry is laid over others. -/
def winner (base : Settings) (e : String × Node) : String × Node := (later base e.1).getLast?.getD e

/-- The entries for the options that are not laid over. -/
def without (base overrides : Settings) : Settings :=
  base.filter fun e => !(overrides.map fun o => snakeCase o.1).contains (snakeCase e.1)

theorem value?_eq (s : Settings) (option : String) : s.value? option =
    (s.spelled option).getLast?.map fun e => if option == "sort_order" then directionOf e.2 else e.2 := rfl

theorem mem_spelled : e ∈ s.spelled option ↔ e ∈ s ∧ snakeCase e.1 = option ∧ e.2.isNull = false := by
  simp [spelled]

theorem mem_of_later (h : e ∈ later s name) : snakeCase e.1 = snakeCase name ∧ e.2.isNull = false := by
  induction s with
  | nil => cases h
  | cons first rest ih =>
    rw [later] at h
    split at h
    · exact (mem_spelled.mp h).2
    · exact ih h

/-- The winner is a spelling of the option that is laid over, with a value. -/
theorem winner_spells (base : Settings) (hgiven : e.2.isNull = false) :
    snakeCase (winner base e).1 = snakeCase e.1 ∧ (winner base e).2.isNull = false := by
  unfold winner
  cases hlast : (later base e.1).getLast? with
  | none => exact ⟨rfl, hgiven⟩
  | some last => exact mem_of_later (List.mem_of_getLast? hlast)

/-! ## Laying one entry over others -/

theorem spelled_insert_of_ne (h : snakeCase name ≠ option) :
    (insert s name v).spelled option = s.spelled option := by
  induction s with
  | nil => simp [insert, spelled, h]
  | cons first rest ih =>
    rw [insert]
    split
    · rename_i heq
      obtain rfl := eq_of_beq heq
      simp [spelled, h]
    · simp only [spelled, List.filter_cons] at ih ⊢
      rw [ih]

theorem later_insert_of_ne (h : snakeCase name' ≠ snakeCase name) :
    later (insert s name' v) name = later s name := by
  have hne : name' ≠ name := fun heq => h (congrArg snakeCase heq)
  induction s with
  | nil => simp [insert, later, hne]
  | cons first rest ih =>
    rw [insert]
    split
    · rename_i heq
      obtain rfl := eq_of_beq heq
      simp [later, hne]
    · rw [later, later, ih, spelled_insert_of_ne h]

/-- Of the spellings of an option that is laid over, its winner is the last. -/
theorem getLast?_spelled_insert (hgiven : v.isNull = false) :
    ((insert s name v).spelled (snakeCase name)).getLast? = some (winner s (name, v)) := by
  induction s with
  | nil => simp [insert, spelled, winner, later, hgiven]
  | cons first rest ih =>
    rw [insert, winner, later]
    split
    · rename_i heq
      obtain rfl := eq_of_beq heq
      simp [spelled, hgiven, List.getLast?_cons]
    · rw [spelled, List.filter_cons]
      split
      · rw [List.getLast?_cons, show List.filter _ _ = spelled _ _ from rfl, ih]
        rfl
      · exact ih

/-! ## Laying several entries over others -/

theorem insertAll_cons : insertAll base (e :: overrides) = insertAll (insert base e.1 e.2) overrides := rfl

theorem spelled_insertAll_of_notMem (h : ∀ e ∈ overrides, snakeCase e.1 ≠ option) :
    (insertAll base overrides).spelled option = base.spelled option := by
  induction overrides generalizing base with
  | nil => rfl
  | cons first rest ih =>
    rw [insertAll_cons, ih fun e he => h e (List.mem_cons_of_mem _ he),
      spelled_insert_of_ne (h first List.mem_cons_self)]

theorem getLast?_spelled_insertAll (hdistinct : (overrides.map fun e => snakeCase e.1).Nodup)
    (hgiven : ∀ e ∈ overrides, e.2.isNull = false) (he : e ∈ overrides) :
    ((insertAll base overrides).spelled (snakeCase e.1)).getLast? = some (winner base e) := by
  induction overrides generalizing base with
  | nil => cases he
  | cons first rest ih =>
    rw [List.map_cons, List.nodup_cons] at hdistinct
    have hne : ∀ e ∈ rest, snakeCase e.1 ≠ snakeCase first.1 :=
      fun e he heq => hdistinct.1 (List.mem_map.mpr ⟨e, he, heq⟩)
    rw [insertAll_cons]
    rcases List.mem_cons.mp he with rfl | he
    · rw [spelled_insertAll_of_notMem hne, getLast?_spelled_insert (hgiven _ List.mem_cons_self)]
    · rw [ih hdistinct.2 (fun e he => hgiven e (List.mem_cons_of_mem _ he)) he, winner, winner,
        later_insert_of_ne (hne e he).symm]

section Overrides

variable (hdistinct : (overrides.map fun e => snakeCase e.1).Nodup)
  (hgiven : ∀ e ∈ overrides, e.2.isNull = false)
include hdistinct hgiven

theorem value?_insertAll (he : e ∈ overrides) :
    (insertAll base overrides).value? (snakeCase e.1) = value? [winner base e] (snakeCase e.1) := by
  obtain ⟨hspells, hnull⟩ := winner_spells base (hgiven e he)
  have hself : spelled [winner base e] (snakeCase e.1) = [winner base e] := by
    simp [spelled, hspells, hnull]
  rw [value?_eq, value?_eq, getLast?_spelled_insertAll hdistinct hgiven he, hself]
  rfl

/-- With each option that is laid over, its winner stands for all of its spellings. -/
theorem spelled_winners (he : e ∈ overrides) :
    spelled (overrides.map (winner base)) (snakeCase e.1) = [winner base e] := by
  induction overrides with
  | nil => cases he
  | cons first rest ih =>
    rw [List.map_cons, List.nodup_cons] at hdistinct
    obtain ⟨hspells, hnull⟩ := winner_spells base (hgiven first List.mem_cons_self)
    have hrest : ∀ e ∈ rest, e.2.isNull = false := fun e he => hgiven e (List.mem_cons_of_mem _ he)
    rw [List.map_cons, spelled, List.filter_cons, hspells, hnull]
    rcases List.mem_cons.mp he with rfl | he
    · rw [beq_self_eq_true, Bool.not_false, Bool.and_true, if_pos rfl]
      refine congrArg (winner base e :: ·) (List.filter_eq_nil_iff.mpr ?_)
      intro w hw
      obtain ⟨o, ho, rfl⟩ := List.mem_map.mp hw
      rw [(winner_spells base (hrest o ho)).1]
      have hne : snakeCase o.1 ≠ snakeCase e.1 :=
        fun heq => hdistinct.1 (List.mem_map.mpr ⟨o, ho, heq⟩)
      simp [hne]
    · have hne : snakeCase first.1 ≠ snakeCase e.1 :=
        fun heq => hdistinct.1 (List.mem_map.mpr ⟨e, he, heq.symm⟩)
      rw [beq_false_of_ne hne]
      exact ih hdistinct.2 hrest he

theorem value?_without (option : String) : (without base overrides ++ overrides.map (winner base)).value? option =
    (insertAll base overrides).value? option := by
  have hsplit : (without base overrides ++ overrides.map (winner base)).spelled option =
      (without base overrides).spelled option ++ spelled (overrides.map (winner base)) option :=
    List.filter_append _ _
  rw [value?_eq, value?_eq, hsplit]
  by_cases hin : ∃ e ∈ overrides, snakeCase e.1 = option
  · obtain ⟨e, he, rfl⟩ := hin
    rw [spelled_winners hdistinct hgiven he, getLast?_spelled_insertAll hdistinct hgiven he,
      List.getLast?_concat]
  · have hout : ∀ e ∈ overrides, snakeCase e.1 ≠ option := fun e he heq => hin ⟨e, he, heq⟩
    have hnone : spelled (overrides.map (winner base)) option = [] := by
      refine List.filter_eq_nil_iff.mpr fun w hw => ?_
      obtain ⟨o, ho, rfl⟩ := List.mem_map.mp hw
      rw [(winner_spells base (hgiven o ho)).1]
      simp [hout o ho]
    have hall : (without base overrides).spelled option = base.spelled option := by
      unfold spelled without
      rw [List.filter_filter]
      refine List.filter_congr fun w _ => ?_
      by_cases hw : snakeCase w.1 = option
      · have hother : (overrides.map fun o => snakeCase o.1).contains (snakeCase w.1) = false := by
          simpa [hw] using hout
        rw [hother, Bool.not_false, Bool.and_true]
      · simp [hw]
    rw [hnone, List.append_nil, hall, spelled_insertAll_of_notMem hout]

end Overrides

/-! ## Option sets -/

/-- An option set depends on what each option gets alone. -/
theorem toOptions_congr {s s' : Settings} (h : ∀ option, s.value? option = s'.value? option) :
    s.toOptions = s'.toOptions := by
  simp only [toOptions, fileType, choice, indentation, spacing, indentWidth, flag, names, h]

theorem toOptions_insertAll (hdistinct : (overrides.map fun e => snakeCase e.1).Nodup)
    (hgiven : ∀ e ∈ overrides, e.2.isNull = false) : (insertAll base overrides).toOptions =
      (without base overrides ++ overrides.map (winner base)).toOptions :=
  toOptions_congr fun option => (value?_without hdistinct hgiven option).symm

theorem fileType_of_toOptions {o : Options} (h : s.toOptions = .ok o) : s.fileType = .ok o.fileType := by
  unfold toOptions at h
  obtain ⟨fileType, hfileType, h⟩ := bind_ok h
  repeat obtain ⟨_, -, h⟩ := bind_ok h
  cases h
  exact hfileType

/-- The name of a file type stands for it. -/
theorem fileType_ofText (t : FileType) :
    Settings.fileType [("file_type", Node.ofText t.name)] = .ok t := by
  cases t <;> decide +kernel

/-- A file type that is laid over others is that of the last spelling that counts. -/
theorem fileType_insertAll (hgiven : v.isNull = false) : (insertAll s [("file_type", v)]).fileType =
    Settings.fileType [winner s ("file_type", v)] := by
  have hname : snakeCase "file_type" = "file_type" := snakeCase_of_small (by decide)
  have hvalue := @value?_insertAll s [("file_type", v)] ("file_type", v) (List.nodup_singleton _)
    (fun e he => List.mem_singleton.mp he ▸ hgiven) (List.mem_singleton_self _)
  rw [hname] at hvalue
  rw [fileType, fileType, hvalue]

/-- An entry that is laid over others counts: the last spelling of its option behind its own name, if there
is one, says the same. -/
def Counts (base : Settings) (e : String × Node) : Prop :=
  ∀ last, (later base e.1).getLast? = some last → value? [last] (snakeCase e.1) = value? [e] (snakeCase e.1)

theorem value?_winner_iff : value? [winner base e] (snakeCase e.1) = value? [e] (snakeCase e.1) ↔
    Counts base e := by
  unfold winner Counts
  cases (later base e.1).getLast? with
  | none => simp
  | some last => simp

end MemberOrder.Settings

namespace MemberOrder.CommandLine

open Workspace

/-! ## What a command line gives -/

/-- The settings of the option file that a command line names. -/
def Arguments.fileSettings (a : Arguments) (t : FileTree) : Except ConfigError Settings :=
  match a.config with
  | none => .ok []
  | some path => if path.isEmpty then .ok [] else Config.load t path

theorem settings_eq (a : Arguments) (t : FileTree) :
    a.settings t = (a.fileSettings t).map fun base => base.insertAll a.given := by
  unfold Arguments.settings Arguments.fileSettings
  cases a.config with
  | none => rfl
  | some path =>
    dsimp only
    split
    · rfl
    · cases Config.load t path <;> rfl

theorem given_sublist (a : Arguments) :
    (a.given.map (·.1)).Sublist (optionOrder ++ ["custom_order"]) := by
  have hchosen : ((optionOrder.filterMap fun name => (a.chosen.lookup name).map (name, ·)).map
      (·.1)).Sublist optionOrder := by
    induction optionOrder with
    | nil => exact List.Sublist.slnil
    | cons name rest ih =>
      rw [List.filterMap_cons]
      cases a.chosen.lookup name with
      | none => exact ih.cons name
      | some value => exact ih.cons_cons name
  unfold Arguments.given
  split
  · exact hchosen.trans (List.sublist_append_left _ _)
  · split
    · exact hchosen.trans (List.sublist_append_left _ _)
    · rw [List.map_append]
      exact hchosen.append (List.Sublist.refl _)

/-- The options that a command line gives are written in one way, and no two of them are the same. -/
theorem distinct_given (a : Arguments) :
    (a.given.map fun e => Settings.snakeCase e.1).Nodup ∧ ∀ e ∈ a.given, Settings.snakeCase e.1 = e.1 := by
  have hsmall : ∀ name ∈ optionOrder ++ ["custom_order"], ∀ c ∈ name.toList, c.isUpper = false ∧ c ≠ '-' := by
    decide +kernel
  have hsub := given_sublist a
  have hsame : ∀ e ∈ a.given, Settings.snakeCase e.1 = e.1 := fun e he =>
    Settings.snakeCase_of_small (hsmall e.1 (hsub.subset (List.mem_map_of_mem he)))
  refine ⟨?_, hsame⟩
  rw [List.map_congr_left hsame]
  exact hsub.nodup (by decide +kernel)

/-- Whether all options that are given have a value. -/
def Arguments.Valued (a : Arguments) : Prop := ∀ e ∈ a.chosen, e.2.isNull = false

theorem valued_given {a : Arguments} (h : a.Valued) : ∀ e ∈ a.given, e.2.isNull = false := by
  have hchosen : ∀ e ∈ optionOrder.filterMap fun name => (a.chosen.lookup name).map (name, ·),
      e.2.isNull = false := by
    intro e he
    obtain ⟨name, -, hname⟩ := List.mem_filterMap.mp he
    obtain ⟨value, hvalue, rfl⟩ := Option.map_eq_some_iff.mp hname
    obtain ⟨l₁, l₂, hsplit, -⟩ := List.lookup_eq_some_iff.mp hvalue
    exact h (name, value) (by simp [hsplit])
  unfold Arguments.given
  intro e he
  split at he
  · exact hchosen e he
  · split at he
    · exact hchosen e he
    · rcases List.mem_append.mp he with he | he
      · exact hchosen e he
      · rw [List.mem_singleton.mp he]
        rfl

theorem mem_insert {s : Settings} {name : String} {v : Node} {e : String × Node}
    (h : e ∈ s.insert name v) : e ∈ s ∨ e.2 = v := by
  induction s with
  | nil =>
    rw [Settings.insert, List.mem_singleton] at h
    exact .inr (congrArg Prod.snd h)
  | cons first rest ih =>
    rw [Settings.insert] at h
    split at h
    · rcases List.mem_cons.mp h with rfl | h
      · exact .inr rfl
      · exact .inl (List.mem_cons_of_mem _ h)
    · rcases List.mem_cons.mp h with rfl | h
      · exact .inl List.mem_cons_self
      · exact (ih h).imp_left (List.mem_cons_of_mem _)

/-- Carrying out an option gives an option of the sorter a value, if any. -/
theorem valued_apply {a a' : Arguments} {effect : Effect} {value : String} (ha : a.Valued)
    (h : a.apply effect value = .ok a') : a'.Valued := by
  cases effect with
  | help | version => cases h
  | addExtension | setConfig | setCustomOrder | showDiff | beVerbose | previewOnly | assumeYes =>
    cases h
    exact ha
  | setDepth =>
    simp only [Arguments.apply] at h
    split at h
    · cases h
      exact ha
    · cases h
  | choose option allowed =>
    simp only [Arguments.apply] at h
    split at h
    · cases h
      intro e he
      rcases mem_insert he with he | he
      · exact ha e he
      · rw [he]
        rfl
    · cases h
  | fix option fixed =>
    cases h
    intro e he
    rcases mem_insert he with he | he
    · exact ha e he
    · rw [he]
      rfl

namespace Reading

theorem valued_applyAll {r r' : Reading} {uses : List (Effect × String)} (hr : r.arguments.Valued)
    (h : r.applyAll uses = .ok r') : r'.arguments.Valued := by
  obtain ⟨a, ha, h⟩ := bind_ok h
  cases h
  exact foldlM_keeps (fun _ _ _ hb hnext => valued_apply hb hnext) hr ha

theorem valued_word {flags : List Flag} {r r' : Reading} {w : Word} (hr : r.arguments.Valued)
    (h : r.word flags w = .ok r') : r'.arguments.Valued := by
  cases w with
  | unknown | separator =>
    cases h
    exact hr
  | argument text =>
    cases h
    unfold argument
    split <;> exact hr
  | option isShort flag attached =>
    obtain ⟨uses, -, h⟩ := bind_ok h
    unfold option at h
    dsimp only at h
    split at h
    · exact valued_applyAll (r := { r with atPath := false, leftover := r.leftover || uses.leftover }) hr h
    · cases h
      exact hr

theorem valued_step {flags : List Flag} {r r' : Reading} {w : Word} (hr : r.arguments.Valued)
    (h : r.step flags w = .ok r') : r'.arguments.Valued := by
  unfold step at h
  split at h
  · exact valued_word hr h
  · split at h
    · exact valued_applyAll (r := { r with waiting := none }) hr h
    · cases h

end Reading

theorem valued_readCommand {command : Command} {rest : List String} {a : Arguments}
    (h : readCommand command rest = .ok a) : a.Valued := by
  obtain ⟨words, -, h⟩ := bind_ok h
  obtain ⟨r, hr, h⟩ := bind_ok h
  have hvalued : r.arguments.Valued :=
    foldlM_keeps (P := fun r => r.arguments.Valued) (fun _ _ _ hb hnext => Reading.valued_step hb hnext)
      (fun e he => absurd he List.not_mem_nil) hr
  unfold Reading.finish at h
  split at h
  · split at h
    · cases h
    · cases h
      exact hvalued
  · cases h

theorem valued_readProgram {leftover : Bool} {words : List (Word × List String)} {a : Arguments}
    (h : readProgram leftover words = .ok (some a)) : a.Valued := by
  fun_induction readProgram leftover words with
  | case1 => cases h
  | case2 => cases h
  | case3 _ _ _ ih => exact ih h
  | case4 => cases h
  | case5 => cases h
  | case6 leftover name after rest command _ =>
    obtain ⟨arguments, harguments, h⟩ := bind_ok h
    split at h
    · cases h
    · cases h
      exact valued_readCommand harguments
  | case7 leftover isShort flag attached after rest ih =>
    obtain ⟨uses, -, h⟩ := bind_ok h
    split at h
    · cases h
    · cases h
    · exact ih uses h

theorem given_of_read {words : List String} {a : Arguments} (h : read words = .ok (some a)) :
    ∀ e ∈ a.given, e.2.isNull = false := by
  obtain ⟨kinds, -, h⟩ := bind_ok h
  exact valued_given (valued_readProgram h)

end MemberOrder.CommandLine

namespace MemberOrder

open CommandLine Settings

/-- Settings that are laid over others give the option set in which, of each option that they name, the last
spelling behind its own name stands alone, or they themselves without one. So each of them counts if and
only if such a spelling, where there is one, says the same. This holds of the file type of a path as well,
and of what a command line gives over an option file. -/
theorem overriding_counts_iff {base overrides : Settings}
    (hdistinct : (overrides.map fun e => snakeCase e.1).Nodup)
    (hgiven : ∀ e ∈ overrides, e.2.isNull = false) :
    (base.insertAll overrides).toOptions = (base.without overrides ++ overrides.map base.winner).toOptions ∧
    (∀ e ∈ overrides, (base.insertAll overrides).value? (snakeCase e.1) = value? [e] (snakeCase e.1) ↔
      Counts base e) ∧
    (∀ (path : String) (o : Options), (base.forFile path).toOptions = .ok o →
      (o.fileType = FileType.ofPath path ↔ ∀ last, (base.later "file_type").getLast? = some last →
        Settings.fileType [last] = .ok (FileType.ofPath path))) ∧
    (∀ (words : List String) (a : Arguments) (t : Workspace.FileTree) (s : Settings),
      CommandLine.read words = .ok (some a) → a.settings t = .ok s →
      ∃ file, a.fileSettings t = .ok file ∧ s = file.insertAll a.given ∧
        ∀ e ∈ a.given, s.value? e.1 = value? [e] e.1 ↔ Counts file e) := by
  have hcounts {base overrides : Settings} (hdistinct : (overrides.map fun e => snakeCase e.1).Nodup)
      (hgiven : ∀ e ∈ overrides, e.2.isNull = false) : ∀ e ∈ overrides,
      ((base.insertAll overrides).value? (snakeCase e.1) = value? [e] (snakeCase e.1) ↔ Counts base e) := by
    intro e he
    rw [value?_insertAll hdistinct hgiven he]
    exact value?_winner_iff
  refine ⟨toOptions_insertAll hdistinct hgiven, hcounts hdistinct hgiven, fun path o ho => ?_,
    fun words a t s hread hsettings => ?_⟩
  · have htype := fileType_of_toOptions ho
    rw [forFile, fileType_insertAll rfl, winner] at htype
    cases hlast : (base.later "file_type").getLast? with
    | none =>
      rw [hlast, Option.getD_none, fileType_ofText] at htype
      exact iff_of_true (Except.ok.inj htype).symm nofun
    | some last =>
      rw [hlast, Option.getD_some] at htype
      simp [htype]
  · rw [settings_eq] at hsettings
    cases hfile : a.fileSettings t with
    | error e =>
      rw [hfile] at hsettings
      cases hsettings
    | ok file =>
      rw [hfile] at hsettings
      obtain rfl : file.insertAll a.given = s := Except.ok.inj hsettings
      obtain ⟨hdistinct, hplain⟩ := distinct_given a
      refine ⟨file, rfl, rfl, fun e he => ?_⟩
      have h := @hcounts file a.given hdistinct (given_of_read hread) e he
      rwa [hplain e he] at h

/-- Another spelling in front of the one that is laid over does not count. -/
theorem overriding_counts_last :
    ([("sort_order", Node.ofText "desc")].map fun e => snakeCase e.1).Nodup ∧
    (∀ e ∈ [("sort_order", Node.ofText "desc")], e.2.isNull = false) ∧
    (Settings.insertAll [("sortOrder", .ofText "asc"), ("sort_order", .ofText "asc")]
      [("sort_order", .ofText "desc")]).value? (snakeCase "sort_order") =
      value? [("sort_order", .ofText "desc")] (snakeCase "sort_order") := by
  have hgiven : ∀ e ∈ [("sort_order", Node.ofText "desc")], e.2.isNull = false := by
    simp [Node.ofText, Node.isNull]
  have hdistinct : ([("sort_order", Node.ofText "desc")].map fun e => snakeCase e.1).Nodup :=
    List.nodup_singleton _
  refine ⟨hdistinct, hgiven, ?_⟩
  exact ((overriding_counts_iff hdistinct hgiven).2.1 _ (List.mem_singleton_self _)).mpr
    fun last h => by cases h

/-- The file type of a path does not count before another spelling of the option. -/
theorem forFile_of_other_spelling :
    (Settings.forFile [("file_type", .ofText "css"), ("fileType", .ofText "json")] "a.ts").toOptions.toOption.map
      (·.fileType) = some .json ∧ FileType.ofPath "a.ts" = .typescript := by decide +kernel

end MemberOrder
