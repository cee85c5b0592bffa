/-
  The code of an entity of a style sheet that no member covers.

  When a body is written anew only its members are, so what is lost is what stands around these (`strays`), in
  the body and in every block inside of it that holds members. In a run of declarations, in a rule and around
  the steps of keyframes that is white space and semicolons, because items fill their block
  (`around_declarations`, `around_steps`, `strays_run`). A step, however, keeps only its declarations: there is
  nothing else that is stray if there is nothing else in the steps (`strays_idle`).
-/
import MemberOrder.Proofs.Comments.Ledger
import MemberOrder.Proofs.Source.Companions
import MemberOrder.Proofs.Style.Declarations

/-! ## Code -/

namespace MemberOrder.Scanned

variable {p : Profile} {t : Text} {x : Char} {i : Nat}

/-- What is code is written in the source. -/
theorem getElem?_of_clean (hx : Text.isSpace x = false) (h : (scan p t).clean[i]? = some x) : t[i]? = some x := by
  by_cases hcomment : ∃ c ∈ (scan p t).comments, Inside c.offset c.stop i
  · obtain ⟨c, hc, hi⟩ := hcomment
    rw [getElem?_clean_comment hc hi] at h
    obtain ⟨d, hd, hblank⟩ := Option.map_eq_some_iff.mp h
    unfold Lexeme.blankOf at hblank
    split at hblank
    · rw [hd, hblank]
    · rw [← hblank] at hx
      cases hx
  · rw [← getElem?_clean_outside fun c hc hi => hcomment ⟨c, hc, hi⟩]
    exact h

/-- Masked white space is no code: literals are not masked by white space. -/
theorem clean_of_masked_space (h : (scan p t).masked.testAt i Text.isSpace = true) :
    (scan p t).clean.testAt i Text.isSpace = true := by
  obtain ⟨d, hd, hspace⟩ := Text.testAt_iff.mp h
  by_cases hliteral : ∃ l ∈ literals p t, Inside l.start l.stop i
  · obtain ⟨l, hl, hi⟩ := hliteral
    have hclean : (scan p t).clean[i]? = t[i]? :=
      getElem?_clean_outside fun c hc => (delimited_of_literal hl).apart c hc i hi
    obtain ⟨hquoting, hinside⟩ := getElem?_masked_literal hl hi
    by_cases hq : Quoting t l i
    · rw [hquoting hq, ← hclean] at hd
      exact Text.testAt_iff.mpr ⟨d, hd, hspace⟩
    · rw [hinside hq] at hd
      obtain ⟨c, hc, hblank⟩ := Option.map_eq_some_iff.mp hd
      unfold Lexeme.blankOf at hblank
      split at hblank
      · exact Text.testAt_iff.mpr ⟨d, by rw [hclean, hc, hblank], hspace⟩
      · rw [← hblank] at hspace
        cases hspace
  · rw [getElem?_masked_outside fun l hl hi => hliteral ⟨l, hl, hi⟩] at hd
    exact Text.testAt_iff.mpr ⟨d, hd, hspace⟩

end MemberOrder.Scanned

/-! ## Leading comments -/

namespace MemberOrder

open Attachment Scanned

variable {p : Profile} {t : Text} {target : Nat}

/-- Between the comments that lead something, and up to it, there is only white space. -/
theorem leadingOf_spaces (htarget : target ≤ t.size) {candidates picked : List Comment}
    (hcandidates : ∀ c ∈ candidates, c ∈ (scan p t).comments) {targetLine anchorLine anchor : Nat}
    (hanchor : startOf picked target = anchor)
    (h : ∀ i, anchor ≤ i → i < target → (scan p t).masked.testAt i Text.isSpace = true) :
    ∀ i, startOf (leadingOf (scan p t) targetLine candidates anchorLine anchor picked) target ≤ i →
      i < target → (scan p t).masked.testAt i Text.isSpace = true := by
  induction candidates generalizing picked anchorLine anchor with
  | nil => rwa [leadingOf, hanchor]
  | cons c above ih =>
    obtain ⟨hc, habove⟩ := List.forall_mem_cons.mp hcandidates
    unfold leadingOf
    split
    · rwa [hanchor]
    · split
      · rwa [hanchor]
      · rename_i hblank
        split
        · rwa [hanchor]
        · refine ih habove rfl fun i h1 h2 => ?_
          obtain ⟨l, hl, hcomment, hstart, hstop⟩ := comment_of_scan hc
          rcases Nat.lt_or_ge i c.stop with hinside | hbehind
          · exact masked_comment hl hcomment (hstart ▸ h1) (hstop ▸ hinside)
          · rcases Nat.lt_or_ge i anchor with hbefore | hafter
            · have hsize : i < (scan p t).masked.size := by
                rw [size_masked]
                omega
              have hget := Array.getElem?_eq_getElem hsize
              rw [Bool.not_eq_true, Bool.not_eq_false'] at hblank
              exact Text.testAt_iff.mpr ⟨_, hget, List.all_eq_true.mp hblank _
                (Text.mem_slice.mpr ⟨i, hbehind, hbefore, hget⟩)⟩
            · exact h i hafter h2

theorem takeLeading_spaces {pool : List Comment} (hpool : pool.Sublist (scan p t).comments)
    (htarget : target ≤ t.size) (floor : Nat) :
    ∀ i, startOf (takeLeading (scan p t) target floor pool).1 target ≤ i → i < target →
      (scan p t).masked.testAt i Text.isSpace = true := by
  refine leadingOf_spaces htarget (fun c hc => hpool.subset ?_) rfl fun i h1 h2 => absurd h1 (by omega)
  exact (List.mem_filter.mp (List.mem_reverse.mp hc)).1

end MemberOrder

/-! ## Stray code -/

namespace MemberOrder

/-- What stands in a text between two offsets, outside of the spans of members that follow each other there. -/
def around (u : Text) (stop : Nat) : (cursor : Nat) → List Member → List Char
  | cursor, [] => u.slice cursor stop
  | cursor, m :: rest =>
    match m.info.span with
    | some span => u.slice cursor span.start ++ around u stop span.stop rest
    | none => around u stop cursor rest

mutual

/-- What stands in the blocks inside a member that hold members, outside of these. -/
def strayIn (u : Text) : Member → List Char
  | .leaf _ => []
  | .group i children =>
    match i.body with
    | some body =>
      if children.isEmpty then [] else around u body.stop body.start children ++ strayInEach u children
    | none => []

/-- What stands in the blocks inside members that hold members, outside of these. -/
def strayInEach (u : Text) : List Member → List Char
  | [] => []
  | m :: rest => strayIn u m ++ strayInEach u rest

end

/-- What stands in the body of an entity, or in a block inside it that holds members, outside of the members
there. -/
def strays (u : Text) (e : Entity) : List Char :=
  match e.body with
  | some body => around u body.stop body.start e.members ++ strayInEach u e.members
  | none => []

end MemberOrder

namespace MemberOrder.Style

open Attachment Scanned

variable {fileType : FileType} {p : Profile} {t : Text} {a b : Nat}

theorem sheetOf_eq (hsass : fileType ≠ .sass) (t : Text) :
    sheetOf fileType t = { scanned := scan (profileOf fileType) t, source := t, toSource := id, fileType } := by
  rcases sheetOf_cases fileType t with ⟨heq, -⟩ | ⟨-, hsheet⟩
  · exact absurd heq hsass
  · exact hsheet

/-- Where the sheet is its source, a span has the bounds it is made of. -/
theorem bounds_span {d : Sheet} (hsource : d.toSource = id) (i j : Nat) :
    (d.span i j).start = i ∧ (d.span i j).stop = j := by
  simp [Sheet.span, hsource]

theorem around_cons {m : Member} {span : Span} (h : m.info.span = some span) (u : Text) (stop cursor : Nat)
    (rest : List Member) :
    around u stop cursor (m :: rest) = u.slice cursor span.start ++ around u stop span.stop rest := by
  rw [around, h]

/-- Where nothing else stands there is no other code. -/
theorem isIdle_of_mem (hquotes : ';' ∉ p.quotes) (h : Idle (scan p t) a b) :
    ∀ c ∈ (scan p t).clean.slice a b, isIdle c = true := by
  intro c hc
  obtain ⟨i, h1, h2, hi⟩ := Text.mem_slice.mp hc
  obtain ⟨d, hd, hidle⟩ := Text.testAt_iff.mp (h i h1 h2)
  rw [isIdle, Bool.or_eq_true, beq_iff_eq] at hidle
  rcases hidle with hspace | rfl
  · have hclean := clean_of_masked_space (Text.testAt_iff.mpr ⟨d, hd, hspace⟩)
    rw [Text.testAt_of_getElem? hi] at hclean
    rw [isIdle, hclean, Bool.true_or]
  · obtain ⟨hsource, hcomments, -⟩ := (getElem?_masked_iff hquotes (by decide)).mp hd
    have hclean := (getElem?_clean_outside hcomments).trans hsource
    obtain rfl : c = ';' := Option.some.inj (hi.symm.trans hclean)
    decide

section Lists

variable {d : Sheet} (hscan : d.scanned = scan p t) (hsource : d.toSource = id) (hquotes : ';' ∉ p.quotes)

include hscan hsource hquotes

/-- Around declarations that fill a block there is no code. -/
theorem around_declarations {its : List Item} (hits : AllCut d.scanned its) (hfills : Fills d.scanned a b its)
    (hdecl : ∀ item ∈ its, item.isDeclaration = true) (limit floor : Nat) (pool : List Comment) :
    ∀ c ∈ around (scan p t).clean b a (declarationsFrom d limit its floor pool).1, isIdle c = true := by
  induction its generalizing a floor pool with
  | nil =>
    cases hfills with
    | nil h => exact isIdle_of_mem hquotes (hscan ▸ h)
  | cons item rest ih =>
    obtain ⟨⟨⟨i, j, hcut⟩, -⟩, hothers⟩ := List.forall_mem_cons.mp hits
    obtain ⟨hitem, hmore⟩ := List.forall_mem_cons.mp hdecl
    cases hfills with
    | cons hgap htail hrest =>
      cases item with
      | declaration start stop semicolon =>
        obtain ⟨-, -, hsome, -⟩ := hcut.wellCut
        have hspan : (declarationMember d start stop semicolon floor limit pool).1.1.info.span =
            some (d.span start stop) := by
          rw [declarationMember_eq]
          exact (declarationInfo_spec stop semicolon hsome).1
        obtain ⟨hstart, hstop⟩ := bounds_span hsource start stop
        rw [declarationsFrom_cons, around_cons hspan, hstart, hstop, List.forall_mem_append]
        exact ⟨isIdle_of_mem hquotes (hscan ▸ hgap), ih hothers (hrest.extend htail) hmore _ _⟩
      | statement start stop semicolon => cases hitem
      | block start stop openAt closeAt => cases hitem

/-- Around steps that fill a block there is no code. -/
theorem around_steps {its : List Item} (hfills : Fills d.scanned a b its)
    (hsteps : ∀ item ∈ its, item.isBlock = true) (limit floor : Nat) (pool : List Comment) :
    ∀ c ∈ around (scan p t).clean b a (stepsFrom d limit its floor pool).1, isIdle c = true := by
  induction its generalizing a floor pool with
  | nil =>
    cases hfills with
    | nil h => exact isIdle_of_mem hquotes (hscan ▸ h)
  | cons item rest ih =>
    obtain ⟨hitem, hmore⟩ := List.forall_mem_cons.mp hsteps
    cases hfills with
    | cons hgap htail hrest =>
      cases item with
      | declaration start stop semicolon => cases hitem
      | statement start stop semicolon => cases hitem
      | block start stop openAt closeAt =>
        have hspan : (stepMember d start stop openAt closeAt floor limit pool).1.1.info.span =
            some (d.span start (closeAt + 1)) := rfl
        obtain ⟨hstart, hstop⟩ := bounds_span hsource start (closeAt + 1)
        rw [stepsFrom_cons, around_cons hspan, hstart, hstop, List.forall_mem_append]
        exact ⟨isIdle_of_mem hquotes (hscan ▸ hgap), ih hrest hmore _ _⟩

end Lists

theorem strayInEach_declarations (u : Text) (d : Sheet) (limit : Nat) (its : List Item) (floor : Nat)
    (pool : List Comment) : strayInEach u (declarationsFrom d limit its floor pool).1 = [] := by
  induction its generalizing floor pool with
  | nil => rfl
  | cons item rest ih =>
    cases item with
    | declaration start stop semicolon =>
      have hleaf : strayIn u (declarationMember d start stop semicolon floor limit pool).1.1 = [] := by
        rw [declarationMember_eq]
        rfl
      show strayIn u (declarationMember d start stop semicolon floor limit pool).1.1 ++ strayInEach u _ = []
      rw [hleaf]
      exact ih _ _
    | statement start stop semicolon => exact ih floor pool
    | block start stop openAt closeAt => exact ih floor pool

/-- A member with a block holds nothing but declarations there. -/
def OnlyDeclarations (s : Scanned) (m : Member) : Prop :=
  ∀ body ∈ m.info.body, ∀ item ∈ (items s body.start body.stop).1, item.isDeclaration = true

instance (s : Scanned) (m : Member) : Decidable (OnlyDeclarations s m) :=
  inferInstanceAs
    (Decidable (∀ body ∈ m.info.body, ∀ item ∈ (items s body.start body.stop).1, item.isDeclaration = true))

/-- In steps with nothing but declarations there is no stray code. -/
theorem strayInEach_steps {d : Sheet} (hscan : d.scanned = scan p t) (hsource : d.toSource = id)
    (hquotes : ';' ∉ p.quotes) {its : List Item} (hits : AllCut d.scanned its)
    (hsteps : ∀ item ∈ its, item.isBlock = true) (limit floor : Nat) (pool : List Comment)
    (honly : ∀ m ∈ (stepsFrom d limit its floor pool).1, OnlyDeclarations (scan p t) m) :
    ∀ c ∈ strayInEach (scan p t).clean (stepsFrom d limit its floor pool).1, isIdle c = true := by
  induction its generalizing floor pool with
  | nil => exact nofun
  | cons item rest ih =>
    obtain ⟨⟨⟨i, j, hcut⟩, -⟩, hothers⟩ := List.forall_mem_cons.mp hits
    obtain ⟨hitem, hmore⟩ := List.forall_mem_cons.mp hsteps
    cases item with
    | declaration start stop semicolon => cases hitem
    | statement start stop semicolon => cases hitem
    | block start stop openAt closeAt =>
      obtain ⟨hself, honly⟩ := List.forall_mem_cons.mp honly
      let lead := takeLeading d.scanned start floor pool
      let children := (declarationsFrom d closeAt (items d.scanned (openAt + 1) closeAt).1 (openAt + 1)
        (takeInside start openAt lead.2).2).1
      obtain ⟨hstart, hstop⟩ := bounds_span hsource (openAt + 1) closeAt
      have hdecl := hself (d.span (openAt + 1) closeAt) rfl
      rw [hstart, hstop, ← hscan] at hdecl
      have haround := around_declarations hscan hsource hquotes (allCut_inside hcut) (fills_inside hcut) hdecl
        closeAt (openAt + 1) (takeInside start openAt lead.2).2
      have hin : strayIn (scan p t).clean (stepMember d start stop openAt closeAt floor limit pool).1.1 =
          if children.isEmpty then [] else
            around (scan p t).clean (d.span (openAt + 1) closeAt).stop (d.span (openAt + 1) closeAt).start
              children ++ strayInEach (scan p t).clean children := rfl
      have hall : ∀ c ∈ strayIn (scan p t).clean (stepMember d start stop openAt closeAt floor limit pool).1.1,
          isIdle c = true := by
        rw [hin, hstart, hstop, strayInEach_declarations, List.append_nil]
        split
        · exact nofun
        · exact haround
      exact List.forall_mem_append.mpr ⟨hall, ih hothers hmore _ _ honly⟩

/-! ### Runs of declarations -/

section Runs

variable {d : Sheet} (hscan : d.scanned = scan p t) (hplain : d.isIndented = false)

include hscan hplain

/-- Between a declaration and the comments behind it there is only white space. -/
theorem idle_trailing {pool : List Comment} (hpool : pool.Sublist d.scanned.comments) (start stop : Nat)
    (semicolon : Option Nat) (floor limit : Nat) :
    Idle d.scanned (pastSeparator stop semicolon) (endOf
      (declarationMember d start stop semicolon floor limit pool).1.1.info.trailingComments
      (pastSeparator stop semicolon)) := by
  let after := pastSeparator stop semicolon
  let lead := takeLeading d.scanned start floor pool
  let inside := takeInside start stop lead.2
  let early := takeEarly stop semicolon inside.2
  let candidates := early.2.filter (liesBetween after limit)
  have hearly : ∀ c ∈ early.1, c.stop ≤ after := by
    intro c hc
    cases semicolon with
    | none => cases hc
    | some place =>
      have := (List.mem_filter.mp hc).2
      rw [liesBetween_iff] at this
      exact Nat.le_succ_of_le this.2
  have hsub : candidates.Sublist d.scanned.comments :=
    (((List.filter_sublist.trans (takeEarly_sublist _ _ _)).trans (shrinks_takeInside _ _ _)).trans
      (shrinks_takeLeading _ _ _ _)).trans hpool
  have horderly : Orderly d.scanned candidates := by
    rw [hscan] at hsub ⊢
    exact (orderly_scan p t).sublist hsub
  have hcursor : ∀ c ∈ candidates, after ≤ c.offset := fun c hc => by
    have := (List.mem_filter.mp hc).2
    rw [liesBetween_iff] at this
    exact this.1
  have hskip : d.trailingSkip = [] := by simp [Sheet.trailingSkip, hplain]
  have htrailing : (declarationMember d start stop semicolon floor limit pool).1.1.info.trailingComments =
      early.1 ++ trailingOf d.scanned (d.scanned.lineAt (after - 1)) [] candidates after := by
    rw [declarationMember_eq, ← hskip]
    rfl
  rw [htrailing, endOf_append_of_le hearly]
  refine idle_of_spaces fun i h1 h2 => ?_
  have := trailingOf_passes horderly hcursor h1 h2
  simpa [passes] using this

/-- Between the last of some declarations and the comments behind it there is only white space. -/
theorem idle_lastTrailing {its : List Item} (hdecl : ∀ item ∈ its, item.isDeclaration = true) {last : Item}
    (hlast : its.getLast? = some last) {pool : List Comment} (hpool : pool.Sublist d.scanned.comments)
    (floor limit : Nat) : Idle d.scanned last.after
      (endOf (lastTrailing (declarationsFrom d limit its floor pool).1) last.after) := by
  induction its generalizing floor pool with
  | nil => cases hlast
  | cons item rest ih =>
    obtain ⟨hitem, hmore⟩ := List.forall_mem_cons.mp hdecl
    cases item with
    | statement start stop semicolon => cases hitem
    | block start stop openAt closeAt => cases hitem
    | declaration start stop semicolon =>
      rw [declarationsFrom_cons]
      by_cases hnil : rest = []
      · subst hnil
        obtain rfl : Item.declaration start stop semicolon = last := by simpa using hlast
        have := idle_trailing hscan hplain hpool start stop semicolon floor limit
        cases semicolon <;> exact this
      · obtain ⟨next, more, rfl⟩ := List.exists_cons_of_ne_nil hnil
        rw [List.getLast?_cons_cons] at hlast
        have hne := declarationsFrom_ne (d := d) hnil hmore limit
          (declarationMember d start stop semicolon floor limit pool).1.2
          (declarationMember d start stop semicolon floor limit pool).2
        rw [lastTrailing, List.getLast?_cons_of_ne_nil hne, ← lastTrailing]
        exact ih hmore hlast ((shrinks_declarationMember _ _ _ _ _ _).trans hpool) _

/-- A run of declarations has no stray code. -/
theorem strays_run (hsource : d.toSource = id) (hquotes : ';' ∉ p.quotes) {run : List Item} (hne : run ≠ [])
    (hrun : AllCut d.scanned run) (hdecl : ∀ item ∈ run, item.isDeclaration = true) {lo hi : Nat}
    (hfills : Fills d.scanned lo hi run) {pool : List Comment} (hpool : pool.Sublist d.scanned.comments)
    (floor : Nat) (selector : String) (media : Option String) :
    ∀ c ∈ strays (scan p t).clean (runEntity d run floor selector media pool).1, isIdle c = true := by
  obtain ⟨start, stop, semicolon, rest, rfl⟩ := exists_declaration hne hdecl
  obtain ⟨last, hlast⟩ : ∃ last, (Item.declaration start stop semicolon :: rest).getLast? = some last :=
    Option.isSome_iff_exists.mp (by simp)
  let lineStop := (d.scanned.source.find? ['\n'] last.after).getD d.scanned.source.size
  let members := (declarationsFrom d lineStop (.declaration start stop semicolon :: rest) floor pool).1
  let first := startOf (takeLeading d.scanned start floor pool).1 start
  let reach := endOf (lastTrailing members) last.after
  have hmembers : (runEntity d (.declaration start stop semicolon :: rest) floor selector media pool).1.members =
      members := by
    simp only [runEntity, bind_apply, pure_apply, hlast, Option.map_some, Option.getD_some]
    rfl
  have hfirst : (members.head?.map (·.info.comments)).getD [] = (takeLeading d.scanned start floor pool).1 := by
    show (declarationMember d start stop semicolon floor lineStop pool).1.1.info.comments = _
    rw [declarationMember_eq]
    rfl
  have hbody : (runEntity d (.declaration start stop semicolon :: rest) floor selector media pool).1.body =
      some (d.span first reach) := by
    simp only [runEntity, bind_apply, pure_apply, hlast, Option.map_some, Option.getD_some]
    show some (d.span (startOf ((members.head?.map (·.info.comments)).getD []) start) reach) = _
    rw [hfirst]
  obtain ⟨hstart, hstop⟩ := bounds_span hsource first reach
  -- the comments in front of the run and behind it are no code
  obtain ⟨⟨⟨i, j, hcut⟩, -⟩, -⟩ := List.forall_mem_cons.mp hrun
  have hfront : Idle d.scanned first start := by
    have hsize : start ≤ t.size := by
      obtain ⟨c, hc, -⟩ := Text.testAt_iff.mp hcut.starts
      have := Text.lt_size_of_getElem? hc
      rw [hscan, size_masked] at this
      exact Nat.le_of_lt this
    refine idle_of_spaces fun x h1 h2 => ?_
    simp only [first, hscan] at h1 hpool ⊢
    exact takeLeading_spaces hpool hsize floor x h1 h2
  have hback : Idle d.scanned last.after reach := idle_lastTrailing hscan hplain hdecl hlast hpool floor lineStop
  rw [strays, hbody, hmembers]
  dsimp only
  rw [hstart, hstop, strayInEach_declarations, List.append_nil]
  exact around_declarations hscan hsource hquotes hrun (hfills.between hlast hfront hback) hdecl lineStop floor
    pool

end Runs

/-- An entity with nothing but declarations in its steps has no stray code but semicolons. -/
theorem strays_idle (hsass : fileType ≠ .sass) {e : Entity} (he : e ∈ (read fileType t).entities)
    (honly : ∀ m ∈ e.members, OnlyDeclarations (scan (profileOf fileType) t) m) :
    ∀ c ∈ strays (scan (profileOf fileType) t).clean e, isIdle c = true := by
  have hquotes : ';' ∉ (profileOf fileType).quotes := by
    rw [quotes_profileOf]
    decide
  obtain ⟨e', hmakes, rfl⟩ := read_makes fileType t he
  have hsheet := sheetOf_eq hsass t
  have hscan : (sheetOf fileType t).scanned = scan (profileOf fileType) t := by rw [hsheet]
  have hsource : (sheetOf fileType t).toSource = id := by rw [hsheet]
  have hplain : (sheetOf fileType t).isIndented = false := by
    rw [hsheet, Sheet.isIndented]
    simpa using hsass
  rw [if_neg (by rw [hplain]; exact Bool.false_ne_true)] at honly ⊢
  generalize sheetOf fileType t = d at hmakes hscan hsource hplain
  cases hmakes with
  | run hne hrun hdecl floor selector media hpool hfills =>
    obtain ⟨lo, hi, hfills⟩ := hfills
    exact strays_run hscan hplain hsource hquotes hne hrun hdecl hfills hpool floor selector media
  | rule hblock hpool floor hdecl selector media left dangling hne =>
    obtain ⟨⟨a, b, hcut⟩, -⟩ := hblock
    have haround := around_declarations hscan hsource hquotes (allCut_inside hcut) (fills_inside hcut) hdecl
    simp only [strays, ruleEntity, Sheet.span, hsource, id, strayInEach_declarations,
      List.append_nil]
    exact haround _ _ _
  | keyframes hblock hpool floor hsteps selector media left hne =>
    obtain ⟨⟨a, b, hcut⟩, -⟩ := hblock
    have haround := around_steps hscan hsource hquotes (fills_inside hcut) hsteps
    have hinside := strayInEach_steps hscan hsource hquotes (allCut_inside hcut) hsteps _ _ left honly
    simp only [strays, keyframesEntity, bind_apply, pure_apply, Sheet.span, hsource, id, List.forall_mem_append]
    exact ⟨haround _ _ _, hinside⟩

end MemberOrder.Style
