/-
  Comments written as line comments.

  Neither sorting nor the parts of an entity depend on whether comments are written
  (`sortedTwin_withoutComments`, `entityParts_withoutComments`). If no part goes on behind itself, and every
  comment that is written has the end of its line in front of the next code, then by induction on the
  entities of a source the text with line comments has the code of the text without comments
  (`processWith_lineComments`). In a body on one line a line comment takes in the code behind it
  (`processWith_lineComments_bury`).
-/
import MemberOrder.Proofs.Comments.Reading
import MemberOrder.Proofs.Layout.Notes
import MemberOrder.Proofs.Layout.Parts
import MemberOrder.Proofs.Layout.Retyping
import MemberOrder.Proofs.Layout.Splicing

/-!
## The outlines of entities that are read

The indentation of an entity is cut from the start of a line, so it is blanks and tabs; the comments that
lead it are taken in order from the pool; and only a run of declarations has no header, which is nothing
but its body. So entities of scripts and of style sheets outside of the indented dialect are `Outlined`,
as layouts that write them anew rely on (`outlined_of_readSource`).
-/

namespace MemberOrder

open Layout Attachment

variable {s : Scanned} {fileType : FileType} {t : Text} {e : Entity}

theorem indents_indentOf (s : Scanned) (offset : Nat) : Indents (s.indentOf offset).toList := by
  unfold Scanned.indentOf
  rw [String.toList_ofList]
  intro c hc
  have := List.all_eq_true.mp List.all_takeWhile c hc
  simpa using this

theorem indents_indentOfFirst (s : Scanned) (offsets : List Nat) : Indents (s.indentOfFirst offsets).toList := by
  unfold Scanned.indentOfFirst
  split
  · exact indents_indentOf s _
  · decide

/-- Comments that lead something are in order. -/
theorem leadsInOrder_of_takeLeading {p : Profile} {pool : List Comment}
    (hpool : pool.Sublist (Scanned.scan p t).comments) {target floor : Nat}
    (h : e.leading = (takeLeading (Scanned.scan p t) target floor pool).1) : LeadsInOrder e := by
  have hsub : e.leading.Sublist (Scanned.scan p t).comments :=
    h ▸ (takeLeading_sublist _ target floor pool).trans hpool
  have horderly := orderly_scan p t
  exact ⟨horderly.ordered.sublist hsub, fun c hc => Nat.le_of_lt (horderly.nonempty c (hsub.subset hc))⟩

/-- The entities of a script. -/
theorem Script.outlined_of_read (he : e ∈ (Script.read fileType t).entities) : Outlined e := by
  refine Script.entitiesFrom_forall (P := Outlined) t fileType ?_ (t.size + 1) (Nat.le_refl 0) (Drawn.refl 0 _) e he
  intro m head closeAt floor pool hmatch hhead hclose hpool
  refine ⟨indents_indentOfFirst _ _, indents_indentOf _ _, leadsInOrder_of_takeLeading hpool rfl, fun hnil => ?_⟩
  -- the header holds the bracket of the body
  have hheader : t.cut m.start (head.openAt + 1) = "" := hnil
  have h1 := hmatch.bounds.1
  have h2 := (Script.headOf_spec hhead).1
  obtain ⟨h3, h4, -⟩ := Brackets.close?_some hclose
  rw [Scanned.size_masked] at h4
  have hlength := Text.length_slice t (a := m.start) (b := head.openAt + 1) (by omega)
  rw [Text.cut, String.ofList_eq_empty_iff] at hheader
  rw [hheader, List.length_nil] at hlength
  omega

/-- The entities of a style sheet outside of the indented dialect. -/
theorem Style.outlined_of_read (hsass : fileType ≠ .sass) (he : e ∈ (Style.read fileType t).entities) :
    Outlined e := by
  obtain ⟨e', hmakes, rfl⟩ := Style.read_makes fileType t he
  have hplain := isIndented_sheetOf hsass t
  obtain ⟨p, u, hd⟩ := Style.sheetOf_sound fileType t
  rw [hplain]
  have hleading {e : Entity} {pool : List Comment} (hpool : pool.Sublist (Style.sheetOf fileType t).scanned.comments)
      {target floor : Nat} (h : e.leading = (takeLeading (Style.sheetOf fileType t).scanned target floor pool).1) :
      LeadsInOrder e := by
    rw [hd.scanned_eq] at hpool h
    exact leadsInOrder_of_takeLeading hpool h
  have hheader {start stop openAt closeAt : Nat}
      (hblock : Style.Stands (Style.sheetOf fileType t).scanned (.block start stop openAt closeAt)) :
      (Style.sheetOf fileType t).text start (openAt + 1) ≠ "" := by
    obtain ⟨⟨a, b, hcut⟩, -⟩ := hblock
    exact hd.header_ne hcut hplain
  cases hmakes with
  | run hne hrun hdecl floor selector media hpool hfills =>
    exact ⟨indents_indentOf _ _, indents_indentOf _ _, ⟨.nil, nofun⟩, fun _ => ⟨rfl, rfl⟩⟩
  | rule hblock hpool floor hdecl selector media left dangling hne =>
    exact ⟨indents_indentOfFirst _ _, indents_indentOf _ _, hleading hpool rfl,
      fun hnil => absurd hnil (hheader hblock)⟩
  | keyframes hblock hpool floor hsteps selector media left hne =>
    exact ⟨indents_indentOfFirst _ _, indents_indentOf _ _, hleading hpool rfl,
      fun hnil => absurd hnil (hheader hblock)⟩

/-- The entities of scripts, and of style sheets outside of the indented dialect. -/
theorem outlined_of_readSource (hlanguage : fileType.language = .typescript ∨ fileType.language = .css)
    (hsass : fileType ≠ .sass) (he : e ∈ (readSource fileType t).entities) : Outlined e := by
  unfold readSource at he
  rcases hlanguage with h | h
  · rw [h] at he
    exact Script.outlined_of_read he
  · rw [h] at he
    exact Style.outlined_of_read hsass he

end MemberOrder

/-! ## Comments written as line comments -/

namespace MemberOrder

open Layout Lexeme Scanned

/-- The same options, but comments are not written. -/
def Options.withoutComments (o : Options) : Options := { o with includeComments := false }

/-! ## Sorting without comments -/

namespace Order
variable {α : Type}
theorem arrangeByVendor_withoutComments (o : Options) (view : α → Member) (items : List α) :
    arrangeByVendor o.withoutComments view items = arrangeByVendor o view items := rfl

theorem arrangeStyle_withoutComments (o : Options) (context : Option EntityKind) (view : α → Member) (items : List α) :
    arrangeStyle o.withoutComments context view items = arrangeStyle o context view items := by
  have hsteps : arrangeSteps o.withoutComments view items = arrangeSteps o view items := rfl
  have himportance (items : List α) :
      arrangeByImportance o.withoutComments view items = arrangeByImportance o view items := by
    simp only [arrangeByImportance, arrangeByVendor_withoutComments]
    rfl
  have hdecl : arrangeDeclarations o.withoutComments view items = arrangeDeclarations o view items := by
    simp only [arrangeDeclarations, himportance]
    rfl
  rw [arrangeStyle, arrangeStyle, hsteps, hdecl]
end Order

namespace Sorter
/-- Scripts and style sheets are arranged in the same way without comments. -/
theorem arrangeLevel_withoutComments {sorter : Sorter} (h : sorter = .script ∨ sorter = .style) (o : Options)
    (context : Option EntityKind) (entity : Option String) (checksNames : Bool) (items : List Nested) :
    sorter.arrangeLevel o.withoutComments context entity checksNames items =
      sorter.arrangeLevel o context entity checksNames items := by
  have harrange (items : List Nested) : sorter.arrange o.withoutComments context Prod.fst items =
      sorter.arrange o context Prod.fst items := by
    rcases h with rfl | rfl
    · rfl
    · exact Order.arrangeStyle_withoutComments o context _ items
  simp only [arrangeLevel, arrangeAround, harrange]

mutual

theorem sortInside_withoutComments {sorter : Sorter} (h : sorter = .script ∨ sorter = .style) (o : Options)
    (entity : Option String) (m : Member) :
    sorter.sortInside o.withoutComments entity m = sorter.sortInside o entity m := by
  cases m with
  | leaf i => rfl
  | group i children =>
    simp only [sortInside, arrangeLevel_withoutComments h, sortEachInside_withoutComments h o entity children]

theorem sortEachInside_withoutComments {sorter : Sorter} (h : sorter = .script ∨ sorter = .style) (o : Options)
    (entity : Option String) (ms : List Member) :
    sorter.sortEachInside o.withoutComments entity ms = sorter.sortEachInside o entity ms := by
  cases ms with
  | nil => rfl
  | cons m rest =>
    rw [sortEachInside, sortInside_withoutComments h o entity m, sortEachInside_withoutComments h o entity rest]
    rfl

end

theorem sortEntity_withoutComments {sorter : Sorter} (h : sorter = .script ∨ sorter = .style) (o : Options)
    (e : Entity) : sorter.sortEntity o.withoutComments e = sorter.sortEntity o e := by
  simp only [sortEntity, sortMembers, arrangeLevel_withoutComments h, sortEachInside_withoutComments h]
  rfl

end Sorter

theorem sorter_cases {language : Language} (h : language = .typescript ∨ language = .css) :
    Sorter.ofLanguage language = .script ∨ Sorter.ofLanguage language = .style := by
  rcases h with rfl | rfl
  · exact Or.inl rfl
  · exact Or.inr rfl

theorem sortedTwin_withoutComments {o : Options} (h : o.language = .typescript ∨ o.language = .css) (e : Entity) :
    sortedTwin o.withoutComments e = sortedTwin o e := by
  unfold sortedTwin
  rw [show o.withoutComments.language = o.language from rfl, Sorter.sortEntity_withoutComments (sorter_cases h)]

theorem sortEntities_withoutComments {o : Options} (h : o.language = .typescript ∨ o.language = .css)
    (es : List Entity) : sortEntities o.withoutComments es = sortEntities o es := by
  induction es with
  | nil => rfl
  | cons e rest ih =>
    simp only [sortEntities, ih, show o.withoutComments.language = o.language from rfl,
      Sorter.sortEntity_withoutComments (sorter_cases h)]

/-! ## Parts without comments -/

namespace Layout

section Parts

variable {o : Options} {e : Entity} {span : Span}

theorem retype_withoutComments (o : Options) (fileType : FileType) (m : Member) (width : Nat) :
    (Rules.ofFileType fileType).retype o.withoutComments m width = (Rules.ofFileType fileType).retype o m width := by
  unfold Rules.ofFileType
  cases fileType.language <;> rfl

theorem memberParts_withoutComments (o : Options) (e : Entity) (span : Span) (width : Nat) (separator : String)
    (m : Member) (inside : List (List Char)) :
    memberParts (settingOf o.withoutComments e span) width separator m inside =
      memberParts (settingOf o e span) width separator m inside := by
  have hretype : (settingOf o.withoutComments e span).rules.retype o.withoutComments m width =
      (settingOf o e span).rules.retype o m width := retype_withoutComments o o.fileType m width
  unfold memberParts
  dsimp only
  rw [show (settingOf o.withoutComments e span).options = o.withoutComments from rfl, hretype]
  rfl

theorem partsFrom_withoutComments (o : Options) (e : Entity) (span : Span) (width : Nat) (separators : List String)
    (slot : Nat) (ms : List (Member × List (List Char))) :
    partsFrom (settingOf o.withoutComments e span) width separators slot ms =
      partsFrom (settingOf o e span) width separators slot ms := by
  induction ms generalizing slot with
  | nil => rfl
  | cons m rest ih =>
    obtain ⟨m, inside⟩ := m
    rw [partsFrom, ih, memberParts_withoutComments]
    rfl

mutual

theorem partsInside_withoutComments (o : Options) (e : Entity) (span : Span) (m : Member) :
    partsInside (settingOf o.withoutComments e span) m = partsInside (settingOf o e span) m := by
  cases m with
  | leaf i => rfl
  | group i children =>
    rw [partsInside, bodyParts, partsFrom_withoutComments, partsInsideEach_withoutComments o e span children]
    rfl

theorem partsInsideEach_withoutComments (o : Options) (e : Entity) (span : Span) (ms : List Member) :
    partsInsideEach (settingOf o.withoutComments e span) ms = partsInsideEach (settingOf o e span) ms := by
  cases ms with
  | nil => rfl
  | cons m rest =>
    rw [partsInsideEach, partsInside_withoutComments o e span m, partsInsideEach_withoutComments o e span rest]
    rfl

end

theorem bodyParts_withoutComments (o : Options) (e : Entity) (span : Span) (ms : List Member) :
    bodyParts (settingOf o.withoutComments e span) (partsInsideEach (settingOf o.withoutComments e span) ms) =
      bodyParts (settingOf o e span) (partsInsideEach (settingOf o e span) ms) := by
  rw [partsInsideEach_withoutComments, bodyParts, partsFrom_withoutComments]
  rfl

/-- The parts of an entity are the same without comments. -/
theorem entityParts_withoutComments (o : Options) (e : Entity) (span body : Span) :
    entityParts (settingOf o.withoutComments e span) e body = entityParts (settingOf o e span) e body := by
  simp only [entityParts, bodyParts_withoutComments]
  rfl

theorem WholeParts.withoutComments {p : Profile} {body : Span} (h : WholeParts p (settingOf o e span) e body) :
    WholeParts p (settingOf o.withoutComments e span) e body := by
  obtain ⟨hhead, hbare, hinside, hfoot⟩ := h
  refine ⟨⟨hhead.whole, hhead.uncut⟩, fun hnil => ⟨(hbare hnil).whole, (hbare hnil).uncut⟩, fun y hy => ?_,
    ⟨hfoot.whole, hfoot.uncut⟩⟩
  rw [bodyParts_withoutComments] at hy
  exact ⟨(hinside y hy).whole, (hinside y hy).trimmed⟩

end Parts

end Layout

/-! ## Comments in their places -/

namespace Layout

section Notes

variable {p : Profile} {s : Setting} {e : Entity} {start : Nat}

mutual

theorem Member.throughout_of_forall {P : Member → Prop} (h : ∀ m, P m) (m : Member) : m.Throughout P := by
  cases m with
  | leaf i => exact h _
  | group i children => exact ⟨h _, eachThroughout_of_forall h children⟩

theorem eachThroughout_of_forall {P : Member → Prop} (h : ∀ m, P m) (ms : List Member) : EachThroughout P ms := by
  cases ms with
  | nil => trivial
  | cons m rest => exact ⟨Member.throughout_of_forall h m, eachThroughout_of_forall h rest⟩

end

/-- A member has no comments of its own. -/
def Uncommented (m : Member) : Prop :=
  m.info.comments = [] ∧ m.info.trailingComments = [] ∧ m.info.dangling = []

mutual

theorem Member.uncommented_of_attached {m : Member} (h : m.attached = []) : m.Throughout Uncommented := by
  cases m with
  | leaf i =>
    simp only [Member.attached, List.append_eq_nil_iff] at h
    exact ⟨h.1.1, h.1.2, h.2⟩
  | group i children =>
    simp only [Member.attached, List.append_eq_nil_iff] at h
    exact ⟨⟨h.1.1.1, h.1.1.2, h.1.2⟩, uncommented_of_attachedIn h.2⟩

theorem uncommented_of_attachedIn {ms : List Member} (h : attachedIn ms = []) : EachThroughout Uncommented ms := by
  cases ms with
  | nil => trivial
  | cons m rest =>
    obtain ⟨hm, hrest⟩ := List.append_eq_nil_iff.mp h
    exact ⟨Member.uncommented_of_attached hm, uncommented_of_attachedIn hrest⟩

end

theorem leadsNotes_nil {N : List Char → Prop} : LeadsNotes N s [] := by
  intro indent _ y hy
  unfold writeLeading at hy
  split at hy <;> exact absurd hy List.not_mem_nil

/-- The comments of an entity that do not lead it. -/
def commentsInside (e : Entity) : List Comment := e.dangling ++ attachedIn e.members

theorem front_of_silent (h : s.options.commentsEnabled = false) : front s e start = [] := by
  unfold front
  rw [h]
  split <;> rfl

/-- Where no comments are written in a body there are no notes. -/
theorem annotated_of_silent (hp : SpacesPlain p) (hfront : Carries p s.options (front s e start) [])
    (h : s.options.commentsEnabled = false ∨ commentsInside e = []) : Annotated p (· = []) s e start := by
  have hblank : Carries p s.options [' '] [] := Indents.carries hp (by decide)
  have hbreak : Carries p s.options ['\n'] [] := carries_spaces hp (by decide) (by decide)
  have hclosed : ∀ n : List Char, n = [] → ClosedBy p s.options (onOneLine s.options e) n := by
    rintro n rfl
    unfold ClosedBy
    split
    · exact ⟨hblank, hblank⟩
    · exact hbreak
  rcases h with h | h
  · have hleads (cs : List Comment) : LeadsNotes (· = []) s cs := by
      intro indent _ y hy
      rw [writeLeading, h] at hy
      exact absurd hy List.not_mem_nil
    have htrailing (cs : List Comment) : (writeTrailing s.rules.comments s.options cs).toList = [] := by
      rw [writeTrailing, h]
      rfl
    exact ⟨rfl, hclosed, hfront, eachThroughout_of_forall (fun m => ⟨hleads _, htrailing _, hleads _⟩) _, hleads _⟩
  · obtain ⟨hdangling, hmembers⟩ := List.append_eq_nil_iff.mp h
    refine ⟨rfl, hclosed, hfront, (uncommented_of_attachedIn hmembers).imp fun m hm => ?_,
      hdangling ▸ leadsNotes_nil⟩
    obtain ⟨hcomments, htrailing, hdangling⟩ := hm
    refine ⟨hcomments ▸ leadsNotes_nil, ?_, hdangling ▸ leadsNotes_nil⟩
    rw [htrailing, writeTrailing]
    split <;> rfl

/-- Between comments, and behind the last of them, there is nothing but white space, which breaks the line
behind the last one. -/
def BreaksBehind (s : Setting) (head : List Char) : (cursor : Nat) → List Comment → Prop
  | cursor, [] => '\n' ∈ (head.drop cursor).takeWhile Text.isSpace ∧ Uncut ((head.drop cursor).takeWhile Text.isSpace)
  | cursor, c :: rest =>
    let gap := (head.drop cursor).take (c.offset - s.excerpt.base - cursor)
    ((∀ x ∈ gap, Text.isSpace x = true) ∧ Uncut gap) ∧ BreaksBehind s head (c.stop - s.excerpt.base) rest

instance BreaksBehind.decidable (s : Setting) (head : List Char) :
    (cursor : Nat) → (cs : List Comment) → Decidable (BreaksBehind s head cursor cs)
  | _, [] => inferInstanceAs (Decidable (_ ∧ _))
  | _, c :: rest =>
    have := BreaksBehind.decidable s head (c.stop - s.excerpt.base) rest
    inferInstanceAs (Decidable (_ ∧ _))

/-- The comments that lead an entity end in front of its header. -/
def BreaksBefore (s : Setting) (e : Entity) (start : Nat) : Prop :=
  headComments s e start = [] ∨ BreaksBehind s (s.excerpt.sliceTo start) 0 (headComments s e start)

instance (s : Setting) (e : Entity) (start : Nat) : Decidable (BreaksBefore s e start) :=
  inferInstanceAs (Decidable (_ ∨ _))

/-- Line comments in front of a header carry no code, by induction on the comments: what is on the line of
a comment belongs to it. -/
theorem frontFrom_carries (hp : Slashed p) (hforms : s.rules.comments = slashForms)
    (hstyle : s.options.commentStyle = .singleLine) {indent : String} (hindent : Indents indent.toList)
    {head : List Char} {cs : List Comment} {cursor : Nat} (h : BreaksBehind s head cursor cs) {n : List Char}
    (hn : Notes n) : Carries p s.options (n ++ frontFrom s indent head cursor cs) [] := by
  have hbroken {m w : List Char} (hm : Notes m) (hw : ∀ x ∈ w, Text.isSpace x = true) (hbreak : '\n' ∈ w)
      (huncut : Uncut w) : Carries p s.options (m ++ w) [] := by
    refine ⟨hm.uncut.append huncut, fun ds => ?_⟩
    rw [endLines_append hm.uncut, List.append_assoc]
    exact hm.packedCode_append hp (endLines_spaces hw) (mem_endLines_break hbreak) ds
  induction cs generalizing cursor n with
  | nil => exact hbroken hn (fun x hx => List.all_eq_true.mp List.all_takeWhile x hx) h.1 h.2
  | cons c rest ih =>
    obtain ⟨⟨hgap, huncut⟩, hrest⟩ := h
    have hwritten : Notes (writeComment s.rules.comments s.options.commentStyle indent c).toList := by
      rw [hforms, hstyle]
      exact notes_writeComment hindent c
    rw [frontFrom, List.append_assoc, ← List.append_assoc n]
    by_cases hbreak : '\n' ∈ (head.drop cursor).take (c.offset - s.excerpt.base - cursor)
    · exact (hbroken hn hgap hbreak huncut).append (ih hrest hwritten)
    · rw [← List.append_assoc]
      exact ih hrest ((hn.append (notes_of_spaces hgap huncut hbreak)).append hwritten)

theorem front_carries (hp : Slashed p) (hforms : s.rules.comments = slashForms)
    (hstyle : s.options.commentStyle = .singleLine) (houtlined : Outlined e) (h : BreaksBefore s e start) :
    Carries p s.options (front s e start) [] := by
  unfold front
  split
  · exact carries_nil
  · rename_i c rest hcs
    split
    · have hbreaks := h.resolve_left (by rw [hcs]; exact List.cons_ne_nil _ _)
      rw [hcs] at hbreaks
      exact frontFrom_carries hp hforms hstyle houtlined.baseIndent hbreaks .nil
    · exact carries_nil

/-- Where members are on lines of their own, comments are line comments that end with their lines. -/
theorem annotated_of_lines (hp : Slashed p) (hforms : s.rules.comments = slashForms)
    (hstyle : s.options.commentStyle = .singleLine) (hfront : Carries p s.options (front s e start) [])
    (hlines : onOneLine s.options e = false) : Annotated p Notes s e start := by
  have hleads (cs : List Comment) : LeadsNotes Notes s cs := by
    intro indent hindent y hy
    rw [writeLeading, hforms, hstyle] at hy
    split at hy
    · obtain ⟨c, -, rfl⟩ := List.mem_map.mp hy
      exact notes_writeComment hindent c
    · exact absurd hy List.not_mem_nil
  have htrailing (cs : List Comment) : Notes (writeTrailing s.rules.comments s.options cs).toList := by
    rw [hforms]
    exact notes_writeTrailing hstyle cs
  refine ⟨.nil, fun n hn => ?_, hfront, eachThroughout_of_forall (fun m => ⟨hleads _, htrailing _, hleads _⟩) _,
    hleads _⟩
  rw [ClosedBy, hlines]
  exact hn.carries hp

end Notes

end Layout

/-! ## Sources -/

/-- The line comments of an entity, in front of the text `gap`, end in front of code: those that lead it in
front of its header; and if there are comments in its body, its members are on lines of their own, and a line
break follows the entity if it has no header. -/
def LeavesRoom (s : Setting) (e : Entity) (start : Nat) (gap : List Char) : Prop :=
  BreaksBefore s e start ∧ (commentsInside e = [] ∨
    onOneLine s.options e = false ∧ (e.header = "" → '\n' ∈ gap.takeWhile Text.isSpace))

instance (s : Setting) (e : Entity) (start : Nat) (gap : List Char) : Decidable (LeavesRoom s e start gap) :=
  inferInstanceAs (Decidable (_ ∧ (_ ∨ _ ∧ (_ → _))))

/-- The parts of an entity are whole, and its line comments end in front of code. -/
def Roomy (p : Profile) (o : Options) (e : Entity) (gap : List Char) : Prop :=
  match e.span, e.body with
  | some span, some body =>
    WholeParts p (settingOf o e span) e body ∧ LeavesRoom (settingOf o e span) e body.start gap
  | _, _ => False

theorem Roomy.spec {p : Profile} {o : Options} {e : Entity} {gap : List Char} (h : Roomy p o e gap) {span body : Span}
    (hspan : e.span = some span) (hbody : e.body = some body) :
    WholeParts p (settingOf o e span) e body ∧ LeavesRoom (settingOf o e span) e body.start gap := by
  rwa [Roomy, hspan, hbody] at h

instance (p : Profile) (o : Options) (e : Entity) (gap : List Char) : Decidable (Roomy p o e gap) := by
  unfold Roomy
  split
  · exact inferInstanceAs (Decidable (_ ∧ _))
  · exact inferInstanceAs (Decidable False)

/-- The text behind the span of an entity, up to the next one. -/
def gapBehind (text : List Char) (stop : Nat) : List (Entity × Span) → List Char
  | [] => text.drop stop
  | (_, next) :: _ => (text.drop stop).take (next.start - stop)

/-- From `lo` on, no text in front of an entity goes on into it, and what is written over the entities is
roomy. -/
def AllRoomy (p : Profile) (o : Options) (twin : Entity → Entity) (text : List Char) :
    (lo : Nat) → List (Entity × Span) → Prop
  | _, [] => True
  | lo, (e, span) :: rest =>
    (Sealed p ((text.drop lo).take (span.start - lo)) ∧ Roomy p o (twin e) (gapBehind text span.stop rest)) ∧
      AllRoomy p o twin text span.stop rest

instance AllRoomy.decidable (p : Profile) (o : Options) (twin : Entity → Entity) (text : List Char) :
    (lo : Nat) → (xs : List (Entity × Span)) → Decidable (AllRoomy p o twin text lo xs)
  | _, [] => isTrue trivial
  | _, (_, span) :: rest =>
    have := AllRoomy.decidable p o twin text span.stop rest
    inferInstanceAs (Decidable (_ ∧ _))

section Sources

variable {p : Profile} {o : Options}

/-- The dialects in which a line comment can be written, but for the indented one. -/
def hasLineComments (fileType : FileType) : Bool :=
  match fileType with
  | .typescript | .javascript | .scss | .less => true
  | _ => false

theorem hasLineComments_cases {fileType : FileType} (h : hasLineComments fileType = true) :
    (fileType.language = .typescript ∨ fileType.language = .css) ∧ fileType ≠ .sass ∧
      (Rules.ofFileType fileType).comments = slashForms ∧ Slashed (profileOf fileType) := by
  have hscript : Slashed .typescript := ⟨rfl, by decide, by unfold SpacesPlain; decide⟩
  have hstyle : Slashed .scss := ⟨rfl, by decide, by unfold SpacesPlain; decide⟩
  cases fileType with
  | typescript => exact ⟨Or.inl rfl, nofun, rfl, hscript⟩
  | javascript => exact ⟨Or.inl rfl, nofun, rfl, hscript⟩
  | scss => exact ⟨Or.inr rfl, nofun, rfl, hstyle⟩
  | less => exact ⟨Or.inr rfl, nofun, rfl, hstyle⟩
  | _ => cases h

/-- In front of its gap, an entity is read as the same code with line comments and without comments. -/
theorem rendering_reads_alike (hfile : hasLineComments o.fileType = true) (hstyle : o.commentStyle = .singleLine)
    {width : Int} (hwidth : o.indentationSize = .blanks width) {t : Text} {e : Entity}
    (he : e ∈ (readSource o.fileType t).entities) {gap : List Char}
    (hroomy : Roomy (profileOf o.fileType) o (sortedTwin o e) gap) :
    ∃ code, ∀ more,
      packedCode (profileOf o.fileType) ((rendering o (sortedTwin o e)).toList ++ (gap ++ more)) =
        code ++ packedCode (profileOf o.fileType) (gap ++ more) ∧
      packedCode (profileOf o.fileType) ((rendering o.withoutComments (sortedTwin o e)).toList ++ (gap ++ more)) =
        code ++ packedCode (profileOf o.fileType) (gap ++ more) := by
  obtain ⟨hlanguage, hsass, hforms, hp⟩ := hasLineComments_cases hfile
  have hyaml : o.fileType.language ≠ .yaml := by rcases hlanguage with h | h <;> rw [h] <;> decide
  obtain ⟨a, b, hlaid, -, hb⟩ := (readSource_chain hyaml t).of_mem (fun _ _ _ he => he.le) he
  have houtlined := outlined_of_readSource hlanguage hsass he
  have htwin := sortedTwin_eq o e
  have hms := sortedTwin_rearranged o e
  rw [htwin] at hroomy ⊢
  generalize (sortedTwin o e).members = ms at hms hroomy ⊢
  obtain ⟨span, hspan, -⟩ := hlaid.span_eq
  obtain ⟨body, hbody, -⟩ := hlaid.members
  obtain ⟨hwhole, hbefore, hroom⟩ := hroomy.spec hspan hbody
  have hoff : (settingOf o.withoutComments e span).options.commentsEnabled = false := rfl
  refine ⟨partsCode (profileOf o.fileType) o (entityParts (settingOf o e span) { e with members := ms } body),
    fun more => ⟨?_, ?_⟩⟩
  · have hlayout : o.asksForLayout = true := by
      rw [Options.asksForLayout, hstyle]
      simp
    have hfront := front_carries hp hforms hstyle
      (e := { e with members := ms }) ⟨houtlined.1, houtlined.2, houtlined.3, houtlined.4⟩ hbefore
    rcases hroom with hsilent | ⟨hlines, hgap⟩
    · obtain ⟨text, htext, hreads⟩ := writeEntity_reads hp.spaces hyaml hsass hlayout hwidth hlaid hb houtlined
        hspan hbody hms hwhole (annotated_of_silent hp.spaces hfront (Or.inr hsilent))
      rw [rendering, htext]
      exact hreads _ fun _ n hn => by rw [hn, carries_nil.reads]; rfl
    · obtain ⟨text, htext, hreads⟩ := writeEntity_reads hp.spaces hyaml hsass hlayout hwidth hlaid hb houtlined
        hspan hbody hms hwhole (annotated_of_lines hp hforms hstyle hfront hlines)
      rw [rendering, htext]
      refine hreads _ fun hheader n hn => ?_
      -- the white space behind the entity breaks the line of its last comment
      have hspaces : ∀ c ∈ gap.takeWhile Text.isSpace, Text.isSpace c = true :=
        fun c hc => List.all_eq_true.mp List.all_takeWhile c hc
      have hgap' := hgap hheader
      rw [← List.takeWhile_append_dropWhile (p := Text.isSpace) (l := gap), List.append_assoc,
        hn.packedCode_append hp hspaces hgap', packedCode_spaces hp.spaces hspaces]
  · have hlayout : o.withoutComments.asksForLayout = true := by
      simp [Options.asksForLayout, Options.withoutComments, Options.commentsEnabled]
    obtain ⟨text, htext, hreads⟩ := writeEntity_reads (o := o.withoutComments) hp.spaces hyaml hsass hlayout hwidth
      hlaid hb houtlined hspan hbody hms hwhole.withoutComments
      (annotated_of_silent hp.spaces (by rw [front_of_silent hoff]; exact carries_nil) (Or.inl hoff))
    have hparts := entityParts_withoutComments o { e with members := ms } span body
    rw [rendering, htext]
    refine (hreads _ fun _ n hn => by rw [hn, carries_nil.reads]; rfl).trans ?_
    exact congrArg (fun parts => partsCode (profileOf o.fileType) o parts ++ _) hparts

/-- Entities that are written over are read as the same code with line comments and without comments, by
induction on the entities. -/
theorem overwrite_reads_alike (hfile : hasLineComments o.fileType = true) (hstyle : o.commentStyle = .singleLine)
    {width : Int} (hwidth : o.indentationSize = .blanks width) {t : Text} {twin : Entity → Entity}
    {text : List Char} {xs : List (Entity × Span)}
    (hxs : ∀ x ∈ xs, ∃ e ∈ (readSource o.fileType t).entities, twin x.1 = sortedTwin o e) {lo : Nat}
    (hroomy : AllRoomy (profileOf o.fileType) o twin text lo xs) :
    packedCode (profileOf o.fileType) (overwrite text lo (xs.map fun x => (x.2, rendering o (twin x.1)))) =
      packedCode (profileOf o.fileType)
        (overwrite text lo (xs.map fun x => (x.2, rendering o.withoutComments (twin x.1)))) := by
  induction xs generalizing lo with
  | nil => rfl
  | cons x rest ih =>
    obtain ⟨e, span⟩ := x
    obtain ⟨⟨hsealed, hself⟩, hrest⟩ := hroomy
    obtain ⟨⟨e', he', htwin⟩, hmore⟩ := List.forall_mem_cons.mp hxs
    rw [htwin] at hself
    obtain ⟨code, hreads⟩ := rendering_reads_alike hfile hstyle hwidth he' hself
    have ih := ih hmore hrest
    -- what follows the entity starts with its gap
    have hgap (r : Entity → String) : ∃ after,
        overwrite text span.stop (rest.map fun x => (x.2, r x.1)) = gapBehind text span.stop rest ++ after := by
      cases rest with
      | nil => exact ⟨[], (List.append_nil _).symm⟩
      | cons y more => exact ⟨_, List.append_assoc _ _ _⟩
    obtain ⟨after, hafter⟩ := hgap fun e => rendering o (twin e)
    obtain ⟨after', hafter'⟩ := hgap fun e => rendering o.withoutComments (twin e)
    rw [hafter, hafter'] at ih
    simp only [List.map_cons, overwrite, List.append_assoc]
    rw [hafter, hafter', packedCode_append (hsealed.anywhere _), packedCode_append (hsealed.anywhere _), htwin,
      (hreads after).1, (hreads after').2, ih]

/-- Line comments keep the code of a text that is written without comments, if the parts of its entities are
whole and the comments end in front of code. -/
theorem processWith_lineComments (o : Options) (hfile : hasLineComments o.fileType = true)
    (hstyle : o.commentStyle = .singleLine) {width : Int} (hwidth : o.indentationSize = .blanks width)
    (source : String)
    (hroomy : AllRoomy (profileOf o.fileType) o
      (fun e => sortedTwin o (lastNamesake (readSource o.fileType (Text.ofString source)).entities e))
      source.toList 0 (located (readSource o.fileType (Text.ofString source)).entities)) :
    (processWith o source).processedText.map (fun out => packedCode (profileOf o.fileType) out.toList) =
      (processWith o.withoutComments source).processedText.map
        (fun out => packedCode (profileOf o.fileType) out.toList) := by
  obtain ⟨hlanguage, -, -, -⟩ := hasLineComments_cases hfile
  have hyaml : o.fileType.language ≠ .yaml := by rcases hlanguage with h | h <;> rw [h] <;> decide
  let es := (readSource o.fileType (Text.ofString source)).entities
  have hsorted : sortEntities o.withoutComments es = sortEntities o es := sortEntities_withoutComments hlanguage es
  cases hchanges : hasChanges es (sortEntities o es).1 with
  | false =>
    -- neither run writes anything
    have hsame : (processWith o.withoutComments source).processedText = (processWith o source).processedText := by
      simp only [processWith, show readSource o.withoutComments.fileType (Text.ofString source) =
        readSource o.fileType (Text.ofString source) from rfl]
      simp only [es] at hsorted hchanges
      simp only [hsorted, hchanges, Bool.false_eq_true, if_false]
      rfl
    rw [hsame]
  | true =>
    have hchanges' : hasChanges es (sortEntities o.withoutComments es).1 = true := by rw [hsorted, hchanges]
    rw [(processWith_overwrites o hyaml source hchanges).1,
      (processWith_overwrites o.withoutComments hyaml source hchanges').1]
    simp only [Option.map_some, String.toList_ofList]
    refine congrArg some ((overwrite_reads_alike (t := Text.ofString source) hfile hstyle hwidth (fun x hx => ?_)
      hroomy).trans ?_)
    · obtain ⟨e, he, hspan⟩ := List.mem_filterMap.mp hx
      obtain ⟨span, -, rfl⟩ := Option.map_eq_some_iff.mp hspan
      exact ⟨_, lastNamesake_mem he, rfl⟩
    · simp only [sortedTwin_withoutComments hlanguage]
      rfl

/-- A layout with line comments. -/
def lineComments : Options := { commentStyle := .singleLine }

/-- An interface under two comments, with a comment behind a member. -/
def commentsOnOwnLines : String := "// one\n// two\ninterface A \x7b\n  b: string; /* c */\n  a: number;\n\x7d\n"

/-- Its block comment becomes a line comment, and its code is the one that is written without comments. -/
theorem processWith_lineComments_own_lines :
    (processWith lineComments commentsOnOwnLines).processedText =
      some "// one\n// two\ninterface A \x7b\n  a: number;\n  b: string; // c\n\x7d\n" ∧
    (processWith lineComments commentsOnOwnLines).processedText.map
        (fun out => packedCode (profileOf lineComments.fileType) out.toList) =
      (processWith lineComments.withoutComments commentsOnOwnLines).processedText.map
        (fun out => packedCode (profileOf lineComments.fileType) out.toList) := by
  -- the run and the condition are decided together, from one reading of the source
  refine And.imp_right (processWith_lineComments lineComments rfl rfl rfl commentsOnOwnLines) ?_
  decide +kernel

/-- An interface on one line, with a comment between its members. -/
def commentedInline : String := "interface A \x7b b: string; /* c */ a: number \x7d"

/-- On one line the comment takes the footer in. -/
theorem processWith_lineComments_bury :
    (processWith lineComments commentedInline).processedText =
      some "interface A \x7b a: number; b: string // c \x7d" ∧
    (processWith lineComments.withoutComments commentedInline).processedText =
      some "interface A \x7b a: number; b: string \x7d" ∧
    packedCode .typescript "interface A \x7b a: number; b: string // c \x7d".toList ≠
      packedCode .typescript "interface A \x7b a: number; b: string \x7d".toList := by
  decide +kernel

end Sources

end MemberOrder
