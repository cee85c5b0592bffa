/-
  A sorted document is written as what it stands for.

  Reading a document gives one entity and no error. The entity is a container between blanks; its
  members were read from the piece of the source that it covers, and they stand for the entries of the
  document (`Document.readRoot`).

  Line breaks stand between tokens only, so writing them in another way does not change what a text
  spells (`Spells.withLineEnding`). The root entity of a document (`ReadRoot`), with its members
  rearranged, is written as a text that spells the entry the members stand for, whether they are dealt
  into their places or written anew (`ReadRoot.write_spells`).
-/
import MemberOrder.Proofs.Json.Reading
import MemberOrder.Proofs.Json.Retyping
import MemberOrder.Proofs.Layout.Rendering

namespace MemberOrder.Json

open Layout

/-! ## The root of a document -/

/-- The piece of a source that an entity was read from. -/
def excerptOf (e : Entity) (span : Span) : Excerpt := ⟨Text.ofString e.sourceText, span.start⟩

/-- The entity of a document: a container between blanks, whose members were read from it. -/
structure ReadRoot (trailing isObject : Bool) (t : Text) (e : Entity) (span body : Span) : Prop where
  span_eq : e.span = some span
  body_eq : e.body = some body
  le : span.start ≤ span.stop
  inside : span.stop ≤ t.size
  source_eq : e.sourceText = t.cut span.start span.stop
  before : Blank (t.slice 0 span.start)
  after : Blank (t.slice span.stop t.size)
  kind_eq : e.kind = if isObject then .jsonObject else .jsonArray
  headed : e.header.isEmpty = false
  leading_eq : e.leading = []
  dangling_eq : e.dangling = []
  indent_blank : Blank e.indent.toList
  baseIndent_blank : Blank e.baseIndent.toList
  opens : (excerptOf e span).slice span.start body.start = [opener isObject]
  closes : (excerptOf e span).slice body.stop span.stop = [closer isObject]
  row : InRow (excerptOf e span) trailing body.start body.stop e.members
  members : ∀ m ∈ e.members, Read (excerptOf e span) trailing isObject m
  spelled : Spells trailing false (.container [] isObject (e.members.map (Member.entry isObject)))
    (t.slice span.start span.stop)
  laid : LaidFrom (SeparatorPlaced t) t body.stop body.start e.members

/-- The piece that an entity was read from shows the source. -/
theorem shows_excerptOf {t : Text} {e : Entity} {span : Span}
    (h : e.sourceText = t.cut span.start span.stop) :
    Shows (excerptOf e span) t span.start span.stop := by
  intro a b ha hb
  have htext : Text.ofString e.sourceText = (t.slice span.start span.stop).toArray := by
    rw [h, Text.ofString, Text.cut, String.toList_ofList]
  rw [Excerpt.slice, excerptOf, htext]
  exact Text.slice_slice t ha hb

theorem blank_indentOf (s : Scanned) (offset : Nat) : Blank (s.indentOf offset).toList := by
  intro c hc
  rw [Scanned.indentOf, String.toList_ofList] at hc
  have hindent := List.all_eq_true.mp List.all_takeWhile c hc
  simp only [Bool.or_eq_true, beq_iff_eq] at hindent
  rcases hindent with rfl | rfl <;> decide

theorem blank_indentOfFirst (s : Scanned) (offsets : List Nat) :
    Blank (s.indentOfFirst offsets).toList := by
  unfold Scanned.indentOfFirst
  split
  · exact blank_indentOf s _
  · exact blank_nil

/-- A document is read as one entity whose members stand for its entries. -/
theorem Document.readRoot {trailing isObject : Bool} {es : List Entry} {t : Text}
    (h : Document trailing (.container [] isObject es) t.toList) (fileType : FileType) :
    ∃ e span body, Json.read fileType t = { entities := [e] } ∧
      ReadRoot trailing isObject t e span body ∧ e.members.map (Member.entry isObject) = es := by
  obtain ⟨tree, hdocument, hopen, hcomments, hle, hsize, hbefore, hafter, hread, hentry⟩ := h.read
  let s := Scanned.scan .json t
  let e := rootEntity s fileType tree
  have hreading : Json.read fileType t = { entities := [e] } := by
    unfold Json.read
    simp only [hdocument]
    rfl
  have hchain := read_chain fileType t
  rw [hreading] at hchain
  obtain ⟨i, j, hlaid, -, -⟩ := hchain.of_mem (fun _ _ _ h => h.le) List.mem_cons_self
  have hmembers : e.members = tree.members s := by
    show (containerMembers s tree s.comments).1.1 = _
    rw [show s.comments = [] from hcomments]
    rfl
  have hdangling : e.dangling = [] := by
    show (containerMembers s tree s.comments).1.2 = _
    rw [show s.comments = [] from hcomments, containerMembers_nil]
  have hbrace : s.masked.hasAt tree.start '{' = isObject := by
    rw [Text.hasAt, Text.testAt_of_getElem? hopen]
    cases isObject <;> rfl
  have hkind : e.kind = if isObject then .jsonObject else .jsonArray := by
    show (if s.masked.hasAt tree.start '{' = true then _ else _) = _
    rw [hbrace]
  have hheader : e.header.isEmpty = false := by
    show (if s.masked.hasAt tree.start '{' = true then "\x7b" else "[").isEmpty = false
    split <;> rfl
  cases tree with
  | scalar a b => cases hentry
  | container nested a b slots =>
    have hcut : e.sourceText = t.cut (s.span a b).start (s.span a b).stop := rfl
    have hshows : Shows (excerptOf e (s.span a b)) t a b := shows_excerptOf hcut
    have hroot : Read (excerptOf e (s.span a b)) trailing false
        (.group (memberInfo s false 0 ⟨a, a, none⟩ (.container nested a b slots) [] [] [])
          ((Tree.container nested a b slots).members s)) := hread _ hshows
    have hentry : (Member.group (memberInfo s false 0 ⟨a, a, none⟩ (.container nested a b slots)
        [] [] []) ((Tree.container nested a b slots).members s)).entry false =
        .container [] isObject es := hentry
    obtain ⟨body, hbody, -, -, hlaidFrom⟩ := hlaid.members
    obtain rfl : s.span (a + 1) (b - 1) = body := Option.some.inj hbody
    obtain ⟨span, unit, label, value, hrecorded, hspelled⟩ := hroot.recorded
    have hspelled := hspelled label hrecorded.label_key
    obtain rfl : s.span a b = span := Option.some.inj hrecorded.span_eq
    have hslice : (excerptOf e (s.span a b)).slice (s.span a b).start (s.span a b).stop =
        t.slice a b := hshows a b (Nat.le_refl a) (Nat.le_refl b)
    rw [← hrecorded.text_eq, hslice, hentry] at hspelled
    cases hroot with
    | group isObject' hrecorded' hnested hcontainer hbody' hopens hcloses _ hrow hchildren =>
      rw [entry_group hcontainer] at hentry
      injection hentry with _ hisObject hes
      subst hisObject
      have hlabel := hrecorded'.label_key
      cases hlabel
      obtain rfl := Option.some.inj (show some (s.span (a + 1) (b - 1)) = some _ from hbody')
      obtain rfl := Option.some.inj (show some (s.span a b) = some _ from hrecorded'.span_eq)
      rw [← hmembers] at hrow hchildren hes
      refine ⟨e, s.span a b, s.span (a + 1) (b - 1), hreading, ?_, hes⟩
      exact {
        span_eq := rfl
        body_eq := rfl
        le := hle
        inside := hsize
        source_eq := rfl
        before := hbefore
        after := hafter
        kind_eq := hkind
        headed := hheader
        leading_eq := rfl
        dangling_eq := hdangling
        indent_blank := blank_indentOfFirst s _
        baseIndent_blank := blank_indentOf s _
        opens := hopens
        closes := hcloses
        row := hrow
        members := hchildren
        spelled := by rw [hes]; exact hspelled
        laid := hlaidFrom.imp fun _ h => h.1.1 }

/-! ## Line endings -/

/-- A text without line breaks. -/
def Unbroken (cs : List Char) : Prop := ∀ c ∈ cs, c ≠ '\r' ∧ c ≠ '\n'

theorem Unbroken.withLineEnding {cs : List Char} (h : Unbroken cs) (ending : List Char) :
    withLineEnding ending cs = cs := by
  induction cs with
  | nil => rfl
  | cons c rest ih =>
    obtain ⟨h1, h2⟩ := h c List.mem_cons_self
    rw [withLineEnding.eq_3 _ _ _ fun rest' hr _ => h1 hr, ih fun d hd => h d
      (List.mem_cons_of_mem c hd)]
    simp [h2]

/-- What has no line breaks is kept, whatever follows it. -/
theorem Unbroken.append {cs : List Char} (h : Unbroken cs) (ending rest : List Char) :
    Layout.withLineEnding ending (cs ++ rest) = cs ++ Layout.withLineEnding ending rest := by
  rw [withLineEnding_append ending cs, h.withLineEnding]
  refine Or.inl fun hlast => ?_
  exact (h '\r' (List.mem_of_getLast? hlast)).1 rfl

theorem Unbroken.cons_append {c : Char} (h : c ≠ '\r' ∧ c ≠ '\n') (ending rest : List Char) :
    Layout.withLineEnding ending (c :: rest) = c :: Layout.withLineEnding ending rest := by
  have hone : Unbroken [c] := fun _ hd => List.mem_singleton.mp hd ▸ h
  exact hone.append ending rest

theorem Solid.head?_ne {cs : List Char} (h : Solid cs) (rest : List Char) :
    (cs ++ rest).head? ≠ some '\n' := by
  obtain ⟨c, -, hhead, -, hc, -⟩ := h
  rw [List.head?_append, hhead]
  rintro ⟨⟩
  exact absurd hc (by decide)

theorem Solid.getLast?_ne {cs : List Char} (h : Solid cs) : cs.getLast? ≠ some '\r' := by
  obtain ⟨-, d, -, hlast, -, hd⟩ := h
  rw [hlast]
  rintro ⟨⟩
  exact absurd hd (by decide)

theorem Inside.unbroken {cs : List Char} (h : Inside cs) : Unbroken cs := by
  intro c hc
  have hcontrol := h.control c hc
  constructor
  · rintro rfl
    exact absurd hcontrol (by decide)
  · rintro rfl
    exact absurd hcontrol (by decide)

theorem unbroken_quoted {inside : List Char} (h : Inside inside) :
    Unbroken ('"' :: inside ++ ['"']) := by
  intro c hc
  rcases List.mem_append.mp hc with hc | hc
  · rcases List.mem_cons.mp hc with rfl | hc
    · decide
    · exact h.unbroken c hc
  · rw [List.mem_singleton.mp hc]
    decide

theorem Scalar.unbroken {cs : List Char} (h : Scalar cs) : Unbroken cs := by
  obtain ⟨inside, hinside, rfl⟩ | hbare := h.cases_bare
  · exact unbroken_quoted hinside
  · have hall : ∀ c ∈ bareChars, c ≠ '\r' ∧ c ≠ '\n' := by decide
    exact fun c hc => hall c (hbare.2 c hc)

section Ending

variable {ending : List Char} (hending : Blank ending)

include hending

theorem Blank.withLineEnding {a : List Char} (ha : Blank a) :
    Blank (Layout.withLineEnding ending a) := by
  intro c hc
  rcases mem_withLineEnding a hc with hc | hc
  · exact hending c hc
  · exact ha c hc

/-- Line breaks of a label stand around its colon. -/
theorem Label.withLineEnding {inObject : Bool} {key label : List Char} (h : Label inObject key label)
    {text : List Char} (htext : Solid text) :
    ∃ label', Label inObject key label' ∧ Layout.withLineEnding ending (label ++ text) =
      label' ++ Layout.withLineEnding ending text := by
  cases h with
  | element => exact ⟨[], .element, rfl⟩
  | member hkey ha hb =>
    rename_i a b
    refine ⟨_, .member hkey (Blank.withLineEnding hending ha) (Blank.withLineEnding hending hb), ?_⟩
    have hassoc : '"' :: key ++ '"' :: a ++ ':' :: b ++ text =
        ('"' :: key ++ ['"']) ++ (a ++ (':' :: (b ++ text))) := by simp
    have hhead : text.head? ≠ some '\n' := by
      have := htext.head?_ne []
      rwa [List.append_nil] at this
    rw [hassoc, (unbroken_quoted hkey).append, withLineEnding_append ending a (Or.inr (by simp)),
      Unbroken.cons_append (by decide), withLineEnding_append ending b (Or.inr hhead)]
    simp

/-- Line breaks of a row stand around its items or inside them. -/
theorem Row.withLineEnding {trailing : Bool} {texts : List (List Char)} {body : List Char}
    (h : Row trailing texts body) (htexts : ∀ text ∈ texts, Solid text) :
    Row trailing (texts.map (Layout.withLineEnding ending)) (Layout.withLineEnding ending body) := by
  induction h with
  | nil ha => exact .nil (Blank.withLineEnding hending ha)
  | last ha hb =>
    rename_i a x b
    have hx := htexts x List.mem_cons_self
    rw [withLineEnding_append ending a (Or.inr (hx.head?_ne b)),
      withLineEnding_append ending x (Or.inl hx.getLast?_ne)]
    exact .last (Blank.withLineEnding hending ha) (Blank.withLineEnding hending hb)
  | cons ha hb hxs _ ih =>
    rename_i a x b body xs hrow
    have hx := htexts x List.mem_cons_self
    rw [withLineEnding_append ending a (Or.inr (hx.head?_ne _)),
      withLineEnding_append ending x (Or.inl hx.getLast?_ne),
      withLineEnding_append ending b (Or.inr (by simp)), Unbroken.cons_append (by decide)]
    refine .cons (Blank.withLineEnding hending ha) (Blank.withLineEnding hending hb)
      (hxs.imp_right fun hne hnil => hne (List.map_eq_nil_iff.mp hnil))
      (ih fun text htext => htexts text (List.mem_cons_of_mem _ htext))

/-- Other line endings do not change what a text spells. -/
theorem Spells.withLineEnding {trailing inObject : Bool} {e : Entry} {cs : List Char}
    (h : Spells trailing inObject e cs) :
    Spells trailing inObject e (Layout.withLineEnding ending cs) := by
  induction h with
  | scalar hlabel htext =>
    obtain ⟨label', hlabel', heq⟩ := Label.withLineEnding hending hlabel htext.solid
    rw [heq, htext.unbroken.withLineEnding]
    exact .scalar hlabel' htext
  | container isObject items hlabel hitems hbody ih =>
    rename_i inObject key label body
    obtain ⟨label', hlabel', heq⟩ := Label.withLineEnding hending hlabel
      (solid_bracketed isObject body)
    have hopen : opener isObject ≠ '\r' ∧ opener isObject ≠ '\n' := by cases isObject <;> decide
    have hclose : closer isObject ≠ '\r' ∧ closer isObject ≠ '\n' := by cases isObject <;> decide
    have hinner : Layout.withLineEnding ending (opener isObject :: body ++ [closer isObject]) =
        opener isObject :: Layout.withLineEnding ending body ++ [closer isObject] := by
      rw [List.cons_append, Unbroken.cons_append hopen,
        withLineEnding_append ending body (Or.inr (by simpa using hclose.2)),
        Unbroken.cons_append hclose]
      rfl
    have hrow := Row.withLineEnding hending hbody fun text htext => by
      obtain ⟨item, hitem, rfl⟩ := List.mem_map.mp htext
      exact (hitems item hitem).solid
    rw [List.map_map] at hrow
    have hentries : items.map (·.1) =
        (items.map fun x => (x.1, Layout.withLineEnding ending x.2)).map (·.1) := by
      rw [List.map_map]
      rfl
    rw [heq, hinner, hentries]
    refine .container isObject _ hlabel' ?_ ?_
    · intro item hitem
      obtain ⟨x, hx, rfl⟩ := List.mem_map.mp hitem
      exact ih x hx
    · rw [List.map_map]
      exact hrow

end Ending

theorem Spells.withOptionsEnding {trailing inObject : Bool} {e : Entry} {cs : List Char}
    (h : Spells trailing inObject e cs) (o : Options) (source : List Char) :
    Spells trailing inObject e (withOptionsEnding o source cs) := by
  have hfeed : Blank ['\n'] := by
    intro c hc
    rw [List.mem_singleton.mp hc]
    decide
  have hpair : Blank ['\r', '\n'] := by
    intro c hc
    rcases List.mem_cons.mp hc with rfl | hc
    · decide
    · exact hfeed c hc
  unfold Layout.withOptionsEnding lineEndingFor
  cases o.lineEnding with
  | auto => exact h
  | lf => exact h.withLineEnding hfeed
  | crlf => exact h.withLineEnding hpair

/-! ## The root -/

theorem sliceTo_excerptOf (e : Entity) (span : Span) (stop : Nat) :
    (excerptOf e span).sliceTo stop = (excerptOf e span).slice span.start stop := by
  simp only [Excerpt.sliceTo, Excerpt.slice, excerptOf, Nat.sub_self]

section Write

variable {isObject : Bool} {t : Text} {e : Entity} {span body : Span} {ms : List Member}

theorem ReadRoot.source_toList (h : ReadRoot false isObject t e span body) :
    e.sourceText.toList = t.slice span.start span.stop := by
  rw [h.source_eq, Text.cut, String.toList_ofList]

theorem ReadRoot.sliceFrom (h : ReadRoot false isObject t e span body) (start : Nat) :
    (excerptOf e span).sliceFrom start = (excerptOf e span).slice start span.stop := by
  have hsize : (Text.ofString e.sourceText).size = span.stop - span.start := by
    rw [Text.ofString, List.size_toArray, h.source_toList, Text.length_slice t h.inside]
  simp only [Excerpt.sliceFrom, Excerpt.slice, excerptOf, hsize]

/-- A row between the brackets of the root. -/
theorem ReadRoot.spells_row (h : ReadRoot false isObject t e span body) {trailing : Bool}
    {items : List (Entry × List Char)}
    (hitems : ∀ item ∈ items, Spells trailing isObject item.1 item.2) {inner : List Char}
    (hrow : Row trailing (items.map (·.2)) inner) :
    Spells trailing false (.container [] isObject (items.map (·.1)))
      ((excerptOf e span).sliceTo body.start ++ inner ++ (excerptOf e span).sliceFrom body.stop) := by
  have htext : (excerptOf e span).sliceTo body.start ++ inner ++
      (excerptOf e span).sliceFrom body.stop =
      [] ++ (opener isObject :: inner ++ [closer isObject]) := by
    rw [sliceTo_excerptOf, h.opens, h.sliceFrom, h.closes]
    rfl
  rw [htext]
  exact .container isObject items .element hitems hrow

/-- Members dealt into their places. -/
theorem ReadRoot.dealt_spells (h : ReadRoot false isObject t e span body) {s : Setting}
    (hs : s.rules = Rules.json) (hx : s.excerpt = excerptOf e span) (hr : Rearranged e.members ms)
    (hne : ms ≠ []) :
    Spells (addsComma s.options) false (.container [] isObject (ms.map (Member.entry isObject)))
      (dealtEntity s body ms) := by
  have hread : ∀ m ∈ e.members, Read s.excerpt false isObject m := by
    rw [hx]
    exact h.members
  let items := ms.map fun m => (m.entry isObject, memberText s m)
  have hitems : ∀ item ∈ items, Spells (addsComma s.options) isObject item.1 item.2 := by
    intro item hitem
    obtain ⟨m, hm, rfl⟩ := List.mem_map.mp hitem
    obtain ⟨n, hn, hnm⟩ := exists_rearranged hr hm
    exact (hread n hn).memberText_spells hs (h.laid.of_mem hn).1 hnm
  have hrow : Row (addsComma s.options) (items.map (·.2)) (dealt s body (memberTexts s ms)) := by
    rw [List.map_map]
    exact dealt_row hs hread (hx ▸ h.row) h.laid hr hne
  have hspells := h.spells_row hitems hrow
  rw [List.map_map] at hspells
  simp only [dealtEntity, bounds_eq h.laid hr, hx]
  exact hspells

/-- A level of indentation is blank. -/
theorem indentUnit_blank {o : Options} {width : Int} (hwidth : o.indentationSize = .blanks width)
    {indent : String} (hindent : Blank indent.toList) (baseIndent : String) :
    ∃ level, indentUnit o (some (indent, baseIndent)) = .ok level ∧ Blank level.toList := by
  have hblanks : ∃ level, blanksOf o.indentationSize = .ok level ∧ Blank level.toList := by
    rw [hwidth]
    exact ⟨_, rfl, by rw [String.toList_ofList]; exact blank_spaces _⟩
  have hown : Blank (ownIndent indent baseIndent) := by
    unfold ownIndent
    split
    · exact fun c hc => hindent c (List.mem_of_mem_drop hc)
    · exact blank_nil
  unfold indentUnit
  cases o.indentationType with
  | tabs =>
    refine ⟨_, rfl, fun c hc => ?_⟩
    rw [show "\t".toList = ['\t'] from rfl, List.mem_singleton] at hc
    rw [hc]
    decide
  | spaces => exact hblanks
  | auto =>
    dsimp only
    split
    · exact hblanks
    · exact ⟨_, rfl, by rwa [String.toList_ofList]⟩

/-- The lines of the root's members are a row of them. -/
theorem ReadRoot.entityLines_typesRow (h : ReadRoot false isObject t e span body) {s : Setting}
    (hs : s.rules = Rules.json) (hx : s.excerpt = excerptOf e span) (hr : Rearranged e.members ms)
    {level indent : String} (hlevel : Blank level.toList) (hindent : Blank indent.toList) :
    TypesRow (addsComma s.options) isObject (entityLines s { e with members := ms } level indent)
      (ms.map (Member.entry isObject)) := by
  have hread : ∀ m ∈ e.members, Read s.excerpt false isObject m := by
    rw [hx]
    exact h.members
  unfold entityLines
  simp only [h.dangling_eq]
  refine bodyLinesOf_typesRow hs hread h.row.commas h.laid hr hindent fun m hm =>
    (hread m hm).typesInside hs (h.laid.of_mem hm).1 hlevel ?_
  rw [String.toList_append]
  exact hindent.append hlevel

/-- On one line or on many, a body typed anew is a row of its members. -/
theorem ReadRoot.retypedBody_row (h : ReadRoot false isObject t e span body) {s : Setting}
    (hs : s.rules = Rules.json) (hx : s.excerpt = excerptOf e span) {width : Int}
    (hwidth : s.options.indentationSize = .blanks width) (hr : Rearranged e.members ms)
    (hne : ms ≠ []) :
    ∃ inner, retypedBody s { e with members := ms } body = .ok inner ∧
      ∃ items : List (Entry × List Char), items.map (·.1) = ms.map (Member.entry isObject) ∧
        (∀ item ∈ items, Spells (addsComma s.options) isObject item.1 item.2) ∧
        Row (addsComma s.options) (items.map (·.2)) inner := by
  obtain ⟨level, hlevel, hlevelBlank⟩ := indentUnit_blank hwidth h.indent_blank e.baseIndent
  have hone : ∀ c ∈ blanks, Blank [c] := fun c hc d hd => List.mem_singleton.mp hd ▸ hc
  have hempty : ms.isEmpty = false := by simpa using hne
  unfold retypedBody
  simp only [hempty, Bool.false_eq_true, if_false, hlevel, bind, Except.bind, h.headed]
  split
  · have hlines := h.entityLines_typesRow hs hx hr hlevelBlank (show Blank "".toList from blank_nil)
    have hspaced := joinBlanks_spaced (entityLines s { e with members := ms } level "")
    exact ⟨_, rfl, hlines.2 _
      ((hspaced.blank_append (hone ' ' (by decide))).append_blank (hone ' ' (by decide)))⟩
  · have hindent : Blank (e.baseIndent ++ level).toList := by
      rw [String.toList_append]
      exact h.baseIndent_blank.append hlevelBlank
    have hlines := h.entityLines_typesRow hs hx hr hlevelBlank hindent
    have hspaced := joinLines_spaced hlines.1
    refine ⟨_, rfl, hlines.2 _ ?_⟩
    rw [hs, if_pos (show Rules.json.breaksBeforeFooter = true from rfl)]
    exact (hspaced.blank_append (hone '\n' (by decide))).append_blank
      ((hone '\n' (by decide)).append h.baseIndent_blank)

/-- Members written anew. -/
theorem ReadRoot.retyped_spells (h : ReadRoot false isObject t e span body) {s : Setting}
    (hs : s.rules = Rules.json) (hx : s.excerpt = excerptOf e span) {width : Int}
    (hwidth : s.options.indentationSize = .blanks width) (hr : Rearranged e.members ms)
    (hne : ms ≠ []) :
    ∃ text, retypedEntity s { e with members := ms } body = .ok text ∧
      Spells (addsComma s.options) false (.container [] isObject (ms.map (Member.entry isObject)))
        text := by
  obtain ⟨inner, hbody, items, hes, hitems, hrow⟩ := h.retypedBody_row hs hx hwidth hr hne
  have hhead : retypedHead s { e with members := ms } body.start = s.excerpt.sliceTo body.start := by
    unfold retypedHead
    simp only [h.leading_eq, List.filter_nil, List.getLast?_nil]
  refine ⟨_, ?_, hes ▸ h.spells_row hitems hrow⟩
  unfold retypedEntity
  simp only [bounds_eq h.laid hr, hbody, bind, Except.bind, hhead, hx]
  rfl

/-- The root with its members rearranged is written as what these stand for, unless it has to be typed
anew with an indentation that is no number of blanks. -/
theorem ReadRoot.write_spells (h : ReadRoot false isObject t e span body) {o : Options}
    (hjson : o.language = .json)
    (hlayout : o.asksForLayout = false ∨ ∃ width, o.indentationSize = .blanks width)
    (hr : Rearranged e.members ms) (hne : ms ≠ []) :
    ∃ text, writeEntity o { e with members := ms } = .ok (String.ofList text) ∧
      Spells (addsComma o) false (.container [] isObject (ms.map (Member.entry isObject))) text := by
  have hrules : Rules.ofFileType o.fileType = Rules.json := by
    unfold Rules.ofFileType
    rw [show o.fileType.language = .json from hjson]
  have hlanguage : o.fileType.language ≠ .yaml := by
    rw [show o.fileType.language = .json from hjson]
    decide
  let s : Setting := { rules := Rules.json, options := o, kind := e.kind, excerpt := excerptOf e span }
  have hdealt := h.dealt_spells (s := s) rfl rfl hr hne
  have hsource : (Text.ofString e.sourceText).toList = t.slice span.start span.stop := h.source_toList
  rw [writeEntity_eq_writeBlock hlanguage, hrules]
  unfold writeBlock
  split
  · rename_i span' body' hspan hbody
    obtain rfl : span = span' := Option.some.inj (h.span_eq.symm.trans hspan)
    obtain rfl : body = body' := Option.some.inj (h.body_eq.symm.trans hbody)
    dsimp only
    -- whichever way the members are written, the text spells them
    split
    · rename_i hsynth
      have hasks : o.asksForLayout ≠ false := by
        rw [synthesizes, Bool.and_eq_true] at hsynth
        rw [hsynth.2]
        decide
      obtain ⟨width, hwidth⟩ := hlayout.resolve_left hasks
      obtain ⟨retyped, hretyped, hretypedSpells⟩ := h.retyped_spells (s := s) rfl rfl hwidth hr hne
      refine ⟨_, ?_, hretypedSpells.withOptionsEnding o (Text.ofString e.sourceText).toList⟩
      show (retypedEntity s _ body >>= _) = _
      rw [hretyped]
      rfl
    · split
      · exact ⟨_, rfl, hdealt.withOptionsEnding o _⟩
      · rename_i hreordered
        have hsame : ms = e.members := by
          refine Classical.byContradiction fun hne => hreordered ?_
          exact (reordered_iff h.laid hr).mpr hne
        refine ⟨_, rfl, ?_⟩
        rw [hsource, hsame]
        exact (h.spelled.weaken _).withOptionsEnding o _
  · rename_i hnone
    exact absurd h.body_eq (hnone span body h.span_eq)

end Write

end MemberOrder.Json
