/-
  What the layout writes.

  The layout writes a source in pieces that can be computed (`entityPieces`). By induction on the
  nesting of members these are the pieces of a dealt block, and the text of an entity is what is
  written in them (`writeBlock_deals`).
-/
import MemberOrder.Layout.Written
import MemberOrder.Process
import MemberOrder.Proofs.Layout.Dealing

namespace MemberOrder.Layout

/-! ## Pieces -/

/-- The pieces of the unit of a member, given those of the member and the separator that it gets. -/
def unitPieces (t : Text) (i : MemberInfo) (inner : List Piece) (new : String) : List Piece :=
  match i.span, i.unit with
  | some span, some unit =>
    let found := if i.separator.isEmpty then none
      else ownSeparatorIndex? i (t.slice span.stop unit.stop)
    let place := span.stop + found.getD 0
    .copy unit.start span.start :: inner ++
      [.copy span.stop place, .put new, .copy (place + i.separator.length) unit.stop]
  | _, _ => inner

/-- The pieces of the units of members, each with its own pieces, from the place `slot` on. -/
def unitsPieces (s : Setting) (t : Text) (separators : List String) :
    (slot : Nat) → List (Member × List Piece) → List (List Piece)
  | _, [] => []
  | slot, (m, inner) :: rest =>
    unitPieces t m.info inner (slotSeparator s m.info.separator slot separators)
      :: unitsPieces s t separators (slot + 1) rest

/-- The pieces of a block of members, each with its own pieces: the block as it is, or dealt where
something is out of order. -/
def blockPieces (s : Setting) (t : Text) (span body : Span) (ms : List (Member × List Piece)) :
    List Piece :=
  let members := ms.map (·.1)
  if reordered members then
    let (start, stop) := bounds body members
    let inSource := sourceOrder members
    .copy span.start start :: fill (gapPieces stop start inSource)
      (unitsPieces s t (inSource.map (·.info.separator)) 0 ms) ++ [.copy stop span.stop]
  else [.copy span.start span.stop]

mutual

/-- The pieces of a member without its comments and its separator. -/
def memberPieces (s : Setting) (t : Text) : Member → List Piece
  | .leaf i => (i.span.map fun span => Piece.copy span.start span.stop).toList
  | .group i children =>
    match i.span, i.body with
    | some span, some body => blockPieces s t span body (membersPieces s t children)
    | span, _ => (span.map fun span => Piece.copy span.start span.stop).toList

/-- Members with their pieces. -/
def membersPieces (s : Setting) (t : Text) : List Member → List (Member × List Piece)
  | [] => []
  | m :: rest => (m, memberPieces s t m) :: membersPieces s t rest

end

theorem map_fst_membersPieces (s : Setting) (t : Text) (ms : List Member) :
    (membersPieces s t ms).map (·.1) = ms := by
  induction ms with
  | nil => rfl
  | cons m rest ih => rw [membersPieces, List.map_cons, ih]

theorem map_fst_memberTexts (s : Setting) (ms : List Member) : (memberTexts s ms).map (·.1) = ms := by
  induction ms with
  | nil => rfl
  | cons m rest ih => rw [memberTexts, List.map_cons, ih]

/-! ## What the layout writes -/

/-- An excerpt shows a source between two offsets. -/
def Shows (x : Excerpt) (t : Text) (a b : Nat) : Prop :=
  ∀ {i j : Nat}, a ≤ i → j ≤ b → x.slice i j = t.slice i j

section Layout

variable {P : MemberInfo → Prop} {t : Text} {site : MemberInfo → Nat → Prop} {s : Setting}
  {a b : Nat}

/-- The text of a unit is written in the pieces of one. -/
theorem unitText_deals (hx : Shows s.excerpt t a b) (hsited : Sited t P site) {i : MemberInfo}
    {span unit : Span} (hP : P i) (hplaced : Placed t i span unit) (ha : a ≤ unit.start)
    (hb : unit.stop ≤ b) (inner : List Piece) {new : String} (hnew : Separates new) :
    unitText s i (written t inner) new = written t (unitPieces t i inner new) ∧
      ∃ range, DealsUnit t site i inner (unitPieces t i inner new) range := by
  obtain ⟨place, hsite, hafter, hinside, htext, hsearch⟩ := hsited.found hP hplaced
  have hleads := hplaced.leads
  have hnonempty := hplaced.nonempty
  have hdeal := @DealsUnit.deal t site i inner _ _ _ _ hplaced.span_eq hplaced.unit_eq hsite hafter
    hinside htext (hsited.separates hP) hnew
  have hlead : s.excerpt.slice unit.start span.start = t.slice unit.start span.start :=
    hx ha (by omega)
  have hrest : s.excerpt.slice span.stop unit.stop = t.slice span.stop unit.stop :=
    hx (by omega) hb
  rcases hsearch with ⟨hnone, rfl⟩ | ⟨hsome, hfound⟩
  · have hpieces : unitPieces t i inner new = .copy unit.start span.start :: inner ++
        [.copy span.stop span.stop, .put new, .copy (span.stop + i.separator.length) unit.stop] := by
      simp [unitPieces, hplaced.unit_eq, hplaced.span_eq, hnone]
    have hself : t.slice span.stop span.stop = [] := Text.slice_self t (Nat.le_refl _)
    rw [hpieces]
    refine ⟨?_, _, hdeal⟩
    simp [unitText, hplaced.unit_eq, hplaced.span_eq, hlead, hrest, hnone, written, Piece.text, hself]
  · have hsome' : i.separator.isEmpty = false := by simpa using hsome
    have hpieces : unitPieces t i inner new = .copy unit.start span.start :: inner ++
        [.copy span.stop place, .put new, .copy (place + i.separator.length) unit.stop] := by
      simp [unitPieces, hplaced.unit_eq, hplaced.span_eq, hsome', hfound, Nat.add_sub_cancel' hafter]
    have htake : (t.slice span.stop unit.stop).take (place - span.stop) = t.slice span.stop place :=
      Text.take_slice t (by omega)
    have hdrop : (t.slice span.stop unit.stop).drop (place - span.stop + i.separator.length) =
        t.slice (place + i.separator.length) unit.stop := by
      rw [← Nat.sub_add_comm hafter]
      exact Text.drop_slice t (by omega)
    rw [hpieces]
    refine ⟨?_, _, hdeal⟩
    simp [unitText, hplaced.unit_eq, hplaced.span_eq, hlead, hrest, hsome', hfound, htake, hdrop,
      written, Piece.text]

/-- Gaps depend on where units are and on nothing else. -/
theorem gapPieces_congr (hi lo : Nat) {ms ms' : List Member}
    (h : ms'.map Member.info = ms.map Member.info) : gapPieces hi lo ms' = gapPieces hi lo ms := by
  induction ms generalizing lo ms' with
  | nil =>
    rw [List.map_eq_nil_iff.mp h]
  | cons m rest ih =>
    obtain ⟨m', rest', rfl, hinfo, hrest⟩ := List.map_eq_cons_iff.mp h
    simp only [gapPieces, Member.unitStart, Member.unitStop, hinfo, ih _ hrest]

theorem gapsFrom_eq (hx : Shows s.excerpt t a b) {lo hi : Nat} {ms : List Member}
    (hlaid : LaidFrom P t hi lo ms) (ha : a ≤ lo) (hb : hi ≤ b) {ms' : List Member}
    (h : ms'.map Member.info = ms.map Member.info) :
    gapsFrom s.excerpt hi lo ms' = (gapPieces hi lo ms').map (·.text t) := by
  induction ms generalizing lo ms' with
  | nil =>
    rw [List.map_eq_nil_iff.mp h]
    simp [gapsFrom, gapPieces, Piece.text, hx ha hb]
  | cons m rest ih =>
    obtain ⟨m', rest', rfl, hinfo, hrest⟩ := List.map_eq_cons_iff.mp h
    obtain ⟨h1, h2, h3⟩ := hlaid
    have hlt := h2.unit_lt
    have hle := h3.le
    have hstart : m'.unitStart = m.unitStart := by simp only [Member.unitStart, hinfo]
    have hstop : m'.unitStop = m.unitStop := by simp only [Member.unitStop, hinfo]
    rw [gapsFrom, gapPieces, List.map_cons, hstart, hstop, hx ha (by omega),
      ih h3 (by omega) hrest]
    rfl

theorem written_fill {gaps : List Piece} {units : List (List Piece)} :
    written t (fill gaps units) = interleave (gaps.map (·.text t)) (units.map (written t)) := by
  induction gaps generalizing units with
  | nil => rfl
  | cons gap gaps ih =>
    cases units with
    | nil => simp [fill, interleave, written]
    | cons unit units =>
      rw [fill, written_append, ih]
      simp [interleave, written]

/-- A member of the source order has the separator of a member that was laid out. -/
theorem separates_of_mem_sourceOrder (hsited : Sited t P site) {lo hi : Nat} {ms ms' : List Member}
    (hlaid : LaidFrom P t hi lo ms) (h : Rearranged ms ms') :
    ∀ x ∈ (sourceOrder ms').map (·.info.separator), Separates x := by
  intro x hx
  obtain ⟨m, hm, rfl⟩ := List.mem_map.mp hx
  have hinfo : m.info ∈ ms.map Member.info := by
    rw [← sourceOrder_infos hlaid h]
    exact List.mem_map_of_mem hm
  obtain ⟨m', hm', hinfo⟩ := List.mem_map.mp hinfo
  rw [← hinfo]
  exact hsited.separates (hlaid.of_mem hm').1.placed.1

/-- Rearranged members that are dealt into their places are written in pieces, once their units are. -/
theorem dealt_eq_written (hx : Shows s.excerpt t a b) {body : Span} {ms ms' : List Member}
    (hlaid : LaidFrom P t body.stop body.start ms) (ha : a ≤ body.start) (hb : body.stop ≤ b)
    (hre : Rearranged ms ms')
    (hunits : unitsFrom s ((sourceOrder ms').map (·.info.separator)) 0 (memberTexts s ms') =
      (unitsPieces s t ((sourceOrder ms').map (·.info.separator)) 0 (membersPieces s t ms')).map
        (written t)) :
    dealt s body (memberTexts s ms') =
      written t (fill (gapPieces body.stop body.start (sourceOrder ms'))
        (unitsPieces s t ((sourceOrder ms').map (·.info.separator)) 0 (membersPieces s t ms'))) := by
  have hgaps := gapsFrom_eq hx hlaid ha hb (sourceOrder_infos hlaid hre)
  have hdealt : dealt s body (memberTexts s ms') = interleave
      (gapsFrom s.excerpt body.stop body.start (sourceOrder ms'))
      (unitsFrom s ((sourceOrder ms').map (·.info.separator)) 0 (memberTexts s ms')) := by
    simp only [dealt, map_fst_memberTexts, bounds_eq hlaid hre]
    cases ms' with
    | nil => rfl
    | cons m rest => rfl
  rw [hdealt, hgaps, hunits, written_fill]

/-- A block of rearranged members is written in its pieces, once the units of the members are. -/
theorem block_deals (hx : Shows s.excerpt t a b) (hsited : Sited t P site) {span body : Span}
    {ms mid ms' : List Member} (hlaid : LaidFrom P t body.stop body.start ms)
    (hstart : span.start ≤ body.start) (hstop : body.stop ≤ span.stop) (ha : a ≤ span.start)
    (hb : span.stop ≤ b) (hperm : ms.Perm mid) (heach : EachRearranged mid ms')
    (hunits : ∀ separators, (∀ x ∈ separators, Separates x) →
      unitsFrom s separators 0 (memberTexts s ms') =
        (unitsPieces s t separators 0 (membersPieces s t ms')).map (written t) ∧
      ∃ cut, DealsUnits t site mid ms' (unitsPieces s t separators 0 (membersPieces s t ms')) cut) :
    (if reordered ms' then t.slice span.start body.start ++
        dealt s body (memberTexts s ms') ++ t.slice body.stop span.stop
      else t.slice span.start span.stop) =
      written t (blockPieces s t span body (membersPieces s t ms')) ∧
    ∃ cut, DealsBlock t site span body ms ms' (blockPieces s t span body (membersPieces s t ms')) cut := by
  have hre : Rearranged ms ms' := ⟨mid, hperm, heach⟩
  have hiff := reordered_iff hlaid hre
  simp only [blockPieces, map_fst_membersPieces]
  by_cases hr : reordered ms' = true
  · have hinfos := sourceOrder_infos hlaid hre
    obtain ⟨hunits, cut, hdeals⟩ := hunits _ (separates_of_mem_sourceOrder hsited hlaid hre)
    rw [if_pos hr, if_pos hr, bounds_eq hlaid hre,
      dealt_eq_written hx hlaid (by omega) (by omega) hre hunits]
    constructor
    · simp [written, Piece.text]
    · refine ⟨cut, ?_⟩
      simp only [gapPieces_congr _ _ hinfos]
      exact .dealt (hiff.mp hr) hperm hdeals
  · have hsame : ms' = ms := Classical.byContradiction fun hne => hr (hiff.mpr hne)
    rw [if_neg hr, if_neg hr]
    refine ⟨by simp [written, Piece.text], [], ?_⟩
    rw [hsame]
    exact .kept span body ms

mutual

/-- The text of a member whose children are rearranged is written in its pieces. -/
theorem memberText_deals (hx : Shows s.excerpt t a b) (hsited : Sited t P site)
    (hrules : Separates (s.rules.separator s.kind)) {m m' : Member} (hlaid : m.LaidOut P t)
    (ha : a ≤ m.unitStart) (hb : m.unitStop ≤ b) (h : m.Rearranged m') :
    memberText s m' = written t (memberPieces s t m') ∧
      ∃ cut, DealsMember t site m m' (memberPieces s t m') cut := by
  match h with
  | .leaf i =>
    obtain ⟨-, span, unit, hp⟩ := hlaid
    have hstart := hp.unitStart_eq (m := .leaf i)
    have hstop := hp.unitStop_eq (m := .leaf i)
    have hleads := hp.leads
    have hfollows := hp.follows
    have hpieces : memberPieces s t (.leaf i) = [.copy span.start span.stop] := by
      simp [memberPieces, hp.span_eq]
    rw [hpieces]
    refine ⟨?_, [], .leaf hp.span_eq⟩
    simp only [memberText, verbatim, hp.span_eq]
    rw [hx (by omega) (by omega)]
    simp [written, Piece.text]
  | .group i hperm heach =>
    rename_i children mid children'
    obtain ⟨-, span, unit, body, hp, hbody, h1, h2, h3⟩ := hlaid
    have hstart := hp.unitStart_eq (m := .group i children)
    have hstop := hp.unitStop_eq (m := .group i children)
    have hleads := hp.leads
    have hfollows := hp.follows
    have hle := h3.le
    obtain ⟨htext, cut, hdeals⟩ := block_deals hx hsited h3 h1 h2 (by omega) (by omega) hperm
      heach fun separators hseps => unitsFrom_deals hx hsited hrules (fun m hm => by
        have := h3.of_mem (hperm.mem_iff.mpr hm)
        exact ⟨this.1, by omega, by omega⟩) heach hseps 0
    have hpieces : memberPieces s t (.group i children') =
        blockPieces s t span body (membersPieces s t children') := by
      simp [memberPieces, hp.span_eq, hbody]
    rw [hpieces]
    refine ⟨?_, cut, .group hp.span_eq hbody hdeals⟩
    simp only [memberText, hp.span_eq, hbody, bounds_eq h3 ⟨mid, hperm, heach⟩, verbatim]
    rw [hx (by omega) (by omega), hx (by omega) (by omega), hx (by omega) (by omega), htext]

/-- The units of members in their places are written in their pieces. -/
theorem unitsFrom_deals (hx : Shows s.excerpt t a b) (hsited : Sited t P site)
    (hrules : Separates (s.rules.separator s.kind)) {ms ms' : List Member}
    (hlaid : ∀ m ∈ ms, m.LaidOut P t ∧ a ≤ m.unitStart ∧ m.unitStop ≤ b)
    (h : EachRearranged ms ms') {separators : List String} (hseps : ∀ x ∈ separators, Separates x)
    (slot : Nat) :
    unitsFrom s separators slot (memberTexts s ms') =
      (unitsPieces s t separators slot (membersPieces s t ms')).map (written t) ∧
    ∃ cut, DealsUnits t site ms ms' (unitsPieces s t separators slot (membersPieces s t ms')) cut := by
  match h with
  | .nil => exact ⟨rfl, [], .nil⟩
  | .cons hm hrest =>
    rename_i m m' rest rest'
    obtain ⟨hmlaid, hma, hmb⟩ := hlaid m List.mem_cons_self
    obtain ⟨htext, cut, hmember⟩ := memberText_deals hx hsited hrules hmlaid hma hmb hm
    obtain ⟨hunits, cuts, hdeals⟩ := unitsFrom_deals hx hsited hrules
      (fun m hm => hlaid m (List.mem_cons_of_mem _ hm)) hrest hseps (slot + 1)
    obtain ⟨hP, span, unit, hp⟩ := hmlaid.placed
    obtain ⟨hps, range, hunit⟩ := unitText_deals hx hsited hP hp
      (hp.unitStart_eq ▸ hma) (hp.unitStop_eq ▸ hmb) (memberPieces s t m')
      (separates_slotSeparator slot hrules (hsited.separates hP) hseps)
    rw [membersPieces, unitsPieces, hm.info_eq]
    refine ⟨?_, range :: cut ++ cuts, .cons hmember hunit hdeals⟩
    rw [memberTexts, unitsFrom, List.map_cons, hunits, htext, hm.info_eq, hps]

end

/-- What the layout of an entity of a source depends on. -/
def settingOf (o : Options) (e : Entity) (span : Span) : Setting where
  rules := Rules.ofFileType o.fileType
  options := o
  kind := e.kind
  excerpt := ⟨Text.ofString e.sourceText, span.start⟩

/-- The pieces of an entity: its block. -/
def entityPieces (o : Options) (t : Text) (e : Entity) : List Piece :=
  match e.span, e.body with
  | some span, some body =>
    blockPieces (settingOf o e span) t span body (membersPieces (settingOf o e span) t e.members)
  | _, _ => []

/-- The text of an entity shows its span. -/
theorem shows_settingOf (o : Options) {e : Entity} {span : Span}
    (htext : e.sourceText = t.cut span.start span.stop) :
    Shows (settingOf o e span).excerpt t span.start span.stop := by
  intro i j hi hj
  have hexcerpt : Text.ofString e.sourceText = (t.slice span.start span.stop).toArray := by
    rw [htext]
    simp [Text.ofString, Text.cut]
  show Text.slice (Text.ofString e.sourceText) _ _ = _
  rw [hexcerpt]
  exact Text.slice_slice t hi hj

theorem size_settingOf (o : Options) {e : Entity} {span : Span}
    (htext : e.sourceText = t.cut span.start span.stop) (hsize : span.stop ≤ t.size) :
    (settingOf o e span).excerpt.text.size = span.stop - span.start := by
  show (Text.ofString e.sourceText).size = _
  rw [htext]
  simp [Text.ofString, Text.cut, Text.length_slice t hsize]

/-- The text of an entity whose members are rearranged is written in its pieces, with the line endings
that the options ask for. -/
theorem writeBlock_dealt (hsited : Sited t P site) {e : Entity} {lo hi : Nat}
    (hlaid : e.LaidOut P t lo hi) (hsize : hi ≤ t.size) {o : Options}
    (hlayout : o.asksForLayout = false) {ms' : List Member} (h : Rearranged e.members ms') :
    writeBlock (Rules.ofFileType o.fileType) o { e with members := ms' } =
      .ok (String.ofList (withOptionsEnding o e.sourceText.toList
        (written t (entityPieces o t { e with members := ms' })))) ∧
    ∃ span body cut, e.span = some span ∧ e.body = some body ∧
      DealsBlock t site span body e.members ms' (entityPieces o t { e with members := ms' }) cut ∧
      Covers span.start span.stop (copies (entityPieces o t { e with members := ms' }) ++ cut) := by
  obtain ⟨span, hspan, rfl, rfl⟩ := hlaid.span_eq
  obtain ⟨body, hbody, hstart, hstop, hmembers⟩ := hlaid.members
  obtain ⟨mid, hperm, heach⟩ := h
  let s := settingOf o e span
  have hx : Shows s.excerpt t span.start span.stop := shows_settingOf o hlaid.text
  have hle := hlaid.le
  have hle' := hmembers.le
  obtain ⟨hps, cut, hdeals⟩ := block_deals hx hsited hmembers hstart hstop (Nat.le_refl _)
    (Nat.le_refl _) hperm heach fun separators hseps => unitsFrom_deals hx hsited
      (separates_rules o.fileType e.kind) (fun m hm => by
        have := hmembers.of_mem (hperm.mem_iff.mpr hm)
        exact ⟨this.1, by omega, by omega⟩) heach hseps 0
  have hpieces : entityPieces o t { e with members := ms' } =
      blockPieces s t span body (membersPieces s t ms') := by
    simp only [entityPieces, hspan, hbody]
    rfl
  rw [hpieces]
  refine ⟨?_, span, body, cut, hspan, hbody, hdeals, hdeals.covers hstart hstop hle hmembers⟩
  have hsynth : synthesizes (Rules.ofFileType o.fileType) o = false := by
    simp [synthesizes, hlayout]
  have hheader : s.excerpt.sliceTo body.start = t.slice span.start body.start := by
    rw [← hx (Nat.le_refl _) (by omega)]
    simp [Excerpt.sliceTo, Excerpt.slice, s, settingOf]
  have hfooter : s.excerpt.sliceFrom body.stop = t.slice body.stop span.stop := by
    have hlength : s.excerpt.text.size = _ := size_settingOf o hlaid.text hsize
    rw [← hx (by omega) (Nat.le_refl _)]
    simp only [Excerpt.sliceFrom, Excerpt.slice, hlength]
    rfl
  have hwhole : (Text.ofString e.sourceText).toList = t.slice span.start span.stop := by
    rw [hlaid.text]
    simp [Text.ofString, Text.cut]
  have hsource : e.sourceText.toList = t.slice span.start span.stop := hwhole
  rw [← hps]
  simp only [writeBlock, hspan, hbody, hsynth, Bool.false_eq_true, if_false, hwhole, hsource]
  split
  · simp only [dealtEntity, bounds_eq hmembers ⟨mid, hperm, heach⟩]
    rw [← hheader, ← hfooter]
    rfl
  · rfl

/-- Where no line ending is asked for, it is what is written in the pieces. -/
theorem writeBlock_deals (hsited : Sited t P site) {e : Entity} {lo hi : Nat}
    (hlaid : e.LaidOut P t lo hi) (hsize : hi ≤ t.size) {o : Options}
    (hlayout : o.asksForLayout = false) (hending : o.lineEnding = .auto) {ms' : List Member}
    (h : Rearranged e.members ms') :
    writeBlock (Rules.ofFileType o.fileType) o { e with members := ms' } =
      .ok (String.ofList (written t (entityPieces o t { e with members := ms' }))) ∧
    ∃ span body cut, e.span = some span ∧ e.body = some body ∧
      DealsBlock t site span body e.members ms' (entityPieces o t { e with members := ms' }) cut ∧
      Covers span.start span.stop (copies (entityPieces o t { e with members := ms' }) ++ cut) := by
  have hsame : ∀ source rendered, withOptionsEnding o source rendered = rendered := fun _ _ => by
    simp only [withOptionsEnding, hending, beq_self_eq_true, if_true]
  have hdealt := writeBlock_dealt hsited hlaid hsize hlayout h
  rwa [hsame] at hdealt

end Layout

/-! ## Line endings -/

/-- A character that does not start a line break of two. -/
theorem withLineEnding_cons (ending : List Char) {c : Char} {rest : List Char}
    (h : ¬(c = '\r' ∧ rest.head? = some '\n')) :
    withLineEnding ending (c :: rest) =
      (if c = '\n' then ending else [c]) ++ withLineEnding ending rest := by
  rw [withLineEnding.eq_3 _ _ _ fun rest' hreturn hrest => h ⟨hreturn, by rw [hrest]; rfl⟩]
  by_cases hc : c = '\n' <;> simp [hc]

/-- Texts are written one after the other unless a line break of two characters lies between them. -/
theorem withLineEnding_append (ending : List Char) : (a : List Char) → {b : List Char} →
    (a.getLast? ≠ some '\r' ∨ b.head? ≠ some '\n') →
    withLineEnding ending (a ++ b) = withLineEnding ending a ++ withLineEnding ending b
  | [], _, _ => rfl
  | c :: rest, b, h => by
    have hlast : rest.getLast? ≠ some '\r' ∨ b.head? ≠ some '\n' := by
      refine h.imp_left fun hne heq => hne ?_
      cases rest with
      | nil => cases heq
      | cons d rest => rwa [List.getLast?_cons_cons]
    by_cases hpair : c = '\r' ∧ rest.head? = some '\n'
    · obtain ⟨rfl, hhead⟩ := hpair
      cases rest with
      | nil => cases hhead
      | cons d rest =>
        cases hhead
        have hrest : rest.getLast? ≠ some '\r' ∨ b.head? ≠ some '\n' := by
          refine hlast.imp_left fun hne heq => hne ?_
          cases rest with
          | nil => cases heq
          | cons e rest => rwa [List.getLast?_cons_cons]
        simp only [List.cons_append, withLineEnding, withLineEnding_append ending rest hrest,
          List.append_assoc]
    · have hboth : ¬(c = '\r' ∧ (rest ++ b).head? = some '\n') := by
        rintro ⟨rfl, hhead⟩
        cases rest with
        | nil => rcases h with h | h <;> exact h (by first | rfl | exact hhead)
        | cons d rest => exact hpair ⟨rfl, hhead⟩
      rw [List.cons_append, withLineEnding_cons ending hboth, withLineEnding_cons ending hpair,
        withLineEnding_append ending rest hlast, List.append_assoc]

theorem mem_withLineEnding {ending : List Char} {c : Char} : (cs : List Char) →
    c ∈ withLineEnding ending cs → c ∈ ending ∨ c ∈ cs := by
  intro cs hc
  fun_induction withLineEnding ending cs with
  | case1 => cases hc
  | case2 rest ih =>
    rcases List.mem_append.mp hc with hc | hc
    · exact Or.inl hc
    · exact (ih hc).imp_right fun h => List.mem_cons_of_mem _ (List.mem_cons_of_mem _ h)
  | case3 c' rest _ _ ih =>
    rcases List.mem_append.mp hc with hc | hc
    · exact Or.inl hc
    · exact (ih hc).imp_right fun h => List.mem_cons_of_mem _ h
  | case4 c' rest _ _ ih =>
    rcases List.mem_cons.mp hc with rfl | hc
    · exact Or.inr List.mem_cons_self
    · exact (ih hc).imp_right fun h => List.mem_cons_of_mem _ h

end MemberOrder.Layout

namespace MemberOrder

/-- Scanned sources are written by the layout. -/
theorem writeEntity_eq_writeBlock {o : Options} (h : o.fileType.language ≠ .yaml) (e : Entity) :
    writeEntity o e = Layout.writeBlock (Layout.Rules.ofFileType o.fileType) o e := by
  have hflow : (o.language == .yaml) = false := by
    simpa [Options.language] using h
  simp only [writeEntity, hflow, Bool.false_and, Bool.false_eq_true, if_false]

end MemberOrder
