/-
  Dealt members are split again.

  The members of every body are what its splitter cuts out of it (`read_splitBy`). Members of a list that
  are dealt in another order are whole members with blank characters in between, so the splitter finds no
  more of them than there are. It finds as many exactly if it parts each from the next one by what stands
  in between (`length_membersIn_iff`): a separator, or the end of a line that does not go on. What stands
  in a gap stays there, and so a line break in a comment that a member takes along parts it no more.
-/
import MemberOrder.Proofs.Layout.Beading
import MemberOrder.Proofs.Layout.Retyping
import MemberOrder.Proofs.Source.Segments

namespace MemberOrder

open Layout Lexeme Scanned

/-! ## Bodies -/

/-- The bodies of an entity with the members in them: its own body, and those of its members. -/
inductive Entity.Blocks (e : Entity) : Span → List Member → Prop
  | top {body : Span} (h : e.body = some body) : e.Blocks body e.members
  | nested {body inner : Span} {ms children : List Member} {i : MemberInfo} (h : e.Blocks body ms)
      (hi : .group i children ∈ ms) (hinner : i.body = some inner) : e.Blocks inner children

theorem Entity.LaidOut.blocks {P : MemberInfo → Prop} {t : Text} {e : Entity} {a b : Nat}
    (h : e.LaidOut P t a b) {body : Span} {ms : List Member} (hblock : e.Blocks body ms) :
    a ≤ body.start ∧ body.stop ≤ b ∧ LaidFrom P t body.stop body.start ms := by
  induction hblock with
  | top hbody => exact h.laidFrom hbody
  | nested _ hi hinner ih =>
    obtain ⟨h1, h2, hlaid⟩ := ih
    obtain ⟨hgroup, hlo, hhi⟩ := hlaid.of_mem hi
    obtain ⟨-, span, unit, body', hp, hbody', g1, g2, g3⟩ := hgroup
    obtain rfl := Option.some.inj (hbody'.symm.trans hinner)
    have := hp.leads
    have := hp.follows
    rw [hp.unitStart_eq (m := .group _ _)] at hlo
    rw [hp.unitStop_eq (m := .group _ _)] at hhi
    exact ⟨by omega, by omega, g3⟩

/-- Members whose spans are cut out of a body are found by the splitter. -/
theorem splitBy_of_cut {p : Splitter} {v : Text} {body : Span} {ms : List Member} (next : Option Char)
    (hstop : body.stop ≤ v.size)
    (hspans : ms.map (·.info.span.map fun span => (span.start, span.stop)) =
      (p.cut next body.start none (v.slice body.start body.stop)).map some)
    (hseparators : ∀ m ∈ ms, ∀ c ∈ m.info.separator.toList, p.separators.contains c = true) :
    SplitBy p v body ms := by
  obtain ⟨hplaces, houtside⟩ := ((Splitter.tiled_cut p next _).1 body.start).of_slice hstop
  refine ⟨fun m hm span hspan => ?_, fun x h1 h2 hout => houtside x h1 h2 fun q hq => ?_, hseparators⟩
  · have hmem : some (span.start, span.stop) ∈ ms.map (·.info.span.map fun span => (span.start, span.stop)) :=
      List.mem_map.mpr ⟨m, hm, by rw [hspan]; rfl⟩
    rw [hspans] at hmem
    obtain ⟨q, hq, heq⟩ := List.mem_map.mp hmem
    cases heq
    exact (hplaces _ hq).2.2.2
  · have hmem : some q ∈ ms.map (·.info.span.map fun span => (span.start, span.stop)) := by
      rw [hspans]
      exact List.mem_map_of_mem hq
    obtain ⟨m, hm, heq⟩ := List.mem_map.mp hmem
    obtain ⟨span, hspan, rfl⟩ := Option.map_eq_some_iff.mp heq
    exact hout m hm span hspan

/-- How the bodies of an entity are split. -/
def splitterOf (fileType : FileType) (e : Entity) : Splitter :=
  if fileType.language == .go then Struct.splitter else Script.splitter (e.kind != .object)

/-- Where the parser finds members of an entity between two offsets of a text. -/
def membersIn (fileType : FileType) (e : Entity) (u : Text) (a b : Nat) : List (Nat × Nat) :=
  if fileType.language == .go then
    (Struct.segments (scan .go u) a b).map fun g => (g.start, g.stop)
  else (Script.segments (scan .typescript u) a b (e.kind != .object)).map fun g => (g.start, g.stop)

/-- The parser finds what the splitter cuts out of the masked text. -/
theorem membersIn_eq_cut {fileType : FileType}
    (hlanguage : fileType.language = .typescript ∨ fileType.language = .go) (e : Entity) {u : Text}
    {a b : Nat} (hab : a ≤ b) (hb : b ≤ u.size) :
    ∃ next, membersIn fileType e u a b =
      (splitterOf fileType e).cut next a none ((scan (profileOf fileType) u).masked.slice a b) := by
  rcases hlanguage with h | h
  · refine ⟨Splitter.codeFrom (scan .typescript u) b, ?_⟩
    simp only [membersIn, splitterOf, profileOf, h]
    exact Script.segments_eq_cut _ hab (by rwa [size_masked]) _
  · refine ⟨Splitter.codeFrom (scan .go u) b, ?_⟩
    simp only [membersIn, splitterOf, profileOf, h]
    exact Struct.segments_eq_cut _ hab (by rwa [size_masked])

theorem splitterOf_fair (fileType : FileType) (e : Entity) : (splitterOf fileType e).Fair := by
  unfold splitterOf
  split
  · exact Struct.splitter_fair
  · exact Script.splitter_fair _

/-- The members of the bodies of a script are those of their segments. -/
theorem Script.EntityMade.block {s : Scanned} {e : Entity} (h : Script.EntityMade s e) {body : Span}
    {ms : List Member} (hblock : e.Blocks body ms) :
    EachThroughout (Script.Made s (e.kind != .object)) ms ∧ ∃ openAt closeAt,
      body = s.span (openAt + 1) closeAt ∧ Script.CutFrom s (e.kind != .object) openAt closeAt ms := by
  induction hblock with
  | top hbody =>
    obtain ⟨openAt, closeAt, hbody', hcut⟩ := h.body
    exact ⟨h.members, openAt, closeAt, Option.some.inj (hbody.symm.trans hbody'), hcut⟩
  | nested _ hi hinner ih =>
    obtain ⟨heach, -⟩ := ih
    have hmade := eachThroughout_iff.mp heach _ hi
    obtain ⟨openAt, closeAt, hbody, hcut⟩ := hmade.self.children _ _ rfl
    exact ⟨hmade.2, openAt, closeAt, Option.some.inj (hinner.symm.trans hbody), hcut⟩

/-- The fields of the bodies of a struct are those of their segments. -/
theorem Struct.EntityMade.block {s : Scanned} {e : Entity} (h : Struct.EntityMade s e) {body : Span}
    {ms : List Member} (hblock : e.Blocks body ms) :
    EachThroughout (Struct.Made s) ms ∧ ∃ brace close,
      body = s.span (brace + 1) close ∧ Struct.CutFrom s brace close ms := by
  induction hblock with
  | top hbody =>
    obtain ⟨brace, close, hbody', hcut⟩ := h.body
    exact ⟨h.members, brace, close, Option.some.inj (hbody.symm.trans hbody'), hcut⟩
  | nested _ hi hinner ih =>
    obtain ⟨heach, -⟩ := ih
    have hmade := eachThroughout_iff.mp heach _ hi
    obtain ⟨brace, close, hbody, hcut⟩ := hmade.self.children _ _ rfl
    exact ⟨hmade.2, brace, close, Option.some.inj (hinner.symm.trans hbody), hcut⟩

/-- What parses as a list of members is found by the splitter of its language. -/
theorem read_splitBy {fileType : FileType}
    (hlanguage : fileType.language = .typescript ∨ fileType.language = .go) {t : Text} {e : Entity}
    (he : e ∈ (readSource fileType t).entities) {body : Span} {ms : List Member}
    (hblock : e.Blocks body ms) (hne : ms ≠ []) (hle : body.start ≤ body.stop) (hstop : body.stop ≤ t.size)
    (hseparates : ∀ m ∈ ms, Separates m.info.separator) :
    SplitBy (splitterOf fileType e) (scan (profileOf fileType) t).masked body ms := by
  have hpair : ∀ (s : Scanned) (places : List (Nat × Nat)),
      ms.map (·.info.span) = places.map (fun q => some (s.span q.1 q.2)) →
      ms.map (·.info.span.map fun span => (span.start, span.stop)) = places.map some := by
    intro s places hspans
    have := congrArg (List.map fun o : Option Span => o.map fun span => (span.start, span.stop)) hspans
    rwa [List.map_map, List.map_map] at this
  rcases hlanguage with h | h
  · simp only [readSource, h] at he
    obtain ⟨-, openAt, closeAt, rfl, hcut⟩ := (Script.read_made fileType t e he).block hblock
    simp only [splitterOf, profileOf, h]
    refine splitBy_of_cut (Splitter.codeFrom (scan .typescript t) closeAt)
      (by rwa [size_masked]) ?_ fun m hm c hc => ?_
    · have hspans := hcut hne
      refine (hpair (scan .typescript t) _ (hspans.trans ?_)).trans
        (congrArg (List.map some) (Script.segments_eq_cut (scan .typescript t) hle
          (by rwa [size_masked]) (e.kind != .object)))
      rw [List.map_map]
      rfl
    · rcases hseparates m hm with hsep | hsep | hsep
      all_goals
        rw [hsep] at hc
        simp at hc
        try simp [hc, Script.splitter]
  · simp only [readSource, h] at he
    obtain ⟨hmade, brace, close, rfl, hcut⟩ := (Struct.read_made fileType t e he).block hblock
    simp only [splitterOf, profileOf, h]
    refine splitBy_of_cut (Splitter.codeFrom (scan .go t) close)
      (by rwa [size_masked]) ?_ fun m hm c hc => ?_
    · have hspans := hcut hne
      refine (hpair (scan .go t) _ (hspans.trans ?_)).trans
        (congrArg (List.map some) (Struct.segments_eq_cut (scan .go t) hle (by rwa [size_masked])))
      rw [List.map_map]
      rfl
    · -- fields have semicolons only
      obtain ⟨g, a, b, -, hinfo⟩ := (eachThroughout_iff.mp hmade m hm).self.holds
      have hsep : m.info.separator = if g.semicolon.isSome then ";" else "" :=
        (congrArg MemberInfo.separator hinfo :).trans (Struct.shapeOf_spec (scan .go t) g).2.2.1
      rw [hsep] at hc
      split at hc
      · simp at hc
        simp [hc, Struct.splitter]
      · simp at hc

/-! ## Dealt members -/

section Dealt

variable {p : Splitter} {q : Profile} {t u : Text} {body : Span} {ms mid : List Member}
  {P : MemberInfo → Prop} {site : MemberInfo → Nat → Prop} {s : Setting} {k : Nat}

/-- Out of a text that shows dealt members no more are cut than there are, and as many exactly if each is
parted from the next one. -/
theorem length_cut_dealt (hsplit : SplitBy p (scan q t).masked body ms) (hfair : p.Fair)
    (hplain : ∀ c, c = ',' ∨ c = ';' → Plain q c) (hsited : Sited t P site)
    (hlaid : LaidFrom P t body.stop body.start ms) (hsize : body.stop ≤ t.size) (hperm : ms.Perm mid)
    (hne : ms ≠ []) (hseparates : Separates (s.rules.separator s.kind))
    (hrules : ∀ c ∈ (s.rules.separator s.kind).toList, p.separators.contains c = true)
    (hseamless : seamless q t u k (dealtPieces s t body ms mid) = true)
    (hk : k + (written t (dealtPieces s t body ms mid)).length ≤ u.size)
    (hslice : u.slice k (k + (written t (dealtPieces s t body ms mid)).length) =
      written t (dealtPieces s t body ms mid)) (next : Option Char) :
    let found := p.cut next k none
      ((scan q u).masked.slice k (k + (written t (dealtPieces s t body ms mid)).length))
    found.length ≤ ms.length ∧
      (found.length = ms.length ↔ p.AllParted (slots s t (scan q t).masked body ms mid)) := by
  intro found
  have hmasked := masked_written hplain hseamless
    (fun r hr => Nat.le_trans (copies_dealtPieces hsited hlaid hperm r hr) hsize)
    (fun _ hmem => puts_dealtPieces hsited hlaid hperm hseparates hmem)
    (Or.inr (led_dealtPieces hlaid hperm hne)) hk hslice
  have hlength : (slots s t (scan q t).masked body ms mid).length = ms.length := by
    rw [slots, length_slotsFrom, hperm.length_eq]
  have hfound : found = p.cut next (k + (written (scan q t).masked (frontPieces body ms mid)).length) none
      (Splitter.joined (slots s t (scan q t).masked body ms mid)) := by
    simp only [found]
    rw [hmasked, written_dealtPieces hlaid hperm]
    exact Splitter.cut_none_blank (hsplit.blank_front hsited hlaid hperm)
  have hcount := (Splitter.length_cut next hfair
    (hsplit.beaded (s := s) hsited hlaid hperm hrules)).1
    (k + (written (scan q t).masked (frontPieces body ms mid)).length)
  rwa [← hfound, hlength] at hcount

end Dealt

theorem rules_separator {fileType : FileType}
    (hlanguage : fileType.language = .typescript ∨ fileType.language = .go) (e : Entity) :
    ∀ c ∈ ((Rules.ofFileType fileType).separator e.kind).toList,
      (splitterOf fileType e).separators.contains c = true := by
  rcases hlanguage with h | h
  · have hsep : (Rules.ofFileType fileType).separator e.kind = "," ∨
        (Rules.ofFileType fileType).separator e.kind = ";" := by
      simp only [Rules.ofFileType, h, Rules.script]
      split <;> simp
    intro c hc
    rcases hsep with hsep | hsep <;> simp_all [splitterOf, Script.splitter]
  · intro c hc
    simp [Rules.ofFileType, h, Rules.struct] at hc

theorem plain_separator {fileType : FileType}
    (hlanguage : fileType.language = .typescript ∨ fileType.language = .go) :
    ∀ c, c = ',' ∨ c = ';' → Plain (profileOf fileType) c := by
  rintro c (rfl | rfl)
  all_goals rcases hlanguage with h | h <;> simp only [profileOf, h, Plain] <;> decide

/-- Members of a body of a script or a struct that are dealt in another order are split again into no more
members than there are. Where no comment and no literal runs over a seam between pieces, there are as many
exactly if each member is parted from the next one: brackets are closed, and between the two there is a
separator, or the end of a line that does not go on. -/
theorem length_membersIn_iff {fileType : FileType}
    (hlanguage : fileType.language = .typescript ∨ fileType.language = .go) {t : Text} {e : Entity}
    (he : e ∈ (readSource fileType t).entities) {body : Span} {ms mid : List Member}
    (hblock : e.Blocks body ms) (hne : ms ≠ []) (hperm : ms.Perm mid) {o : Options}
    (ho : o.fileType = fileType) {span : Span} (hspan : e.span = some span) :
    let s := settingOf o e span
    let rendered := dealt s body (memberTexts s mid)
    let u : Text := (t.slice 0 body.start ++ rendered ++ t.slice body.stop t.size).toArray
    let found := membersIn fileType e u body.start (body.start + rendered.length)
    (o.asksForLayout = false → e.body = some body → ms = e.members → mid ≠ ms →
      writeEntity o { e with members := mid } = .ok (String.ofList (withOptionsEnding o e.sourceText.toList
        (t.slice span.start body.start ++ rendered ++ t.slice body.stop span.stop)))) ∧
    (seamless (profileOf fileType) t u body.start (dealtPieces s t body ms mid) = true →
      found.length ≤ ms.length ∧ (found.length = ms.length ↔ (splitterOf fileType e).AllParted
        (slots s t (scan (profileOf fileType) t).masked body ms mid))) := by
  intro s rendered u found
  have hyaml : fileType.language ≠ .yaml := by
    rcases hlanguage with h | h <;> rw [h] <;> decide
  obtain ⟨i, j, hentity, -, hj⟩ := (readSource_chain hyaml t).of_mem (fun _ _ _ he => he.le) he
  obtain ⟨hstart, hstop⟩ := hentity.bounds_eq hspan
  obtain ⟨h1, h2, hlaid⟩ := hentity.blocks hblock
  have hx : Shows s.excerpt t span.start span.stop :=
    shows_settingOf o (by rw [hentity.text, hstart, hstop])
  have hseparates : Separates (s.rules.separator s.kind) := separates_rules o.fileType e.kind
  have hle := hlaid.le
  have hsize : body.stop ≤ t.size := Nat.le_trans h2 hj
  subst ho
  constructor
  · intro hlayout hbody hms hne'
    rw [writeEntity_eq_writeBlock hyaml, (writeBlock_dealt (sited_stands t) hentity hj hlayout
      (.of_perm (hms ▸ hperm))).1]
    simp only [entityPieces, hspan, hbody]
    exact congrArg (fun cs => Except.ok (String.ofList (withOptionsEnding o e.sourceText.toList cs)))
      (written_blockPieces hx (sited_stands t) hseparates hlaid (by omega) (by omega) hperm span hne')
  · intro hseamless
    have hrendered : rendered = written t (dealtPieces s t body ms mid) :=
      dealt_eq_dealtPieces hx (sited_stands t) hseparates hlaid (by omega) (by omega) hperm
    have hprefix : (t.slice 0 body.start).length = body.start := by
      rw [Text.length_slice t (by omega), Nat.sub_zero]
    have hsize' : body.start + rendered.length ≤ u.size := by
      simp only [u, List.size_toArray, List.length_append, hprefix]
      omega
    have hslice : u.slice body.start (body.start + rendered.length) = rendered := by
      rw [Text.slice_eq_take_drop]
      simp [u, hprefix]
    obtain ⟨next, hfound⟩ := membersIn_eq_cut hlanguage e (Nat.le_add_right body.start rendered.length) hsize'
    have hsplit := read_splitBy hlanguage he hblock hne hle hsize fun m hm =>
      (sited_stands t).separates (hlaid.of_mem hm).1.placed.1
    have hcount := length_cut_dealt hsplit (splitterOf_fair _ e) (plain_separator hlanguage)
      (sited_stands t) hlaid hsize hperm hne hseparates (rules_separator hlanguage e) hseamless
      (hrendered ▸ hsize') (hrendered ▸ hslice) next
    rw [← hrendered] at hcount
    simp only [found, hfound]
    exact hcount

/-- Members on lines of their own, with a comment after the first. -/
def ownLines : Text := Text.ofString "interface A \x7b\n b: string // c\n a: number\n\x7d"

/-- Turned around they are two members again. -/
theorem length_membersIn_ownLines :
    ∃ e ∈ (readSource .typescript ownLines).entities, ∃ span ∈ e.span, ∃ body ∈ e.body,
      let rendered := dealt (settingOf {} e span) body (memberTexts (settingOf {} e span) e.members.reverse)
      rendered = "\n a: number\n b: string // c\n".toList ∧
        (membersIn .typescript e (ownLines.slice 0 body.start ++ rendered ++
          ownLines.slice body.stop ownLines.size).toArray body.start
            (body.start + rendered.length)).length = 2 := by
  have hread : ∃ e ∈ (readSource .typescript ownLines).entities, ∃ span ∈ e.span, ∃ body ∈ e.body,
      e.members.length = 2 ∧
      let s := settingOf {} e span
      let rendered := dealt s body (memberTexts s e.members.reverse)
      rendered = "\n a: number\n b: string // c\n".toList ∧
      seamless .typescript ownLines (ownLines.slice 0 body.start ++ rendered ++
          ownLines.slice body.stop ownLines.size).toArray body.start
        (dealtPieces s ownLines body e.members e.members.reverse) = true ∧
      (splitterOf .typescript e).AllParted
        (slots s ownLines (scan .typescript ownLines).masked body e.members e.members.reverse) := by
    decide +kernel
  obtain ⟨e, he, span, hspan, body, hbody, hlength, hrendered, hseamless, hparted⟩ := hread
  have hne : e.members ≠ [] := by
    intro hnil
    rw [hnil] at hlength
    cases hlength
  have hfound := (length_membersIn_iff (Or.inl rfl) he (.top hbody) hne (List.reverse_perm _).symm
    (o := {}) rfl hspan).2 hseamless
  exact ⟨e, he, span, hspan, body, hbody, hrendered, (hfound.2.mpr hparted).trans hlength⟩

/-- Members that a line break in a comment parts. -/
def brokenComment : String := "interface A \x7b b: string /*\n*/ a: number \x7d"

/-- How many members each entity of a script has. -/
def memberCounts (source : String) : List Nat :=
  (readSource .typescript (Text.ofString source)).entities.map (·.members.length)

/-- The comment moves with its member to the end, and the two members become one. -/
theorem processWith_merges_members :
    memberCounts brokenComment = [2] ∧
    (processWith {} brokenComment).processedText = some "interface A \x7b a: number b: string /*\n*/ \x7d" ∧
    memberCounts "interface A \x7b a: number b: string /*\n*/ \x7d" = [1] := by
  decide +kernel

end MemberOrder
