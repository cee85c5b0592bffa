/-
  Dealt members with what comes between them.

  The text of a list of members in a new order is what stands in front of the first one and then each
  member with what follows it up to the next: the rest of its unit with the separator of its place, the
  gap behind that place, and the comments in front of the next member (`written_dealtPieces`). This is so
  in every companion of the source. Outside of the members nothing but offsets around the spans and new
  separators is written (`beaded_slots`). In a text that is written in pieces that fit together the masked
  text is that of the pieces (`masked_written`).
-/
import MemberOrder.Proofs.Layout.Keeping
import MemberOrder.Proofs.Layout.Rendering
import MemberOrder.Proofs.Source.Segments
import MemberOrder.Proofs.Source.Stops

namespace MemberOrder.Layout

open Lexeme Scanned

variable {s : Setting} {t v : Text} {P : MemberInfo → Prop} {site : MemberInfo → Nat → Prop}

/-! ## The pieces of a unit -/

/-- What stands in front of a member in its unit. -/
def leadPieces (i : MemberInfo) : List Piece :=
  match i.span, i.unit with
  | some span, some unit => [.copy unit.start span.start]
  | _, _ => []

/-- What follows a member in its unit, with `new` where its own separator stood. -/
def tailPieces (t : Text) (i : MemberInfo) (new : String) : List Piece :=
  match i.span, i.unit with
  | some span, some unit =>
    let found := if i.separator.isEmpty then none
      else ownSeparatorIndex? i (t.slice span.stop unit.stop)
    let place := span.stop + found.getD 0
    [.copy span.stop place, .put new, .copy (place + i.separator.length) unit.stop]
  | _, _ => []

theorem unitPieces_eq {i : MemberInfo} {span unit : Span} (h : Placed t i span unit) (inner : List Piece)
    (new : String) : unitPieces t i inner new = leadPieces i ++ inner ++ tailPieces t i new := by
  simp only [unitPieces, leadPieces, tailPieces, h.span_eq, h.unit_eq]
  rfl

/-- A member whose children are in their places is copied. -/
theorem memberPieces_of_laidOut {m : Member} (h : m.LaidOut P t) {span : Span}
    (hspan : m.info.span = some span) : memberPieces s t m = [.copy span.start span.stop] := by
  cases m with
  | leaf i =>
    replace hspan : i.span = some span := hspan
    simp only [memberPieces, hspan, Option.map_some, Option.toList_some]
  | group i children =>
    obtain ⟨-, span', unit, body, hp, hbody, -, -, hlaid⟩ := h
    obtain rfl : span' = span := Option.some.inj (hp.span_eq.symm.trans hspan)
    have hkept : reordered children = false :=
      Bool.eq_false_iff.mpr fun hr => (reordered_iff hlaid (.refl children)).mp hr rfl
    simp only [memberPieces, hp.span_eq, hbody, blockPieces, map_fst_membersPieces, hkept,
      Bool.false_eq_true, if_false]

/-! ## Members and what comes between them -/

/-- Members from the place `slot` on, each with what comes after it, as they stand in a companion `v` of
the source; the gaps are those behind the places. -/
def slotsFrom (s : Setting) (t v : Text) (separators : List String) :
    (slot : Nat) → (gaps : List Piece) → List Member → List (List Char × List Char)
  | _, _, [] => []
  | slot, gaps, m :: rest =>
    (written v (memberPieces s t m),
      written v (tailPieces t m.info (slotSeparator s m.info.separator slot separators) ++ gaps.take 1 ++
        (rest.head?.map fun next => leadPieces next.info).getD [])) ::
      slotsFrom s t v separators (slot + 1) (gaps.drop 1) rest

/-- The members `ms` of a body in the order of `mid`, each with what comes after it. -/
def slots (s : Setting) (t v : Text) (body : Span) (ms mid : List Member) : List (List Char × List Char) :=
  slotsFrom s t v (ms.map (·.info.separator)) 0 (gapPieces body.stop body.start ms).tail mid

/-- The pieces of the members `ms` of a body that are dealt in the order of `mid`. -/
def dealtPieces (s : Setting) (t : Text) (body : Span) (ms mid : List Member) : List Piece :=
  fill (gapPieces body.stop body.start ms)
    (unitsPieces s t (ms.map (·.info.separator)) 0 (membersPieces s t mid))

/-- What stands in front of the first member: the first gap, and the comments of the member. -/
def frontPieces (body : Span) (ms mid : List Member) : List Piece :=
  (gapPieces body.stop body.start ms).take 1 ++ (mid.head?.map fun m => leadPieces m.info).getD []

theorem length_slotsFrom (separators : List String) (slot : Nat) (gaps : List Piece) (ms : List Member) :
    (slotsFrom s t v separators slot gaps ms).length = ms.length := by
  induction ms generalizing slot gaps with
  | nil => rfl
  | cons m rest ih => rw [slotsFrom, List.length_cons, List.length_cons, ih]

theorem written_fill_slots (separators : List String) (slot : Nat) (gap : Piece) {gaps : List Piece}
    {ms : List Member} (hms : ∀ m ∈ ms, ∃ span unit, Placed t m.info span unit)
    (hlength : gaps.length = ms.length) :
    written v (fill (gap :: gaps) (unitsPieces s t separators slot (membersPieces s t ms))) =
      written v (gap :: (ms.head?.map fun m => leadPieces m.info).getD []) ++
        Splitter.joined (slotsFrom s t v separators slot gaps ms) := by
  induction ms generalizing slot gap gaps with
  | nil =>
    rw [List.length_nil, List.length_eq_zero_iff] at hlength
    simp [hlength, fill, unitsPieces, membersPieces, slotsFrom, Splitter.joined]
  | cons m rest ih =>
    obtain ⟨⟨span, unit, hp⟩, hrest⟩ := List.forall_mem_cons.mp hms
    obtain ⟨next, gaps, rfl⟩ : ∃ next more, gaps = next :: more := by
      cases gaps with
      | nil => cases hlength
      | cons next more => exact ⟨next, more, rfl⟩
    have ih := ih (slot + 1) next hrest (Nat.succ.inj hlength)
    rw [membersPieces, unitsPieces, fill, unitPieces_eq hp, List.cons_append, slotsFrom,
      Splitter.joined_cons]
    have hcons : ∀ ps, written v (gap :: ps) = gap.text v ++ written v ps := fun _ => List.flatMap_cons
    have hnext : ∀ ps, written v (next :: ps) = written v [next] ++ written v ps :=
      fun ps => written_append [next] ps
    rw [hnext] at ih
    simp only [hcons, written_append, ih, List.take_succ_cons, List.take_zero, List.append_assoc,
      List.head?_cons, Option.map_some, Option.getD_some, List.drop_succ_cons, List.drop_zero]

/-- Dealt members are written one after the other, each with what comes after it. -/
theorem written_dealtPieces {body : Span} {ms mid : List Member}
    (hlaid : LaidFrom P t body.stop body.start ms) (hperm : ms.Perm mid) :
    written v (dealtPieces s t body ms mid) =
      written v (frontPieces body ms mid) ++ Splitter.joined (slots s t v body ms mid) := by
  obtain ⟨gap, gaps, hgaps⟩ : ∃ gap gaps, gapPieces body.stop body.start ms = gap :: gaps := by
    cases ms <;> exact ⟨_, _, rfl⟩
  have hlength : gaps.length = mid.length := by
    have := length_gapPieces body.stop body.start ms
    rw [hgaps, hperm.length_eq] at this
    exact Nat.succ.inj this
  rw [dealtPieces, frontPieces, slots, hgaps]
  exact written_fill_slots _ 0 gap (fun m hm =>
    ((hlaid.of_mem (hperm.mem_iff.mpr hm)).1.placed).2) hlength

section Dealing

variable {a b : Nat} (hx : Shows s.excerpt t a b) (hsited : Sited t P site)
  (hrules : Separates (s.rules.separator s.kind)) {body : Span} {ms mid : List Member}
  (hlaid : LaidFrom P t body.stop body.start ms) (ha : a ≤ body.start) (hb : body.stop ≤ b)
  (hperm : ms.Perm mid)

include hx hsited hrules hlaid ha hb hperm

theorem dealt_eq_fill : dealt s body (memberTexts s mid) =
    written t (fill (gapPieces body.stop body.start (sourceOrder mid))
      (unitsPieces s t ((sourceOrder mid).map (·.info.separator)) 0 (membersPieces s t mid))) :=
  dealt_eq_written hx hlaid ha hb (.of_perm hperm) (unitsFrom_deals hx hsited hrules (fun m hm => by
    have := hlaid.of_mem (hperm.mem_iff.mpr hm)
    exact ⟨this.1, by omega, by omega⟩) (.refl mid)
    (separates_of_mem_sourceOrder hsited hlaid (.of_perm hperm)) 0).1

/-- The text of dealt members is what is written in their pieces. -/
theorem dealt_eq_dealtPieces :
    dealt s body (memberTexts s mid) = written t (dealtPieces s t body ms mid) := by
  have hinfos := sourceOrder_infos hlaid (.of_perm hperm)
  have hseparators : (sourceOrder mid).map (·.info.separator) = ms.map (·.info.separator) := by
    have := congrArg (List.map MemberInfo.separator) hinfos
    rwa [List.map_map, List.map_map] at this
  rw [dealt_eq_fill hx hsited hrules hlaid ha hb hperm, hseparators, gapPieces_congr _ _ hinfos]
  rfl

/-- Members in another order are written dealt, between what stands around them. -/
theorem written_blockPieces (span : Span) (hne : mid ≠ ms) :
    written t (blockPieces s t span body (membersPieces s t mid)) =
      t.slice span.start body.start ++ dealt s body (memberTexts s mid) ++ t.slice body.stop span.stop := by
  have hreordered := (reordered_iff hlaid (.of_perm hperm)).mpr hne
  rw [dealt_eq_fill hx hsited hrules hlaid ha hb hperm]
  simp only [blockPieces, map_fst_membersPieces, hreordered, if_true,
    bounds_eq hlaid (.of_perm hperm), written_append]
  simp [written, Piece.text]

end Dealing

theorem mem_fill {piece : Piece} {gaps : List Piece} {units : List (List Piece)}
    (h : piece ∈ fill gaps units) : piece ∈ gaps ∨ ∃ unit ∈ units, piece ∈ unit := by
  induction gaps generalizing units with
  | nil => cases h
  | cons gap gaps ih =>
    cases units with
    | nil => exact Or.inl (List.mem_cons.mpr (Or.inl (List.mem_singleton.mp h)))
    | cons unit units =>
      rcases List.mem_append.mp (show piece ∈ (gap :: unit) ++ fill gaps units from h) with h | h
      · rcases List.mem_cons.mp h with rfl | h
        · exact Or.inl List.mem_cons_self
        · exact Or.inr ⟨unit, List.mem_cons_self, h⟩
      · refine (ih h).imp (List.mem_cons_of_mem _) fun ⟨unit', hunit, h⟩ => ?_
        exact ⟨unit', List.mem_cons_of_mem _ hunit, h⟩

/-- A piece of dealt members is a gap, or it belongs to a member and its unit. -/
theorem mem_dealtPieces {body : Span} {ms mid : List Member}
    (hlaid : LaidFrom P t body.stop body.start ms) (hperm : ms.Perm mid) {piece : Piece}
    (h : piece ∈ dealtPieces s t body ms mid) :
    piece ∈ gapPieces body.stop body.start ms ∨ ∃ m ∈ ms, ∃ slot, piece ∈ leadPieces m.info ++
      memberPieces s t m ++ tailPieces t m.info (slotSeparator s m.info.separator slot
        (ms.map (·.info.separator))) := by
  refine (mem_fill h).imp_right fun ⟨unit, hunit, hpiece⟩ => ?_
  have hall : ∀ (rest : List Member) (slot : Nat), (∀ m ∈ rest, m ∈ ms) →
      unit ∈ unitsPieces s t (ms.map (·.info.separator)) slot (membersPieces s t rest) →
      ∃ m ∈ ms, ∃ slot, unit = leadPieces m.info ++ memberPieces s t m ++ tailPieces t m.info
        (slotSeparator s m.info.separator slot (ms.map (·.info.separator))) := by
    intro rest
    induction rest with
    | nil => exact fun _ _ hunit => nomatch hunit
    | cons m rest ih =>
      intro slot hmem hunit
      obtain ⟨hm, hrest⟩ := List.forall_mem_cons.mp hmem
      rw [membersPieces, unitsPieces] at hunit
      rcases List.mem_cons.mp hunit with rfl | hunit
      · obtain ⟨-, span, unit, hp⟩ := (hlaid.of_mem hm).1.placed
        exact ⟨m, hm, slot, unitPieces_eq hp _ _⟩
      · exact ih (slot + 1) hrest hunit
  obtain ⟨m, hm, slot, rfl⟩ := hall mid 0 (fun m hm => hperm.mem_iff.mpr hm) hunit
  exact ⟨m, hm, slot, hpiece⟩

/-! ## Blank characters between members -/

theorem mem_written {c : Char} {ps : List Piece} (h : c ∈ written v ps) :
    c ∈ puts ps ∨ ∃ r ∈ copies ps, c ∈ v.slice r.1 r.2 := by
  obtain ⟨piece, hpiece, hc⟩ := List.mem_flatMap.mp h
  cases piece with
  | copy a b => exact Or.inr ⟨(a, b), List.mem_filterMap.mpr ⟨_, hpiece, rfl⟩, hc⟩
  | put separator => exact Or.inl (List.mem_flatMap.mpr ⟨_, hpiece, hc⟩)

/-- Pieces are blank that are copied from blank ranges and put in separators. -/
theorem blank_written {p : Splitter} {ps : List Piece}
    (hputs : ∀ c ∈ puts ps, p.separators.contains c = true)
    (hcopies : ∀ r ∈ copies ps, ∀ x, r.1 ≤ x → x < r.2 → p.blankAt v x) : p.Blank (written v ps) := by
  intro c hc
  rcases mem_written hc with hc | ⟨r, hr, hc⟩
  · exact Or.inr (hputs c hc)
  · exact Splitter.blank_slice (hcopies r hr) c hc

/-- An offset is inside of no member. -/
def Outside (ms : List Member) (x : Nat) : Prop :=
  ∀ m ∈ ms, ∀ span, m.info.span = some span → ¬(span.start ≤ x ∧ x < span.stop)

/-- The offsets of a unit around its member are inside of no member. -/
theorem outside_of_unit {lo hi : Nat} {ms : List Member} (h : LaidFrom P t hi lo ms) {m : Member}
    (hm : m ∈ ms) {span unit : Span} (hp : Placed t m.info span unit) {x : Nat} (h1 : unit.start ≤ x)
    (h2 : x < unit.stop) (hx : x < span.start ∨ span.stop ≤ x) : Outside ms x := by
  intro m' hm' span' hspan'
  obtain ⟨-, span'', unit', hp'⟩ := (h.of_mem hm').1.placed
  obtain rfl : span' = span'' := Option.some.inj (hspan'.symm.trans hp'.span_eq)
  have hleads := hp'.leads
  have hfollows := hp'.follows
  have hunits := h.apart hm hm'
  rw [hp.unitStart_eq, hp.unitStop_eq, hp'.unitStart_eq, hp'.unitStop_eq] at hunits
  rcases hunits with rfl | hunits
  · obtain rfl : span = span' := Option.some.inj (hp.span_eq.symm.trans hspan')
    omega
  · omega

/-- The gaps between units are inside of no member. -/
theorem gapPieces_outside {lo hi : Nat} {ms : List Member} (h : LaidFrom P t hi lo ms) :
    ∀ r ∈ copies (gapPieces hi lo ms), lo ≤ r.1 ∧ r.2 ≤ hi ∧ ∀ x, r.1 ≤ x → x < r.2 → Outside ms x := by
  induction ms generalizing lo with
  | nil =>
    intro r hr
    obtain rfl : r = (lo, hi) := List.mem_singleton.mp hr
    exact ⟨Nat.le_refl _, Nat.le_refl _, fun x _ _ m hm => nomatch hm⟩
  | cons m rest ih =>
    obtain ⟨h1, h2, h3⟩ := h
    obtain ⟨-, span, unit, hp⟩ := h2.placed
    have hlt := h2.unit_lt
    have hle := h3.le
    have hstart := hp.unitStart_eq
    have hstop := hp.unitStop_eq
    have hleads := hp.leads
    have hfollows := hp.follows
    -- an offset before the unit of the first member or after it
    have hout : ∀ x, (x < m.unitStart ∨ m.unitStop ≤ x) → Outside rest x → Outside (m :: rest) x := by
      refine fun x hx hrest => List.forall_mem_cons.mpr ⟨fun span' hspan' => ?_, hrest⟩
      obtain rfl : span = span' := Option.some.inj (hp.span_eq.symm.trans hspan')
      omega
    intro r hr
    rcases List.mem_cons.mp (show r ∈ (lo, m.unitStart) :: copies (gapPieces hi m.unitStop rest) from hr)
      with rfl | hr
    · refine ⟨Nat.le_refl _, by show m.unitStart ≤ hi; omega, fun x hlo hx => hout x (Or.inl hx) ?_⟩
      intro m' hm' span' hspan'
      obtain ⟨hlaid', hstart', -⟩ := h3.of_mem hm'
      obtain ⟨-, span'', unit', hp'⟩ := hlaid'.placed
      obtain rfl : span' = span'' := Option.some.inj (hspan'.symm.trans hp'.span_eq)
      have := hp'.leads
      rw [hp'.unitStart_eq] at hstart'
      replace hx : x < m.unitStart := hx
      omega
    · obtain ⟨g1, g2, g3⟩ := ih h3 r hr
      exact ⟨by omega, g2, fun x hx1 hx2 => hout x (Or.inr (by omega)) (g3 x hx1 hx2)⟩

/-- The pieces in front of a member and after it are inside of no member. -/
theorem unit_outside (hsited : Sited t P site) {lo hi : Nat} {ms : List Member} (h : LaidFrom P t hi lo ms)
    {m : Member} (hm : m ∈ ms) (new : String) :
    ∀ r ∈ copies (leadPieces m.info ++ tailPieces t m.info new),
      lo ≤ r.1 ∧ r.2 ≤ hi ∧ ∀ x, r.1 ≤ x → x < r.2 → Outside ms x := by
  obtain ⟨hlaid, hlo, hhi⟩ := h.of_mem hm
  obtain ⟨hP, span, unit, hp⟩ := hlaid.placed
  have hleads := hp.leads
  have hnonempty := hp.nonempty
  have hfollows := hp.follows
  rw [hp.unitStart_eq] at hlo
  rw [hp.unitStop_eq] at hhi
  obtain ⟨place, -, hplace, hstop, -, hsearch⟩ := hsited.found hP hp
  have hfound : tailPieces t m.info new =
      [.copy span.stop place, .put new, .copy (place + m.info.separator.length) unit.stop] := by
    rcases hsearch with ⟨hnone, rfl⟩ | ⟨hsome, hindex⟩
    · simp [tailPieces, hp.span_eq, hp.unit_eq, hnone]
    · have hsome' : m.info.separator.isEmpty = false := by simpa using hsome
      simp [tailPieces, hp.span_eq, hp.unit_eq, hsome', hindex, Nat.add_sub_cancel' hplace]
  have hcopies : copies (leadPieces m.info ++ tailPieces t m.info new) =
      [(unit.start, span.start), (span.stop, place), (place + m.info.separator.length, unit.stop)] := by
    rw [hfound]
    simp only [leadPieces, hp.span_eq, hp.unit_eq]
    rfl
  have hout : ∀ x, unit.start ≤ x → x < unit.stop → x < span.start ∨ span.stop ≤ x → Outside ms x :=
    fun x h1 h2 hx => outside_of_unit h hm hp h1 h2 hx
  rw [hcopies]
  simp only [List.forall_mem_cons, List.not_mem_nil, false_implies, implies_true, and_true]
  exact ⟨⟨hlo, by omega, fun x h1 h2 => hout x h1 (by omega) (Or.inl h2)⟩,
    ⟨by omega, by omega, fun x h1 h2 => hout x (by omega) (by omega) (Or.inr h1)⟩,
    ⟨by omega, hhi, fun x h1 h2 => hout x (by omega) h2 (Or.inr (by omega))⟩⟩

/-! ## Lists that are split into their members -/

/-- A splitter finds the members of a body in the masked text `v`: each is whole, around them there is
nothing but white space and separators, and what they have as separators are such. -/
structure SplitBy (p : Splitter) (v : Text) (body : Span) (ms : List Member) : Prop where
  whole : ∀ m ∈ ms, ∀ span, m.info.span = some span → p.Whole (v.slice span.start span.stop)
  blank : ∀ x, body.start ≤ x → x < body.stop → Outside ms x → p.blankAt v x
  separators : ∀ m ∈ ms, ∀ c ∈ m.info.separator.toList, p.separators.contains c = true

variable {p : Splitter} {body : Span} {ms mid : List Member}

theorem SplitBy.blank_copies (h : SplitBy p v body ms) {ps : List Piece}
    (hputs : ∀ c ∈ puts ps, p.separators.contains c = true)
    (hcopies : ∀ r ∈ copies ps, body.start ≤ r.1 ∧ r.2 ≤ body.stop ∧
      ∀ x, r.1 ≤ x → x < r.2 → Outside ms x) : p.Blank (written v ps) :=
  blank_written hputs fun r hr x h1 h2 =>
    let ⟨hlo, hhi, hout⟩ := hcopies r hr
    h.blank x (by omega) (by omega) (hout x h1 h2)

theorem puts_leadPieces (i : MemberInfo) : puts (leadPieces i) = [] := by
  unfold leadPieces
  split <;> rfl

theorem mem_puts_tailPieces {i : MemberInfo} {new : String} {c : Char}
    (h : c ∈ puts (tailPieces t i new)) : c ∈ new.toList := by
  unfold tailPieces at h
  split at h
  · simpa [puts, Piece.separator] using h
  · cases h

theorem SplitBy.blank_tail (h : SplitBy p v body ms) (hsited : Sited t P site)
    (hlaid : LaidFrom P t body.stop body.start ms) {m : Member} (hm : m ∈ ms) {new : String}
    (hnew : ∀ c ∈ new.toList, p.separators.contains c = true) :
    p.Blank (written v (tailPieces t m.info new)) :=
  h.blank_copies (fun c hc => hnew c (mem_puts_tailPieces hc)) fun r hr =>
    unit_outside hsited hlaid hm new r (by rw [copies_append]; exact List.mem_append_right _ hr)

theorem SplitBy.blank_lead (h : SplitBy p v body ms) (hsited : Sited t P site)
    (hlaid : LaidFrom P t body.stop body.start ms) {m : Member} (hm : m ∈ ms) :
    p.Blank (written v (leadPieces m.info)) :=
  h.blank_copies (by simp [puts_leadPieces]) fun r hr =>
    unit_outside hsited hlaid hm "" r (by rw [copies_append]; exact List.mem_append_left _ hr)

theorem SplitBy.blank_gap (h : SplitBy p v body ms) (hlaid : LaidFrom P t body.stop body.start ms)
    {gap : Piece} (hgap : gap ∈ gapPieces body.stop body.start ms) : p.Blank (gap.text v) := by
  have hwritten : written v [gap] = gap.text v := by simp [written]
  rw [← hwritten]
  refine h.blank_copies ?_ fun r hr => gapPieces_outside hlaid r ?_
  · intro c hc
    have hmem : c ∈ puts (gapPieces body.stop body.start ms) := by
      obtain ⟨piece, hpiece, hc⟩ := List.mem_flatMap.mp hc
      exact List.mem_flatMap.mpr ⟨gap, hgap, List.mem_singleton.mp hpiece ▸ hc⟩
    rw [puts_gapPieces] at hmem
    cases hmem
  · obtain ⟨piece, hpiece, hrange⟩ := List.mem_filterMap.mp hr
    exact List.mem_filterMap.mpr ⟨gap, hgap, List.mem_singleton.mp hpiece ▸ hrange⟩

/-- What stands in front of the first member is blank. -/
theorem SplitBy.blank_front (h : SplitBy p v body ms) (hsited : Sited t P site)
    (hlaid : LaidFrom P t body.stop body.start ms) (hperm : ms.Perm mid) :
    p.Blank (written v (frontPieces body ms mid)) := by
  rw [frontPieces, written_append]
  refine Splitter.Blank.append ?_ ?_
  · intro c hc
    obtain ⟨gap, hgap, hc⟩ := List.mem_flatMap.mp hc
    exact h.blank_gap hlaid (List.mem_of_mem_take hgap) c hc
  · cases mid with
    | nil => exact fun c hc => nomatch hc
    | cons m rest => exact h.blank_lead hsited hlaid (hperm.mem_iff.mpr List.mem_cons_self)

/-- Dealt members are whole, with nothing but blank characters after each. -/
theorem SplitBy.beaded (h : SplitBy p v body ms) (hsited : Sited t P site)
    (hlaid : LaidFrom P t body.stop body.start ms) (hperm : ms.Perm mid)
    (hrules : ∀ c ∈ (s.rules.separator s.kind).toList, p.separators.contains c = true) :
    p.Beaded (slots s t v body ms mid) := by
  have hnew : ∀ m ∈ ms, ∀ slot, ∀ c ∈ (slotSeparator s m.info.separator slot
      (ms.map (·.info.separator))).toList, p.separators.contains c = true := by
    refine fun m hm slot => slotSeparator_of (P := fun x => ∀ c ∈ x.toList, p.separators.contains c = true)
      ?_ slot hrules (h.separators m hm) (List.forall_mem_map.mpr h.separators)
    exact fun c hc => absurd hc (by simp)
  have hall : ∀ (rest : List Member) (slot : Nat) (gaps : List Piece), (∀ m ∈ rest, m ∈ ms) →
      (∀ gap ∈ gaps, gap ∈ gapPieces body.stop body.start ms) →
      p.Beaded (slotsFrom s t v (ms.map (·.info.separator)) slot gaps rest) := by
    intro rest
    induction rest with
    | nil => exact fun _ _ _ _ => List.forall_mem_nil _
    | cons m rest ih =>
      intro slot gaps hmem hgaps
      obtain ⟨hm, hrest⟩ := List.forall_mem_cons.mp hmem
      obtain ⟨-, span, unit, hp⟩ := (hlaid.of_mem hm).1.placed
      refine List.forall_mem_cons.mpr ⟨⟨?_, ?_⟩, ih (slot + 1) (gaps.drop 1) hrest fun gap hgap =>
        hgaps gap (List.mem_of_mem_drop hgap)⟩
      · rw [memberPieces_of_laidOut (hlaid.of_mem hm).1 hp.span_eq]
        simpa [written, Piece.text] using h.whole m hm span hp.span_eq
      · simp only [written_append]
        refine ((h.blank_tail hsited hlaid hm (hnew m hm slot)).append ?_).append ?_
        · intro c hc
          obtain ⟨gap, hgap, hc⟩ := List.mem_flatMap.mp hc
          exact h.blank_gap hlaid (hgaps gap (List.mem_of_mem_take hgap)) c hc
        · cases rest with
          | nil => exact List.forall_mem_nil _
          | cons next more => exact h.blank_lead hsited hlaid (hrest next List.mem_cons_self)
  exact hall mid 0 _ (fun m hm => hperm.mem_iff.mpr hm) fun gap hgap => List.mem_of_mem_tail hgap

/-! ## The masked text -/

/-- Something is copied before a separator is put in. -/
def Led : List Piece → Prop
  | [] => True
  | .copy a b :: rest => a < b ∨ Led rest
  | .put _ :: _ => False

/-- The first member is copied before a separator is put in. -/
theorem led_dealtPieces (hlaid : LaidFrom P t body.stop body.start ms) (hperm : ms.Perm mid)
    (hne : ms ≠ []) : Led (dealtPieces s t body ms mid) := by
  cases mid with
  | nil => exact absurd hperm.eq_nil hne
  | cons m rest =>
    have hm := hlaid.of_mem (hperm.mem_iff.mpr List.mem_cons_self)
    obtain ⟨-, span, unit, hp⟩ := hm.1.placed
    obtain ⟨first, more, rfl⟩ := List.exists_cons_of_ne_nil hne
    rw [dealtPieces, membersPieces, unitsPieces, unitPieces_eq hp, memberPieces_of_laidOut hm.1 hp.span_eq]
    simp only [gapPieces, fill, leadPieces, hp.span_eq, hp.unit_eq]
    exact Or.inr (Or.inr (Or.inl hp.nonempty))

theorem mem_copies {r : Nat × Nat} {ps : List Piece} : r ∈ copies ps ↔ Piece.copy r.1 r.2 ∈ ps := by
  constructor
  · intro h
    obtain ⟨piece, hpiece, hrange⟩ := List.mem_filterMap.mp h
    cases piece with
    | copy a b =>
      cases hrange
      exact hpiece
    | put separator => cases hrange
  · exact fun h => List.mem_filterMap.mpr ⟨_, h, rfl⟩

/-- What is copied for dealt members lies in their body. -/
theorem copies_dealtPieces (hsited : Sited t P site) (hlaid : LaidFrom P t body.stop body.start ms)
    (hperm : ms.Perm mid) : ∀ r ∈ copies (dealtPieces s t body ms mid), r.2 ≤ body.stop := by
  intro r hr
  rcases mem_dealtPieces hlaid hperm (mem_copies.mp hr) with hgap | ⟨m, hm, slot, hmem⟩
  · exact (gapPieces_outside hlaid r (mem_copies.mpr hgap)).2.1
  · have hunit := unit_outside hsited hlaid hm (slotSeparator s m.info.separator slot
      (ms.map (·.info.separator))) r
    simp only [copies_append, List.mem_append, mem_copies] at hunit hmem
    rcases hmem with (hlead | hmember) | htail
    · exact (hunit (Or.inl hlead)).2.1
    · obtain ⟨h1, h2, h3⟩ := hlaid.of_mem hm
      obtain ⟨-, span, unit, hp⟩ := h1.placed
      rw [memberPieces_of_laidOut h1 hp.span_eq] at hmember
      have hfollows := hp.follows
      rw [hp.unitStop_eq] at h3
      have hstop : r.2 = span.stop := (Piece.copy.inj (List.mem_singleton.mp hmember)).2
      omega
    · exact (hunit (Or.inr htail)).2.1

/-- What is put in between dealt members are separators. -/
theorem puts_dealtPieces (hsited : Sited t P site) (hlaid : LaidFrom P t body.stop body.start ms)
    (hperm : ms.Perm mid) (hrules : Separates (s.rules.separator s.kind)) {separator : String}
    (h : Piece.put separator ∈ dealtPieces s t body ms mid) : Separates separator := by
  have hcopied : ∀ {lo hi : Nat} {rest : List Member}, Piece.put separator ∉ gapPieces hi lo rest := by
    intro lo hi rest hmem
    induction rest generalizing lo with
    | nil => exact nomatch List.mem_singleton.mp hmem
    | cons m rest ih =>
      rcases List.mem_cons.mp hmem with heq | hmem
      · cases heq
      · exact ih hmem
  have hseparates : ∀ m ∈ ms, Separates m.info.separator := fun m hm =>
    hsited.separates (hlaid.of_mem hm).1.placed.1
  rcases mem_dealtPieces hlaid hperm h with hgap | ⟨m, hm, slot, hmem⟩
  · exact absurd hgap hcopied
  · obtain ⟨h1, -⟩ := hlaid.of_mem hm
    obtain ⟨-, span, unit, hp⟩ := h1.placed
    rw [memberPieces_of_laidOut h1 hp.span_eq] at hmem
    simp only [leadPieces, tailPieces, hp.span_eq, hp.unit_eq, List.mem_append, List.mem_cons,
      List.not_mem_nil, or_false, reduceCtorEq, false_or, Piece.put.injEq] at hmem
    rw [hmem]
    exact separates_slotSeparator slot hrules (hseparates m hm) (List.forall_mem_map.mpr hseparates)

/-- A text that is written in pieces that fit together masks what its pieces do: lexing gets to where each
separator is put in, as it stops at the end of what is copied before. -/
theorem masked_written {q : Profile} {u : Text} (hplain : ∀ c, c = ',' ∨ c = ';' → Plain q c)
    {ps : List Piece} {k : Nat} (h : seamless q t u k ps = true) (hcopies : ∀ r ∈ copies ps, r.2 ≤ t.size)
    (hputs : ∀ separator, Piece.put separator ∈ ps → Separates separator)
    (hled : Stops q u k ∨ Led ps) (hk : k + (written t ps).length ≤ u.size)
    (hslice : u.slice k (k + (written t ps).length) = written t ps) :
    (scan q u).masked.slice k (k + (written t ps).length) = written (scan q t).masked ps := by
  induction ps generalizing k with
  | nil => exact Text.slice_self _ (Nat.le_refl k)
  | cons piece rest ih =>
    have hcons : ∀ v : Text, written v (piece :: rest) = piece.text v ++ written v rest :=
      fun _ => List.flatMap_cons
    rw [seamless, Bool.and_eq_true] at h
    rw [hcons, List.length_append] at hk hslice ⊢
    have hmid : k + (piece.text t).length ≤ u.size := by omega
    have hassoc : k + ((piece.text t).length + (written t rest).length) =
        k + (piece.text t).length + (written t rest).length := (Nat.add_assoc _ _ _).symm
    rw [hassoc] at hk hslice ⊢
    rw [← Text.slice_append u (Nat.le_add_right k (piece.text t).length) (Nat.le_add_right _ _)] at hslice
    obtain ⟨hpiece, hrest⟩ := List.append_inj hslice (by rw [Text.length_slice u hmid]; omega)
    -- the masked text of the piece, and how lexing goes on
    obtain ⟨hmasked, hled'⟩ : (scan q u).masked.slice k (k + (piece.text t).length) =
        piece.text (scan q t).masked ∧ (Stops q u (k + (piece.text t).length) ∨ Led rest) := by
      cases piece with
      | copy a b =>
        have hb : b ≤ t.size := hcopies (a, b) List.mem_cons_self
        have hlength : ((Piece.copy a b).text t).length = b - a := Text.length_slice t hb
        rw [hlength] at hmid hpiece ⊢
        by_cases hab : b ≤ a
        · have hzero : b - a = 0 := by omega
          rw [hzero, Nat.add_zero, Text.slice_self _ (Nat.le_refl k)]
          refine ⟨(Text.slice_self _ hab).symm, hled.imp_right fun hled => ?_⟩
          exact hled.resolve_left (by omega)
        · have hkeeps : keepsRange q t u a b k = true := by simpa [fits, hab] using h.1
          refine ⟨(companions_of_keepsRange hkeeps (by omega) hb hmid hpiece).2, Or.inl ?_⟩
          obtain ⟨d, d', e, e', before, before', ls, ms, -, hbefore', -, hms, -⟩ :=
            reads_of_keepsRange hkeeps
          exact ⟨e', _, hbefore'.trans hms⟩
      | put separator =>
        have hstops : Stops q u k := hled.resolve_right id
        have htext : ∀ v : Text, (Piece.put separator).text v = separator.toList := fun _ => rfl
        rw [htext] at hmid hpiece ⊢
        have hone : ∀ c, c = ',' ∨ c = ';' → separator = String.singleton c →
            (scan q u).masked.slice k (k + separator.toList.length) = separator.toList ∧
              (Stops q u (k + separator.toList.length) ∨ Led rest) := by
          rintro c hc rfl
          rw [String.toList_singleton, List.length_singleton] at hmid hpiece ⊢
          have hchar : u[k]? = some c := by
            have hk' : u[k]? = some u[k] := Array.getElem?_eq_getElem (by omega)
            rw [Text.slice_one hk'] at hpiece
            rw [hk', List.cons.inj hpiece |>.1]
          obtain ⟨d, before, hbefore⟩ := hstops
          obtain ⟨hl, hdepth⟩ := lexemeAt_of_plain (d := d) hchar (hplain c hc)
          have hreads : Reads q u (k + 1) d k d [⟨.code, k, k + 1⟩] := by
            rw [← hl]
            refine .step (by omega) ?_
            rw [hl, hdepth]
            exact .stop
          refine ⟨?_, Or.inl ⟨d, _, hbefore.trans hreads⟩⟩
          rw [Reads.slice_masked hbefore hreads]
          simp [Lexeme.masked, Text.slice_one hchar]
        rcases hputs separator List.mem_cons_self with rfl | rfl | rfl
        · exact ⟨Text.slice_self _ (Nat.le_refl k), Or.inl hstops⟩
        · exact hone ',' (Or.inl rfl) rfl
        · exact hone ';' (Or.inr rfl) rfl
    have hcopies' : ∀ r ∈ copies rest, r.2 ≤ t.size := fun r hr => by
      refine hcopies r ?_
      rw [show copies (piece :: rest) = copies [piece] ++ copies rest from copies_append [piece] rest]
      exact List.mem_append_right _ hr
    rw [← Text.slice_append (scan q u).masked (Nat.le_add_right k (piece.text t).length)
      (Nat.le_add_right _ _), hmasked, ih h.2 hcopies'
      (fun separator hmem => hputs separator (List.mem_cons_of_mem _ hmem)) hled' hk hrest, hcons]

end MemberOrder.Layout
