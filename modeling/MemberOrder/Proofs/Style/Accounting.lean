/-
  What becomes of the code of an entity of a style sheet that is written anew.

  Of every character but white space and semicolons, what is written and what is stray (`strays`) hold together
  as many as the entity holds code and the comments that are written with it hold text
  (`writeEntity_keeps_statements`). The count is made part by part:

  - a declaration keeps its name, its colon and its value (`count_retype`);
  - the parts of a block are the texts in front of its members and behind them, and those of the members, in
    whatever order these are (`count_memberParts`, by induction on the nesting);
  - the text in front of the body keeps its code, with the comments that lead the entity (`count_retypedHead`).

  Between the code and the source there is what comments inside of declarations hold: where they stand in a
  value they are written, where they stand in front of the colon they are not. So the code bounds what is
  written from below and the source bounds it from above.
-/
import MemberOrder.Proofs.Layout.LineComments
import MemberOrder.Proofs.Layout.Tallies
import MemberOrder.Proofs.Style.Strays

/-! ## Characters between two offsets -/

namespace MemberOrder.Text

variable {x : Char} {t u : Text} {a b c : Nat}

theorem count_slice_append (x : Char) (t : Text) (hab : a ≤ b) (hbc : b ≤ c) :
    (t.slice a c).count x = (t.slice a b).count x + (t.slice b c).count x := by
  rw [← slice_append t hab hbc, List.count_append]

theorem count_slice_eq_zero (h : ∀ i : Nat, a ≤ i → i < b → t[i]? ≠ some x) : (t.slice a b).count x = 0 := by
  refine List.count_eq_zero.mpr fun hmem => ?_
  obtain ⟨i, h1, h2, hi⟩ := mem_slice.mp hmem
  exact h i h1 h2 hi

/-- A character that one text has wherever another one has it occurs there no less often. -/
theorem count_slice_le (h : ∀ i : Nat, t[i]? = some x → u[i]? = some x) (a b : Nat) :
    (t.slice a b).count x ≤ (u.slice a b).count x := by
  induction b with
  | zero =>
    rw [slice_self t (Nat.zero_le a)]
    exact Nat.zero_le _
  | succ b ih =>
    rcases Nat.lt_or_ge b a with hlt | hle
    · rw [slice_self t hlt]
      exact Nat.zero_le _
    · have hone : (t.slice b (b + 1)).count x ≤ (u.slice b (b + 1)).count x := by
        by_cases hb : t[b]? = some x
        · exact Nat.le_of_eq (by rw [slice_one hb, slice_one (h b hb)])
        · rw [count_slice_eq_zero fun i h1 h2 => by rwa [show i = b by omega]]
          exact Nat.zero_le _
      rw [count_slice_append x t hle (Nat.le_succ b), count_slice_append x u hle (Nat.le_succ b)]
      exact Nat.add_le_add ih hone

end MemberOrder.Text

/-! ## Code -/

namespace MemberOrder.Scanned

variable {p : Profile} {t : Text} {x : Char} {a b : Nat}

theorem count_clean_le (hx : Text.isSpace x = false) (a b : Nat) :
    ((scan p t).clean.slice a b).count x ≤ (t.slice a b).count x :=
  Text.count_slice_le (fun _ h => getElem?_of_clean hx h) a b

/-- Between two offsets there is no code but white space. -/
theorem count_clean_spaces (hx : Text.isSpace x = false)
    (h : ∀ i, a ≤ i → i < b → (scan p t).masked.testAt i Text.isSpace = true) :
    ((scan p t).clean.slice a b).count x = 0 := by
  refine Text.count_slice_eq_zero fun i h1 h2 hi => ?_
  have hspace := clean_of_masked_space (h i h1 h2)
  rw [Text.testAt_of_getElem? hi, hx] at hspace
  cases hspace

end MemberOrder.Scanned

/-! ## Declarations -/

namespace MemberOrder.Style

open Layout Scanned

variable {fileType : FileType} {t : Text} {x : Char} {a b : Nat} {m : Pattern.Found}

theorem count_nameAndValue (hx : Text.isSpace x = false) (o : Options) (name value : String) (width : Nat) :
    (nameAndValue o name value width ":").toList.count x =
      name.toList.count x + ([':'].count x + value.toList.count x) := by
  have hspaces (n : Nat) : (List.replicate n ' ').count x = 0 :=
    count_spaces hx fun c hc => List.eq_of_mem_replicate hc ▸ (by decide)
  obtain ⟨m, n, htext⟩ := nameAndValue_spacing o name value width
  rw [htext, ← List.singleton_append (x := ':')]
  simp only [List.count_append, hspaces, Nat.zero_add, Nat.add_zero]

/-- Between the name of a declaration and its value the code is a colon. -/
theorem count_gap (hx : Text.isSpace x = false) {k v : Nat}
    (h : Parts (profileOf fileType) (scan (profileOf fileType) t).masked a m k)
    (hv : v = (scan (profileOf fileType) t).nextCode m.stop b) :
    ((scan (profileOf fileType) t).clean.slice k v).count x = [':'].count x ∧
      [':'].count x ≤ (t.slice k v).count x := by
  have hcolon : (':' : Char) ∉ (profileOf fileType).quotes := by
    rw [quotes_profileOf]
    decide
  obtain ⟨hsource, hcomments, -⟩ := (getElem?_masked_iff hcolon (by decide)).mp h.colon
  have hclean := (getElem?_clean_outside hcomments).trans hsource
  have hlt := h.lt
  have hle : m.stop ≤ v := hv ▸ Text.le_nextCode _ _ _
  have hstop : m.stop - 1 + 1 = m.stop := by omega
  have hsplit (u : Text) (hu : u[m.stop - 1]? = some ':') : (u.slice k v).count x =
      (u.slice k (m.stop - 1)).count x + ([':'].count x + (u.slice m.stop v).count x) := by
    have hone := Text.slice_one hu
    rw [hstop] at hone
    rw [Text.count_slice_append x u (b := m.stop - 1) (by omega) (by omega),
      Text.count_slice_append x u (a := m.stop - 1) (b := m.stop) (by omega) hle, hone]
  rw [hsplit _ hclean, hsplit t hsource, count_clean_spaces hx h.spaces,
    count_clean_spaces hx fun i h1 h2 => Text.space_before_nextCode h1 (hv ▸ h2)]
  omega

/-- The code of a declaration is no more than that of its name, a colon and its value, and these are written
in it. -/
theorem count_declaration (hx : Text.isSpace x = false) {k v : Nat}
    (h : Parts (profileOf fileType) (scan (profileOf fileType) t).masked a m k)
    (hv : v = (scan (profileOf fileType) t).nextCode m.stop b) (hvb : v ≤ b) :
    ((scan (profileOf fileType) t).clean.slice a b).count x ≤
        (t.slice a k).count x + ([':'].count x + (t.slice v b).count x) ∧
      (t.slice a k).count x + ([':'].count x + (t.slice v b).count x) ≤ (t.slice a b).count x := by
  obtain ⟨hgap, hgap'⟩ := count_gap hx h hv
  have hlt := h.lt
  have hle : m.stop ≤ v := hv ▸ Text.le_nextCode _ _ _
  have hsplit (u : Text) : (u.slice a b).count x =
      (u.slice a k).count x + ((u.slice k v).count x + (u.slice v b).count x) := by
    rw [Text.count_slice_append x u h.le (by omega), Text.count_slice_append x u (by omega) hvb]
  rw [hsplit, hsplit t, hgap]
  exact ⟨Nat.add_le_add (count_clean_le hx _ _) (Nat.add_le_add_left (count_clean_le hx _ _) _),
    Nat.add_le_add_left (Nat.add_le_add_right hgap' _) _⟩

/-- However it is typed, a declaration keeps its code. -/
theorem count_retype (hx : Text.isSpace x = false) (hsass : fileType ≠ .sass) {i : MemberInfo}
    (h : (sheetOf fileType t).Holds (.leaf i)) {span : Span} (hspan : i.span = some span) (o : Options)
    (width : Nat) :
    ((scan (profileOf fileType) t).clean.slice span.start span.stop).count x ≤
        ((Rules.style fileType).retype o (.leaf i) width).toList.count x ∧
      ((Rules.style fileType).retype o (.leaf i) width).toList.count x ≤
        (t.slice span.start span.stop).count x := by
  cases h with
  | declaration hcut hinfo hopens =>
    rename_i start stop a b semicolon
    obtain ⟨-, -, hsome, -⟩ := hcut.wellCut
    obtain ⟨m, hm⟩ := Option.isSome_iff_exists.mp hsome
    obtain ⟨hname, hvalue, htext⟩ := declarationInfo_parts hinfo hm
    obtain ⟨k, hparts⟩ := declaration_parts (quotes_profileOf fileType) hm
    have hbare : i.span = (declarationInfo (sheetOf fileType t) start stop semicolon).span :=
      (congrArg MemberInfo.span hinfo :)
    rw [(declarationInfo_spec stop semicolon hsome).1, hspan] at hbare
    rw [sheetOf_eq hsass] at hname hvalue htext hparts hbare
    obtain ⟨hstart, hstop⟩ : span.start = start ∧ span.stop = stop := by
      rw [Option.some.inj hbare]
      exact ⟨rfl, rfl⟩
    rw [hstart, hstop]
    by_cases htruthy : i.value.isTruthy = true
    · have hretype : (Rules.style fileType).retype o (.leaf i) width =
          nameAndValue o i.name i.value.display width ":" := by
        simp [Rules.style, Member.children?, Member.info, Member.name, htruthy]
      let v := (scan (profileOf fileType) t).nextCode m.stop stop
      have hname' : i.name.toList = t.slice start k := by
        rw [hname, hparts.startOf, hparts.stopOf]
        exact String.toList_ofList
      have hvalue' : i.value.display.toList = t.slice v stop := by
        rw [hvalue]
        exact String.toList_ofList
      have hne : t.slice v stop ≠ [] := by
        intro hnil
        rw [hvalue, Value.isTruthy, Bool.not_eq_true', String.isEmpty_eq_false_iff] at htruthy
        rw [← hvalue', hvalue] at hnil
        exact htruthy (String.toList_inj.mp hnil)
      rw [hretype, count_nameAndValue hx, hname', hvalue']
      exact count_declaration hx hparts rfl (Nat.le_of_lt (code_of_slice_nextCode rfl hne).1)
    · have hretype : (Rules.style fileType).retype o (.leaf i) width = i.fullText := by
        simp [Rules.style, Member.children?, Member.info, htruthy]
      have hfull : i.fullText.toList = t.slice start stop := by
        rw [htext]
        exact String.toList_ofList
      rw [hretype, hfull]
      exact ⟨count_clean_le hx _ _, Nat.le_refl _⟩

end MemberOrder.Style

/-! ## Bodies -/

namespace MemberOrder

open Layout

variable {P : MemberInfo → Prop} {t u : Text} {x : Char}

/-- What the span of a member covers in a text. -/
def covered (u : Text) (m : Member) : List Char :=
  match m.info.span with
  | some span => u.slice span.start span.stop
  | none => []

theorem Placed.covered_eq {m : Member} {span unit : Span} (h : Placed t m.info span unit) (u : Text) :
    covered u m = u.slice span.start span.stop := by
  rw [covered, h.span_eq]

theorem strayInEach_eq (u : Text) (ms : List Member) : strayInEach u ms = ms.flatMap (strayIn u) := by
  induction ms with
  | nil => rfl
  | cons m rest ih => rw [strayInEach, ih, List.flatMap_cons]

/-- What stands between two offsets is covered by the members there or stands around them. -/
theorem count_covered (x : Char) (u : Text) {lo hi : Nat} {ms : List Member} (h : LaidFrom P t hi lo ms) :
    (u.slice lo hi).count x = tally x (ms.map (covered u)) + (around u hi lo ms).count x := by
  induction ms generalizing lo with
  | nil => simp [around]
  | cons m rest ih =>
    obtain ⟨hlo, hm, hrest⟩ := h
    obtain ⟨-, span, unit, hplaced⟩ := hm.placed
    rw [hplaced.unitStart_eq] at hlo
    rw [hplaced.unitStop_eq] at hrest
    have hle := hplaced.leads
    have hlt := hplaced.nonempty
    have hlaid := hrest.weaken hplaced.follows (Nat.le_refl hi)
    have hhi := hlaid.le
    rw [List.map_cons, tally_cons, hplaced.covered_eq, around, hplaced.span_eq, List.count_append,
      Text.count_slice_append x u (b := span.start) (by omega) (by omega),
      Text.count_slice_append x u (a := span.start) (b := span.stop) (by omega) hhi, ih hlaid]
    omega

theorem count_around_le {u : Text} (h : ∀ i : Nat, t[i]? = some x → u[i]? = some x) (stop cursor : Nat)
    (ms : List Member) : (around t stop cursor ms).count x ≤ (around u stop cursor ms).count x := by
  induction ms generalizing cursor with
  | nil => exact Text.count_slice_le h _ _
  | cons m rest ih =>
    rw [around, around]
    cases m.info.span with
    | none => exact ih cursor
    | some span =>
      simp only [List.count_append]
      exact Nat.add_le_add (Text.count_slice_le h _ _) (ih span.stop)

end MemberOrder

/-! ## Members -/

namespace MemberOrder.Style

open Layout Scanned

variable {fileType : FileType} {P : MemberInfo → Prop} {t : Text} {x : Char}

/-- The separators of style sheets are semicolons. -/
theorem Sheet.Holds.separator_eq {d : Sheet} {m : Member} (h : d.Holds m) :
    m.info.separator = "" ∨ m.info.separator = ";" := by
  cases h with
  | declaration hcut hinfo hopens =>
    rename_i start stop a b semicolon i
    obtain ⟨-, -, hsome, -⟩ := hcut.wellCut
    have hbare : i.separator = (declarationInfo d start stop semicolon).separator :=
      (congrArg MemberInfo.separator hinfo :)
    rw [(declarationInfo_spec stop semicolon hsome).2.2] at hbare
    show i.separator = "" ∨ i.separator = ";"
    rw [hbare]
    split
    · exact Or.inl rfl
    · exact Or.inr rfl
  | step hnamed hstays hends => exact Or.inl hends

/-- The separator that a place gets is a semicolon as well. -/
theorem count_slotSeparator (hx : x ≠ ';') {s : Setting} (hrules : s.rules = Rules.style fileType) {own : String}
    (hown : own = "" ∨ own = ";") {separators : List String} (h : ∀ y ∈ separators, y = "" ∨ y = ";")
    (slot : Nat) :
    (slotSeparator s own slot separators).toList.count x = 0 := by
  have hsep : slotSeparator s own slot separators = "" ∨ slotSeparator s own slot separators = ";" := by
    refine slotSeparator_of (P := fun y => y = "" ∨ y = ";") (Or.inl rfl) slot ?_ hown h
    rw [hrules]
    simp only [Rules.style]
    split
    · exact Or.inl rfl
    · exact Or.inr rfl
  rcases hsep with heq | heq
  · rw [heq]
    rfl
  · rw [heq]
    exact List.count_eq_zero.mpr (by simpa using hx)

/-- A declaration has no other parts than itself and its separator. -/
theorem memberParts_leaf (s : Setting) (width : Nat) (separator : String) (i : MemberInfo)
    (inside : List (List Char)) : memberParts s width separator (.leaf i) inside =
      [(s.rules.retype s.options (.leaf i) width).toList, separator.toList] := by
  unfold memberParts
  split <;> rfl

/-- The parts of a block that holds members. -/
theorem memberParts_group {s : Setting} {i : MemberInfo} {children : List Member} {span body : Span}
    (hspan : i.span = some span) (hbody : i.body = some body) (hne : children.isEmpty = false)
    (hbounds : bounds body children = (body.start, body.stop)) (width : Nat) (separator : String)
    (inside : List (List Char)) : memberParts s width separator (.group i children) inside =
      Text.trimRight (s.excerpt.slice span.start body.start) :: inside ++
        [Text.trimLeft (s.excerpt.slice body.stop span.stop), separator.toList] := by
  simp only [memberParts, Member.info, hspan, hbody, Member.children, hne, hbounds, Bool.false_eq_true, if_false]

/-- Members of a sheet, laid out between two offsets that an excerpt shows, where none of them is lost. -/
structure Shown (fileType : FileType) (t : Text) (P : MemberInfo → Prop) (lo hi : Nat) (m : Member) : Prop where
  laidOut : m.LaidOut P t
  start : lo ≤ m.unitStart
  stop : m.unitStop ≤ hi
  held : m.Throughout (sheetOf fileType t).Holds

theorem shown_of_laidFrom {lo hi lo' hi' : Nat} {ms : List Member} (h : LaidFrom P t hi lo ms) (hlo : lo' ≤ lo)
    (hhi : hi ≤ hi') (hheld : HeldIn (sheetOf fileType t) ms) : ∀ m ∈ ms, Shown fileType t P lo' hi' m := by
  intro m hm
  obtain ⟨hlaid, h1, h2⟩ := h.of_mem hm
  exact ⟨hlaid, by omega, by omega, eachThroughout_iff.mp hheld m hm⟩

/-- Separators in source order are those of the members. -/
theorem separator_of_sourceOrder {ms mid : List Member} {lo hi : Nat} (hms : ∀ m ∈ ms, Shown fileType t P lo hi m)
    (h : EachRearranged ms mid) : ∀ y ∈ (sourceOrder mid).map (·.info.separator), y = "" ∨ y = ";" := by
  intro y hy
  obtain ⟨m', hm', rfl⟩ := List.mem_map.mp hy
  rw [sourceOrder_eq_stableSort] at hm'
  have hmem : m'.info ∈ mid.map Member.info := List.mem_map_of_mem ((Order.stableSort_perm _ mid).mem_iff.mp hm')
  rw [h.map_info] at hmem
  obtain ⟨m, hm, hinfo⟩ := List.mem_map.mp hmem
  rw [← hinfo]
  exact (hms m hm).held.self.separator_eq

/-- What stands around members is the same in any order of these. -/
theorem count_strayInEach_perm (u : Text) {ms mid : List Member} (h : ms.Perm mid) :
    (strayInEach u ms).count x = (strayInEach u mid).count x := by
  rw [strayInEach_eq, strayInEach_eq]
  exact (h.flatMap_right _).count_eq x

theorem tally_covered_perm (u : Text) {ms mid : List Member} (h : ms.Perm mid) :
    tally x (ms.map (covered u)) = tally x (mid.map (covered u)) := by
  unfold tally
  exact ((h.map _).map _).sum_nat

section Members

variable {s : Setting} {lo hi : Nat} {code : Text}

/-- A body consists of its members and what stands around them. -/
theorem count_body (hx : Text.isSpace x = false) (hcode : code = (scan (profileOf fileType) t).clean)
    {ms mid : List Member} (hlaid : LaidFrom P t hi lo ms) (hperm : ms.Perm mid) {n : Nat}
    (h : tally x (mid.map (covered code)) ≤ n + (strayInEach code mid).count x ∧
      n + (strayInEach code mid).count x ≤ tally x (mid.map (covered t))) :
    (code.slice lo hi).count x ≤ n + (around code hi lo ms ++ strayInEach code ms).count x ∧
      n + (around code hi lo ms ++ strayInEach code ms).count x ≤ (t.slice lo hi).count x := by
  have haround : (around code hi lo ms).count x ≤ (around t hi lo ms).count x :=
    count_around_le (fun _ hi => getElem?_of_clean hx (hcode ▸ hi)) hi lo ms
  rw [← tally_covered_perm code hperm, ← tally_covered_perm t hperm, ← count_strayInEach_perm code hperm] at h
  rw [count_covered x code hlaid, count_covered x t hlaid, List.count_append]
  omega

mutual

/-- The parts of a member and its stray code are its code, with what comments there are inside of it. -/
theorem count_memberParts (hx : Text.isSpace x = false) (hsemicolon : x ≠ ';') (hsass : fileType ≠ .sass)
    (hcode : code = (scan (profileOf fileType) t).clean)
    (hrules : s.rules = Rules.style fileType) (hshows : Shows s.excerpt t lo hi) {m m' : Member}
    (hm : Shown fileType t P lo hi m) (h : m.Rearranged m') {separator : String}
    (hseparator : separator.toList.count x = 0) (width : Nat) :
    (covered code m).count x ≤
        tally x (memberParts s width separator m' (partsInside s m')) + (strayIn code m).count x ∧
      tally x (memberParts s width separator m' (partsInside s m')) + (strayIn code m).count x ≤
        (covered t m).count x := by
  cases h with
  | leaf i =>
    obtain ⟨-, span, unit, hplaced⟩ := hm.laidOut
    have htyped := count_retype hx hsass hm.held hplaced.span_eq s.options width
    rw [memberParts_leaf, hrules, Placed.covered_eq hplaced, Placed.covered_eq hplaced, strayIn, hcode]
    simpa [hseparator] using htyped
  | group i hperm heach =>
    rename_i children mid children'
    obtain ⟨-, span, unit, body, hplaced, hbody, hfront, hback, hchildren⟩ := hm.laidOut
    have hstart := hm.start
    have hstop := hm.stop
    have hleads := hplaced.leads
    have hfollows := hplaced.follows
    have hle := hchildren.le
    rw [hplaced.unitStart_eq] at hstart
    rw [hplaced.unitStop_eq] at hstop
    have hcut (u : Text) : (covered u (.group i children)).count x = (u.slice span.start body.start).count x +
        (u.slice body.start body.stop).count x + (u.slice body.stop span.stop).count x := by
      rw [Placed.covered_eq hplaced, Text.count_slice_append x u (b := body.start) hfront (by omega),
        Text.count_slice_append x u (a := body.start) hle hback, Nat.add_assoc]
    have htext (a b : Nat) := hcode ▸ count_clean_le (p := profileOf fileType) (t := t) hx a b
    have hrearranged : Rearranged children children' := ⟨mid, hperm, heach⟩
    cases hempty : children.isEmpty with
    | true =>
      -- a block without members is written as it is
      have hfull : i.fullText.toList = t.slice span.start span.stop := by
        rw [hplaced.text]
        exact String.toList_ofList
      have hparts : memberParts s width separator (.group i children') (partsInside s (.group i children')) =
          [i.fullText.toList, separator.toList] := by
        simp [memberParts, Member.info, hplaced.span_eq, hbody, Member.children, hrearranged.isEmpty_eq, hempty,
          hrules, Rules.style, Member.children?]
      rw [hparts, hfull, Placed.covered_eq hplaced, Placed.covered_eq hplaced, strayIn, hbody]
      simpa [hempty, hseparator] using htext span.start span.stop
    | false =>
      have hall : ∀ m ∈ children, Shown fileType t P lo hi m :=
        shown_of_laidFrom hchildren (by omega) (by omega) hm.held.2
      have hmid : ∀ m ∈ mid, Shown fileType t P lo hi m := fun m hm => hall m (hperm.mem_iff.mpr hm)
      have hparts := count_partsFrom hx hsemicolon hsass hcode hrules hshows hmid heach
        (separator_of_sourceOrder hmid heach) (s.rules.nameWidth children') 0
      have hbody' := count_body hx hcode hchildren hperm hparts
      have hhead := htext span.start body.start
      have hfoot := htext body.stop span.stop
      have hhead' : s.excerpt.slice span.start body.start = _ := hshows (by omega) (by omega)
      have hfoot' : s.excerpt.slice body.stop span.stop = _ := hshows (by omega) (by omega)
      have hstrays : strayIn code (.group i children) =
          around code body.stop body.start children ++ strayInEach code children := by
        simp only [strayIn, hbody, hempty, Bool.false_eq_true, if_false]
      rw [memberParts_group hplaced.span_eq hbody (hrearranged.isEmpty_eq.trans hempty)
        (bounds_eq hchildren hrearranged), hcut, hcut, hstrays]
      simp only [tally_cons, tally_append, tally_nil, List.cons_append, count_trimRight hx, count_trimLeft hx,
        hseparator, hhead', hfoot', partsInside, bodyParts, map_fst_partsInsideEach]
      omega

theorem count_partsFrom (hx : Text.isSpace x = false) (hsemicolon : x ≠ ';') (hsass : fileType ≠ .sass)
    (hcode : code = (scan (profileOf fileType) t).clean)
    (hrules : s.rules = Rules.style fileType) (hshows : Shows s.excerpt t lo hi) {ms ms' : List Member}
    (hms : ∀ m ∈ ms, Shown fileType t P lo hi m) (h : EachRearranged ms ms') {separators : List String}
    (hseparators : ∀ y ∈ separators, y = "" ∨ y = ";") (width slot : Nat) :
    tally x (ms.map (covered code)) ≤
        tally x (partsFrom s width separators slot (partsInsideEach s ms')) + (strayInEach code ms).count x ∧
      tally x (partsFrom s width separators slot (partsInsideEach s ms')) + (strayInEach code ms).count x ≤
        tally x (ms.map (covered t)) := by
  cases h with
  | nil => exact ⟨Nat.le_refl _, Nat.le_refl _⟩
  | cons hm hrest =>
    obtain ⟨hself, hothers⟩ := List.forall_mem_cons.mp hms
    have hown := hself.held.self.separator_eq
    rw [← hm.info_eq] at hown
    have h1 := count_memberParts hx hsemicolon hsass hcode hrules hshows hself hm
      (count_slotSeparator hsemicolon hrules hown hseparators slot) width
    have h2 := count_partsFrom hx hsemicolon hsass hcode hrules hshows hothers hrest hseparators width (slot + 1)
    simp only [partsInsideEach, partsFrom, strayInEach, List.map_cons, tally_cons, tally_append, List.count_append]
    omega

end

end Members

end MemberOrder.Style

/-! ## Heads -/

namespace MemberOrder

open Attachment Scanned

variable {p : Profile} {t : Text} {target : Nat}

/-- The comments that lead an entity stand in front of its body, and with them only white space. -/
structure Headed (s : Scanned) (e : Entity) : Prop where
  inside : ∀ {span body : Span}, e.span = some span → e.body = some body → ∀ c ∈ e.leading,
    span.start ≤ c.offset ∧ c.stop ≤ body.start
  spaces : ∀ {span : Span}, e.span = some span → ∀ c ∈ e.leading, ∀ i, span.start ≤ i → i < c.stop →
    s.masked.testAt i Text.isSpace = true

theorem headed_of_takeLeading {e : Entity} {pool : List Comment} (hpool : pool.Sublist (scan p t).comments)
    (htarget : target ≤ t.size) {floor : Nat} (hleading : e.leading = (takeLeading (scan p t) target floor pool).1)
    {a b : Span} (hspan : e.span = some a) (hbody : e.body = some b) (hstart : a.start = startOf e.leading target)
    (hle : target ≤ b.start) : Headed (scan p t) e := by
  have hspec := (takeLeading_spec ((orderly_scan p t).sublist hpool) target floor).1
  rw [← hleading] at hspec
  have hfirst (c : Comment) (hc : c ∈ e.leading) : startOf e.leading target ≤ c.offset := by
    have hsub : e.leading.Sublist (scan p t).comments :=
      hleading ▸ (takeLeading_sublist _ target floor pool).trans hpool
    have hordered := (orderly_scan p t).ordered.sublist hsub
    cases hcs : e.leading with
    | nil =>
      rw [hcs] at hc
      cases hc
    | cons d rest =>
      rw [hcs] at hc hordered
      have hd := (orderly_scan p t).nonempty d (hsub.subset (hcs ▸ List.mem_cons_self))
      rcases List.mem_cons.mp hc with rfl | hc
      · exact Nat.le_refl _
      · have := (List.pairwise_cons.mp hordered).1 c hc
        simp only [startOf]
        omega
  refine ⟨fun hs hb c hc => ?_, fun hs c hc i h1 h2 => ?_⟩
  · obtain rfl := Option.some.inj (hspan.symm.trans hs)
    obtain rfl := Option.some.inj (hbody.symm.trans hb)
    obtain ⟨-, -, hstop⟩ := hspec c hc
    exact ⟨hstart ▸ hfirst c hc, by omega⟩
  · obtain rfl := Option.some.inj (hspan.symm.trans hs)
    obtain ⟨-, -, hstop⟩ := hspec c hc
    exact takeLeading_spaces hpool htarget floor i (by rw [← hleading, ← hstart]; exact h1) (by omega)

end MemberOrder

namespace MemberOrder.Style

open Scanned

variable {fileType : FileType} {t : Text} {e : Entity}

/-- A block stands inside the text, its bracket behind where it starts. -/
theorem Stands.bounds {start stop openAt closeAt : Nat}
    (h : Stands (scan (profileOf fileType) t) (.block start stop openAt closeAt)) :
    start ≤ t.size ∧ start ≤ openAt + 1 := by
  obtain ⟨⟨a, b, hcut⟩, -⟩ := h
  obtain ⟨hle, -, hopen, -⟩ := hcut.wellCut
  have := Text.lt_size_of_getElem? hopen
  rw [size_masked] at this
  omega

theorem headed_of_read (hsass : fileType ≠ .sass) (he : e ∈ (read fileType t).entities) :
    Headed (scan (profileOf fileType) t) e := by
  obtain ⟨e', hmakes, rfl⟩ := read_makes fileType t he
  rw [isIndented_sheetOf hsass t]
  rw [sheetOf_eq hsass] at hmakes
  cases hmakes with
  | run hne hrun hdecl floor selector media hpool hfills => exact ⟨fun _ _ => nofun, fun _ => nofun⟩
  | rule hblock hpool floor hdecl selector media left dangling hne =>
    obtain ⟨hsize, hle⟩ := hblock.bounds
    exact headed_of_takeLeading hpool hsize rfl rfl rfl rfl hle
  | keyframes hblock hpool floor hsteps selector media left hne =>
    obtain ⟨hsize, hle⟩ := hblock.bounds
    exact headed_of_takeLeading hpool hsize rfl rfl rfl rfl hle

end MemberOrder.Style

namespace MemberOrder.Layout

open Scanned

variable {p : Profile} {t : Text} {x : Char} {s : Setting} {e : Entity}

/-- Comments that are written anew in a text keep what stands between them. -/
theorem count_frontFrom (hx : Text.isSpace x = false) {indent : String} (hindent : Indents indent.toList)
    (head : List Char) {cs : List Comment} (hordered : cs.Pairwise fun a b => a.stop ≤ b.offset)
    (hinside : ∀ c ∈ cs, c.offset ≤ c.stop) {cursor : Nat}
    (hcursor : ∀ c ∈ cs, cursor ≤ c.offset - s.excerpt.base) :
    let notes := cs.map fun c => (writeComment s.rules.comments s.options.commentStyle "" c).toList
    tally x notes ≤ (frontFrom s indent head cursor cs).count x ∧
      (frontFrom s indent head cursor cs).count x + (head.drop (pastComments s cursor cs)).count x ≤
        tally x notes + (head.drop cursor).count x := by
  induction cs generalizing cursor with
  | nil =>
    have hspaces : ((head.drop cursor).takeWhile Text.isSpace).count x = 0 :=
      count_spaces hx fun c hc => List.all_eq_true.mp List.all_takeWhile c hc
    simp [frontFrom, pastComments, hspaces]
  | cons c rest ih =>
    obtain ⟨hfirst, hrest⟩ := List.pairwise_cons.mp hordered
    obtain ⟨hle, hinside⟩ := List.forall_mem_cons.mp hinside
    have hstart := hcursor c List.mem_cons_self
    -- what stands in front of the comment, the comment, and what stands behind it
    have hgap : (head.drop cursor).count x =
        ((head.drop cursor).take (c.offset - s.excerpt.base - cursor)).count x +
          (head.drop (c.offset - s.excerpt.base)).count x := by
      rw [← List.count_append, ← Nat.add_sub_cancel' hstart, Nat.add_sub_cancel_left, ← List.drop_drop,
        List.take_append_drop]
    have hbehind : (head.drop (c.stop - s.excerpt.base)).count x ≤
        (head.drop (c.offset - s.excerpt.base)).count x := by
      rw [← Nat.add_sub_cancel' (Nat.sub_le_sub_right hle s.excerpt.base), ← List.drop_drop]
      exact (List.drop_sublist _ _).count_le x
    have hrest' := ih hrest hinside (fun d hd => Nat.sub_le_sub_right (hfirst d hd) _)
    simp only [frontFrom, pastComments_cons, List.map_cons, tally_cons, List.count_append,
      count_writeComment hx hindent] at hrest' ⊢
    omega

/-- The text in front of a body, written anew, keeps its code, and the comments that lead the entity are
written in it. -/
theorem count_retypedHead (hx : Text.isSpace x = false) (hheaded : Headed (scan p t) e) (hleads : LeadsInOrder e)
    (hbase : Indents e.baseIndent.toList) {span body : Span} (hspan : e.span = some span)
    (hbody : e.body = some body) (hshows : Shows s.excerpt t span.start span.stop)
    (hexcerpt : s.excerpt.base = span.start) (hsize : s.excerpt.text.size = span.stop - span.start)
    (hstart : span.start ≤ body.start) (hstop : body.start ≤ span.stop) :
    ((scan p t).clean.slice span.start body.start).count x + tally x (writtenComments s e.leading) ≤
        (retypedHead s e body.start).count x ∧
      (retypedHead s e body.start).count x ≤
        (t.slice span.start body.start).count x + tally x (writtenComments s e.leading) := by
  have hhead : s.excerpt.sliceTo body.start = t.slice span.start body.start := by
    rw [← hshows (Nat.le_refl _) hstop, Excerpt.slice, Excerpt.sliceTo, hexcerpt, Nat.sub_self]
  have hcomments : headComments s e body.start = e.leading := by
    refine List.filter_eq_self.mpr fun c hc => ?_
    obtain ⟨h1, h2⟩ := hheaded.inside hspan hbody c hc
    simp only [hexcerpt, h1, h2, decide_true, Bool.and_self]
  rw [retypedHead_eq hleads (by omega), List.count_append, front, headPart, hcomments]
  have hcode := count_clean_le (p := p) (t := t) hx span.start body.start
  cases hlast : e.leading.getLast? with
  | none =>
    have hnil : e.leading = [] := List.getLast?_eq_none_iff.mp hlast
    rw [hnil, writtenComments_nil, hhead]
    simpa using hcode
  | some last =>
    have hmem := List.mem_of_getLast? hlast
    have hle := hleads.2 last hmem
    obtain ⟨hfrom, hto⟩ := hheaded.inside hspan hbody last hmem
    have hdrop : (s.excerpt.sliceTo body.start).drop (last.stop - s.excerpt.base) =
        t.slice last.stop body.start := by
      rw [hhead, hexcerpt]
      exact Text.drop_slice t (by omega)
    have hbehind : ((scan p t).clean.slice span.start body.start).count x ≤
        (t.slice last.stop body.start).count x := by
      rw [Text.count_slice_append x _ (b := last.stop) (by omega) hto,
        count_clean_spaces hx (hheaded.spaces hspan last hmem), Nat.zero_add]
      exact count_clean_le hx _ _
    have hrest : (t.slice last.stop body.start).count x ≤ (t.slice span.start body.start).count x := by
      rw [Text.count_slice_append x t (b := last.stop) (show span.start ≤ last.stop by omega) hto]
      omega
    have hpast : pastComments s 0 e.leading = last.stop - s.excerpt.base := by
      rw [pastComments, hlast]
      rfl
    obtain ⟨c, rest, hcs⟩ := List.exists_cons_of_ne_nil (List.ne_nil_of_mem hmem)
    simp only [hdrop, count_trimLeft hx, hcs]
    cases hcomments : s.options.commentsEnabled with
    | false =>
      have hnone : writtenComments s (c :: rest) = [] := by simp [writtenComments, hcomments]
      simp only [hnone, tally_nil, Bool.false_eq_true, if_false, List.count_nil]
      omega
    | true =>
      have hfar : ∀ c ∈ e.leading, 0 ≤ c.offset - s.excerpt.base := fun _ _ => Nat.zero_le _
      have hwritten := count_frontFrom hx hbase (s.excerpt.sliceTo body.start) hleads.1 hleads.2 hfar
      rw [hpast, hdrop, List.drop_zero, hhead, hcs] at hwritten
      simp only [writtenComments, hcomments, if_true, hhead]
      omega

end MemberOrder.Layout

/-! ## Entities -/

namespace MemberOrder.Style

open Layout Scanned

variable {fileType : FileType} {P : MemberInfo → Prop} {t : Text} {x : Char} {s : Setting} {e : Entity}

/-- A body that is written anew and the stray code are the code of the body, and the comments that are
written in it. -/
theorem count_inside (hx : Text.isSpace x = false) (hsemicolon : x ≠ ';') (hsass : fileType ≠ .sass)
    (hrules : s.rules = Rules.style fileType) {lo hi : Nat} (hshows : Shows s.excerpt t lo hi) {body : Span}
    (hbody : e.body = some body) (hlo : lo ≤ body.start) (hhi : body.stop ≤ hi)
    (hmembers : LaidFrom P t body.stop body.start e.members) (hheld : HeldIn (sheetOf fileType t) e.members)
    (houtlined : Outlined e) {ms : List Member} (hms : Rearranged e.members ms) (hne : ms ≠ [])
    {inside : List Char} (h : retypedBody s { e with members := ms } body = .ok inside) :
    let code := (scan (profileOf fileType) t).clean
    let notes := writtenComments s (e.dangling ++ notedByEach ms)
    (code.slice body.start body.stop).count x + tally x notes ≤ inside.count x + (strays code e).count x ∧
      inside.count x + (strays code e).count x ≤ (t.slice body.start body.stop).count x + tally x notes := by
  intro code notes
  obtain ⟨mid, hperm, heach⟩ := hms
  have hshown := shown_of_laidFrom hmembers hlo hhi hheld
  have hmid : ∀ m ∈ mid, Shown fileType t P lo hi m := fun m hm => hshown m (hperm.mem_iff.mpr hm)
  have hcode : code = (scan (profileOf fileType) t).clean := rfl
  have hmembers' := count_partsFrom hx hsemicolon hsass hcode hrules hshows hmid heach
    (separator_of_sourceOrder hmid heach) (s.rules.nameWidth ms) 0
  have hparts := count_body hx hcode hmembers hperm hmembers'
  have hstrays : strays code e = around code body.stop body.start e.members ++ strayInEach code e.members := by
    simp only [strays, hbody]
  have hinside : inside.count x = tally x (bodyParts s (partsInsideEach s ms)) + tally x notes :=
    count_retypedBody hx h hne houtlined.indent houtlined.baseIndent
  rw [bodyParts, map_fst_partsInsideEach] at hinside
  rw [hstrays, hinside]
  omega

/-- An entity that is written anew and the stray code are its code, and the comments that are written in it. -/
theorem count_retypedEntity (hx : Text.isSpace x = false) (hsemicolon : x ≠ ';') (hsass : fileType ≠ .sass)
    (hrules : s.rules = Rules.style fileType) {span body : Span} (hspan : e.span = some span)
    (hbody : e.body = some body) (hshows : Shows s.excerpt t span.start span.stop)
    (hexcerpt : s.excerpt.base = span.start) (hsize : s.excerpt.text.size = span.stop - span.start)
    (hstart : span.start ≤ body.start) (hstop : body.stop ≤ span.stop)
    (hmembers : LaidFrom P t body.stop body.start e.members) (hheld : HeldIn (sheetOf fileType t) e.members)
    (hheaded : Headed (scan (profileOf fileType) t) e) (houtlined : Outlined e) {ms : List Member}
    (hms : Rearranged e.members ms) (hne : ms ≠ []) {text : List Char}
    (h : retypedEntity s { e with members := ms } body = .ok text) :
    let code := (scan (profileOf fileType) t).clean
    let notes := writtenComments s (e.leading ++ e.dangling ++ notedByEach ms)
    (code.slice span.start span.stop).count x + tally x notes ≤ text.count x + (strays code e).count x ∧
      text.count x + (strays code e).count x ≤ (t.slice span.start span.stop).count x + tally x notes := by
  intro code notes
  have hle := hmembers.le
  obtain ⟨inside, hinside, rfl⟩ : ∃ inside, retypedBody s { e with members := ms } body = .ok inside ∧
      text = retypedHead s e body.start ++ inside ++ s.excerpt.sliceFrom body.stop := by
    cases hinside : retypedBody s { e with members := ms } body with
    | error err =>
      rw [retypedEntity, hinside] at h
      cases h
    | ok inside =>
      simp only [retypedEntity, hinside, bounds_eq hmembers hms] at h
      cases h
      exact ⟨inside, rfl, rfl⟩
  have hhead := count_retypedHead hx hheaded houtlined.leading houtlined.baseIndent hspan hbody hshows hexcerpt
    hsize hstart (by omega)
  have hbody' := count_inside hx hsemicolon hsass hrules hshows hbody hstart hstop hmembers hheld houtlined hms hne
    hinside
  have hfoot : s.excerpt.sliceFrom body.stop = t.slice body.stop span.stop := by
    rw [← hshows (by omega) (Nat.le_refl _), Excerpt.sliceFrom, Excerpt.slice, hsize, hexcerpt]
  have hfoot' := count_clean_le (p := profileOf fileType) (t := t) hx body.stop span.stop
  have hcut (u : Text) : (u.slice span.start span.stop).count x = (u.slice span.start body.start).count x +
      (u.slice body.start body.stop).count x + (u.slice body.stop span.stop).count x := by
    rw [Text.count_slice_append x u hstart (by omega), Text.count_slice_append x u hle hstop, Nat.add_assoc]
  have hnotes : tally x notes = tally x (writtenComments s e.leading) +
      tally x (writtenComments s (e.dangling ++ notedByEach ms)) := by
    simp only [notes, List.append_assoc, writtenComments_append, tally_append]
  rw [hnotes, hcut, hcut t, List.count_append, List.count_append, hfoot]
  dsimp only [code]
  omega

/-- White space and semicolons aside, nothing is stray where there are only declarations in steps. -/
theorem count_strays (hx : Text.isSpace x = false) (hsemicolon : x ≠ ';') (hsass : fileType ≠ .sass)
    (he : e ∈ (read fileType t).entities)
    (honly : ∀ m ∈ e.members, OnlyDeclarations (scan (profileOf fileType) t) m) :
    (strays (scan (profileOf fileType) t).clean e).count x = 0 := by
  refine List.count_eq_zero.mpr fun hmem => ?_
  have hidle := strays_idle hsass he honly x hmem
  rw [isIdle, hx, Bool.false_or, beq_iff_eq] at hidle
  exact hsemicolon hidle

/-- An entity of a style sheet outside of the indented dialect has members. -/
theorem members_ne_of_read (hsass : fileType ≠ .sass) (he : e ∈ (read fileType t).entities) : e.members ≠ [] := by
  obtain ⟨e', hmakes, rfl⟩ := read_makes fileType t he
  rw [isIndented_sheetOf hsass t]
  exact hmakes.members_ne

end MemberOrder.Style

namespace MemberOrder

open Layout Scanned

variable {fileType : FileType} {t : Text} {e : Entity}

/-- An entity that is written anew keeps its code but for what is stray, whatever the order of its members, and
nothing is stray where the steps of keyframes hold nothing but declarations. -/
theorem writeEntity_keeps_statements (hcss : fileType.language = .css) (hsass : fileType ≠ .sass)
    (he : e ∈ (readSource fileType t).entities) {span : Span} (hspan : e.span = some span) {o : Options}
    (hfile : o.fileType = fileType) (hlayout : o.asksForLayout = true) {width : Int}
    (hwidth : o.indentationSize = .blanks width) {ms : List Member} (hms : Rearranged e.members ms) :
    ∃ text, writeEntity o { e with members := ms } = .ok text ∧
      ∀ x, Text.isSpace x = false → x ≠ ';' →
        let code := (scan (Style.profileOf fileType) t).clean
        let notes := writtenComments (settingOf o e span) (e.leading ++ e.dangling ++ notedByEach ms)
        (code.slice span.start span.stop).count x + tally x notes ≤
            text.toList.count x + (strays code e).count x ∧
          text.toList.count x + (strays code e).count x ≤
            (t.slice span.start span.stop).count x + tally x notes ∧
          ((∀ m ∈ e.members, Style.OnlyDeclarations (scan (Style.profileOf fileType) t) m) →
            (strays code e).count x = 0) := by
  have hyaml : fileType.language ≠ .yaml := by
    rw [hcss]
    decide
  have hread : (readSource fileType t).entities = (Style.read fileType t).entities := by
    rw [readSource, hcss]
  obtain ⟨a, b, hlaid, -, hb⟩ := (readSource_chain hyaml t).of_mem (fun _ _ _ h => h.le) he
  obtain ⟨rfl, rfl⟩ := hlaid.bounds_eq hspan
  obtain ⟨body, hbody, hstart, hstop, hmembers⟩ := hlaid.members
  have houtlined := outlined_of_readSource (Or.inr hcss) hsass he
  rw [hread] at he
  have hne : ms ≠ [] := by
    have := Style.members_ne_of_read hsass he
    rw [← List.isEmpty_eq_false_iff] at this ⊢
    rwa [hms.isEmpty_eq]
  have hrules : (settingOf o e span).rules = Rules.style fileType := by
    show Rules.ofFileType o.fileType = _
    rw [hfile, Rules.ofFileType, hcss]
  obtain ⟨text, htext⟩ := exists_retypedEntity (s := settingOf o e span) hwidth { e with members := ms } body
  refine ⟨String.ofList (endLines o text), ?_, fun x hx hsemicolon => ?_⟩
  · exact writeEntity_eq_retyped (hfile ▸ hyaml) hlayout (e := { e with members := ms }) hspan hbody htext
  · have hkeeps := Style.count_retypedEntity hx hsemicolon hsass hrules hspan hbody
      (shows_settingOf o hlaid.text) rfl (size_settingOf o hlaid.text hb) hstart hstop hmembers
      (Style.read_held fileType t e he) (Style.headed_of_read hsass he) houtlined hms hne htext
    rw [String.toList_ofList, count_endLines hx]
    exact ⟨hkeeps.1, hkeeps.2, Style.count_strays hx hsemicolon hsass he⟩

/-- A keyframes block with nothing but declarations in its step. -/
def plainStep : String := "@keyframes x \x7b to \x7b b: c; a: d \x7d \x7d"

/-- A keyframes block with a statement between the declarations of its step. -/
def mixedStep : String := "@keyframes x \x7b to \x7b b: c; @include y; a: d \x7d \x7d"

/-- Options that ask for a layout. -/
def narrowKeyframes : Options :=
  { fileType := .scss, propertySpacing := some .compact, indentationSize := .blanks 2 }

/-- Of the plain block there is an entity without comments, with nothing but declarations in its steps. -/
theorem plainStep_read : ∃ e ∈ (readSource .scss (Text.ofString plainStep)).entities, e.kind = .cssKeyframes ∧
    e.span = some ⟨0, 34, 1, 1⟩ ∧ e.leading ++ e.dangling ++ notedByEach e.members = [] ∧
    (∀ m ∈ e.members, Style.OnlyDeclarations (scan .scss (Text.ofString plainStep)) m) ∧
    (scan .scss (Text.ofString plainStep)).clean = Text.ofString plainStep := by
  decide +kernel

/-- The plain block keeps its code. -/
theorem writeEntity_keeps_plainStep : ∃ e ∈ (readSource .scss (Text.ofString plainStep)).entities,
    e.kind = .cssKeyframes ∧ ∃ text, writeEntity narrowKeyframes e = .ok text ∧
      ∀ x, Text.isSpace x = false → x ≠ ';' →
        text.toList.count x = ((Text.ofString plainStep).slice 0 34).count x := by
  obtain ⟨e, he, hkind, hspan, hnotes, honly, hclean⟩ := plainStep_read
  obtain ⟨text, htext, hcount⟩ := writeEntity_keeps_statements (by decide) (by decide) he hspan
    (o := narrowKeyframes) rfl (by decide) rfl (Rearranged.refl e.members)
  refine ⟨e, he, hkind, text, htext, fun x hx hsemicolon => ?_⟩
  obtain ⟨h1, h2, hnone⟩ := hcount x hx hsemicolon
  have hprofile : Style.profileOf .scss = .scss := rfl
  rw [hprofile] at h1 h2 hnone
  rw [hnone honly, hnotes, writtenComments_nil] at h1 h2
  rw [hclean] at h1
  simp only [tally_nil] at h1 h2
  omega

/-- The statement is lost. -/
theorem writeEntity_drops_statement : ∃ e ∈ (readSource .scss (Text.ofString mixedStep)).entities,
    e.kind = .cssKeyframes ∧ narrowKeyframes.asksForLayout = true ∧
    e.sourceText = "@keyframes x \x7b to \x7b b: c; @include y; a: d \x7d \x7d" ∧
    ∃ text ∈ (writeEntity narrowKeyframes e).toOption,
      text = "@keyframes x \x7b to \x7b b: c; a: d \x7d \x7d" := by
  decide +kernel

end MemberOrder
