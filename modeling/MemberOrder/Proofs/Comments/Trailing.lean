/-
  A comment on the line of a member belongs to the member.

  A comment that follows a member (`Comment.Follows`) is one of its trailing comments if and only if it
  ends inside the span around the list (`trailing_of_follows`). It does after every member but the last
  one. It does after the last one as well where brackets close the list, but for the indented dialect,
  the blocks of which end with their last line of code. A run of declarations has no brackets either,
  and ends with the line: there a comment of several lines is left out.
-/
import MemberOrder.Proofs.Comments.Following
import MemberOrder.Proofs.Comments.Reading

namespace MemberOrder.Style

open Attachment

/-! ## Lists of a sheet -/

/-- The members of each list of an entity have the comments after them. -/
theorem Sheet.ListTrails.of_lists {d : Sheet} {e : Entity} (h : d.EntityTrails e) {outer : Option Span}
    {ms : List Member} (hlist : e.Lists outer ms) : d.ListTrails e.header outer ms := by
  induction hlist with
  | top => exact h
  | nested _ hi ih =>
    cases ih with
    | block hheader _ _ hsteps =>
      obtain ⟨⟨limit, base, hclosed, htrails⟩, hleaf⟩ := hsteps _ hi _ _ rfl
      exact .block hheader hclosed htrails fun m hm => Sheet.stepTrails_of_leaf (hleaf m hm)
    | run _ _ _ hleaf =>
      obtain ⟨j, hj⟩ := hleaf _ hi
      cases hj

theorem relocateMembers_eq_map (toSource : Nat → Nat) (ms : List Member) :
    relocateMembers toSource ms = ms.map (relocateMember toSource) := by
  induction ms with
  | nil => rfl
  | cons m rest ih => rw [relocateMembers, ih, List.map_cons]

theorem info_relocateMember (toSource : Nat → Nat) (m : Member) :
    (relocateMember toSource m).info = relocateInfo toSource m.info := by
  cases m <;> rfl

/-- The lists of an entity that was moved are those that it had, moved. -/
theorem lists_relocateEntity {toSource : Nat → Nat} {e : Entity} {outer : Option Span} {ms : List Member}
    (h : (relocateEntity toSource e).Lists outer ms) :
    ∃ ms', e.Lists outer ms' ∧ ms = relocateMembers toSource ms' := by
  induction h with
  | top => exact ⟨e.members, .top, rfl⟩
  | nested _ hi ih =>
    obtain ⟨ms', hms', rfl⟩ := ih
    rw [relocateMembers_eq_map] at hi
    obtain ⟨m, hm, heq⟩ := List.mem_map.mp hi
    cases m with
    | leaf j => cases heq
    | group j children =>
      obtain ⟨rfl, rfl⟩ := Member.group.inj heq
      have hnested := Entity.Lists.nested hms' hm
      exact ⟨children, hnested, rfl⟩

/-- The entities that are read of a sheet, before they are moved, have the comments after their
members. -/
theorem read_trails (fileType : FileType) (t : Text) :
    ∃ es, (∀ e ∈ es, (sheetOf fileType t).EntityTrails e) ∧ (read fileType t).entities =
      if (sheetOf fileType t).isIndented then es.map (relocateEntity (sheetOf fileType t).toSource)
      else es := by
  obtain ⟨p, u, hd⟩ := sheetOf_sound fileType t
  let d := sheetOf fileType t
  have hall : Reach d 0 0 d.scanned.comments := Reach.of_drawn (Drawn.refl 0 _) (Nat.zero_le _)
  obtain ⟨last, hlast, hchain⟩ := entitiesFrom_found hd
    (items_chain (Nat.zero_le _) (Or.inr rfl)) (Nat.le_refl _) hall
  refine ⟨_, fun e he => ?_, rfl⟩
  obtain ⟨i, j, hat, -, -⟩ := hchain.of_mem (fun _ _ _ he => he.1) he
  exact hat.2.2

/-! ## The bound of a list -/

/-- Past a character of the scanned text that is no mark, an offset leads further on. -/
theorem toSource_sheetOf_lt {fileType : FileType} {t : Text} {x b : Nat} {e : Char}
    (hx : (sheetOf fileType t).scanned.source[x]? = some e)
    (he : e ≠ ' ' ∧ e ≠ '{' ∧ e ≠ '}' ∧ e ≠ ';') (hxb : x < b) :
    (sheetOf fileType t).toSource x < (sheetOf fileType t).toSource b := by
  by_cases hsass : fileType = .sass
  · subst hsass
    obtain ⟨inserted, hflag⟩ := exists_flagged hx
    cases inserted with
    | false => exact Indented.toSource_lt_of_kept hflag hxb
    | true =>
      obtain ⟨h1, h2, h3, h4⟩ := he
      rcases mark_of_flagged hflag with rfl | rfl | rfl | rfl <;> contradiction
  · obtain ⟨p, u, hd⟩ := sheetOf_sound fileType t
    rw [hd.toSource_eq (isIndented_sheetOf hsass t)]
    exact hxb

/-- A closing bracket is in no comment. -/
theorem Sheet.Closed.outside {d : Sheet} {outer : Option Span} {limit : Nat} (h : d.Closed outer limit)
    (hs : Orderly d.scanned d.scanned.comments) {c : Comment} (hc : c ∈ d.scanned.comments)
    (hlt : limit < c.stop) : limit < c.offset := by
  refine Nat.lt_of_not_le fun hle => ?_
  have := hs.space c hc limit hle hlt
  rw [Text.testAt_of_getElem? h.1] at this
  cases this

variable {fileType : FileType} {t : Text} {c : Comment}

theorem slash_of_sheetOf (hc : c ∈ (sheetOf fileType t).scanned.comments) :
    (sheetOf fileType t).scanned.source[c.offset]? = some '/' ∧ c.offset < c.stop ∧
      c.stop ≤ (sheetOf fileType t).scanned.source.size := by
  obtain ⟨p, u, hd⟩ := sheetOf_sound fileType t
  rw [hd.scanned_eq] at hc ⊢
  exact ⟨Scanned.slash_of_comment hc, Scanned.comment_bounds hc⟩

/-- A comment that ends in the span around a block ends before the closing bracket. -/
theorem Sheet.Closed.le_limit {outer : Option Span} {limit : Nat}
    (h : (sheetOf fileType t).Closed outer limit) (hc : c ∈ (sheetOf fileType t).scanned.comments)
    {o : Span} (ho : outer = some o) (hle : (sheetOf fileType t).toSource c.stop ≤ o.stop) :
    c.stop ≤ limit := by
  obtain ⟨p, u, hd⟩ := sheetOf_sound fileType t
  obtain ⟨-, first, hfirst⟩ := id h
  obtain rfl := Option.some.inj (ho.symm.trans hfirst)
  obtain ⟨hslash, hlt, -⟩ := slash_of_sheetOf hc
  refine Nat.le_of_not_lt fun hlimit => Nat.not_lt_of_le hle ?_
  refine Nat.lt_of_le_of_lt (hd.mono (h.outside hd.orderly hc hlimit)) ?_
  exact toSource_sheetOf_lt hslash (by decide) hlt

/-- A comment that ends in the span around a run ends on the last line of the run. -/
theorem Sheet.Open.le_limit {outer : Option Span} {limit base : Nat}
    (h : (sheetOf fileType t).Open outer limit base) (hc : c ∈ (sheetOf fileType t).scanned.comments)
    {o : Span} (ho : outer = some o) (hle : (sheetOf fileType t).toSource c.stop ≤ o.stop) :
    c.stop ≤ limit := by
  obtain ⟨p, u, hd⟩ := sheetOf_sound fileType t
  obtain ⟨first, last, hspan, hlast⟩ := h.outer_eq
  obtain rfl := Option.some.inj (ho.symm.trans hspan)
  obtain ⟨hslash, hlt, hsize⟩ := slash_of_sheetOf hc
  refine Nat.le_of_not_lt fun hlimit => Nat.not_lt_of_le hle ?_
  refine Nat.lt_of_le_of_lt (hd.mono hlast) ?_
  rcases h.ends with heq | hbreak
  · omega
  · exact toSource_sheetOf_lt hbreak (by decide) hlimit

/-! ## Members of a sheet -/

variable {header : String} {outer : Option Span} {front rest : List Member} {m : Member}

/-- A member has each comment after it that ends in the span around the list, and all of them if
another member comes. -/
theorem Sheet.ListTrails.holds (h : (sheetOf fileType t).ListTrails header outer (front ++ m :: rest)) :
    ∃ limit stop place, (sheetOf fileType t).Trail limit m.info stop place ∧
      ∀ c ∈ (sheetOf fileType t).scanned.comments, (sheetOf fileType t).ComesAfter stop place c →
        ((∃ o, outer = some o ∧ (sheetOf fileType t).toSource c.stop ≤ o.stop) →
          c ∈ m.info.trailingComments) ∧ (rest ≠ [] → c ∈ m.info.trailingComments) := by
  obtain ⟨p, u, hd⟩ := sheetOf_sound fileType t
  obtain ⟨limit, base, htrails, hbound⟩ : ∃ limit base,
      (sheetOf fileType t).TrailsTo limit base (front ++ m :: rest) ∧
        ∀ c ∈ (sheetOf fileType t).scanned.comments, ∀ o, outer = some o →
          (sheetOf fileType t).toSource c.stop ≤ o.stop → c.stop ≤ limit := by
    cases h with
    | block _ hclosed htrails _ => exact ⟨_, _, htrails, fun c hc o ho => hclosed.le_limit hc ho⟩
    | run _ hopen htrails _ => exact ⟨_, _, htrails, fun c hc o ho => hopen.le_limit hc ho⟩
  obtain ⟨stop, place, htrail, -, hnext⟩ := htrails.of_append
  refine ⟨limit, stop, place, htrail, fun c hc hafter => ⟨?_, fun hrest => ?_⟩⟩
  · rintro ⟨o, ho, hle⟩
    exact (htrail.mem_iff hc hafter).mpr (hbound c hc o ho hle)
  · obtain ⟨x, h1, h2, h3⟩ := hnext hrest
    exact (htrail.mem_iff hc hafter).mpr (htrail.le_of_starts hd.orderly hc hafter h1 h2 h3)

/-- Outside of the indented dialect a member has each comment after it, unless it is the last one of a
run and the comment has several lines. -/
theorem Sheet.ListTrails.holds_iff (hplain : (sheetOf fileType t).isIndented = false)
    (h : (sheetOf fileType t).ListTrails header outer (front ++ m :: rest)) :
    ∃ limit stop place, (sheetOf fileType t).Trail limit m.info stop place ∧
      ∀ c ∈ (sheetOf fileType t).scanned.comments,
        Trails (sheetOf fileType t).scanned [] (pastSeparator stop place) c →
        '\n' ∉ t.slice (pastSeparator stop place) c.offset → (c ∈ m.info.trailingComments ↔
          rest ≠ [] ∨ header ≠ "" ∨ '\n' ∉ t.slice c.offset c.stop) := by
  obtain ⟨p, u, hd⟩ := sheetOf_sound fileType t
  let d := sheetOf fileType t
  have hskip : d.trailingSkip = [] := by rw [Sheet.trailingSkip, hplain]; rfl
  have hcomes : ∀ {stop place c}, Trails d.scanned [] (pastSeparator stop place) c →
      d.ComesAfter stop place c := fun htrails => Or.inl (hskip ▸ htrails)
  have hsource : d.scanned.source = t := by
    have hsame := sheetOf_source fileType t
    obtain ⟨-, -, hu⟩ := hd.plain.resolve_left (by simp [hplain])
    rw [hd.scanned_eq]
    exact hu.symm.trans hsame
  cases h with
  | @block limit base hheader hclosed htrails _ =>
    obtain ⟨stop, place, htrail, -, -⟩ := htrails.of_append
    refine ⟨limit, stop, place, htrail, fun c hc hafter _ => ?_⟩
    refine iff_of_true ((htrail.mem_iff hc (hcomes hafter)).mpr (Nat.le_of_not_lt fun hlt => ?_))
      (Or.inr (Or.inl (hheader hplain)))
    -- the bracket is code, and stands in no gap
    have hspace := space_of_passes (hafter.gap limit htrail.le_limit (hclosed.outside hd.orderly hc hlt))
    rw [Text.testAt_of_getElem? hclosed.1] at hspace
    cases hspace
  | @run limit base hheader hopen htrails _ =>
    obtain ⟨stop, place, htrail, hlast, hnext⟩ := htrails.of_append
    refine ⟨limit, stop, place, htrail, fun c hc hafter hline => ?_⟩
    rw [htrail.mem_iff hc (hcomes hafter)]
    by_cases hrest : rest = []
    · have hbase := hlast hrest
      have hlimit := htrail.le_limit
      have hoffset := hafter.after_le
      simp only [hrest, hheader, ne_eq, not_true_eq_false, false_or]
      constructor
      · intro hle hbreak
        obtain ⟨x, h1, h2, hx⟩ := Text.mem_slice.mp hbreak
        exact hopen.unbroken x (by omega) (by omega) ((congrArg (·[x]?) hsource).trans hx)
      · refine fun hbreak => Nat.le_of_not_lt fun hlt => ?_
        obtain ⟨-, -, hsize⟩ := slash_of_sheetOf hc
        rcases hopen.ends with heq | hfeed
        · omega
        · rw [hsource] at hfeed
          by_cases hbefore : limit < c.offset
          · exact hline (Text.mem_slice.mpr ⟨limit, hlimit, hbefore, hfeed⟩)
          · exact hbreak (Text.mem_slice.mpr ⟨limit, by omega, hlt, hfeed⟩)
    · obtain ⟨x, h1, h2, h3⟩ := hnext hrest
      exact iff_of_true (htrail.le_of_starts hd.orderly hc (hcomes hafter) h1 h2 h3) (Or.inl hrest)

/-- The trailing comments of a member lie in its unit. -/
theorem Sheet.Trail.in_unit {limit stop : Nat} {place : Option Nat} {i : MemberInfo}
    (h : (sheetOf fileType t).Trail limit i stop place) (hc : c ∈ i.trailingComments) :
    ∃ unit, i.unit = some unit ∧ unit.start ≤ (sheetOf fileType t).toSource c.offset ∧
      (sheetOf fileType t).toSource c.stop ≤ unit.stop := by
  obtain ⟨p, u, hd⟩ := sheetOf_sound fileType t
  obtain ⟨start, first, last, -, hunit, hfirst, -, hinside⟩ := h.placed
  obtain ⟨h1, h2⟩ := hinside c hc
  exact ⟨_, hunit, hd.mono (Nat.le_trans hfirst h1), hd.mono h2⟩

end MemberOrder.Style

namespace MemberOrder

open Attachment

variable {fileType : FileType} {t : Text} {e : Entity} {outer : Option Span} {front rest : List Member}
  {m : Member} {c : Comment}

/-- What a reader does with a comment that follows a member: it gives it to the member if it ends in the
span around the list or another member comes, and what the member has lies in its unit. -/
structure Comment.Given (c : Comment) (outer : Option Span) (m : Member) (rest : List Member) : Prop where
  in_unit : c ∈ m.info.trailingComments → ∃ unit, m.info.unit = some unit ∧ unit.start ≤ c.offset ∧
    c.stop ≤ unit.stop
  of_outer : (∃ o, outer = some o ∧ c.stop ≤ o.stop) → c ∈ m.info.trailingComments
  of_rest : rest ≠ [] → c ∈ m.info.trailingComments

/-! ## Members between brackets -/

/-- What is known of the entities read between brackets is known of the members of their lists. -/
theorem tended_of_lists {p : Profile} {Q : Text → MemberInfo → Prop} {a b : Nat} {es : List Entity}
    {ms : List Member} (hchain : Chain (Entity.LaidOut (Loose (Tended Q p) t) t) a b es) (he : e ∈ es)
    (hlist : e.Lists outer ms) (hm : m ∈ ms) :
    Q t m.info ∧ ∃ span unit place, Placed t m.info span unit ∧
      HoldsTrail (Scanned.scan p t) m.info span unit place := by
  obtain ⟨i, j, hlaid, -, -⟩ := hchain.of_mem (fun _ _ _ he => he.le) he
  obtain ⟨o, lo, hi, -, -, -, hfrom⟩ := hlaid.lists hlist
  obtain ⟨⟨⟨hQ, span, unit, place, hholds⟩, -⟩, span', unit', hplaced⟩ := (hfrom.of_mem hm).1.placed
  obtain rfl := Option.some.inj (hholds.span_eq.symm.trans hplaced.span_eq)
  obtain rfl := Option.some.inj (hholds.unit_eq.symm.trans hplaced.unit_eq)
  exact ⟨hQ, span, unit, place, hplaced, hholds⟩

/-- A member that is read between brackets has every comment that follows it. -/
theorem mem_of_tended {p : Profile} {Q : Text → MemberInfo → Prop} {a b : Nat} {es : List Entity}
    (hquotes : ∀ q ∈ p.quotes, Text.isSpace q = false ∧ q ≠ ',' ∧ q ≠ ';')
    (hchain : Chain (Entity.LaidOut (Loose (Tended Q p) t) t) a b es) (he : e ∈ es)
    (hlist : e.Lists outer (front ++ m :: rest)) (hc : c ∈ (Scanned.scan p t).comments)
    (hf : c.Follows t (Scanned.scan p t).comments m.info) :
    c ∈ m.info.trailingComments ∧ c.Given outer m rest := by
  obtain ⟨-, span, unit, place, hplaced, hholds⟩ :=
    tended_of_lists hchain he hlist (List.mem_append_right front List.mem_cons_self)
  have hmem := hholds.mem_of_follows hquotes hc hf
  refine ⟨hmem, fun _ => ⟨unit, hholds.unit_eq, ?_, (hholds.inside c hmem).2⟩, fun _ => hmem,
    fun _ => hmem⟩
  have := hplaced.leads
  have := hplaced.nonempty
  have := (hholds.inside c hmem).1
  omega

/-! ## Style sheets -/

namespace Style

/-- Outside of the indented dialect the scanned text is the source. -/
theorem sheetOf_plain (hsass : fileType ≠ .sass) (t : Text) : ∃ p : Profile,
    (∀ q ∈ p.quotes, Text.isSpace q = false ∧ q ≠ ',' ∧ q ≠ ';') ∧
      sheetOf fileType t = { scanned := Scanned.scan p t, source := t, toSource := id, fileType } := by
  have hne : (fileType == .sass) = false := by simpa using hsass
  simp only [sheetOf, hne, Bool.false_eq_true, if_false]
  split
  · exact ⟨.css, by decide, rfl⟩
  · exact ⟨.scss, by decide, rfl⟩

/-- Outside of the indented dialect the separator of a member is the next code after it. -/
theorem Sheet.Trail.separatorNext {d : Sheet} (hplain : d.isIndented = false) {limit stop : Nat}
    {place : Option Nat} {i : MemberInfo} (h : d.Trail limit i stop place) :
    SeparatorNext d.scanned i.separator stop place := by
  have hsep := h.separator
  rw [hplain, Bool.false_or] at hsep
  cases place with
  | none => exact hsep
  | some x =>
    obtain ⟨h1, h2, h3⟩ := h.next x rfl
    exact ⟨h1, h3, ';', Or.inr rfl, hsep, h2⟩

/-- Outside of the indented dialect a comment that follows a member trails it. -/
theorem Sheet.Trail.trails_of_follows (hsass : fileType ≠ .sass) {limit stop : Nat}
    {place : Option Nat} {i : MemberInfo} (h : (sheetOf fileType t).Trail limit i stop place)
    (hc : c ∈ (sheetOf fileType t).scanned.comments)
    (hf : c.Follows t (sheetOf fileType t).scanned.comments i) :
    Trails (sheetOf fileType t).scanned [] (pastSeparator stop place) c ∧
      '\n' ∉ t.slice (pastSeparator stop place) c.offset := by
  have hle := le_pastSeparator fun y hy => (h.next y hy).1
  obtain ⟨start, -, -, hspan, -⟩ := h.placed
  have hcode := h.code
  have hnext := h.separatorNext (isIndented_sheetOf hsass t)
  obtain ⟨p, hquotes, heq⟩ := sheetOf_plain hsass t
  rw [heq] at hspan hc hf hcode hnext ⊢
  refine ⟨hf.trails hquotes hspan hcode hnext hc, fun hbreak => ?_⟩
  obtain ⟨span, hspan', -, hline, -⟩ := hf
  obtain rfl := Option.some.inj (hspan.symm.trans hspan')
  obtain ⟨x, h1, h2, hx⟩ := Text.mem_slice.mp hbreak
  exact hline (Text.mem_slice.mpr ⟨x, Nat.le_trans hle h1, h2, hx⟩)

/-- Outside of the indented dialect a member of a sheet has each comment that follows it, but for one of
several lines after the last member of a run. -/
theorem given_of_plain (hsass : fileType ≠ .sass) (he : e ∈ (read fileType t).entities)
    (hlist : e.Lists outer (front ++ m :: rest)) (hc : c ∈ (sheetOf fileType t).comments)
    (hf : c.Follows t (sheetOf fileType t).comments m.info) :
    c.Given outer m rest ∧ (c ∈ m.info.trailingComments ↔
      rest ≠ [] ∨ e.header ≠ "" ∨ '\n' ∉ t.slice c.offset c.stop) := by
  have hplain := isIndented_sheetOf hsass t
  obtain ⟨es, htrails, hes⟩ := read_trails fileType t
  rw [hes, hplain, if_neg Bool.false_ne_true] at he
  have hlists := (htrails e he).of_lists hlist
  rw [Sheet.comments, hplain, if_neg Bool.false_ne_true] at hc hf
  obtain ⟨p, -, heq⟩ := sheetOf_plain hsass t
  have hid : (sheetOf fileType t).toSource = id := by rw [heq]
  constructor
  · obtain ⟨limit, stop, place, htrail, hholds⟩ := hlists.holds
    have hcomes : (sheetOf fileType t).ComesAfter stop place c := by
      refine Or.inl ?_
      rw [Sheet.trailingSkip, hplain, if_neg Bool.false_ne_true]
      exact (htrail.trails_of_follows hsass hc hf).1
    obtain ⟨houter, hrest⟩ := hholds c hc hcomes
    rw [hid] at houter
    refine ⟨fun hmem => ?_, houter, hrest⟩
    have hunit := htrail.in_unit hmem
    rwa [hid] at hunit
  · obtain ⟨limit, stop, place, htrail, hiff⟩ := hlists.holds_iff hplain
    obtain ⟨h1, h2⟩ := htrail.trails_of_follows hsass hc hf
    exact hiff c hc h1 h2

/-- In the indented dialect a declaration has each comment that follows it and ends in the span around
the list, and all of them if another declaration comes. -/
theorem given_of_sass (he : e ∈ (read .sass t).entities) (hlist : e.Lists outer (front ++ m :: rest))
    (hplain : m.info.hasNestedObject = false) (hc : c ∈ (sheetOf .sass t).comments)
    (hf : c.Follows t (sheetOf .sass t).comments m.info) : c.Given outer m rest := by
  obtain ⟨es, htrails, hes⟩ := read_trails .sass t
  rw [hes] at he
  obtain ⟨e, hread, rfl⟩ := List.mem_map.mp he
  obtain ⟨ms, hms, heq⟩ := lists_relocateEntity hlist
  rw [relocateMembers_eq_map] at heq
  obtain ⟨front, tail, rfl, -, htail⟩ := List.map_eq_append_iff.mp heq.symm
  obtain ⟨m, rest, rfl, rfl, rfl⟩ := List.map_eq_cons_iff.mp htail
  obtain ⟨c, hscanned, rfl⟩ := List.mem_map.mp hc
  rw [info_relocateMember] at hplain hf
  obtain ⟨limit, stop, place, htrail, hholds⟩ := ((htrails e hread).of_lists hms).holds
  obtain ⟨houter, hrest⟩ := hholds c hscanned (htrail.comesAfter_decorated hplain hscanned hf)
  have hmem : ∀ {c}, c ∈ m.info.trailingComments →
      relocate (backTo t) c ∈ (relocateInfo (backTo t) m.info).trailingComments :=
    fun h => List.mem_map_of_mem h
  refine ⟨fun h => ?_, fun h => ?_, fun h => ?_⟩
  · rw [info_relocateMember] at h ⊢
    obtain ⟨c', hc', heq⟩ := List.mem_map.mp h
    rw [← heq]
    exact htrail.in_unit hc'
  · rw [info_relocateMember]
    exact hmem (houter h)
  · rw [info_relocateMember]
    exact hmem (hrest fun hnil => h (by rw [hnil, List.map_nil]))

end Style

/-! ## Every language -/

/-- A comment that follows a member on its line is one of its trailing comments, and lies in its unit, if
and only if it ends in the span around the list. It does after every member but the last one of its
list. Outside of the indented dialect it also does after the last one, but for a comment of several
lines after a run of declarations, which has no brackets around it. -/
theorem trailing_of_follows (hyaml : fileType.language ≠ .yaml)
    (he : e ∈ (readSource fileType t).entities) (hlist : e.Lists outer (front ++ m :: rest))
    (hplain : fileType = .sass → m.info.hasNestedObject = false) (hc : c ∈ readComments fileType t)
    (hf : c.Follows t (readComments fileType t) m.info) :
    (c ∈ m.info.trailingComments ↔ ∃ o, outer = some o ∧ c.stop ≤ o.stop) ∧
      (c ∈ m.info.trailingComments → ∃ unit, m.info.unit = some unit ∧ unit.start ≤ c.offset ∧
        c.stop ≤ unit.stop) ∧
      (rest ≠ [] → c ∈ m.info.trailingComments) ∧
      (fileType ≠ .sass → (c ∈ m.info.trailingComments ↔ rest ≠ [] ∨ fileType.language ≠ .css ∨
        e.header ≠ "" ∨ '\n' ∉ t.slice c.offset c.stop)) := by
  have hwithin := ((readSource_spans fileType hyaml t).2.2 e he outer _ hlist).2 m
    (List.mem_append_right front List.mem_cons_self)
  obtain ⟨hgiven, hiff⟩ : c.Given outer m rest ∧ (fileType ≠ .sass → (c ∈ m.info.trailingComments ↔
      rest ≠ [] ∨ fileType.language ≠ .css ∨ e.header ≠ "" ∨ '\n' ∉ t.slice c.offset c.stop)) := by
    cases hlanguage : fileType.language with
    | typescript =>
      simp only [readComments, readSource, hlanguage] at he hc hf
      obtain ⟨hmem, hgiven⟩ := mem_of_tended (by decide) (Script.read_chain fileType t) he hlist hc hf
      exact ⟨hgiven, fun _ => by simp [hmem]⟩
    | css =>
      simp only [readComments, readSource, hlanguage] at he hc hf
      by_cases hsass : fileType = .sass
      · subst hsass
        exact ⟨Style.given_of_sass he hlist (hplain rfl) hc hf, fun h => absurd rfl h⟩
      · obtain ⟨hgiven, hiff⟩ := Style.given_of_plain hsass he hlist hc hf
        exact ⟨hgiven, fun _ => by simpa using hiff⟩
    | go =>
      simp only [readComments, readSource, hlanguage] at he hc hf
      obtain ⟨hmem, hgiven⟩ := mem_of_tended (by decide) (Struct.read_chain fileType t) he hlist hc hf
      exact ⟨hgiven, fun _ => by simp [hmem]⟩
    | json =>
      simp only [readComments, readSource, hlanguage] at he hc hf
      obtain ⟨hmem, hgiven⟩ := mem_of_tended (by decide) (Json.read_chain fileType t) he hlist hc hf
      exact ⟨hgiven, fun _ => by simp [hmem]⟩
    | yaml => exact absurd hlanguage hyaml
  refine ⟨⟨fun hmem => ?_, hgiven.of_outer⟩, hgiven.in_unit, hgiven.of_rest, hiff⟩
  obtain ⟨o, unit, span, ho, hunit, -, hcontains, -⟩ := hwithin
  obtain ⟨unit', hunit', -, hle⟩ := hgiven.in_unit hmem
  obtain rfl := Option.some.inj (hunit.symm.trans hunit')
  simp only [Span.contains, Bool.and_eq_true, decide_eq_true_eq] at hcontains
  exact ⟨o, ho, by omega⟩

/-- A block of the indented dialect with a comment after each declaration. -/
def commentedLines : Text := Text.ofString "a\n  c: d // x\n  b: e // y\n"

/-- The first declaration has the comment on its line. -/
theorem trailing_of_follows_commentedLines :
    ∃ e ∈ (readSource .sass commentedLines).entities, ∃ m last, e.members = [m, last] ∧
      ∃ c ∈ readComments .sass commentedLines, c.text = "x" ∧
        c.Follows commentedLines (readComments .sass commentedLines) m.info ∧
        c ∈ m.info.trailingComments := by
  have hread : ∃ e ∈ (readSource .sass commentedLines).entities, e.members.length = 2 ∧
      ∀ m ∈ e.members.head?, m.info.hasNestedObject = false ∧
        ∃ c ∈ readComments .sass commentedLines, c.text = "x" ∧
          c.Follows commentedLines (readComments .sass commentedLines) m.info := by
    decide +kernel
  obtain ⟨e, he, hlength, hhead⟩ := hread
  obtain ⟨m, last, hmembers⟩ := List.length_eq_two.mp hlength
  obtain ⟨hplain, c, hc, htext, hf⟩ := hhead m (by simp [hmembers])
  have hlist : e.Lists e.span ([] ++ m :: [last]) := by
    rw [List.nil_append, ← hmembers]
    exact .top
  have hholds := trailing_of_follows (by decide) he hlist (fun _ => hplain) hc hf
  exact ⟨e, he, m, last, hmembers, c, hc, htext, hf, hholds.2.2.1 (by simp)⟩

/-- The last declaration of a block of the indented dialect does not get the comment on its line. Nor
does the last one of a run get a comment that goes on past the line. -/
theorem follows_not_trailing :
    (∃ e ∈ (readSource .sass commentedLines).entities, ∃ m ∈ e.members, ∃ c ∈ readComments .sass commentedLines,
      m.info.fullText = "b: e" ∧ m.info.hasNestedObject = false ∧ c.text = "y" ∧
      c.Follows commentedLines (readComments .sass commentedLines) m.info ∧
      c ∉ m.info.trailingComments) ∧
    let t := Text.ofString "p \x7b d: x; c: y; /* s\n t */ e \x7b g: h \x7d \x7d"
    ∃ e ∈ (readSource .scss t).entities, ∃ m ∈ e.members, ∃ c ∈ readComments .scss t,
      m.info.fullText = "c: y" ∧ m.info.hasNestedObject = false ∧
      c.Follows t (readComments .scss t) m.info ∧ c ∉ m.info.trailingComments := by
  decide +kernel

end MemberOrder
