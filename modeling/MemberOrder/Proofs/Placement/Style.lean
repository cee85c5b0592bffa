/-
  The declarations and entities of a style sheet have their places.

  A sheet is `Sound` when its scanned text leads back to its source: without going backwards, without
  losing a declaration or a block, and without cutting a line break. What is read up to some point is a `Reach`: comments from
  `floor` on that are still in the pool come after `reach`, and between the two there is nothing but
  white space and, in the indented dialect, closing brackets, over which trailing comments of a run
  may extend it past the end of the block. No item starts there, so what comes next starts after the
  reach. By induction on the depth of blocks the entities of a sheet form a chain
  (`readBlock_found`).
-/
import MemberOrder.Proofs.Placement.Indented
import MemberOrder.Proofs.Placement.Items

namespace MemberOrder.Style

open Attachment

/-! ## Sheets -/

/-- The scanned text of a sheet leads back to its source. -/
structure Sheet.Sound (d : Sheet) (p : Profile) (u : Text) : Prop where
  scanned_eq : d.scanned = Scanned.scan p u
  mono : ∀ {a b : Nat}, a ≤ b → d.toSource a ≤ d.toSource b
  inside : ∀ {a : Nat}, a ≤ u.size → d.toSource a ≤ d.source.size
  colon_lt : ∀ {a b x : Nat}, a ≤ x → x < b → b ≤ u.size → u[x]? = some ':' →
    d.toSource a < d.toSource b
  braces_lt : ∀ {a b x y : Nat}, a ≤ x → x < y → y < b → b ≤ u.size → u[x]? = some '{' →
    u[y]? = some '}' → d.toSource a < d.toSource b
  cuttable : ∀ {a : Nat}, a ≤ u.size → Cuttable u a → Cuttable d.source (d.toSource a)
  plain : d.isIndented = true ∨ d.isIndented = false ∧ d.toSource = id ∧ d.source = u

theorem sheetOf_sound (fileType : FileType) (t : Text) :
    ∃ p u, (sheetOf fileType t).Sound p u := by
  unfold sheetOf
  split
  · rename_i hsass
    refine ⟨.scss, (Indented.braced (Indented.decorate t.toList)).toArray, rfl,
      Indented.toSource_mono t.toList, ?_, ?_, ?_, ?_, Or.inl hsass⟩
    · intro a ha
      have := Indented.toSource_le t.toList a (by simpa using ha)
      simpa using this
    · intro a b x h1 h2 h3 hx
      refine Indented.toSource_lt (by omega) (by simpa using h3) (Or.inl ⟨x, h1, h2, ?_⟩)
      simpa using hx
    · intro a b x y h1 h2 h3 h4 hx hy
      refine Indented.toSource_lt (by omega) (by simpa using h4)
        (Or.inr ⟨x, y, h1, by omega, by omega, h3, ?_, ?_⟩)
      · simpa using hx
      · simpa using hy
    · intro a ha hcut
      exact Indented.cuttable_toSource (by simpa using ha) hcut
  · rename_i hsass
    refine ⟨_, t, rfl, id, id, fun h1 h2 _ _ => Nat.lt_of_le_of_lt h1 h2,
      fun h1 h2 h3 _ _ _ => Nat.lt_of_le_of_lt h1 (Nat.lt_trans h2 h3), fun _ => id,
      Or.inr ⟨?_, rfl, rfl⟩⟩
    exact Bool.eq_false_iff.mpr hsass

/-- What is known of the separator of a declaration: the indented dialect has none. -/
def Sheet.Separated (d : Sheet) (i : MemberInfo) : Prop :=
  i.separator = "" ∨ d.isIndented = false ∧ SeparatorPlaced d.source i

/-- A declaration or a step can be taken out of the source. -/
def Sheet.Loose (d : Sheet) (i : MemberInfo) : Prop := d.Separated i ∧ Severable d.source i

/-! ## How far comments have been handed out -/

/-- Comments from `floor` on that are left come after `reach`, and nothing in between is code. -/
structure Reach (d : Sheet) (floor reach : Nat) (pool : List Comment) : Prop where
  le : floor ≤ reach
  inside : reach ≤ d.scanned.masked.size
  drawn : Drawn reach d.scanned.comments pool
  swept : ∀ c ∈ pool, floor ≤ c.offset → reach ≤ c.offset
  gap : ∀ i, floor ≤ i → i < reach → passes d.scanned d.trailingSkip i

namespace Reach

variable {d : Sheet} {floor reach : Nat} {pool : List Comment}

theorem of_drawn (h : Drawn reach d.scanned.comments pool) (hsize : reach ≤ d.scanned.masked.size) :
    Reach d reach reach pool :=
  ⟨Nat.le_refl _, hsize, h, fun _ _ h => h, fun i h1 h2 => by omega⟩

theorem weaken (h : Reach d floor reach pool) {floor' : Nat} (hle : floor ≤ floor')
    (hsize : floor' ≤ d.scanned.masked.size) : Reach d floor' (max floor' reach) pool := by
  have h1 := h.inside
  refine ⟨Nat.le_max_left _ _, by omega, h.drawn.mono (Nat.le_max_right _ _), ?_, ?_⟩
  · intro c hc hcf
    have := h.swept c hc (by omega)
    omega
  · intro i h1 h2
    exact h.gap i (by omega) (by omega)

theorem left (h : Reach d floor reach pool) {pool' : List Comment} (h' : Drawn reach pool pool') :
    Reach d floor reach pool' :=
  ⟨h.le, h.inside, h.drawn.trans h' (Nat.le_refl _), fun c hc => h.swept c (h'.sublist.mem hc), h.gap⟩

/-- An item that starts after the floor starts after the reach. -/
theorem le_start (h : Reach d floor reach pool) {start : Nat} (hfloor : floor ≤ start)
    (hstart : d.scanned.masked.testAt start startsItem = true) : reach ≤ start := by
  refine le_of_passes hfloor h.gap fun hpass => ?_
  obtain ⟨c, hc, hstarts⟩ := Text.testAt_iff.mp hstart
  obtain ⟨c', hc', hpass⟩ := Text.testAt_iff.mp hpass
  rw [hc, Option.some.injEq] at hc'
  subst hc'
  simp only [startsItem, Bool.and_eq_true, Bool.not_eq_true', bne_iff_ne, ne_eq] at hstarts
  simp only [hstarts.1.1, Bool.false_or, Sheet.trailingSkip] at hpass
  split at hpass
  · exact hstarts.2 (by simpa using hpass)
  · simp at hpass

/-- The comments that lead an item start after the reach. -/
theorem le_leading (hs : Orderly d.scanned d.scanned.comments) (h : Reach d floor reach pool)
    {start : Nat} (hfloor : floor ≤ start)
    (hstart : d.scanned.masked.testAt start startsItem = true) :
    reach ≤ startOf (takeLeading d.scanned start floor pool).1 start ∧
      startOf (takeLeading d.scanned start floor pool).1 start ≤ start := by
  refine startOf_bounds (h.le_start hfloor hstart) fun c hc => ?_
  have hpool := hs.sublist h.drawn.sublist
  obtain ⟨h1, h2, h3⟩ := (takeLeading_spec hpool start floor).1 c hc
  have := hpool.nonempty c h1
  exact ⟨h.swept c h1 h2, by omega⟩

end Reach

/-! ## Sound sheets -/

theorem Sheet.Sound.orderly {d : Sheet} {p : Profile} {u : Text} (hd : d.Sound p u) :
    Orderly d.scanned d.scanned.comments := by
  rw [hd.scanned_eq]
  exact orderly_scan p u

theorem Sheet.Sound.size_masked {d : Sheet} {p : Profile} {u : Text} (hd : d.Sound p u) :
    d.scanned.masked.size = u.size := by
  rw [hd.scanned_eq]
  exact Scanned.size_masked p u

theorem Sheet.Sound.source_of_masked {d : Sheet} {p : Profile} {u : Text} (hd : d.Sound p u)
    {x : Nat} {c : Char} (h : d.scanned.masked[x]? = some c) (hspace : Text.isSpace c = false)
    (hfiller : c ≠ '_') : u[x]? = some c := by
  rw [hd.scanned_eq] at h
  exact Scanned.source_of_masked h hspace hfiller

/-! ## Cuts -/

theorem Sheet.Sound.cuttable_start {d : Sheet} {p : Profile} {u : Text} (hd : d.Sound p u)
    {start : Nat} (h : d.scanned.masked.testAt start startsItem = true) : Cuttable u start := by
  rw [hd.scanned_eq] at h
  exact Scanned.cuttable_of_testAt rfl h

/-- The text may be cut after a declaration, without and with its semicolon. -/
theorem Sheet.Sound.cuttable_declaration {d : Sheet} {p : Profile} {u : Text} (hd : d.Sound p u)
    {start stop a b : Nat} {semicolon : Option Nat}
    (hcut : Cut d.scanned (.declaration start stop semicolon) a b) :
    Cuttable u stop ∧ Cuttable u b := by
  obtain ⟨-, hafter, -, ⟨-, hlast, -, -, -, hsemi⟩, -⟩ := hcut
  have hstop : Cuttable u stop := by
    rw [hd.scanned_eq] at hlast
    exact Scanned.cuttable_after_code hlast
  refine ⟨hstop, ?_⟩
  subst hafter
  cases semicolon with
  | none => exact hstop
  | some place =>
    have hplace := hd.source_of_masked (hsemi place rfl).2.1 (by decide) (by decide)
    exact cuttable_after hplace (by decide)

theorem Sheet.Sound.close_lt {d : Sheet} {p : Profile} {u : Text} (hd : d.Sound p u)
    {start stop openAt closeAt a b : Nat}
    (hcut : Cut d.scanned (.block start stop openAt closeAt) a b) : closeAt < u.size := by
  rw [← hd.size_masked]
  exact (Array.getElem?_eq_some_iff.mp hcut.wellCut.2.2.2).1

theorem Sheet.Sound.cuttable_block {d : Sheet} {p : Profile} {u : Text} (hd : d.Sound p u)
    {start stop openAt closeAt a b : Nat}
    (hcut : Cut d.scanned (.block start stop openAt closeAt) a b) : Cuttable u (closeAt + 1) :=
  cuttable_after (hd.source_of_masked hcut.wellCut.2.2.2 (by decide) (by decide)) (by decide)

theorem Sheet.Sound.cuttable_leading {d : Sheet} {p : Profile} {u : Text} (hd : d.Sound p u)
    {from_ start : Nat} {pool : List Comment} (hpool : Drawn from_ d.scanned.comments pool)
    (floor : Nat) (h : d.scanned.masked.testAt start startsItem = true) :
    Cuttable u (startOf (takeLeading d.scanned start floor pool).1 start) := by
  have hstart := hd.cuttable_start h
  rw [hd.scanned_eq] at hpool ⊢
  exact MemberOrder.cuttable_leading hpool floor hstart

theorem Sheet.Sound.cuttable_trailing {d : Sheet} {p : Profile} {u : Text} (hd : d.Sound p u)
    {skip : List Char} {stop limit last : Nat} {place : Option Nat} {taken left : List Comment}
    (hf : Followed d.scanned skip stop limit place taken left last) {i : Nat} (h : Cuttable u i) :
    Cuttable u (endOf taken i) :=
  cuttable_endOf (p := p) h fun k hk => hd.scanned_eq ▸ hf.known k hk

/-! ## Declarations -/

theorem declarationInfo_spec {d : Sheet} {start : Nat} (stop : Nat) (semicolon : Option Nat)
    (h : (declaration.matchAt? d.scanned.masked start d.scanned.masked.size).isSome = true) :
    (declarationInfo d start stop semicolon).span = some (d.span start stop) ∧
      (declarationInfo d start stop semicolon).fullText = d.text start stop ∧
      (declarationInfo d start stop semicolon).separator =
        if d.isIndented || semicolon.isNone then "" else ";" := by
  obtain ⟨m, hm⟩ := Option.isSome_iff_exists.mp h
  simp only [declarationInfo, hm]
  exact ⟨trivial, trivial, trivial⟩

/-- A declaration step by step. -/
theorem declarationMember_eq (d : Sheet) (start stop : Nat) (semicolon : Option Nat)
    (floor limit : Nat) (pool : List Comment) :
    declarationMember d start stop semicolon floor limit pool =
      let after := pastSeparator stop semicolon
      let lead := takeLeading d.scanned start floor pool
      let inside := takeInside start stop lead.2
      let early := takeEarly stop semicolon inside.2
      let trail := takeTrailing d.scanned after limit d.trailingSkip early.2
      ((.leaf { declarationInfo d start stop semicolon with
        comments := lead.1, trailingComments := early.1 ++ trail.1
        trailingText := trailingTextOf d after (early.1 ++ trail.1)
        unit := some (d.span (startOf lead.1 start) (endOf (early.1 ++ trail.1) after)) },
        endOf (early.1 ++ trail.1) after), trail.2) := by
  cases semicolon <;> rfl

/-- A declaration with its comments is laid out from the reach on, and reaches through its trailing
comments. -/
theorem declarationMember_spec {d : Sheet} {p : Profile} {u : Text} (hd : d.Sound p u)
    {start stop a b : Nat} {semicolon : Option Nat} {floor reach limit : Nat} {pool : List Comment}
    (hcut : Cut d.scanned (.declaration start stop semicolon) a b) (hfloor : floor ≤ start)
    (hlimit : b ≤ limit) (hsize : limit ≤ u.size) (hreach : Reach d floor reach pool) :
    let r := declarationMember d start stop semicolon floor limit pool
    r.1.1.LaidOut d.Loose d.source ∧
      r.1.1.unitStart = d.toSource (startOf r.1.1.info.comments start) ∧
      reach ≤ startOf r.1.1.info.comments start ∧ startOf r.1.1.info.comments start ≤ start ∧
      r.1.1.unitStop = d.toSource r.1.2 ∧ r.1.2 = endOf r.1.1.info.trailingComments b ∧
      r.1.2 ≤ limit ∧ Reach d b r.1.2 r.2 ∧ r.2.Sublist pool ∧
      d.Trail limit r.1.1.info stop semicolon := by
  have hs := hd.orderly
  obtain ⟨hcutStop, hcutAfter⟩ := hd.cuttable_declaration hcut
  obtain ⟨-, hafter, hstarts, ⟨hne, hlast, hmatch, ⟨x, hx1, hx2, hcolon⟩, hbare, hsemi⟩, -⟩ := hcut
  have hb : pastSeparator stop semicolon = b := hafter
  have hplace : ∀ p, semicolon = some p → stop ≤ p := fun p hp => (hsemi p hp).1
  have hstop := le_pastSeparator hplace
  have hreachstart := hreach.le_start hfloor hstarts
  let lead := takeLeading d.scanned start floor pool
  have hlead : reach ≤ startOf lead.1 start ∧ startOf lead.1 start ≤ start :=
    hreach.le_leading hs hfloor hstarts
  have hpool1 : Drawn start d.scanned.comments lead.2 :=
    hreach.drawn.trans (takeLeading_spec (hs.sublist hreach.drawn.sublist) start floor).2 hreachstart
  let inside := takeInside start stop lead.2
  have hpool2 : Drawn stop d.scanned.comments inside.2 :=
    takeInside_drawn hs hpool1 (Nat.le_of_lt hne)
  let early := takeEarly stop semicolon inside.2
  let trail := takeTrailing d.scanned (pastSeparator stop semicolon) limit d.trailingSkip early.2
  have hf := followed hs d.trailingSkip hpool2 hplace (by omega : pastSeparator stop semicolon ≤ limit)
  let last := endOf (early.1 ++ trail.1) (pastSeparator stop semicolon)
  let unit := d.span (startOf lead.1 start) last
  let info : MemberInfo := { declarationInfo d start stop semicolon with
    comments := lead.1, trailingComments := early.1 ++ trail.1
    trailingText := trailingTextOf d (pastSeparator stop semicolon) (early.1 ++ trail.1)
    unit := some unit }
  obtain ⟨hspan, htext, hsep⟩ := declarationInfo_spec stop semicolon hmatch
  have hlast' : pastSeparator stop semicolon ≤ last := hf.after_le
  have hlimit' : last ≤ limit := hf.le_limit
  have hplaced : Placed d.source info (d.span start stop) unit := by
    refine ⟨hspan, rfl, hd.mono hlead.2, ?_, hd.mono (Nat.le_trans hstop hlast'), htext⟩
    exact hd.colon_lt hx1 hx2 (by omega) (hd.source_of_masked hcolon (by decide) (by decide))
  have hP : d.Separated info := by
    rcases hd.plain with hind | ⟨hplain, hid, hsource⟩
    · exact Or.inl (hsep.trans (by simp [hind]))
    · cases semicolon with
      | none => exact Or.inl (hsep.trans (by simp))
      | some place =>
        obtain ⟨h1, h2, h3⟩ := hsemi place rfl
        refine Or.inr ⟨hplain, ?_⟩
        rw [hsource]
        exact separatorPlaced_of_scan hd.scanned_eq (c := ';') (hsep.trans (by simp [hplain])) hspan
          rfl (by simp [Sheet.span, hid]) (by simp [unit, Sheet.span, hid]; rfl) h1 h2 (by decide)
          hlast h3 rfl hf
  have hsize' : last ≤ u.size := Nat.le_trans hlimit' hsize
  have hseverable : Severable d.source info := .of_eq hspan rfl
    (hd.cuttable (by omega) (hd.cuttable_leading hreach.drawn floor hstarts))
    (hd.cuttable hsize' (hd.cuttable_trailing hf (hb ▸ hcutAfter)))
    (hd.cuttable (by omega) hcutStop)
  have hmember : Member.LaidOut d.Loose d.source (.leaf info) := ⟨⟨hP, hseverable⟩, _, _, hplaced⟩
  have htrail : d.Trail limit info stop semicolon :=
    { placed := ⟨start, _, last, hspan, rfl, by omega, hlimit', hf.inside⟩
      code := hlast, separator := hsep, next := hsemi, bare := fun _ => hbare
      le_limit := hb ▸ hlimit, early := hf.early, held := hf.held }
  rw [declarationMember_eq]
  refine ⟨hmember, Placed.unitStart_eq (m := .leaf info) hplaced, hlead.1, hlead.2,
    Placed.unitStop_eq (m := .leaf info) hplaced, ?_, hlimit', ?_, ?_⟩
  · rw [← hb]
    rfl
  · rw [← hb]
    refine ⟨hf.after_le, ?_, hf.drawn, hf.swept, hf.gap⟩
    rw [hd.size_masked]
    exact Nat.le_trans hlimit' hsize
  · exact ⟨(((without_sublist _ early.2).trans (takeEarly_sublist stop semicolon inside.2)).trans
      (without_sublist _ lead.2)).trans (without_sublist _ pool), htrail⟩

/-- What a list of declarations amounts to: they are laid out from the reach on, and reach from
`from_` through the trailing comments of the last one. -/
structure Declared (d : Sheet) (items : List Item) (floor reach limit : Nat) (ms : List Member)
    (pool : List Comment) (from_ last : Nat) : Prop where
  laid : LaidFrom d.Loose d.source (d.toSource last) (d.toSource reach) ms
  reaches : Reach d from_ last pool
  reach_le : reach ≤ last
  le_limit : last ≤ limit
  none : items = [] → ms = []
  empty : ms = [] → from_ = floor ∧ last = reach
  ends : ms ≠ [] → last = endOf (lastTrailing ms) from_
  cuttable : ms ≠ [] → Cuttable d.source (d.toSource last)
  upTo : ∀ item, items.getLast? = some item → item.isDeclaration = true →
    ms ≠ [] ∧ from_ = item.after
  trails : d.TrailsTo limit from_ ms

theorem lastTrailing_cons {m : Member} {ms : List Member} (h : ms ≠ []) :
    lastTrailing (m :: ms) = lastTrailing ms := by
  obtain ⟨m', ms', rfl⟩ := List.exists_cons_of_ne_nil h
  simp only [lastTrailing, List.getLast?_cons_cons]

/-- An item that is no declaration adds nothing. -/
theorem Declared.skip {d : Sheet} {item : Item} {items : List Item}
    {floor reach limit from_ last : Nat} {ms : List Member} {pool : List Comment}
    (h : Declared d items floor reach limit ms pool from_ last) (hitem : item.isDeclaration = false) :
    Declared d (item :: items) floor reach limit ms pool from_ last := by
  refine ⟨h.laid, h.reaches, h.reach_le, h.le_limit, by simp, h.empty, h.ends, h.cuttable, ?_, h.trails⟩
  intro final hfinal hdecl
  cases items with
  | nil =>
    rw [List.getLast?_singleton, Option.some.injEq] at hfinal
    rw [← hfinal, hitem] at hdecl
    cases hdecl
  | cons next rest =>
    rw [List.getLast?_cons_cons] at hfinal
    exact h.upTo final hfinal hdecl

/-- A declaration in front of others. -/
theorem Declared.cons {d : Sheet} {item : Item}
    {items : List Item} {floor reach limit after last from_ last' : Nat} {m : Member}
    {ms : List Member} {pool left : List Comment} (hafter : item.after = after)
    (hm : m.LaidOut d.Loose d.source)
    (hstart : d.toSource reach ≤ m.unitStart) (hstop : m.unitStop = d.toSource last)
    (hlast : last = endOf m.info.trailingComments after) (hle : reach ≤ last)
    (hreach : Reach d after last pool) (hleft : left.Sublist pool)
    (htrail : ∃ stop place, d.Trail limit m.info stop place ∧ pastSeparator stop place = after)
    (hnext : items ≠ [] → ∃ x, after ≤ x ∧ x < limit ∧ d.scanned.masked.testAt x startsItem = true)
    (h : Declared d items last last limit ms left from_ last') :
    ∃ from_ last, Declared d (item :: items) floor reach limit (m :: ms) left from_ last := by
  obtain ⟨stop, place, htrail, hplace⟩ := htrail
  by_cases hms : ms = []
  · -- no declaration follows: the reach is that of this one
    subst hms
    obtain ⟨rfl, rfl⟩ := h.empty rfl
    refine ⟨after, last', ⟨⟨hstart, hm, Nat.le_of_eq hstop⟩, ?_, hle, h.le_limit, by simp, by simp,
      ?_, ?_, ?_, ⟨⟨stop, place, htrail, fun _ => hplace, by simp⟩, trivial⟩⟩⟩
    · refine hreach.left ⟨hleft, fun c hc hb => ?_⟩
      exact h.reaches.drawn.kept c (hreach.drawn.sublist.mem hc) hb
    · exact fun _ => hlast
    · obtain ⟨hloose, span, unit, hplaced⟩ := hm.placed
      exact fun _ => hstop ▸ (hplaced.cuttable hloose.2).2
    · intro final hfinal hdecl
      cases items with
      | nil =>
        cases hfinal
        exact ⟨by simp, hafter.symm⟩
      | cons next rest =>
        rw [List.getLast?_cons_cons] at hfinal
        exact absurd rfl (h.upTo final hfinal hdecl).1
  · refine ⟨from_, last', ⟨⟨hstart, hm, hstop ▸ h.laid⟩, h.reaches, Nat.le_trans hle h.reach_le,
      h.le_limit, by simp, by simp, fun _ => ?_, fun _ => h.cuttable hms, ?_,
      ⟨⟨stop, place, htrail, fun hnil => absurd hnil hms, fun _ => ?_⟩, h.trails⟩⟩⟩
    · rw [lastTrailing_cons hms]
      exact h.ends hms
    · intro final hfinal hdecl
      cases items with
      | nil => exact absurd (h.none rfl) hms
      | cons next rest =>
        rw [List.getLast?_cons_cons] at hfinal
        exact ⟨by simp, (h.upTo final hfinal hdecl).2⟩
    · rw [hplace]
      exact hnext fun hnil => hms (h.none hnil)

/-- Reading declarations lays them out. -/
theorem declarationsFrom_declared {d : Sheet} {p : Profile} {u : Text} (hd : d.Sound p u)
    {limit a b : Nat} {items : List Item} (hitems : Chain (Cut d.scanned) a b items)
    (hlimit : b ≤ limit) (hsize : limit ≤ u.size) {floor reach : Nat} {pool : List Comment}
    (hreach : Reach d floor reach pool) (hfloor : ∀ item ∈ items, floor ≤ item.start)
    (hle : reach ≤ limit) :
    let r := declarationsFrom d limit items floor pool
    (∃ from_ last, Declared d items floor reach limit r.1 r.2 from_ last) ∧ r.2.Sublist pool := by
  induction hitems generalizing floor reach pool with
  | nil h =>
    refine ⟨⟨floor, reach, ⟨Nat.le_refl _, hreach, Nat.le_refl _, hle, fun _ => rfl,
      fun _ => ⟨rfl, rfl⟩, ?_, ?_, ?_, trivial⟩⟩, List.Sublist.refl _⟩
    · intro h
      exact absurd rfl h
    · intro h
      exact absurd rfl h
    · intro item h
      cases h
  | cons ha hcut hrest ih =>
    rename_i a i j b item rest
    have hfloor' : ∀ item ∈ rest, floor ≤ item.start :=
      fun x hx => hfloor x (List.mem_cons_of_mem _ hx)
    cases item with
    | declaration start stop semicolon =>
      obtain ⟨h1, h2, h3, h4, h5, h6, h7, h8, h9, h10⟩ := declarationMember_spec hd hcut
        (hfloor _ List.mem_cons_self) (Nat.le_trans (hrest.le fun _ _ _ h => h.le) hlimit) hsize hreach
      -- what follows starts after the trailing comments
      have hnext : ∀ item ∈ rest, (declarationMember d start stop semicolon floor limit pool).1.2 ≤
          item.start := by
        intro x hx
        obtain ⟨k, l, hxcut, hk, -⟩ := hrest.of_mem (fun _ _ _ h => h.le) hx
        refine h8.le_start ?_ hxcut.starts
        rw [hxcut.start_eq]
        exact hk
      obtain ⟨⟨from_, last, hdecl⟩, hsub⟩ :=
        ih hlimit (Reach.of_drawn h8.drawn h8.inside) hnext h7
      have hstart : d.toSource reach ≤ _ := h2 ▸ hd.mono h3
      have hlt := h8.le
      have := hcut.lt
      have := hcut.start_eq
      simp only [Item.start] at this
      simp only [declarationsFrom, bind_apply, pure_apply]
      exact ⟨hdecl.cons hcut.after_eq h1 hstart h5 h6 (by omega) h8 hsub ⟨_, _, h10, hcut.after_eq⟩
        (exists_start hrest hlimit), hsub.trans h9⟩
    | statement start stop semicolon =>
      obtain ⟨⟨from_, last, hdecl⟩, hsub⟩ := ih hlimit hreach hfloor' hle
      simp only [declarationsFrom]
      exact ⟨⟨from_, last, hdecl.skip rfl⟩, hsub⟩
    | block start stop openAt closeAt =>
      obtain ⟨⟨from_, last, hdecl⟩, hsub⟩ := ih hlimit hreach hfloor' hle
      simp only [declarationsFrom]
      exact ⟨⟨from_, last, hdecl.skip rfl⟩, hsub⟩

/-! ## Entities -/

/-- An entity of a sheet, in offsets of the scanned text, whose members have the comments after them. -/
def EntityAt (d : Sheet) (e : Entity) (a b : Nat) : Prop :=
  a ≤ b ∧ e.LaidOut d.Loose d.source (d.toSource a) (d.toSource b) ∧ d.EntityTrails e

/-- The end of the line of an offset. -/
theorem lineStop_bounds {u : Text} {limit : Nat} (h : limit ≤ u.size) :
    limit ≤ (u.find? ['\n'] limit).getD u.size ∧ (u.find? ['\n'] limit).getD u.size ≤ u.size := by
  cases hfind : u.find? ['\n'] limit with
  | none => exact ⟨h, Nat.le_refl _⟩
  | some j =>
    obtain ⟨h1, h2, -⟩ := Text.find?_some hfind
    exact ⟨h1, Nat.le_of_lt h2⟩

/-- No line feed stands before the end of the line. -/
theorem lineStop_ends (u : Text) (i : Nat) :
    (∀ x, i ≤ x → x < (u.find? ['\n'] i).getD u.size → u[x]? ≠ some '\n') ∧
      ((u.find? ['\n'] i).getD u.size = u.size ∨
        u[(u.find? ['\n'] i).getD u.size]? = some '\n') := by
  have hnot : ∀ x, u.standsAt x ['\n'] = false → u[x]? ≠ some '\n' := fun x h heq => by
    rw [Text.standsAt_one.mpr heq] at h
    cases h
  cases hfind : u.find? ['\n'] i with
  | none =>
    exact ⟨fun x h1 h2 => hnot x (Text.find?_none hfind x h1 h2), Or.inl rfl⟩
  | some j =>
    obtain ⟨-, -, h3, h4⟩ := Text.find?_some hfind
    exact ⟨fun x h1 h2 => hnot x (h4 x h1 h2), Or.inr (Text.standsAt_one.mp h3)⟩

/-- A run of declarations is an entity from its first comment through its last one. -/
theorem runEntity_spec {d : Sheet} {p : Profile} {u : Text} (hd : d.Sound p u) {a b : Nat}
    {run : List Item} {item : Item} (hrun : Chain (Cut d.scanned) a b run)
    (hlast : run.getLast? = some item) (hdecl : ∀ item ∈ run, item.isDeclaration = true)
    (hb : b ≤ u.size) {floor reach : Nat} {pool : List Comment} (hreach : Reach d floor reach pool)
    (hfloor : ∀ item ∈ run, floor ≤ item.start) (selector : String) (media : Option String) :
    let r := runEntity d run floor selector media pool
    ∃ first last, EntityAt d r.1 first last ∧ reach ≤ first ∧ Reach d item.after last r.2 := by
  intro r
  have hs := hd.orderly
  have hsource : d.scanned.source = u := by rw [hd.scanned_eq]; rfl
  -- the run starts with a declaration and ends with another, or the same
  obtain ⟨start, stop, semicolon, rest, rfl⟩ :=
    exists_declaration (List.ne_nil_of_mem (List.mem_of_getLast? hlast)) hdecl
  obtain ⟨k, l, hcut, hl, hrun⟩ := hrun.upTo_last hlast
  obtain rfl : item.after = l := hcut.after_eq
  let lineStop := (u.find? ['\n'] item.after).getD u.size
  obtain ⟨hline1, hline2⟩ : item.after ≤ lineStop ∧ lineStop ≤ u.size :=
    lineStop_bounds (Nat.le_trans hl hb)
  obtain ⟨i, j, hfirst, -, hj⟩ := hrun.of_mem (fun _ _ _ h => h.le) List.mem_cons_self
  have hstart : start ≤ item.after := by
    have h1 : start = i := hfirst.start_eq
    have := hfirst.le
    omega
  have hreachStart := hreach.le_start (hfloor _ List.mem_cons_self) hfirst.starts
  obtain ⟨⟨from_, last, hdeclared⟩, -⟩ := declarationsFrom_declared hd hrun hline1 hline2 hreach
    hfloor (Nat.le_trans hreachStart (Nat.le_trans hstart hline1))
  obtain ⟨hms, rfl⟩ := hdeclared.upTo item hlast (hdecl item (List.mem_of_getLast? hlast))
  have hends := hdeclared.ends hms
  let members := declarationsFrom d lineStop (.declaration start stop semicolon :: rest) floor pool
  -- the first member is the first declaration with its comments
  let m := (declarationMember d start stop semicolon floor lineStop pool).1.1
  obtain ⟨h1, h2, h3, h4, -⟩ := declarationMember_spec hd hfirst (hfloor _ List.mem_cons_self)
    (Nat.le_trans hj hline1) hline2 hreach
  obtain ⟨ms, hmembers⟩ : ∃ ms, members.1 = m :: ms := ⟨_, declarationsFrom_cons ..⟩
  let first := startOf m.info.comments start
  have hlaid : LaidFrom d.Loose d.source (d.toSource last) (d.toSource first) members.1 := by
    have := hdeclared.laid
    rw [hmembers] at this ⊢
    exact ⟨Nat.le_of_eq h2.symm, this.2⟩
  have hlt : d.toSource first < d.toSource last := by
    rw [hmembers] at hlaid
    have h5 := hlaid.2.1.unit_lt
    have h6 := hlaid.2.2.le
    have h7 : m.unitStart = d.toSource first := h2
    omega
  have hcuttable : Cuttable d.source (d.toSource first) ∧ Cuttable d.source (d.toSource last) := by
    refine ⟨?_, hdeclared.cuttable hms⟩
    obtain ⟨hloose, span, unit, hplaced⟩ := h1.placed
    exact h2 ▸ (hplaced.cuttable hloose.2).1
  have htrails : d.EntityTrails r.1 := by
    have hmembersEq : r.1.members = members.1 := by
      simp only [r, members, lineStop, runEntity, bind_apply, pure_apply, hlast, Option.map_some,
        Option.getD_some, hsource]
    have hspanEq : r.1.span = some (d.span first last) := by
      simp only [r, runEntity, bind_apply, pure_apply, hlast, Option.map_some, Option.getD_some, hsource]
      rw [hends]
      rfl
    obtain ⟨hunbroken, hline⟩ := lineStop_ends u item.after
    refine @Sheet.ListTrails.run _ _ _ _ lineStop item.after rfl ?_ (hmembersEq ▸ hdeclared.trails) ?_
    · exact ⟨⟨first, last, hspanEq, hdeclared.le_limit⟩, hsource ▸ hunbroken, hsource ▸ hline⟩
    · rw [hmembersEq]
      exact declarationsFrom_leaf d lineStop _ floor pool
  refine ⟨first, last, ⟨?_, ?_, htrails⟩, h3, ?_⟩
  · exact Nat.le_of_not_lt fun h => absurd (hd.mono (Nat.le_of_lt h)) (Nat.not_le_of_lt hlt)
  · simp only [r, runEntity, bind_apply, pure_apply, hlast, Option.map_some, Option.getD_some, hsource]
    rw [hends] at hlt hlaid hcuttable ⊢
    exact ⟨hlt, hcuttable, rfl, ⟨_, rfl, rfl, rfl⟩, ⟨_, rfl, Nat.le_refl _, Nat.le_refl _, hlaid⟩⟩
  · have hreaches := hdeclared.reaches
    simp only [r, runEntity, bind_apply, pure_apply, hlast, Option.map_some, Option.getD_some, hsource]
    rw [hends] at hreaches ⊢
    exact hreaches.left (takeInside_spec (hs.sublist hreaches.drawn.sublist) _ _).2

/-! ## Blocks -/

/-- After the header of a block the pool is complete from its opening bracket on. -/
theorem Reach.header {d : Sheet} {floor reach start openAt : Nat} {pool : List Comment}
    (hs : Orderly d.scanned d.scanned.comments) (h : Reach d floor reach pool)
    (hstart : reach ≤ start) (hopen : start ≤ openAt) :
    Drawn openAt d.scanned.comments
      (takeInside start openAt (takeLeading d.scanned start floor pool).2).2 := by
  have hlead := h.drawn.trans
    (takeLeading_spec (hs.sublist h.drawn.sublist) start floor).2 hstart
  exact takeInside_drawn hs hlead hopen

/-- What is inside a block of declarations: its members are laid out between its brackets. -/
theorem blockDeclarations_spec {d : Sheet} {p : Profile} {u : Text} (hd : d.Sound p u)
    {start stop openAt closeAt a b : Nat} {pool : List Comment}
    (hcut : Cut d.scanned (.block start stop openAt closeAt) a b)
    (hpool : Drawn openAt d.scanned.comments pool) :
    let r := declarationsFrom d closeAt (items d.scanned (openAt + 1) closeAt).1 (openAt + 1) pool
    LaidFrom d.Loose d.source (d.toSource closeAt) (d.toSource (openAt + 1)) r.1 ∧
      Drawn closeAt d.scanned.comments r.2 ∧
      endOf (lastTrailing r.1) (closeAt + 1) = closeAt + 1 ∧ ∃ base, d.TrailsTo closeAt base r.1 := by
  intro r
  have hsize := hd.close_lt hcut
  obtain ⟨hopen, hlt, -, hclose⟩ := hcut.wellCut
  have hchain : Chain (Cut d.scanned) (openAt + 1) closeAt (items d.scanned (openAt + 1) closeAt).1 :=
    items_chain hlt (Or.inl hclose)
  have hreach : Reach d (openAt + 1) (openAt + 1) pool := by
    refine Reach.of_drawn (hpool.mono (Nat.le_succ openAt)) ?_
    rw [hd.size_masked]
    omega
  have hfloor : ∀ item ∈ (items d.scanned (openAt + 1) closeAt).1, openAt + 1 ≤ item.start := by
    intro item hitem
    obtain ⟨i, j, hcut, hi, -⟩ := hchain.of_mem (fun _ _ _ h => h.le) hitem
    rw [hcut.start_eq]
    exact hi
  obtain ⟨⟨from_, last, hdecl⟩, -⟩ := declarationsFrom_declared hd hchain (Nat.le_refl closeAt)
    (Nat.le_of_lt hsize) hreach hfloor hlt
  refine ⟨hdecl.laid.weaken (Nat.le_refl _) (hd.mono hdecl.le_limit),
    hdecl.reaches.drawn.mono hdecl.le_limit, Nat.le_antisymm ?_ (le_endOf _ _), from_, hdecl.trails⟩
  refine endOf_le (Nat.le_refl _) fun c hc => ?_
  have hne : r.1 ≠ [] := by
    intro hnil
    rw [hnil] at hc
    cases hc
  have h1 : c.stop ≤ endOf (lastTrailing r.1) from_ := stop_le_endOf hc
  have h2 : last = endOf (lastTrailing r.1) from_ := hdecl.ends hne
  have h3 := hdecl.le_limit
  omega

/-- A block covers some of the source. -/
theorem Sheet.Sound.block_lt {d : Sheet} {p : Profile} {u : Text} (hd : d.Sound p u)
    {start stop openAt closeAt a b first : Nat}
    (hcut : Cut d.scanned (.block start stop openAt closeAt) a b) (hfirst : first ≤ start) :
    d.toSource first < d.toSource (closeAt + 1) := by
  have hsize := hd.close_lt hcut
  obtain ⟨hopen, hlt, h1, h2⟩ := hcut.wellCut
  exact hd.braces_lt (Nat.le_trans hfirst hopen) hlt (Nat.lt_succ_self _) hsize
    (hd.source_of_masked h1 (by decide) (by decide)) (hd.source_of_masked h2 (by decide) (by decide))

/-- A block may be cut out of the source from its comments on. -/
theorem Sheet.Sound.cuttable_around {d : Sheet} {p : Profile} {u : Text} (hd : d.Sound p u)
    {start stop openAt closeAt a b first : Nat}
    (hcut : Cut d.scanned (.block start stop openAt closeAt) a b) (hfirst : first ≤ start)
    (hcuttable : Cuttable u first) :
    Cuttable d.source (d.toSource first) ∧ Cuttable d.source (d.toSource (closeAt + 1)) := by
  have hsize := hd.close_lt hcut
  obtain ⟨hopen, hlt, -⟩ := hcut.wellCut
  exact ⟨hd.cuttable (by omega) hcuttable, hd.cuttable hsize (hd.cuttable_block hcut)⟩

/-- Outside of the indented dialect the header of a block holds its bracket. -/
theorem Sheet.Sound.header_ne {d : Sheet} {p : Profile} {u : Text} (hd : d.Sound p u)
    {start stop openAt closeAt a b : Nat} (hcut : Cut d.scanned (.block start stop openAt closeAt) a b)
    (hplain : d.isIndented = false) : d.text start (openAt + 1) ≠ "" := by
  obtain ⟨hopen, hlt, -⟩ := hcut.wellCut
  have hsize := hd.close_lt hcut
  obtain ⟨-, hid, hsource⟩ := hd.plain.resolve_left (by simp [hplain])
  intro hnil
  have hlength := Text.length_slice u (a := start) (b := openAt + 1) (by omega)
  rw [Sheet.text, hid, hsource, Text.cut, String.ofList_eq_empty_iff] at hnil
  rw [id, id] at hnil
  rw [hnil] at hlength
  simp at hlength
  omega

/-! ## Keyframes -/

/-- A step with its comments and declarations is laid out from the reach on. -/
theorem stepMember_spec {d : Sheet} {p : Profile} {u : Text} (hd : d.Sound p u)
    {start stop openAt closeAt a b : Nat} {floor reach limit : Nat} {pool : List Comment}
    (hcut : Cut d.scanned (.block start stop openAt closeAt) a b) (hfloor : floor ≤ start)
    (hlimit : b ≤ limit) (hsize : limit ≤ u.size) (hreach : Reach d floor reach pool) :
    let r := stepMember d start stop openAt closeAt floor limit pool
    r.1.1.LaidOut d.Loose d.source ∧ d.toSource reach ≤ r.1.1.unitStart ∧
      r.1.1.unitStop = d.toSource r.1.2 ∧ r.1.2 ≤ limit ∧ Reach d b r.1.2 r.2 ∧
      d.Trail limit r.1.1.info b none ∧ d.StepTrails r.1.1 := by
  have hs := hd.orderly
  have hb : closeAt + 1 = b := hcut.after_eq
  have hopen := hcut.wellCut.1
  have hreachstart := hreach.le_start hfloor hcut.starts
  let lead := takeLeading d.scanned start floor pool
  have hlead : reach ≤ startOf lead.1 start ∧ startOf lead.1 start ≤ start :=
    hreach.le_leading hs hfloor hcut.starts
  let header := takeInside start openAt lead.2
  obtain ⟨hlaid, hpool, -, base, htrails⟩ :=
    blockDeclarations_spec hd hcut (hreach.header hs hreachstart hopen)
  let children := declarationsFrom d closeAt (items d.scanned (openAt + 1) closeAt).1 (openAt + 1)
    header.2
  let inside := takeInside (openAt + 1) closeAt children.2
  have hpool : Drawn (closeAt + 1) d.scanned.comments inside.2 :=
    (takeInside_drawn hs hpool (Nat.le_refl closeAt)).mono (Nat.le_succ closeAt)
  have hf : Followed d.scanned d.trailingSkip (closeAt + 1) limit none _ _ _ :=
    followed hs d.trailingSkip hpool (by simp) (hb ▸ hlimit)
  let trail := takeTrailing d.scanned (closeAt + 1) limit d.trailingSkip inside.2
  let last := endOf trail.1 (closeAt + 1)
  have hlast : closeAt + 1 ≤ last := hf.after_le
  have hlimit' : last ≤ limit := hf.le_limit
  let unit := d.span (startOf lead.1 start) last
  let m := (stepMember d start stop openAt closeAt floor limit pool).1.1
  have hplaced : Placed d.source m.info (d.span start (closeAt + 1)) unit :=
    ⟨rfl, rfl, hd.mono hlead.2, hd.block_lt hcut (Nat.le_refl start), hd.mono hlast, rfl⟩
  have hsize' : last ≤ u.size := Nat.le_trans hlimit' hsize
  obtain ⟨hfirst, hclosed⟩ := hd.cuttable_around hcut hlead.2
    (hd.cuttable_leading hreach.drawn floor hcut.starts)
  have hseverable : Severable d.source m.info := .of_eq hplaced.span_eq hplaced.unit_eq hfirst
    (hd.cuttable hsize' (hd.cuttable_trailing hf (hd.cuttable_block hcut))) hclosed
  have hstart := hplaced.unitStart_eq
  have hstop := hplaced.unitStop_eq
  have hclose : d.scanned.masked[closeAt]? = some '}' := hcut.wellCut.2.2.2
  have htrail : d.Trail limit m.info (closeAt + 1) none := by
    have hfirst : startOf lead.1 start ≤ closeAt + 1 := by
      have := hcut.wellCut.2.1
      omega
    refine ⟨⟨start, _, last, rfl, rfl, hfirst, hlimit', hf.inside⟩, ?_, by simp; rfl, by simp, nofun,
      hb ▸ hlimit, hf.early, hf.held⟩
    rw [Nat.add_sub_cancel, Text.testAt_of_getElem? hclose]
    decide
  have hsteps : d.StepTrails m := by
    intro i cs heq
    obtain ⟨rfl, rfl⟩ := Member.group.inj heq
    exact ⟨⟨closeAt, base, ⟨hclose, start, rfl⟩, htrails⟩, declarationsFrom_leaf d closeAt _ _ _⟩
  refine ⟨⟨⟨Or.inl rfl, hseverable⟩, _, unit, _, hplaced, rfl, ?_, ?_, hlaid⟩, ?_, hstop, hlimit', ?_,
    hb ▸ htrail, hsteps⟩
  · exact hd.mono (Nat.le_succ_of_le hopen)
  · exact hd.mono (Nat.le_succ closeAt)
  · exact hstart ▸ hd.mono hlead.1
  · rw [← hb]
    refine ⟨hlast, ?_, hf.drawn, hf.swept, hf.gap⟩
    rw [hd.size_masked]
    exact Nat.le_trans hlimit' hsize

/-- Reading the steps of a keyframes block lays them out. -/
theorem stepsFrom_laid {d : Sheet} {p : Profile} {u : Text} (hd : d.Sound p u) {limit a : Nat}
    {steps : List Item} (hsteps : Chain (Cut d.scanned) a limit steps) (hsize : limit ≤ u.size)
    {floor reach : Nat} {pool : List Comment} (hreach : Reach d floor reach pool)
    (hfloor : ∀ item ∈ steps, floor ≤ item.start) (hle : reach ≤ limit) :
    let r := stepsFrom d limit steps floor pool
    LaidFrom d.Loose d.source (d.toSource limit) (d.toSource reach) r.1 ∧
      Drawn limit d.scanned.comments r.2 ∧ (∃ base, d.TrailsTo limit base r.1) ∧
      ∀ m ∈ r.1, d.StepTrails m := by
  induction hsteps generalizing floor reach pool with
  | nil h => exact ⟨hd.mono hle, hreach.drawn.mono hle, ⟨0, trivial⟩, by simp [stepsFrom, pure_apply]⟩
  | cons ha hcut hrest ih =>
    rename_i a i j limit item rest
    have hfloor' : ∀ item ∈ rest, floor ≤ item.start :=
      fun x hx => hfloor x (List.mem_cons_of_mem _ hx)
    cases item with
    | declaration start stop semicolon => exact ih hsize hreach hfloor' hle
    | statement start stop semicolon => exact ih hsize hreach hfloor' hle
    | block start stop openAt closeAt =>
      obtain ⟨h1, h2, h3, h4, h5, h6, h7⟩ := stepMember_spec hd hcut (hfloor _ List.mem_cons_self)
        (hrest.le fun _ _ _ h => h.le) hsize hreach
      have hnext : ∀ item ∈ rest, (stepMember d start stop openAt closeAt floor limit pool).1.2 ≤
          item.start := by
        intro x hx
        obtain ⟨k, l, hxcut, hk, -⟩ := hrest.of_mem (fun _ _ _ h => h.le) hx
        refine h5.le_start ?_ hxcut.starts
        rw [hxcut.start_eq]
        exact hk
      obtain ⟨hlaid, hdrawn, ⟨base, htrails⟩, hsteps⟩ :=
        ih hsize (Reach.of_drawn h5.drawn h5.inside) hnext h4
      refine ⟨⟨h2, h1, h3 ▸ hlaid⟩, hdrawn, ⟨_, htrails.cons h6 fun hne => ?_⟩,
        List.forall_mem_cons.mpr ⟨h7, hsteps⟩⟩
      refine exists_start hrest (Nat.le_refl limit) fun hnil => hne ?_
      rw [hnil]
      rfl

/-! ## Entities of blocks -/

/-- The entities found between two offsets form a chain from the reach on, and leave a reach. -/
def Found (d : Sheet) (reach b : Nat) (r : List Entity × List Comment) : Prop :=
  ∃ last, Reach d b last r.2 ∧ Chain (EntityAt d) reach last r.1

theorem Reach.found {d : Sheet} {floor reach b : Nat} {pool : List Comment}
    (h : Reach d floor reach pool) (hb : floor ≤ b) (hsize : b ≤ d.scanned.masked.size) :
    Found d reach b ([], pool) :=
  ⟨_, h.weaken hb hsize, .nil (Nat.le_max_right _ _)⟩

/-- One entity that ends with its block. -/
theorem found_block {d : Sheet} {reach first b : Nat} {e : Entity} {left : List Comment}
    (he : EntityAt d e first b) (hfirst : reach ≤ first) (hleft : Drawn b d.scanned.comments left)
    (hsize : b ≤ d.scanned.masked.size) : Found d reach b ([e], left) :=
  ⟨b, Reach.of_drawn hleft hsize, .cons hfirst he (.nil (Nat.le_refl b))⟩

/-- What is asked of a reader of nested blocks. -/
def FindsEntities (d : Sheet) (nested : BlockReader) : Prop :=
  ∀ {item : Item} {a b floor reach : Nat} {pool : List Comment} (media : Option String),
    Cut d.scanned item a b → b ≤ d.scanned.masked.size → floor ≤ item.start →
    Reach d floor reach pool → Found d reach b (nested item floor media pool)

/-- A run of declarations gives its entity. -/
theorem endRun_found {d : Sheet} {p : Profile} {u : Text} (hd : d.Sound p u) {base floor : Nat}
    {run : List Item} (hrun : Chain (Cut d.scanned) base floor run.reverse)
    (hdecl : ∀ item ∈ run, item.isDeclaration = true) (hsize : floor ≤ u.size)
    {runFloor reach : Nat} {pool : List Comment} (hbase : run ≠ [] → base = runFloor)
    (hreach : Reach d base reach pool) (selector : String) (media : Option String) :
    Found d reach floor (endRun d run runFloor selector media pool) := by
  have hsize' : floor ≤ d.scanned.masked.size := by rwa [hd.size_masked]
  cases run with
  | nil => exact hreach.found (hrun.le fun _ _ _ h => h.le) hsize'
  | cons item before =>
    obtain rfl := hbase (by simp)
    have hlast : (item :: before).reverse.getLast? = some item := by simp
    obtain ⟨i, j, hcut, hj, -⟩ := hrun.upTo_last hlast
    obtain ⟨first, last, he, hfirst, hafter⟩ := runEntity_spec hd hrun hlast
      (fun x hx => hdecl x (List.mem_reverse.mp hx)) hsize hreach
      (fun x hx => by
        obtain ⟨k, l, hx, hk, -⟩ := hrun.of_mem (fun _ _ _ h => h.le) hx
        rw [hx.start_eq]
        exact hk) selector media
    rw [hcut.after_eq] at hafter
    exact ⟨_, hafter.weaken hj hsize', .cons hfirst he (.nil (Nat.le_max_right _ _))⟩

/-- An item of a mixed body that is no declaration, step by step. -/
theorem mixedFrom_other (d : Sheet) (nested : BlockReader) (selector : String)
    (media : Option String) {child : Item} (rest run : List Item) (runFloor floor : Nat)
    (pool : List Comment) (h : child.isDeclaration = false) :
    mixedFrom d nested selector media (child :: rest) run runFloor floor pool =
      let before := endRun d run runFloor selector media pool
      let inside := if child.isBlock then nested child floor media before.2 else ([], before.2)
      let after := mixedFrom d nested selector media rest [] runFloor (max floor child.after) inside.2
      (before.1 ++ inside.1 ++ after.1, after.2) := by
  simp only [mixedFrom, h]
  cases child.isBlock <;> rfl

/-- The entities of a mixed body form a chain. The run read so far goes from `base`, where it may
take comments, up to the floor of the next item. -/
theorem mixedFrom_found {d : Sheet} {p : Profile} {u : Text} (hd : d.Sound p u)
    {nested : BlockReader} (hnested : FindsEntities d nested) (selector : String)
    (media : Option String) {rest : List Item} {floor b : Nat}
    (hrest : Chain (Cut d.scanned) floor b rest) (hsize : b ≤ u.size) {run : List Item}
    {base runFloor reach : Nat} {pool : List Comment}
    (hrun : Chain (Cut d.scanned) base floor run.reverse)
    (hdecl : ∀ item ∈ run, item.isDeclaration = true)
    (hbase : base = if run.isEmpty then floor else runFloor) (hreach : Reach d base reach pool) :
    Found d reach b (mixedFrom d nested selector media rest run runFloor floor pool) := by
  have hrunFloor : run ≠ [] → base = runFloor := by
    intro hne
    rw [hbase, if_neg (by simpa using hne)]
  induction hrest generalizing run base runFloor reach pool with
  | nil h =>
    rename_i floor b
    have hend := endRun_found hd hrun hdecl (Nat.le_trans h hsize) hrunFloor hreach selector media
    obtain ⟨last, hlast, hchain⟩ := hend
    exact ⟨_, hlast.weaken h (by rwa [hd.size_masked]), hchain.weaken (Nat.le_refl _)
      (Nat.le_max_right _ _)⟩
  | cons ha hcut hrest ih =>
    rename_i floor i j b child rest
    have hjb : j ≤ b := hrest.le fun _ _ _ h => h.le
    have hij := hcut.lt
    have hnext : max floor child.after = j := by
      rw [hcut.after_eq]
      omega
    cases hchild : child.isDeclaration with
    | true =>
      -- a declaration joins the run
      have hjoined : Chain (Cut d.scanned) base j (child :: run).reverse := by
        rw [List.reverse_cons]
        exact hrun.snoc ha hcut
      simp only [mixedFrom, hchild, if_true, hnext]
      refine ih hsize hjoined ?_ ?_ hreach ?_
      · intro x hx
        rcases List.mem_cons.mp hx with rfl | hx
        · exact hchild
        · exact hdecl x hx
      · simp [hbase]
      · simp [hbase]
    | false =>
      -- anything else ends it
      have hend := endRun_found hd hrun hdecl (by omega) hrunFloor hreach selector media
      have hsize' : j ≤ d.scanned.masked.size := by
        rw [hd.size_masked]
        omega
      rw [mixedFrom_other d nested selector media rest run runFloor floor pool hchild, hnext]
      obtain ⟨last, hlast, hbefore⟩ := hend
      have hinside : Found d last j (if child.isBlock then nested child floor media
          (endRun d run runFloor selector media pool).2 else
            ([], (endRun d run runFloor selector media pool).2)) := by
        split
        · exact hnested media hcut hsize' (hcut.start_eq ▸ ha) hlast
        · exact hlast.found (by omega) hsize'
      obtain ⟨last', hlast', hinside⟩ := hinside
      have hnone : Chain (Cut d.scanned) j j ([] : List Item).reverse := .nil (Nat.le_refl j)
      obtain ⟨last'', hlast'', hafter⟩ : Found d last' b (mixedFrom d nested selector media rest []
          runFloor j _) := ih hsize hnone (by simp) rfl hlast' (by simp)
      exact ⟨last'', hlast'', (hbefore.append hinside).append hafter⟩

/-- A nested block, step by step. -/
theorem readBlock_block (d : Sheet) (fuel start stop openAt closeAt floor : Nat)
    (media : Option String) (pool : List Comment) :
    readBlock d (fuel + 1) (.block start stop openAt closeAt) floor media pool =
      let selector := Text.squeeze (d.text start stop)
      let lead := takeLeading d.scanned start floor pool
      let header := takeInside start openAt lead.2
      let inner := (items d.scanned (openAt + 1) closeAt).1
      if keyframes.leads selector && !inner.isEmpty && inner.all Item.isBlock then
        let e := keyframesEntity d start openAt closeAt selector lead.1 inner media header.2
        ([e.1], e.2)
      else
        let media := if Text.startsWith (Text.lower selector) "@media" then some selector else media
        if inner.all Item.isDeclaration then
          let members := declarationsFrom d closeAt inner (openAt + 1) header.2
          let dangling := takeInside (openAt + 1) closeAt members.2
          if members.1.isEmpty then ([], dangling.2)
          else ([ruleEntity d start openAt closeAt selector lead.1 (inner.map Item.start)
            members.1 dangling.1 media], dangling.2)
        else mixedFrom d (readBlock d fuel) selector media inner [] (openAt + 1) (openAt + 1)
          header.2 := by
  simp only [readBlock, bind_apply]
  split
  · rfl
  · split
    · simp only [bind_apply]
      split <;> rfl
    · rfl

/-- A block of declarations is one entity. -/
theorem ruleEntity_at {d : Sheet} {p : Profile} {u : Text} (hd : d.Sound p u)
    {start stop openAt closeAt a b : Nat}
    (hcut : Cut d.scanned (.block start stop openAt closeAt) a b) {leading : List Comment}
    (hlead : startOf leading start ≤ start) (hcuttable : Cuttable u (startOf leading start))
    {members : List Member}
    (hlaid : LaidFrom d.Loose d.source (d.toSource closeAt) (d.toSource (openAt + 1)) members)
    (hlast : endOf (lastTrailing members) (closeAt + 1) = closeAt + 1)
    (htrails : ∃ base, d.TrailsTo closeAt base members) (hleaf : ∀ m ∈ members, ∃ j, m = .leaf j)
    (selector : String) (starts : List Nat) (dangling : List Comment) (media : Option String) :
    EntityAt d (ruleEntity d start openAt closeAt selector leading starts members dangling media)
      (startOf leading start) (closeAt + 1) := by
  have hopen := hcut.wellCut.1
  have hlt := hcut.wellCut.2.1
  obtain ⟨base, htrails⟩ := htrails
  have hspan : d.span (startOf leading start) (endOf (lastTrailing members) (closeAt + 1)) =
      d.span (startOf leading start) (closeAt + 1) := by rw [hlast]
  refine ⟨by omega, ⟨hd.block_lt hcut hlead, hd.cuttable_around hcut hlead hcuttable, ?_,
    ⟨_, rfl, rfl, ?_⟩, ⟨_, rfl, ?_, ?_, hlaid⟩⟩, .block (hd.header_ne hcut)
    ⟨hcut.wellCut.2.2.2, _, congrArg some hspan⟩ htrails fun m hm => Sheet.stepTrails_of_leaf (hleaf m hm)⟩
  · simp only [ruleEntity, hlast]
    rfl
  · simp only [hlast]
    rfl
  · exact hd.mono (by omega)
  · exact hd.mono (Nat.le_succ closeAt)

/-- A keyframes block is one entity. -/
theorem keyframesEntity_found {d : Sheet} {p : Profile} {u : Text} (hd : d.Sound p u)
    {start stop openAt closeAt a b reach : Nat}
    (hcut : Cut d.scanned (.block start stop openAt closeAt) a b) {leading : List Comment}
    (hlead : reach ≤ startOf leading start ∧ startOf leading start ≤ start)
    (hcuttable : Cuttable u (startOf leading start)) (selector : String)
    (media : Option String) {pool : List Comment}
    (hpool : Drawn openAt d.scanned.comments pool) :
    let inner := (items d.scanned (openAt + 1) closeAt).1
    let e := keyframesEntity d start openAt closeAt selector leading inner media pool
    Found d reach (closeAt + 1) ([e.1], e.2) := by
  intro inner e
  have hs := hd.orderly
  obtain ⟨hopen, hlt, -, hclose⟩ := hcut.wellCut
  have hsize := (Array.getElem?_eq_some_iff.mp hclose).1
  have hchain : Chain (Cut d.scanned) (openAt + 1) closeAt inner :=
    items_chain hlt (Or.inl hclose)
  have hreach : Reach d (openAt + 1) (openAt + 1) pool :=
    Reach.of_drawn (hpool.mono (Nat.le_succ openAt)) (by omega)
  obtain ⟨hlaid, hdrawn, ⟨base, htrails⟩, hsteps⟩ := stepsFrom_laid hd hchain
    (by rw [← hd.size_masked]; omega) hreach
    (fun item hitem => by
      obtain ⟨i, j, hcut, hi, -⟩ := hchain.of_mem (fun _ _ _ h => h.le) hitem
      rw [hcut.start_eq]
      exact hi) hlt
  have hleft := (takeInside_drawn hs (a := openAt + 1) hdrawn (Nat.le_refl closeAt)).mono
    (Nat.le_succ closeAt)
  refine found_block ⟨by omega, ⟨hd.block_lt hcut hlead.2, hd.cuttable_around hcut hlead.2 hcuttable,
    rfl, ⟨_, rfl, rfl, rfl⟩, ⟨_, rfl, ?_, ?_, hlaid⟩⟩, .block (hd.header_ne hcut) ⟨hclose, _, rfl⟩ htrails
    hsteps⟩ hlead.1 hleft hsize
  · exact hd.mono (by omega)
  · exact hd.mono (Nat.le_succ closeAt)

/-- The entities of a block form a chain, by induction on the depth of blocks. -/
theorem readBlock_found {d : Sheet} {p : Profile} {u : Text} (hd : d.Sound p u) (fuel : Nat) :
    FindsEntities d (readBlock d fuel) := by
  have hs := hd.orderly
  induction fuel with
  | zero =>
    intro item a b floor reach pool media hcut hsize hfloor hreach
    have := hcut.start_eq
    have := hcut.lt
    exact hreach.found (by omega) hsize
  | succ fuel ih =>
    intro item a b floor reach pool media hcut hsize hfloor hreach
    have hstart := hcut.start_eq
    have hlt := hcut.lt
    have hnone : Found d reach b ([], pool) := hreach.found (by omega) hsize
    cases item with
    | declaration start stop semicolon => exact hnone
    | statement start stop semicolon => exact hnone
    | block start stop openAt closeAt =>
      obtain rfl : closeAt + 1 = b := hcut.after_eq
      obtain ⟨hopen, hbraces, -, hclose⟩ := hcut.wellCut
      have hreachstart : reach ≤ start := hreach.le_start hfloor hcut.starts
      have hlead := hreach.le_leading hs hfloor hcut.starts
      have hcuttable := hd.cuttable_leading hreach.drawn floor hcut.starts
      have hheader := hreach.header hs hreachstart hopen
      rw [readBlock_block]
      simp only
      split
      · exact keyframesEntity_found hd hcut hlead hcuttable _ media hheader
      · split
        · obtain ⟨hlaid, hdrawn, hlast, htrails⟩ := blockDeclarations_spec hd hcut hheader
          have hleft := (takeInside_drawn hs (a := openAt + 1) hdrawn (Nat.le_refl closeAt)).mono
            (Nat.le_succ closeAt)
          split
          · have hend : Reach d (closeAt + 1) (closeAt + 1) _ := Reach.of_drawn hleft hsize
            exact ⟨_, hend, .nil (by omega)⟩
          · exact found_block (ruleEntity_at hd hcut hlead.2 hcuttable hlaid hlast htrails
              (declarationsFrom_leaf d _ _ _ _) _ _ _ _) hlead.1 hleft hsize
        · -- the body starts a reach of its own
          have hbody : Reach d (openAt + 1) (openAt + 1) _ :=
            Reach.of_drawn (hheader.mono (Nat.le_succ openAt)) (by omega)
          have hnone : Chain (Cut d.scanned) (openAt + 1) (openAt + 1) ([] : List Item).reverse :=
            .nil (Nat.le_refl _)
          have hinner := items_chain hbraces (Or.inl hclose)
          have hsize' : closeAt ≤ u.size := by
            rw [← hd.size_masked]
            omega
          obtain ⟨last, hlast, hchain⟩ : Found d (openAt + 1) closeAt (mixedFrom d (readBlock d fuel)
              (Text.squeeze (d.text start stop)) _ _ [] (openAt + 1) (openAt + 1) _) :=
            mixedFrom_found hd ih _ _ hinner hsize' hnone (by simp) rfl hbody
          exact ⟨_, hlast.weaken (Nat.le_succ closeAt) hsize,
            hchain.weaken (by omega) (Nat.le_max_right _ _)⟩

/-- The entities of the items of a sheet form a chain. -/
theorem entitiesFrom_found {d : Sheet} {p : Profile} {u : Text} (hd : d.Sound p u)
    {top : List Item} {floor b reach : Nat} {pool : List Comment}
    (htop : Chain (Cut d.scanned) floor b top) (hsize : b ≤ d.scanned.masked.size)
    (hreach : Reach d floor reach pool) : Found d reach b (entitiesFrom d top floor pool) := by
  induction htop generalizing reach pool with
  | nil h => exact hreach.found h hsize
  | cons ha hcut hrest ih =>
    rename_i floor i j b item rest
    have hij := hcut.lt
    have hjb := hrest.le fun _ _ _ h => h.le
    cases hblock : item.isBlock with
    | false =>
      simp only [entitiesFrom, hblock, hcut.after_eq]
      obtain ⟨last, hlast, hchain⟩ := ih hsize (hreach.weaken (by omega) (by omega))
      exact ⟨last, hlast, hchain.weaken (Nat.le_max_right _ _) (Nat.le_refl _)⟩
    | true =>
      simp only [entitiesFrom, hblock, hcut.after_eq]
      obtain ⟨last, hlast, hchain⟩ := readBlock_found hd (d.scanned.source.size + 1) none hcut
        (by omega) (hcut.start_eq ▸ ha) hreach
      obtain ⟨last', hlast', hchain'⟩ := ih hsize hlast
      exact ⟨last', hlast', hchain.append hchain'⟩

/-! ## Sheets in the indented dialect -/

/-- Moving comments keeps everything that places a member. -/
theorem loose_relocateInfo {d : Sheet} (hd : d.isIndented = true) {i : MemberInfo} (h : d.Loose i) :
    MemberOrder.Loose SeparatorPlaced d.source (relocateInfo d.toSource i) := by
  refine ⟨?_, h.2.start, h.2.stop, h.2.spanStop⟩
  rcases h.1 with h | ⟨h, -⟩
  · exact Or.inl h
  · rw [hd] at h
    cases h

mutual

theorem laidOut_relocateMember {d : Sheet} (hd : d.isIndented = true) {m : Member}
    (h : m.LaidOut d.Loose d.source) :
    (relocateMember d.toSource m).LaidOut (MemberOrder.Loose SeparatorPlaced d.source) d.source := by
  cases m with
  | leaf i =>
    obtain ⟨hP, span, unit, hp⟩ := h
    exact ⟨loose_relocateInfo hd hP, span, unit, hp.span_eq, hp.unit_eq, hp.leads, hp.nonempty,
      hp.follows, hp.text⟩
  | group i children =>
    obtain ⟨hP, span, unit, body, hp, hbody, h1, h2, h3⟩ := h
    exact ⟨loose_relocateInfo hd hP, span, unit, body, ⟨hp.span_eq, hp.unit_eq, hp.leads,
      hp.nonempty, hp.follows, hp.text⟩, hbody, h1, h2, laidFrom_relocateMembers hd h3⟩

theorem laidFrom_relocateMembers {d : Sheet} (hd : d.isIndented = true) {hi lo : Nat}
    {ms : List Member} (h : LaidFrom d.Loose d.source hi lo ms) :
    LaidFrom (MemberOrder.Loose SeparatorPlaced d.source) d.source hi lo (relocateMembers d.toSource ms) := by
  cases ms with
  | nil => exact h
  | cons m rest =>
    obtain ⟨h1, h2, h3⟩ := h
    have hinfo : (relocateMember d.toSource m).info.unit = m.info.unit := by
      cases m <;> rfl
    have hstart : (relocateMember d.toSource m).unitStart = m.unitStart := by
      simp only [Member.unitStart, hinfo]
    have hstop : (relocateMember d.toSource m).unitStop = m.unitStop := by
      simp only [Member.unitStop, hinfo]
    refine ⟨hstart ▸ h1, laidOut_relocateMember hd h2, ?_⟩
    rw [hstop]
    exact laidFrom_relocateMembers hd h3

end

theorem laidOut_relocateEntity {d : Sheet} (hd : d.isIndented = true) {e : Entity} {a b : Nat}
    (h : e.LaidOut d.Loose d.source a b) :
    (relocateEntity d.toSource e).LaidOut (MemberOrder.Loose SeparatorPlaced d.source) d.source a b := by
  obtain ⟨body, h1, h2, h3, h4⟩ := h.members
  exact ⟨h.nonempty, h.cuttable, h.text, h.span_eq, body, h1, h2, h3,
    laidFrom_relocateMembers hd h4⟩

/-! ## Reading -/

theorem sheetOf_source (fileType : FileType) (t : Text) : (sheetOf fileType t).source = t := by
  unfold sheetOf
  split <;> rfl

/-- The entities of a style sheet follow each other, each with its members inside. -/
theorem read_chain (fileType : FileType) (t : Text) :
    Chain (Entity.LaidOut (MemberOrder.Loose SeparatorPlaced t) t) 0 t.size (read fileType t).entities := by
  obtain ⟨p, u, hd⟩ := sheetOf_sound fileType t
  have hsource := sheetOf_source fileType t
  let d := sheetOf fileType t
  have htop : Chain (Cut d.scanned) 0 d.scanned.masked.size
      (items d.scanned 0 d.scanned.masked.size).1 :=
    items_chain (Nat.zero_le _) (Or.inr rfl)
  have hall : Reach d 0 0 d.scanned.comments := Reach.of_drawn (Drawn.refl 0 _) (Nat.zero_le _)
  obtain ⟨last, hlast, hchain⟩ := entitiesFrom_found hd htop (Nat.le_refl _) hall
  have hinside : d.toSource last ≤ t.size := by
    have := hd.inside (hd.size_masked ▸ hlast.inside)
    rwa [hsource] at this
  let es := (entitiesFrom d (items d.scanned 0 d.scanned.masked.size).1 0 d.scanned.comments).1
  show Chain _ 0 t.size (if d.isIndented then es.map (relocateEntity d.toSource) else es)
  split
  · rename_i hindented
    refine (hchain.map hd.mono fun e i j he => ?_).weaken (Nat.zero_le _) hinside
    have := laidOut_relocateEntity hindented he.2.1
    rwa [hsource] at this
  · rename_i hplain
    rw [← List.map_id es]
    refine (hchain.map hd.mono fun e i j he => ?_).weaken (Nat.zero_le _) hinside
    have : e.LaidOut (MemberOrder.Loose SeparatorPlaced d.source) d.source _ _ :=
      he.2.1.imp fun _ h => h.imp_left fun hsep => hsep.elim Or.inl And.right
    rwa [hsource] at this

end MemberOrder.Style
