/-
  Line endings that survive.

  In a text whose line feeds are all `Paired` with a carriage return, what stands between two offsets
  may be replaced by whatever `Fits` there: by a text that parts no line break inside it nor at its
  ends. A range of the source fits where it stands. A unit, a separator and an entity start and end
  between line breaks, so what fits in the place of one of them fits anywhere between line breaks
  (`Fits.whole`). By induction on the nesting of members a dealt block fits in the place of the block
  (`DealsBlock.fits`), so a run that lays out nothing leaves every line feed paired
  (`processWith_keeps_paired`). An option that asks for a layout joins the lines of a body by line
  feeds alone, also where the line ending is to be found out (`processWith_parts_breaks`).
-/
import MemberOrder.Proofs.Layout.Staying

namespace MemberOrder.Layout

/-! ## Paired line feeds -/

/-- Every line feed comes right after a carriage return. -/
def Paired (cs : List Char) : Prop := ∀ i, cs[i]? = some '\n' → ∃ j, i = j + 1 ∧ cs[j]? = some '\r'

/-- No line feed stands alone in a text; `afterReturn` says whether a carriage return is in front of it. -/
def NoneLone (afterReturn : Bool) (cs : List Char) : Prop := (countBreaks afterReturn cs).2 = 0

/-- Whether a carriage return is the last character before what follows a text. -/
def endsInReturn (afterReturn : Bool) (cs : List Char) : Bool :=
  (cs.getLast?.map (· == '\r')).getD afterReturn

theorem endsInReturn_cons (r : Bool) (c : Char) (cs : List Char) :
    endsInReturn r (c :: cs) = endsInReturn (c == '\r') cs := by
  cases cs with
  | nil => rfl
  | cons d rest =>
    simp only [endsInReturn, List.getLast?_cons_cons]
    rw [List.getLast?_eq_some_getLast (List.cons_ne_nil d rest)]
    rfl

theorem noneLone_cons {r : Bool} {c : Char} {cs : List Char} :
    NoneLone r (c :: cs) ↔ (c = '\n' → r = true) ∧ NoneLone (c == '\r') cs := by
  unfold NoneLone
  rw [countBreaks]
  by_cases hc : c = '\n'
  · cases r <;> simp [hc]
  · simp [hc]

theorem noneLone_append {r : Bool} {cs ds : List Char} :
    NoneLone r (cs ++ ds) ↔ NoneLone r cs ∧ NoneLone (endsInReturn r cs) ds := by
  induction cs generalizing r with
  | nil => exact ⟨fun h => ⟨rfl, h⟩, And.right⟩
  | cons c cs ih =>
    rw [List.cons_append, noneLone_cons, noneLone_cons, ih, endsInReturn_cons, and_assoc]

/-- The count of the lone line feeds is right. -/
theorem noneLone_iff {r : Bool} {cs : List Char} :
    NoneLone r cs ↔
      ∀ i, cs[i]? = some '\n' → i = 0 ∧ r = true ∨ ∃ j, i = j + 1 ∧ cs[j]? = some '\r' := by
  induction cs generalizing r with
  | nil => exact ⟨fun _ i h => absurd h (by simp), fun _ => rfl⟩
  | cons c cs ih =>
    rw [noneLone_cons, ih]
    constructor
    · rintro ⟨hfirst, hrest⟩ i hi
      cases i with
      | zero => exact Or.inl ⟨rfl, hfirst (Option.some.inj hi)⟩
      | succ i =>
        rcases hrest i hi with ⟨rfl, hc⟩ | ⟨j, rfl, hj⟩
        · exact Or.inr ⟨0, rfl, congrArg some (eq_of_beq hc)⟩
        · exact Or.inr ⟨j + 1, rfl, hj⟩
    · intro h
      refine ⟨fun hc => ?_, fun i hi => ?_⟩
      · rcases h 0 (congrArg some hc) with ⟨-, hr⟩ | ⟨j, hj, -⟩
        · exact hr
        · cases hj
      · rcases h (i + 1) hi with ⟨hzero, -⟩ | ⟨j, hj, hc⟩
        · cases hzero
        · obtain rfl : i = j := Nat.succ.inj hj
          cases i with
          | zero => exact Or.inl ⟨rfl, beq_iff_eq.mpr (Option.some.inj hc)⟩
          | succ j => exact Or.inr ⟨j, rfl, hc⟩

/-- Line feeds are paired when the layout counts none that stands alone. -/
theorem paired_iff {cs : List Char} : Paired cs ↔ NoneLone false cs := by
  simp [Paired, noneLone_iff]

instance (cs : List Char) : Decidable (Paired cs) :=
  decidable_of_iff ((countBreaks false cs).2 = 0) paired_iff.symm

example : Paired "a\r\nb\r\n".toList ∧ ¬Paired "a\r\nb\n".toList := by decide +kernel

/-! ## What fits between two offsets -/

/-- A text may stand between two offsets of a source: where the source has a line feed right after one
of them, the text leaves the carriage return in front of it. -/
def Fits (t : Text) (a b : Nat) (cs : List Char) : Prop :=
  ∀ r, (t[a]? = some '\n' → r = true) → NoneLone r cs ∧ (t[b]? = some '\n' → endsInReturn r cs = true)

/-- A text that may stand wherever no line break is cut. -/
def Whole (cs : List Char) : Prop := ∀ r, NoneLone r cs

theorem endsInReturn_append (r : Bool) (cs ds : List Char) :
    endsInReturn r (cs ++ ds) = endsInReturn (endsInReturn r cs) ds := by
  unfold endsInReturn
  rw [List.getLast?_append]
  cases ds.getLast? <;> rfl

section Fits

variable {t : Text} {a b c : Nat} {cs ds : List Char}

theorem Paired.at (h : Paired t.toList) (hfeed : t[a]? = some '\n') :
    ∃ j, a = j + 1 ∧ t[j]? = some '\r' := by
  obtain ⟨j, hj, hreturn⟩ := h a (by rw [Array.getElem?_toList, hfeed])
  exact ⟨j, hj, by rw [← Array.getElem?_toList, hreturn]⟩

/-- Where no line break is cut no paired line feed stands. -/
theorem Paired.not_feed (h : Paired t.toList) (ha : Cuttable t a) : t[a]? ≠ some '\n' := by
  intro hfeed
  obtain ⟨j, hj, hreturn⟩ := h.at hfeed
  exact ha ⟨j, hj, hreturn, hfeed⟩

theorem Fits.append (h : Fits t a b cs) (h' : Fits t b c ds) : Fits t a c (cs ++ ds) := by
  intro r hr
  obtain ⟨hcs, hb⟩ := h r hr
  obtain ⟨hds, hc⟩ := h' (endsInReturn r cs) hb
  rw [endsInReturn_append]
  exact ⟨noneLone_append.mpr ⟨hcs, hds⟩, hc⟩

/-- What the source has between two offsets fits between them. -/
theorem Paired.fits_slice (h : Paired t.toList) (hab : a ≤ b) : Fits t a b (t.slice a b) := by
  intro r hr
  constructor
  · refine noneLone_iff.mpr fun i hi => ?_
    rw [Text.getElem?_slice] at hi
    split at hi
    · rename_i hlt
      cases i with
      | zero => exact Or.inl ⟨rfl, hr hi⟩
      | succ i =>
        obtain ⟨j, hj, hreturn⟩ := h.at hi
        obtain rfl : a + i = j := Nat.succ.inj hj
        exact Or.inr ⟨i, rfl, by rw [Text.getElem?_slice, if_pos (by omega), hreturn]⟩
    · cases hi
  · intro hfeed
    rcases Nat.eq_or_lt_of_le hab with rfl | hlt
    · rw [Text.slice_self t (Nat.le_refl a)]
      exact hr hfeed
    · obtain ⟨j, rfl, hreturn⟩ := h.at hfeed
      have hsize : j + 1 ≤ t.size := Nat.le_of_lt (Array.getElem?_eq_some_iff.mp hfeed).1
      have hlast : (t.slice a (j + 1)).getLast? = some '\r' := by
        rw [List.getLast?_eq_getElem?, Text.length_slice t hsize, Text.getElem?_slice,
          if_pos (by omega), show a + (j + 1 - a - 1) = j by omega, hreturn]
      rw [endsInReturn, hlast]
      rfl

/-- What fits from the start of a line break on, or from anywhere else outside of one, parts none
anywhere. -/
theorem Fits.whole (h : Fits t a b cs) (ha : t[a]? ≠ some '\n') : Whole cs := fun r =>
  (h r fun hfeed => absurd hfeed ha).1

theorem Whole.fits (h : Whole cs) (a : Nat) (hb : t[b]? ≠ some '\n') : Fits t a b cs := fun r _ =>
  ⟨h r, fun hfeed => absurd hfeed hb⟩

theorem Separates.whole {s : String} (h : Separates s) : Whole s.toList := by
  intro r
  rcases h with rfl | rfl | rfl <;> rfl

end Fits

/-! ## Dealt blocks -/

section Deals

variable {Q : Text → MemberInfo → Prop} {t : Text}

/-- No line feed stands where a separator is cut out. -/
theorem not_feed_after_separator (hpaired : Paired t.toList) {i : MemberInfo} {place : Nat}
    (hsite : BareSite i place) (hold : Separates i.separator)
    (hcut : t.slice place (place + i.separator.length) = i.separator.toList) (h : Severable t i) :
    t[place + i.separator.length]? ≠ some '\n' := by
  rcases Classical.em (i.separator = "") with hnone | hsome
  · obtain ⟨span, hspan, rfl⟩ := hsite hnone
    rw [hnone]
    exact hpaired.not_feed (h.spanStop span hspan)
  · obtain ⟨c, hc, hsep⟩ : ∃ c, c ≠ '\r' ∧ i.separator = String.singleton c := by
      rcases hold.resolve_left hsome with hsep | hsep
      · exact ⟨',', by decide, hsep⟩
      · exact ⟨';', by decide, hsep⟩
    rw [hsep, String.length_singleton] at hcut ⊢
    intro hfeed
    -- a carriage return would stand where the separator stands
    obtain ⟨j, hj, hreturn⟩ := hpaired.at hfeed
    obtain rfl : place = j := Nat.succ.inj hj
    have hchar := congrArg List.head? hcut
    rw [Text.slice_one hreturn, String.toList_singleton] at hchar
    exact hc (Option.some.inj hchar).symm

/-- A unit with another separator may stand wherever no line break is cut. -/
theorem DealsUnit.whole (hpaired : Paired t.toList) {i : MemberInfo} {span unit : Span}
    {inner ps : List Piece} {range : Nat × Nat} (h : DealsUnit t BareSite i inner ps range)
    (hplaced : Placed t i span unit) (hi : Severable t i)
    (hinner : Fits t span.start span.stop (written t inner)) : Whole (written t ps) := by
  cases h with
  | @deal span' unit' place new hspan hunit hsite hplace hstop hcut hold hnew =>
    obtain rfl : span = span' := Option.some.inj (hplaced.span_eq.symm.trans hspan)
    obtain rfl : unit = unit' := Option.some.inj (hplaced.unit_eq.symm.trans hunit)
    have hafter := not_feed_after_separator hpaired hsite hold hcut hi
    have hfits := ((hpaired.fits_slice hplaced.leads).append hinner).append
      ((hpaired.fits_slice hplace).append ((hnew.whole.fits place hafter).append
        (hpaired.fits_slice hstop)))
    refine Fits.whole (a := unit.start) (b := unit.stop) ?_ (hpaired.not_feed (hi.start unit hunit))
    simpa [written, Piece.text] using hfits

/-- Units that may stand wherever no line break is cut fit between the gaps of laid out members. -/
theorem fits_fill (hpaired : Paired t.toList) {lo hi : Nat} {ms : List Member}
    {units : List (List Piece)} (hlaid : LaidFrom (Loose Q t) t hi lo ms)
    (hlength : units.length = ms.length) (h : ∀ ps ∈ units, Whole (written t ps)) :
    Fits t lo hi (written t (fill (gapPieces hi lo ms) units)) := by
  induction ms generalizing lo units with
  | nil =>
    obtain rfl : units = [] := List.length_eq_zero_iff.mp hlength
    simpa [gapPieces, fill, written, Piece.text] using hpaired.fits_slice hlaid
  | cons m rest ih =>
    obtain ⟨h1, h2, h3⟩ := hlaid
    cases units with
    | nil => cases hlength
    | cons unit units =>
      obtain ⟨hloose, span, u, hplaced⟩ := h2.placed
      have hstop := hpaired.not_feed (hplaced.cuttable hloose.2).2
      have hunit := (h unit List.mem_cons_self).fits m.unitStart hstop
      have hrest := ih h3 (Nat.succ.inj hlength) fun ps hps => h ps (List.mem_cons_of_mem unit hps)
      have hfits := (hpaired.fits_slice h1).append (hunit.append hrest)
      simpa [gapPieces, fill, written, Piece.text] using hfits

mutual

theorem DealsMember.fits (hpaired : Paired t.toList) {m m' : Member} {inner : List Piece}
    {cut : List (Nat × Nat)} (h : DealsMember t BareSite m m' inner cut)
    (hlaid : m.LaidOut (Loose Q t) t) :
    ∃ span unit, Placed t m.info span unit ∧ Fits t span.start span.stop (written t inner) := by
  match h with
  | .leaf hspan =>
    rename_i i span
    obtain ⟨-, span', unit, hp⟩ := hlaid
    obtain rfl : span = span' := Option.some.inj (hspan.symm.trans hp.span_eq)
    refine ⟨span, unit, hp, ?_⟩
    simpa [written, Piece.text] using hpaired.fits_slice (Nat.le_of_lt hp.nonempty)
  | .group hspan hbody h =>
    rename_i i span body children children'
    obtain ⟨unit, hp, h1, h2, h3⟩ := hlaid.children hspan hbody
    exact ⟨span, unit, hp, h.fits hpaired h1 h2 (Nat.le_of_lt hp.nonempty) h3⟩

/-- A dealt block fits in the place of the block. -/
theorem DealsBlock.fits (hpaired : Paired t.toList) {span body : Span} {ms ms' : List Member}
    {ps : List Piece} {cut : List (Nat × Nat)} (h : DealsBlock t BareSite span body ms ms' ps cut)
    (hstart : span.start ≤ body.start) (hstop : body.stop ≤ span.stop)
    (hle : span.start ≤ span.stop) (hlaid : LaidFrom (Loose Q t) t body.stop body.start ms) :
    Fits t span.start span.stop (written t ps) := by
  match h with
  | .kept _ _ _ => simpa [written, Piece.text] using hpaired.fits_slice hle
  | .dealt hne hperm hunits =>
    rename_i mid units
    have hwhole := hunits.whole hpaired fun m hm => (hlaid.of_mem (hperm.mem_iff.mpr hm)).1
    have hlength : units.length = ms.length := hunits.length_eq.trans hperm.length_eq.symm
    have hfits := ((hpaired.fits_slice hstart).append (fits_fill hpaired hlaid hlength hwhole)).append
      (hpaired.fits_slice hstop)
    simpa [written, Piece.text] using hfits

theorem DealsUnits.whole (hpaired : Paired t.toList) {ms ms' : List Member}
    {units : List (List Piece)} {cut : List (Nat × Nat)}
    (h : DealsUnits t BareSite ms ms' units cut) (hlaid : ∀ m ∈ ms, m.LaidOut (Loose Q t) t) :
    ∀ ps ∈ units, Whole (written t ps) := by
  match h with
  | .nil => exact fun ps hps => absurd hps List.not_mem_nil
  | .cons hm hunit hrest =>
    rename_i m m' rest rest' inner unit units range cut cuts
    obtain ⟨span, u, hp, hinner⟩ := hm.fits hpaired (hlaid m List.mem_cons_self)
    have hloose := (hlaid m List.mem_cons_self).placed.1
    have hrest := hrest.whole hpaired fun m hm => hlaid m (List.mem_cons_of_mem _ hm)
    intro ps hps
    rcases List.mem_cons.mp hps with rfl | hps
    · exact hunit.whole hpaired hp hloose.2 hinner
    · exact hrest ps hps

end

end Deals

end MemberOrder.Layout

namespace MemberOrder

open Layout

/-! ## Runs -/

section Runs

variable {o : Options} {t : Text}

/-- A sorted entity may stand wherever no line break is cut. -/
theorem rendering_whole (hyaml : o.fileType.language ≠ .yaml) (hlayout : o.asksForLayout = false)
    (hending : o.lineEnding = .auto) (hpaired : Paired t.toList) {e : Entity} {i j : Nat}
    (hlaid : e.LaidOut (Loose SeparatorStands t) t i j) (hj : j ≤ t.size) :
    Whole (rendering o (sortedTwin o e)).toList := by
  obtain ⟨hwrite, span, body, cut, hspan, hbody, hdeals, -⟩ := writeBlock_deals (sited_stands t)
    (hlaid.imp fun _ => And.left) hj hlayout hending (sortedTwin_rearranged o e)
  rw [← sortedTwin_eq] at hwrite hdeals
  obtain ⟨rfl, rfl⟩ := hlaid.bounds_eq hspan
  obtain ⟨hstart, hstop, hmembers⟩ := hlaid.laidFrom hbody
  rw [rendering, writeEntity_eq_writeBlock hyaml, hwrite]
  simp only [String.toList_ofList]
  exact (hdeals.fits hpaired hstart hstop hlaid.le hmembers).whole (hpaired.not_feed hlaid.cuttable.1)

/-- Entities may be written over by texts that part no line break. -/
theorem fits_overwrite {Q : Text → MemberInfo → Prop} (hpaired : Paired t.toList) {es : List Entity}
    {a b : Nat} (h : Chain (Entity.LaidOut (Loose Q t) t) a b es) (hb : b = t.size)
    {render : Entity → String} (hrender : ∀ e ∈ es, Whole (render e).toList) :
    Fits t a t.size (overwrite t.toList a ((located es).map fun x => (x.2, render x.1))) := by
  induction h with
  | nil h =>
    rename_i a b
    have hrest : t.toList.drop a = t.slice a t.size := by
      rw [Text.slice_eq_take_drop, List.take_of_length_le (by simp)]
    simpa [located, overwrite, hrest] using hpaired.fits_slice (hb ▸ h)
  | cons ha he hrest ih =>
    rename_i a i j b e rest
    obtain ⟨span, hspan, rfl, rfl⟩ := he.span_eq
    have hentity := (hrender e List.mem_cons_self).fits span.start (hpaired.not_feed he.cuttable.2)
    have hrest := ih hb fun x hx => hrender x (List.mem_cons_of_mem e hx)
    have hfits := ((hpaired.fits_slice ha).append hentity).append hrest
    simpa [located, hspan, overwrite, Text.slice_eq_take_drop] using hfits

end Runs

/-- In a run over a source whose line feeds are all paired the line feeds of the output are paired too,
while the line ending is found out and no option asks for a layout, or where no names change at all. -/
theorem processWith_keeps_paired (o : Options) (hyaml : o.fileType.language ≠ .yaml)
    (hending : o.lineEnding = .auto) (source out : String) (hpaired : Paired source.toList)
    (hlayout : o.asksForLayout = false ∨
      hasChanges (readSource o.fileType (Text.ofString source)).entities
        (sortEntities o (readSource o.fileType (Text.ofString source)).entities).1 = false)
    (h : (processWith o source).processedText = some out) : Paired out.toList := by
  rcases processedText_cases h with ⟨hchanges, -⟩ | ⟨-, rfl⟩
  · have hlayout : o.asksForLayout = false := hlayout.resolve_right (by simp [hchanges])
    have hchain := readSource_chain_loose hyaml (Text.ofString source)
    have hpaired : Paired (Text.ofString source).toList := hpaired
    rw [(processWith_overwrites o hyaml source hchanges).1, Option.some.injEq] at h
    rw [← h, String.toList_ofList]
    have hwhole : ∀ e ∈ (readSource o.fileType (Text.ofString source)).entities,
        Whole (rendering o (sortedTwin o
          (lastNamesake (readSource o.fileType (Text.ofString source)).entities e))).toList := by
      intro e he
      obtain ⟨i, j, hlaid, -, hj⟩ := hchain.of_mem (fun _ _ _ he => he.le) (lastNamesake_mem he)
      exact rendering_whole hyaml hlayout hending hpaired hlaid hj
    refine paired_iff.mpr (fits_overwrite hpaired hchain rfl hwhole false fun hfeed => ?_).1
    obtain ⟨j, hj, -⟩ := hpaired.at hfeed
    cases hj
  · exact hpaired

/-- An interface whose lines end with both characters. -/
def pairedLines : String := "interface A \x7b\r\n  b: 1;\r\n  a: 2;\r\n\x7d\r\n"

theorem processWith_keeps_paired_lines :
    (processWith {} pairedLines).processedText =
      some "interface A \x7b\r\n  a: 2;\r\n  b: 1;\r\n\x7d\r\n" ∧
    Paired "interface A \x7b\r\n  a: 2;\r\n  b: 1;\r\n\x7d\r\n".toList := by
  have h : (processWith {} pairedLines).processedText =
      some "interface A \x7b\r\n  a: 2;\r\n  b: 1;\r\n\x7d\r\n" := by
    decide +kernel
  exact ⟨h, processWith_keeps_paired {} (by decide) rfl pairedLines _ (by decide +kernel) (.inl rfl) h⟩

/-- With narrow gaps asked for, the lines of the interface come out with line feeds alone, although the
line ending that is found in it is that of both characters. -/
theorem processWith_parts_breaks :
    Paired pairedLines.toList ∧ narrowGaps.lineEnding = .auto ∧
    lineEndingFor narrowGaps pairedLines.toList = ['\r', '\n'] ∧
    (processWith narrowGaps pairedLines).processedText =
      some "interface A \x7b\n  a: 2;\n  b: 1;\n\x7d\r\n" ∧
    ¬ Paired "interface A \x7b\n  a: 2;\n  b: 1;\n\x7d\r\n".toList := by
  decide +kernel

end MemberOrder
