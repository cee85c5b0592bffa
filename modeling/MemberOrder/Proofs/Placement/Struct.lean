/-
  The fields and entities of a Go source have their places.

  The argument is that for scripts. Two things differ. Fields are cut at line feeds and semicolons
  (`segments_chain`), and a comment between a field and its semicolon is not handed out, so all the
  comments that a field has come after its semicolon (`SeparatorAhead`). Declarations are found
  in several passes and may lie inside each other; one that starts inside an entity is skipped
  (`entitiesFrom_chain`).
-/
import MemberOrder.Proofs.Order.Sorting
import MemberOrder.Proofs.Pattern.Matches
import MemberOrder.Proofs.Placement.Basic
import MemberOrder.Proofs.Source.Nesting
import MemberOrder.Struct.Document

namespace MemberOrder.Struct

open Attachment

/-! ## Segments -/

/-- A bracket. Inside of brackets a line break does not end a field. -/
def isBracket (c : Char) : Bool := c == '(' || c == '[' || c == '{' || c == ')' || c == ']' || c == '}'

/-- No bracket stands between two offsets. -/
def Open (s : Scanned) (start stop : Nat) : Prop :=
  ∀ y, start ≤ y → y < stop → s.masked.testAt y isBracket = false

/-- No line ends between two offsets. -/
def OneLine (s : Scanned) (start stop : Nat) : Prop :=
  ∀ y, start ≤ y → y < stop → s.masked[y]? ≠ some '\n'

/-- A field goes from `a` to `b`, with its semicolon. -/
structure Cut (s : Scanned) (g : Segment) (a b : Nat) : Prop where
  start_eq : g.start = a
  after_eq : g.after = b
  nonempty : g.start < g.stop
  code : s.masked.testAt g.start Text.isSpace = false
  lastCode : s.masked.testAt (g.stop - 1) Text.isSpace = false
  semicolon : ∀ place, g.semicolon = some place → g.stop ≤ place ∧ s.masked[place]? = some ';' ∧
    ∀ x, g.stop ≤ x → x < place → s.masked.testAt x Text.isSpace = true
  oneLine : ∀ x, x ≤ g.stop → Open s g.start x → OneLine s g.start x

theorem Cut.stop_le_after {s : Scanned} {g : Segment} {a b : Nat} (h : Cut s g a b) :
    g.stop ≤ g.after := by
  unfold Segment.after
  cases hg : g.semicolon with
  | none => exact Nat.le_refl _
  | some place => exact Nat.le_succ_of_le (h.semicolon place hg).1

theorem Cut.le {s : Scanned} {g : Segment} {a b : Nat} (h : Cut s g a b) : a ≤ b := by
  have := h.stop_le_after
  have := h.nonempty
  have := h.start_eq
  have := h.after_eq
  omega

theorem Cut.cuttable_after {t : Text} {g : Segment} {a b : Nat} (h : Cut (Scanned.scan .go t) g a b) :
    Cuttable t g.after := by
  unfold Segment.after
  cases hg : g.semicolon with
  | none => exact Scanned.cuttable_after_code h.lastCode
  | some place =>
    have hsource := Scanned.source_of_masked (h.semicolon place hg).2.1 (by decide) (by decide)
    exact MemberOrder.cuttable_after hsource (by decide)

/-- A field has been read from `start` up to `i`: before its first bracket it is on one line, and up to
there no bracket is open. -/
structure Cutting.Begun (s : Scanned) (start i : Nat) (c : Cutting) : Prop where
  code : s.masked.testAt start Text.isSpace = false
  oneLine : ∀ x, x ≤ i → Open s start x → OneLine s start x
  depth : Open s start i → c.depth = 0

/-- A body has been cut from `lo` up to `i`: the fields found form a chain that ends before the
current one starts, and the current one starts with code. Between fields no bracket is open. -/
structure Cutting.Reaches (s : Scanned) (lo i : Nat) (c : Cutting) : Prop where
  chain : ∃ b, Chain (Cut s) lo b c.segments.reverse ∧ b ≤ i ∧ ∀ st, c.start = some st → b ≤ st
  begun : ∀ st, c.start = some st → st < i ∧ c.Begun s st i
  outside : c.start = none → c.depth = 0

/-- Reading a field on: a character that is no bracket closes nothing, and a line feed ends the field where no
bracket is open. -/
theorem Cutting.Begun.next {s : Scanned} {start i : Nat} {c c' : Cutting} {ch : Char}
    (h : c.Begun s start i) (hi : start ≤ i) (hch : s.masked[i]? = some ch)
    (hread : isBracket ch = false → c.depth = 0 → c'.depth = 0 ∧ ch ≠ '\n') : c'.Begun s start (i + 1) := by
  have hread' (hopen : Open s start (i + 1)) : Open s start i ∧ c'.depth = 0 ∧ ch ≠ '\n' := by
    have hbracket := hopen i hi (Nat.lt_succ_self i)
    rw [Text.testAt_of_getElem? hch] at hbracket
    have hopen : Open s start i := fun y hy hlt => hopen y hy (Nat.lt_succ_of_lt hlt)
    exact ⟨hopen, hread hbracket (h.depth hopen)⟩
  refine ⟨h.code, fun x hx hopen y hy hlt => ?_, fun hopen => (hread' hopen).2.1⟩
  rcases Nat.eq_or_lt_of_le hx with rfl | hx
  · rcases Nat.eq_or_lt_of_le (Nat.le_of_lt_succ hlt) with rfl | hlt
    · rw [hch, ne_eq, Option.some.injEq]
      exact (hread' hopen).2.2
    · exact h.oneLine i (Nat.le_refl i) (hread' hopen).1 y hy hlt
  · exact h.oneLine x (Nat.le_of_lt_succ hx) hopen y hy hlt

/-- A field that has been begun is cut off before the white space in front of what ends it. -/
theorem Cutting.Begun.cut {s : Scanned} {start i : Nat} {c : Cutting} {ch : Char} (h : c.Begun s start i)
    (hch : s.masked[i]? = some ch) (hlt : start < s.prevCode i start) :
    let g : Segment :=
      { start, stop := s.prevCode i start, semicolon := if ch == ';' then some i else none }
    Cut s g start g.after ∧ g.after ≤ i + 1 := by
  intro g
  have hle : s.prevCode i start ≤ i := Text.prevCode_le _ _ _
  have hsemi : ∀ place, g.semicolon = some place → place = i ∧ ch = ';' := by
    intro place heq
    simp only [g, Option.ite_none_right_eq_some, beq_iff_eq, Option.some.injEq] at heq
    exact ⟨heq.2.symm, heq.1⟩
  refine ⟨⟨rfl, rfl, hlt, h.code, Text.code_before_prevCode hlt, fun place heq => ?_,
    fun x hx => h.oneLine x (Nat.le_trans hx hle)⟩, ?_⟩
  · obtain ⟨rfl, rfl⟩ := hsemi place heq
    exact ⟨hle, hch, fun x hx hx' => Text.space_after_prevCode hx hx'⟩
  · unfold Segment.after
    split
    · rename_i place heq
      exact Nat.succ_le_succ (Nat.le_of_eq (hsemi place heq).1)
    · exact Nat.le_succ_of_le hle

theorem Cutting.read_reaches {s : Scanned} {lo i b start : Nat} {c : Cutting} {ch : Char}
    (hc : c.start = some start) (h : Chain (Cut s) lo b c.segments.reverse) (hb : b ≤ start)
    (hbegun : c.Begun s start i) (hi : start ≤ i) (hch : s.masked[i]? = some ch) :
    (c.read s start i ch).Reaches s lo (i + 1) := by
  have hstay : ∀ c' : Cutting, c'.segments = c.segments → c'.start = c.start →
      (isBracket ch = false → c.depth = 0 → c'.depth = 0 ∧ ch ≠ '\n') → c'.Reaches s lo (i + 1) := by
    intro c' hseg hstart hread
    rw [hc] at hstart
    refine ⟨⟨b, by rw [hseg]; exact h, by omega, fun st hst => ?_⟩, fun st hst => ?_, fun hnone => ?_⟩
    · obtain rfl := Option.some.inj (hstart.symm.trans hst)
      exact hb
    · obtain rfl := Option.some.inj (hstart.symm.trans hst)
      exact ⟨Nat.lt_succ_of_le hi, hbegun.next hi hch hread⟩
    · cases hstart.symm.trans hnone
  unfold Cutting.read
  split
  · rename_i hopening
    exact hstay _ rfl rfl fun hno => absurd hno (by grind [isBracket])
  · split
    · rename_i hclosing
      exact hstay _ rfl rfl fun hno => absurd hno (by grind [isBracket])
    · split
      · rename_i hend
        rw [Bool.and_eq_true, beq_iff_eq] at hend
        dsimp only
        split
        · rename_i hlt
          obtain ⟨hcut, hafter⟩ := hbegun.cut hch hlt
          refine ⟨⟨_, ?_, hafter, by simp⟩, by simp, fun _ => hend.1⟩
          rw [List.singleton_append, List.reverse_cons]
          exact h.snoc hb hcut
        · exact ⟨⟨b, h, by omega, by simp⟩, by simp, fun _ => hend.1⟩
      · rename_i hgoes
        refine hstay _ rfl rfl fun _ hdepth => ⟨hdepth, fun hfeed => hgoes ?_⟩
        rw [hdepth, hfeed]
        rfl

theorem Cutting.step_reaches {s : Scanned} {lo i : Nat} {c : Cutting} (h : c.Reaches s lo i) :
    (c.step s i).Reaches s lo (i + 1) := by
  obtain ⟨⟨b, hchain, hbi, hbst⟩, hbegun, houtside⟩ := h
  unfold Cutting.step
  split
  · rename_i hnone
    refine ⟨⟨b, hchain, by omega, hbst⟩, fun st hst => ?_, houtside⟩
    obtain ⟨hlt, hst⟩ := hbegun st hst
    refine ⟨by omega, hst.code, fun x hx hopen y hy hyx => ?_, fun hopen => hst.depth fun y hy hyi => hopen y hy (by omega)⟩
    rcases Nat.eq_or_lt_of_le (show y ≤ i by omega) with rfl | hyi
    · rw [hnone]
      nofun
    · exact hst.oneLine (y + 1) hyi (fun z hz hzy => hopen z hz (by omega)) y hy (Nat.lt_succ_self y)
  · rename_i ch hch
    split
    · rename_i start hstart
      obtain ⟨h1, h2⟩ := hbegun start hstart
      exact read_reaches hstart hchain (hbst start hstart) h2 (Nat.le_of_lt h1) hch
    · rename_i hnone
      split
      · exact ⟨⟨b, hchain, by omega, hbst⟩, fun st hst => (nomatch hnone.symm.trans hst), houtside⟩
      · rename_i hcond
        simp only [Bool.or_eq_true, beq_iff_eq, not_or, Bool.not_eq_true] at hcond
        refine read_reaches rfl hchain hbi ⟨?_, fun x hx _ y hy hlt => absurd hlt (by omega), fun _ => houtside hnone⟩
          (Nat.le_refl i) hch
        rw [Text.testAt_of_getElem? hch]
        exact hcond.1

theorem Cutting.Reaches.run {s : Scanned} {lo i : Nat} {c : Cutting} (h : c.Reaches s lo i)
    (n : Nat) : ((List.range' i n).foldl (Cutting.step s) c).Reaches s lo (i + n) := by
  induction n generalizing i c with
  | zero => exact h
  | succ n ih =>
    rw [List.range'_succ, List.foldl_cons, show i + (n + 1) = i + 1 + n by omega]
    exact ih (step_reaches h)

/-- The fields of a body follow each other inside it. -/
theorem segments_chain (s : Scanned) {lo hi : Nat} (h : lo ≤ hi) :
    Chain (Cut s) lo hi (segments s lo hi) := by
  have hstart : ({} : Cutting).Reaches s lo lo :=
    ⟨⟨lo, .nil (Nat.le_refl lo), Nat.le_refl lo, by simp⟩, by simp, fun _ => rfl⟩
  obtain ⟨⟨b, hchain, hb, hbst⟩, hbegun, -⟩ := hstart.run (hi - lo)
  rw [Nat.add_sub_cancel' h] at hb hbegun
  unfold segments
  dsimp only
  split
  · rw [List.append_nil]
    exact hchain.weaken (Nat.le_refl lo) hb
  · rename_i first hfirst
    obtain ⟨hlt, hfield⟩ := hbegun first hfirst
    have h1 : first < s.prevCode hi first := Text.lt_prevCode_of_code hfield.code hlt
    have h2 : s.prevCode hi first ≤ hi := Text.prevCode_le _ _ _
    rw [if_pos h1]
    refine (hchain.snoc (hbst first hfirst) ?_).weaken (Nat.le_refl lo) h2
    exact ⟨rfl, rfl, h1, hfield.code, Text.code_before_prevCode h1, by simp,
      fun x hx => hfield.oneLine x (Nat.le_trans hx h2)⟩

/-! ## Fields -/

theorem endsIn_structOpening : Pattern.EndsIn (· == '{') structOpening :=
  Pattern.endsIn_seq _ (Pattern.endsIn_seq _ (Pattern.endsIn_one _))

/-- A struct type that ends a field lies inside it. -/
theorem blockAt?_spec {s : Scanned} {typeAt stop brace close : Nat}
    (h : blockAt? s typeAt stop = some (brace, close)) :
    typeAt ≤ brace ∧ brace < close ∧ close + 1 = stop ∧
      s.masked.testAt close Text.isSpace = false := by
  simp only [blockAt?, Option.bind_eq_bind, Option.bind_eq_some_iff] at h
  obtain ⟨m, hm, close', hclose, heq⟩ := h
  obtain ⟨hstart, hmatch⟩ := Pattern.matchAt?_matches hm
  obtain ⟨hlt, -⟩ := Pattern.endsIn_seq _ endsIn_structOpening _ _ _ _ _ hmatch
  have hcl := (Brackets.close?_some hclose).1
  split at heq
  · rename_i hstop
    cases heq
    exact ⟨by omega, hcl, by simpa using hstop, Scanned.code_of_close hclose⟩
  · cases heq

/-- The struct type of a field that is cut off before its tags lies inside the field. -/
theorem block_inside {s : Scanned} {g : Segment} {stop : Nat} {m : Pattern.Found}
    (hstop : stop ≤ g.stop) (hm : namedField.fullMatch? s.masked g.start stop = some m)
    {brace close : Nat} (h : blockAt? s (m.startOf "type") stop = some (brace, close)) :
    g.start ≤ brace ∧ brace < close ∧ close < g.stop ∧
      s.masked.testAt close Text.isSpace = false := by
  obtain ⟨hstart, -, hmatch⟩ := Pattern.fullMatch?_matches hm
  rw [← hstart] at hmatch
  have hle := (hmatch.startOf_bounds "type").1
  obtain ⟨h1, h2, h3, h4⟩ := blockAt?_spec h
  exact ⟨by omega, h2, by omega, h4⟩

theorem shapeOf_spec (s : Scanned) (g : Segment) :
    (shapeOf s g).info.span = some (s.span g.start g.stop) ∧
      (shapeOf s g).info.fullText = s.source.cut g.start g.stop ∧
      (shapeOf s g).info.separator = (if g.semicolon.isSome then ";" else "") ∧
      ∀ brace close, (shapeOf s g).block = some (brace, close) →
        g.start ≤ brace ∧ brace < close ∧ close < g.stop ∧
          s.masked.testAt close Text.isSpace = false := by
  unfold shapeOf
  dsimp only
  split
  · rename_i tag htag
    have hstop : s.prevCode tag.start g.start ≤ g.stop :=
      Nat.le_trans (Text.prevCode_le _ _ _) (Pattern.search?_matches htag).2.1
    split
    · exact ⟨rfl, rfl, rfl, by simp⟩
    · split
      · exact ⟨rfl, rfl, rfl, by simp⟩
      · rename_i m hm
        exact ⟨rfl, rfl, rfl, fun _ _ h => block_inside hstop hm h⟩
  · split
    · exact ⟨rfl, rfl, rfl, by simp⟩
    · split
      · exact ⟨rfl, rfl, rfl, by simp⟩
      · rename_i m hm
        exact ⟨rfl, rfl, rfl, fun _ _ h => block_inside (Nat.le_refl _) hm h⟩

/-- A body reader lays out the fields between two brackets and takes no comment from the closing
one on. -/
def LaysOut (t : Text) (body : BodyReader) : Prop :=
  ∀ brace close pool, brace < close →
    (Scanned.scan .go t).masked.testAt close Text.isSpace = false →
    Drawn (brace + 1) (Scanned.scan .go t).comments pool →
    LaidFrom (Loose (Tended (SeparatorAhead .go) .go) t) t close (brace + 1) (body brace close pool).1.1 ∧
      Drawn close (Scanned.scan .go t).comments (body brace close pool).2

theorem memberOfShape_spec {t : Text} {body : BodyReader} (hbody : LaysOut t body) {g : Segment}
    (hg : g.start < g.stop) {pool : List Comment}
    (hpool : Drawn g.start (Scanned.scan .go t).comments pool) :
    let s := Scanned.scan .go t
    let r := memberOfShape s body (shapeOf s g) pool
    r.1.info.span = some (s.span g.start g.stop) ∧ r.1.info.fullText = t.cut g.start g.stop ∧
      r.1.info.separator = (if g.semicolon.isSome then ";" else "") ∧ Drawn g.stop s.comments r.2 ∧
      (∀ i children, r.1 = .group i children → ∃ b, i.body = some b ∧ g.start ≤ b.start ∧
        b.stop ≤ g.stop ∧
          LaidFrom (Loose (Tended (SeparatorAhead .go) .go) t) t b.stop b.start children) := by
  intro s r
  obtain ⟨h1, h2, h3, h4⟩ := shapeOf_spec s g
  cases hblock : (shapeOf s g).block with
  | none =>
    have hr : r = (.leaf (shapeOf s g).info, pool) := by
      simp only [r, memberOfShape, hblock, pure_apply]
    rw [hr]
    exact ⟨h1, h2, h3, hpool.mono (Nat.le_of_lt hg), by simp⟩
  | some block =>
    obtain ⟨brace, close⟩ := block
    obtain ⟨hbrace, hlt, hclose, hcode⟩ := h4 brace close hblock
    obtain ⟨hlaid, hleft⟩ := hbody brace close pool hlt hcode (hpool.mono (by omega))
    simp only [r, memberOfShape, hblock, bind_apply, pure_apply]
    refine ⟨h1, h2, h3, hleft.mono (Nat.le_of_lt hclose), ?_⟩
    intro i children heq
    cases heq
    exact ⟨_, rfl, Nat.le_succ_of_le hbrace, Nat.le_of_lt hclose, hlaid⟩

/-- One field with its comments: it is laid out from the floor on, and its unit ends where the
next field may take comments. -/
theorem memberOf_spec {t : Text} {body : BodyReader} (hbody : LaysOut t body)
    {close floor a b : Nat} {g : Segment} {pool : List Comment}
    (hg : Cut (Scanned.scan .go t) g a b) (hfloor : floor ≤ a) (hclose : b ≤ close)
    (hcode : (Scanned.scan .go t).masked.testAt close Text.isSpace = false)
    (hpool : Drawn floor (Scanned.scan .go t).comments pool) :
    let s := Scanned.scan .go t
    let r := memberOf s body close g floor pool
    floor ≤ r.1.1.unitStart ∧
    r.1.1.LaidOut (Loose (Tended (SeparatorAhead .go) .go) t) t ∧ r.1.1.unitStop = r.1.2 ∧
      b ≤ r.1.2 ∧ r.1.2 ≤ close ∧ Drawn r.1.2 s.comments r.2 ∧
      ∀ i, b ≤ i → i < r.1.2 → passes s [] i := by
  intro s r
  have hs : Orderly s s.comments := orderly_scan .go t
  have hne := hg.nonempty
  have hafter := hg.stop_le_after
  obtain ⟨rfl, rfl⟩ : g.start = a ∧ g.after = b := ⟨hg.start_eq, hg.after_eq⟩
  let lead := takeLeading s g.start floor pool
  have hlead : floor ≤ startOf lead.1 g.start ∧ startOf lead.1 g.start ≤ g.start :=
    startOf_takeLeading (hs.sublist hpool.sublist) hfloor
  have hpool1 : Drawn g.start s.comments lead.2 := takeLeading_drawn hs hpool hfloor
  let inner := memberOfShape s body (shapeOf s g) lead.2
  obtain ⟨hspan, htext, hsep, hpool2, hinside⟩ := memberOfShape_spec hbody hne hpool1
  let inside := takeInside g.start g.stop inner.2
  have hpool3 : Drawn g.stop s.comments inside.2 := takeInside_drawn hs hpool2 (Nat.le_refl _)
  let trail := takeTrailing s g.after close [] inside.2
  have htrail := (takeTrailing_spec (hs.sublist hpool3.sublist) g.after close []).taken_inside
  have hf : Followed s [] g.after close none trail.1 trail.2 (endOf trail.1 g.after) :=
    followed hs [] (hpool3.mono hafter) (by simp) hclose
  have hlast : g.after ≤ endOf trail.1 g.after := hf.after_le
  let unit := s.span (startOf lead.1 g.start) (endOf trail.1 g.after)
  let f (i : MemberInfo) : MemberInfo := { i with
    comments := lead.1, trailingComments := trail.1
    trailingText := trailingText s.source g.after trail.1, unit := some unit }
  have hpast : pastSeparator g.stop g.semicolon = g.after := by
    unfold pastSeparator Segment.after
    cases g.semicolon <;> rfl
  have hnext : SeparatorNext s (f inner.1.info).separator g.stop g.semicolon := by
    show SeparatorNext s inner.1.info.separator g.stop g.semicolon
    rw [hsep]
    cases hgsep : g.semicolon with
    | none => rfl
    | some place =>
      obtain ⟨hplace, hchar, hgap⟩ := hg.semicolon place hgsep
      exact ⟨hplace, hgap, ';', Or.inr rfl, rfl, hchar⟩
  have hseparator : SeparatorAhead .go t (f inner.1.info) := by
    cases hgsep : g.semicolon with
    | none => exact Or.inl (hsep.trans (by simp [hgsep]))
    | some place =>
      rw [hgsep] at hpast hnext
      have hafter' : place + 1 = g.after := hpast
      refine Or.inr ⟨_, unit, place, hspan, rfl, Nat.lt_of_lt_of_le (by omega) hlast, hnext, ?_⟩
      -- trailing comments start after the semicolon
      intro k hk
      have := (htrail k hk).2.1
      omega
  have hholds : HoldsTrail s (f inner.1.info) (s.span g.start g.stop) unit g.semicolon := by
    refine .of_limit hs hspan rfl hg.lastCode hnext (fun k hk => ?_) ?_ hcode ?_
    · exact ⟨Nat.le_trans hafter (hf.inside k hk).1, (hf.inside k hk).2⟩
    · exact hpast ▸ hf.held
    · exact hpast ▸ hclose
  have hseverable : Severable t (f inner.1.info) := by
    refine .of_eq hspan (Eq.refl (some unit)) ?_ ?_ (Scanned.cuttable_after_code hg.lastCode)
    · exact cuttable_leading hpool _ (Scanned.cuttable_of_code hg.code)
    · exact cuttable_endOf hg.cuttable_after hf.known
  obtain ⟨h1, h2, h3⟩ := laidOut_mapInfo (f := f) unit hspan htext (fun i => ⟨rfl, rfl, rfl, rfl⟩)
    hlead.2 hne (Nat.le_trans hafter hlast) ⟨⟨hseparator, _, _, _, hholds⟩, hseverable⟩ hinside
  exact ⟨h2 ▸ hlead.1, h1, h3, hlast, hf.le_limit, hf.drawn, hf.gap⟩

/-- The fields of a chain of segments are laid out from the floor on. -/
theorem membersFrom_laid {t : Text} {body : BodyReader} (hbody : LaysOut t body)
    {close a floor : Nat} {gs : List Segment} {pool : List Comment}
    (hgs : Chain (Cut (Scanned.scan .go t)) a close gs) (hfloor : floor ≤ close) (ha : a ≤ floor)
    (hgap : ∀ i, a ≤ i → i < floor → passes (Scanned.scan .go t) [] i)
    (hcode : (Scanned.scan .go t).masked.testAt close Text.isSpace = false)
    (hpool : Drawn floor (Scanned.scan .go t).comments pool) :
    let r := membersFrom (Scanned.scan .go t) body close gs floor pool
    LaidFrom (Loose (Tended (SeparatorAhead .go) .go) t) t close floor r.1 ∧
      Drawn close (Scanned.scan .go t).comments r.2 := by
  induction hgs generalizing floor pool with
  | nil h => exact ⟨hfloor, hpool.mono hfloor⟩
  | cons hi hg hrest ih =>
    have hstart := le_of_passes hi hgap fun hpass => by
      have := space_of_passes hpass
      rw [← hg.start_eq, hg.code] at this
      cases this
    obtain ⟨h1, h2, h3, h4, h5, h6, h7⟩ :=
      memberOf_spec hbody hg hstart (hrest.le fun _ _ _ h => h.le) hcode hpool
    obtain ⟨i1, i2⟩ := ih h5 h4 h7 hcode h6
    simp only [membersFrom, bind_apply, pure_apply]
    exact ⟨⟨h1, h2, by rw [h3]; exact i1⟩, i2⟩

/-- Every body is laid out, however deep its structs are read. -/
theorem readBody_laid (t : Text) (fuel : Nat) : LaysOut t (readBody (Scanned.scan .go t) fuel) := by
  induction fuel with
  | zero =>
    intro brace close pool hlt _ hpool
    exact ⟨hlt, hpool.mono hlt⟩
  | succ fuel ih =>
    intro brace close pool hlt hcode hpool
    obtain ⟨h1, h2⟩ := membersFrom_laid ih (segments_chain (Scanned.scan .go t) hlt) hlt
      (Nat.le_refl _) (fun i h1 h2 => by omega) hcode hpool
    simp only [readBody, bind_apply, pure_apply]
    exact ⟨h1, takeInside_drawn (orderly_scan .go t) h2 (Nat.le_refl _)⟩

/-! ## Declarations -/

theorem endsIn_structDeclaration : Pattern.EndsIn (· == '{') structDeclaration :=
  Pattern.endsIn_seq _ <| Pattern.endsIn_seq _ <| Pattern.endsIn_seq _ <| Pattern.endsIn_seq _ <|
    Pattern.endsIn_seq _ <| Pattern.endsIn_seq _ endsIn_structOpening

theorem endsIn_groupedStruct : Pattern.EndsIn (· == '{') groupedStruct :=
  Pattern.endsIn_seq _ <| Pattern.endsIn_seq _ <| Pattern.endsIn_seq _ <| Pattern.endsIn_seq _ <|
    Pattern.endsIn_seq _ endsIn_structOpening

theorem groupedFrom_start_le {s : Scanned} {close fuel pos : Nat} {d : Declaration}
    (h : d ∈ groupedFrom s close fuel pos) : d.start ≤ d.brace := by
  induction fuel generalizing pos with
  | zero => simp [groupedFrom] at h
  | succ fuel ih =>
    simp only [groupedFrom] at h
    split at h
    · cases h
    · rename_i m hm
      rcases List.mem_cons.mp h with rfl | h
      · -- the bracket is code, so the next code is no later
        obtain ⟨hlt, hbrace⟩ :=
          endsIn_groupedStruct _ _ _ _ _ (Pattern.search?_matches hm).2.2
        obtain ⟨c, hc, hopen⟩ := Text.testAt_iff.mp hbrace
        refine Text.nextCode_le_of_code (j := m.stop - 1) (by omega) ?_
        rw [Text.testAt_of_getElem? hc, beq_iff_eq.mp hopen]
        decide
      · exact ih h

theorem startsIn_structDeclaration : Pattern.StartsIn (· != '\n') structDeclaration :=
  Pattern.startsIn_place _ (Pattern.startsIn_seq (Pattern.startsIn_word rfl (by decide)) _)

theorem groupedFrom_cuttable {t : Text} {close fuel pos : Nat} {d : Declaration}
    (h : d ∈ groupedFrom (Scanned.scan .go t) close fuel pos) : Cuttable t d.start := by
  induction fuel generalizing pos with
  | zero => simp [groupedFrom] at h
  | succ fuel ih =>
    simp only [groupedFrom] at h
    split at h
    · cases h
    · rcases List.mem_cons.mp h with rfl | h
      · exact Scanned.cuttable_nextCodeToEnd _
      · exact ih h

/-- A declaration starts before its bracket, and not inside a line break. -/
structure Declaration.Begins (t : Text) (d : Declaration) : Prop where
  start_le : d.start ≤ d.brace
  cuttable : Cuttable t d.start

theorem declarations_begin {t : Text} {d : Declaration}
    (h : d ∈ declarations (Scanned.scan .go t)) : d.Begins t := by
  have h := (Order.stableSort_perm _ _).mem_iff.mp h
  rcases List.mem_append.mp h with h | h
  · obtain ⟨m, hm, rfl⟩ := List.mem_map.mp h
    have hmatch := (Pattern.findFrom_matches hm).2.2
    have hlt := (endsIn_structDeclaration _ _ _ _ _ hmatch).1
    constructor
    · simp only [declarationAt]
      omega
    · exact Scanned.cuttable_of_testAt rfl (startsIn_structDeclaration _ _ _ _ _ hmatch).2
  · obtain ⟨m, -, h⟩ := List.mem_flatMap.mp h
    split at h
    · cases h
    · exact ⟨groupedFrom_start_le h, groupedFrom_cuttable h⟩

/-! ## Entities -/

theorem entityOf_spec (t : Text) (fileType : FileType) {d : Declaration} {close floor : Nat}
    {pool : List Comment} (hd : d.Begins t)
    (hclose : Brackets.close? Brackets.all (Scanned.scan .go t).masked d.brace = some close)
    (hfloor : floor ≤ d.start) (hpool : Drawn floor (Scanned.scan .go t).comments pool) :
    let s := Scanned.scan .go t
    let r := entityOf s fileType d close floor pool
    ∃ a, r.1.LaidOut (Loose (Tended (SeparatorAhead .go) .go) t) t a (close + 1) ∧
      floor ≤ a ∧ close + 1 ≤ t.size ∧
      Drawn (close + 1) s.comments r.2 := by
  intro s r
  have hs : Orderly s s.comments := orderly_scan _ t
  obtain ⟨hlt, hcl, -⟩ := Brackets.close?_some hclose
  rw [Scanned.size_masked] at hcl
  have hbrace := hd.start_le
  let lead := takeLeading s d.start floor pool
  have hlead : floor ≤ startOf lead.1 d.start ∧ startOf lead.1 d.start ≤ d.start :=
    startOf_takeLeading (hs.sublist hpool.sublist) hfloor
  have hpool1 : Drawn d.start s.comments lead.2 := takeLeading_drawn hs hpool hfloor
  obtain ⟨hlaid, hpool2⟩ := readBody_laid t (s.masked.size + 1) d.brace close lead.2 hlt
    (Scanned.code_of_close hclose) (hpool1.mono (by omega))
  have hcuttable : Cuttable t (startOf lead.1 d.start) ∧ Cuttable t (close + 1) :=
    ⟨cuttable_leading hpool _ hd.cuttable,
      Scanned.cuttable_after_close hclose⟩
  refine ⟨startOf lead.1 d.start, ⟨by omega, hcuttable, rfl, ⟨_, rfl, rfl, rfl⟩, ?_⟩, hlead.1, hcl,
    hpool2.mono (by omega)⟩
  exact ⟨_, rfl, by simp only [Scanned.span, Lines.span]; omega,
    by simp only [Scanned.span, Lines.span]; omega, hlaid⟩

/-- The entities of a Go source follow each other. -/
theorem entitiesFrom_chain (t : Text) (fileType : FileType) {ds : List Declaration}
    (hds : ∀ d ∈ ds, d.Begins t) {floor : Nat} {pool : List Comment} (hsize : floor ≤ t.size)
    (hpool : Drawn floor (Scanned.scan .go t).comments pool) :
    Chain (Entity.LaidOut (Loose (Tended (SeparatorAhead .go) .go) t) t) floor t.size
      (entitiesFrom (Scanned.scan .go t) fileType ds floor pool).1.1 := by
  induction ds generalizing floor pool with
  | nil => exact .nil hsize
  | cons d rest ih =>
    have ih := fun {floor pool} => @ih (fun d hd => hds d (List.mem_cons_of_mem _ hd)) floor pool
    by_cases hstart : d.start < floor
    · simp only [entitiesFrom, hstart, if_true]
      exact ih hsize hpool
    · cases hclose : Brackets.close? Brackets.all (Scanned.scan .go t).masked d.brace with
      | none =>
        simp only [entitiesFrom, hstart, if_false, hclose]
        exact ih hsize hpool
      | some close =>
        obtain ⟨a, hlaid, ha, hb, hleft⟩ := entityOf_spec t fileType
          (hds d List.mem_cons_self) hclose (Nat.le_of_not_lt hstart) hpool
        simp only [entitiesFrom, hstart, if_false, hclose]
        exact .cons ha hlaid (ih hb hleft)

/-- Reading a Go source places its entities. -/
theorem read_chain (fileType : FileType) (t : Text) :
    Chain (Entity.LaidOut (Loose (Tended (SeparatorAhead .go) .go) t) t) 0 t.size (read fileType t).entities :=
  entitiesFrom_chain t fileType (fun _ h => declarations_begin h) (Nat.zero_le _)
    (Drawn.refl 0 _)

end MemberOrder.Struct
