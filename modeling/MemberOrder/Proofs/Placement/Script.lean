/-
  The members and entities of a script have their places.

  A body is cut into segments that follow each other, start and end with code, and have nothing
  but white space before their separator (`segments_chain`). From that, by induction on the depth
  of object values, every body is laid out (`readBody_laid`), and so is every declaration that
  is found (`entitiesFrom_chain`).
-/
import Mathlib.Logic.Basic
import MemberOrder.Proofs.Pattern.Matches
import MemberOrder.Proofs.Placement.Basic
import MemberOrder.Proofs.Source.Nesting
import MemberOrder.Script.Document

namespace MemberOrder.Script

open Attachment

/-! ## Segments -/

/-- A segment goes from `a` to `b`, with its separator. -/
structure Cut (s : Scanned) (g : Segment) (a b : Nat) : Prop where
  start_eq : g.start = a
  after_eq : g.after = b
  nonempty : g.start < g.stop
  code : s.masked.testAt g.start Text.isSpace = false
  lastCode : s.masked.testAt (g.stop - 1) Text.isSpace = false
  separator : ∀ c place, g.separator = some (c, place) →
    (c = ',' ∨ c = ';') ∧ g.stop ≤ place ∧ s.masked[place]? = some c ∧
      ∀ x, g.stop ≤ x → x < place → s.masked.testAt x Text.isSpace = true

theorem Cut.stop_le_after {s : Scanned} {g : Segment} {a b : Nat} (h : Cut s g a b) :
    g.stop ≤ g.after := by
  unfold Segment.after
  cases hg : g.separator with
  | none => exact Nat.le_refl _
  | some sep => exact Nat.le_succ_of_le (h.separator sep.1 sep.2 hg).2.1

theorem Cut.le {s : Scanned} {g : Segment} {a b : Nat} (h : Cut s g a b) : a ≤ b := by
  have := h.stop_le_after
  have := h.nonempty
  have := h.start_eq
  have := h.after_eq
  omega

/-- A body has been cut from `lo` up to `i`: the segments found form a chain that ends before the
current one starts, and the current one starts with code. -/
structure Cutting.Reaches (s : Scanned) (lo i : Nat) (c : Cutting) : Prop where
  chain : ∃ b, Chain (Cut s) lo b c.segments.reverse ∧ b ≤ i ∧ ∀ st, c.start = some st → b ≤ st
  begun : ∀ st, c.start = some st → st < i ∧ s.masked.testAt st Text.isSpace = false

/-- A finished segment extends the chain. -/
theorem Cutting.Reaches.push {s : Scanned} {lo i b : Nat} {c : Cutting} {g : Segment}
    (h : Chain (Cut s) lo b c.segments.reverse) (hb : b ≤ g.start)
    (hg : Cut s g g.start g.after) (hafter : g.after ≤ i) : (c.push g).Reaches s lo i where
  chain := by
    refine ⟨g.after, ?_, hafter, by simp [Cutting.push]⟩
    simp only [Cutting.push, List.reverse_cons]
    exact h.snoc hb hg
  begun := by simp [Cutting.push]

theorem Cutting.Reaches.ite {s : Scanned} {lo i : Nat} {p : Prop} [Decidable p] {c c' : Cutting}
    (h : p → c.Reaches s lo i) (h' : ¬p → c'.Reaches s lo i) :
    Cutting.Reaches s lo i (if p then c else c') := by
  by_cases hp : p
  · rw [if_pos hp]
    exact h hp
  · rw [if_neg hp]
    exact h' hp

/-- A segment that starts with code ends with code before any later place. -/
theorem cut_before {s : Scanned} {start i : Nat} (hcode : s.masked.testAt start Text.isSpace = false)
    (hi : start < i) :
    start < s.prevCode i start ∧ s.prevCode i start ≤ i ∧
      s.masked.testAt (s.prevCode i start - 1) Text.isSpace = false := by
  have h1 : start < s.prevCode i start := Text.lt_prevCode_of_code hcode hi
  exact ⟨h1, Text.prevCode_le _ _ _, Text.code_before_prevCode h1⟩

theorem Cutting.read_reaches {s : Scanned} {inType : Bool} {lo i b start : Nat} {c : Cutting}
    {ch : Char} (hc : c.start = some start) (h : Chain (Cut s) lo b c.segments.reverse)
    (hb : b ≤ start) (hcode : s.masked.testAt start Text.isSpace = false)
    (hi : start < i ∨ start = i ∧ ch ≠ ',' ∧ ch ≠ ';') (hch : s.masked[i]? = some ch) :
    (c.read s inType start i ch).Reaches s lo (i + 1) := by
  -- the cases that only count brackets leave segments and start as they are
  have hstay : ∀ c' : Cutting, c'.segments = c.segments → c'.start = c.start →
      c'.Reaches s lo (i + 1) := by
    intro c' hseg hstart
    refine ⟨⟨b, by rw [hseg]; exact h, by omega, ?_⟩, ?_⟩
    · intro st hst
      rw [hstart, hc, Option.some.injEq] at hst
      omega
    · intro st hst
      rw [hstart, hc, Option.some.injEq] at hst
      subst hst
      exact ⟨by omega, hcode⟩
  unfold Cutting.read
  refine .ite (fun _ => hstay _ rfl rfl) fun _ => ?_
  refine .ite (fun _ => hstay _ rfl rfl) fun _ => ?_
  refine .ite (fun _ => hstay _ rfl rfl) fun _ => ?_
  refine .ite (fun _ => hstay _ rfl rfl) fun _ => ?_
  refine .ite (fun _ => .ite (fun hsep => ?_) fun _ => .ite (fun _ => .ite (fun hcond => ?_) fun _ =>
    hstay _ rfl rfl) fun _ => hstay _ rfl rfl) fun _ => hstay _ rfl rfl
  · -- a separator ends the segment
    rw [Bool.or_eq_true, beq_iff_eq, beq_iff_eq] at hsep
    have hlt : start < i := by
      rcases hi with hi | ⟨-, h1, h2⟩
      · exact hi
      · rcases hsep with h | h <;> contradiction
    obtain ⟨h1, h2, h3⟩ := cut_before hcode hlt
    refine Reaches.push h hb ⟨rfl, rfl, h1, hcode, h3, ?_⟩ (Nat.le_refl _)
    intro c' place heq
    cases heq
    exact ⟨hsep, h2, hch, fun x hx hx' => Text.space_after_prevCode hx hx'⟩
  · -- so does the end of a line after which the type does not go on
    rw [Bool.and_eq_true, decide_eq_true_eq] at hcond
    have hle : s.prevCode i start ≤ i := Text.prevCode_le _ _ _
    refine Reaches.push h hb ⟨rfl, rfl, hcond.1, hcode, Text.code_before_prevCode hcond.1, by simp⟩ ?_
    exact Nat.le_succ_of_le hle

theorem Cutting.step_reaches {s : Scanned} {inType : Bool} {lo i : Nat} {c : Cutting}
    (h : c.Reaches s lo i) : (c.step s inType i).Reaches s lo (i + 1) := by
  obtain ⟨⟨b, hchain, hbi, hbst⟩, hbegun⟩ := h
  have hsame : c.Reaches s lo (i + 1) :=
    ⟨⟨b, hchain, by omega, hbst⟩, fun st hst => ⟨by have := (hbegun st hst).1; omega, (hbegun st hst).2⟩⟩
  unfold Cutting.step
  split
  · exact hsame
  · rename_i ch hch
    split
    · rename_i start hstart
      obtain ⟨h1, h2⟩ := hbegun start hstart
      exact read_reaches hstart hchain (hbst start hstart) h2 (Or.inl h1) hch
    · split
      · exact hsame
      · rename_i hcond
        simp only [Bool.or_eq_true, beq_iff_eq, not_or, Bool.not_eq_true] at hcond
        refine read_reaches rfl hchain hbi ?_ (Or.inr ⟨rfl, hcond.1.2, hcond.2⟩) hch
        rw [Text.testAt_of_getElem? hch]
        exact hcond.1.1

theorem Cutting.Reaches.run {s : Scanned} {lo i : Nat} {c : Cutting} (h : c.Reaches s lo i)
    (inType : Bool) (n : Nat) :
    ((List.range' i n).foldl (Cutting.step s inType) c).Reaches s lo (i + n) := by
  induction n generalizing i c with
  | zero => exact h
  | succ n ih =>
    rw [List.range'_succ, List.foldl_cons, show i + (n + 1) = i + 1 + n by omega]
    exact ih (step_reaches h)

/-- The segments of a body follow each other inside it. -/
theorem segments_chain (s : Scanned) {lo hi : Nat} (h : lo ≤ hi) (inType : Bool) :
    Chain (Cut s) lo hi (segments s lo hi inType) := by
  have hstart : ({} : Cutting).Reaches s lo lo :=
    ⟨⟨lo, .nil (Nat.le_refl lo), Nat.le_refl lo, by simp⟩, by simp⟩
  obtain ⟨⟨b, hchain, hb, hbst⟩, hbegun⟩ := hstart.run inType (hi - lo)
  rw [Nat.add_sub_cancel' h] at hb hbegun
  unfold segments
  dsimp only
  split
  · rw [List.append_nil]
    exact hchain.weaken (Nat.le_refl lo) hb
  · rename_i first hfirst
    obtain ⟨hlt, hcode⟩ := hbegun first hfirst
    obtain ⟨h1, h2, h3⟩ := cut_before hcode hlt
    rw [if_pos h1]
    refine (hchain.snoc (hbst first hfirst) ?_).weaken (Nat.le_refl lo) h2
    exact ⟨rfl, rfl, h1, hcode, h3, by simp⟩

/-! ## Members -/

/-- What a member is does not depend on its place; its span, text and separator are those of its
segment, and a block is closed where the segment ends. -/
theorem shapeOf_spec (s : Scanned) (g : Segment) (inType : Bool) :
    (shapeOf s g inType).info.span = some (s.span g.start g.stop) ∧
      (shapeOf s g inType).info.fullText = s.source.cut g.start g.stop ∧
      (shapeOf s g inType).info.separator = g.separatorText ∧
      ∀ openAt, (shapeOf s g inType).block = some openAt →
        g.start ≤ openAt ∧ Brackets.close? Brackets.all s.masked openAt = some (g.stop - 1) := by
  unfold shapeOf
  dsimp only
  split
  · exact ⟨rfl, rfl, rfl, by simp⟩
  · split
    · exact ⟨rfl, rfl, rfl, by simp⟩
    · split
      · rename_i m hm
        refine ⟨rfl, rfl, rfl, ?_⟩
        intro openAt hblock
        obtain ⟨hstart, hmatch⟩ := Pattern.matchAt?_matches hm
        have hle := hmatch.bounds.1
        have hnext : m.stop ≤ s.nextCode m.stop g.stop := Text.le_nextCode _ _ _
        simp only [blockAt?] at hblock
        split at hblock
        · rename_i hcond
          cases hblock
          rw [Bool.and_eq_true, beq_iff_eq] at hcond
          exact ⟨by omega, hcond.2⟩
        · cases hblock
      · split
        · exact ⟨rfl, rfl, rfl, by simp⟩
        · split
          · exact ⟨rfl, rfl, rfl, by simp⟩
          · exact ⟨rfl, rfl, rfl, by simp⟩

/-- A body reader lays out the members between two brackets and takes no comment from the closing
one on. -/
def LaysOut (p : Profile) (t : Text) (body : BodyReader) : Prop :=
  ∀ openAt closeAt pool, openAt < closeAt →
    (Scanned.scan p t).masked.testAt closeAt Text.isSpace = false →
    Drawn (openAt + 1) (Scanned.scan p t).comments pool →
    LaidFrom (Loose (Tended SeparatorPlaced p) t) t closeAt (openAt + 1) (body openAt closeAt pool).1.1 ∧
      Drawn closeAt (Scanned.scan p t).comments (body openAt closeAt pool).2

/-- A member before its comments are known: its span is its segment, and its children are laid
out in its body. -/
theorem memberOfShape_spec {p : Profile} {t : Text} {body : BodyReader} (hbody : LaysOut p t body)
    {g : Segment} (hg : g.start < g.stop)
    (hcode : (Scanned.scan p t).masked.testAt (g.stop - 1) Text.isSpace = false) (inType : Bool)
    {pool : List Comment} (hpool : Drawn g.start (Scanned.scan p t).comments pool) :
    let s := Scanned.scan p t
    let r := memberOfShape s body g (shapeOf s g inType) pool
    r.1.info.span = some (s.span g.start g.stop) ∧ r.1.info.fullText = t.cut g.start g.stop ∧
      r.1.info.separator = g.separatorText ∧ Drawn g.stop s.comments r.2 ∧
      (∀ i children, r.1 = .group i children → ∃ b, i.body = some b ∧ g.start ≤ b.start ∧
        b.stop ≤ g.stop ∧ LaidFrom (Loose (Tended SeparatorPlaced p) t) t b.stop b.start children) := by
  intro s r
  obtain ⟨h1, h2, h3, h4⟩ := shapeOf_spec s g inType
  cases hblock : (shapeOf s g inType).block with
  | none =>
    have hr : r = (.leaf (shapeOf s g inType).info, pool) := by
      simp only [r, memberOfShape, hblock, pure_apply]
    rw [hr]
    exact ⟨h1, h2, h3, hpool.mono (Nat.le_of_lt hg), by simp⟩
  | some openAt =>
    obtain ⟨hopen, hclose⟩ := h4 openAt hblock
    have hlt := (Brackets.close?_some hclose).1
    obtain ⟨hlaid, hleft⟩ := hbody openAt (g.stop - 1) pool hlt hcode (hpool.mono (by omega))
    simp only [r, memberOfShape, hblock, bind_apply, pure_apply]
    refine ⟨h1, h2, h3, hleft.mono (Nat.sub_le _ _), ?_⟩
    intro i children heq
    cases heq
    exact ⟨_, rfl, Nat.le_succ_of_le hopen, Nat.sub_le _ _, hlaid⟩

/-- One member with its comments: it is laid out from the floor on, and its unit ends where the
next member may take comments, with nothing but white space after its separator. -/
theorem memberOf_spec {p : Profile} {t : Text} {body : BodyReader} (hbody : LaysOut p t body)
    (inType : Bool) {closeAt floor a b : Nat} {g : Segment} {pool : List Comment}
    (hg : Cut (Scanned.scan p t) g a b) (hfloor : floor ≤ a) (hclose : b ≤ closeAt)
    (hcode : (Scanned.scan p t).masked.testAt closeAt Text.isSpace = false)
    (hpool : Drawn floor (Scanned.scan p t).comments pool) :
    let s := Scanned.scan p t
    let r := memberOf s body inType closeAt g floor pool
    floor ≤ r.1.1.unitStart ∧ r.1.1.LaidOut (Loose (Tended SeparatorPlaced p) t) t ∧ r.1.1.unitStop = r.1.2 ∧
      b ≤ r.1.2 ∧ r.1.2 ≤ closeAt ∧ Drawn r.1.2 s.comments r.2 ∧
      ∀ i, b ≤ i → i < r.1.2 → passes s [] i := by
  intro s
  have hs : Orderly s s.comments := orderly_scan p t
  have hne := hg.nonempty
  have hafter := hg.stop_le_after
  obtain ⟨rfl, rfl⟩ : g.start = a ∧ g.after = b := ⟨hg.start_eq, hg.after_eq⟩
  let lead := takeLeading s g.start floor pool
  have hlead : floor ≤ startOf lead.1 g.start ∧ startOf lead.1 g.start ≤ g.start :=
    startOf_takeLeading (hs.sublist hpool.sublist) hfloor
  have hpool1 : Drawn g.start s.comments lead.2 := takeLeading_drawn hs hpool hfloor
  let inner := memberOfShape s body g (shapeOf s g inType) lead.2
  obtain ⟨hspan, htext, hsep, hpool2, hinside⟩ := memberOfShape_spec hbody hne hg.lastCode inType hpool1
  let inside := takeInside g.start g.stop inner.2
  have hpool3 : Drawn g.stop s.comments inside.2 := takeInside_drawn hs hpool2 (Nat.le_refl _)
  let place := g.separator.map (·.2)
  have hpast : pastSeparator g.stop place = g.after := by
    simp only [place, pastSeparator, Segment.after]
    cases g.separator <;> rfl
  have hplace : ∀ p, place = some p → g.stop ≤ p := by
    intro p hp
    obtain ⟨⟨c, p'⟩, hsep', rfl⟩ := Option.map_eq_some_iff.mp hp
    exact (hg.separator c p' hsep').2.1
  let early := takeEarly g.stop place inside.2
  let trail := takeTrailing s (pastSeparator g.stop place) closeAt [] early.2
  have hf := followed hs [] hpool3 hplace (by omega : pastSeparator g.stop place ≤ closeAt)
  let last := endOf (early.1 ++ trail.1) (pastSeparator g.stop place)
  let unit := s.span (startOf lead.1 g.start) last
  let f (i : MemberInfo) : MemberInfo := { i with
    comments := lead.1, trailingComments := early.1 ++ trail.1
    trailingText := trailingText s.source (pastSeparator g.stop place) (early.1 ++ trail.1)
    unit := some unit }
  intro r
  have hr : r = ((inner.1.mapInfo f, last), trail.2) := by
    simp only [r, memberOf, bind_apply, f, unit, last, trail, early, hpast]
    simp only [takeEarly, place]
    cases g.separator <;> rfl
  have hseparator : SeparatorPlaced t (f inner.1.info) := by
    cases hgsep : g.separator with
    | none => exact Or.inl (hsep.trans (by simp [Segment.separatorText, hgsep]))
    | some sep =>
      obtain ⟨c, p'⟩ := sep
      obtain ⟨hc, hstop, hchar, hgap⟩ := hg.separator c p' hgsep
      exact separatorPlaced_of_scan (p := p) rfl (c := c)
        (hsep.trans (by simp [Segment.separatorText, hgsep])) hspan rfl rfl rfl hstop hchar hc
        hg.lastCode hgap (by simp [place, hgsep]) hf
  have hnext : SeparatorNext s (f inner.1.info).separator g.stop place := by
    show SeparatorNext s inner.1.info.separator g.stop place
    rw [hsep]
    cases hgsep : g.separator with
    | none => simp [place, hgsep, SeparatorNext, Segment.separatorText]
    | some sep =>
      obtain ⟨c, p'⟩ := sep
      obtain ⟨hc, hstop, hchar, hgap⟩ := hg.separator c p' hgsep
      simp only [place, hgsep, Option.map_some, Segment.separatorText]
      exact ⟨hstop, hgap, c, hc, rfl, hchar⟩
  have htrail : HoldsTrail s (f inner.1.info) (s.span g.start g.stop) unit place :=
    .of_limit hs hspan rfl hg.lastCode hnext hf.inside hf.held hcode (Nat.le_trans hf.after_le hf.le_limit)
  have hseverable : Severable t (f inner.1.info) := by
    have hstop : Cuttable t g.stop := Scanned.cuttable_after_code hg.lastCode
    refine .of_eq hspan (Eq.refl (some unit)) ?_ ?_ hstop
    · exact cuttable_leading hpool _ (Scanned.cuttable_of_code hg.code)
    · refine cuttable_endOf (cuttable_pastSeparator (p := p) hstop fun x hx => ?_) hf.known
      obtain ⟨⟨c, p'⟩, hsep', rfl⟩ := Option.map_eq_some_iff.mp hx
      obtain ⟨hc, -, hchar, -⟩ := hg.separator c p' hsep'
      exact ⟨c, hc, hchar⟩
  have hlast := hf.after_le
  obtain ⟨h1, h2, h3⟩ := laidOut_mapInfo (f := f) unit hspan htext (fun i => ⟨rfl, rfl, rfl, rfl⟩)
    hlead.2 hne (Nat.le_trans (le_pastSeparator hplace) hlast)
    ⟨⟨hseparator, _, _, _, htrail⟩, hseverable⟩ hinside
  rw [hr, ← hpast]
  exact ⟨h2 ▸ hlead.1, h1, h3, hf.after_le, hf.le_limit, hf.drawn, hf.gap⟩

/-- The members of a chain of segments are laid out from the floor on; between where the chain
starts and the floor there is white space only. -/
theorem membersFrom_laid {p : Profile} {t : Text} {body : BodyReader} (hbody : LaysOut p t body)
    (inType : Bool) {closeAt a floor : Nat} {gs : List Segment} {pool : List Comment}
    (hgs : Chain (Cut (Scanned.scan p t)) a closeAt gs) (hfloor : floor ≤ closeAt)
    (ha : a ≤ floor) (hgap : ∀ i, a ≤ i → i < floor → passes (Scanned.scan p t) [] i)
    (hcode : (Scanned.scan p t).masked.testAt closeAt Text.isSpace = false)
    (hpool : Drawn floor (Scanned.scan p t).comments pool) :
    let r := membersFrom (Scanned.scan p t) body inType closeAt gs floor pool
    LaidFrom (Loose (Tended SeparatorPlaced p) t) t closeAt floor r.1 ∧
      Drawn closeAt (Scanned.scan p t).comments r.2 := by
  induction hgs generalizing floor pool with
  | nil h => exact ⟨hfloor, hpool.mono hfloor⟩
  | cons hi hg hrest ih =>
    have hstart := le_of_passes hi hgap fun hpass => by
      have := space_of_passes hpass
      rw [← hg.start_eq, hg.code] at this
      cases this
    obtain ⟨h1, h2, h3, h4, h5, h6, h7⟩ :=
      memberOf_spec hbody inType hg hstart (hrest.le fun _ _ _ h => h.le) hcode hpool
    obtain ⟨i1, i2⟩ := ih h5 h4 h7 hcode h6
    simp only [membersFrom, bind_apply, pure_apply]
    exact ⟨⟨h1, h2, by rw [h3]; exact i1⟩, i2⟩

/-- Every body is laid out, however deep its object values are read. -/
theorem readBody_laid (p : Profile) (t : Text) (inType : Bool) (fuel : Nat) :
    LaysOut p t (readBody (Scanned.scan p t) inType fuel) := by
  induction fuel with
  | zero =>
    intro openAt closeAt pool hlt _ hpool
    exact ⟨hlt, hpool.mono hlt⟩
  | succ fuel ih =>
    intro openAt closeAt pool hlt hcode hpool
    obtain ⟨h1, h2⟩ := membersFrom_laid ih inType (segments_chain (Scanned.scan p t) hlt inType) hlt
      (Nat.le_refl _) (fun i h1 h2 => by omega) hcode hpool
    simp only [readBody, bind_apply, pure_apply]
    exact ⟨h1, takeInside_drawn (orderly_scan p t) h2 (Nat.le_refl _)⟩

/-! ## The body of a declaration -/

theorem le_interfaceBody {t : Text} {fuel i angle paren body : Nat}
    (h : interfaceBody t fuel i angle paren = some body) : i ≤ body := by
  induction fuel generalizing i angle paren with
  | zero => simp [interfaceBody] at h
  | succ fuel ih =>
    have hnext : ∀ {angle paren}, interfaceBody t fuel (i + 1) angle paren = some body → i ≤ body :=
      fun h => Nat.le_of_succ_le (ih h)
    simp only [interfaceBody] at h
    split at h
    · cases h
    rcases ite_eq_iff.mp h with ⟨-, h⟩ | ⟨-, h⟩
    · exact hnext h
    rcases ite_eq_iff.mp h with ⟨-, h⟩ | ⟨-, h⟩
    · exact hnext h
    rcases ite_eq_iff.mp h with ⟨-, h⟩ | ⟨-, h⟩
    · exact hnext h
    rcases ite_eq_iff.mp h with ⟨-, h⟩ | ⟨-, h⟩
    · exact hnext h
    rcases ite_eq_iff.mp h with ⟨-, h⟩ | ⟨-, h⟩
    · -- a block inside of brackets is passed over
      rcases ite_eq_iff.mp h with ⟨-, h⟩ | ⟨-, h⟩
      · cases h
        exact Nat.le_refl _
      · split at h
        · cases h
        · rename_i close hclose
          have h1 := (Brackets.close?_some hclose).1
          have h2 := ih h
          omega
    · rcases ite_eq_iff.mp h with ⟨-, h⟩ | ⟨-, h⟩
      · cases h
      · exact hnext h

theorem le_aliasBody {t : Text} {fuel i angle body : Nat}
    (h : aliasBody t fuel i angle = some body) : i ≤ body := by
  induction fuel generalizing i angle with
  | zero => simp [aliasBody] at h
  | succ fuel ih =>
    have hnext : ∀ {angle}, aliasBody t fuel (i + 1) angle = some body → i ≤ body :=
      fun h => Nat.le_of_succ_le (ih h)
    simp only [aliasBody] at h
    split at h
    · cases h
    · split at h
      · exact hnext h
      · split at h
        · exact hnext h
        · split at h
          · split at h
            · cases h
              exact Nat.le_of_succ_le (Text.le_nextCode _ _ _)
            · cases h
          · split at h
            · cases h
            · exact hnext h

theorem le_valueAfterType {s : Scanned} {start fuel i depth value : Nat}
    (h : valueAfterType s start fuel i depth = some value) : i ≤ value := by
  induction fuel generalizing i depth with
  | zero => simp [valueAfterType] at h
  | succ fuel ih =>
    have hnext : ∀ {depth}, valueAfterType s start fuel (i + 1) depth = some value → i ≤ value :=
      fun h => Nat.le_of_succ_le (ih h)
    simp only [valueAfterType] at h
    split at h
    · cases h
    rcases ite_eq_iff.mp h with ⟨-, h⟩ | ⟨-, h⟩
    · exact hnext h
    rcases ite_eq_iff.mp h with ⟨-, h⟩ | ⟨-, h⟩
    · rcases ite_eq_iff.mp h with ⟨-, h⟩ | ⟨-, h⟩
      · cases h
      · exact hnext h
    rcases ite_eq_iff.mp h with ⟨-, h⟩ | ⟨-, h⟩
    · exact hnext h
    rcases ite_eq_iff.mp h with ⟨-, h⟩ | ⟨-, h⟩
    · -- outside of brackets the value may start, or the declaration end
      rcases ite_eq_iff.mp h with ⟨-, h⟩ | ⟨-, h⟩
      · cases h
        exact Nat.le_of_succ_le (Text.le_nextCode _ _ _)
      rcases ite_eq_iff.mp h with ⟨-, h⟩ | ⟨-, h⟩
      · cases h
      rcases ite_eq_iff.mp h with ⟨-, h⟩ | ⟨-, h⟩
      · cases h
      · exact hnext h
    · exact hnext h

theorem le_initializer {s : Scanned} {start value : Nat} (h : initializer s start = some value) :
    start ≤ value := by
  have hle : start ≤ s.nextCodeToEnd start := Text.le_nextCode _ _ _
  simp only [initializer] at h
  split at h
  · cases h
    have : s.nextCodeToEnd start + 1 ≤ s.nextCodeToEnd (s.nextCodeToEnd start + 1) :=
      Text.le_nextCode _ _ _
    omega
  · split at h
    · have := le_valueAfterType h
      omega
    · cases h

theorem objectArgument_spec {t : Text} {stop fuel i depth brace : Nat} {expecting : Bool}
    (h : objectArgument t stop fuel i depth expecting = some brace) :
    i ≤ brace ∧ brace < stop ∧ t[brace]? = some '{' := by
  induction fuel generalizing i depth expecting with
  | zero => simp [objectArgument] at h
  | succ fuel ih =>
    have hnext : ∀ {depth expecting}, objectArgument t stop fuel (i + 1) depth expecting = some brace →
        i ≤ brace ∧ brace < stop ∧ t[brace]? = some '{' := by
      intro depth expecting h
      obtain ⟨h1, h2⟩ := ih h
      exact ⟨by omega, h2⟩
    simp only [objectArgument] at h
    split at h
    · cases h
    · split at h
      · cases h
      · rename_i hstop c hc
        split at h
        · exact hnext h
        · split at h
          · rename_i hcond
            cases h
            simp only [Bool.and_eq_true, beq_iff_eq] at hcond
            exact ⟨Nat.le_refl _, by omega, by rw [hc, hcond.1.2]⟩
          · exact hnext h

/-- An object value starts no earlier than the value, and the call around it ends no earlier than
the object. -/
theorem objectValue_spec {s : Scanned} {valueAt openAt : Nat} {callClose : Option Nat}
    (h : objectValue s valueAt = some (openAt, callClose)) :
    valueAt ≤ openAt ∧ ∀ close, callClose = some close →
      (∃ paren, Brackets.close? Brackets.all s.masked paren = some close) ∧
      ∀ closeAt, Brackets.close? Brackets.all s.masked openAt = some closeAt → closeAt ≤ close := by
  unfold objectValue at h
  split at h
  · cases h
    exact ⟨Nat.le_refl _, by simp⟩
  · simp only [Option.bind_eq_bind, Option.bind_eq_some_iff, Option.pure_def, Option.some.injEq,
      Prod.mk.injEq] at h
    obtain ⟨m, hm, close, hclose, brace, hbrace, rfl, rfl⟩ := h
    obtain ⟨hstart, hmatch⟩ := Pattern.matchAt?_matches hm
    have hle := hmatch.bounds.1
    obtain ⟨h1, h2, h3⟩ := objectArgument_spec hbrace
    refine ⟨by omega, ?_⟩
    intro close' heq
    cases heq
    refine ⟨⟨_, hclose⟩, ?_⟩
    intro closeAt hcloseAt
    exact Brackets.close?_le_close? hclose (by omega) (Nat.le_of_lt h2) h3 rfl hcloseAt

/-- The body of a declaration starts after what was matched, and a call around it ends no earlier
than the body. -/
theorem headOf_spec {s : Scanned} {m : Pattern.Found} {head : Head} (h : headOf s m = some head) :
    m.stop ≤ head.openAt ∧ ∀ close, head.callClose = some close →
      (∃ paren, Brackets.close? Brackets.all s.masked paren = some close) ∧
      ∀ closeAt, Brackets.close? Brackets.all s.masked head.openAt = some closeAt →
        closeAt ≤ close := by
  simp only [headOf] at h
  split at h
  · obtain ⟨body, hbody, heq⟩ := Option.bind_eq_some_iff.mp h
    cases heq
    exact ⟨le_interfaceBody hbody, by simp⟩
  · split at h
    · obtain ⟨body, hbody, heq⟩ := Option.bind_eq_some_iff.mp h
      cases heq
      exact ⟨le_aliasBody hbody, by simp⟩
    · obtain ⟨valueAt, hle, object, hobject, heq⟩ : ∃ valueAt, m.stop ≤ valueAt ∧
          ∃ object, objectValue s valueAt = some object ∧ head.openAt = object.1 ∧
            head.callClose = object.2 := by
        split at h
        · obtain ⟨valueAt, hvalue, h⟩ := Option.bind_eq_some_iff.mp h
          obtain ⟨object, hobject, heq⟩ := Option.bind_eq_some_iff.mp h
          cases hvalue
          cases heq
          exact ⟨m.stop, Nat.le_refl _, object, hobject, rfl, rfl⟩
        · obtain ⟨valueAt, hvalue, h⟩ := Option.bind_eq_some_iff.mp h
          obtain ⟨object, hobject, heq⟩ := Option.bind_eq_some_iff.mp h
          cases heq
          exact ⟨valueAt, le_initializer hvalue, object, hobject, rfl, rfl⟩
      obtain ⟨h1, h2⟩ := objectValue_spec hobject
      rw [heq.1, heq.2]
      exact ⟨Nat.le_trans hle h1, h2⟩

/-! ## Entities -/

theorem startsIn_keyword {test : Char → Bool} {c : Char} {rest : List Char} {s : String}
    (hs : s.toList = c :: rest) (hc : test c = true) : Pattern.StartsIn test (keyword s) :=
  Pattern.startsIn_seq (Pattern.startsIn_word hs hc) _

theorem startsIn_declaration : Pattern.StartsIn (· != '\n') declaration := by
  have hexport : Pattern.StartsIn (· != '\n') (keyword "export") := startsIn_keyword rfl (by decide)
  have hdefault : Pattern.StartsIn (· != '\n') (keyword "default") := startsIn_keyword rfl (by decide)
  have hdeclare : Pattern.StartsIn (· != '\n') (keyword "declare") := startsIn_keyword rfl (by decide)
  refine Pattern.startsIn_place _ (Pattern.startsIn_either ?_ ?_)
  · exact Pattern.startsIn_seq (Pattern.startsIn_mark _ (Pattern.startsIn_seq hexport _)) _
  · refine Pattern.startsIn_optional (Pattern.startsIn_mark _ hexport) ?_
    refine Pattern.startsIn_optional hdefault (Pattern.startsIn_optional hdeclare ?_)
    refine Pattern.startsIn_either (Pattern.startsIn_seq (startsIn_keyword rfl (by decide)) _) ?_
    refine Pattern.startsIn_either (Pattern.startsIn_seq (startsIn_keyword rfl (by decide)) _) ?_
    exact Pattern.startsIn_seq (Pattern.startsIn_either (Pattern.startsIn_word rfl (by decide))
      (Pattern.startsIn_either (Pattern.startsIn_word rfl (by decide))
        (Pattern.startsIn_word rfl (by decide)))) _

/-- A character other than a carriage return. -/
def notReturn (c : Char) : Bool := c != '\r'

theorem notReturn_of {f : Char → Bool} (h : f '\r' = false) (c : Char) (hc : f c = true) :
    notReturn c = true := by
  rw [notReturn, bne_iff_ne]
  rintro rfl
  rw [h] at hc
  cases hc

theorem stopsWith_tail : Pattern.StopsWith notReturn tail := by
  have hblanks : Pattern.Within notReturn blanks := Pattern.within_span (notReturn_of (by decide))
  have hempty : Pattern.StopsWith notReturn .empty := Pattern.within_empty.stopsWith
  have hsome : ∀ {f : Char → Bool}, f '\r' = false → Pattern.StopsWith notReturn (Pattern.some1 f) :=
    fun h => (Pattern.within_seq (Pattern.within_one (notReturn_of h))
      (Pattern.within_span (notReturn_of h))).stopsWith
  have hword : ∀ {s : String}, s.toList.all notReturn = true → Pattern.StopsWith notReturn (.word s) :=
    fun h => (Pattern.within_chars (List.all_eq_true.mp h)).stopsWith
  have hchar : ∀ {d : Char}, (('\r' == d) = false) → Pattern.StopsWith notReturn (.char d) :=
    fun h => (Pattern.within_one (notReturn_of h)).stopsWith
  refine Pattern.stopsWith_seq hblanks.stopsWith (Pattern.stopsWith_seq
    (Pattern.stopsWith_either ?_ hempty) (Pattern.stopsWith_either (hchar (by decide)) hempty))
  -- the parts of a type assertion
  refine Pattern.stopsWith_seq (Pattern.stopsWith_either (hword (by decide)) (hword (by decide))) ?_
  refine Pattern.stopsWith_seq (hsome (by decide)) (Pattern.stopsWith_seq (hsome (by decide)) ?_)
  refine Pattern.stopsWith_seq (Pattern.stopsWith_either ?_ hempty)
    (Pattern.stopsWith_seq (Pattern.stopsWith_many (hword (by decide))) hblanks.stopsWith)
  -- type arguments end with their bracket
  intro t stop i j marks h _
  obtain ⟨-, hclose⟩ := Pattern.endsIn_seq _ (Pattern.endsIn_seq _ (Pattern.endsIn_one _))
    t stop i j marks h
  exact Pattern.testAt_mono (notReturn_of (by decide)) hclose

/-- An entity is laid out between the floor and the place from which the next one is looked for. -/
theorem entityOf_spec (t : Text) (fileType : FileType) {m : Pattern.Found} {head : Head}
    {closeAt floor : Nat} {pool : List Comment}
    (hm : Pattern.Matches (Scanned.scan .typescript t).masked (Scanned.scan .typescript t).masked.size
      declaration m.start m.stop m.marks) (hhead : headOf (Scanned.scan .typescript t) m = some head)
    (hclose : Brackets.close? Brackets.all (Scanned.scan .typescript t).masked head.openAt =
      some closeAt) (hfloor : floor ≤ m.start)
    (hpool : Drawn floor (Scanned.scan .typescript t).comments pool) :
    let s := Scanned.scan .typescript t
    let r := entityOf s fileType m head closeAt floor pool
    ∃ a b, r.1.LaidOut (Loose (Tended SeparatorPlaced .typescript) t) t a b ∧ floor ≤ a ∧ b ≤ t.size ∧
      r.1.span.map (·.stop) = some b ∧ Drawn b s.comments r.2 := by
  intro s r
  have hs : Orderly s s.comments := orderly_scan _ t
  have hsize : s.masked.size = t.size := Scanned.size_masked _ t
  have hstart : Cuttable t m.start :=
    Scanned.cuttable_of_testAt rfl (startsIn_declaration _ _ _ _ _ hm).2
  have hm := hm.bounds.1
  obtain ⟨hopen, hcall⟩ := headOf_spec hhead
  obtain ⟨hlt, hcl, -⟩ := Brackets.close?_some hclose
  rw [Scanned.size_masked] at hcl
  let lead := takeLeading s m.start floor pool
  have hlead : floor ≤ startOf lead.1 m.start ∧ startOf lead.1 m.start ≤ m.start :=
    startOf_takeLeading (hs.sublist hpool.sublist) hfloor
  have hpool1 : Drawn m.start s.comments lead.2 := takeLeading_drawn hs hpool hfloor
  let head' := takeInside m.start (head.openAt + 1) lead.2
  have hpool2 : Drawn (head.openAt + 1) s.comments head'.2 := takeInside_drawn hs hpool1 (by omega)
  obtain ⟨hlaid, hpool3⟩ := readBody_laid .typescript t (head.kind != .object) (s.masked.size + 1)
    head.openAt closeAt head'.2 hlt
    (Scanned.code_of_close hclose) hpool2
  have htail : ∀ {closed m'}, closed ≤ t.size → Cuttable t closed →
      tail.matchAt? s.masked closed s.masked.size = some m' →
      closed ≤ m'.stop ∧ m'.stop ≤ t.size ∧ Cuttable t m'.stop := by
    intro closed m' hclosed hcut hm'
    obtain ⟨-, hmatch⟩ := Pattern.matchAt?_matches hm'
    obtain ⟨h1, h2, -⟩ := hmatch.bounds
    refine ⟨h1, hsize ▸ h2 (by omega), ?_⟩
    rcases Nat.eq_or_lt_of_le h1 with heq | hlt
    · rwa [← heq]
    · exact Scanned.cuttable_after_testAt rfl (stopsWith_tail _ _ _ _ _ hmatch hlt)
  -- an entity goes on after its closing brace as far as the call around it and what ends it
  obtain ⟨stop, hspan, htext, hrest, hstop⟩ : ∃ stop,
      r.1.span = some (s.span (startOf lead.1 m.start) stop) ∧
      r.1.sourceText = t.cut (startOf lead.1 m.start) stop ∧
      r.2 = (takeInside closeAt stop (readBody s (head.kind != .object) (s.masked.size + 1) head.openAt
        closeAt head'.2).2).2 ∧ closeAt + 1 ≤ stop ∧ stop ≤ t.size ∧ Cuttable t stop := by
    refine ⟨_, rfl, rfl, rfl, ?_⟩
    have hclosed : Cuttable t (closeAt + 1) := Scanned.cuttable_after_close hclose
    cases heq : head.callClose with
    | none =>
      dsimp only
      split
      · rename_i m' hm'
        exact htail (show closeAt + 1 ≤ t.size by omega) hclosed hm'
      · exact ⟨Nat.le_refl _, hcl, hclosed⟩
    | some close =>
      obtain ⟨⟨paren, hparen⟩, h2⟩ := hcall close heq
      have h1 := (Brackets.close?_some hparen).2.1
      have hclosed : Cuttable t (close + 1) := Scanned.cuttable_after_close hparen
      rw [Scanned.size_masked] at h1
      have := h2 closeAt hclose
      dsimp only
      split
      · rename_i m' hm'
        have hm' := htail (show close + 1 ≤ t.size by omega) hclosed hm'
        exact ⟨by omega, hm'.2⟩
      · exact ⟨Nat.succ_le_succ this, h1, hclosed⟩
  have hcuttable : Cuttable t (startOf lead.1 m.start) ∧ Cuttable t stop :=
    ⟨cuttable_leading hpool _ hstart, hstop.2.2⟩
  have hdrawn : Drawn stop s.comments r.2 := by
    rw [hrest]
    exact takeInside_drawn hs hpool3 (by omega)
  refine ⟨startOf lead.1 m.start, stop, ⟨by omega, hcuttable, htext, ⟨_, hspan, rfl, rfl⟩, ?_⟩, hlead.1,
    hstop.2.1, by rw [hspan]; rfl, hdrawn⟩
  exact ⟨_, rfl, by simp only [Scanned.span, Lines.span]; omega,
    by simp only [Scanned.span, Lines.span]; omega, hlaid⟩

/-- The entities of a script follow each other. -/
theorem entitiesFrom_chain (t : Text) (fileType : FileType) (fuel : Nat) {pos floor : Nat}
    {pool : List Comment} (hfloor : floor ≤ pos) (hsize : floor ≤ t.size)
    (hpool : Drawn floor (Scanned.scan .typescript t).comments pool) :
    Chain (Entity.LaidOut (Loose (Tended SeparatorPlaced .typescript) t) t) floor t.size
      (entitiesFrom (Scanned.scan .typescript t) fileType fuel pos floor pool).1.1 := by
  induction fuel generalizing pos floor pool with
  | zero => exact .nil hsize
  | succ fuel ih =>
    let s := Scanned.scan .typescript t
    cases hm : declaration.search? s.masked pos s.masked.size with
    | none =>
      simp only [entitiesFrom, s, hm] at hm ⊢
      exact .nil hsize
    | some m =>
      obtain ⟨h1, -, hmatch⟩ := Pattern.search?_matches hm
      have h2 := hmatch.bounds.1
      simp only [s] at hm
      by_cases hstatement : startsStatement s m.start
      · cases hhead : headOf s m with
        | none =>
          simp only [entitiesFrom, hm, hstatement, hhead, s]
          exact ih (by omega) hsize hpool
        | some head =>
          cases hclose : Brackets.close? Brackets.all s.masked head.openAt with
          | none =>
            simp only [entitiesFrom, hm, hstatement, hhead, hclose, s]
            exact ih (by omega) hsize hpool
          | some closeAt =>
            obtain ⟨a, b, hlaid, ha, hb, hspan, hleft⟩ :=
              entityOf_spec t fileType hmatch hhead hclose (by omega) hpool
            simp only [entitiesFrom, hm, hstatement, Bool.not_true, Bool.false_eq_true, if_false,
              hhead, hclose, bind_apply, pure_apply, s]
            rw [hspan, Option.getD_some]
            exact .cons ha hlaid (ih (Nat.le_refl _) hb hleft)
      · simp only [entitiesFrom, hm, hstatement, s]
        exact ih (by omega) hsize hpool

/-- Reading a script places its entities. -/
theorem read_chain (fileType : FileType) (t : Text) :
    Chain (Entity.LaidOut (Loose (Tended SeparatorPlaced .typescript) t) t) 0 t.size (read fileType t).entities :=
  entitiesFrom_chain t fileType (t.size + 1) (Nat.le_refl 0) (Nat.zero_le _) (Drawn.refl 0 _)

end MemberOrder.Script
