/-
  Dealing members into places.

  The pieces of a dealt body are its gaps, which stay, and the units of its members in their new
  order; of a unit, only what stands at the place of its separator may change, and the body inside it,
  which is dealt in turn where it is out of order (`DealsBlock`). Dealing covers every offset of the
  source once, the separators that were replaced included (`DealsBlock.covers`), and what it puts in
  and cuts are separators (`DealsBlock.onlySeparators`), by induction on the nesting of members.
-/
import MemberOrder.Proofs.Layout.Rearranging
import MemberOrder.Proofs.Layout.Separators
import MemberOrder.Proofs.Placement.Basic

/-!
## Where the characters of a written text come from

A text is written in pieces: ranges copied from a source and separators put in between. Ranges
`Covers` an interval when every offset of the interval is in one of them, once; then what they show
is a permutation of what the interval shows (`Covers.slices_perm`). The units of laid out members and
the gaps around them cover the interval they lie in, whatever order the units are taken in
(`covers_region`).
-/

namespace MemberOrder.Layout

/-- A piece of a written text: a range of the source, or a separator. -/
inductive Piece where
  | copy (start stop : Nat)
  | put (separator : String)

namespace Piece

/-- The characters of a piece. -/
def text (t : Text) : Piece → List Char
  | copy start stop => t.slice start stop
  | put separator => separator.toList

/-- The range that a piece is copied from. -/
def range? : Piece → Option (Nat × Nat)
  | copy start stop => some (start, stop)
  | put _ => none

/-- The separator that is put in. -/
def separator : Piece → List Char
  | copy _ _ => []
  | put separator => separator.toList

end Piece

/-- The text that is written in pieces. -/
def written (t : Text) (ps : List Piece) : List Char := ps.flatMap (·.text t)

/-- The ranges that are copied. -/
def copies (ps : List Piece) : List (Nat × Nat) := ps.filterMap Piece.range?

/-- The separators that are put in. -/
def puts (ps : List Piece) : List Char := ps.flatMap Piece.separator

/-- The characters of some ranges. -/
def shown (t : Text) (rs : List (Nat × Nat)) : List Char := rs.flatMap fun r => t.slice r.1 r.2

variable {t : Text}

@[simp] theorem written_append (ps qs : List Piece) :
    written t (ps ++ qs) = written t ps ++ written t qs := List.flatMap_append

@[simp] theorem copies_append (ps qs : List Piece) : copies (ps ++ qs) = copies ps ++ copies qs :=
  List.filterMap_append

@[simp] theorem puts_append (ps qs : List Piece) : puts (ps ++ qs) = puts ps ++ puts qs :=
  List.flatMap_append

@[simp] theorem shown_append (rs rs' : List (Nat × Nat)) :
    shown t (rs ++ rs') = shown t rs ++ shown t rs' := List.flatMap_append

/-- What is written is what is copied and what is put in. -/
theorem written_perm (t : Text) (ps : List Piece) :
    (written t ps).Perm (shown t (copies ps) ++ puts ps) := by
  induction ps with
  | nil => exact .refl _
  | cons p rest ih =>
    cases p with
    | copy start stop =>
      simp only [written, copies, puts, List.flatMap_cons, Piece.text, Piece.separator,
        List.nil_append, List.filterMap_cons, Piece.range?, shown, List.append_assoc]
      exact ih.append_left _
    | put separator =>
      simp only [written, copies, puts, List.flatMap_cons, Piece.text, Piece.separator,
        List.filterMap_cons, Piece.range?]
      exact (ih.append_left _).trans (List.perm_append_comm_assoc _ _ _)

/-! ## Covering an interval -/

/-- Ranges that make up the offsets from `a` up to `b`, in any order. -/
inductive Covers : Nat → Nat → List (Nat × Nat) → Prop
  | none (a : Nat) : Covers a a []
  | one {a b : Nat} (h : a ≤ b) : Covers a b [(a, b)]
  | append {a b c : Nat} {rs rs' : List (Nat × Nat)} (h : Covers a b rs) (h' : Covers b c rs') :
      Covers a c (rs ++ rs')
  | perm {a b : Nat} {rs rs' : List (Nat × Nat)} (h : Covers a b rs) (hperm : rs.Perm rs') :
      Covers a b rs'

namespace Covers

variable {a b c : Nat} {rs rs' : List (Nat × Nat)}

theorem le (h : Covers a b rs) : a ≤ b := by
  induction h with
  | none a => exact Nat.le_refl a
  | one h => exact h
  | append _ _ ih ih' => exact Nat.le_trans ih ih'
  | perm _ _ ih => exact ih

/-- The ranges of a cover lie in the interval. -/
theorem mem (h : Covers a b rs) {r : Nat × Nat} (hr : r ∈ rs) : r.1 ≤ r.2 ∧ r.2 ≤ b := by
  induction h with
  | none a => cases hr
  | one h =>
    rw [List.mem_singleton.mp hr]
    exact ⟨h, Nat.le_refl _⟩
  | append h h' ih ih' =>
    rcases List.mem_append.mp hr with hr | hr
    · have := ih hr
      have := h'.le
      omega
    · exact ih' hr
  | perm _ hperm ih => exact ih (hperm.mem_iff.mpr hr)

theorem cons (hab : a ≤ b) (h : Covers b c rs) : Covers a c ((a, b) :: rs) := (one hab).append h

/-- Ranges that cover an interval show its characters. -/
theorem slices_perm (h : Covers a b rs) : (shown t rs).Perm (t.slice a b) := by
  induction h with
  | none a =>
    rw [Text.slice_self t (Nat.le_refl a)]
    exact .refl _
  | one h => simp [shown]
  | append h h' ih ih' =>
    rw [shown_append, ← Text.slice_append t h.le h'.le]
    exact ih.append ih'
  | perm _ hperm ih => exact (hperm.symm.flatMap_right _).trans ih

/-- What is written and what was cut are what was read and what was put in. -/
theorem written_perm {ps : List Piece} {cut : List (Nat × Nat)} (h : Covers a b (copies ps ++ cut)) :
    (written t ps ++ shown t cut).Perm (t.slice a b ++ puts ps) := by
  have hslices := h.slices_perm (t := t)
  rw [shown_append] at hslices
  have hwritten := (Layout.written_perm t ps).append_right (shown t cut)
  refine hwritten.trans (List.Perm.trans ?_ (hslices.append_right (puts ps)))
  rw [List.append_assoc, List.append_assoc]
  exact List.Perm.append_left _ List.perm_append_comm

end Covers

/-! ## Units and gaps -/

/-- Ranges that cover the units of members. -/
def UnitsCovered : List Member → List (Nat × Nat) → Prop
  | [], rs => rs = []
  | m :: rest, rs => ∃ unit others, Covers m.unitStart m.unitStop unit ∧ UnitsCovered rest others ∧
      rs.Perm (unit ++ others)

/-- The units may be taken in any order. -/
theorem UnitsCovered.of_perm {ms ms' : List Member} {rs : List (Nat × Nat)} (hperm : ms.Perm ms')
    (h : UnitsCovered ms rs) : UnitsCovered ms' rs := by
  induction hperm generalizing rs with
  | nil => exact h
  | cons m _ ih =>
    obtain ⟨unit, others, h1, h2, h3⟩ := h
    exact ⟨unit, others, h1, ih h2, h3⟩
  | swap m n rest =>
    obtain ⟨unit, others, h1, ⟨unit', others', h2, h3, h4⟩, h5⟩ := h
    refine ⟨unit', unit ++ others', h2, ⟨unit, others', h1, h3, .refl _⟩, ?_⟩
    exact h5.trans ((h4.append_left unit).trans (List.perm_append_comm_assoc _ _ _))
  | trans _ _ ih ih' => exact ih' (ih h)

/-- The gaps after the units of members in source order, from `cursor` up to `stop`. -/
def gapPieces (stop : Nat) : (cursor : Nat) → List Member → List Piece
  | cursor, [] => [.copy cursor stop]
  | cursor, m :: rest => .copy cursor m.unitStart :: gapPieces stop m.unitStop rest

theorem length_gapPieces (stop cursor : Nat) (ms : List Member) :
    (gapPieces stop cursor ms).length = ms.length + 1 := by
  induction ms generalizing cursor with
  | nil => rfl
  | cons m rest ih => simp [gapPieces, ih]

/-- Units put between gaps. -/
def fill : (gaps : List Piece) → (units : List (List Piece)) → List Piece
  | [], _ => []
  | gap :: _, [] => [gap]
  | gap :: gaps, unit :: units => gap :: unit ++ fill gaps units

/-- The gaps and the units are all there. -/
theorem copies_fill {gaps : List Piece} {units : List (List Piece)}
    (h : gaps.length = units.length + 1) :
    (copies (fill gaps units)).Perm (copies gaps ++ copies units.flatten) := by
  induction units generalizing gaps with
  | nil =>
    obtain ⟨gap, rfl⟩ := List.length_eq_one_iff.mp h
    simp [fill, copies]
  | cons unit rest ih =>
    cases gaps with
    | nil => cases h
    | cons gap gaps =>
      have ih := ih (Nat.succ.inj h)
      have hcons : ∀ qs, copies (gap :: qs) = copies [gap] ++ copies qs :=
        fun qs => copies_append [gap] qs
      have hfill : fill (gap :: gaps) (unit :: rest) = gap :: (unit ++ fill gaps rest) := rfl
      rw [hfill, hcons, hcons gaps, copies_append, List.flatten_cons, copies_append,
        List.append_assoc]
      refine List.Perm.append_left _ ((ih.append_left _).trans ?_)
      exact List.perm_append_comm_assoc _ _ _

theorem puts_gapPieces (stop cursor : Nat) (ms : List Member) :
    puts (gapPieces stop cursor ms) = [] := by
  induction ms generalizing cursor with
  | nil => rfl
  | cons m rest ih => exact ih m.unitStop

/-- What is put in between is put into a gap or into a unit. -/
theorem mem_puts_fill {c : Char} {gaps : List Piece} {units : List (List Piece)}
    (h : c ∈ puts (fill gaps units)) : c ∈ puts gaps ∨ c ∈ puts units.flatten := by
  have hcons : ∀ p qs, puts (p :: qs) = p.separator ++ puts qs := fun _ _ => List.flatMap_cons
  induction gaps generalizing units with
  | nil => exact Or.inl h
  | cons gap gaps ih =>
    cases units with
    | nil =>
      refine Or.inl ?_
      rw [hcons]
      exact List.mem_append_left _ (by simpa [fill, puts] using h)
    | cons unit units =>
      rw [fill, List.cons_append, hcons, puts_append] at h
      rw [hcons, List.flatten_cons, puts_append]
      simp only [List.mem_append] at h ⊢
      rcases h with h | h | h
      · exact Or.inl (Or.inl h)
      · exact Or.inr (Or.inl h)
      · rcases ih h with h | h
        · exact Or.inl (Or.inr h)
        · exact Or.inr (Or.inr h)

/-- The gaps between laid out members and their units cover the interval they are laid out in. -/
theorem covers_region {P : MemberInfo → Prop} {lo hi : Nat} {ms : List Member}
    {rs : List (Nat × Nat)} (hlaid : LaidFrom P t hi lo ms) (h : UnitsCovered ms rs) :
    Covers lo hi (copies (gapPieces hi lo ms) ++ rs) := by
  induction ms generalizing lo rs with
  | nil =>
    obtain rfl : rs = [] := h
    exact .one hlaid
  | cons m rest ih =>
    obtain ⟨h1, h2, h3⟩ := hlaid
    obtain ⟨unit, others, hunit, hothers, hperm⟩ := h
    have hcover := Covers.cons h1 (hunit.append (ih h3 hothers))
    refine hcover.perm ?_
    have hgaps : copies (gapPieces hi lo (m :: rest)) =
        (lo, m.unitStart) :: copies (gapPieces hi m.unitStop rest) := rfl
    rw [hgaps, List.cons_append]
    exact ((List.perm_append_comm_assoc _ _ _).trans (hperm.symm.append_left _)).cons _

end MemberOrder.Layout

/-! ## Dealing members into places -/

namespace MemberOrder.Layout

/-! ## Dealt pieces -/

/-- The pieces of a unit around those of its member, and the range that its separator is cut from.
`site` says where a separator is looked for. -/
inductive DealsUnit (t : Text) (site : MemberInfo → Nat → Prop) (i : MemberInfo)
    (inner : List Piece) : List Piece → Nat × Nat → Prop
  | deal {span unit : Span} {place : Nat} {new : String} (hspan : i.span = some span)
      (hunit : i.unit = some unit) (hsite : site i place) (hplace : span.stop ≤ place)
      (hstop : place + i.separator.length ≤ unit.stop)
      (hcut : t.slice place (place + i.separator.length) = i.separator.toList)
      (hold : Separates i.separator) (hnew : Separates new) :
      DealsUnit t site i inner (.copy unit.start span.start :: inner ++
        [.copy span.stop place, .put new, .copy (place + i.separator.length) unit.stop])
        (place, place + i.separator.length)

mutual

/-- The pieces of a block from members to their rearrangement, and the ranges that separators are cut
from: the block as it is, or its gaps filled with units. -/
inductive DealsBlock (t : Text) (site : MemberInfo → Nat → Prop) :
    (span body : Span) → (ms ms' : List Member) → List Piece → List (Nat × Nat) → Prop
  | kept (span body : Span) (ms : List Member) :
      DealsBlock t site span body ms ms [.copy span.start span.stop] []
  | dealt {span body : Span} {ms mid ms' : List Member} {units : List (List Piece)}
      {cut : List (Nat × Nat)} (hne : ms' ≠ ms) (hperm : ms.Perm mid)
      (hunits : DealsUnits t site mid ms' units cut) :
      DealsBlock t site span body ms ms' (.copy span.start body.start ::
        fill (gapPieces body.stop body.start ms) units ++ [.copy body.stop span.stop]) cut

/-- The pieces of the units of members, one after the other. -/
inductive DealsUnits (t : Text) (site : MemberInfo → Nat → Prop) :
    (ms ms' : List Member) → List (List Piece) → List (Nat × Nat) → Prop
  | nil : DealsUnits t site [] [] [] []
  | cons {m m' : Member} {rest rest' : List Member} {inner unit : List Piece}
      {units : List (List Piece)} {range : Nat × Nat} {cut cuts : List (Nat × Nat)}
      (hm : DealsMember t site m m' inner cut) (hunit : DealsUnit t site m.info inner unit range)
      (hrest : DealsUnits t site rest rest' units cuts) :
      DealsUnits t site (m :: rest) (m' :: rest') (unit :: units) (range :: cut ++ cuts)

/-- The pieces of a member without its comments and its separator. -/
inductive DealsMember (t : Text) (site : MemberInfo → Nat → Prop) :
    (m m' : Member) → List Piece → List (Nat × Nat) → Prop
  | leaf {i : MemberInfo} {span : Span} (hspan : i.span = some span) :
      DealsMember t site (.leaf i) (.leaf i) [.copy span.start span.stop] []
  | group {i : MemberInfo} {span body : Span} {children children' : List Member}
      {inner : List Piece} {cut : List (Nat × Nat)} (hspan : i.span = some span)
      (hbody : i.body = some body) (h : DealsBlock t site span body children children' inner cut) :
      DealsMember t site (.group i children) (.group i children') inner cut

end

theorem DealsUnits.length_eq {t : Text} {site : MemberInfo → Nat → Prop} {ms ms' : List Member}
    {units : List (List Piece)} {cut : List (Nat × Nat)} (h : DealsUnits t site ms ms' units cut) :
    units.length = ms.length := by
  induction ms generalizing ms' units cut with
  | nil =>
    cases h
    rfl
  | cons m rest ih =>
    cases h with
    | cons _ _ hrest => simp [ih hrest]

/-! ## Every offset once -/

section Covers

variable {P : MemberInfo → Prop} {t : Text} {site : MemberInfo → Nat → Prop}

/-- The pieces of a unit and its separator cover the unit. -/
theorem DealsUnit.covers {i : MemberInfo} {span unit : Span} {inner ps : List Piece}
    {range : Nat × Nat} {cut : List (Nat × Nat)} (h : DealsUnit t site i inner ps range)
    (hplaced : Placed t i span unit) (hinner : Covers span.start span.stop (copies inner ++ cut)) :
    Covers unit.start unit.stop (copies ps ++ range :: cut) := by
  cases h with
  | @deal span' unit' place new hspan hunit _ hplace hstop _ _ _ =>
    obtain rfl : span = span' := Option.some.inj (hplaced.span_eq.symm.trans hspan)
    obtain rfl : unit = unit' := Option.some.inj (hplaced.unit_eq.symm.trans hunit)
    have hcover := Covers.cons hplaced.leads (hinner.append (Covers.cons hplace
      (Covers.cons (Nat.le_add_right place i.separator.length) (Covers.one hstop))))
    refine hcover.perm ?_
    have hcopies : copies (.copy unit.start span.start :: inner ++ [.copy span.stop place, .put new,
        .copy (place + i.separator.length) unit.stop]) = (unit.start, span.start) :: (copies inner ++
          [(span.stop, place), (place + i.separator.length, unit.stop)]) := by
      rw [copies_append]
      rfl
    rw [hcopies, List.cons_append]
    refine List.Perm.cons _ ?_
    rw [List.append_assoc, List.append_assoc]
    refine List.Perm.append_left _ (List.perm_append_comm.trans (List.Perm.cons _ ?_))
    exact (List.Perm.swap _ _ _).trans (List.Perm.refl _)

mutual

theorem DealsMember.covers {m m' : Member} {inner : List Piece} {cut : List (Nat × Nat)}
    (h : DealsMember t site m m' inner cut) (hlaid : m.LaidOut P t) :
    ∃ span unit, Placed t m.info span unit ∧ Covers span.start span.stop (copies inner ++ cut) := by
  match h with
  | .leaf hspan =>
    rename_i i span
    obtain ⟨-, span', unit, hp⟩ := hlaid
    obtain rfl : span = span' := Option.some.inj (hspan.symm.trans hp.span_eq)
    exact ⟨span, unit, hp, .one (Nat.le_of_lt hp.nonempty)⟩
  | .group hspan hbody h =>
    rename_i i span body children children'
    obtain ⟨unit, hp, h1, h2, h3⟩ := hlaid.children hspan hbody
    exact ⟨span, unit, hp, h.covers h1 h2 (Nat.le_of_lt hp.nonempty) h3⟩

/-- The pieces of a block and the separators that were cut cover its span. -/
theorem DealsBlock.covers {span body : Span} {ms ms' : List Member} {ps : List Piece}
    {cut : List (Nat × Nat)} (h : DealsBlock t site span body ms ms' ps cut)
    (hstart : span.start ≤ body.start) (hstop : body.stop ≤ span.stop)
    (hle : span.start ≤ span.stop) (hlaid : LaidFrom P t body.stop body.start ms) :
    Covers span.start span.stop (copies ps ++ cut) := by
  match h with
  | .kept _ _ _ => exact .one hle
  | .dealt hne hperm hunits =>
    rename_i mid units
    have hcovered := (hunits.covered fun m hm => (hlaid.of_mem (hperm.mem_iff.mpr hm)).1).of_perm
      hperm.symm
    have hregion := covers_region hlaid hcovered
    have hlength : (gapPieces body.stop body.start ms).length = units.length + 1 := by
      rw [length_gapPieces, hunits.length_eq, hperm.length_eq]
    refine (Covers.cons hstart (hregion.append (.one hstop))).perm ?_
    have hcopies : copies (.copy span.start body.start ::
        fill (gapPieces body.stop body.start ms) units ++ [.copy body.stop span.stop]) =
        (span.start, body.start) :: (copies (fill (gapPieces body.stop body.start ms) units) ++
          [(body.stop, span.stop)]) := by
      rw [copies_append]
      rfl
    rw [hcopies, List.cons_append]
    refine List.Perm.cons _ ?_
    rw [← List.append_assoc, List.append_assoc _ cut, List.append_assoc _ _ cut]
    refine ((copies_fill hlength).symm.append_right _).trans ?_
    exact List.Perm.append_left _ List.perm_append_comm

theorem DealsUnits.covered {ms ms' : List Member} {units : List (List Piece)}
    {cut : List (Nat × Nat)} (h : DealsUnits t site ms ms' units cut)
    (hlaid : ∀ m ∈ ms, m.LaidOut P t) : UnitsCovered ms (copies units.flatten ++ cut) := by
  match h with
  | .nil => rfl
  | .cons hm hunit hrest =>
    rename_i m m' rest rest' inner unit units range cut cuts
    obtain ⟨span, u, hp, hinner⟩ := hm.covers (hlaid m List.mem_cons_self)
    have hcover := hunit.covers hp hinner
    have hrest := hrest.covered fun m hm => hlaid m (List.mem_cons_of_mem _ hm)
    rw [← hp.unitStart_eq, ← hp.unitStop_eq] at hcover
    refine ⟨_, _, hcover, hrest, ?_⟩
    rw [List.flatten_cons, copies_append, List.append_assoc, List.append_assoc]
    exact List.Perm.append_left _ (List.perm_append_comm_assoc _ (range :: cut) cuts)

end

end Covers

/-! ## Only separators change -/

/-- Nothing but commas and semicolons. -/
def OnlySeparators (cs : List Char) : Prop := ∀ c ∈ cs, c = ',' ∨ c = ';'

theorem onlySeparators_nil : OnlySeparators [] := fun _ h => absurd h List.not_mem_nil

theorem OnlySeparators.append {cs ds : List Char} (h : OnlySeparators cs) (h' : OnlySeparators ds) :
    OnlySeparators (cs ++ ds) := by
  intro c hc
  rcases List.mem_append.mp hc with hc | hc
  · exact h c hc
  · exact h' c hc

theorem Separates.onlySeparators {s : String} (h : Separates s) : OnlySeparators s.toList := by
  rcases h with rfl | rfl | rfl
  · exact onlySeparators_nil
  · exact fun c hc => Or.inl (List.mem_singleton.mp hc)
  · exact fun c hc => Or.inr (List.mem_singleton.mp hc)

section OnlySeparators

variable {t : Text} {site : MemberInfo → Nat → Prop}

/-- Of a unit one separator is put in and one is cut. -/
theorem DealsUnit.onlySeparators {i : MemberInfo} {inner ps : List Piece} {range : Nat × Nat}
    (h : DealsUnit t site i inner ps range) (hinner : OnlySeparators (puts inner)) :
    OnlySeparators (puts ps) ∧ OnlySeparators (t.slice range.1 range.2) := by
  cases h with
  | deal hspan hunit _ _ _ hcut hold hnew =>
    constructor
    · have hputs : ∀ (a b : Nat) (qs : List Piece), puts (.copy a b :: qs) = puts qs := fun _ _ _ => rfl
      rw [puts_append, hputs]
      refine hinner.append ?_
      simpa [puts, Piece.separator] using hnew.onlySeparators
    · rw [hcut]
      exact hold.onlySeparators

mutual

theorem DealsMember.onlySeparators {m m' : Member} {inner : List Piece} {cut : List (Nat × Nat)}
    (h : DealsMember t site m m' inner cut) :
    OnlySeparators (puts inner) ∧ OnlySeparators (shown t cut) := by
  match h with
  | .leaf _ => exact ⟨onlySeparators_nil, onlySeparators_nil⟩
  | .group _ _ h => exact h.onlySeparators

/-- All that dealing a block puts in and cuts are separators. -/
theorem DealsBlock.onlySeparators {span body : Span} {ms ms' : List Member} {ps : List Piece}
    {cut : List (Nat × Nat)} (h : DealsBlock t site span body ms ms' ps cut) :
    OnlySeparators (puts ps) ∧ OnlySeparators (shown t cut) := by
  match h with
  | .kept _ _ _ => exact ⟨onlySeparators_nil, onlySeparators_nil⟩
  | .dealt _ _ hunits =>
    obtain ⟨hputs, hcut⟩ := hunits.onlySeparators
    refine ⟨?_, hcut⟩
    rw [puts_append]
    refine OnlySeparators.append (fun c hc => ?_) onlySeparators_nil
    rcases mem_puts_fill hc with hc | hc
    · rw [puts_gapPieces] at hc
      cases hc
    · exact hputs c hc

theorem DealsUnits.onlySeparators {ms ms' : List Member} {units : List (List Piece)}
    {cut : List (Nat × Nat)} (h : DealsUnits t site ms ms' units cut) :
    OnlySeparators (puts units.flatten) ∧ OnlySeparators (shown t cut) := by
  match h with
  | .nil => exact ⟨onlySeparators_nil, onlySeparators_nil⟩
  | .cons hm hunit hrest =>
    obtain ⟨hinner, hcut⟩ := hm.onlySeparators
    obtain ⟨hputs, hrange⟩ := hunit.onlySeparators hinner
    obtain ⟨hputs', hcut'⟩ := hrest.onlySeparators
    rw [List.flatten_cons, puts_append, shown_append]
    exact ⟨hputs.append hputs', (hrange.append hcut).append hcut'⟩

end

end OnlySeparators

end MemberOrder.Layout
