/-
  Everything that is read from a scanned source has its place.

  The readers of the scanned languages each show that their entities form a chain of laid out
  entities (`Script.read_chain`, `Style.read_chain`, `Struct.read_chain`, `Json.read_chain`). Here the
  chains are put together (`readSource_chain`) and read off as what they say of the spans: entities
  come one after the other, and so do the units of every member list, however deep it is nested, each
  inside the span around its list (`readSource_spans`). YAML documents are read by their lines and
  have no part in this.

  What holds of every record that a reader makes holds of the members of every list that is nested in
  them (`Entity.Lists.throughout`).
-/
import MemberOrder.Process
import MemberOrder.Proofs.Placement.Json
import MemberOrder.Proofs.Placement.Script
import MemberOrder.Proofs.Placement.Struct
import MemberOrder.Proofs.Placement.Style

namespace MemberOrder

theorem SeparatorPlaced.stands {t : Text} {i : MemberInfo} (h : SeparatorPlaced t i) :
    SeparatorStands t i := by
  rcases h with h | ⟨c, place, h, -⟩
  · exact Or.inl h
  · exact Or.inr ⟨c, place, h⟩

theorem Chain.untended {Q : Text → MemberInfo → Prop} {p : Profile} {t : Text} {a b : Nat}
    {es : List Entity} (h : Chain (Entity.LaidOut (Loose (Tended Q p) t) t) a b es) :
    Chain (Entity.LaidOut (Loose Q t) t) a b es :=
  h.imp fun _ _ _ he => he.imp fun _ h => h.imp_left And.left

/-- Outside of structs, the first separator after a member that no comment covers is its own. -/
theorem readSource_chain_placed {fileType : FileType} (hyaml : fileType.language ≠ .yaml)
    (hgo : fileType.language ≠ .go) (t : Text) :
    Chain (Entity.LaidOut (Loose SeparatorPlaced t) t) 0 t.size (readSource fileType t).entities := by
  unfold readSource
  split
  · exact (Script.read_chain fileType t).untended
  · exact Style.read_chain fileType t
  · exact absurd ‹_› hgo
  · exact (Json.read_chain fileType t).untended
  · exact absurd ‹_› hyaml

/-- The entities of a scanned source follow each other, and none of them nor of their members is cut
out of the source through a line break. -/
theorem readSource_chain_loose {fileType : FileType} (hyaml : fileType.language ≠ .yaml) (t : Text) :
    Chain (Entity.LaidOut (Loose SeparatorStands t) t) 0 t.size (readSource fileType t).entities := by
  by_cases hgo : fileType.language = .go
  · unfold readSource
    rw [hgo]
    exact (Struct.read_chain fileType t).untended.imp fun _ _ _ he =>
      he.imp fun _ h => h.imp_left SeparatorAhead.stands
  · exact (readSource_chain_placed hyaml hgo t).imp fun _ _ _ he =>
      he.imp fun _ h => h.imp_left SeparatorPlaced.stands

theorem readSource_chain {fileType : FileType} (hyaml : fileType.language ≠ .yaml) (t : Text) :
    Chain (Entity.LaidOut (SeparatorStands t) t) 0 t.size (readSource fileType t).entities :=
  (readSource_chain_loose hyaml t).imp fun _ _ _ he => he.imp fun _ => And.left

/-! ## Member lists -/

/-- The member lists of an entity, each with the span around it: that of the entity, or that of the
member whose children they are. -/
inductive Entity.Lists (e : Entity) : Option Span → List Member → Prop
  | top : e.Lists e.span e.members
  | nested {outer : Option Span} {ms children : List Member} {i : MemberInfo}
      (h : e.Lists outer ms) (hi : .group i children ∈ ms) : e.Lists i.span children

variable {P : MemberInfo → Prop} {t : Text}

/-- Every member list of an entity is laid out inside the span around it. -/
theorem Entity.LaidOut.lists {e : Entity} {a b : Nat} (h : e.LaidOut P t a b) {outer : Option Span}
    {ms : List Member} (hms : e.Lists outer ms) :
    ∃ o lo hi, outer = some o ∧ o.start ≤ lo ∧ hi ≤ o.stop ∧ LaidFrom P t hi lo ms := by
  induction hms with
  | top =>
    obtain ⟨span, hspan, rfl, rfl⟩ := h.span_eq
    obtain ⟨body, -, h1, h2, h3⟩ := h.members
    exact ⟨span, body.start, body.stop, hspan, h1, h2, h3⟩
  | nested _ hi ih =>
    obtain ⟨o, lo, hi', -, -, -, hlaid⟩ := ih
    obtain ⟨-, span, unit, body, hplaced, -, h1, h2, h3⟩ := (hlaid.of_mem hi).1
    exact ⟨span, body.start, body.stop, hplaced.span_eq, h1, h2, h3⟩

/-- A member of a list has its span in its unit and its unit in the span around the list, and its
text is what its span covers. -/
def Member.Within (t : Text) (outer : Option Span) (m : Member) : Prop :=
  ∃ o unit span, outer = some o ∧ m.info.unit = some unit ∧ m.info.span = some span ∧
    o.contains unit ∧ unit.contains span ∧ m.info.fullText = span.text t

theorem LaidFrom.within {lo hi : Nat} {ms : List Member} (h : LaidFrom P t hi lo ms) {o : Span}
    (hlo : o.start ≤ lo) (hhi : hi ≤ o.stop) {m : Member} (hm : m ∈ ms) :
    m.Within t (some o) := by
  obtain ⟨hlaid, h1, h2⟩ := h.of_mem hm
  obtain ⟨-, span, unit, hp⟩ := hlaid.placed
  rw [hp.unitStart_eq] at h1
  rw [hp.unitStop_eq] at h2
  refine ⟨o, unit, span, rfl, hp.unit_eq, hp.span_eq, ?_, ?_, hp.text⟩
  · simp only [Span.contains, Bool.and_eq_true, decide_eq_true_eq]
    omega
  · simp only [Span.contains, Bool.and_eq_true, decide_eq_true_eq]
    exact ⟨hp.leads, hp.follows⟩

/-! ## Spans -/

/-- Entities of a source, well formed or not, lie one after the other inside it, and cover their
texts. In every member list of an entity the units lie one after the other, each around the span of
its member and inside the span around the list. -/
theorem readSource_spans (fileType : FileType) (h : fileType.language ≠ .yaml) (t : Text) :
    (∀ e ∈ (readSource fileType t).entities, ∃ span, e.span = some span ∧
      span.start < span.stop ∧ span.stop ≤ t.size ∧ e.sourceText = span.text t) ∧
    (readSource fileType t).entities.Pairwise (fun a b => ∃ s s', a.span = some s ∧
      b.span = some s' ∧ s.stop ≤ s'.start) ∧
    ∀ e ∈ (readSource fileType t).entities, ∀ outer ms, e.Lists outer ms →
      ms.Pairwise (fun a b => a.unitStart < a.unitStop ∧ a.unitStop ≤ b.unitStart) ∧
        ∀ m ∈ ms, m.Within t outer := by
  have hchain := readSource_chain h t
  have hle : ∀ (e : Entity) (i j : Nat), e.LaidOut (SeparatorStands t) t i j → i ≤ j :=
    fun _ _ _ he => he.le
  refine ⟨fun e he => ?_, ?_, fun e he outer ms hms => ?_⟩
  · obtain ⟨i, j, hlaid, -, hj⟩ := hchain.of_mem hle he
    obtain ⟨span, hspan, rfl, rfl⟩ := hlaid.span_eq
    exact ⟨span, hspan, hlaid.nonempty, hj, hlaid.text⟩
  · refine (hchain.pairwise hle).imp ?_
    rintro a b ⟨i, j, k, l, ha, hb, hjk⟩
    obtain ⟨s, hs, -, rfl⟩ := ha.span_eq
    obtain ⟨s', hs', rfl, -⟩ := hb.span_eq
    exact ⟨s, s', hs, hs', hjk⟩
  · obtain ⟨i, j, hlaid, -, -⟩ := hchain.of_mem hle he
    obtain ⟨o, lo, hi, rfl, hlo, hhi, hfrom⟩ := hlaid.lists hms
    refine ⟨?_, fun m hm => hfrom.within hlo hhi hm⟩
    exact hfrom.pairwise.imp_of_mem fun ha _ hab => ⟨(hfrom.of_mem ha).1.unit_lt, hab⟩

/-- An entity whose block is not closed has no place, and what comes before it has one. -/
theorem readSource_spans_unclosed :
    (readSource .scss (Text.ofString "a\x7bb:1\x7dc\x7b")).entities.length = 1 ∧
      ∀ e ∈ (readSource .scss (Text.ofString "a\x7bb:1\x7dc\x7b")).entities, ∃ span, e.span = some span ∧
        span.start < span.stop ∧ span.stop ≤ (Text.ofString "a\x7bb:1\x7dc\x7b").size ∧
        e.sourceText = span.text (Text.ofString "a\x7bb:1\x7dc\x7b") :=
  ⟨by decide, (readSource_spans .scss (by decide) _).1⟩

end MemberOrder

namespace MemberOrder

/-! ## At every depth -/

mutual

/-- A property holds of a member and of its children, at every depth. -/
def Member.Throughout (P : Member → Prop) : Member → Prop
  | .leaf i => P (.leaf i)
  | .group i children => P (.group i children) ∧ EachThroughout P children

/-- A property holds of members and of their children, at every depth. -/
def EachThroughout (P : Member → Prop) : List Member → Prop
  | [] => True
  | m :: rest => m.Throughout P ∧ EachThroughout P rest

end

variable {P Q : Member → Prop}

theorem eachThroughout_iff {ms : List Member} : EachThroughout P ms ↔ ∀ m ∈ ms, m.Throughout P := by
  induction ms with
  | nil => simp [EachThroughout]
  | cons m rest ih => rw [EachThroughout, ih, List.forall_mem_cons]

theorem Member.Throughout.self {m : Member} (h : m.Throughout P) : P m := by
  cases m with
  | leaf i => exact h
  | group i children => exact h.1

mutual

theorem Member.Throughout.imp (hPQ : ∀ m, P m → Q m) {m : Member} (h : m.Throughout P) :
    m.Throughout Q := by
  cases m with
  | leaf i => exact hPQ _ h
  | group i children => exact ⟨hPQ _ h.1, EachThroughout.imp hPQ h.2⟩

theorem EachThroughout.imp (hPQ : ∀ m, P m → Q m) {ms : List Member} (h : EachThroughout P ms) :
    EachThroughout Q ms := by
  cases ms with
  | nil => exact h
  | cons m rest => exact ⟨h.1.imp hPQ, EachThroughout.imp hPQ h.2⟩

end

theorem Member.span_mapInfo {f : MemberInfo → MemberInfo} (hf : ∀ i, (f i).span = i.span) (m : Member) :
    (m.mapInfo f).info.span = m.info.span := by
  cases m <;> exact hf _

/-- What a change keeps of a member it keeps throughout, as it leaves the children alone. -/
theorem Member.Throughout.mapInfo {f : MemberInfo → MemberInfo} (hf : ∀ m, P m → P (m.mapInfo f))
    {m : Member} (h : m.Throughout P) : (m.mapInfo f).Throughout P := by
  cases m with
  | leaf i => exact hf _ h
  | group i children => exact ⟨hf _ h.1, h.2⟩

/-- What holds throughout the members of an entity holds of the members of its lists. -/
theorem Entity.Lists.throughout {e : Entity} (he : EachThroughout P e.members) {outer : Option Span}
    {ms : List Member} (h : e.Lists outer ms) : EachThroughout P ms := by
  induction h with
  | top => exact he
  | nested _ hi ih => exact (eachThroughout_iff.mp ih _ hi).2

/-- A member was read from a source in a language, at some depth. -/
def Member.ReadFrom (language : Language) (m : Member) : Prop :=
  ∃ fileType t, fileType.language = language ∧
    ∃ e ∈ (readSource fileType t).entities, ∃ outer ms, e.Lists outer ms ∧ m ∈ ms

/-- A record without its unit, what comments it has, and its block. -/
def MemberInfo.bare (i : MemberInfo) : MemberInfo :=
  { i with
    comments := [], trailingComments := [], trailingText := "", unit := none, dangling := []
    hasNestedObject := false, container := .none, nestedInline := false, body := none }

end MemberOrder
