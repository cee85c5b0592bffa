/-
  The code of a member that is typed anew.

  A record holds a name, a value, and what else its language prints. Where these parts can be read, as no
  literal is open in front of them and none goes on behind them (`Legible`), the member keeps its code in
  every layout, except for a property of a script that has modifiers or a definite mark: no record holds
  these (`retype_keeps_packedCode`, `retype_drops_modifier`).
-/
import MemberOrder.Proofs.Json.Keys
import MemberOrder.Proofs.Script.Properties
import MemberOrder.Proofs.Struct.Fields
import MemberOrder.Proofs.Style.Declarations

namespace MemberOrder.Layout

/-- The comments and literals of a file type. Those of YAML are not modelled as lexemes. -/
def profileOf (fileType : FileType) : Profile :=
  match fileType.language with
  | .typescript => .typescript
  | .css => Style.profileOf fileType
  | .go => .go
  | .json | .yaml => .json

/-- The parts of a member can be read: where it is typed anew, no literal is open at its start and none
goes on behind its parts, and what stands between them is dropped only if it is white space. -/
def Legible (fileType : FileType) (t : Text) (i : MemberInfo) : Prop :=
  match fileType.language with
  | .typescript => Script.Legible t i
  | .css => fileType = .sass → i.value.isTruthy = true → Style.Spaced i
  | .go => Struct.Legible t i
  | .json => Json.Legible i
  | .yaml => True

/-- The parts of a member that are typed are all it has: it is no property of a script with modifiers or
with a definite mark. -/
def TypedInFull (fileType : FileType) (t : Text) (i : MemberInfo) : Prop :=
  fileType.language = .typescript → Rules.isPlain i = true → ∀ span, i.span = some span →
    Script.isUnmarked (Scanned.scan .typescript t) span.start span.stop = true

/-- The members of a source, at every depth, keep their code in every layout exactly if the parts that are
typed are all they have. -/
theorem retype_keeps_packedCode {fileType : FileType} (hlanguage : fileType.language ≠ .yaml) {t : Text}
    {e : Entity} (he : e ∈ (readSource fileType t).entities) {outer : Option Span} {ms : List Member}
    (hms : e.Lists outer ms) {m : Member} (hm : m ∈ ms) (hlegible : Legible fileType t m.info)
    (o : Options) (width : Nat) :
    packedCode (profileOf fileType) ((Rules.ofFileType fileType).retype o m width).toList =
        packedCode (profileOf fileType) m.info.fullText.toList ↔
      TypedInFull fileType t m.info := by
  have hself {P : Member → Prop} (h : EachThroughout P e.members) : P m :=
    (eachThroughout_iff.mp (hms.throughout h) m hm).self
  unfold TypedInFull
  unfold Legible at hlegible
  unfold readSource at he
  unfold profileOf Rules.ofFileType
  cases hl : fileType.language with
  | typescript =>
    rw [hl] at he hlegible
    have hheld := hself (Script.read_held fileType t e he)
    rw [Script.retype_keeps_code hheld hlegible o width]
    exact ⟨fun h _ => h, fun h => h rfl⟩
  | css =>
    rw [hl] at he hlegible
    have hheld := hself (Style.read_held fileType t e he)
    exact iff_of_true (Style.retype_keeps_code fileType t hheld hlegible o width) nofun
  | go =>
    rw [hl] at he hlegible
    have hheld := hself (Struct.read_held fileType t e he)
    exact iff_of_true (Struct.retype_keeps_code hheld hlegible o width) nofun
  | json =>
    rw [hl] at he hlegible
    have hheld := hself (Json.read_held fileType t e he)
    exact iff_of_true (Json.retype_keeps_code hheld hlegible o width) nofun
  | yaml => exact absurd hl hlanguage

/-- A layout with narrow gaps after the colons. -/
def narrowColons : Options := { propertySpacing := some .compact }

/-- An optional member with a gap after its mark. -/
def gapAfterMark : String := "interface A \x7b b?  : string; a: number \x7d"

/-- What is read of it, and typed anew: no literal is open where it starts, and no modifier goes before
it. -/
theorem gapAfterMark_read :
    ∃ e ∈ (readSource .typescript (Text.ofString gapAfterMark)).entities, ∃ m ∈ e.members,
      m.info.fullText = "b?  : string" ∧ Rules.script.retype narrowColons m 0 = "b?: string" ∧
      m.info.name = "b" ∧ m.info.span = some ⟨14, 26, 1, 1⟩ ∧
      (∀ l ∈ Lexeme.lexemes .typescript (Text.ofString gapAfterMark), l.kind = .literal →
        ¬(l.start < 14 ∧ 14 < l.stop)) ∧
      Script.isUnmarked (Scanned.scan .typescript (Text.ofString gapAfterMark)) 14 26 = true := by
  decide +kernel

/-- The gap goes, and the code stays. -/
theorem retype_keeps_packedCode_gapAfterMark :
    ∃ e ∈ (readSource .typescript (Text.ofString gapAfterMark)).entities, ∃ m ∈ e.members,
      m.info.fullText = "b?  : string" ∧ Rules.script.retype narrowColons m 0 = "b?: string" ∧
      packedCode .typescript (Rules.script.retype narrowColons m 0).toList =
        packedCode .typescript m.info.fullText.toList := by
  obtain ⟨e, he, m, hm, htext, hretyped, hname, hspan, hboundary, hunmarked⟩ := gapAfterMark_read
  have hlegible : Legible .typescript (Text.ofString gapAfterMark) m.info := by
    refine fun _ => ⟨fun span hs => ?_, fun hquoted => ?_⟩
    · rw [hspan, Option.some.injEq] at hs
      exact hs ▸ hboundary
    · rw [hname, Script.Quoted] at hquoted
      exact absurd hquoted (by decide)
  have hfull : TypedInFull .typescript (Text.ofString gapAfterMark) m.info := by
    intro _ _ span hs
    rw [hspan, Option.some.injEq] at hs
    exact hs ▸ hunmarked
  exact ⟨e, he, m, hm, htext, hretyped,
    (retype_keeps_packedCode (by decide) he .top hm hlegible narrowColons 0).mpr hfull⟩

/-- A member that cannot be assigned to. -/
def readonlyMember : String := "interface A \x7b readonly b: string; a: number \x7d"

/-- Typed anew it can be: its modifier is gone. -/
theorem retype_drops_modifier :
    ∃ e ∈ (readSource .typescript (Text.ofString readonlyMember)).entities, ∃ m ∈ e.members,
      m.children? = none ∧ m.info.fullText = "readonly b: string" ∧
      Rules.script.retype narrowColons m 0 = "b: string" ∧
      packedCode .typescript (Rules.script.retype narrowColons m 0).toList ≠
        packedCode .typescript m.info.fullText.toList := by
  decide +kernel

end MemberOrder.Layout
