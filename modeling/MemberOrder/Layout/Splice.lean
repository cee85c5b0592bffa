/-
  Splicing: entities written over their spans. Spans are taken from the end of the text
  backwards, so that earlier offsets stay valid, and a span that overlaps one already
  written is left alone.
-/
import MemberOrder.Model.Entity
import MemberOrder.Order.StableSort

namespace MemberOrder.Layout

variable {ε : Type}

/-- Entities with spans, those that start last first; of those that start together the
first listed comes first. -/
def backwards (entities : List Entity) : List (Entity × Span) :=
  let placed := entities.filterMap fun e => e.span.map (e, ·)
  Order.stableSort (fun a b => b.2.start ≤ a.2.start) placed

/-- The sorted entity with a key; of several the last. -/
def twin? (sorted : List Entity) (key : EntityKey) : Option Entity :=
  sorted.reverse.find? (·.key == key)

/-- Writes the text of the sorted twins over the spans that end no later than `floor`. -/
def spliceFrom (sorted : List Entity) (render : Entity → Except ε String)
    (failure : Entity → ε → String) :
    (floor : Nat) → (text : List Char) → List (Entity × Span) → List Char
  | _, text, [] => text
  | floor, text, (e, span) :: rest =>
    if floor < span.stop then spliceFrom sorted render failure floor text rest
    else
      match twin? sorted e.key with
      | none => spliceFrom sorted render failure floor text rest
      | some twin =>
        let replacement := match render twin with
          | .ok s => s
          | .error err => failure e err
        spliceFrom sorted render failure span.start
          (text.take span.start ++ replacement.toList ++ text.drop span.stop) rest

/-- Writes sorted entities over their spans in a text. An entity that cannot be written
is replaced by a text about the failure. -/
def splice (text : List Char) (entities sorted : List Entity)
    (render : Entity → Except ε String) (failure : Entity → ε → String) : List Char :=
  spliceFrom sorted render failure (text.length + 1) text (backwards entities)

end MemberOrder.Layout
