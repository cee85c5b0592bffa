/-
  What it means for members and entities to have their places in a source.

  A member is `Placed` when its unit contains its span and its text is what the span covers.
  Members are `LaidFrom lo hi` when their units follow each other between two offsets, and the
  units of the children of each lie in the body inside its span, at every depth. `P` is what is
  known of each member besides: where its separator stands, and that no line break is cut where it is
  taken out of the source (`Loose`). Entities form a `Chain` in the same way.
-/
import MemberOrder.Model.Entity
import MemberOrder.Proofs.Source.Breaks

namespace MemberOrder

/-! ## Chains -/

/-- Things one after the other between two offsets, where `R x i j` says that `x` goes from `i`
to `j`. -/
inductive Chain {α : Type} (R : α → Nat → Nat → Prop) : Nat → Nat → List α → Prop
  | nil {a b : Nat} (h : a ≤ b) : Chain R a b []
  | cons {a i j b : Nat} {x : α} {rest : List α} (ha : a ≤ i) (hx : R x i j)
      (h : Chain R j b rest) : Chain R a b (x :: rest)

namespace Chain

variable {α : Type} {R : α → Nat → Nat → Prop} {a b c : Nat} {xs ys : List α}

theorem weaken {a' b' : Nat} (h : Chain R a b xs) (ha : a' ≤ a) (hb : b ≤ b') :
    Chain R a' b' xs := by
  induction h generalizing a' with
  | nil h => exact .nil (by omega)
  | cons hi hx _ ih => exact .cons (by omega) hx (ih (Nat.le_refl _) hb)

theorem append (h : Chain R a b xs) (h' : Chain R b c ys) : Chain R a c (xs ++ ys) := by
  induction h with
  | nil h => exact h'.weaken h (Nat.le_refl c)
  | cons hi hx _ ih => exact .cons hi hx (ih h')

theorem snoc {i j : Nat} {x : α} (h : Chain R a b xs) (hi : b ≤ i) (hx : R x i j) :
    Chain R a j (xs ++ [x]) :=
  h.append (.cons hi hx (.nil (Nat.le_refl j)))

theorem le (hR : ∀ x i j, R x i j → i ≤ j) (h : Chain R a b xs) : a ≤ b := by
  induction h with
  | nil h => exact h
  | cons hi hx _ ih =>
    have := hR _ _ _ hx
    omega

theorem of_mem (hR : ∀ x i j, R x i j → i ≤ j) (h : Chain R a b xs) {x : α} (hx : x ∈ xs) :
    ∃ i j, R x i j ∧ a ≤ i ∧ j ≤ b := by
  induction h with
  | nil => cases hx
  | cons hi hy hrest ih =>
    have hle := hR _ _ _ hy
    rcases List.mem_cons.mp hx with rfl | hx
    · exact ⟨_, _, hy, hi, hrest.le hR⟩
    · obtain ⟨i, j, h1, h2, h3⟩ := ih hx
      exact ⟨i, j, h1, by omega, h3⟩

theorem imp {S : α → Nat → Nat → Prop} (hRS : ∀ x i j, R x i j → S x i j) (h : Chain R a b xs) :
    Chain S a b xs := by
  induction h with
  | nil h => exact .nil h
  | cons hi hx _ ih => exact .cons hi (hRS _ _ _ hx) ih

/-- A chain of the images of things, along a map of offsets. -/
theorem map {β : Type} {S : β → Nat → Nat → Prop} {f : α → β} {g : Nat → Nat}
    (hg : ∀ {i j : Nat}, i ≤ j → g i ≤ g j) (hRS : ∀ x i j, R x i j → S (f x) (g i) (g j))
    (h : Chain R a b xs) : Chain S (g a) (g b) (xs.map f) := by
  induction h with
  | nil h => exact .nil (hg h)
  | cons hi hx _ ih => exact .cons (hg hi) (hRS _ _ _ hx) ih

/-- Of two things in a chain the first ends before the second starts. -/
theorem pairwise (hR : ∀ x i j, R x i j → i ≤ j) (h : Chain R a b xs) :
    xs.Pairwise fun x y => ∃ i j k l, R x i j ∧ R y k l ∧ j ≤ k := by
  induction h with
  | nil => exact .nil
  | cons hi hx hrest ih =>
    refine .cons (fun y hy => ?_) ih
    obtain ⟨k, l, hy, hk, -⟩ := hrest.of_mem hR hy
    exact ⟨_, _, k, l, hx, hy, hk⟩

/-- A chain ends where its last thing ends. -/
theorem upTo_last (h : Chain R a b xs) {x : α} (hx : xs.getLast? = some x) :
    ∃ i j, R x i j ∧ j ≤ b ∧ Chain R a j xs := by
  induction h with
  | nil => cases hx
  | cons hi hy hrest ih =>
    rename_i rest
    cases rest with
    | nil =>
      rw [List.getLast?_singleton, Option.some.injEq] at hx
      subst hx
      cases hrest with
      | nil hle => exact ⟨_, _, hy, hle, .cons hi hy (.nil (Nat.le_refl _))⟩
    | cons z more =>
      rw [List.getLast?_cons_cons] at hx
      obtain ⟨i, j, h1, h2, h3⟩ := ih hx
      exact ⟨i, j, h1, h2, .cons hi hy h3⟩

end Chain

/-! ## Members -/

/-- A member has its place in a source: its unit contains its span, which is not empty, and its
text is what the span covers. -/
structure Placed (t : Text) (i : MemberInfo) (span unit : Span) : Prop where
  span_eq : i.span = some span
  unit_eq : i.unit = some unit
  leads : unit.start ≤ span.start
  nonempty : span.start < span.stop
  follows : span.stop ≤ unit.stop
  text : i.fullText = t.cut span.start span.stop

/-- A separator is a comma or a semicolon in the unit after the member, in none of its trailing
comments. -/
def SeparatorAt (t : Text) (i : MemberInfo) (c : Char) (place : Nat) : Prop :=
  (c = ',' ∨ c = ';') ∧ i.separator = String.singleton c ∧ t[place]? = some c ∧
    (∃ span unit, i.span = some span ∧ i.unit = some unit ∧ span.stop ≤ place ∧
      place < unit.stop) ∧
    ∀ k ∈ i.trailingComments, ¬(k.offset ≤ place ∧ place < k.stop)

/-- A member has no separator, or its separator stands in its unit. -/
def SeparatorStands (t : Text) (i : MemberInfo) : Prop :=
  i.separator = "" ∨ ∃ c place, SeparatorAt t i c place

/-- Moreover, nothing but white space and trailing comments stands before the separator. -/
def SeparatorPlaced (t : Text) (i : MemberInfo) : Prop :=
  i.separator = "" ∨ ∃ c place, SeparatorAt t i c place ∧
    ∀ span, i.span = some span → ∀ x, span.stop ≤ x → x < place →
      t.testAt x Text.isSpace = true ∨ ∃ k ∈ i.trailingComments, k.offset ≤ x ∧ x < k.stop

/-- No line break is cut where the unit of a member starts and ends, nor where its span ends. -/
structure Severable (t : Text) (i : MemberInfo) : Prop where
  start : ∀ unit, i.unit = some unit → Cuttable t unit.start
  stop : ∀ unit, i.unit = some unit → Cuttable t unit.stop
  spanStop : ∀ span, i.span = some span → Cuttable t span.stop

theorem Severable.of_eq {t : Text} {i : MemberInfo} {span unit : Span} (hspan : i.span = some span)
    (hunit : i.unit = some unit) (hstart : Cuttable t unit.start) (hstop : Cuttable t unit.stop)
    (hspanStop : Cuttable t span.stop) : Severable t i := by
  refine ⟨fun u hu => ?_, fun u hu => ?_, fun s hs => ?_⟩
  · rwa [← Option.some.inj (hunit.symm.trans hu)]
  · rwa [← Option.some.inj (hunit.symm.trans hu)]
  · rwa [← Option.some.inj (hspan.symm.trans hs)]

/-- A member of which something is known can be taken out of the source. -/
def Loose (Q : Text → MemberInfo → Prop) (t : Text) (i : MemberInfo) : Prop := Q t i ∧ Severable t i

mutual

/-- A member has its place, and so have its children inside its body. -/
def Member.LaidOut (P : MemberInfo → Prop) (t : Text) : Member → Prop
  | .leaf i => P i ∧ ∃ span unit, Placed t i span unit
  | .group i children => P i ∧ ∃ span unit body, Placed t i span unit ∧ i.body = some body ∧
      span.start ≤ body.start ∧ body.stop ≤ span.stop ∧
      LaidFrom P t body.stop body.start children

/-- Members have their places, one after the other, from `lo` on up to `hi`. -/
def LaidFrom (P : MemberInfo → Prop) (t : Text) (hi : Nat) : (lo : Nat) → List Member → Prop
  | lo, [] => lo ≤ hi
  | lo, m :: rest => lo ≤ m.unitStart ∧ m.LaidOut P t ∧ LaidFrom P t hi m.unitStop rest

end

variable {P Q : MemberInfo → Prop} {t : Text}

theorem Placed.unitStart_eq {m : Member} {span unit : Span} (h : Placed t m.info span unit) :
    m.unitStart = unit.start := by
  simp [Member.unitStart, h.unit_eq]

theorem Placed.unitStop_eq {m : Member} {span unit : Span} (h : Placed t m.info span unit) :
    m.unitStop = unit.stop := by
  simp [Member.unitStop, h.unit_eq]

theorem Member.LaidOut.placed {m : Member} (h : m.LaidOut P t) :
    P m.info ∧ ∃ span unit, Placed t m.info span unit := by
  cases m with
  | leaf i => exact h
  | group i children =>
    obtain ⟨hP, span, unit, -, hplaced, -⟩ := h
    exact ⟨hP, span, unit, hplaced⟩

theorem Placed.cuttable {m : Member} {span unit : Span} (h : Placed t m.info span unit)
    (hm : Severable t m.info) : Cuttable t m.unitStart ∧ Cuttable t m.unitStop := by
  rw [h.unitStart_eq, h.unitStop_eq]
  exact ⟨hm.start unit h.unit_eq, hm.stop unit h.unit_eq⟩

/-- The children of a member lie in its body and that in its span, wherever the two are known from. -/
theorem Member.LaidOut.children {i : MemberInfo} {children : List Member} {span body : Span}
    (h : (Member.group i children).LaidOut P t) (hspan : i.span = some span)
    (hbody : i.body = some body) :
    ∃ unit, Placed t i span unit ∧ span.start ≤ body.start ∧ body.stop ≤ span.stop ∧
      LaidFrom P t body.stop body.start children := by
  obtain ⟨-, span', unit, body', hplaced, hbody', h1, h2, h3⟩ := h
  obtain rfl : span' = span := Option.some.inj (hplaced.span_eq.symm.trans hspan)
  obtain rfl : body' = body := Option.some.inj (hbody'.symm.trans hbody)
  exact ⟨unit, hplaced, h1, h2, h3⟩

/-- A unit is not empty. -/
theorem Member.LaidOut.unit_lt {m : Member} (h : m.LaidOut P t) : m.unitStart < m.unitStop := by
  obtain ⟨-, span, unit, hp⟩ := h.placed
  rw [hp.unitStart_eq, hp.unitStop_eq]
  have := hp.leads
  have := hp.nonempty
  have := hp.follows
  omega

theorem LaidFrom.le {lo hi : Nat} {ms : List Member} (h : LaidFrom P t hi lo ms) : lo ≤ hi := by
  induction ms generalizing lo with
  | nil => exact h
  | cons m rest ih =>
    obtain ⟨h1, h2, h3⟩ := h
    have := h2.unit_lt
    have := ih h3
    omega

theorem LaidFrom.weaken {lo hi lo' hi' : Nat} {ms : List Member} (h : LaidFrom P t hi lo ms)
    (hlo : lo' ≤ lo) (hhi : hi ≤ hi') : LaidFrom P t hi' lo' ms := by
  induction ms generalizing lo lo' with
  | nil =>
    have : lo ≤ hi := h
    show lo' ≤ hi'
    omega
  | cons m rest ih =>
    obtain ⟨h1, h2, h3⟩ := h
    exact ⟨by omega, h2, ih h3 (Nat.le_refl _)⟩

theorem LaidFrom.of_mem {lo hi : Nat} {ms : List Member} (h : LaidFrom P t hi lo ms) {m : Member}
    (hm : m ∈ ms) : m.LaidOut P t ∧ lo ≤ m.unitStart ∧ m.unitStop ≤ hi := by
  induction ms generalizing lo with
  | nil => cases hm
  | cons first rest ih =>
    obtain ⟨h1, h2, h3⟩ := h
    rcases List.mem_cons.mp hm with rfl | hm
    · exact ⟨h2, h1, h3.le⟩
    · obtain ⟨g1, g2, g3⟩ := ih h3 hm
      have := h2.unit_lt
      exact ⟨g1, by omega, g3⟩

theorem LaidFrom.pairwise {lo hi : Nat} {ms : List Member} (h : LaidFrom P t hi lo ms) :
    ms.Pairwise fun a b => a.unitStop ≤ b.unitStart := by
  induction ms generalizing lo with
  | nil => exact .nil
  | cons m rest ih =>
    obtain ⟨-, -, h3⟩ := h
    exact .cons (fun b hb => (h3.of_mem hb).2.1) (ih h3)

/-- Two members of a list are one, or their units are apart. -/
theorem LaidFrom.apart {lo hi : Nat} {ms : List Member} (h : LaidFrom P t hi lo ms) {m m' : Member}
    (hm : m ∈ ms) (hm' : m' ∈ ms) : m = m' ∨ m.unitStop ≤ m'.unitStart ∨ m'.unitStop ≤ m.unitStart := by
  induction ms generalizing lo with
  | nil => cases hm
  | cons first rest ih =>
    obtain ⟨-, -, h3⟩ := h
    rcases List.mem_cons.mp hm with heq | hrest
    · rcases List.mem_cons.mp hm' with heq' | hrest'
      · exact Or.inl (heq.trans heq'.symm)
      · exact Or.inr (Or.inl (heq ▸ (h3.of_mem hrest').2.1))
    · rcases List.mem_cons.mp hm' with heq' | hrest'
      · exact Or.inr (Or.inr (heq' ▸ (h3.of_mem hrest).2.1))
      · exact ih h3 hrest hrest'

mutual

theorem Member.LaidOut.imp (h : ∀ i, P i → Q i) {m : Member} (hm : m.LaidOut P t) :
    m.LaidOut Q t := by
  cases m with
  | leaf i => exact ⟨h i hm.1, hm.2⟩
  | group i children =>
    obtain ⟨hP, span, unit, body, h1, h2, h3, h4, h5⟩ := hm
    exact ⟨h i hP, span, unit, body, h1, h2, h3, h4, LaidFrom.imp h h5⟩

theorem LaidFrom.imp (h : ∀ i, P i → Q i) {hi lo : Nat} {ms : List Member}
    (hms : LaidFrom P t hi lo ms) : LaidFrom Q t hi lo ms := by
  cases ms with
  | nil => exact hms
  | cons m rest =>
    obtain ⟨h1, h2, h3⟩ := hms
    exact ⟨h1, h2.imp h, LaidFrom.imp h h3⟩

end

/-! ## Entities -/

/-- An entity has its place in a source, from `a` up to `b`, and so have its members inside its
body. -/
structure Entity.LaidOut (P : MemberInfo → Prop) (t : Text) (e : Entity) (a b : Nat) : Prop where
  nonempty : a < b
  cuttable : Cuttable t a ∧ Cuttable t b
  text : e.sourceText = t.cut a b
  span_eq : ∃ span, e.span = some span ∧ span.start = a ∧ span.stop = b
  members : ∃ body, e.body = some body ∧ a ≤ body.start ∧ body.stop ≤ b ∧
    LaidFrom P t body.stop body.start e.members

theorem Entity.LaidOut.le {e : Entity} {a b : Nat} (h : e.LaidOut P t a b) : a ≤ b :=
  Nat.le_of_lt h.nonempty

theorem Entity.LaidOut.bounds_eq {e : Entity} {a b : Nat} (h : e.LaidOut P t a b) {span : Span}
    (hspan : e.span = some span) : span.start = a ∧ span.stop = b := by
  obtain ⟨span', hspan', h1, h2⟩ := h.span_eq
  obtain rfl : span' = span := Option.some.inj (hspan'.symm.trans hspan)
  exact ⟨h1, h2⟩

theorem Entity.LaidOut.laidFrom {e : Entity} {a b : Nat} (h : e.LaidOut P t a b) {body : Span}
    (hbody : e.body = some body) :
    a ≤ body.start ∧ body.stop ≤ b ∧ LaidFrom P t body.stop body.start e.members := by
  obtain ⟨body', hbody', h1, h2, h3⟩ := h.members
  obtain rfl : body' = body := Option.some.inj (hbody'.symm.trans hbody)
  exact ⟨h1, h2, h3⟩

theorem Entity.LaidOut.imp (hPQ : ∀ i, P i → Q i) {e : Entity} {a b : Nat} (h : e.LaidOut P t a b) :
    e.LaidOut Q t a b := by
  obtain ⟨body, h1, h2, h3, h4⟩ := h.members
  exact ⟨h.nonempty, h.cuttable, h.text, h.span_eq, body, h1, h2, h3, h4.imp hPQ⟩

end MemberOrder

/-!
## The unit of a member: the member with its comments and its separator

Leading comments extend a unit no further than the floor, trailing comments no further than
the limit, and what they leave in the pool is complete from the end of the unit on (`followed`).
The comments between a member and its separator are all handed out, so nothing but white space and
trailing comments stands between the two (`separatorPlaced_of_scan`).
-/

namespace MemberOrder

open Attachment

variable {s : Scanned} {pool : List Comment}

/-- Taking what is inside keeps the pool complete from its end on. -/
theorem takeInside_drawn (hs : Orderly s s.comments) {from_ a b : Nat}
    (hpool : Drawn from_ s.comments pool) (h : from_ ≤ b) :
    Drawn b s.comments (takeInside a b pool).2 :=
  hpool.trans (takeInside_spec (hs.sublist hpool.sublist) a b).2 h

theorem takeLeading_drawn (hs : Orderly s s.comments) {floor target : Nat}
    (hpool : Drawn floor s.comments pool) (h : floor ≤ target) :
    Drawn target s.comments (takeLeading s target floor pool).2 :=
  hpool.trans (takeLeading_spec (hs.sublist hpool.sublist) target floor).2 h

/-- The comments that lead something start where the text may be cut. -/
theorem cuttable_leading {p : Profile} {t : Text} {from_ start : Nat}
    (hpool : Drawn from_ (Scanned.scan p t).comments pool) (floor : Nat) (h : Cuttable t start) :
    Cuttable t (startOf (takeLeading (Scanned.scan p t) start floor pool).1 start) := by
  refine cuttable_startOf h fun k hk => hpool.sublist.mem ?_
  exact ((takeLeading_spec ((orderly_scan p t).sublist hpool.sublist) start floor).1 k hk).1

/-- The comments between the end of a member and its separator. -/
def takeEarly (stop : Nat) (place : Option Nat) : Claiming (List Comment) :=
  match place with
  | some p => takeInside stop p
  | none => pure []

theorem takeEarly_sublist (stop : Nat) (place : Option Nat) (pool : List Comment) :
    (takeEarly stop place pool).2.Sublist pool := by
  cases place with
  | none => exact List.Sublist.refl pool
  | some p => exact without_sublist _ pool

/-- Just past a member and its separator. -/
def pastSeparator (stop : Nat) (place : Option Nat) : Nat :=
  match place with
  | some p => p + 1
  | none => stop

theorem le_pastSeparator {stop : Nat} {place : Option Nat} (h : ∀ p, place = some p → stop ≤ p) :
    stop ≤ pastSeparator stop place := by
  cases place with
  | none => exact Nat.le_refl _
  | some p => exact Nat.le_succ_of_le (h p rfl)

theorem cuttable_pastSeparator {p : Profile} {t : Text} {stop : Nat} {place : Option Nat}
    (h : Cuttable t stop) (hplace : ∀ x, place = some x → ∃ c, (c = ',' ∨ c = ';') ∧
      (Scanned.scan p t).masked[x]? = some c) : Cuttable t (pastSeparator stop place) := by
  cases place with
  | none => exact h
  | some x =>
    obtain ⟨c, hc, hx⟩ := hplace x rfl
    rcases hc with rfl | rfl
    · exact cuttable_after (Scanned.source_of_masked hx (by decide) (by decide)) (by decide)
    · exact cuttable_after (Scanned.source_of_masked hx (by decide) (by decide)) (by decide)

/-- The comments between a member and its separator are handed out, all of them. -/
theorem takeEarly_spec (hs : Orderly s s.comments) {stop : Nat} {place : Option Nat}
    (hpool : Drawn stop s.comments pool) (hplace : ∀ p, place = some p → stop ≤ p) :
    (∀ k ∈ (takeEarly stop place pool).1, k ∈ s.comments ∧ stop ≤ k.offset ∧
      k.stop ≤ pastSeparator stop place) ∧
      (∀ p, place = some p → ∀ k ∈ s.comments, stop ≤ k.offset → k.stop ≤ p →
        k ∈ (takeEarly stop place pool).1) ∧
      Drawn (pastSeparator stop place) s.comments (takeEarly stop place pool).2 := by
  cases place with
  | none => exact ⟨by simp [takeEarly, pure_apply], by simp, hpool⟩
  | some p =>
    have hp := hplace p rfl
    obtain ⟨hmem, hdrawn⟩ := takeInside_spec (hs.sublist hpool.sublist) stop p
    refine ⟨fun k hk => ?_, fun q hq k h1 h2 h3 => ?_, hpool.trans (hdrawn.mono ?_) ?_⟩
    · obtain ⟨h1, h2, h3⟩ := (hmem k).mp hk
      exact ⟨hpool.sublist.mem h1, h2, Nat.le_succ_of_le h3⟩
    · cases hq
      exact (hmem k).mpr ⟨hpool.kept k h1 h2, h2, h3⟩
    · exact Nat.le_succ p
    · exact Nat.le_succ_of_le hp

/-- The comments that follow a member: those before its separator and the trailing ones, and the
end of its unit. -/
structure Followed (s : Scanned) (skip : List Char) (stop limit : Nat) (place : Option Nat)
    (taken left : List Comment) (last : Nat) : Prop where
  after_le : pastSeparator stop place ≤ last
  le_limit : last ≤ limit
  drawn : Drawn last s.comments left
  gap : ∀ i, pastSeparator stop place ≤ i → i < last → passes s skip i
  swept : ∀ c ∈ left, pastSeparator stop place ≤ c.offset → last ≤ c.offset
  known : ∀ k ∈ taken, k ∈ s.comments
  early : ∀ p, place = some p → ∀ k ∈ s.comments, stop ≤ k.offset → k.stop ≤ p → k ∈ taken
  inside : ∀ k ∈ taken, stop ≤ k.offset ∧ k.stop ≤ last
  held : ∀ k ∈ s.comments, Trails s skip (pastSeparator stop place) k → k.stop ≤ limit → k ∈ taken

theorem followed (hs : Orderly s s.comments) (skip : List Char) {stop limit : Nat}
    {place : Option Nat} (hpool : Drawn stop s.comments pool)
    (hplace : ∀ p, place = some p → stop ≤ p) (hlimit : pastSeparator stop place ≤ limit) :
    let early := takeEarly stop place pool
    let trail := takeTrailing s (pastSeparator stop place) limit skip early.2
    Followed s skip stop limit place (early.1 ++ trail.1) trail.2
      (endOf (early.1 ++ trail.1) (pastSeparator stop place)) := by
  intro early trail
  obtain ⟨hearly, hall, hleft⟩ := takeEarly_spec hs hpool hplace
  have htrail := takeTrailing_spec (hs.sublist hleft.sublist) (pastSeparator stop place) limit skip
  have hstop := le_pastSeparator hplace
  rw [endOf_append_of_le fun k hk => (hearly k hk).2.2]
  refine ⟨le_endOf _ _, endOf_le hlimit fun c hc => (htrail.taken_inside c hc).2.2, ?_, htrail.gap,
    htrail.swept, fun k hk => ?_, fun p hp k h1 h2 h3 => ?_, fun k hk => ?_, fun k hk htrails hle => ?_⟩
  · exact hleft.trans htrail.drawn (le_endOf _ _)
  · rcases List.mem_append.mp hk with hk | hk
    · exact (hearly k hk).1
    · exact hleft.sublist.mem (htrail.taken_inside k hk).1
  · exact List.mem_append_left _ (hall p hp k h1 h2 h3)
  · rcases List.mem_append.mp hk with hk | hk
    · exact ⟨(hearly k hk).2.1, Nat.le_trans (hearly k hk).2.2 (le_endOf _ _)⟩
    · exact ⟨Nat.le_trans hstop (htrail.taken_inside k hk).2.1, stop_le_endOf hk⟩
  · exact List.mem_append_right _ (htrail.held k (hleft.kept k hk htrails.after_le) htrails hle)

/-- What passes without any character to skip is white space. -/
theorem space_of_passes {i : Nat} (h : passes s [] i) : s.masked.testAt i Text.isSpace = true := by
  obtain ⟨c, hc, hpass⟩ := Text.testAt_iff.mp h
  exact Text.testAt_iff.mpr ⟨c, hc, by simpa using hpass⟩

/-- Code that comes after a run of white space and skipped characters comes after all of it. -/
theorem le_of_passes {skip : List Char} {after last start : Nat} (h : after ≤ start)
    (hgap : ∀ i, after ≤ i → i < last → passes s skip i) (hcode : ¬passes s skip start) :
    last ≤ start :=
  Nat.le_of_not_lt fun hlt => hcode (hgap start h hlt)

/-- A separator after white space and comments that were all handed out has its place. -/
theorem separatorPlaced_of_scan {p : Profile} {t : Text} (hscan : s = Scanned.scan p t)
    {i : MemberInfo} {c : Char} {skip : List Char} {stop last limit place : Nat}
    {found : Option Nat} {left : List Comment} {span unit : Span}
    (hsep : i.separator = String.singleton c) (hspan : i.span = some span)
    (hunit : i.unit = some unit) (hspanStop : span.stop = stop) (hunitStop : unit.stop = last)
    (hstop : stop ≤ place) (hchar : s.masked[place]? = some c) (hc : c = ',' ∨ c = ';')
    (hcode : s.masked.testAt (stop - 1) Text.isSpace = false)
    (hgap : ∀ x, stop ≤ x → x < place → s.masked.testAt x Text.isSpace = true)
    (hfound : found = some place)
    (hfollowed : Followed s skip stop limit found i.trailingComments left last) :
    SeparatorPlaced t i := by
  subst hfound hspanStop hunitStop
  have hcomma := hc
  have hfiller : c ≠ '_' := by rcases hc with rfl | rfl <;> decide
  replace hc : Text.isSpace c = false := by rcases hc with rfl | rfl <;> decide
  have hs : Orderly s s.comments := hscan ▸ orderly_scan p t
  have hout : ∀ x, s.masked.testAt x Text.isSpace = false →
      ∀ k ∈ s.comments, ¬(k.offset ≤ x ∧ x < k.stop) := by
    rintro x hx k hk ⟨h1, h2⟩
    have := hs.space k hk x h1 h2
    simp [hx] at this
  have hplacecode : s.masked.testAt place Text.isSpace = false := by
    rw [Text.testAt_of_getElem? hchar, hc]
  refine Or.inr ⟨c, place, ⟨hcomma, hsep, ?_, ⟨span, unit, hspan, hunit, hstop, hfollowed.after_le⟩,
    fun k hk => hout place hplacecode k (hfollowed.known k hk)⟩, ?_⟩
  · rw [hscan] at hchar
    exact Scanned.source_of_masked hchar hc hfiller
  · intro span' heq x h1 h2
    obtain rfl : span = span' := by rw [hspan] at heq; exact Option.some.inj heq
    have hspace := hgap x h1 h2
    rw [hscan] at hspace
    refine (Scanned.space_of_masked hspace).imp_right ?_
    rintro ⟨k, hk, hk1, hk2⟩
    -- the comment lies between the member and its separator, which are both code
    rw [← hscan] at hk
    have h3 := hout _ hcode k hk
    have h4 := hout _ hplacecode k hk
    exact ⟨k, hfollowed.early place rfl k hk (by omega) (by omega), hk1, hk2⟩

/-- The separator of a member that stops at an offset: none, or the next code after the member. -/
def SeparatorNext (s : Scanned) (separator : String) (stop : Nat) : Option Nat → Prop
  | none => separator = ""
  | some place => stop ≤ place ∧ (∀ x, stop ≤ x → x < place → s.masked.testAt x Text.isSpace = true) ∧
      ∃ c, (c = ',' ∨ c = ';') ∧ separator = String.singleton c ∧ s.masked[place]? = some c

/-- A member has no separator, or its separator is the next code after it and stands in its unit, in
front of all its trailing comments. -/
def SeparatorAhead (p : Profile) (t : Text) (i : MemberInfo) : Prop :=
  i.separator = "" ∨ ∃ span unit place, i.span = some span ∧ i.unit = some unit ∧ place < unit.stop ∧
    SeparatorNext (Scanned.scan p t) i.separator span.stop (some place) ∧
    ∀ k ∈ i.trailingComments, place < k.offset

theorem SeparatorAhead.stands {p : Profile} {t : Text} {i : MemberInfo} (h : SeparatorAhead p t i) :
    SeparatorStands t i := by
  rcases h with h | ⟨span, unit, place, hspan, hunit, hlt, ⟨hstop, -, c, hc, hsep, hchar⟩, hafter⟩
  · exact Or.inl h
  · refine Or.inr ⟨c, place, hc, hsep, ?_, ⟨span, unit, hspan, hunit, hstop, hlt⟩, fun k hk hin => ?_⟩
    · rcases hc with rfl | rfl
      · exact Scanned.source_of_masked hchar (by decide) (by decide)
      · exact Scanned.source_of_masked hchar (by decide) (by decide)
    · have := hafter k hk
      omega

/-- A member has each comment that comes after it, and after its separator, on the line it ends on, and
its trailing comments lie in its unit after it. -/
structure HoldsTrail (s : Scanned) (i : MemberInfo) (span unit : Span) (place : Option Nat) : Prop where
  span_eq : i.span = some span
  unit_eq : i.unit = some unit
  code : s.masked.testAt (span.stop - 1) Text.isSpace = false
  separator : SeparatorNext s i.separator span.stop place
  inside : ∀ c ∈ i.trailingComments, span.stop ≤ c.offset ∧ c.stop ≤ unit.stop
  held : ∀ c ∈ s.comments, Trails s [] (pastSeparator span.stop place) c → c ∈ i.trailingComments

/-- What a reader of members between brackets knows of each: where its separator stands, and which
comments come after it. -/
def Tended (Q : Text → MemberInfo → Prop) (p : Profile) (t : Text) (i : MemberInfo) : Prop :=
  Q t i ∧ ∃ span unit place, HoldsTrail (Scanned.scan p t) i span unit place

/-- A member that has the comments after it as far as a bracket has all of them: none reaches past the
bracket. -/
theorem HoldsTrail.of_limit {i : MemberInfo} {span unit : Span} {limit : Nat} {place : Option Nat}
    (hs : Orderly s s.comments) (hspan : i.span = some span) (hunit : i.unit = some unit)
    (hcode : s.masked.testAt (span.stop - 1) Text.isSpace = false)
    (hsep : SeparatorNext s i.separator span.stop place)
    (hinside : ∀ c ∈ i.trailingComments, span.stop ≤ c.offset ∧ c.stop ≤ unit.stop)
    (hheld : ∀ c ∈ s.comments, Trails s [] (pastSeparator span.stop place) c → c.stop ≤ limit →
      c ∈ i.trailingComments)
    (hlimit : s.masked.testAt limit Text.isSpace = false)
    (hle : pastSeparator span.stop place ≤ limit) : HoldsTrail s i span unit place where
  span_eq := hspan
  unit_eq := hunit
  code := hcode
  separator := hsep
  inside := hinside
  held c hc htrails := by
    -- the bracket is code, so it stands neither before the comment nor in it
    have hout : ∀ {P : Prop}, s.masked.testAt limit Text.isSpace = true → P := fun h =>
      absurd h (by simp [hlimit])
    refine hheld c hc htrails (Nat.le_of_not_lt fun hlt => ?_)
    by_cases hbefore : limit < c.offset
    · exact hout (space_of_passes (htrails.gap limit hle hbefore))
    · exact hout (hs.space c hc limit (by omega) hlt)

/-- A member whose span and children have their places has its own place once its unit is set
around it. -/
theorem laidOut_mapInfo {t : Text} {P : MemberInfo → Prop} {m : Member}
    {f : MemberInfo → MemberInfo} {span : Span} (unit : Span)
    (hspan : m.info.span = some span) (htext : m.info.fullText = t.cut span.start span.stop)
    (hf : ∀ i, (f i).span = i.span ∧ (f i).fullText = i.fullText ∧ (f i).body = i.body ∧
      (f i).unit = some unit)
    (hleads : unit.start ≤ span.start) (hne : span.start < span.stop)
    (hfollows : span.stop ≤ unit.stop) (hP : P (f m.info))
    (hinside : ∀ i children, m = .group i children → ∃ b, i.body = some b ∧
      span.start ≤ b.start ∧ b.stop ≤ span.stop ∧ LaidFrom P t b.stop b.start children) :
    (m.mapInfo f).LaidOut P t ∧ (m.mapInfo f).unitStart = unit.start ∧
      (m.mapInfo f).unitStop = unit.stop := by
  obtain ⟨f1, f2, f3, f4⟩ := hf m.info
  have hplaced : Placed t (f m.info) span unit :=
    ⟨by rw [f1, hspan], f4, hleads, hne, hfollows, by rw [f2, htext]⟩
  cases m with
  | leaf i => exact ⟨⟨hP, span, unit, hplaced⟩, hplaced.unitStart_eq, hplaced.unitStop_eq⟩
  | group i children =>
    obtain ⟨b, h1, h2, h3, h4⟩ := hinside i children rfl
    refine ⟨⟨hP, span, unit, b, hplaced, f3.trans h1, h2, h3, h4⟩, ?_, ?_⟩
    · exact Placed.unitStart_eq (m := .group (f i) children) hplaced
    · exact Placed.unitStop_eq (m := .group (f i) children) hplaced

end MemberOrder
