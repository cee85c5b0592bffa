/-
  Every comment of a scanned source is handed out once, and none is forgotten.

  The ledgers of the readers are put together: no comment is attached twice in a whole reading, and
  outside of the indented dialect every entity attaches each comment of its body, but for those that
  are written back inside the text of a member (`readSource_attaches_once`).
-/
import MemberOrder.Proofs.Comments.Ledger
import MemberOrder.Proofs.Comments.Style
import MemberOrder.Proofs.Placement.Json
import MemberOrder.Proofs.Placement.Reading
import MemberOrder.Proofs.Placement.Script
import MemberOrder.Proofs.Placement.Struct

/-!
## The comments of a JSON document are attached once

A member takes what leads it, what lies between its key and its value, what is read of its value
and what follows it; a container takes what is left between its brackets. By recursion on the tree
every container keeps its ledger (`containerMembers_ledger`), and the root entity keeps all comments
of its body (`read_keepComments`).
-/

namespace MemberOrder.Json

open Attachment

/-- A comment lies inside a member that was read of a value, or inside the value where it is a
scalar. -/
def Tree.Loses (tree : Tree) (ms : List Member) (c : Comment) : Prop :=
  (∃ m ∈ ms, m.Covers c) ∨ ∃ a b, tree = .scalar a b ∧ a ≤ c.offset ∧ c.stop ≤ b

/-- Reading a value accounts for the comments it takes. -/
def KeepsLedger (s : Scanned) (tree : Tree) : Prop :=
  ∀ pool, Ledger s (tree.Loses (containerMembers s tree pool).1.1) pool
    (attachedIn (containerMembers s tree pool).1.1 ++ (containerMembers s tree pool).1.2)
    (containerMembers s tree pool).2

theorem memberOf_ledger {s : Scanned} {slot : Slot} {value : Tree}
    (hslot : SlotStands s slot value) (hstands : value.Stands s) (hvalue : KeepsLedger s value)
    (isObject : Bool) (close index floor : Nat) (pool : List Comment) :
    let r := memberOf s isObject close (slot, value) index floor pool
    Ledger s (fun c => r.1.1.Covers c) pool r.1.1.attached r.2 := by
  intro r
  have hstart := hslot.start_le
  have hlt := hstands.bounds.1
  let lead := takeLeading s slot.start floor pool
  let key := takeInside slot.start value.start lead.2
  let inner := containerMembers s value key.2
  let early := takeEarly value.stop slot.comma inner.2
  let trail := takeTrailing s (pastSeparator value.stop slot.comma) close [] early.2
  have hspan : r.1.1.info.span = some (s.span slot.start value.stop) := by
    simp only [r, memberOf_eq]
    cases value <;> rfl
  let lost := fun c => r.1.1.Covers c
  have hlead : Ledger s lost pool lead.1 lead.2 := takeLeading_ledger s lost _ _ pool
  have hkey : Ledger s lost lead.2 [] key.2 := takeInside_lose _ _ fun c _ h1 h2 =>
    .own ⟨_, hspan, h1, Nat.le_trans h2 (Nat.le_of_lt hlt)⟩
  have hinner : Ledger s lost key.2 (attachedIn inner.1.1 ++ inner.1.2) inner.2 := by
    refine (hvalue key.2).weaken ?_
    rintro c (⟨m, hm, hc⟩ | ⟨a, b, rfl, h1, h2⟩)
    · cases value with
      | scalar a b => cases hm
      | container nested a b members =>
        simp only [lost, r, memberOf_eq]
        exact .child hm hc
    · exact .own ⟨_, hspan, Nat.le_trans hstart h1, h2⟩
  have hearly : Ledger s lost inner.2 early.1 early.2 := takeEarly_ledger s lost _ _ _
  have htrail : Ledger s lost early.2 trail.1 trail.2 := takeTrailing_ledger s lost _ _ [] _
  have hr : r.2 = trail.2 := by
    simp only [r, memberOf_eq]
    rfl
  rw [hr]
  refine (hlead.trans (hkey.trans (hinner.trans (hearly.trans htrail)))).perm ?_
  simp only [r, memberOf_eq]
  cases value with
  | scalar a b =>
    show (lead.1 ++ (early.1 ++ trail.1) ++ []).Perm _
    rw [List.append_nil]
    exact List.Perm.refl _
  | container nested a b members =>
    show (lead.1 ++ (early.1 ++ trail.1) ++ inner.1.2 ++ attachedIn inner.1.1).Perm
      (lead.1 ++ (attachedIn inner.1.1 ++ inner.1.2 ++ (early.1 ++ trail.1)))
    rw [List.append_assoc, List.append_assoc lead.1]
    refine List.Perm.append_left lead.1 (List.perm_append_comm.trans ?_)
    exact List.perm_append_comm.append_right _

mutual

/-- Reading a value keeps its ledger. -/
theorem containerMembers_ledger {s : Scanned} :
    (tree : Tree) → tree.Stands s → KeepsLedger s tree
  | .scalar a b, _ => fun _ => takeInside_lose a b fun _ _ h1 h2 => Or.inr ⟨a, b, rfl, h1, h2⟩
  | .container isObject a b members, h => fun pool => by
    have hmembers := membersFrom_ledger isObject members (b - 1) 0 (a + 1) pool h.2.2
    simp only [containerMembers, bind_apply, pure_apply]
    exact (hmembers.weaken fun c hc => Or.inl hc).trans (takeInside_ledger s _ _ _ _)

theorem membersFrom_ledger {s : Scanned} (isObject : Bool) : (members : List (Slot × Tree)) →
    (close index floor : Nat) → (pool : List Comment) → {lo : Nat} → SlotsFrom s close members lo →
    let r := membersFrom s isObject close members index floor pool
    Ledger s (fun c => ∃ m ∈ r.1, m.Covers c) pool (attachedIn r.1) r.2
  | [], _, _, _, pool, _, _ => .refl s _ pool
  | m :: rest, close, index, floor, pool, _, h => by
    obtain ⟨-, h2, h3, h4⟩ := h
    have hstands : m.2.Stands s := by
      cases m
      exact h3
    have hfirst := memberOf_ledger h2 hstands (value_ledger m h3) isObject close index floor pool
    simp only [membersFrom, bind_apply, pure_apply]
    exact hfirst.cons (membersFrom_ledger isObject rest close (index + 1) _ _ h4)

theorem value_ledger {s : Scanned} : (m : Slot × Tree) → ValueStands s m → KeepsLedger s m.2
  | (_, value), h => containerMembers_ledger value h

end

/-- The root entity accounts for the comments between its brackets. -/
theorem rootEntity_accounted {s : Scanned} (fileType : FileType) {isObject : Bool} {a b : Nat}
    {members : List (Slot × Tree)} (h : (Tree.container isObject a b members).Stands s) :
    (rootEntity s fileType (.container isObject a b members)).Accounted s s.comments
      (containerMembers s (.container isObject a b members) s.comments).2 := by
  let e := rootEntity s fileType (.container isObject a b members)
  have hledger := containerMembers_ledger _ h s.comments
  refine ⟨(hledger.weaken ?_).perm ?_, ?_⟩
  · rintro c (hc | ⟨_, _, heq, -⟩)
    · exact Or.inl hc
    · cases heq
  · show ([] ++ e.dangling ++ attachedIn e.members).Perm _
    exact List.perm_append_comm
  · rintro c hc ⟨body, hbody, h1, h2⟩
    cases hbody
    exact takeInside_leaves _ _ hc ⟨h1, h2⟩

/-- Reading a JSON document keeps its comments. -/
theorem read_keepComments (fileType : FileType) (t : Text) :
    ∃ left, KeepComments (Scanned.scan .json t) (read fileType t).entities
      (Scanned.scan .json t).comments left := by
  have hchain := read_chain fileType t
  unfold read at hchain ⊢
  dsimp only at hchain ⊢
  split
  · exact ⟨_, .nil _ _⟩
  · exact ⟨_, .nil _ _⟩
  · rename_i tree htree
    obtain ⟨hstands, -, -, isObject, a, b, members, rfl⟩ := readDocument_stands htree
    simp only [htree] at hchain
    obtain ⟨i, j, hlaid, -, -⟩ := hchain.of_mem (fun _ _ _ h => h.le) List.mem_cons_self
    exact ⟨_, (rootEntity_accounted fileType hstands).keepComments (orderly_scan _ t) hlaid
      ((Drawn.refl 0 _).mono (Nat.zero_le i))⟩

end MemberOrder.Json

/-!
## The comments of a script are attached once

A member takes what leads it, what lies inside it and what follows it, and a body what is left
between its brackets, so reading a body keeps its ledger whatever the bodies inside do with theirs
(`readBody_ledger`). Every entity accounts for its comments (`entityOf_accounted`) and, read after
the ones before it, keeps those of its body (`entitiesFrom_keepComments`).
-/

namespace MemberOrder.Script

open Attachment

/-! ## Members -/

/-- The shape of a member says nothing of its comments. -/
theorem shapeOf_bare (s : Scanned) (g : Segment) (inType : Bool) :
    (shapeOf s g inType).info.comments = [] ∧ (shapeOf s g inType).info.trailingComments = [] ∧
      (shapeOf s g inType).info.dangling = [] := by
  unfold shapeOf
  dsimp only
  split
  · exact ⟨rfl, rfl, rfl⟩
  · split
    · exact ⟨rfl, rfl, rfl⟩
    · split
      · exact ⟨rfl, rfl, rfl⟩
      · split
        · exact ⟨rfl, rfl, rfl⟩
        · split <;> exact ⟨rfl, rfl, rfl⟩

/-- A body reader accounts for the comments it takes: they are attached in the body, or lie inside
one of its members. -/
def KeepsLedger (s : Scanned) (body : BodyReader) : Prop :=
  ∀ openAt closeAt pool, Ledger s (fun c => ∃ m ∈ (body openAt closeAt pool).1.1, m.Covers c) pool
    (attachedIn (body openAt closeAt pool).1.1 ++ (body openAt closeAt pool).1.2)
    (body openAt closeAt pool).2

theorem memberOfShape_ledger {s : Scanned} {body : BodyReader} (hbody : KeepsLedger s body)
    (g : Segment) (inType : Bool) (pool : List Comment) :
    let r := memberOfShape s body g (shapeOf s g inType) pool
    r.1.Bare ∧ r.1.info.span = some (s.span g.start g.stop) ∧
      Ledger s (fun c => r.1.Covers c) pool r.1.attached r.2 := by
  intro r
  obtain ⟨h1, h2, h3⟩ := shapeOf_bare s g inType
  have hspan := (shapeOf_spec s g inType).1
  cases hblock : (shapeOf s g inType).block with
  | none =>
    have hr : r = (.leaf (shapeOf s g inType).info, pool) := by
      simp only [r, memberOfShape, hblock, pure_apply]
    rw [hr]
    refine ⟨⟨h1, h2⟩, hspan, ?_⟩
    simp only [Member.attached, h1, h2, h3, List.append_nil]
    exact .refl s _ pool
  | some openAt =>
    simp only [r, memberOfShape, hblock, bind_apply, pure_apply]
    refine ⟨⟨h1, h2⟩, hspan, ?_⟩
    simp only [Member.attached, h1, h2, List.nil_append]
    refine ((hbody openAt (g.stop - 1) pool).weaken ?_).perm List.perm_append_comm
    rintro c ⟨m, hm, hc⟩
    exact .child hm hc

theorem memberOf_ledger {s : Scanned} {body : BodyReader} (hbody : KeepsLedger s body)
    (inType : Bool) (closeAt : Nat) (g : Segment) (floor : Nat) (pool : List Comment) :
    let r := memberOf s body inType closeAt g floor pool
    Ledger s (fun c => r.1.1.Covers c) pool r.1.1.attached r.2 := by
  intro r
  let lead := takeLeading s g.start floor pool
  let inner := memberOfShape s body g (shapeOf s g inType) lead.2
  let inside := takeInside g.start g.stop inner.2
  let early := takeEarly g.stop (g.separator.map (·.2)) inside.2
  let trail := takeTrailing s g.after closeAt [] early.2
  let f (i : MemberInfo) : MemberInfo := { i with
    comments := lead.1, trailingComments := early.1 ++ trail.1
    trailingText := trailingText s.source g.after (early.1 ++ trail.1)
    unit := some (s.span (startOf lead.1 g.start) (endOf (early.1 ++ trail.1) g.after)) }
  have hr : r = ((inner.1.mapInfo f, endOf (early.1 ++ trail.1) g.after), trail.2) := by
    simp only [r, memberOf, bind_apply, f, trail, early, takeEarly]
    cases g.separator <;> rfl
  obtain ⟨hbare, hspan, hinner⟩ := memberOfShape_ledger hbody g inType lead.2
  rw [hr]
  refine unit_ledger (f := f) hbare (fun _ => ⟨rfl, rfl⟩) hspan rfl hinner fun lost => ?_
  have hearly : Ledger s lost inside.2 early.1 early.2 := takeEarly_ledger s lost _ _ _
  exact hearly.trans (takeTrailing_ledger s lost _ _ [] _)

theorem membersFrom_ledger {s : Scanned} {body : BodyReader} (hbody : KeepsLedger s body)
    (inType : Bool) (closeAt : Nat) (gs : List Segment) (floor : Nat) (pool : List Comment) :
    let r := membersFrom s body inType closeAt gs floor pool
    Ledger s (fun c => ∃ m ∈ r.1, m.Covers c) pool (attachedIn r.1) r.2 := by
  induction gs generalizing floor pool with
  | nil => exact .refl s _ pool
  | cons g rest ih =>
    simp only [membersFrom, bind_apply, pure_apply]
    exact (memberOf_ledger hbody inType closeAt g floor pool).cons (ih _ _)

/-- Reading a body keeps its ledger, however deep its object values are read. -/
theorem readBody_ledger (s : Scanned) (inType : Bool) (fuel : Nat) :
    KeepsLedger s (readBody s inType fuel) := by
  induction fuel with
  | zero => exact fun openAt closeAt pool => .refl s _ pool
  | succ fuel ih =>
    intro openAt closeAt pool
    have hmembers := membersFrom_ledger ih inType closeAt
      (segments s (openAt + 1) closeAt inType) (openAt + 1) pool
    simp only [readBody, bind_apply, pure_apply]
    exact hmembers.trans (takeInside_ledger s _ _ _ _)

/-! ## Entities -/

/-- An entity accounts for the comments taken from its leading ones through its end. -/
theorem entityOf_accounted (s : Scanned) (fileType : FileType) (m : Pattern.Found) (head : Head)
    (closeAt floor : Nat) (pool : List Comment) :
    (entityOf s fileType m head closeAt floor pool).1.Accounted s pool
      (entityOf s fileType m head closeAt floor pool).2 := by
  let e := (entityOf s fileType m head closeAt floor pool).1
  let lead := takeLeading s m.start floor pool
  let header := takeInside m.start (head.openAt + 1) lead.2
  let inner := readBody s (head.kind != .object) (s.masked.size + 1) head.openAt closeAt header.2
  obtain ⟨stop, hleft⟩ : ∃ stop, (entityOf s fileType m head closeAt floor pool).2 =
      (takeInside closeAt stop inner.2).2 := ⟨_, rfl⟩
  -- what is taken around the body is not in it
  have hlead : Ledger s e.Passes pool lead.1 lead.2 := takeLeading_ledger s _ _ _ pool
  have hheader : Ledger s e.Passes lead.2 [] header.2 := by
    refine takeInside_lose _ _ fun c h1 h2 h3 => Or.inr ?_
    rintro ⟨body, hbody, h4, -⟩
    cases hbody
    exact absurd (show head.openAt + 1 ≤ c.offset from h4) (by omega)
  have hinner : Ledger s e.Passes header.2 (attachedIn e.members ++ e.dangling) inner.2 :=
    (readBody_ledger s (head.kind != .object) (s.masked.size + 1) head.openAt closeAt
      header.2).weaken fun c hc => Or.inl hc
  have hfooter : Ledger s e.Passes inner.2 [] (takeInside closeAt stop inner.2).2 := by
    refine takeInside_lose _ _ fun c h1 h2 h3 => Or.inr ?_
    rintro ⟨body, hbody, -, h5⟩
    cases hbody
    exact absurd (show c.stop ≤ closeAt from h5) (by omega)
  rw [hleft]
  refine ⟨(hlead.trans (hheader.trans (hinner.trans hfooter))).perm ?_, ?_⟩
  · rw [List.append_nil]
    show (lead.1 ++ e.dangling ++ attachedIn e.members).Perm _
    rw [List.append_assoc]
    exact List.perm_append_comm.append_left lead.1
  · rintro c hc ⟨body, hbody, h1, h2⟩
    cases hbody
    have hc := (without_sublist _ inner.2).mem hc
    simp only [inner, readBody, bind_apply, pure_apply] at hc
    exact takeInside_leaves _ _ hc ⟨h1, h2⟩

/-- The entities of a script keep their comments. -/
theorem entitiesFrom_keepComments (t : Text) (fileType : FileType) (fuel : Nat) {pos floor : Nat}
    {pool : List Comment} (hfloor : floor ≤ pos)
    (hpool : Drawn floor (Scanned.scan .typescript t).comments pool) :
    let r := entitiesFrom (Scanned.scan .typescript t) fileType fuel pos floor pool
    KeepComments (Scanned.scan .typescript t) r.1.1 pool r.2 := by
  induction fuel generalizing pos floor pool with
  | zero => exact .nil _ pool
  | succ fuel ih =>
    let s := Scanned.scan .typescript t
    cases hm : declaration.search? s.masked pos s.masked.size with
    | none =>
      simp only [entitiesFrom, s, hm] at hm ⊢
      exact .nil _ pool
    | some m =>
      obtain ⟨h1, -, hmatch⟩ := Pattern.search?_matches hm
      have h2 := hmatch.bounds.1
      simp only [s] at hm
      by_cases hstatement : startsStatement s m.start
      · cases hhead : headOf s m with
        | none =>
          simp only [entitiesFrom, hm, hstatement, hhead, s]
          exact ih (by omega) hpool
        | some head =>
          cases hclose : Brackets.close? Brackets.all s.masked head.openAt with
          | none =>
            simp only [entitiesFrom, hm, hstatement, hhead, hclose, s]
            exact ih (by omega) hpool
          | some closeAt =>
            obtain ⟨a, b, hlaid, ha, -, hspan, hleft⟩ :=
              entityOf_spec t fileType hmatch hhead hclose (by omega) hpool
            have hfirst := entityOf_accounted s fileType m head closeAt floor pool
            simp only [entitiesFrom, hm, hstatement, Bool.not_true, Bool.false_eq_true, if_false,
              hhead, hclose, bind_apply, pure_apply, s]
            rw [hspan, Option.getD_some]
            exact (hfirst.keepComments (orderly_scan _ t) hlaid (hpool.mono ha)).append
              (ih (Nat.le_refl b) hleft)
      · simp only [entitiesFrom, hm, hstatement, s]
        exact ih (by omega) hpool

/-- Reading a script keeps its comments. -/
theorem read_keepComments (fileType : FileType) (t : Text) :
    ∃ left, KeepComments (Scanned.scan .typescript t) (read fileType t).entities
      (Scanned.scan .typescript t).comments left :=
  ⟨_, entitiesFrom_keepComments t fileType (t.size + 1) (Nat.le_refl 0) (Drawn.refl 0 _)⟩

end MemberOrder.Script

/-!
## The comments of a Go source are attached once

A field takes what leads it, what lies inside it and what follows it; a comment between a field and
its semicolon is left for the body. So reading a body keeps its ledger (`readBody_ledger`), every
entity accounts for its comments (`entityOf_accounted`) and keeps those of its body
(`entitiesFrom_keepComments`).
-/

namespace MemberOrder.Struct

open Attachment

/-! ## Fields -/

/-- The shape of a field says nothing of its comments. -/
theorem shapeOf_bare (s : Scanned) (g : Segment) :
    (shapeOf s g).info.comments = [] ∧ (shapeOf s g).info.trailingComments = [] ∧
      (shapeOf s g).info.dangling = [] := by
  unfold shapeOf
  dsimp only
  -- with or without tags: an embedded type, anything else, a named field
  split <;> split
  · exact ⟨rfl, rfl, rfl⟩
  · split <;> exact ⟨rfl, rfl, rfl⟩
  · exact ⟨rfl, rfl, rfl⟩
  · split <;> exact ⟨rfl, rfl, rfl⟩

/-- A body reader accounts for the comments it takes: they are attached in the body, or lie inside
one of its fields. -/
def KeepsLedger (s : Scanned) (body : BodyReader) : Prop :=
  ∀ brace close pool, Ledger s (fun c => ∃ m ∈ (body brace close pool).1.1, m.Covers c) pool
    (attachedIn (body brace close pool).1.1 ++ (body brace close pool).1.2) (body brace close pool).2

theorem memberOfShape_ledger {s : Scanned} {body : BodyReader} (hbody : KeepsLedger s body)
    (g : Segment) (pool : List Comment) :
    let r := memberOfShape s body (shapeOf s g) pool
    r.1.Bare ∧ r.1.info.span = some (s.span g.start g.stop) ∧
      Ledger s (fun c => r.1.Covers c) pool r.1.attached r.2 := by
  intro r
  obtain ⟨h1, h2, h3⟩ := shapeOf_bare s g
  have hspan := (shapeOf_spec s g).1
  cases hblock : (shapeOf s g).block with
  | none =>
    have hr : r = (.leaf (shapeOf s g).info, pool) := by
      simp only [r, memberOfShape, hblock, pure_apply]
    rw [hr]
    refine ⟨⟨h1, h2⟩, hspan, ?_⟩
    simp only [Member.attached, h1, h2, h3, List.append_nil]
    exact .refl s _ pool
  | some block =>
    simp only [r, memberOfShape, hblock, bind_apply, pure_apply]
    refine ⟨⟨h1, h2⟩, hspan, ?_⟩
    simp only [Member.attached, h1, h2, List.nil_append]
    refine ((hbody block.1 block.2 pool).weaken ?_).perm List.perm_append_comm
    rintro c ⟨m, hm, hc⟩
    exact .child hm hc

theorem memberOf_ledger {s : Scanned} {body : BodyReader} (hbody : KeepsLedger s body) (close : Nat)
    (g : Segment) (floor : Nat) (pool : List Comment) :
    let r := memberOf s body close g floor pool
    Ledger s (fun c => r.1.1.Covers c) pool r.1.1.attached r.2 := by
  let lead := takeLeading s g.start floor pool
  let inner := memberOfShape s body (shapeOf s g) lead.2
  let trail := takeTrailing s g.after close [] (takeInside g.start g.stop inner.2).2
  let f (i : MemberInfo) : MemberInfo := { i with
    comments := lead.1, trailingComments := trail.1
    trailingText := trailingText s.source g.after trail.1
    unit := some (s.span (startOf lead.1 g.start) (endOf trail.1 g.after)) }
  obtain ⟨hbare, hspan, hinner⟩ := memberOfShape_ledger hbody g lead.2
  exact unit_ledger (f := f) hbare (fun _ => ⟨rfl, rfl⟩) hspan rfl hinner fun lost =>
    takeTrailing_ledger s lost g.after close [] _

theorem membersFrom_ledger {s : Scanned} {body : BodyReader} (hbody : KeepsLedger s body)
    (close : Nat) (gs : List Segment) (floor : Nat) (pool : List Comment) :
    let r := membersFrom s body close gs floor pool
    Ledger s (fun c => ∃ m ∈ r.1, m.Covers c) pool (attachedIn r.1) r.2 := by
  induction gs generalizing floor pool with
  | nil => exact .refl s _ pool
  | cons g rest ih =>
    simp only [membersFrom, bind_apply, pure_apply]
    exact (memberOf_ledger hbody close g floor pool).cons (ih _ _)

/-- Reading a body keeps its ledger, however deep its structs are read. -/
theorem readBody_ledger (s : Scanned) (fuel : Nat) : KeepsLedger s (readBody s fuel) := by
  induction fuel with
  | zero => exact fun brace close pool => .refl s _ pool
  | succ fuel ih =>
    intro brace close pool
    have hmembers := membersFrom_ledger ih close (segments s (brace + 1) close) (brace + 1) pool
    simp only [readBody, bind_apply, pure_apply]
    exact hmembers.trans (takeInside_ledger s _ _ _ _)

/-! ## Entities -/

/-- An entity accounts for the comments taken from its leading ones through its end. -/
theorem entityOf_accounted (s : Scanned) (fileType : FileType) (d : Declaration)
    (close floor : Nat) (pool : List Comment) :
    (entityOf s fileType d close floor pool).1.Accounted s pool
      (entityOf s fileType d close floor pool).2 := by
  let e := (entityOf s fileType d close floor pool).1
  let lead := takeLeading s d.start floor pool
  let inner := readBody s (s.masked.size + 1) d.brace close lead.2
  have hlead : Ledger s e.Passes pool lead.1 lead.2 := takeLeading_ledger s _ _ _ pool
  have hinner : Ledger s e.Passes lead.2 (attachedIn e.members ++ e.dangling) inner.2 :=
    (readBody_ledger s (s.masked.size + 1) d.brace close lead.2).weaken fun c hc => Or.inl hc
  refine ⟨(hlead.trans hinner).perm ?_, ?_⟩
  · show (lead.1 ++ e.dangling ++ attachedIn e.members).Perm _
    rw [List.append_assoc]
    exact List.perm_append_comm.append_left lead.1
  · rintro c hc ⟨body, hbody, h1, h2⟩
    cases hbody
    exact takeInside_leaves _ _ hc ⟨h1, h2⟩

/-- The entities of a Go source keep their comments. -/
theorem entitiesFrom_keepComments (t : Text) (fileType : FileType) {ds : List Declaration}
    (hds : ∀ d ∈ ds, d.Begins t) {floor : Nat} {pool : List Comment}
    (hpool : Drawn floor (Scanned.scan .go t).comments pool) :
    let r := entitiesFrom (Scanned.scan .go t) fileType ds floor pool
    KeepComments (Scanned.scan .go t) r.1.1 pool r.2 := by
  induction ds generalizing floor pool with
  | nil => exact .nil _ pool
  | cons d rest ih =>
    have ih := fun {floor pool} => @ih (fun d hd => hds d (List.mem_cons_of_mem _ hd)) floor pool
    by_cases hstart : d.start < floor
    · simp only [entitiesFrom, hstart, if_true]
      exact ih hpool
    · cases hclose : Brackets.close? Brackets.all (Scanned.scan .go t).masked d.brace with
      | none =>
        simp only [entitiesFrom, hstart, if_false, hclose]
        exact ih hpool
      | some close =>
        obtain ⟨a, hlaid, ha, -, hleft⟩ := entityOf_spec t fileType
          (hds d List.mem_cons_self) hclose (Nat.le_of_not_lt hstart) hpool
        have hfirst := entityOf_accounted (Scanned.scan .go t) fileType d close floor pool
        simp only [entitiesFrom, hstart, if_false, hclose]
        exact (hfirst.keepComments (orderly_scan _ t) hlaid (hpool.mono ha)).append (ih hleft)

/-- Reading a Go source keeps its comments. -/
theorem read_keepComments (fileType : FileType) (t : Text) :
    ∃ left, KeepComments (Scanned.scan .go t) (read fileType t).entities
      (Scanned.scan .go t).comments left :=
  ⟨_, entitiesFrom_keepComments t fileType (fun _ h => declarations_begin h) (Drawn.refl 0 _)⟩

end MemberOrder.Struct

/-! ## Every comment of a scanned source is handed out once, and none is forgotten -/

namespace MemberOrder

open Attachment

/-- The comments that scanning a source finds, where they stand in it. -/
def readComments (fileType : FileType) (t : Text) : List Comment :=
  match fileType.language with
  | .typescript => (Scanned.scan .typescript t).comments
  | .css => (Style.sheetOf fileType t).comments
  | .go => (Scanned.scan .go t).comments
  | .json => (Scanned.scan .json t).comments
  | .yaml => []

theorem Attachment.Orderly.offsets {s : Scanned} {pool : List Comment} (h : Orderly s pool) :
    pool.Pairwise fun a b => a.offset < b.offset :=
  h.ordered.imp_of_mem fun ha _ hab => Nat.lt_of_lt_of_le (h.nonempty _ ha) hab

/-- No two comments start at one place. -/
theorem readComments_ordered (fileType : FileType) (t : Text) :
    (readComments fileType t).Pairwise fun a b => a.offset < b.offset := by
  unfold readComments
  split
  · exact (orderly_scan _ t).offsets
  · exact Style.sheetOf_comments_ordered fileType t
  · exact (orderly_scan _ t).offsets
  · exact (orderly_scan _ t).offsets
  · exact .nil

theorem isIndented_sheetOf {fileType : FileType} (h : fileType ≠ .sass) (t : Text) :
    (Style.sheetOf fileType t).isIndented = false := by
  have hsass : (fileType == .sass) = false := by simpa using h
  simp only [Style.sheetOf, hsass, Bool.false_eq_true, if_false, Style.Sheet.isIndented]

theorem KeepComments.once {p : Profile} {t : Text} {r : Reading} {left : List Comment}
    (h : KeepComments (Scanned.scan p t) r.entities (Scanned.scan p t).comments left) :
    r.attached.Nodup ∧ (∀ c ∈ r.attached, c ∈ (Scanned.scan p t).comments) :=
  ⟨h.ledger.nodup (orderly_scan p t).nodup, fun _ hc => h.ledger.mem_pool hc⟩

/-- What each reader does with the comments of its source. -/
theorem readSource_keeps {fileType : FileType} (h : fileType.language ≠ .yaml) (t : Text) :
    ((readSource fileType t).attached.Nodup ∧
      ∀ c ∈ (readSource fileType t).attached, c ∈ readComments fileType t) ∧
    (fileType ≠ .sass → ∀ e ∈ (readSource fileType t).entities, e.Keeps (readComments fileType t)) := by
  cases hlanguage : fileType.language with
  | typescript =>
    simp only [readSource, readComments, hlanguage]
    obtain ⟨left, hkeep⟩ := Script.read_keepComments fileType t
    exact ⟨hkeep.once, fun _ => hkeep.keep⟩
  | css =>
    simp only [readSource, readComments, hlanguage]
    obtain ⟨honce, hknown, hkeep⟩ := Style.read_keeping fileType t
    exact ⟨⟨honce, hknown⟩, fun hsass => hkeep (isIndented_sheetOf hsass t)⟩
  | go =>
    simp only [readSource, readComments, hlanguage]
    obtain ⟨left, hkeep⟩ := Struct.read_keepComments fileType t
    exact ⟨hkeep.once, fun _ => hkeep.keep⟩
  | json =>
    simp only [readSource, readComments, hlanguage]
    obtain ⟨left, hkeep⟩ := Json.read_keepComments fileType t
    exact ⟨hkeep.once, fun _ => hkeep.keep⟩
  | yaml => exact absurd hlanguage h

/-- No comment is attached twice to the entities of a scanned source, their members and whatever is
below. Outside of the indented dialect an entity attaches each comment in its body exactly once, or
the comment lies inside the text of one of its members. -/
theorem readSource_attaches_once (fileType : FileType) (h : fileType.language ≠ .yaml) (t : Text) :
    (readComments fileType t).Pairwise (fun a b => a.offset < b.offset) ∧
    (readSource fileType t).attached.Nodup ∧
    (∀ c ∈ (readSource fileType t).attached, c ∈ readComments fileType t) ∧
    (fileType ≠ .sass → ∀ e ∈ (readSource fileType t).entities, ∃ body, e.body = some body ∧
      ∀ c ∈ readComments fileType t, body.start ≤ c.offset → c.stop ≤ body.stop →
        e.attached.count c = 1 ∨ ∃ m ∈ e.members, m.info.Spans c) := by
  obtain ⟨⟨honce, hknown⟩, hkeep⟩ := readSource_keeps h t
  refine ⟨readComments_ordered fileType t, honce, hknown, fun hsass e he => ?_⟩
  obtain ⟨a, b, hlaid, -, -⟩ := (readSource_chain h t).of_mem (fun _ _ _ he => he.le) he
  obtain ⟨body, hbody, -⟩ := hlaid.members
  refine ⟨body, hbody, fun c hc h1 h2 => ?_⟩
  rcases hkeep hsass e he c hc ⟨body, hbody, h1, h2⟩ with hattached | hspans
  · -- the comments of an entity are among those of the reading
    have hsub : e.attached.Sublist (readSource fileType t).attached := by
      rw [Reading.attached, List.flatMap_def]
      exact List.sublist_flatten_of_mem (List.mem_map_of_mem he)
    have hnodup : e.attached.Nodup := honce.sublist hsub
    exact Or.inl (List.nodup_iff_count_eq_one.mp hnodup c hattached)
  · exact Or.inr hspans

/-- A comment that leads a member, one inside a member, one after it and one at the end of the body:
three are attached. -/
theorem readSource_attaches_once_interface :
    let t := Text.ofString "interface A \x7b\n /* l */ b: /* i */ string; // t\n a: number\n // d\n\x7d"
    (readComments .typescript t).length = 4 ∧ (readSource .typescript t).attached.length = 3 ∧
      (readSource .typescript t).attached.Nodup := by
  intro t
  obtain ⟨hcomments, hattached⟩ : (readComments .typescript t).length = 4 ∧
      (readSource .typescript t).attached.length = 3 := by
    decide +kernel
  exact ⟨hcomments, hattached, (readSource_attaches_once .typescript (by decide) t).2.1⟩

end MemberOrder
