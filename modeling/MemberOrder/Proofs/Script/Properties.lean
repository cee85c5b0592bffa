/-
  The code of properties.

  Every member of a script is what was made of a segment of a body (`read_made`): but for comments, unit
  and block its record is that of `shapeOf`. A property is its modifiers, its name, a mark and a colon, and
  its value (`property_parts`). Typed anew it is its name, the mark of optional members, a colon and its
  value. The packed code of either text is put together from that of its parts (`packedCode_property`,
  `packedCode_retype`), and so the two are the same exactly when the property has no modifiers and no mark
  of another kind.
-/
import MemberOrder.Layout.Rules
import MemberOrder.Proofs.Layout.Labels
import MemberOrder.Proofs.Placement.Reading
import MemberOrder.Proofs.Placement.Script
import MemberOrder.Proofs.Source.Stops
import MemberOrder.Proofs.Text.Digits

namespace MemberOrder.Script

open Attachment

/-! ## Records -/

/-- A member is what was made of a segment, comments, unit and block aside. -/
def Holds (s : Scanned) (m : Member) : Prop :=
  ∃ g a b inType, Cut s g a b ∧ m.info.bare = (shapeOf s g inType).info.bare

/-- Members between two brackets are those of its segments, if there are any. -/
def CutFrom (s : Scanned) (inType : Bool) (openAt closeAt : Nat) (ms : List Member) : Prop :=
  ms ≠ [] → ms.map (·.info.span) =
    (segments s (openAt + 1) closeAt inType).map fun g => some (s.span g.start g.stop)

/-- A member is what was made of a segment, and its children are those of the segments of its block. -/
structure Made (s : Scanned) (inType : Bool) (m : Member) : Prop where
  shape : ∃ g a b, Cut s g a b ∧ m.info.bare = (shapeOf s g inType).info.bare
  children : ∀ i ms, m = .group i ms →
    ∃ openAt closeAt, i.body = some (s.span (openAt + 1) closeAt) ∧ CutFrom s inType openAt closeAt ms

theorem Made.holds {s : Scanned} {inType : Bool} {m : Member} (h : Made s inType m) : Holds s m := by
  obtain ⟨g, a, b, hcut, hinfo⟩ := h.shape
  exact ⟨g, a, b, inType, hcut, hinfo⟩

/-- A body reader makes members of segments, at every depth. -/
def ReadsMade (s : Scanned) (inType : Bool) (body : BodyReader) : Prop :=
  ∀ openAt closeAt pool, openAt < closeAt → EachThroughout (Made s inType) (body openAt closeAt pool).1.1 ∧
    CutFrom s inType openAt closeAt (body openAt closeAt pool).1.1

variable {s : Scanned} {inType : Bool} {body : BodyReader} {g : Segment} {a b : Nat}

theorem Made.mapInfo {m : Member} {f : MemberInfo → MemberInfo} (h : Made s inType m)
    (hf : ∀ i, (f i).bare = i.bare) (hbody : ∀ i, (f i).body = i.body) : Made s inType (m.mapInfo f) := by
  obtain ⟨⟨g, a, b, hcut, hinfo⟩, hchildren⟩ := h
  cases m with
  | leaf i => exact ⟨⟨g, a, b, hcut, (hf i).trans hinfo⟩, fun _ _ heq => nomatch heq⟩
  | group i ms =>
    refine ⟨⟨g, a, b, hcut, (hf i).trans hinfo⟩, fun j ns heq => ?_⟩
    cases heq
    rw [hbody]
    exact hchildren i ms rfl

theorem memberOfShape_made (hbody : ReadsMade s inType body) (hg : Cut s g a b) (pool : List Comment) :
    (memberOfShape s body g (shapeOf s g inType) pool).1.Throughout (Made s inType) ∧
      (memberOfShape s body g (shapeOf s g inType) pool).1.info.span = some (s.span g.start g.stop) := by
  obtain ⟨hspan, -, -, hblock⟩ := shapeOf_spec s g inType
  cases hb : (shapeOf s g inType).block with
  | none =>
    simp only [memberOfShape, hb, pure_apply]
    exact ⟨⟨⟨g, a, b, hg, rfl⟩, fun _ _ heq => by cases heq⟩, hspan⟩
  | some openAt =>
    have hlt := (Brackets.close?_some (hblock openAt hb).2).1
    obtain ⟨heach, hcut⟩ := hbody openAt (g.stop - 1) pool hlt
    simp only [memberOfShape, hb, bind_apply, pure_apply]
    refine ⟨⟨⟨⟨g, a, b, hg, rfl⟩, fun i ms heq => ?_⟩, heach⟩, hspan⟩
    cases heq
    exact ⟨openAt, g.stop - 1, rfl, hcut⟩

theorem memberOf_made (hbody : ReadsMade s inType body) (hg : Cut s g a b) (closeAt floor : Nat)
    (pool : List Comment) :
    (memberOf s body inType closeAt g floor pool).1.1.Throughout (Made s inType) ∧
      (memberOf s body inType closeAt g floor pool).1.1.info.span = some (s.span g.start g.stop) := by
  obtain ⟨hself, hspan⟩ := memberOfShape_made hbody hg (takeLeading s g.start floor pool).2
  unfold memberOf
  cases g.separator with
  | none =>
    simp only [bind_apply, pure_apply]
    refine ⟨hself.mapInfo fun m hm => hm.mapInfo (fun i => rfl) fun i => rfl, ?_⟩
    refine Eq.trans (Member.span_mapInfo ?_ _) hspan
    exact fun i => rfl
  | some separator =>
    simp only [bind_apply, pure_apply]
    refine ⟨hself.mapInfo fun m hm => hm.mapInfo (fun i => rfl) fun i => rfl, ?_⟩
    refine Eq.trans (Member.span_mapInfo ?_ _) hspan
    exact fun i => rfl

theorem membersFrom_made (hbody : ReadsMade s inType body) {closeAt : Nat} {gs : List Segment}
    (hgs : Chain (Cut s) a closeAt gs) (floor : Nat) (pool : List Comment) :
    EachThroughout (Made s inType) (membersFrom s body inType closeAt gs floor pool).1 ∧
      (membersFrom s body inType closeAt gs floor pool).1.map (·.info.span) =
        gs.map fun g => some (s.span g.start g.stop) := by
  induction hgs generalizing floor pool with
  | nil h => exact ⟨trivial, rfl⟩
  | cons hi hg hrest ih =>
    obtain ⟨hmade, hspan⟩ := memberOf_made hbody hg _ floor pool
    obtain ⟨heach, hspans⟩ := ih (memberOf s body inType _ _ floor pool).1.2
      (memberOf s body inType _ _ floor pool).2
    simp only [membersFrom, bind_apply, pure_apply]
    refine ⟨⟨hmade, heach⟩, ?_⟩
    rw [List.map_cons, List.map_cons, hspans, hspan]

/-- The members of every body, by induction on the depth of object values. -/
theorem readBody_made (s : Scanned) (inType : Bool) (fuel : Nat) :
    ReadsMade s inType (readBody s inType fuel) := by
  induction fuel with
  | zero => exact fun _ _ _ _ => ⟨trivial, fun hne => absurd rfl hne⟩
  | succ fuel ih =>
    intro openAt closeAt pool hlt
    obtain ⟨heach, hspans⟩ := membersFrom_made ih (segments_chain s hlt inType) (openAt + 1) pool
    simp only [readBody, bind_apply, pure_apply]
    exact ⟨heach, fun _ => hspans⟩

/-! ## Entities -/

/-- The members of an entity are those of the segments of its body, and so are those of their blocks. -/
structure EntityMade (s : Scanned) (e : Entity) : Prop where
  members : EachThroughout (Made s (e.kind != .object)) e.members
  body : ∃ openAt closeAt, e.body = some (s.span (openAt + 1) closeAt) ∧
    CutFrom s (e.kind != .object) openAt closeAt e.members

theorem entityOf_made (fileType : FileType) (m : Pattern.Found) {head : Head} {closeAt : Nat}
    (floor : Nat) (pool : List Comment) (hlt : head.openAt < closeAt) :
    EntityMade s (entityOf s fileType m head closeAt floor pool).1 := by
  obtain ⟨heach, hcut⟩ := readBody_made s (head.kind != .object) (s.masked.size + 1) head.openAt closeAt
    (takeInside m.start (head.openAt + 1) (takeLeading s m.start floor pool).2).2 hlt
  refine ⟨?_, head.openAt, closeAt, rfl, ?_⟩
  · simp only [entityOf, bind_apply, pure_apply]
    exact heach
  · simp only [entityOf, bind_apply, pure_apply]
    exact hcut

/-- What holds of the entity of every declaration holds of every entity that is found. -/
theorem entitiesFrom_forall {P : Entity → Prop} (t : Text) (fileType : FileType)
    (h : ∀ {m : Pattern.Found} {head : Head} {closeAt floor : Nat} {pool : List Comment},
      Pattern.Matches (Scanned.scan .typescript t).masked (Scanned.scan .typescript t).masked.size
        declaration m.start m.stop m.marks → headOf (Scanned.scan .typescript t) m = some head →
      Brackets.close? Brackets.all (Scanned.scan .typescript t).masked head.openAt = some closeAt →
      pool.Sublist (Scanned.scan .typescript t).comments →
      P (entityOf (Scanned.scan .typescript t) fileType m head closeAt floor pool).1) (fuel : Nat)
    {pos floor : Nat} {pool : List Comment} (hfloor : floor ≤ pos)
    (hpool : Drawn floor (Scanned.scan .typescript t).comments pool) :
    ∀ e ∈ (entitiesFrom (Scanned.scan .typescript t) fileType fuel pos floor pool).1.1, P e := by
  induction fuel generalizing pos floor pool with
  | zero => exact fun e he => absurd he List.not_mem_nil
  | succ fuel ih =>
    let s := Scanned.scan .typescript t
    cases hm : declaration.search? s.masked pos s.masked.size with
    | none =>
      simp only [entitiesFrom, s, hm] at hm ⊢
      exact fun e he => absurd he List.not_mem_nil
    | some m =>
      obtain ⟨h1, -, hmatch⟩ := Pattern.search?_matches hm
      have h2 := hmatch.bounds.1
      simp only [s] at hm
      by_cases hstatement : startsStatement s m.start
      · cases hhead : headOf s m with
        | none =>
          simp only [entitiesFrom, hm, hstatement, hhead, s]
          exact ih (by omega) hpool
        | some head =>
          cases hclose : Brackets.close? Brackets.all s.masked head.openAt with
          | none =>
            simp only [entitiesFrom, hm, hstatement, hhead, hclose, s]
            exact ih (by omega) hpool
          | some closeAt =>
            obtain ⟨a, b, -, -, -, hspan, hleft⟩ := entityOf_spec t fileType hmatch hhead hclose (by omega) hpool
            simp only [entitiesFrom, hm, hstatement, Bool.not_true, Bool.false_eq_true, if_false, hhead,
              hclose, bind_apply, pure_apply, s]
            rw [hspan, Option.getD_some]
            exact List.forall_mem_cons.mpr ⟨h hmatch hhead hclose hpool.sublist, ih (Nat.le_refl _) hleft⟩
      · simp only [entitiesFrom, hm, hstatement, s]
        exact ih (by omega) hpool

/-- The members of a script are made of the segments of its bodies. -/
theorem read_made (fileType : FileType) (t : Text) :
    ∀ e ∈ (read fileType t).entities, EntityMade (Scanned.scan .typescript t) e :=
  entitiesFrom_forall t fileType
    (fun _ _ hclose _ => entityOf_made fileType _ _ _ (Brackets.close?_some hclose).1) (t.size + 1)
    (Nat.le_refl 0) (Drawn.refl 0 _)

theorem read_held (fileType : FileType) (t : Text) :
    ∀ e ∈ (read fileType t).entities, EachThroughout (Holds (Scanned.scan .typescript t)) e.members :=
  fun e he => (read_made fileType t e he).members.imp fun _ h => h.holds

end MemberOrder.Script

namespace MemberOrder.Script

open Layout Lexeme Scanned Pattern

/-! ## The parts of a property -/

/-- The mark of a property that was matched. -/
def markOf (t : Text) (m : Found) : List Char :=
  if m.has "optional" then t.slice (m.startOf "optional") (m.startOf "optional" + 1) else []

/-- A character of a modifier, or the white space after it. -/
def inModifiers (c : Char) : Bool := Text.isSpace c || isLatin c || c == '-' || c == '+'

/-- A character between the name of a property and its value. -/
def inSpacing (c : Char) : Bool := Text.isSpace c || c == '?' || c == '!' || c == ':'

/-- The words that a property may start with. -/
def propertyModifiers : Pattern :=
  modifiers ((["readonly", "static", "declare", "public", "private", "protected"].map word)
    ++ [.seq (oneOf "-+") (word "readonly")])

theorem within_modifiers : Within inModifiers propertyModifiers := by
  have hword : ∀ s ∈ ["readonly", "static", "declare", "public", "private", "protected"],
      Within inModifiers (word s) := fun s hs =>
    within_chars ((show ∀ s ∈ ["readonly", "static", "declare", "public", "private", "protected"],
      ∀ c ∈ s.toList, inModifiers c = true by decide) s hs)
  have hspace : ∀ c, Text.isSpace c = true → inModifiers c = true := fun c hc => by simp [inModifiers, hc]
  refine within_many (within_seq (within_choice fun p hp => ?_)
    (within_seq (within_one hspace) (within_span hspace)))
  rcases List.mem_append.mp hp with hp | hp
  · obtain ⟨s, hs, rfl⟩ := List.mem_map.mp hp
    exact hword s hs
  · rw [List.mem_singleton.mp hp]
    refine within_seq (within_one fun c hc => ?_) (hword "readonly" (by decide))
    rw [List.contains_iff_mem] at hc
    exact (show ∀ c ∈ "-+".toList, inModifiers c = true by decide) c hc

/-- The parts of a property: modifiers up to `n`, the name up to `k`, and the mark and the colon. -/
structure Parts (t : Text) (limit a : Nat) (m : Found) (n k : Nat) : Prop where
  startOf : m.startOf "name" = n
  stopOf : m.stopOf "name" = k
  modifiers : ∀ x, a ≤ x → x < n → t.testAt x inModifiers = true
  named : Matches t limit memberName n k []
  le : a ≤ n
  lt : k < m.stop
  spacing : ∀ x, k ≤ x → x < m.stop → t.testAt x inSpacing = true
  colon : t[m.stop - 1]? = some ':'
  packed : pack (t.slice k m.stop) = markOf t m ++ [':']
  mark : markOf t m = [] ∧ m.has "optional" = false ∨
    (markOf t m = ['?'] ∨ markOf t m = ['!']) ∧ m.has "optional" = true

/-- No literal is open where the name starts if none is where the member does. -/
theorem Parts.boundary {t : Text} {limit a n k : Nat} {m : Found}
    (h : Parts (scan .typescript t).masked limit a m n k) (hb : Boundary .typescript t a) :
    Boundary .typescript t n :=
  hb.of_unquoted h.le (unquoted_of_class (by decide) h.modifiers)

theorem property_parts {t : Text} {a b : Nat} {m : Found} (h : property.matchAt? t a b = some m) :
    ∃ n k, Parts t b a m n k := by
  obtain ⟨hstart, hmatch⟩ := matchAt?_matches h
  obtain ⟨n, marks₁, _, hmodifiers, ⟨k, _, _, ⟨inner, hname, rfl⟩, hrest, rfl⟩, hmarks⟩ := hmatch
  obtain ⟨x, marks₃, _, hspaces, ⟨y, _, _, hmark, ⟨z, marks₅, _, hspaces', hcolon, rfl⟩, rfl⟩, rfl⟩ := hrest
  obtain rfl : marks₁ = [] := hmodifiers.marks_eq_nil rfl
  obtain rfl : inner = [] := hname.marks_eq_nil rfl
  obtain rfl : marks₃ = [] := hspaces.marks_eq_nil rfl
  obtain rfl : marks₅ = [] := hspaces'.marks_eq_nil rfl
  obtain ⟨-, hcolon, hstop, rfl⟩ := hcolon
  obtain ⟨hkx, -, hspaces, -⟩ := hspaces
  obtain ⟨hyz, -, hspaces', -⟩ := hspaces'
  obtain ⟨c, hc, hcc⟩ := Text.testAt_iff.mp hcolon
  rw [beq_iff_eq] at hcc
  subst hcc
  have hxy : x ≤ y := hmark.bounds.1
  have hspace : ∀ c, Text.isSpace c = true → inSpacing c = true := fun c hc => by simp [inSpacing, hc]
  -- white space around the mark, and the colon
  have hspacing : (∀ w, x ≤ w → w < y → t.testAt w inSpacing = true) →
      ∀ w, k ≤ w → w < m.stop → t.testAt w inSpacing = true := by
    intro hmarked w h1 h2
    by_cases hwx : w < x
    · exact testAt_mono hspace (hspaces w h1 hwx)
    by_cases hwy : w < y
    · exact hmarked w (by omega) hwy
    by_cases hwz : w < z
    · exact testAt_mono hspace (hspaces' w (by omega) hwz)
    · obtain rfl : w = z := by omega
      rw [Text.testAt_of_getElem? hc]
      decide
  have hpacked : pack (t.slice k m.stop) = pack (t.slice x y) ++ [':'] := by
    rw [← Text.slice_append t hkx (show x ≤ m.stop by omega),
      ← Text.slice_append t hxy (show y ≤ m.stop by omega),
      ← Text.slice_append t hyz (show z ≤ m.stop by omega), pack_append, pack_append, pack_append,
      Text.pack_slice_eq_nil hspaces, Text.pack_slice_eq_nil hspaces', hstop, Text.slice_one hc]
    rfl
  have hcolonAt : t[m.stop - 1]? = some ':' := by rw [hstop, Nat.add_sub_cancel, hc]
  have hle : a ≤ n := hmodifiers.bounds.1
  have hmodifiers := fun w => within_modifiers _ _ _ _ _ hmodifiers w
  rcases hmark with hmark | ⟨rfl, rfl⟩
  · obtain ⟨inner, ⟨-, hmark, rfl, rfl⟩, rfl⟩ := hmark
    obtain ⟨c, hc, hcc⟩ := Text.testAt_iff.mp hmark
    have hcc : c = '?' ∨ c = '!' := by simpa using hcc
    have hmarks : m.marks = [("optional", x, x + 1), ("name", n, k)] := hmarks
    have hmark : markOf t m = [c] := by
      rw [← Text.slice_one hc]
      simp [markOf, Found.has, Found.startOf, Found.piece?, hmarks]
    refine ⟨n, k, by rw [Found.startOf, Found.piece?, hmarks]; rfl,
      by rw [Found.stopOf, Found.piece?, hmarks]; rfl, hmodifiers, hname, hle, by omega, hspacing ?_, hcolonAt, ?_, ?_⟩
    · intro w h1 h2
      obtain rfl : w = x := by omega
      rw [Text.testAt_of_getElem? hc]
      rcases hcc with rfl | rfl <;> decide
    · rw [hpacked, hmark, Text.slice_one hc]
      rcases hcc with rfl | rfl <;> rfl
    · refine Or.inr ⟨?_, by simp [Found.has, Found.piece?, hmarks]⟩
      rw [hmark]
      exact hcc.imp (congrArg ([·])) (congrArg ([·]))
  · have hmarks : m.marks = [("name", n, k)] := hmarks
    have hhas : m.has "optional" = false := by simp [Found.has, Found.piece?, hmarks]
    have hmark : markOf t m = [] := by rw [markOf, hhas]; rfl
    refine ⟨n, k, by rw [Found.startOf, Found.piece?, hmarks]; rfl,
      by rw [Found.stopOf, Found.piece?, hmarks]; rfl, hmodifiers, hname, hle, by omega,
      hspacing fun w h1 h2 => by omega, hcolonAt, ?_, Or.inl ⟨hmark, hhas⟩⟩
    rw [hpacked, hmark, Text.slice_self t (Nat.le_refl _)]
    rfl

/-! ## Names -/

/-- A name starts with a quote. -/
def Quoted (name : List Char) : Prop := name.head? = some '"' ∨ name.head? = some Profile.apostrophe

theorem isBare_of_isIdentifierPart (c : Char) (h : isIdentifierPart c = true) :
    isBare .typescript c = true := by
  refine isBare_of_class (fun c hc => ?_) (by decide) c h
  rw [isIdentifierPart, Bool.or_eq_true, beq_iff_eq] at hc
  rcases hc with hc | rfl
  · exact Text.isSpace_of_isWord hc
  · decide

theorem within_identifier : Within (isBare .typescript) identifier := by
  refine within_seq (within_one fun c hc => ?_) (within_span isBare_of_isIdentifierPart)
  refine isBare_of_isIdentifierPart c ?_
  rw [isIdentifierStart, Bool.or_eq_true] at hc
  rw [isIdentifierPart, Bool.or_eq_true]
  exact hc.imp_left Text.isWord_of_isNameStart

/-- A name is bare, quoted, or computed. -/
theorem memberName_cases {t : Text} {limit n k : Nat} {marks : Captures}
    (h : Matches t limit memberName n k marks) :
    (n < k ∧ ∀ x, n ≤ x → x < k → t.testAt x (isBare .typescript) = true) ∨
      (∃ q, (q = '"' ∨ q = Profile.apostrophe) ∧ n + 1 < k ∧ t[n]? = some q ∧ t[k - 1]? = some q) ∨
      n + 1 < k ∧ t[n]? = some '[' ∧ t[k - 1]? = some ']' := by
  have hchar : ∀ {c : Char} {i j : Nat} {marks : Captures}, Matches t limit (char c) i j marks →
      j = i + 1 ∧ t[i]? = some c := by
    rintro c i j marks ⟨-, hc, rfl, -⟩
    exact ⟨rfl, Text.hasAt_iff.mp hc⟩
  have hbracketed : ∀ {c d : Char} {test : Char → Bool} {marks : Captures},
      Matches t limit (all [char c, .span test, char d]) n k marks →
        n + 1 < k ∧ t[n]? = some c ∧ t[k - 1]? = some d := by
    rintro c d test marks ⟨i, _, _, hopen, ⟨j, _, _, hinside, hclose, -⟩, -⟩
    obtain ⟨rfl, hfirst⟩ := hchar hopen
    obtain ⟨rfl, hlast⟩ := hchar hclose
    have := hinside.bounds.1
    exact ⟨by omega, hfirst, by rwa [Nat.add_sub_cancel]⟩
  have hpart : ∀ c, (Text.isWord c || c == '.') = true → isBare .typescript c = true := by
    refine isBare_of_class (fun c hc => ?_) (by decide)
    rw [Bool.or_eq_true, beq_iff_eq] at hc
    rcases hc with hc | rfl
    · exact Text.isSpace_of_isWord hc
    · decide
  rcases h with h | h | h | h | h | h
  · exact Or.inl ⟨(startsIn_seq (startsIn_one _) _ _ _ _ _ _ h).1, within_identifier _ _ _ _ _ h⟩
  · exact Or.inr (Or.inl ⟨'"', Or.inl rfl, hbracketed h⟩)
  · exact Or.inr (Or.inl ⟨Profile.apostrophe, Or.inr rfl, hbracketed h⟩)
  · refine Or.inl ⟨(startsIn_seq (startsIn_one _) _ _ _ _ _ _ h).1, ?_⟩
    exact within_seq (within_one (isBare_of_class (fun _ => Text.isSpace_of_isDecimal) (by decide)))
      (within_span hpart) _ _ _ _ _ h
  · refine Or.inl ⟨(startsIn_seq (startsIn_one _) _ _ _ _ _ _ h).1, ?_⟩
    exact within_seq (within_one (isBare_of_class (f := (· == '#'))
      (fun c hc => by rw [beq_iff_eq.mp hc]; decide) (by decide))) within_identifier _ _ _ _ _ h
  · exact Or.inr (Or.inr (hbracketed h))

variable {t : Text} {a b n k : Nat} {m : Found} {marks : Captures}

/-- A name starts with code. -/
theorem memberName_starts (h : Matches t b memberName n k marks) :
    n < k ∧ ∃ c, t[n]? = some c ∧ Text.isSpace c = false := by
  rcases memberName_cases h with ⟨hlt, hbare⟩ | ⟨q, hq, hlt, hfirst, -⟩ | ⟨hlt, hfirst, -⟩
  · obtain ⟨c, hc, hcb⟩ := Text.testAt_iff.mp (hbare n (Nat.le_refl n) hlt)
    exact ⟨hlt, c, hc, isSpace_of_isBare hcb⟩
  · refine ⟨by omega, q, hfirst, ?_⟩
    rcases hq with rfl | rfl <;> decide
  · exact ⟨by omega, '[', hfirst, by decide⟩

/-- No name ends with a slash. -/
theorem memberName_last (hb : Boundary .typescript t n)
    (h : Matches (scan .typescript t).masked b memberName n k marks) :
    (t.slice n k).getLast? ≠ some '/' := by
  have hsource : ∀ d, (d = '"' ∨ d = Profile.apostrophe ∨ d = ']') →
      (scan .typescript t).masked[k - 1]? = some d → n < k → (t.slice n k).getLast? ≠ some '/' := by
    intro d hd hlast hlt
    have hk := source_of_masked hlast (by rcases hd with rfl | rfl | rfl <;> decide)
      (by rcases hd with rfl | rfl | rfl <;> decide)
    have hsize := Text.lt_size_of_getElem? hk
    rw [List.getLast?_eq_getElem?, Text.length_slice t (by omega), Text.getElem?_slice,
      if_pos (by omega), show n + (k - n - 1) = k - 1 by omega, hk]
    rcases hd with rfl | rfl | rfl <;> decide
  rcases memberName_cases h with ⟨hlt, hbare⟩ | ⟨q, hq, hlt, -, hlast⟩ | ⟨hlt, -, hlast⟩
  · intro hslash
    exact absurd (hb.bare hbare '/' (List.mem_of_getLast? hslash)) (by decide)
  · exact hsource q (hq.imp_right Or.inl) hlast (by omega)
  · exact hsource ']' (Or.inr (Or.inr rfl)) hlast (by omega)

/-- A name that is not quoted is read as a whole. -/
theorem sealed_name (hb : Boundary .typescript t n)
    (h : Matches (scan .typescript t).masked b memberName n k marks)
    (hquoted : Quoted (t.slice n k) → Sealed .typescript (t.slice n k)) :
    Sealed .typescript (t.slice n k) := by
  have hlast := memberName_last hb h
  rcases memberName_cases h with ⟨-, hbare⟩ | ⟨q, hq, hlt, hfirst, -⟩ | ⟨hlt, hfirst, hclose⟩
  · exact ⟨seam_of_plain (fun c hc => plain_of_isBare (hb.bare hbare c hc)) _, hlast⟩
  · refine hquoted ?_
    have hsource := hb.source_of_code hfirst (by rcases hq with rfl | rfl <;> decide)
    have hhead : (t.slice n k).head? = some q := by
      rw [List.head?_eq_getElem?, Text.getElem?_slice, if_pos (by omega), Nat.add_zero, hsource]
    rw [Quoted, hhead]
    exact hq.imp (congrArg some) (congrArg some)
  · -- code starts and ends it
    have hstarts := stops_of_code hfirst (by decide) (by decide) (by decide)
    have hstops := stops_of_code hclose (by decide) (by decide) (by decide)
    rw [Nat.sub_add_cancel (by omega)] at hstops
    obtain ⟨l, hl, hk, hstart⟩ := lexeme_of_code hclose (by decide) (by decide) (by decide)
    have hregion : Region .typescript t n k := by
      refine ⟨by omega, hstarts.1, hstops.2, Or.inr ⟨l, hl, hk, ?_, ']', ?_, by decide⟩, nofun⟩
      · rw [(code_of_lexeme hl hk).1]
        omega
      · rw [hstart]
        exact source_of_masked hclose (by decide) (by decide)
    refine ⟨hregion.seam (Or.inl fun _ => ?_), hlast⟩
    rw [hclose]
    decide

/-! ## The code of the parts -/

/-- The code of a property is that of its modifiers and its name, its mark, a colon, and that of its
value. -/
theorem packedCode_property (hb : Boundary .typescript t a)
    (hcode : (scan .typescript t).masked.testAt a Text.isSpace = false)
    (h : Parts (scan .typescript t).masked b a m n k) (hname : Sealed .typescript (t.slice n k)) {v : Nat}
    (hv : v = (scan .typescript t).nextCode m.stop b) (hvalue : t.slice v b ≠ []) :
    packedCode .typescript (t.slice a b) =
      pack ((scan .typescript t).masked.slice a n) ++ (packedCode .typescript (t.slice n k) ++
        (markOf (scan .typescript t).masked m ++ ':' :: packedCode .typescript (t.slice v b))) := by
  let s := scan .typescript t
  obtain ⟨hnk, c, hc, hspace⟩ := memberName_starts h.named
  obtain ⟨hvb, d, hd, hspace'⟩ := code_of_slice_nextCode hv hvalue
  have hstop : m.stop ≤ v := hv ▸ Text.le_nextCode _ _ _
  have hvsize : v < t.size := size_masked .typescript t ▸ Text.lt_size_of_getElem? hd
  have hkm := h.lt
  have han := h.le
  have hspaces : ∀ x, m.stop ≤ x → x < v → s.masked.testAt x Text.isSpace = true :=
    fun x h1 h2 => Text.space_before_nextCode h1 (hv ▸ h2)
  have hspacing : ∀ x, k ≤ x → x < v → s.masked.testAt x inSpacing = true := by
    intro x h1 h2
    by_cases hx : x < m.stop
    · exact h.spacing x h1 hx
    · exact testAt_mono (fun c hc => by simp [inSpacing, hc]) (hspaces x (by omega) h2)
  -- the modifiers
  obtain ⟨hstopsn, hmodifiers⟩ := (hb.stops (by omega) (Or.inl rfl) hcode).packedCode_before han
    (by decide) h.modifiers hc hspace (show n ≤ b by omega)
  -- the name
  have hstopsk := hname.stops hstopsn (Nat.le_of_lt hnk) (by omega) rfl
  -- the mark and the colon
  obtain ⟨-, hgap⟩ := hstopsk.packedCode_before (show k ≤ v by omega) (by decide) hspacing hd
    hspace' (Nat.le_of_lt hvb)
  rw [hmodifiers, ← Text.slice_append t (Nat.le_of_lt hnk) (show k ≤ b by omega),
    packedCode_append (hname.anywhere _), hgap,
    ← Text.slice_append s.masked (Nat.le_of_lt hkm) hstop, pack_append, h.packed,
    Text.pack_slice_eq_nil hspaces, List.append_nil, List.append_assoc]
  rfl

/-! ## Properties typed anew -/

/-- Whether a property is its name, the mark of optional members or none, and its value. -/
def isUnmarked (s : Scanned) (start stop : Nat) : Bool :=
  match property.matchAt? s.masked start stop with
  | none => true
  | some m => m.startOf "name" == start && markOf s.masked m != ['!']

theorem isOptional_eq (t : Text) (m : Found) :
    (m.has "optional" && t.hasAt (m.startOf "optional") '?') = (markOf t m == ['?']) := by
  unfold markOf
  cases m.has "optional" with
  | false => rfl
  | true =>
    simp only [Bool.true_and, if_true]
    cases hc : t[m.startOf "optional"]? with
    | none =>
      have hnil : t.slice (m.startOf "optional") (m.startOf "optional" + 1) = [] := by
        rw [List.eq_nil_iff_forall_not_mem]
        intro c hmem
        obtain ⟨x, h1, h2, hx⟩ := Text.mem_slice.mp hmem
        rw [show x = m.startOf "optional" by omega, hc] at hx
        cases hx
      rw [hnil, Text.hasAt, Text.testAt, hc]
      rfl
    | some c =>
      rw [Text.slice_one hc, Text.hasAt, Text.testAt_of_getElem? hc]
      simp

/-- What is typed anew can be read: no literal is open where the member starts, and a quoted name ends
with its quote. -/
def Legible (t : Text) (i : MemberInfo) : Prop :=
  Rules.isPlain i = true → (∀ span, i.span = some span → Boundary .typescript t span.start) ∧
    (Quoted i.name.toList → Sealed .typescript i.name.toList)

/-- A name and a value are those of a property, or a member without a value. -/
theorem shapeOf_isPlain {s : Scanned} {g : Segment} {inType : Bool} {i : MemberInfo}
    (hi : i.bare = (shapeOf s g inType).info.bare) (h : Rules.isPlain i = true) :
    (∃ m, property.matchAt? s.masked g.start g.stop = some m ∧
      i.name = s.source.cut (m.startOf "name") (m.stopOf "name") ∧
      i.optional = (m.has "optional" && s.masked.hasAt (m.startOf "optional") '?') ∧
      i.value = .text (s.source.cut (s.nextCode m.stop g.stop) g.stop)) ∨
    ∃ m, identifier.fullMatch? s.masked g.start g.stop = some m ∧
      i.name = s.source.cut g.start g.stop := by
  have hproperty : i.bare.kind = .property ∧ i.bare.isSpread = false := by
    simp only [Rules.isPlain, Bool.and_eq_true, beq_iff_eq, Bool.not_eq_true'] at h
    exact h.1.1
  unfold shapeOf at hi
  dsimp only at hi
  split at hi
  · rw [hi] at hproperty
    exact nomatch hproperty.2
  · split at hi
    · rw [hi] at hproperty
      have hkind := hproperty.1
      simp only [MemberInfo.bare] at hkind
      split at hkind <;> cases hkind
    · split at hi
      · rename_i m hm
        exact Or.inl ⟨m, hm, (congrArg MemberInfo.name hi :), (congrArg MemberInfo.optional hi :),
          (congrArg MemberInfo.value hi :)⟩
      · split at hi
        · rw [hi] at hproperty
          exact nomatch hproperty.1
        · split at hi
          · rename_i hm
            obtain ⟨m, hm⟩ := Option.isSome_iff_exists.mp hm
            exact Or.inr ⟨m, hm, (congrArg MemberInfo.name hi :)⟩
          · rw [hi] at hproperty
            exact nomatch hproperty.1

/-- A member without a value is no name and value, as its text is its name. -/
theorem not_isPlain_of_identifier {i : MemberInfo} (hb : Boundary .typescript t a)
    (h : identifier.fullMatch? (scan .typescript t).masked a b = some m) (hname : i.name = t.cut a b)
    (htext : i.fullText = t.cut a b) : Rules.isPlain i = false := by
  obtain ⟨-, rfl, hmatch⟩ := fullMatch?_matches h
  have hbare := hb.bare (within_identifier _ _ _ _ _ hmatch)
  have hstrip : Text.strip i.fullText = i.name := by
    rw [htext, hname, Text.strip, Text.cut, String.toList_ofList,
      Text.trim_of_no_space fun c hc => isSpace_of_isBare (hbare c hc)]
  rw [Rules.isPlain, hstrip]
  simp

/-- The code of a property typed anew is that of its name, the mark of optional members, a colon, and
that of its value. -/
theorem packedCode_retype {x : Member} (h : Rules.isPlain x.info = true)
    (hname : ∀ ds, Seam .typescript x.info.name.toList ds) (o : Options) (width : Nat) :
    packedCode .typescript (Rules.script.retype o x width).toList =
      packedCode .typescript x.info.name.toList ++ ((if x.info.optional then ['?'] else []) ++
        ':' :: packedCode .typescript x.info.value.display.toList) := by
  have hplain : ∀ c ∈ [' ', ':'], Plain .typescript c := by
    simp only [List.forall_mem_cons, Plain]
    decide
  have hlabel : Rules.label x.info = x.info.name ++ if x.info.optional then "?" else "" := by
    unfold Rules.label
    split <;> simp
  have hmark : ∀ c ∈ (if x.info.optional then "?" else "").toList, Plain .typescript c := by
    split <;> simp [Plain, Profile.typescript, Profile.apostrophe, Profile.grave]
  simp only [Rules.script, h, if_true]
  rw [hlabel, packedCode_nameAndValue hplain o hname hmark]
  split <;> rfl

/-- The parts that are typed are all parts exactly if nothing stands before the name and the mark is none
or that of optional members. -/
theorem Parts.typed_iff {t : Text} (h : Parts t b a m n k) (hcode : t.testAt a Text.isSpace = false)
    (name value : List Char) :
    name ++ ((if markOf t m == ['?'] then ['?'] else []) ++ ':' :: value) =
        pack (t.slice a n) ++ (name ++ (markOf t m ++ ':' :: value)) ↔ n = a ∧ markOf t m ≠ ['!'] := by
  constructor
  · intro heq
    have hlength := congrArg List.length heq
    simp only [List.length_append, List.length_cons] at hlength
    have hmark : markOf t m ≠ ['!'] := fun hmark => by
      rw [hmark, if_neg (by decide), List.length_nil, List.length_singleton] at hlength
      omega
    have hpack : pack (t.slice a n) = [] := by
      refine List.eq_nil_of_length_eq_zero ?_
      rcases h.mark with ⟨hnone, -⟩ | ⟨hsome | hsome, -⟩
      · rw [hnone, if_neg (by decide), List.length_nil] at hlength
        omega
      · rw [hsome, if_pos (by decide), List.length_singleton] at hlength
        omega
      · exact absurd hsome hmark
    refine ⟨Nat.le_antisymm (Nat.le_of_not_lt fun hlt => ?_) h.le, hmark⟩
    -- the first character of the modifiers is code
    obtain ⟨c, hc, -⟩ := Text.testAt_iff.mp (h.modifiers a (Nat.le_refl a) hlt)
    rw [Text.testAt_of_getElem? hc] at hcode
    have hmem : c ∈ pack (t.slice a n) :=
      List.mem_filter.mpr ⟨Text.mem_slice.mpr ⟨a, Nat.le_refl a, hlt, hc⟩, by rw [hcode]; rfl⟩
    rw [hpack] at hmem
    cases hmem
  · rintro ⟨rfl, hmark⟩
    rw [Text.slice_self _ (Nat.le_refl _)]
    rcases h.mark with ⟨h, -⟩ | ⟨h | h, -⟩
    · rw [h]
      rfl
    · rw [h]
      rfl
    · exact absurd h hmark

/-- Typed anew, a member of a script keeps its code exactly if it is no property with modifiers or with a
mark that is not typed. -/
theorem retype_keeps_code {x : Member} (hx : Holds (scan .typescript t) x) (hlegible : Legible t x.info)
    (o : Options) (width : Nat) :
    packedCode .typescript (Rules.script.retype o x width).toList =
        packedCode .typescript x.info.fullText.toList ↔
      (Rules.isPlain x.info = true → ∀ span, x.info.span = some span →
        isUnmarked (scan .typescript t) span.start span.stop = true) := by
  by_cases hplain : Rules.isPlain x.info = true
  · obtain ⟨g, a, b, inType, hcut, hinfo⟩ := hx
    obtain ⟨hspan, htext, -, -⟩ := shapeOf_spec (scan .typescript t) g inType
    replace hspan : x.info.span = some ((scan .typescript t).span g.start g.stop) :=
      (congrArg MemberInfo.span hinfo :).trans hspan
    replace htext : x.info.fullText = t.cut g.start g.stop := (congrArg MemberInfo.fullText hinfo :).trans htext
    obtain ⟨hb, hquoted⟩ := hlegible hplain
    replace hb : Boundary .typescript t g.start := hb _ hspan
    obtain ⟨m, hm, hname, hoptional, hvalue⟩ | ⟨m, hm, hname⟩ := shapeOf_isPlain hinfo hplain
    · obtain ⟨n, k, hparts⟩ := property_parts hm
      rw [hparts.startOf, hparts.stopOf] at hname
      replace hname : x.info.name.toList = t.slice n k := by
        rw [hname, Text.cut, String.toList_ofList]
        rfl
      have hbn := hparts.boundary hb
      have hsealed := sealed_name hbn hparts.named (hname ▸ hquoted)
      have hdisplay : x.info.value.display.toList =
          t.slice ((scan .typescript t).nextCode m.stop g.stop) g.stop := by
        rw [hvalue, Value.display, Text.cut, String.toList_ofList]
        rfl
      have hne : t.slice ((scan .typescript t).nextCode m.stop g.stop) g.stop ≠ [] := by
        intro hnil
        simp only [Rules.isPlain, Bool.and_eq_true, Bool.not_eq_true', String.isEmpty_eq_false_iff] at hplain
        exact hplain.2 (String.toList_inj.mp (hdisplay.trans hnil))
      have hcode : (scan .typescript t).masked.testAt g.start Text.isSpace = false := hcut.code
      rw [packedCode_retype hplain (hname ▸ hsealed.anywhere), htext, Text.cut, String.toList_ofList,
        packedCode_property hb hcode hparts hsealed rfl hne, hname, hdisplay, hoptional, isOptional_eq]
      have hunmarked : isUnmarked (scan .typescript t) g.start g.stop = true ↔
          n = g.start ∧ markOf (scan .typescript t).masked m ≠ ['!'] := by
        simp [isUnmarked, hm, hparts.startOf]
      rw [hparts.typed_iff hcode, ← hunmarked]
      refine ⟨fun h _ span hs => ?_, fun h => h hplain _ hspan⟩
      rw [hspan, Option.some.injEq] at hs
      exact hs ▸ h
    · rw [not_isPlain_of_identifier hb hm hname htext] at hplain
      cases hplain
  · rw [show Rules.script.retype o x width = x.info.fullText by simp [Rules.script, hplain]]
    exact ⟨fun _ h => absurd h hplain, fun _ => rfl⟩

end MemberOrder.Script
