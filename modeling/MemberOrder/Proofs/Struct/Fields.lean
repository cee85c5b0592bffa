/-
  The code of fields.

  Every field that is read is what was made of a segment of a body (`read_made`): but for comments, unit
  and block its record is that of `shapeOf`. It is its names, its type and its tags, with white space and
  comments between them (`field_parts`, `tags_parts`). Typed anew it has blanks there, and its names are
  squeezed, the comments between them included. So it keeps its code (`retype_keeps_code`) where no literal
  is open before it and its type does not go on in its tags.
-/
import MemberOrder.Layout.Rules
import MemberOrder.Proofs.Layout.Labels
import MemberOrder.Proofs.Placement.Reading
import MemberOrder.Proofs.Placement.Struct
import MemberOrder.Proofs.Source.Squeezing

namespace MemberOrder.Struct

open Attachment

/-! ## Records -/

/-- A field is what was made of a segment, comments, unit and block aside. -/
def Holds (s : Scanned) (m : Member) : Prop :=
  ∃ g a b, Cut s g a b ∧ m.info.bare = (shapeOf s g).info.bare

/-- Fields between two brackets are those of its segments, if there are any. -/
def CutFrom (s : Scanned) (brace close : Nat) (ms : List Member) : Prop :=
  ms ≠ [] → ms.map (·.info.span) = (segments s (brace + 1) close).map fun g => some (s.span g.start g.stop)

/-- A field is what was made of a segment, and the fields inside it are those of the segments of its
block. -/
structure Made (s : Scanned) (m : Member) : Prop where
  holds : Holds s m
  children : ∀ i ms, m = .group i ms →
    ∃ brace close, i.body = some (s.span (brace + 1) close) ∧ CutFrom s brace close ms

/-- A body reader makes fields of segments, at every depth. -/
def ReadsMade (s : Scanned) (body : BodyReader) : Prop :=
  ∀ brace close pool, brace < close →
    EachThroughout (Made s) (body brace close pool).1.1 ∧ CutFrom s brace close (body brace close pool).1.1

variable {s : Scanned} {body : BodyReader} {g : Segment} {a b : Nat}

theorem Made.mapInfo {m : Member} {f : MemberInfo → MemberInfo} (h : Made s m)
    (hf : ∀ i, (f i).bare = i.bare) (hbody : ∀ i, (f i).body = i.body) : Made s (m.mapInfo f) := by
  obtain ⟨⟨g, a, b, hcut, hinfo⟩, hchildren⟩ := h
  cases m with
  | leaf i => exact ⟨⟨g, a, b, hcut, (hf i).trans hinfo⟩, fun _ _ heq => nomatch heq⟩
  | group i ms =>
    refine ⟨⟨g, a, b, hcut, (hf i).trans hinfo⟩, fun j ns heq => ?_⟩
    cases heq
    rw [hbody]
    exact hchildren i ms rfl

theorem memberOfShape_made (hbody : ReadsMade s body) (hg : Cut s g a b) (pool : List Comment) :
    (memberOfShape s body (shapeOf s g) pool).1.Throughout (Made s) ∧
      (memberOfShape s body (shapeOf s g) pool).1.info.span = some (s.span g.start g.stop) := by
  obtain ⟨hspan, -, -, hblock⟩ := shapeOf_spec s g
  cases hb : (shapeOf s g).block with
  | none =>
    simp only [memberOfShape, hb, pure_apply]
    exact ⟨⟨⟨g, a, b, hg, rfl⟩, fun _ _ heq => by cases heq⟩, hspan⟩
  | some brackets =>
    have hlt := (hblock brackets.1 brackets.2 hb).2.1
    obtain ⟨heach, hcut⟩ := hbody brackets.1 brackets.2 pool hlt
    simp only [memberOfShape, hb, bind_apply, pure_apply]
    refine ⟨⟨⟨⟨g, a, b, hg, rfl⟩, fun i ms heq => ?_⟩, heach⟩, hspan⟩
    cases heq
    exact ⟨brackets.1, brackets.2, rfl, hcut⟩

theorem memberOf_made (hbody : ReadsMade s body) (hg : Cut s g a b) (close floor : Nat)
    (pool : List Comment) : (memberOf s body close g floor pool).1.1.Throughout (Made s) ∧
      (memberOf s body close g floor pool).1.1.info.span = some (s.span g.start g.stop) := by
  obtain ⟨hself, hspan⟩ := memberOfShape_made hbody hg (takeLeading s g.start floor pool).2
  simp only [memberOf, bind_apply, pure_apply]
  refine ⟨hself.mapInfo fun m hm => hm.mapInfo (fun i => rfl) fun i => rfl, ?_⟩
  refine Eq.trans (Member.span_mapInfo ?_ _) hspan
  exact fun i => rfl

theorem membersFrom_made (hbody : ReadsMade s body) {close : Nat} {gs : List Segment}
    (hgs : Chain (Cut s) a close gs) (floor : Nat) (pool : List Comment) :
    EachThroughout (Made s) (membersFrom s body close gs floor pool).1 ∧
      (membersFrom s body close gs floor pool).1.map (·.info.span) =
        gs.map fun g => some (s.span g.start g.stop) := by
  induction hgs generalizing floor pool with
  | nil h => exact ⟨trivial, rfl⟩
  | cons hi hg hrest ih =>
    obtain ⟨hmade, hspan⟩ := memberOf_made hbody hg _ floor pool
    obtain ⟨heach, hspans⟩ := ih (memberOf s body _ _ floor pool).1.2 (memberOf s body _ _ floor pool).2
    simp only [membersFrom, bind_apply, pure_apply]
    refine ⟨⟨hmade, heach⟩, ?_⟩
    rw [List.map_cons, List.map_cons, hspans, hspan]

/-- The fields of every body, by induction on the depth of structs. -/
theorem readBody_made (s : Scanned) (fuel : Nat) : ReadsMade s (readBody s fuel) := by
  induction fuel with
  | zero => exact fun _ _ _ _ => ⟨trivial, fun hne => absurd rfl hne⟩
  | succ fuel ih =>
    intro brace close pool hlt
    obtain ⟨heach, hspans⟩ := membersFrom_made ih (segments_chain s hlt) (brace + 1) pool
    simp only [readBody, bind_apply, pure_apply]
    exact ⟨heach, fun _ => hspans⟩

/-- The fields of an entity are those of the segments of its body, and so are those of their blocks. -/
structure EntityMade (s : Scanned) (e : Entity) : Prop where
  members : EachThroughout (Made s) e.members
  body : ∃ brace close, e.body = some (s.span (brace + 1) close) ∧ CutFrom s brace close e.members

theorem entityOf_made (fileType : FileType) {d : Declaration} {close : Nat} (floor : Nat)
    (pool : List Comment) (hlt : d.brace < close) :
    EntityMade s (entityOf s fileType d close floor pool).1 := by
  obtain ⟨heach, hcut⟩ := readBody_made s (s.masked.size + 1) d.brace close
    (takeLeading s d.start floor pool).2 hlt
  refine ⟨?_, d.brace, close, rfl, ?_⟩
  · simp only [entityOf, bind_apply, pure_apply]
    exact heach
  · simp only [entityOf, bind_apply, pure_apply]
    exact hcut

theorem entitiesFrom_made (s : Scanned) (fileType : FileType) (ds : List Declaration) (floor : Nat)
    (pool : List Comment) :
    ∀ e ∈ (entitiesFrom s fileType ds floor pool).1.1, EntityMade s e := by
  induction ds generalizing floor pool with
  | nil => exact fun e he => absurd he List.not_mem_nil
  | cons d rest ih =>
    by_cases hfloor : d.start < floor
    · simp only [entitiesFrom, hfloor]
      exact ih _ _
    · cases hclose : Brackets.close? Brackets.all s.masked d.brace with
      | none =>
        simp only [entitiesFrom, hfloor, hclose]
        exact ih _ _
      | some close =>
        simp only [entitiesFrom, hfloor, if_false, hclose, bind_apply, pure_apply]
        exact List.forall_mem_cons.mpr
          ⟨entityOf_made fileType floor pool (Brackets.close?_some hclose).1, ih _ _⟩

/-- The fields of a source are made of the segments of its bodies. -/
theorem read_made (fileType : FileType) (t : Text) :
    ∀ e ∈ (read fileType t).entities, EntityMade (Scanned.scan .go t) e :=
  entitiesFrom_made (Scanned.scan .go t) fileType (declarations (Scanned.scan .go t)) 0 _

theorem read_held (fileType : FileType) (t : Text) :
    ∀ e ∈ (read fileType t).entities, EachThroughout (Holds (Scanned.scan .go t)) e.members :=
  fun e he => (read_made fileType t e he).members.imp fun _ h => h.holds

end MemberOrder.Struct

namespace MemberOrder.Struct

open Layout Lexeme Scanned Pattern

/-! ## The parts of a field -/

/-- A character of the names of a field, or between them. -/
def inNames (c : Char) : Bool := Text.isWord c || Text.isSpace c || c == ','

/-- The names of a field up to `k`, white space, and its type from `n` up to `stop`. -/
structure Parts (t : Text) (a stop : Nat) (m : Pattern.Found) (k n : Nat) : Prop where
  startOf : m.startOf "names" = a
  stopOf : m.stopOf "names" = k
  typeAt : m.startOf "type" = n
  lt : a < k
  names : ∀ x, a ≤ x → x < k → t.testAt x inNames = true
  word : t.testAt (k - 1) Text.isWord = true
  le : k ≤ n
  spaces : ∀ x, k ≤ x → x < n → t.testAt x Text.isSpace = true
  inside : n < stop
  typed : ∃ c, t[n]? = some c ∧ Text.isSpace c = false

theorem within_identifier : Within inNames identifier :=
  within_seq (within_one fun c hc => by simp [inNames, Text.isWord_of_isNameStart hc])
    (within_span fun c hc => by simp [inNames, hc])

theorem endsIn_identifier : EndsIn Text.isWord identifier := by
  have hword : Within Text.isWord identifier :=
    within_seq (within_one fun c hc => Text.isWord_of_isNameStart hc) (within_span fun c hc => hc)
  intro t stop i j marks h
  have hlt := consumes_seq_left (consumes_one _) _ t stop i j marks h
  exact ⟨hlt, hword.stopsWith t stop i j marks h hlt⟩

theorem field_parts {t : Text} {a stop : Nat} {m : Pattern.Found}
    (h : namedField.fullMatch? t a stop = some m) : ∃ k n, Parts t a stop m k n := by
  obtain ⟨-, hstop, hmatch⟩ := fullMatch?_matches h
  obtain ⟨k, _, _, ⟨inner, hnames, rfl⟩, ⟨n, marks₁, _, hspaces, ⟨inner', htype, rfl⟩, rfl⟩, hmarks⟩ := hmatch
  obtain rfl : inner = [] := hnames.marks_eq_nil rfl
  obtain rfl : marks₁ = [] := hspaces.marks_eq_nil rfl
  obtain rfl : inner' = [] := htype.marks_eq_nil rfl
  have hmarks : m.marks = [("type", n, m.stop), ("names", a, k)] := hmarks
  have hspaces' : Within Text.isSpace spaces1 := within_seq (within_one fun _ h => h) (within_span fun _ h => h)
  have hblank : ∀ c, Text.isSpace c = true → inNames c = true := fun c hc => by simp [inNames, hc]
  have hmore : Within inNames
      (.seq identifier (.many (all [Pattern.spaces, char ',', Pattern.spaces, identifier]))) := by
    refine within_seq within_identifier (within_many (within_seq (within_span hblank)
      (within_seq (within_one fun c hc => ?_) (within_seq (within_span hblank) within_identifier))))
    rw [beq_iff_eq.mp hc]
    decide
  have hlast : StopsWith Text.isWord
      (.seq identifier (.many (all [Pattern.spaces, char ',', Pattern.spaces, identifier]))) :=
    stopsWith_seq (fun _ _ _ _ _ h _ => (endsIn_identifier _ _ _ _ _ h).2) (stopsWith_many fun _ _ _ _ _ h _ =>
      (endsIn_seq _ (endsIn_seq _ (endsIn_seq _ endsIn_identifier)) _ _ _ _ _ h).2)
  have hlong := (startsIn_seq (startsIn_seq (startsIn_one _) _) _ _ _ _ _ _ hnames).1
  obtain ⟨hlt, hfirst⟩ := startsIn_seq (startsIn_one _) _ _ _ _ _ _ htype
  obtain ⟨c, hc, hspace⟩ := Text.testAt_iff.mp hfirst
  exact ⟨k, n, by rw [Found.startOf, Found.piece?, hmarks]; rfl,
    by rw [Found.stopOf, Found.piece?, hmarks]; rfl, by rw [Found.startOf, Found.piece?, hmarks]; rfl,
    hlong, hmore _ _ _ _ _ hnames, hlast _ _ _ _ _ hnames hlong, hspaces.bounds.1, hspaces' _ _ _ _ _ hspaces, hstop ▸ hlt, c, hc, by simpa using hspace⟩

/-- The tags of a field stand between grave accents at its end. -/
theorem tags_parts {t : Text} {a b : Nat} {m : Pattern.Found} (h : tags.search? t a b = some m)
    (hlast : t.testAt (b - 1) Text.isSpace = false) :
    a ≤ m.start ∧ m.start + 1 < b ∧ t[m.start]? = some Profile.grave ∧ t[b - 1]? = some Profile.grave := by
  obtain ⟨ha, hb, hmatch⟩ := search?_matches h
  obtain ⟨i, _, _, hopen, ⟨j, _, _, hinside, ⟨k, _, _, hclose, ⟨n, _, _, hspaces, hend, -⟩, -⟩, -⟩, -⟩ := hmatch
  obtain ⟨-, hopen, rfl, -⟩ := hopen
  obtain ⟨hlt, hclose, rfl, -⟩ := hclose
  obtain ⟨hle, -, hspaces, -⟩ := hspaces
  obtain ⟨hend, rfl, -⟩ := hend
  have hij := hinside.bounds.1
  -- white space after the accent would come last
  have hlast' : b = j + 1 := by
    rw [Bool.or_eq_true, beq_iff_eq, Bool.and_eq_true, beq_iff_eq] at hend
    rcases hend with rfl | ⟨hend, hfeed⟩
    · refine Nat.le_antisymm (Nat.le_of_not_lt fun hlt => ?_) hlt
      rw [hspaces (m.stop - 1) (by omega) (by omega)] at hlast
      cases hlast
    · rw [← hend, Nat.add_sub_cancel, Text.testAt_of_getElem? (Text.hasAt_iff.mp hfeed)] at hlast
      exact absurd hlast (by decide)
  refine ⟨ha, by omega, Text.hasAt_iff.mp hopen, ?_⟩
  rw [hlast', Nat.add_sub_cancel]
  exact Text.hasAt_iff.mp hclose

/-! ## The code of the parts -/

variable {t : Text} {a b stop k n width : Nat} {m : Pattern.Found} {i : MemberInfo}

theorem plain_of_isSpace {c : Char} (h : Text.isSpace c = true) : Plain .go c :=
  plain_of_class (f := Text.isSpace) (by decide) h

/-- The names of a field are on one line, so they are plain characters and block comments. -/
theorem Parts.noted {g : Segment} {b' : Nat} (hcut : Cut (scan .go t) g a b')
    (h : Parts (scan .go t).masked a stop m k n) (hstops : Stops .go t a) (hstop : stop ≤ g.stop) :
    ∃ code, Noted .go (t.slice a k) code := by
  obtain ⟨c, hc, -⟩ := h.typed
  have hsize : n < t.size := size_masked .go t ▸ Text.lt_size_of_getElem? hc
  have hkn := h.le
  have hn := h.inside
  have hopen : Open (scan .go t) g.start k := by
    rw [hcut.start_eq]
    intro y hy hlt
    obtain ⟨c, hc, hname⟩ := Text.testAt_iff.mp (h.names y hy hlt)
    rw [Text.testAt_of_getElem? hc]
    refine Bool.eq_false_iff.mpr fun hbracket => ?_
    simp only [isBracket, Bool.or_eq_true, beq_iff_eq] at hbracket
    rcases hbracket with ((((rfl | rfl) | rfl) | rfl) | rfl) | rfl <;> exact absurd hname (by decide)
  have hline := hcut.oneLine k (by omega) hopen
  rw [hcut.start_eq] at hline
  refine hstops.noted h.lt (by omega) (by decide) h.names hline ?_
  obtain ⟨d, hd, hword⟩ := Text.testAt_iff.mp h.word
  rw [Text.testAt_of_getElem? hd, Text.isSpace_of_isWord hword]

/-- The code of a field is that of its names and that of its type and what follows. -/
theorem packedCode_field {code : List Char} (hstops : Stops .go t a) (h : Parts (scan .go t).masked a stop m k n)
    (hnoted : Noted .go (t.slice a k) code) (hb : stop ≤ b) :
    Stops .go t n ∧ packedCode .go (t.slice a b) = code ++ packedCode .go (t.slice n b) := by
  have hak := h.lt
  have hkn := h.le
  have hn := h.inside
  obtain ⟨c, hc, hspace⟩ := h.typed
  have hsize : n < t.size := size_masked .go t ▸ Text.lt_size_of_getElem? hc
  obtain ⟨e, before, hbefore⟩ := hstops
  obtain ⟨ls, hls, -⟩ := reads_of_readOn (by decide) (by omega) (Nat.le_of_lt hak) (hnoted []) e
  obtain ⟨hstopsn, hgap⟩ := Stops.packedCode_before ⟨e, _, hbefore.trans hls⟩ hkn (by decide) h.spaces
    hc hspace (show n ≤ b by omega)
  refine ⟨hstopsn, ?_⟩
  rw [← Text.slice_append t (Nat.le_of_lt hak) (show k ≤ b by omega),
    packedCode_append (hnoted.seam (by decide) _), hgap, hnoted.packedCode_eq (by decide),
    Text.pack_slice_eq_nil h.spaces]
  rfl

/-- The code of a type with tags after it. -/
theorem packedCode_tagged {tag : Nat} (hstops : Stops .go t n) (hn : n < stop)
    (hstop : stop = (scan .go t).prevCode tag a) (htag : (scan .go t).masked[tag]? = some Profile.grave)
    (hsealed : Sealed .go (t.slice n stop)) (hb : tag ≤ b) :
    packedCode .go (t.slice n b) = packedCode .go (t.slice n stop) ++ packedCode .go (t.slice tag b) := by
  have hle : stop ≤ tag := hstop ▸ Text.prevCode_le _ _ _
  have hsize : tag < t.size := size_masked .go t ▸ Text.lt_size_of_getElem? htag
  have hspaces : ∀ x, stop ≤ x → x < tag → (scan .go t).masked.testAt x Text.isSpace = true :=
    fun x h1 h2 => Text.space_after_prevCode (hstop ▸ h1) h2
  obtain ⟨-, hgap⟩ := (hsealed.stops hstops (Nat.le_of_lt hn) (by omega) rfl).packedCode_before hle
    (by decide) hspaces htag (by decide) hb
  rw [← Text.slice_append t (Nat.le_of_lt hn) (show stop ≤ b by omega),
    packedCode_append (hsealed.anywhere _), hgap, Text.pack_slice_eq_nil hspaces]
  rfl

/-! ## Fields typed anew -/

/-- The tags of a field as they are typed. -/
def tagText (i : MemberInfo) : List Char :=
  match i.structTags with
  | some tags => Profile.grave :: tags.toList ++ [Profile.grave]
  | none => []

theorem retypeField_text (o : Options) (i : MemberInfo) (width : Nat) :
    ∃ m, (Rules.retypeField o i width).toList = i.name.toList ++ (List.replicate m ' ' ++
      (i.value.display.toList ++ ((if i.structTags.isSome then [' '] else []) ++ tagText i))) := by
  obtain ⟨m, hname⟩ : ∃ m, (if o.propertySpacing == some .aligned then
      String.ofList (Text.padRight width i.name.toList) else i.name).toList =
        i.name.toList ++ List.replicate m ' ' := by
    split
    · exact ⟨_, String.toList_ofList⟩
    · exact ⟨0, by simp⟩
  refine ⟨m + 1, ?_⟩
  unfold Rules.retypeField tagText
  cases i.structTags with
  | none =>
    simp only [String.toList_append, hname, List.replicate_succ']
    simp
  | some tags =>
    simp only [String.toList_append, hname, List.replicate_succ']
    simp [Profile.grave]

/-- The code of a field typed anew is that of its names, its type and its tags. -/
theorem packedCode_retype {code : List Char} (hname : Noted .go i.name.toList code)
    (htype : i.structTags.isSome = true → Sealed .go i.value.display.toList) (o : Options) (width : Nat) :
    packedCode .go (Rules.retypeField o i width).toList =
      code ++ (packedCode .go i.value.display.toList ++ packedCode .go (tagText i)) := by
  have hblanks : ∀ (m : Nat), ∀ c ∈ List.replicate m ' ', Plain .go c := fun m c hc => by
    rw [(List.mem_replicate.mp hc).2]
    exact plain_of_isSpace (by decide)
  have hpack : ∀ m, packedCode .go (List.replicate m ' ') = [] := fun m => by
    rw [packedCode_of_plain (hblanks m)]
    exact pack_eq_nil fun c hc => by rw [(List.mem_replicate.mp hc).2]; decide
  obtain ⟨m, htext⟩ := retypeField_text o i width
  rw [htext, packedCode_append (hname.seam (by decide) _), hname.packedCode_eq (by decide),
    packedCode_append (seam_of_plain (hblanks m) _), hpack, List.nil_append]
  cases htags : i.structTags with
  | none =>
    have hnil : packedCode .go [] = [] := hpack 0
    simp only [tagText, htags, Option.isSome_none, Bool.false_eq_true, if_false, List.append_nil, hnil]
  | some tags =>
    have hblank := packedCode_append (seam_of_plain (hblanks 1) (tagText i))
    rw [hpack, List.nil_append] at hblank
    rw [Option.isSome_some, if_pos rfl, packedCode_append ((htype (by rw [htags]; rfl)).anywhere _)]
    exact congrArg (fun rest => code ++ (packedCode .go i.value.display.toList ++ rest)) hblank

/-! ## The record of a field -/

/-- Where the type of a field stops: before its tags. -/
def typeStop (s : Scanned) (g : Segment) : Nat :=
  match tags.search? s.masked g.start g.stop with
  | some m => s.prevCode m.start g.start
  | none => g.stop

theorem shapeOf_isNamedField {s : Scanned} {g : Segment} (hi : i.bare = (shapeOf s g).info.bare)
    (h : Rules.isNamedField i = true) :
    (∃ m, namedField.fullMatch? s.masked g.start (typeStop s g) = some m ∧
      i.name = Text.squeeze (s.source.cut (m.startOf "names") (m.stopOf "names")) ∧
      i.value = .text (s.source.cut (m.startOf "type") (typeStop s g))) ∧
    i.structTags = (tags.search? s.masked g.start g.stop).map fun m =>
      String.ofList ((Text.trim (s.source.slice m.start g.stop)).drop 1).dropLast := by
  have hfield : i.bare.isEmbedded = false ∧ i.bare.kind = .property := by
    simp only [Rules.isNamedField, Bool.and_eq_true, beq_iff_eq, Bool.not_eq_true'] at h
    exact h.1
  unfold typeStop
  unfold shapeOf at hi
  dsimp only at hi
  cases htag : tags.search? s.masked g.start g.stop
  all_goals
    simp only [htag] at hi ⊢
    split at hi
    · rw [hi] at hfield
      cases show true = false from hfield.1
    · split at hi
      · rw [hi] at hfield
        cases show MemberKind.signature = .property from hfield.2
      · rename_i m hm
        exact ⟨⟨m, hm, (congrArg MemberInfo.name hi :), (congrArg MemberInfo.value hi :)⟩,
          (congrArg MemberInfo.structTags hi :)⟩

theorem trim_enclosed {c d : Char} (hc : Text.isSpace c = false) (hd : Text.isSpace d = false)
    (cs : List Char) : Text.trim (c :: cs ++ [d]) = c :: cs ++ [d] := by
  simp [Text.trim, Text.trimLeft, Text.trimRight, hc, hd]

/-- The text of tags is between the grave accents around it. -/
theorem slice_tags {m : Pattern.Found} (h : tags.search? (scan .go t).masked a b = some m)
    (hlast : (scan .go t).masked.testAt (b - 1) Text.isSpace = false) :
    t.slice m.start b =
      Profile.grave :: ((Text.trim (t.slice m.start b)).drop 1).dropLast ++ [Profile.grave] := by
  obtain ⟨-, hlt, hopen, hclose⟩ := tags_parts h hlast
  have hfirst := Text.slice_one (source_of_masked hopen (by decide) (by decide))
  have hend := Text.slice_one (source_of_masked hclose (by decide) (by decide))
  rw [show b - 1 + 1 = b by omega] at hend
  have hslice : t.slice m.start b = Profile.grave :: t.slice (m.start + 1) (b - 1) ++ [Profile.grave] := by
    rw [← Text.slice_append t (Nat.le_succ m.start) (show m.start + 1 ≤ b by omega), hfirst,
      ← Text.slice_append t (show m.start + 1 ≤ b - 1 by omega) (Nat.sub_le b 1), hend]
    rfl
  rw [hslice, trim_enclosed (by decide) (by decide)]
  simp

/-- The code of a type and its tags. -/
theorem packedCode_typed {g : Segment} (hstops : Stops .go t n) (hn : n < typeStop (scan .go t) g)
    (hlast : (scan .go t).masked.testAt (g.stop - 1) Text.isSpace = false)
    (htags : i.structTags = (tags.search? (scan .go t).masked g.start g.stop).map fun m =>
      String.ofList ((Text.trim (t.slice m.start g.stop)).drop 1).dropLast)
    (hsealed : i.structTags.isSome = true → Sealed .go (t.slice n (typeStop (scan .go t) g))) :
    packedCode .go (t.slice n g.stop) =
      packedCode .go (t.slice n (typeStop (scan .go t) g)) ++ packedCode .go (tagText i) := by
  cases htag : tags.search? (scan .go t).masked g.start g.stop with
  | none =>
    rw [htag] at htags
    simp only [tagText, htags, typeStop, htag, Option.map_none]
    exact (List.append_nil _).symm
  | some tag =>
    rw [htag] at htags
    obtain ⟨-, hlt, hopen, -⟩ := tags_parts htag hlast
    have htext : tagText i = t.slice tag.start g.stop := by
      rw [slice_tags htag hlast]
      simp only [tagText, htags, Option.map_some, String.toList_ofList]
    rw [htext]
    exact packedCode_tagged hstops hn (by simp only [typeStop, htag]; rfl) hopen
      (hsealed (by rw [htags]; rfl)) (by omega)

/-- What is typed anew can be read: no literal is open where the field starts, and its type does not go on in
its tags. -/
def Legible (t : Text) (i : MemberInfo) : Prop :=
  Rules.isNamedField i = true → (∀ span, i.span = some span → Boundary .go t span.start) ∧
    (i.structTags.isSome = true → Sealed .go i.value.display.toList)

/-- Typed anew, a field keeps its code. -/
theorem retype_keeps_code {x : Member} (hx : Holds (scan .go t) x) (hlegible : Legible t x.info)
    (o : Options) (width : Nat) :
    packedCode .go (Rules.struct.retype o x width).toList = packedCode .go x.info.fullText.toList := by
  by_cases hnamed : Rules.isNamedField x.info = true
  · obtain ⟨g, a, b, hcut, hinfo⟩ := hx
    obtain ⟨hspan, htext, -, -⟩ := shapeOf_spec (scan .go t) g
    replace hspan : x.info.span = some ((scan .go t).span g.start g.stop) :=
      (congrArg MemberInfo.span hinfo :).trans hspan
    replace htext : x.info.fullText = t.cut g.start g.stop :=
      (congrArg MemberInfo.fullText hinfo :).trans htext
    obtain ⟨hb, hsealed⟩ := hlegible hnamed
    obtain ⟨⟨m, hm, hname, hvalue⟩, htags⟩ := shapeOf_isNamedField hinfo hnamed
    obtain ⟨k, n, hparts⟩ := field_parts hm
    rw [hparts.startOf, hparts.stopOf] at hname
    rw [hparts.typeAt] at hvalue
    have hcode : (scan .go t).masked.testAt g.start Text.isSpace = false := hcut.code
    have hstops : Stops .go t g.start := by
      obtain ⟨c, hc, -⟩ := hparts.typed
      have hn := size_masked .go t ▸ Text.lt_size_of_getElem? hc
      have hlt := hparts.lt
      have hle := hparts.le
      have hb : Boundary .go t g.start := hb _ hspan
      exact hb.stops (by omega) (Or.inl rfl) hcode
    have hstop : typeStop (scan .go t) g ≤ g.stop := by
      unfold typeStop
      split
      · rename_i tag htag
        exact Nat.le_trans (Text.prevCode_le _ _ _) (search?_matches htag).2.1
      · exact Nat.le_refl _
    obtain ⟨code, hnoted⟩ := hparts.noted (hcut.start_eq ▸ hcut) hstops hstop
    have hname' : x.info.name.toList = Text.collapse (t.slice g.start k) := by
      rw [hname, Text.squeeze, Text.cut, String.toList_ofList, String.toList_ofList]
      rfl
    have hnamed' : Noted .go x.info.name.toList code := by
      rw [hname']
      exact hnoted.collapse fun c => plain_of_isSpace
    have hdisplay : x.info.value.display.toList = t.slice n (typeStop (scan .go t) g) := by
      rw [hvalue]
      exact String.toList_ofList
    have hretype : Rules.struct.retype o x width = Rules.retypeField o x.info width := by
      simp [Rules.struct, hnamed]
    have hlast : (scan .go t).masked.testAt (g.stop - 1) Text.isSpace = false := hcut.lastCode
    obtain ⟨hstopsn, hfield⟩ := packedCode_field hstops hparts hnoted hstop
    rw [hretype, packedCode_retype hnamed' hsealed, htext, Text.cut, String.toList_ofList, hfield, hdisplay,
      packedCode_typed hstopsn hparts.inside hlast htags (hdisplay ▸ hsealed)]
  · rw [show Rules.struct.retype o x width = x.info.fullText by simp [Rules.struct, hnamed]]

end MemberOrder.Struct
