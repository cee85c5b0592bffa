/-
  What an entity that is written anew consists of, counted character by character.

  White space aside, its body holds its `bodyParts` and the comments that are written with its members, and
  nothing else, whatever the layout (`count_retypedBody`): this follows by induction on the nesting of
  members from the same fact about the lines of one member (`tally_memberLines`).
-/
import Mathlib.Algebra.GroupWithZero.Nat
import MemberOrder.Proofs.Layout.Parts

namespace MemberOrder.Layout

variable {x : Char} {cs : List Char} {o : Options}

/-! ## How often a character occurs -/

/-- How often a character occurs in pieces of text. -/
def tally (x : Char) (pieces : List (List Char)) : Nat := (pieces.map (List.count x)).sum

@[simp]
theorem tally_nil (x : Char) : tally x [] = 0 := rfl

@[simp]
theorem tally_cons (x : Char) (piece : List Char) (rest : List (List Char)) :
    tally x (piece :: rest) = piece.count x + tally x rest := rfl

@[simp]
theorem tally_append (x : Char) (ps qs : List (List Char)) : tally x (ps ++ qs) = tally x ps + tally x qs := by
  rw [tally, List.map_append, List.sum_append]
  rfl

theorem count_spaces (hx : Text.isSpace x = false) (h : ∀ c ∈ cs, Text.isSpace c = true) : cs.count x = 0 := by
  refine List.count_eq_zero.mpr fun hmem => ?_
  rw [h x hmem] at hx
  cases hx

theorem count_trimLeft (hx : Text.isSpace x = false) (cs : List Char) : (Text.trimLeft cs).count x = cs.count x := by
  have hspaces : (cs.takeWhile Text.isSpace).count x = 0 :=
    count_spaces hx fun c hc => List.all_eq_true.mp List.all_takeWhile c hc
  calc (Text.trimLeft cs).count x
      = (cs.takeWhile Text.isSpace).count x + (cs.dropWhile Text.isSpace).count x := by
        rw [hspaces, Nat.zero_add, Text.trimLeft]
    _ = cs.count x := by rw [← List.count_append, List.takeWhile_append_dropWhile]

theorem count_trimRight (hx : Text.isSpace x = false) (cs : List Char) :
    (Text.trimRight cs).count x = cs.count x := by
  have h := count_trimLeft hx cs.reverse
  rw [List.count_reverse] at h
  rw [← h, Text.trimRight, List.count_reverse]
  rfl

theorem count_trim (hx : Text.isSpace x = false) (cs : List Char) : (Text.trim cs).count x = cs.count x := by
  rw [Text.trim, count_trimRight hx, count_trimLeft hx]

theorem count_join {sep : List Char} (hsep : sep.count x = 0) (pieces : List (List Char)) :
    (Text.join sep pieces).count x = tally x pieces := by
  induction pieces with
  | nil => rfl
  | cons piece rest ih =>
    cases rest with
    | nil => simp [Text.join]
    | cons next more =>
      have hjoin : Text.join sep (piece :: next :: more) = piece ++ sep ++ Text.join sep (next :: more) := rfl
      rw [hjoin, List.count_append, List.count_append, hsep, ih, Nat.add_zero, tally_cons x piece]

/-- Taking white space off lines, and the lines that are then empty, takes no other characters. -/
theorem tally_trimmed (hx : Text.isSpace x = false) (lines : List (List Char)) :
    tally x ((lines.map Text.trim).filter (!·.isEmpty)) = tally x lines := by
  induction lines with
  | nil => rfl
  | cons line rest ih =>
    have hline := count_trim hx line
    rw [List.map_cons, List.filter_cons, tally_cons, ← ih, ← hline]
    cases Text.trim line with
    | nil => simp
    | cons c more => rfl

theorem count_withLineEnding (hx : Text.isSpace x = false) {ending : List Char}
    (hending : ∀ c ∈ ending, Text.isSpace c = true) (cs : List Char) :
    (withLineEnding ending cs).count x = cs.count x := by
  have hnone : ending.count x = 0 := count_spaces hx hending
  have hcons (c : Char) (hc : Text.isSpace c = true) (rest : List Char) : (c :: rest).count x = rest.count x := by
    have hne : c ≠ x := fun h => by
      rw [← h, hc] at hx
      cases hx
    exact List.count_cons_of_ne hne
  fun_induction withLineEnding ending cs with
  | case1 => rfl
  | case2 rest ih => rw [List.count_append, hnone, ih, hcons _ (by decide), hcons _ (by decide), Nat.zero_add]
  | case3 c rest hpair hbreak ih =>
    rw [beq_iff_eq.mp hbreak, List.count_append, hnone, ih, hcons _ (by decide), Nat.zero_add]
  | case4 c rest hpair hbreak ih => rw [List.count_cons, List.count_cons, ih]

theorem count_endLines (hx : Text.isSpace x = false) (cs : List Char) : (endLines o cs).count x = cs.count x := by
  unfold endLines withOptionsEnding
  split
  · rfl
  · refine count_withLineEnding hx ?_ cs
    unfold lineEndingFor
    cases o.lineEnding with
    | lf => decide
    | crlf => decide
    | auto =>
      unfold detectLineEnding
      dsimp only
      split <;> decide

/-! ## Comments -/

/-- Comments as they are written, without indentation. -/
def writtenComments (s : Setting) (cs : List Comment) : List (List Char) :=
  if s.options.commentsEnabled then
    cs.map fun c => (writeComment s.rules.comments s.options.commentStyle "" c).toList
  else []

theorem writtenComments_nil (s : Setting) : writtenComments s [] = [] := by
  unfold writtenComments
  split <;> rfl

theorem writtenComments_append (s : Setting) (cs ds : List Comment) :
    writtenComments s (cs ++ ds) = writtenComments s cs ++ writtenComments s ds := by
  unfold writtenComments
  split
  · exact List.map_append
  · rfl

variable {s : Setting}

theorem count_asLines (hx : Text.isSpace x = false) {indent : List Char}
    (hindent : ∀ c ∈ indent, Text.isSpace c = true) (mark : List Char) (lines : List (List Char)) :
    (asLines mark indent lines).count x = (asLines mark [] lines).count x := by
  have hsep {b : List Char} (hb : ∀ c ∈ b, Text.isSpace c = true) : ('\n' :: b).count x = 0 :=
    count_spaces hx (List.forall_mem_cons.mpr ⟨by decide, hb⟩)
  rw [asLines, asLines, count_join (hsep hindent), count_join (hsep (List.forall_mem_nil _))]

theorem count_asBlock (hx : Text.isSpace x = false) {indent : List Char}
    (hindent : ∀ c ∈ indent, Text.isSpace c = true) (lines : List (List Char)) :
    (asBlock indent lines).count x = (asBlock [] lines).count x := by
  have hnone : indent.count x = 0 := count_spaces hx hindent
  have hline (line : List Char) :
      (Text.trimRight ('\n' :: indent ++ [' ', '*', ' '] ++ line)).count x =
        (Text.trimRight ('\n' :: [] ++ [' ', '*', ' '] ++ line)).count x := by
    rw [count_trimRight hx, count_trimRight hx]
    simp [List.count_cons, hnone]
  have hbody : (lines.flatMap fun line => Text.trimRight ('\n' :: indent ++ [' ', '*', ' '] ++ line)).count x =
      (lines.flatMap fun line => Text.trimRight ('\n' :: [] ++ [' ', '*', ' '] ++ line)).count x := by
    rw [List.count_flatMap, List.count_flatMap]
    exact congrArg List.sum (List.map_congr_left fun line _ => hline line)
  unfold asBlock
  split
  · rfl
  · simp only [List.count_append, List.count_cons, hbody, hnone, List.count_nil]

/-- Indentation adds only white space to a comment. -/
theorem count_writeComment (hx : Text.isSpace x = false) {indent : String} (hindent : Indents indent.toList)
    (forms : CommentForms) (style : CommentStyle) (c : Comment) :
    (writeComment forms style indent c).toList.count x = (writeComment forms style "" c).toList.count x := by
  have hlines (mark : List Char) := count_asLines hx hindent.space mark (bodyLines c)
  have hblock := count_asBlock hx hindent.space (bodyLines c)
  have hempty : "".toList = [] := rfl
  unfold writeComment
  dsimp only
  rw [hempty]
  split
  · rfl
  · split
    · rw [String.toList_ofList, String.toList_ofList, hlines]
    · split
      · split
        · rw [String.toList_ofList, String.toList_ofList, hlines]
        · rw [String.toList_ofList, String.toList_ofList, hblock]
      · rw [String.toList_ofList, String.toList_ofList, hblock]

/-- Comments on lines of their own. -/
theorem tally_writeLeading (hx : Text.isSpace x = false) {indent : String} (hindent : Indents indent.toList)
    (cs : List Comment) :
    tally x (((writeLeading s.rules.comments s.options indent cs).map (indent ++ ·)).map String.toList) =
      tally x (writtenComments s cs) := by
  have hnone : indent.toList.count x = 0 := count_spaces hx hindent.space
  unfold writeLeading writtenComments
  split
  · induction cs with
    | nil => rfl
    | cons c rest ih =>
      simp only [List.map_cons, tally_cons, String.toList_append, List.count_append, hnone, Nat.zero_add,
        count_writeComment hx hindent]
      simpa using ih
  · rfl

/-- Comments behind a member. -/
theorem count_writeTrailing (hx : Text.isSpace x = false) (cs : List Comment) :
    (writeTrailing s.rules.comments s.options cs).toList.count x = tally x (writtenComments s cs) := by
  have hblank : ' ' ≠ x := fun h => by
    rw [← h] at hx
    cases hx
  unfold writeTrailing writtenComments
  split
  · rw [String.toList_ofList]
    induction cs with
    | nil => rfl
    | cons c rest ih =>
      rw [List.flatMap_cons, List.cons_append, List.count_cons_of_ne hblank, List.count_append, ih, List.map_cons,
        tally_cons]
  · rfl

/-! ## Lines -/

/-- Whether a member is written line by line: as a head, the lines inside it and an end. -/
def isSplit (m : Member) : Bool := m.info.span.isSome && m.info.body.isSome && !m.children.isEmpty

mutual

/-- The comments that are written with a member: those around it, and those inside it where it is written
line by line. -/
def notedBy : Member → List Comment
  | .leaf i => i.comments ++ i.trailingComments
  | .group i children =>
    i.comments ++ i.trailingComments ++
      if isSplit (.group i children) then i.dangling ++ notedByEach children else []

/-- The comments that are written with members. -/
def notedByEach : List Member → List Comment
  | [] => []
  | m :: rest => notedBy m ++ notedByEach rest

end

/-- The comments that are written inside the block of a member. -/
def notedInside : Member → List Comment
  | .leaf _ => []
  | .group i children => i.dangling ++ notedByEach children

theorem notedBy_eq (m : Member) :
    notedBy m = m.info.comments ++ m.info.trailingComments ++ if isSplit m then notedInside m else [] := by
  cases m with
  | leaf i =>
    have hleaf : isSplit (.leaf i) = false := by simp [isSplit, Member.children]
    rw [hleaf, notedBy]
    simp [Member.info]
  | group i children => rfl

/-- The lines of a member hold its parts and the comments around it, once those inside it hold the parts
inside it and the comments there. -/
theorem tally_memberLines (hx : Text.isSpace x = false) {indent separator trailing : String}
    (hindent : Indents indent.toList) {width : Nat} {m : Member} {inside : List String}
    {parts : List (List Char)} {n : Nat} (hinside : tally x (inside.map String.toList) = tally x parts + n) :
    tally x ((memberLines s indent width (separator ++ trailing) m inside).map String.toList) =
      tally x (memberParts s width separator m parts) + tally x (writtenComments s m.info.comments) +
        trailing.toList.count x + if isSplit m then n else 0 := by
  have hnone : indent.toList.count x = 0 := count_spaces hx hindent.space
  have htyped : tally x
      ([indent ++ s.rules.retype s.options m width ++ (separator ++ trailing)].map String.toList) =
        tally x [(s.rules.retype s.options m width).toList, separator.toList] + trailing.toList.count x := by
    simp only [List.map_cons, List.map_nil, tally_cons, tally_nil, String.toList_append, List.count_append, hnone]
    omega
  unfold memberLines memberParts isSplit
  rw [List.map_append, tally_append, tally_writeLeading hx hindent]
  cases m.info.span with
  | none =>
    simp only [htyped, Option.isSome_none, Bool.false_and, Bool.false_eq_true, if_false]
    omega
  | some span =>
    cases m.info.body with
    | none =>
      simp only [htyped, Option.isSome_none, Bool.false_and, Bool.and_false, Bool.false_eq_true, if_false]
      omega
    | some body =>
      cases hempty : m.children.isEmpty with
      | true =>
        simp only [htyped, if_true, Bool.not_true, Bool.and_false, Bool.false_eq_true, if_false]
        omega
      | false =>
        simp only [Bool.false_eq_true, if_false, Option.isSome_some, Bool.not_false, Bool.and_self, if_true,
          List.map_cons, List.map_append, List.map_nil, List.cons_append, tally_cons, tally_append, tally_nil,
          String.toList_append, String.toList_ofList, List.count_append, hnone, hinside, count_trimRight hx,
          count_trimLeft hx]
        omega

/-- A line between groups holds nothing. -/
theorem tally_groupBreak (x : Char) (s : Setting) (previous : Option String) (group : String) :
    tally x ((groupBreak s previous group).map String.toList) = 0 := by
  unfold groupBreak
  split <;> rfl

mutual

/-- The lines inside the block of a member hold the parts inside it and the comments there. -/
theorem tally_linesInside (hx : Text.isSpace x = false) {level indent : String} (hlevel : Indents level.toList)
    (hindent : Indents indent.toList) (m : Member) :
    tally x ((linesInside s level indent m).map String.toList) =
      tally x (partsInside s m) + tally x (writtenComments s (notedInside m)) := by
  match m with
  | .leaf i =>
    rw [notedInside, writtenComments_nil]
    rfl
  | .group i children =>
    have hinner : Indents (indent ++ level).toList := by
      rw [String.toList_append]
      exact hindent.append hlevel
    simp only [linesInside, bodyLinesOf, partsInside, bodyParts, map_fst_linesInsideEach, map_fst_partsInsideEach,
      List.map_append, tally_append, notedInside, writtenComments_append]
    rw [tally_linesFrom hx hlevel hinner hindent, tally_writeLeading hx hindent]
    omega

/-- The lines of members hold their parts and the comments with them. -/
theorem tally_linesFrom (hx : Text.isSpace x = false) {level inner indent : String}
    (hlevel : Indents level.toList) (hinner : Indents inner.toList) (hindent : Indents indent.toList)
    {width slot : Nat} {separators : List String} {ms : List Member} {previous : Option String} :
    tally x ((linesFrom s indent width separators slot previous (linesInsideEach s level inner ms)).map
        String.toList) =
      tally x (partsFrom s width separators slot (partsInsideEach s ms)) +
        tally x (writtenComments s (notedByEach ms)) := by
  match ms with
  | [] =>
    rw [notedByEach, writtenComments_nil]
    rfl
  | m :: rest =>
    simp only [linesInsideEach, linesFrom, partsInsideEach, partsFrom, List.map_append, tally_append, notedByEach,
      writtenComments_append, notedBy_eq]
    rw [tally_groupBreak, tally_memberLines hx hindent (tally_linesInside hx hlevel hinner m),
      tally_linesFrom hx hlevel hinner hindent, count_writeTrailing hx]
    cases isSplit m with
    | true =>
      simp only [if_true]
      omega
    | false =>
      simp only [Bool.false_eq_true, if_false, writtenComments_nil, tally_nil]
      omega

end

/-! ## Bodies -/

/-- The first line of a member is indented. -/
theorem memberLines_head (s : Setting) (indent : String) (width : Nat) (tail : String) (m : Member)
    (inside : List String) : ∃ y rest, memberLines s indent width tail m inside = (indent ++ y) :: rest := by
  unfold memberLines
  cases writeLeading s.rules.comments s.options indent m.info.comments with
  | cons y ys => exact ⟨y, _, rfl⟩
  | nil =>
    rw [List.map_nil, List.nil_append]
    cases m.info.span with
    | none => exact ⟨_, [], by rw [String.append_assoc]⟩
    | some span =>
      cases m.info.body with
      | none => exact ⟨_, [], by rw [String.append_assoc]⟩
      | some body =>
        dsimp only
        split
        · exact ⟨_, [], by rw [String.append_assoc]⟩
        · exact ⟨_, _, rfl⟩

/-- The first line of a body that has members is indented. -/
theorem entityLines_head (s : Setting) {e : Entity} (level indent : String) (hne : e.members ≠ []) :
    ∃ y rest, entityLines s e level indent = (indent ++ y) :: rest := by
  obtain ⟨m, more, hmembers⟩ := List.exists_cons_of_ne_nil hne
  have hfirst : groupBreak s none (s.rules.group m.info) = [] := by simp [groupBreak]
  simp only [entityLines, bodyLinesOf, hmembers, linesInsideEach, linesFrom, hfirst, List.nil_append]
  obtain ⟨y, rest, hlines⟩ := memberLines_head s indent _ _ m _
  rw [hlines]
  exact ⟨y, _, rfl⟩

theorem tally_entityLines (hx : Text.isSpace x = false) {e : Entity} {level indent : String}
    (hlevel : Indents level.toList) (hindent : Indents indent.toList) :
    tally x ((entityLines s e level indent).map String.toList) =
      tally x (bodyParts s (partsInsideEach s e.members)) +
        tally x (writtenComments s (e.dangling ++ notedByEach e.members)) := by
  have hinner : Indents (indent ++ level).toList := by
    rw [String.toList_append]
    exact hindent.append hlevel
  simp only [entityLines, bodyLinesOf, bodyParts, map_fst_linesInsideEach, map_fst_partsInsideEach,
    List.map_append, tally_append, writtenComments_append]
  rw [tally_linesFrom hx hlevel hinner hindent, tally_writeLeading hx hindent]
  omega

/-- A body that is written anew holds its parts and the comments that are written in it. -/
theorem count_retypedBody (hx : Text.isSpace x = false) {e : Entity} {body : Span} {inside : List Char}
    (h : retypedBody s e body = .ok inside) (hne : e.members ≠ []) (hindent : Indents e.indent.toList)
    (hbase : Indents e.baseIndent.toList) :
    inside.count x = tally x (bodyParts s (partsInsideEach s e.members)) +
      tally x (writtenComments s (e.dangling ++ notedByEach e.members)) := by
  have hspace (c : Char) (hc : Text.isSpace c = true) (cs : List Char) : (c :: cs).count x = cs.count x := by
    refine List.count_cons_of_ne fun heq => ?_
    rw [← heq, hc] at hx
    cases hx
  have hempty : e.members.isEmpty = false := by simpa using hne
  unfold retypedBody at h
  simp only [hempty, Bool.false_eq_true, if_false] at h
  obtain ⟨level, hlevel, h⟩ := bind_ok h
  have hlevel := indents_of_indentUnit hindent hlevel
  have hjoin (lines : List String) : (joinLines lines).count x = tally x (lines.map String.toList) :=
    count_join (hspace '\n' (by decide) []) _
  split at h
  · -- the indentation of the first line is taken away
    cases h
    obtain ⟨y, rest, hlines⟩ := entityLines_head s level e.indent hne
    rw [← tally_entityLines hx hlevel hindent, ← hjoin]
    have hstart : ∃ more, joinLines (entityLines s e level e.indent) = e.indent.toList ++ more := by
      rw [hlines, joinLines, List.map_cons, String.toList_append]
      cases rest with
      | nil => exact ⟨_, rfl⟩
      | cons next more => exact ⟨_, List.append_assoc _ _ _ |>.trans (List.append_assoc _ _ _)⟩
    obtain ⟨more, hmore⟩ := hstart
    rw [hmore, ← String.length_toList, List.drop_left, List.count_append, count_spaces hx hindent.space,
      Nat.zero_add]
  · split at h
    · cases h
      have hnone : Indents "".toList := List.forall_mem_nil _
      have htrimmed := tally_trimmed hx ((entityLines s e level "").map String.toList)
      rw [List.map_map] at htrimmed
      rw [← tally_entityLines hx hlevel hnone, ← htrimmed, List.cons_append, hspace ' ' (by decide),
        List.count_append, hspace ' ' (by decide), List.count_nil, Nat.add_zero,
        count_join (hspace ' ' (by decide) [])]
      rfl
    · cases h
      have hdeep : Indents (e.baseIndent ++ level).toList := by
        rw [String.toList_append]
        exact hbase.append hlevel
      rw [← tally_entityLines hx hlevel hdeep, ← hjoin]
      split
      · rw [List.cons_append, hspace '\n' (by decide), List.count_append, hspace '\n' (by decide),
          count_spaces hx hbase.space, Nat.add_zero]
      · rw [hspace '\n' (by decide)]

end MemberOrder.Layout
