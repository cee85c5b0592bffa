/-
  The parts of an entity that is written anew.

  Whatever comments are written between them, a body that is written anew consists of its `bodyParts`: the
  members as they are typed, their separators, and the heads and ends of the blocks inside it. If these are
  `Firm`, and comments are written as notes, then by induction on the nesting of members its lines carry
  the code of the parts (`linesInside_lines`, `entityLines_starts`), and so does the body, on one line or on
  many (`retypedBody_carries`). The text in front of the body is its `headPart` behind the comments that lead
  the entity (`retypedHead_eq`). So the text is read as its parts, whatever follows it
  (`writeEntity_reads`).
-/
import MemberOrder.Proofs.Layout.Notes
import MemberOrder.Proofs.Layout.Rearranging
import MemberOrder.Proofs.Placement.Reading

namespace MemberOrder.Layout

open Lexeme Scanned

/-! ## Parts -/

/-- The parts of a member: the member as it is typed, or the head, the parts inside and the end of its
block; then the separator. -/
def memberParts (s : Setting) (width : Nat) (separator : String) (m : Member) (inside : List (List Char)) :
    List (List Char) :=
  let typed := (s.rules.retype s.options m width).toList
  match m.info.span, m.info.body with
  | some span, some body =>
    if m.children.isEmpty then [typed, separator.toList]
    else
      let (start, stop) := bounds body m.children
      Text.trimRight (s.excerpt.slice span.start start) ::
        inside ++ [Text.trimLeft (s.excerpt.slice stop span.stop), separator.toList]
  | _, _ => [typed, separator.toList]

/-- The parts of members from the place `slot` on, each with the parts inside it. -/
def partsFrom (s : Setting) (width : Nat) (separators : List String) :
    (slot : Nat) → List (Member × List (List Char)) → List (List Char)
  | _, [] => []
  | slot, (m, inside) :: rest =>
    memberParts s width (slotSeparator s m.info.separator slot separators) m inside ++
      partsFrom s width separators (slot + 1) rest

/-- The parts of a body. -/
def bodyParts (s : Setting) (ms : List (Member × List (List Char))) : List (List Char) :=
  let members := ms.map (·.1)
  partsFrom s (s.rules.nameWidth members) ((sourceOrder members).map (·.info.separator)) 0 ms

mutual

/-- The parts inside the block of a member. -/
def partsInside (s : Setting) : Member → List (List Char)
  | .leaf _ => []
  | .group _ children => bodyParts s (partsInsideEach s children)

/-- Members with the parts inside each of them. -/
def partsInsideEach (s : Setting) : List Member → List (Member × List (List Char))
  | [] => []
  | m :: rest => (m, partsInside s m) :: partsInsideEach s rest

end

theorem map_fst_partsInsideEach (s : Setting) (ms : List Member) :
    (partsInsideEach s ms).map (·.1) = ms := by
  induction ms with
  | nil => rfl
  | cons m rest ih => rw [partsInsideEach, List.map_cons, ih]

theorem map_fst_linesInsideEach (s : Setting) (level indent : String) (ms : List Member) :
    (linesInsideEach s level indent ms).map (·.1) = ms := by
  induction ms with
  | nil => rfl
  | cons m rest ih => rw [linesInsideEach, List.map_cons, ih]

/-- A part is closed: no literal and no comment of it goes on behind it, and no line break is cut there. -/
structure Closed (p : Profile) (o : Options) (cs : List Char) : Prop where
  whole : Sealed p (endLines o cs)
  uncut : Uncut cs

/-- A part is firm: no literal and no comment of it goes on behind it, and there is no white space around
it. -/
structure Firm (p : Profile) (o : Options) (cs : List Char) : Prop where
  whole : Sealed p (endLines o cs)
  trimmed : Trimmed cs

variable {p : Profile} {o : Options} {cs : List Char}

instance (p : Profile) (o : Options) (cs : List Char) : Decidable (Closed p o cs) :=
  decidable_of_iff (Sealed p (endLines o cs) ∧ Uncut cs) ⟨fun h => ⟨h.1, h.2⟩, fun h => ⟨h.1, h.2⟩⟩

instance (p : Profile) (o : Options) (cs : List Char) : Decidable (Firm p o cs) :=
  decidable_of_iff (Sealed p (endLines o cs) ∧ Trimmed cs) ⟨fun h => ⟨h.1, h.2⟩, fun h => ⟨h.1, h.2⟩⟩

theorem Closed.carries (h : Closed p o cs) : Carries p o cs (packedCode p (endLines o cs)) :=
  carries_of_sealed h.whole h.uncut

theorem Firm.carries (h : Firm p o cs) : Carries p o cs (packedCode p (endLines o cs)) :=
  carries_of_sealed h.whole h.trimmed.uncut

/-- The code of parts. -/
def partsCode (p : Profile) (o : Options) (parts : List (List Char)) : List Char :=
  parts.flatMap fun y => packedCode p (endLines o y)

theorem partsCode_append (p : Profile) (o : Options) (xs ys : List (List Char)) :
    partsCode p o (xs ++ ys) = partsCode p o xs ++ partsCode p o ys := List.flatMap_append

/-! ## Comments as notes -/

/-- Comments on lines of their own are notes, however they are indented. -/
def LeadsNotes (N : List Char → Prop) (s : Setting) (cs : List Comment) : Prop :=
  ∀ indent : String, Indents indent.toList →
    ∀ y ∈ writeLeading s.rules.comments s.options indent cs, N y.toList

/-- The comments of a member are written as notes. -/
structure WritesNotes (N : List Char → Prop) (s : Setting) (i : MemberInfo) : Prop where
  leading : LeadsNotes N s i.comments
  trailing : N (writeTrailing s.rules.comments s.options i.trailingComments).toList
  dangling : LeadsNotes N s i.dangling

/-! ## Lines -/

section Lines

variable {s : Setting} {N : List Char → Prop}

/-- A list of lines of which the first starts with `indent`, and what they carry. -/
def Starts (p : Profile) (s : Setting) (N : List Char → Prop) (indent : String) (lines : List String)
    (code : List Char) : Prop :=
  ∃ x rest, lines.map String.toList = (indent.toList ++ x) :: rest ∧ Lines (Framed p s.options N) (x :: rest) code

theorem Starts.lines {indent : String} (hindent : Indents indent.toList) {lines : List String}
    {code : List Char} (h : Starts p s N indent lines code) :
    Lines (Framed p s.options N) (lines.map String.toList) code := by
  obtain ⟨x, rest, heq, hlines⟩ := h
  rw [heq]
  cases hlines with
  | cons hx hrest => exact .cons (hx.indent hindent) hrest

theorem Starts.append {indent : String} {lines more : List String} {code code' : List Char}
    (h : Starts p s N indent lines code) (h' : Lines (Framed p s.options N) (more.map String.toList) code') :
    Starts p s N indent (lines ++ more) (code ++ code') := by
  obtain ⟨x, rest, heq, hlines⟩ := h
  refine ⟨x, rest ++ more.map String.toList, ?_, hlines.append h'⟩
  rw [List.map_append, heq]
  rfl

/-- Notes on lines of their own. -/
theorem notes_lines {indent : String} (hindent : Indents indent.toList) {notes : List String}
    (h : ∀ y ∈ notes, N y.toList) :
    Lines (Framed p o N) ((notes.map (indent ++ ·)).map String.toList) [] := by
  refine lines_of_forall fun l hl => ?_
  obtain ⟨x, hx, rfl⟩ := List.mem_map.mp hl
  obtain ⟨y, hy, rfl⟩ := List.mem_map.mp hx
  rw [String.toList_append]
  exact (framed_note (h y hy)).indent hindent

/-- Comments on lines of their own in front of other lines. -/
theorem Starts.after_notes {indent : String} (hindent : Indents indent.toList) {cs : List Comment}
    (hcs : LeadsNotes N s cs) {lines : List String} {code : List Char} (h : Starts p s N indent lines code) :
    Starts p s N indent
      ((writeLeading s.rules.comments s.options indent cs).map (indent ++ ·) ++ lines) code := by
  have hnotes := hcs indent hindent
  cases hleading : writeLeading s.rules.comments s.options indent cs with
  | nil => exact h
  | cons y ys =>
    rw [hleading] at hnotes
    obtain ⟨hy, hys⟩ := List.forall_mem_cons.mp hnotes
    refine ⟨y.toList, (ys.map (indent ++ ·)).map String.toList ++ lines.map String.toList, by simp, ?_⟩
    exact .cons (framed_note hy) ((notes_lines hindent hys).append (h.lines hindent))

/-- A line with a part, a separator and trailing comments. -/
theorem framed_part {part separator trailing : List Char} (hpart : Firm p s.options part)
    (hseparator : Firm p s.options separator) (htrailing : N trailing) :
    Framed p s.options N (part ++ (separator ++ trailing)) (partsCode p s.options [part, separator]) := by
  refine ⟨[], part ++ separator, trailing, (List.append_assoc _ _ _).symm, nofun,
    hpart.trimmed.append hseparator.trimmed, ?_, htrailing⟩
  have := hpart.carries.append hseparator.carries
  simpa [partsCode] using this

/-- The lines of a member carry the code of its parts, once those inside it do. -/
theorem memberLines_starts (hnone : N []) {indent separator trailing : String} {width : Nat} {m : Member}
    {inside : List String} {parts : List (List Char)}
    (hparts : ∀ y ∈ memberParts s width separator m parts, Firm p s.options y)
    (hinside : (∀ y ∈ parts, Firm p s.options y) →
      Lines (Framed p s.options N) (inside.map String.toList) (partsCode p s.options parts))
    (hleading : LeadsNotes N s m.info.comments) (htrailing : N trailing.toList)
    (hindent : Indents indent.toList) :
    Starts p s N indent (memberLines s indent width (separator ++ trailing) m inside)
      (partsCode p s.options (memberParts s width separator m parts)) := by
  have htyped (hfirm : ∀ y ∈ [(s.rules.retype s.options m width).toList, separator.toList], Firm p s.options y) :
      Starts p s N indent [indent ++ s.rules.retype s.options m width ++ (separator ++ trailing)]
        (partsCode p s.options [(s.rules.retype s.options m width).toList, separator.toList]) := by
    refine ⟨(s.rules.retype s.options m width).toList ++ (separator.toList ++ trailing.toList), [],
      by simp, ?_⟩
    rw [← List.append_nil (partsCode _ _ _)]
    exact .cons (framed_part (hfirm _ (by simp)) (hfirm _ (by simp)) htrailing) .nil
  unfold memberLines
  refine Starts.after_notes hindent hleading ?_
  cases hspan : m.info.span with
  | none =>
    simp only [memberParts, hspan] at hparts ⊢
    exact htyped hparts
  | some span =>
    cases hbody : m.info.body with
    | none =>
      simp only [memberParts, hspan, hbody] at hparts ⊢
      exact htyped hparts
    | some body =>
      simp only [memberParts, hspan, hbody] at hparts ⊢
      split
      · rename_i hempty
        rw [if_pos hempty] at hparts
        exact htyped hparts
      · rename_i hempty
        rw [if_neg hempty] at hparts
        let head := Text.trimRight (s.excerpt.slice span.start (bounds body m.children).1)
        let close := Text.trimLeft (s.excerpt.slice (bounds body m.children).2 span.stop)
        have hclose : Framed p s.options N (indent.toList ++ (close ++ (separator.toList ++ trailing.toList)))
            (partsCode p s.options [close, separator.toList]) :=
          (framed_part (hparts close (by simp [close])) (hparts separator.toList (by simp)) htrailing).indent
            hindent
        refine ⟨head, inside.map String.toList ++ [indent.toList ++ (close ++ (separator.toList ++ trailing.toList))],
          by simp [head, close], ?_⟩
        have hhead : Firm p s.options head := hparts head (by simp [head])
        have hrest := (hinside fun y hy => hparts y (by simp [hy])).append (.cons hclose .nil)
        have := Lines.cons (R := Framed p s.options N)
          ⟨[], head, [], (List.append_nil head).symm, nofun, hhead.trimmed, hhead.carries, hnone⟩ hrest
        simpa [partsCode, head, close] using this

/-- A line between groups has no code. -/
theorem groupBreak_lines (hnone : N []) (previous : Option String) (group : String) :
    Lines (Framed p o N) ((groupBreak s previous group).map String.toList) [] := by
  refine lines_of_forall fun l hl => ?_
  unfold groupBreak at hl
  split at hl
  · rw [List.map_singleton, List.mem_singleton] at hl
    rw [hl]
    exact framed_note hnone
  · exact absurd hl List.not_mem_nil

mutual

/-- The lines inside the block of a member carry the code of the parts inside it. -/
theorem linesInside_lines (hnone : N []) {level indent : String} (hlevel : Indents level.toList)
    (hindent : Indents indent.toList) {m : Member} (hparts : ∀ y ∈ partsInside s m, Firm p s.options y)
    (hnotes : m.Throughout fun m => WritesNotes N s m.info) :
    Lines (Framed p s.options N) ((linesInside s level indent m).map String.toList)
      (partsCode p s.options (partsInside s m)) := by
  match m with
  | .leaf i => exact .nil
  | .group i children =>
    obtain ⟨hself, hchildren⟩ := hnotes
    simp only [linesInside, bodyLinesOf, partsInside, bodyParts, map_fst_linesInsideEach,
      map_fst_partsInsideEach, List.map_append] at hparts ⊢
    rw [← List.append_nil (partsCode _ _ _)]
    have hinner : Indents (indent ++ level).toList := by
      rw [String.toList_append]
      exact hindent.append hlevel
    exact (linesFrom_lines hnone hlevel hinner hindent hparts hchildren none).append
      (notes_lines hindent (hself.dangling indent hindent))

/-- The lines of members carry the code of their parts. -/
theorem linesFrom_lines (hnone : N []) {level inner indent : String} (hlevel : Indents level.toList)
    (hinner : Indents inner.toList) (hindent : Indents indent.toList) {width slot : Nat}
    {separators : List String} {ms : List Member}
    (hparts : ∀ y ∈ partsFrom s width separators slot (partsInsideEach s ms), Firm p s.options y)
    (hnotes : EachThroughout (fun m => WritesNotes N s m.info) ms) (previous : Option String) :
    Lines (Framed p s.options N)
      ((linesFrom s indent width separators slot previous (linesInsideEach s level inner ms)).map String.toList)
      (partsCode p s.options (partsFrom s width separators slot (partsInsideEach s ms))) := by
  match ms with
  | [] => exact .nil
  | m :: rest =>
    obtain ⟨hm, hrest⟩ := hnotes
    simp only [linesInsideEach, linesFrom, partsInsideEach, partsFrom, List.map_append, partsCode_append] at hparts ⊢
    have hself := memberLines_starts (p := p) hnone (fun y hy => hparts y (List.mem_append_left _ hy))
      (fun hfirm => linesInside_lines hnone hlevel hinner hfirm hm) hm.self.leading hm.self.trailing hindent
    exact ((groupBreak_lines hnone previous _).append (hself.lines hindent)).append
      (linesFrom_lines hnone hlevel hinner hindent (fun y hy => hparts y (List.mem_append_right _ hy)) hrest _)

end

/-- The lines of a body that has members, the comments included that belong to none of them. -/
theorem entityLines_starts (hnone : N []) {e : Entity} {level indent : String} (hlevel : Indents level.toList)
    (hindent : Indents indent.toList) (hne : e.members ≠ [])
    (hparts : ∀ y ∈ bodyParts s (partsInsideEach s e.members), Firm p s.options y)
    (hnotes : EachThroughout (fun m => WritesNotes N s m.info) e.members) (hdangling : LeadsNotes N s e.dangling) :
    Starts p s N indent (entityLines s e level indent)
      (partsCode p s.options (bodyParts s (partsInsideEach s e.members))) := by
  have hinner : Indents (indent ++ level).toList := by
    rw [String.toList_append]
    exact hindent.append hlevel
  obtain ⟨m, rest, hmembers⟩ := List.exists_cons_of_ne_nil hne
  simp only [entityLines, bodyLinesOf, bodyParts, map_fst_linesInsideEach, map_fst_partsInsideEach,
    hmembers] at hparts hnotes ⊢
  obtain ⟨hm, hrest⟩ := hnotes
  rw [← List.append_nil (partsCode _ _ _)]
  refine Starts.append ?_ (notes_lines hindent (hdangling indent hindent))
  simp only [linesInsideEach, linesFrom, partsInsideEach, partsFrom, partsCode_append] at hparts ⊢
  have hfirst : groupBreak s none (s.rules.group m.info) = [] := by simp [groupBreak]
  rw [hfirst, List.nil_append]
  exact (memberLines_starts hnone (fun y hy => hparts y (List.mem_append_left _ hy))
    (fun hfirm => linesInside_lines hnone hlevel hinner hfirm hm) hm.self.leading hm.self.trailing hindent).append
    (linesFrom_lines hnone hlevel hinner hindent (fun y hy => hparts y (List.mem_append_right _ hy)) hrest _)

end Lines

/-! ## Heads -/

/-- The comments that lead an entity in the text before its body. -/
def headComments (s : Setting) (e : Entity) (start : Nat) : List Comment :=
  e.leading.filter fun c => s.excerpt.base ≤ c.offset && c.stop ≤ start

/-- The text before a body, without the comments that lead the entity. -/
def headPart (s : Setting) (e : Entity) (start : Nat) : List Char :=
  match (headComments s e start).getLast? with
  | none => s.excerpt.sliceTo start
  | some last => Text.trimLeft ((s.excerpt.sliceTo start).drop (last.stop - s.excerpt.base))

/-- Comments in a text from `cursor` on, each written anew and with what stands in front of it, then the
white space behind them. -/
def frontFrom (s : Setting) (indent : String) (head : List Char) : (cursor : Nat) → List Comment → List Char
  | cursor, [] => (head.drop cursor).takeWhile Text.isSpace
  | cursor, c :: rest =>
    (head.drop cursor).take (c.offset - s.excerpt.base - cursor) ++
      (writeComment s.rules.comments s.options.commentStyle indent c).toList ++
      frontFrom s indent head (c.stop - s.excerpt.base) rest

/-- The text in front of a header: the comments that lead the entity, if they are written. -/
def front (s : Setting) (e : Entity) (start : Nat) : List Char :=
  match headComments s e start with
  | [] => []
  | c :: rest =>
    if s.options.commentsEnabled then frontFrom s e.baseIndent (s.excerpt.sliceTo start) 0 (c :: rest) else []

section Heads

variable {s : Setting} {e : Entity} {start : Nat}

/-- Where the last of some comments ends in the text before a body. -/
def pastComments (s : Setting) (cursor : Nat) (cs : List Comment) : Nat :=
  (cs.getLast?.map fun c => c.stop - s.excerpt.base).getD cursor

theorem pastComments_cons (cursor : Nat) (c : Comment) (rest : List Comment) :
    pastComments s cursor (c :: rest) = pastComments s (c.stop - s.excerpt.base) rest := by
  unfold pastComments
  rw [List.getLast?_cons, Option.map_some, Option.getD_some]
  cases rest.getLast? <;> rfl

/-- Comments that follow each other are replaced one by one. -/
theorem replaceComments_eq {indent : String} {head : List Char} {cs : List Comment}
    (hordered : cs.Pairwise fun a b => a.stop ≤ b.offset)
    (hinside : ∀ c ∈ cs, c.offset ≤ c.stop ∧ c.stop - s.excerpt.base ≤ head.length) {cursor : Nat}
    (hcursor : ∀ c ∈ cs, cursor ≤ c.offset - s.excerpt.base) :
    replaceComments s indent head cs = head.take cursor ++ (frontFrom s indent head cursor cs ++
      Text.trimLeft (head.drop (pastComments s cursor cs))) := by
  induction cs generalizing cursor with
  | nil =>
    have hspaces : (head.drop cursor).takeWhile Text.isSpace ++ Text.trimLeft (head.drop cursor) = head.drop cursor :=
      List.takeWhile_append_dropWhile
    simp only [replaceComments, frontFrom, pastComments, List.getLast?_nil, Option.map_none, Option.getD_none,
      hspaces, List.take_append_drop]
  | cons c rest ih =>
    obtain ⟨hfirst, hrest⟩ := List.pairwise_cons.mp hordered
    obtain ⟨⟨hle, hlength⟩, hinside⟩ := List.forall_mem_cons.mp hinside
    have hstart := hcursor c List.mem_cons_self
    -- the text up to the end of the comment is still the one that was given
    have htaken : (head.take (c.stop - s.excerpt.base)).length = c.stop - s.excerpt.base := by
      rw [List.length_take]
      omega
    have hgap : head.take (c.offset - s.excerpt.base) =
        head.take cursor ++ (head.drop cursor).take (c.offset - s.excerpt.base - cursor) := by
      rw [← List.take_add, Nat.add_sub_cancel' hstart]
    simp only [replaceComments, ih hrest hinside (fun d hd => Nat.sub_le_sub_right (hfirst d hd) _), frontFrom,
      pastComments_cons]
    rw [List.take_append_of_le_length (by omega), List.take_take, Nat.min_eq_left (by omega),
      List.drop_append_of_le_length (by omega), List.drop_eq_nil_of_le (by omega), List.nil_append, hgap]
    simp only [List.append_assoc]

/-- The comments that lead an entity are read in order, from its own text. -/
def LeadsInOrder (e : Entity) : Prop :=
  e.leading.Pairwise (fun a b => a.stop ≤ b.offset) ∧ ∀ c ∈ e.leading, c.offset ≤ c.stop

/-- The text before a body consists of its front and its part. -/
theorem retypedHead_eq (h : LeadsInOrder e) (hstart : start - s.excerpt.base ≤ s.excerpt.text.size) :
    retypedHead s e start = front s e start ++ headPart s e start := by
  have hlength : (s.excerpt.sliceTo start).length = start - s.excerpt.base := Text.length_slice _ hstart
  have hhead : retypedHead s e start = match (headComments s e start).getLast? with
      | none => s.excerpt.sliceTo start
      | some last =>
        if s.options.commentsEnabled then
          replaceComments s e.baseIndent (s.excerpt.sliceTo start) (headComments s e start)
        else Text.trimLeft ((s.excerpt.sliceTo start).drop (last.stop - s.excerpt.base)) := rfl
  rw [hhead, front, headPart]
  cases hcs : headComments s e start with
  | nil => rfl
  | cons c rest =>
    obtain ⟨last, hlast⟩ : ∃ last, (c :: rest).getLast? = some last :=
      Option.isSome_iff_exists.mp (by simp)
    rw [hlast]
    cases hcomments : s.options.commentsEnabled with
    | false => rfl
    | true =>
      have hsub : (c :: rest).Sublist e.leading := hcs ▸ List.filter_sublist
      have hinside : ∀ d ∈ c :: rest, d.offset ≤ d.stop ∧
          d.stop - s.excerpt.base ≤ (s.excerpt.sliceTo start).length := by
        intro d hd
        have hstop : d.stop ≤ start := by
          have := (List.mem_filter.mp (hcs ▸ hd)).2
          simp only [Bool.and_eq_true, decide_eq_true_eq] at this
          exact this.2
        exact ⟨h.2 d (hsub.subset hd), by omega⟩
      simp only [if_true, replaceComments_eq (h.1.sublist hsub) hinside (fun _ _ => Nat.zero_le _),
        pastComments, hlast, Option.map_some, Option.getD_some, List.take_zero, List.nil_append]

end Heads

/-! ## Bodies -/

theorem indents_of_indentUnit {indent base level : String} (hindent : Indents indent.toList)
    (h : indentUnit o (some (indent, base)) = .ok level) : Indents level.toList := by
  have hblanks {level : String} (h : blanksOf o.indentationSize = .ok level) : Indents level.toList := by
    unfold blanksOf at h
    split at h
    · cases h
      rw [String.toList_ofList]
      exact fun x hx => Or.inl (List.eq_of_mem_replicate hx)
    · cases h
  unfold indentUnit at h
  split at h
  · cases h
    exact fun x hx => Or.inr (List.mem_singleton.mp hx)
  · exact hblanks h
  · dsimp only at h
    split at h
    · exact hblanks h
    · cases h
      rw [String.toList_ofList]
      intro x hx
      unfold ownIndent at hx
      split at hx
      · exact hindent x (List.mem_of_mem_drop hx)
      · cases hx

/-- There is a level of indentation, where its width is a number. -/
theorem exists_indentUnit {n : Int} (h : o.indentationSize = .blanks n) (entity : Option (String × String)) :
    ∃ level, indentUnit o entity = .ok level := by
  unfold indentUnit
  simp only [h, blanksOf]
  cases o.indentationType with
  | tabs => exact ⟨_, rfl⟩
  | spaces => exact ⟨_, rfl⟩
  | auto =>
    obtain _ | ⟨indent, base⟩ := entity
    · exact ⟨_, rfl⟩
    · dsimp only
      cases (ownIndent indent base).isEmpty with
      | true => exact ⟨_, rfl⟩
      | false => exact ⟨_, rfl⟩

/-- Whether the body of an entity is written on one line. -/
def onOneLine (o : Options) (e : Entity) : Bool := !e.header.isEmpty && (e.inline && o.preserveFormatting)

/-- A note ends with its line: on one line with the others at the blank behind it, else at the line break. -/
def ClosedBy (p : Profile) (o : Options) (inline : Bool) (n : List Char) : Prop :=
  if inline then Carries p o (Text.trim n ++ [' ']) [] ∧ Carries p o (Text.trimRight n ++ [' ']) []
  else Carries p o (n ++ ['\n']) []

/-- The text carries the code, up to a note at its end where an entity has no header. -/
def CarriesUpTo (p : Profile) (o : Options) (N : List Char → Prop) (e : Entity) (cs code : List Char) : Prop :=
  if e.header.isEmpty then Noted p o N cs code else Carries p o cs code

section Bodies

variable {s : Setting} {e : Entity} {N : List Char → Prop}

/-- The lines of a body joined on one line. -/
theorem oneLine_carries (hp : SpacesPlain p)
    (hclosed : ∀ n, N n → Carries p o (Text.trim n ++ [' ']) [] ∧ Carries p o (Text.trimRight n ++ [' ']) [])
    {lines : List String} {code : List Char} (h : Lines (Framed p o N) (lines.map String.toList) code) :
    Carries p o (' ' :: Text.join [' '] ((lines.map fun line => Text.trim line.toList).filter (!·.isEmpty)) ++
      [' ']) code := by
  have hblank : Carries p o [' '] [] := Indents.carries hp (by decide)
  have hlines : Lines (Noted p o fun n => Carries p o (n ++ [' ']) []) _ code := h.trimmed hclosed
  rw [List.map_map] at hlines
  change Carries p o ([' '] ++ Text.join [' '] (List.filter _ (lines.map (Text.trim ∘ String.toList))) ++ [' ']) code
  cases hleft : (lines.map (Text.trim ∘ String.toList)).filter (!·.isEmpty) with
  | nil =>
    rw [hleft] at hlines
    cases hlines
    exact hblank.append hblank
  | cons l ls =>
    rw [hleft] at hlines
    have hjoined := (hlines.joined (fun n hn => hn) (List.cons_ne_nil l ls)).closed fun n hn => hn
    rw [List.append_assoc]
    exact hblank.append hjoined

/-- The lines of a body on lines of their own, between line breaks. -/
theorem ownLines_carries (hp : SpacesPlain p) (hclosed : ∀ n, N n → Carries p o (n ++ ['\n']) [])
    {base : String} (hbase : Indents base.toList) {lines : List String} {code : List Char} (hne : lines ≠ [])
    (h : Lines (Framed p o N) (lines.map String.toList) code) :
    Carries p o ('\n' :: joinLines lines ++ '\n' :: base.toList) code := by
  have hbreak : Carries p o ['\n'] [] := carries_spaces hp (by decide) (by decide)
  have hjoined := ((h.imp fun _ _ => Framed.noted hp).joined hclosed (by simpa using hne)).closed hclosed
  have := (hbreak.append hjoined).append (hbase.carries hp)
  simpa [joinLines] using this

/-- A body that has members, written anew, carries the code of its parts. -/
theorem retypedBody_carries (hp : SpacesPlain p) (hnone : N []) {body : Span} {inside : List Char}
    (h : retypedBody s e body = .ok inside) (hne : e.members ≠ []) (hbreaks : s.rules.breaksBeforeFooter = true)
    (hindent : Indents e.indent.toList) (hbase : Indents e.baseIndent.toList)
    (hclosed : ∀ n, N n → ClosedBy p s.options (onOneLine s.options e) n)
    (hparts : ∀ y ∈ bodyParts s (partsInsideEach s e.members), Firm p s.options y)
    (hnotes : EachThroughout (fun m => WritesNotes N s m.info) e.members)
    (hdangling : LeadsNotes N s e.dangling) :
    CarriesUpTo p s.options N e inside (partsCode p s.options (bodyParts s (partsInsideEach s e.members))) := by
  have hempty : e.members.isEmpty = false := by simpa using hne
  unfold retypedBody at h
  simp only [hempty, Bool.false_eq_true, if_false] at h
  cases hlevel : indentUnit s.options (some (e.indent, e.baseIndent)) with
  | error err =>
    rw [hlevel] at h
    cases h
  | ok level =>
    have hlevelIndents := indents_of_indentUnit hindent hlevel
    rw [hlevel] at h
    have hstarts := fun {indent : String} (hindent : Indents indent.toList) =>
      entityLines_starts (p := p) hnone hlevelIndents hindent hne hparts hnotes hdangling
    unfold CarriesUpTo
    unfold onOneLine at hclosed
    cases hheader : e.header.isEmpty with
    | true =>
      simp only [hheader, if_true] at h ⊢
      simp only [hheader, Bool.not_true, Bool.false_and] at hclosed
      cases h
      -- the indentation of the first line is taken away
      obtain ⟨x, rest, heq, hlines⟩ := hstarts hindent
      have hdrop : (joinLines (entityLines s e level e.indent)).drop e.indent.length =
          Text.join ['\n'] (x :: rest) := by
        unfold joinLines
        rw [heq, ← String.length_toList]
        cases rest with
        | nil => exact List.drop_left
        | cons y more =>
          simp only [Text.join, List.append_assoc]
          exact List.drop_left
      rw [hdrop]
      exact (hlines.imp fun _ _ => Framed.noted hp).joined hclosed (List.cons_ne_nil _ _)
    | false =>
      simp only [hheader, Bool.false_eq_true, if_false] at h ⊢
      simp only [hheader, Bool.not_false, Bool.true_and] at hclosed
      cases hinline : e.inline && s.options.preserveFormatting with
      | true =>
        simp only [hinline, if_true] at h hclosed
        cases h
        have hempty : Indents "".toList := by decide
        exact oneLine_carries hp hclosed ((hstarts hempty).lines hempty)
      | false =>
        simp only [hinline, Bool.false_eq_true, if_false, hbreaks, if_true] at h hclosed
        cases h
        have hdeep : Indents (e.baseIndent ++ level).toList := by
          rw [String.toList_append]
          exact hbase.append hlevelIndents
        refine ownLines_carries hp hclosed hbase ?_ ((hstarts hdeep).lines hdeep)
        obtain ⟨x, rest, heq, -⟩ := hstarts hdeep
        intro hnil
        rw [hnil] at heq
        cases heq

end Bodies

/-! ## Entities -/

/-- The parts of an entity that is written anew: the text in front of its body, its body, and the text
behind it. A body without members stays as it is. -/
def entityParts (s : Setting) (e : Entity) (body : Span) : List (List Char) :=
  let (start, stop) := bounds body e.members
  let inside := if e.members.isEmpty then [s.excerpt.slice start stop] else bodyParts s (partsInsideEach s e.members)
  headPart s e start :: inside ++ [s.excerpt.sliceFrom stop]

/-- The parts of an entity are whole. -/
structure WholeParts (p : Profile) (s : Setting) (e : Entity) (body : Span) : Prop where
  head : Closed p s.options (headPart s e (bounds body e.members).1)
  bare : e.members = [] → Closed p s.options (s.excerpt.slice body.start body.stop)
  inside : ∀ y ∈ bodyParts s (partsInsideEach s e.members), Firm p s.options y
  foot : Closed p s.options (s.excerpt.sliceFrom (bounds body e.members).2)

instance (p : Profile) (s : Setting) (e : Entity) (body : Span) : Decidable (WholeParts p s e body) :=
  decidable_of_iff (Closed p s.options (headPart s e (bounds body e.members).1) ∧
      (e.members.isEmpty = true → Closed p s.options (s.excerpt.slice body.start body.stop)) ∧
      (∀ y ∈ bodyParts s (partsInsideEach s e.members), Firm p s.options y) ∧
      Closed p s.options (s.excerpt.sliceFrom (bounds body e.members).2)) <| by
    rw [List.isEmpty_iff]
    exact ⟨fun ⟨h1, h2, h3, h4⟩ => ⟨h1, h2, h3, h4⟩, fun ⟨h1, h2, h3, h4⟩ => ⟨h1, h2, h3, h4⟩⟩

/-- The comments of an entity are written as notes: each ends with its line, and those that lead the
entity in front of its header. -/
structure Annotated (p : Profile) (N : List Char → Prop) (s : Setting) (e : Entity) (start : Nat) : Prop where
  none : N []
  closed : ∀ n, N n → ClosedBy p s.options (onOneLine s.options e) n
  front : Carries p s.options (front s e start) []
  members : EachThroughout (fun m => WritesNotes N s m.info) e.members
  dangling : LeadsNotes N s e.dangling

/-- An entity is indented by blanks and tabs, its comments are in order, and without a header it is
nothing but its body. -/
structure Outlined (e : Entity) : Prop where
  indent : Indents e.indent.toList
  baseIndent : Indents e.baseIndent.toList
  leading : LeadsInOrder e
  unheaded : e.header = "" → e.leading = [] ∧ e.body = e.span

section Entities

variable {s : Setting} {e : Entity} {N : List Char → Prop}

theorem CarriesUpTo.of_carries (hnone : N []) {cs code : List Char} (h : Carries p o cs code) :
    CarriesUpTo p o N e cs code := by
  unfold CarriesUpTo
  split
  · exact ⟨cs, [], (List.append_nil cs).symm, h, hnone⟩
  · exact h

theorem partsCode_singleton (p : Profile) (o : Options) (y : List Char) :
    partsCode p o [y] = packedCode p (endLines o y) := List.append_nil _

/-- The body of an entity carries the code of the parts in it. -/
theorem retypedBody_carriesUpTo (hp : SpacesPlain p) (hbreaks : s.rules.breaksBeforeFooter = true)
    (houtlined : Outlined e) {body : Span} {inside : List Char} (h : retypedBody s e body = .ok inside)
    (hwhole : WholeParts p s e body) {start : Nat} (hnotes : Annotated p N s e start) :
    CarriesUpTo p s.options N e inside (partsCode p s.options
      (if e.members.isEmpty then [s.excerpt.slice body.start body.stop]
        else bodyParts s (partsInsideEach s e.members))) := by
  cases hempty : e.members.isEmpty with
  | true =>
    unfold retypedBody at h
    rw [if_pos hempty] at h
    cases h
    rw [if_pos rfl, partsCode_singleton]
    exact .of_carries hnotes.none (hwhole.bare (by simpa using hempty)).carries
  | false =>
    exact retypedBody_carries hp hnotes.none h (by simpa using hempty) hbreaks houtlined.indent
      houtlined.baseIndent hnotes.closed hwhole.inside hnotes.members hnotes.dangling

/-- The text of an entity that is written anew carries the code of its parts. -/
theorem retypedEntity_carries (hp : SpacesPlain p) (hbreaks : s.rules.breaksBeforeFooter = true)
    (houtlined : Outlined e) {span body : Span} (hspan : e.span = some span) (hbody : e.body = some body)
    (hbase : s.excerpt.base = span.start) (hsize : s.excerpt.text.size = span.stop - span.start)
    (hstart : body.start ≤ span.stop) (hbounds : bounds body e.members = (body.start, body.stop))
    {text : List Char} (h : retypedEntity s e body = .ok text) (hwhole : WholeParts p s e body)
    (hnotes : Annotated p N s e body.start) :
    CarriesUpTo p s.options N e text (partsCode p s.options (entityParts s e body)) := by
  cases hinside : retypedBody s e body with
  | error err =>
    rw [retypedEntity, hinside] at h
    cases h
  | ok inside =>
    have hcarries := retypedBody_carriesUpTo hp hbreaks houtlined hinside hwhole hnotes
    have htext : text = retypedHead s e body.start ++ inside ++ s.excerpt.sliceFrom body.stop := by
      simp only [retypedEntity, hinside, hbounds] at h
      cases h
      rfl
    have hparts : entityParts s e body = headPart s e body.start ::
        (if e.members.isEmpty then [s.excerpt.slice body.start body.stop]
          else bodyParts s (partsInsideEach s e.members)) ++ [s.excerpt.sliceFrom body.stop] := by
      simp only [entityParts, hbounds]
    have hhead := hwhole.head
    have hfoot := hwhole.foot
    rw [hbounds] at hhead hfoot
    have heq : retypedHead s e body.start = front s e body.start ++ headPart s e body.start :=
      retypedHead_eq houtlined.leading (by omega)
    rw [htext, hparts, List.cons_append, ← List.singleton_append, partsCode_append, partsCode_append,
      partsCode_singleton, partsCode_singleton, ← List.append_assoc, heq]
    unfold CarriesUpTo at hcarries ⊢
    cases hheader : e.header.isEmpty with
    | false =>
      simp only [hheader, Bool.false_eq_true, if_false] at hcarries ⊢
      exact ((hnotes.front.append hhead.carries).append hcarries).append hfoot.carries
    | true =>
      -- without a header there is nothing but the body
      obtain ⟨hleading, hwholeSpan⟩ := houtlined.unheaded (by simpa using hheader)
      obtain rfl : body = span := Option.some.inj (hbody.symm.trans (hwholeSpan.trans hspan))
      have hcomments : headComments s e body.start = [] := by rw [headComments, hleading]; rfl
      have hfront : front s e body.start = [] := by rw [front, hcomments]
      have hnohead : headPart s e body.start = [] := by
        rw [headPart, hcomments]
        exact Text.slice_self _ (by omega)
      have hnofoot : s.excerpt.sliceFrom body.stop = [] := Text.slice_self _ (by omega)
      have hnothing : packedCode p (endLines s.options []) = [] := carries_nil.packedCode_eq
      simp only [hheader, if_true, hfront, hnohead, hnofoot, hnothing, List.append_nil, List.nil_append] at hcarries ⊢
      exact hcarries

/-- Where the width of a level of indentation is a number, every entity can be written anew. -/
theorem exists_retypedEntity {n : Int} (hwidth : s.options.indentationSize = .blanks n) (e : Entity) (body : Span) :
    ∃ text, retypedEntity s e body = .ok text := by
  obtain ⟨level, hlevel⟩ := exists_indentUnit hwidth (some (e.indent, e.baseIndent))
  have hinside : ∃ inside, retypedBody s e body = .ok inside := by
    unfold retypedBody
    rw [hlevel]
    split
    · exact ⟨_, rfl⟩
    · dsimp only [bind, Except.bind, pure, Except.pure]
      split
      · exact ⟨_, rfl⟩
      · split
        · exact ⟨_, rfl⟩
        · exact ⟨_, rfl⟩
  obtain ⟨inside, hinside⟩ := hinside
  unfold retypedEntity
  rw [hinside]
  exact ⟨_, rfl⟩

end Entities

end MemberOrder.Layout

namespace MemberOrder

open Layout

theorem retypes_ofFileType {fileType : FileType} (h : fileType.language ≠ .yaml) :
    (Rules.ofFileType fileType).retypes = true := by
  unfold Rules.ofFileType
  cases hlanguage : fileType.language with
  | typescript => rfl
  | css => rfl
  | go => rfl
  | json => rfl
  | yaml => exact absurd hlanguage h

theorem breaksBeforeFooter_ofFileType {fileType : FileType} (h : fileType ≠ .sass) :
    (Rules.ofFileType fileType).breaksBeforeFooter = true := by
  unfold Rules.ofFileType
  cases fileType.language with
  | typescript => rfl
  | css => exact bne_iff_ne.mpr h
  | go => rfl
  | json => rfl
  | yaml => rfl

/-- An entity is written anew under options that ask for a layout. -/
theorem writeEntity_eq_retyped {o : Options} (hyaml : o.fileType.language ≠ .yaml) (hlayout : o.asksForLayout = true)
    {e : Entity} {span body : Span} (hspan : e.span = some span) (hbody : e.body = some body) {text : List Char}
    (htext : retypedEntity (settingOf o e span) e body = .ok text) :
    writeEntity o e = .ok (String.ofList (endLines o text)) := by
  have hsynthesizes : synthesizes (Rules.ofFileType o.fileType) o = true := by
    rw [synthesizes, hlayout, retypes_ofFileType hyaml]
    rfl
  let s := settingOf o e span
  have hwrite : writeBlock (Rules.ofFileType o.fileType) o e = (do
      let rendered ← if synthesizes (Rules.ofFileType o.fileType) o then retypedEntity s e body
        else if reordered e.members then pure (dealtEntity s body e.members) else pure s.excerpt.text.toList
      return String.ofList (withOptionsEnding o s.excerpt.text.toList rendered)) := by
    simp only [writeBlock, hspan, hbody]
    rfl
  rw [writeEntity_eq_writeBlock hyaml, hwrite, if_pos hsynthesizes, htext]
  exact congrArg (fun cs => Except.ok (String.ofList cs)) (withOptionsEnding_eq o _ text)

/-- An entity that is written anew can be written, and what follows it and closes its last note, the text
is read as its parts. -/
theorem writeEntity_reads {p : Profile} {o : Options} (hp : SpacesPlain p)
    (hyaml : o.fileType.language ≠ .yaml) (hsass : o.fileType ≠ .sass) (hlayout : o.asksForLayout = true)
    {width : Int} (hwidth : o.indentationSize = .blanks width) {P : MemberInfo → Prop} {t : Text} {e : Entity}
    {a b : Nat} (hlaid : e.LaidOut P t a b) (hb : b ≤ t.size) (houtlined : Outlined e) {span body : Span}
    (hspan : e.span = some span) (hbody : e.body = some body) {ms : List Member}
    (hms : Rearranged e.members ms) (hwhole : WholeParts p (settingOf o e span) { e with members := ms } body)
    {N : List Char → Prop} (hnotes : Annotated p N (settingOf o e span) { e with members := ms } body.start) :
    ∃ text, writeEntity o { e with members := ms } = .ok text ∧ ∀ ds,
      (e.header = "" → ∀ n, N n → packedCode p (endLines o n ++ ds) = packedCode p ds) →
      packedCode p (text.toList ++ ds) =
        partsCode p o (entityParts (settingOf o e span) { e with members := ms } body) ++ packedCode p ds := by
  let s := settingOf o e span
  let e' : Entity := { e with members := ms }
  obtain ⟨text, htext⟩ := exists_retypedEntity (s := s) hwidth e' body
  obtain ⟨hstart, hstop, hmembers⟩ := hlaid.laidFrom hbody
  obtain ⟨rfl, rfl⟩ := hlaid.bounds_eq hspan
  have hsize := size_settingOf o hlaid.text hb
  have hbreaks : s.rules.breaksBeforeFooter = true := breaksBeforeFooter_ofFileType hsass
  have hcarries := retypedEntity_carries hp hbreaks (e := e') ⟨houtlined.1, houtlined.2, houtlined.3, houtlined.4⟩
    hspan hbody rfl hsize (by have := hmembers.le; omega) (bounds_eq hmembers hms) htext hwhole hnotes
  refine ⟨String.ofList (endLines o text), ?_, fun ds htail => ?_⟩
  · exact writeEntity_eq_retyped hyaml hlayout (e := e') hspan hbody htext
  · rw [String.toList_ofList]
    unfold CarriesUpTo at hcarries
    cases hheader : e.header.isEmpty with
    | false =>
      rw [if_neg (by simpa using hheader)] at hcarries
      exact hcarries.reads ds
    | true =>
      rw [if_pos hheader] at hcarries
      obtain ⟨w, n, rfl, hw, hn⟩ := hcarries
      have hreads : packedCode p (endLines o w ++ (endLines o n ++ ds)) =
          partsCode p o (entityParts s e' body) ++ packedCode p (endLines o n ++ ds) := hw.reads _
      rw [endLines_append hw.uncut, List.append_assoc, hreads, htail (by simpa using hheader) n hn]

end MemberOrder
