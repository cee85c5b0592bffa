/-
  Comments that stay comments when they are written in another style.

  What scanning finds is spelled like a comment (`spelled_of_scan`): a line comment has no line break, and a
  block comment holds no closing marker, so neither does its body. Line comments are notes however the lines
  of the body read; a block is closed by its own marker if the lines are `Shut`, which those of a block
  comment are (`shut_bodyLines`). A line comment may hold a closing marker, and a block that is made of it
  ends too early (`writeComment_unshut`). All other comments are written as comments and white space, in
  every style and at every indentation (`writeComment_blank`).
-/
import Mathlib.Data.List.Infix
import MemberOrder.Proofs.Layout.Notes
import MemberOrder.Proofs.Layout.Retyping

namespace MemberOrder.Layout

open Lexeme Scanned

variable {p : Profile} {t : Text} {cs ds : List Char}

/-! ## Closing markers -/

/-- No closing marker of a block comment stands in a text. -/
def Shut (cs : List Char) : Prop := ¬['*', '/'] <:+: cs

instance (cs : List Char) : Decidable (Shut cs) := inferInstanceAs (Decidable (¬_))

theorem shut_iff : Shut cs ↔ ∀ k : Nat, cs[k]? = some '*' → cs[k + 1]? ≠ some '/' := by
  constructor
  · intro h k hstar hslash
    obtain ⟨hk, -⟩ := List.getElem?_eq_some_iff.mp hslash
    refine h ⟨cs.take k, cs.drop (k + 2), ?_⟩
    have htake : cs.take (k + 2) = cs.take k ++ ['*', '/'] := by
      rw [List.take_add_one, hslash, List.take_add_one, hstar, List.append_assoc]
      rfl
    rw [← htake, List.take_append_drop]
  · rintro h ⟨u, v, rfl⟩
    exact h u.length (by simp) (by simp)

theorem Shut.within (h : Shut ds) (hpart : cs <:+: ds) : Shut cs := fun hstands => h (hstands.trans hpart)

theorem Shut.append (h : Shut cs) (h' : Shut ds) (hseam : cs.getLast? ≠ some '*' ∨ ds.head? ≠ some '/') :
    Shut (cs ++ ds) := by
  rw [shut_iff] at h h' ⊢
  intro k hstar hslash
  rcases Nat.lt_trichotomy (k + 1) cs.length with hlt | heq | hgt
  · rw [List.getElem?_append_left (by omega)] at hstar hslash
    exact h k hstar hslash
  · -- the two characters stand on both sides of the seam
    rw [List.getElem?_append_left (by omega)] at hstar
    rw [List.getElem?_append_right (by omega), heq, Nat.sub_self] at hslash
    rcases hseam with hlast | hhead
    · exact hlast (by rw [List.getLast?_eq_getElem?, ← heq, Nat.add_sub_cancel, hstar])
    · exact hhead (by rw [List.head?_eq_getElem?, hslash])
  · rw [List.getElem?_append_right (by omega)] at hstar hslash
    rw [show k + 1 - cs.length = k - cs.length + 1 by omega] at hslash
    exact h' _ hstar hslash

theorem shut_of_not_mem (h : '/' ∉ cs) : Shut cs := fun hpart => h (hpart.subset (by simp))

/-! ## Block comments -/

/-- A block comment that is followed by white space has no code. -/
theorem packedCode_of_blockStop (hslash : p.quotes.contains '/' = false) (hspaces : SpacesPlain p)
    {inside : List Char}
    (hrest : ∀ c ∈ Text.slice ('/' :: '*' :: inside).toArray (blockStop ('/' :: '*' :: inside).toArray 0)
      ('/' :: '*' :: inside).length, Text.isSpace c = true) :
    packedCode p ('/' :: '*' :: inside) = [] := by
  obtain ⟨u, hu⟩ : ∃ u : Text, u = ('/' :: '*' :: inside).toArray := ⟨_, rfl⟩
  have hsize : u.size = ('/' :: '*' :: inside).length := by rw [hu, List.size_toArray]
  have hstands : u.standsAt 0 ['/', '*'] = true := Text.standsAt_two.mpr (by simp [hu])
  have hfirst : u[0]? = some '/' := (Text.standsAt_two.mp hstands).1
  have hlexeme : lexemeAt p u 0 0 = ⟨.blockComment, 0, blockStop u 0⟩ := by
    simp only [lexemeAt, hfirst, hslash, hstands]
    simp
  obtain ⟨-, hstop⟩ := blockStop_bounds hstands
  rw [← hu] at hrest
  obtain ⟨ls, hls, hclean⟩ := reads_of_plain (p := p) (x := ('/' :: '*' :: inside).length) (by omega)
    (fun c hc => plain_of_space hspaces (hrest c hc)) (by omega) 0
  have hreads : Reads p u ('/' :: '*' :: inside).length 0 0 0 (⟨.blockComment, 0, blockStop u 0⟩ :: ls) := by
    rw [← hlexeme]
    refine .step (Text.lt_size_of_getElem? hfirst) ?_
    rw [hlexeme]
    exact hls
  rw [hu] at hreads
  rw [Reads.packedCode_eq hreads, ← hu, List.flatMap_cons, hclean, pack_append, pack_eq_nil hrest, List.append_nil]
  exact pack_eq_nil fun c hc => space_of_mem_blank hc

section Blocks

variable (hslash : p.quotes.contains '/' = false) (hspaces : SpacesPlain p) {inside : List Char}
include hslash hspaces

theorem packedCode_closed (h : Shut inside) {w : List Char} (hw : ∀ c ∈ w, Text.isSpace c = true) :
    packedCode p ('/' :: '*' :: inside ++ ['*', '/'] ++ w) = [] := by
  obtain ⟨rest, hrest⟩ : ∃ rest, rest = inside ++ ['*', '/'] ++ w := ⟨_, rfl⟩
  have hall : '/' :: '*' :: inside ++ ['*', '/'] ++ w = '/' :: '*' :: rest := by simp [hrest]
  obtain ⟨u, hu⟩ : ∃ u : Text, u = ('/' :: '*' :: rest).toArray := ⟨_, rfl⟩
  have hat (k : Nat) : u[k + 2]? = rest[k]? := by rw [hu, List.getElem?_toArray]; rfl
  have hfind : u.find? ['*', '/'] 2 = some (inside.length + 2) := by
    refine Text.find?_of_first (by omega) (by simp [hu, hrest]) (Text.standsAt_two.mpr ?_) fun k hk hlt => ?_
    · rw [hat, Nat.add_right_comm, hat, hrest]
      simp
    · obtain ⟨k, rfl⟩ := Nat.exists_eq_add_of_le' hk
      refine Bool.eq_false_iff.mpr fun hstands => ?_
      obtain ⟨hstar, hclose⟩ := Text.standsAt_two.mp hstands
      rw [Nat.add_right_comm, hat, hrest, List.append_assoc] at hclose
      rw [hat, hrest, List.append_assoc, List.getElem?_append_left (by omega)] at hstar
      rcases Nat.lt_or_ge (k + 1) inside.length with hin | hout
      · rw [List.getElem?_append_left hin] at hclose
        exact shut_iff.mp h k hstar hclose
      · rw [List.getElem?_append_right hout, show k + 1 - inside.length = 0 by omega] at hclose
        cases hclose
  have hstop : blockStop u 0 = inside.length + 4 := by rw [blockStop, hfind]
  rw [hall]
  refine packedCode_of_blockStop hslash hspaces fun c hc => ?_
  rw [← hu, hstop] at hc
  obtain ⟨k, hk, -, hck⟩ := Text.mem_slice.mp hc
  obtain ⟨k, rfl⟩ := Nat.exists_eq_add_of_le hk
  rw [show inside.length + 4 + k = inside.length + 2 + k + 2 by omega, hat, hrest,
    List.getElem?_append_right (by simp)] at hck
  exact hw c (List.mem_of_getElem? hck)

/-- A block comment that is never closed goes on to the end. -/
theorem packedCode_unclosed (h : Shut inside) : packedCode p ('/' :: '*' :: inside) = [] := by
  obtain ⟨u, hu⟩ : ∃ u : Text, u = ('/' :: '*' :: inside).toArray := ⟨_, rfl⟩
  have hstop : blockStop u 0 = u.size := by
    unfold blockStop
    cases hfind : u.find? ['*', '/'] (0 + 2) with
    | none => rfl
    | some x =>
      obtain ⟨hx, -, hstands, -⟩ := Text.find?_some hfind
      obtain ⟨k, rfl⟩ := Nat.exists_eq_add_of_le' hx
      obtain ⟨hstar, hclose⟩ := Text.standsAt_two.mp hstands
      rw [hu, List.getElem?_toArray] at hstar hclose
      exact absurd hclose (shut_iff.mp h k hstar)
  refine packedCode_of_blockStop hslash hspaces fun c hc => ?_
  rw [← hu, hstop, Text.slice_self u (by simp [hu])] at hc
  cases hc

end Blocks

/-! ## Comments as they are spelled -/

/-- How a comment is written: to the end of the line, or up to its closing marker or the end of the text. -/
inductive Spelling : CommentKind → List Char → Prop
  | line {rest : List Char} : '\n' ∉ rest → Spelling .line ('/' :: '/' :: rest)
  | closed {inside : List Char} : Shut inside → Spelling .block ('/' :: '*' :: inside ++ ['*', '/'])
  | unclosed {inside : List Char} : Shut inside → Spelling .block ('/' :: '*' :: inside)

theorem slice_of_standsAt_two {i j : Nat} {a b : Char} (h : t.standsAt i [a, b] = true) (hij : i + 2 ≤ j) :
    t.slice i j = a :: b :: t.slice (i + 2) j := by
  have htwo : t.slice i (i + 2) = [a, b] := Text.slice_of_standsAt h
  rw [← Text.slice_append t (Nat.le_add_right i 2) hij, htwo]
  rfl

theorem spelling_lineStop {i : Nat} (h : t.standsAt i ['/', '/'] = true) :
    Spelling .line (t.slice i (lineStop t i)) := by
  rw [slice_of_standsAt_two h (lineStop_bounds h).1]
  refine .line fun hbreak => ?_
  obtain ⟨x, hx, hlt, hfeed⟩ := Text.mem_slice.mp hbreak
  have hle : lineStop t i ≤ (t.find? ['\n'] i).getD t.size := by
    unfold lineStop
    dsimp only
    split <;> omega
  have hstands := Text.standsAt_one.mpr hfeed
  cases hfind : t.find? ['\n'] i with
  | none =>
    rw [Text.find?_none hfind x (by omega) (Text.lt_size_of_getElem? hfeed)] at hstands
    cases hstands
  | some y =>
    rw [hfind, Option.getD_some] at hle
    rw [(Text.find?_some hfind).2.2.2 x (by omega) (by omega)] at hstands
    cases hstands

theorem shut_slice {i j : Nat} (h : ∀ k, i ≤ k → k + 1 < j → t.standsAt k ['*', '/'] = false) :
    Shut (t.slice i j) := by
  rw [shut_iff]
  intro k hstar hslash
  rw [Text.getElem?_slice] at hstar hslash
  split at hslash
  · rename_i hlt
    rw [if_pos (by omega)] at hstar
    have := h (i + k) (Nat.le_add_right i k) (by omega)
    rw [Text.standsAt_two.mpr ⟨hstar, by rwa [Nat.add_assoc]⟩] at this
    cases this
  · cases hslash

theorem spelling_blockStop {i : Nat} (h : t.standsAt i ['/', '*'] = true) :
    Spelling .block (t.slice i (blockStop t i)) := by
  rw [slice_of_standsAt_two h (blockStop_bounds h).1]
  unfold blockStop
  cases hfind : t.find? ['*', '/'] (i + 2) with
  | none =>
    simp only
    exact .unclosed (shut_slice fun k hk hlt => Text.find?_none hfind k hk (by omega))
  | some close =>
    obtain ⟨hle, -, hstands, hfirst⟩ := Text.find?_some hfind
    have hend : t.slice close (close + 2) = ['*', '/'] := Text.slice_of_standsAt hstands
    simp only
    rw [← Text.slice_append t hle (Nat.le_add_right close 2), hend]
    exact .closed (shut_slice fun k hk hlt => hfirst k hk (by omega))

/-- A comment that scanning finds is spelled like one. -/
theorem spelled_of_scan {c : Comment} (hc : c ∈ (scan p t).comments) :
    Spelling c.kind c.raw.toList ∧ c.text = String.ofList (Comment.body c.raw.toList) ∧
      (c.kind = .line → p.lineComments = true) := by
  obtain ⟨l, hl, hcomment⟩ := List.mem_filterMap.mp hc
  obtain ⟨hlt, depth, hlexeme⟩ := eq_lexemeAt_of_mem hl
  have hfirst : t[l.start]? = some t[l.start] := Array.getElem?_eq_getElem hlt
  simp only [lexemeAt, hfirst] at hlexeme
  split at hlexeme
  · rw [hlexeme] at hcomment
    cases hcomment
  split at hlexeme
  · rename_i hstands
    rw [hlexeme] at hcomment
    cases hcomment
    exact ⟨by simpa using spelling_blockStop hstands, by simp, fun h => by cases h⟩
  split at hlexeme
  · rename_i hstands
    simp only [Bool.and_eq_true] at hstands
    rw [hlexeme] at hcomment
    cases hcomment
    exact ⟨by simpa using spelling_lineStop hstands.1.2, by simp, fun _ => hstands.1.1⟩
  · rw [hlexeme] at hcomment
    cases hcomment

/-! ## The lines of a body -/

theorem prefix_trimRight (cs : List Char) : Text.trimRight cs <+: cs := by
  rw [← List.reverse_suffix, Text.trimRight, List.reverse_reverse]
  exact List.dropWhile_suffix _

theorem infix_trim (cs : List Char) : Text.trim cs <:+: cs :=
  (prefix_trimRight _).isInfix.trans (List.dropWhile_suffix _).isInfix

/-- The first piece is what the text starts with, and every other one stands in it. -/
theorem pieces_of_splitAt {isSeparator : Char → Bool} {piece : List Char} {more : List (List Char)}
    (h : Text.splitAt isSeparator cs = piece :: more) : piece <+: cs ∧ ∀ x ∈ more, x <:+: cs := by
  induction cs generalizing piece more with
  | nil =>
    cases h
    exact ⟨List.prefix_refl _, nofun⟩
  | cons c rest ih =>
    obtain ⟨first, others, hpieces⟩ := List.exists_cons_of_ne_nil (Text.splitAt_ne_nil isSeparator rest)
    obtain ⟨hfirst, hothers⟩ := ih hpieces
    rw [Text.splitAt, hpieces] at h
    split at h
    · cases h
      exact ⟨List.nil_prefix, fun x hx => List.infix_cons (by
        rcases List.mem_cons.mp hx with rfl | hx
        · exact hfirst.isInfix
        · exact hothers x hx)⟩
    · cases h
      exact ⟨List.cons_prefix_cons.mpr ⟨rfl, hfirst⟩, fun x hx => List.infix_cons (hothers x hx)⟩

theorem infix_of_mem_lines {line : List Char} (h : line ∈ Text.lines cs) : line <:+: cs := by
  obtain ⟨first, others, hpieces⟩ := List.exists_cons_of_ne_nil (Text.splitAt_ne_nil (· == '\n') cs)
  obtain ⟨hfirst, hothers⟩ := pieces_of_splitAt hpieces
  rw [Text.lines, hpieces] at h
  rcases List.mem_cons.mp h with rfl | h
  · exact hfirst.isInfix
  · exact hothers line h

theorem infix_bodyLine (kind : CommentKind) (line : List Char) : bodyLine kind line <:+: line := by
  cases kind with
  | line => exact infix_trim line
  | block => exact (infix_trim _).trans ((List.dropWhile_suffix _).isInfix.trans (infix_trim line))

/-- Where no closing marker stands in a comment's body, none stands in its lines. -/
theorem shut_bodyLines {c : Comment} (h : Shut c.text.toList) : ∀ line ∈ bodyLines c, Shut line := by
  unfold bodyLines
  dsimp only
  split
  · simp only [List.mem_singleton, forall_eq]
    decide
  · intro line hline
    obtain ⟨raw, hraw, rfl⟩ := List.mem_map.mp (List.mem_filter.mp hline).1
    exact h.within ((infix_bodyLine c.kind raw).trans (infix_of_mem_lines hraw))

theorem dropCloser_closed (inside : List Char) : Comment.dropCloser (inside ++ ['*', '/']) = inside := by
  rw [Comment.dropCloser]
  simp

theorem dropCloser_of_shut (h : Shut cs) : Comment.dropCloser cs = cs := by
  unfold Comment.dropCloser
  split
  · rename_i rest hreverse
    refine absurd ⟨rest.reverse, [], ?_⟩ h
    rw [← List.reverse_reverse cs, hreverse]
    simp
  · rename_i rest hreverse
    refine absurd ⟨rest.reverse, ['\n'], ?_⟩ h
    rw [← List.reverse_reverse cs, hreverse]
    simp
  · rfl

/-- No closing marker stands in the body of a block comment. -/
theorem shut_body {raw : List Char} (h : Spelling .block raw) : Shut (Comment.body raw) := by
  have htrim {cs : List Char} (hshut : Shut (Comment.dropCloser cs)) : Shut (Text.trim (Comment.dropCloser cs)) :=
    hshut.within (infix_trim _)
  cases h with
  | @closed inside h =>
    cases inside with
    | nil => decide
    | cons c rest =>
      have hrest : Shut rest := h.within (List.suffix_cons c rest).isInfix
      by_cases hstar : c = '*'
      · subst hstar
        change Shut (Text.trim (Comment.dropCloser (rest ++ ['*', '/'])))
        exact htrim (by rwa [dropCloser_closed])
      · have hbody : Comment.body ('/' :: '*' :: (c :: rest) ++ ['*', '/']) =
            Text.trim (Comment.dropCloser (c :: rest ++ ['*', '/'])) := by
          simp [Comment.body, hstar]
        rw [hbody]
        exact htrim (by rwa [dropCloser_closed])
  | @unclosed inside h =>
    cases inside with
    | nil => decide
    | cons c rest =>
      have hrest : Shut rest := h.within (List.suffix_cons c rest).isInfix
      by_cases hstar : c = '*'
      · subst hstar
        exact htrim (by rwa [dropCloser_of_shut hrest])
      · have hbody : Comment.body ('/' :: '*' :: c :: rest) = Text.trim (Comment.dropCloser (c :: rest)) := by
          simp [Comment.body, hstar]
        rw [hbody]
        exact htrim (by rwa [dropCloser_of_shut h])

/-! ## Comments as they are written -/

/-- The comments that a profile reads. -/
def formsOf (p : Profile) : CommentForms := ⟨if p.lineComments then some "//" else none, true⟩

section Starred

variable {indent : List Char} (hindent : Indents indent)
include hindent

theorem slash_not_mem_frame {frame : List Char} (hframe : '/' ∉ frame) : '/' ∉ '\n' :: indent ++ frame := by
  intro h
  rw [List.cons_append, List.mem_cons, List.mem_append] at h
  rcases h with heq | hin | hin
  · cases heq
  · rcases hindent _ hin with heq | heq <;> cases heq
  · exact hframe hin

/-- The lines of a block, each behind a star, hold no closing marker. -/
theorem shut_starred {lines : List (List Char)} (h : ∀ line ∈ lines, Shut line) :
    Shut (lines.flatMap fun line => Text.trimRight ('\n' :: indent ++ [' ', '*', ' '] ++ line)) := by
  induction lines with
  | nil => exact shut_of_not_mem List.not_mem_nil
  | cons line rest ih =>
    obtain ⟨hline, hrest⟩ := List.forall_mem_cons.mp h
    have hstar : Shut ('\n' :: indent ++ [' ', '*', ' ']) :=
      shut_of_not_mem (slash_not_mem_frame hindent (by decide))
    have hlast : ('\n' :: indent ++ [' ', '*', ' ']).getLast? ≠ some '*' := by
      rw [List.getLast?_append]
      exact nofun
    have hpiece := (hstar.append hline (.inl hlast)).within (prefix_trimRight _).isInfix
    rw [List.flatMap_cons]
    refine hpiece.append (ih hrest) (.inr ?_)
    cases rest with
    | nil => exact nofun
    | cons next more =>
      have htrim : Text.trimRight ('\n' :: indent ++ [' ', '*', ' '] ++ next) =
          '\n' :: indent ++ [' ', '*'] ++ Text.trimRight (' ' :: next) := by
        rw [← trimRight_append_of_last (by rw [List.getLast?_append]; rfl)]
        simp
      rw [List.flatMap_cons, htrim]
      simp

/-- A block is closed by its own marker only. -/
theorem packedCode_asBlock (hslash : p.quotes.contains '/' = false) (hspaces : SpacesPlain p)
    {lines : List (List Char)} (h : ∀ line ∈ lines, Shut line) :
    packedCode p (asBlock indent lines ++ ['\n']) = [] := by
  have hbreak : ∀ c ∈ ['\n'], Text.isSpace c = true := by decide
  unfold asBlock
  split
  · rename_i line
    have hline : Shut (' ' :: line ++ [' ']) :=
      (Shut.append (show Shut [' '] by decide) (h line List.mem_cons_self) (.inl (by decide))).append
        (by decide) (.inr (by decide))
    simpa using packedCode_closed hslash hspaces hline hbreak
  · have hend : Shut ('\n' :: indent ++ [' ']) := shut_of_not_mem (slash_not_mem_frame hindent (by decide))
    have hinside := (shut_starred hindent h).append hend (.inr (by simp))
    simpa using packedCode_closed hslash hspaces hinside hbreak

end Starred

theorem packedCode_notes (hp : Slashed p) (h : Notes cs) : packedCode p (cs ++ ['\n']) = [] :=
  (h.carries (o := default) hp).packedCode_eq

/-- A comment that stays as it is written is followed by a line break. -/
theorem Spelling.packedCode_eq_nil {kind : CommentKind} (h : Spelling kind cs)
    (hslash : p.quotes.contains '/' = false) (hspaces : SpacesPlain p)
    (hline : kind = .line → p.lineComments = true) : packedCode p (cs ++ ['\n']) = [] := by
  cases h with
  | line hrest => exact packedCode_lineComment ⟨hline rfl, hslash, hspaces⟩ hrest []
  | closed hinside => exact packedCode_closed hslash hspaces hinside (by decide)
  | unclosed hinside =>
    exact packedCode_unclosed hslash hspaces (hinside.append (by decide) (.inr (by decide)))

/-- A line comment is written as a block only in the style of blocks. -/
theorem writeComment_cases (style : CommentStyle) (indent : String) {c : Comment}
    (hline : c.kind = .line → p.lineComments = true) :
    writeComment (formsOf p) style indent c = c.raw ∨
    (p.lineComments = true ∧ writeComment (formsOf p) style indent c =
      String.ofList (asLines ['/', '/'] indent.toList (bodyLines c))) ∨
    (c.kind = .line → style = .multiLine) ∧ writeComment (formsOf p) style indent c =
      String.ofList (asBlock indent.toList (bodyLines c)) := by
  by_cases hkeep : (style == .preserve && (formsOf p).allows c.raw) = true
  · exact .inl (by rw [writeComment, if_pos hkeep])
  right
  rw [writeComment, if_neg hkeep]
  cases hslashes : p.lineComments with
  | false =>
    refine .inr ⟨fun hkind => ?_, by simp [formsOf, hslashes]⟩
    rw [hline hkind] at hslashes
    cases hslashes
  | true =>
    by_cases hwants : (style == .singleLine || (style == .preserve && c.kind == .line)) = true
    · exact .inl ⟨rfl, by simp [formsOf, hslashes, hwants]⟩
    · refine .inr ⟨fun hkind => ?_, by simp [formsOf, hslashes, hwants]⟩
      rw [hkind] at hwants
      cases style with
      | multiLine => rfl
      | _ => exact absurd rfl hwants

theorem comments_ofFileType {fileType : FileType} (h : fileType.language ≠ .yaml) :
    (Rules.ofFileType fileType).comments = formsOf (profileOf fileType) := by
  cases fileType with
  | yaml | yml => exact absurd rfl h
  | _ => rfl

theorem profileOf_plain (fileType : FileType) :
    (profileOf fileType).quotes.contains '/' = false ∧ SpacesPlain (profileOf fileType) := by
  cases fileType <;> exact ⟨by decide, by unfold SpacesPlain; decide⟩

/-- A comment that scanning finds is a comment in every style and at every indentation: with a line break
behind it, nothing is read but comments and white space. A line comment that is made a block may hold no
closing marker. -/
theorem writeComment_blank {fileType : FileType} (hyaml : fileType.language ≠ .yaml) {t : Text} {c : Comment}
    (hc : c ∈ (scan (profileOf fileType) t).comments) {style : CommentStyle}
    (hshut : c.kind = .line → style = .multiLine → Shut c.text.toList) {indent : String}
    (hindent : Indents indent.toList) :
    ∀ x ∈ (scan (profileOf fileType) ((writeComment (Rules.ofFileType fileType).comments style indent c).toList ++
      ['\n']).toArray).clean, Text.isSpace x = true := by
  obtain ⟨hspelling, htext, hline⟩ := spelled_of_scan hc
  obtain ⟨hslash, hspaces⟩ := profileOf_plain fileType
  have hpacked : packedCode (profileOf fileType)
      ((writeComment (Rules.ofFileType fileType).comments style indent c).toList ++ ['\n']) = [] := by
    rw [comments_ofFileType hyaml]
    rcases writeComment_cases style indent hline with hraw | ⟨hslashes, hlines⟩ | ⟨hkind, hblock⟩
    · rw [hraw]
      exact hspelling.packedCode_eq_nil hslash hspaces hline
    · rw [hlines, String.toList_ofList]
      exact packedCode_notes ⟨hslashes, hslash, hspaces⟩ (notes_asLines hindent (not_mem_bodyLines c))
    · have hbody : Shut c.text.toList := by
        cases hk : c.kind with
        | line => exact hshut hk (hkind hk)
        | block =>
          rw [htext, String.toList_ofList]
          exact shut_body (hk ▸ hspelling)
      rw [hblock, String.toList_ofList]
      exact packedCode_asBlock hindent hslash hspaces (shut_bodyLines hbody)
  intro x hx
  by_contra hcode
  have hmem : x ∈ packedCode (profileOf fileType)
      ((writeComment (Rules.ofFileType fileType).comments style indent c).toList ++ ['\n']) := by
    rw [packedCode, pack, List.mem_filter]
    exact ⟨Array.mem_toList_iff.mpr hx, by simpa using hcode⟩
  rw [hpacked] at hmem
  cases hmem

theorem writeComment_blank_lines :
    let c : Comment := { text := "a\n * b", kind := .block, raw := "/* a\n * b */", line := 1, endLine := 2
                         offset := 2, stop := 14 }
    FileType.scss.language ≠ .yaml ∧ c ∈ (scan .scss (Text.ofString "x /* a\n * b */")).comments ∧
    (c.kind = .line → CommentStyle.singleLine = .multiLine → Shut c.text.toList) ∧ Indents "  ".toList ∧
    ∀ x ∈ (scan .scss ((writeComment (Rules.style .scss).comments .singleLine "  " c).toList ++
      ['\n']).toArray).clean, Text.isSpace x = true := by
  intro c
  have hc : c ∈ (scan .scss (Text.ofString "x /* a\n * b */")).comments := by decide
  exact ⟨nofun, hc, nofun, by decide, @writeComment_blank .scss nofun _ _ hc .singleLine nofun _ (by decide)⟩

/-- A line comment with a closing marker is no comment any more when it is made a block. -/
theorem writeComment_unshut : ¬∀ (fileType : FileType) (t : Text) (style : CommentStyle) (indent : String),
    fileType.language ≠ .yaml → Indents indent.toList → ∀ c ∈ (scan (profileOf fileType) t).comments,
    ∀ x ∈ (scan (profileOf fileType) ((writeComment (Rules.ofFileType fileType).comments style indent c).toList ++
      ['\n']).toArray).clean, Text.isSpace x = true := by
  intro h
  have := h .typescript (Text.ofString "// a */ b\n") .multiLine "" nofun (by decide)
    { text := "a */ b", kind := .line, raw := "// a */ b", line := 1, endLine := 1, offset := 0, stop := 9 }
    (by decide +kernel) 'b' (by decide +kernel)
  revert this
  decide

end MemberOrder.Layout
