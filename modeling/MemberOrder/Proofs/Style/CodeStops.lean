/-
  Where the code of a line of the indented dialect stops.

  A line is read a second time, apart from the lexer, to find the column where its punctuation is
  inserted. Both readings agree lexeme by lexeme up to the first comment (`commentStart_step`), so the
  column is just past the code before that comment (`commentStart_spec`, `codeStop_spec`): there the
  reading stops, also where the comment is closed and code follows on the line. What is inserted
  comes after all code of the line if and only if no code follows a comment in it (`codeStop_iff`).
-/
import MemberOrder.Process
import MemberOrder.Proofs.Comments.Following
import MemberOrder.Proofs.Source.Companions
import MemberOrder.Proofs.Style.Blocks

namespace MemberOrder.Style.Indented

open Lexeme Scanned

/-! ## Literals of a line -/

section Reading

variable {t : Text} {depth i : Nat}

/-- In a literal, a character that escapes nothing. -/
theorem commentStart_plain {quote c : Char} (hescape : c ≠ '\\') (rest : List Char) :
    commentStart (some quote) depth i (c :: rest) =
      commentStart (if c == quote then none else some quote) depth (i + 1) rest := by
  cases rest with
  | nil => simp only [commentStart]
  | cons d rest => rw [commentStart, if_neg (by simpa using hescape)]

/-- Where no line feed cuts it off, a literal is left where the lexer ends it. -/
theorem commentStart_literal {quote : Char} (hfeed : '\n' ∉ t.toList)
    (fuel : Nat) (hi : i ≤ t.size) (hfuel : t.size ≤ i + fuel) :
    commentStart (some quote) depth i (t.remaining i) =
      commentStart none depth (literalStop .scss t quote fuel i)
        (t.remaining (literalStop .scss t quote fuel i)) := by
  have hend : ∀ {literal}, commentStart literal depth t.size (t.remaining t.size) = t.size := by
    intro literal
    rw [Text.remaining_of_size_le (Nat.le_refl _), commentStart]
  -- past the end of the text the lexer goes back to it
  have hover : ∀ fuel x, t.size ≤ x → literalStop .scss t quote fuel x = t.size := by
    intro fuel x hx
    cases fuel with
    | zero => rfl
    | succ fuel => simp only [literalStop, Array.getElem?_eq_none hx]
  induction fuel generalizing i with
  | zero =>
    obtain rfl : i = t.size := by omega
    rw [literalStop, hend, hend]
  | succ fuel ih =>
    cases hc : t[i]? with
    | none =>
      obtain rfl : i = t.size := Nat.le_antisymm hi (Array.getElem?_eq_none_iff.mp hc)
      rw [hover _ _ hi, hend, hend]
    | some c =>
      have hlt := Text.lt_size_of_getElem? hc
      have hline : c ≠ '\n' := by
        rintro rfl
        exact hfeed (List.mem_of_getElem? (Array.getElem?_toList.trans hc))
      have hraw : Profile.scss.rawQuotes.contains quote = false := rfl
      rw [Text.remaining_of_getElem? hc]
      simp only [literalStop, hc, hraw, Bool.not_false, Bool.and_true, beq_iff_eq]
      by_cases hescape : c = '\\'
      · subst hescape
        rw [if_pos rfl]
        cases hd : t[i + 1]? with
        | none =>
          have hlast : t.size = i + 1 := by
            have := Array.getElem?_eq_none_iff.mp hd
            omega
          rw [Text.remaining_of_size_le (Nat.le_of_eq hlast), hover _ _ (by omega), hend, commentStart,
            commentStart, hlast]
        | some d =>
          have := Text.lt_size_of_getElem? hd
          rw [Text.remaining_of_getElem? hd, commentStart, if_pos (by rfl)]
          exact ih (by omega) (by omega)
      · rw [if_neg hescape, commentStart_plain hescape]
        by_cases hclose : c = quote
        · rw [if_pos hclose, if_pos (by simpa using hclose)]
        · rw [if_neg hclose, if_neg (by simpa using hclose), if_neg (by simp [hline])]
          exact ih (by omega) (by omega)

/-! ## Lexemes of a line -/

theorem quotes_scss (c : Char) : Profile.scss.quotes.contains c = (c == '"' || c.toNat == 39) := by
  have hcode : c = Profile.apostrophe ↔ c.toNat = 39 :=
    ⟨fun h => by rw [h]; rfl, fun h => Char.toNat_inj.mp h⟩
  rw [Bool.eq_iff_iff]
  simp [Profile.scss, hcode]

/-- A line is read like the lexer does, lexeme by lexeme, up to its first comment. -/
theorem commentStart_step (hfeed : '\n' ∉ t.toList) (hi : i < t.size) :
    commentStart none depth i (t.remaining i) =
      if isComment (lexemeAt .scss t depth i) then i
      else commentStart none (depthAfter t (lexemeAt .scss t depth i) depth)
        (lexemeAt .scss t depth i).stop (t.remaining (lexemeAt .scss t depth i).stop) := by
  obtain ⟨c, hc⟩ : ∃ c, t[i]? = some c := ⟨t[i], Array.getElem?_eq_getElem hi⟩
  have hhead : (t.remaining (i + 1)).head? = t[i + 1]? := by
    rw [Text.remaining, List.head?_drop, Array.getElem?_toList]
  have hslash : ∀ d, t.standsAt i ['/', d] = (c == '/' && t[i + 1]? == some d) := by
    intro d
    rw [Bool.eq_iff_iff, Text.standsAt_two, hc]
    simp
  rw [Text.remaining_of_getElem? hc, commentStart, hhead]
  simp only [lexemeAt, hc, quotes_scss, hslash]
  split
  · rename_i hquote
    simp only [isComment, depthAfter]
    exact commentStart_literal hfeed _ (by omega) (by omega)
  · by_cases hstar : c = '/' ∧ t[i + 1]? = some '*'
    · simp [hstar, isComment]
    by_cases hslashes : (c = '/' ∧ t[i + 1]? = some '/') ∧ depth = 0
    · simp [hslashes, isComment, Profile.scss]
    -- no comment starts here, so the character is code
    have hblock : (c == '/' && t[i + 1]? == some '*') = false := by simpa using hstar
    have hline : (Profile.scss.lineComments && (c == '/' && t[i + 1]? == some '/') &&
        !(Profile.scss.parenGuard && decide (0 < depth))) = false := by
      simpa [Profile.scss, Nat.pos_iff_ne_zero] using hslashes
    have hnone : (c == '/' && (t[i + 1]? == some '*' || depth == 0 && t[i + 1]? == some '/')) = false := by
      rw [Bool.and_or_distrib_left, hblock, Bool.false_or]
      refine Bool.eq_false_iff.mpr fun h => hslashes ?_
      simp only [Bool.and_eq_true, beq_iff_eq] at h
      exact ⟨⟨h.1, h.2.2⟩, h.2.1⟩
    have hdepth : depthAfter t ⟨.code, i, i + 1⟩ depth =
        if c == '(' then depth + 1 else if c == ')' then depth - 1 else depth := by
      simp [depthAfter, Text.hasAt, Text.testAt_of_getElem? hc]
    rw [hblock, hline, hnone]
    simp only [Bool.false_eq_true, if_false, isComment, hdepth]
    split
    · rfl
    · split <;> rfl

/-- A place is where the first comment among lexemes starts, or the end of the text. -/
structure StopsAtComment (n : Nat) (ls : List Lexeme) (stop : Nat) : Prop where
  inside : stop ≤ n
  before : ∀ l ∈ ls, isComment l = true → stop ≤ l.start
  starts : stop < n → ∃ l ∈ ls, isComment l = true ∧ l.start = stop

/-- The reading of a line stops at the first comment of the lexer. -/
theorem commentStart_spec (hfeed : '\n' ∉ t.toList) (fuel : Nat) (hi : i ≤ t.size)
    (hfuel : t.size ≤ i + fuel) :
    StopsAtComment t.size (lexemesFrom .scss t fuel i depth)
      (commentStart none depth i (t.remaining i)) := by
  have hend : ∀ depth, StopsAtComment t.size []
      (commentStart none depth t.size (t.remaining t.size)) := by
    intro depth
    rw [Text.remaining_of_size_le (Nat.le_refl _), commentStart]
    exact ⟨Nat.le_refl _, by simp, fun h => absurd h (Nat.lt_irrefl _)⟩
  induction fuel generalizing i depth with
  | zero =>
    obtain rfl : i = t.size := by omega
    exact hend depth
  | succ fuel ih =>
    by_cases hlt : i < t.size
    · obtain ⟨hstart, hlonger, hle⟩ := lexemeAt_bounds .scss t depth hlt
      have htiles := lexemesFrom_tile .scss t (fuel + 1) i depth hi hfuel
      simp only [lexemesFrom, if_pos hlt] at htiles ⊢
      rw [commentStart_step hfeed hlt]
      by_cases hcomment : isComment (lexemeAt .scss t depth i) = true
      · rw [if_pos hcomment]
        exact ⟨hi, fun l hl _ => (htiles.bounds hl).1, fun _ => ⟨_, List.mem_cons_self, hcomment, hstart⟩⟩
      · rw [if_neg hcomment]
        obtain ⟨hinside, hbefore, hstarts⟩ :=
          @ih (depthAfter t (lexemeAt .scss t depth i) depth) _ hle (by omega)
        refine ⟨hinside, fun l hl hk => ?_, fun hstop => ?_⟩
        · rcases List.mem_cons.mp hl with rfl | hl
          · exact absurd hk hcomment
          · exact hbefore l hl hk
        · obtain ⟨l, hl, hk, heq⟩ := hstarts hstop
          exact ⟨l, List.mem_cons_of_mem _ hl, hk, heq⟩
    · obtain rfl : i = t.size := by omega
      simp only [lexemesFrom, if_neg hlt]
      exact hend depth

end Reading

/-! ## The column where code stops -/

/-- The comments of a line, as the lexer finds them. -/
def commentsIn (body : List Char) : List Comment := (Scanned.scan .scss body.toArray).comments

/-- The character of code in a column of a line. -/
def codeIn? (body : List Char) (column : Nat) : Option Char := codeAt? body.toArray (commentsIn body) column

/-- All code of a line stands before a column: from there on it has white space and comments. -/
def CodeBefore (body : List Char) (column : Nat) : Prop :=
  ∀ x, x < body.length → column ≤ x → codeIn? body x = none

instance (body : List Char) (column : Nat) : Decidable (CodeBefore body column) :=
  inferInstanceAs (Decidable (∀ x, x < body.length → column ≤ x → codeIn? body x = none))

/-- No code comes after a comment of a line. -/
def CommentsLast (body : List Char) : Prop := ∀ k ∈ commentsIn body, CodeBefore body k.stop

instance (body : List Char) : Decidable (CommentsLast body) :=
  inferInstanceAs (Decidable (∀ k ∈ commentsIn body, CodeBefore body k.stop))

/-- What is trimmed at the end of a text is white space, and what is left ends with none. -/
theorem trimRight_spec (cs : List Char) : ∃ spaces, cs = Text.trimRight cs ++ spaces ∧
    (∀ c ∈ spaces, Text.isSpace c = true) ∧
    ∀ c, (Text.trimRight cs).getLast? = some c → Text.isSpace c = false := by
  refine ⟨(cs.reverse.takeWhile Text.isSpace).reverse, ?_, fun c hc => ?_, fun c hc => ?_⟩
  · rw [Text.trimRight, ← List.reverse_append, List.takeWhile_append_dropWhile, List.reverse_reverse]
  · exact List.all_eq_true.mp List.all_takeWhile c (List.mem_reverse.mp hc)
  · have := List.head?_dropWhile_not Text.isSpace cs.reverse
    rw [Text.trimRight, List.getLast?_reverse] at hc
    rwa [hc] at this

/-- The code of a line stops before its comments, right after some code, and the code behind that column
comes after a comment. -/
theorem codeStop_spec {body : List Char} (hfeed : '\n' ∉ body) :
    (∀ k ∈ commentsIn body, codeStop body ≤ k.offset) ∧
      (0 < codeStop body → (codeIn? body (codeStop body - 1)).isSome = true) ∧
      ∀ x, codeStop body ≤ x → (codeIn? body x).isSome = true → ∃ k ∈ commentsIn body, k.stop ≤ x := by
  obtain ⟨hinside, hbefore, hstarts⟩ : StopsAtComment body.length (lexemes .scss body.toArray)
      (commentStart none 0 0 body) :=
    commentStart_spec (t := body.toArray) hfeed body.toArray.size (Nat.zero_le _) (by omega)
  generalize hstop : commentStart none 0 0 body = stop at hinside hbefore hstarts
  obtain ⟨spaces, htake, hspaces, hlast⟩ := trimRight_spec (body.take stop)
  have hn : codeStop body = (Text.trimRight (body.take stop)).length := by rw [codeStop, hstop]
  have hlength : codeStop body + spaces.length = stop := by
    have := congrArg List.length htake
    rw [List.length_take, List.length_append] at this
    omega
  have hget : ∀ {x}, x < stop → body[x]? = (Text.trimRight (body.take stop) ++ spaces)[x]? := by
    intro x hx
    rw [← htake, List.getElem?_take_of_lt hx]
  have hcomment : ∀ k ∈ commentsIn body, stop ≤ k.offset := by
    intro k hk
    obtain ⟨l, hl, hkind, hoffset, -⟩ := comment_of_scan hk
    rw [hoffset]
    exact hbefore l hl hkind
  refine ⟨fun k hk => ?_, fun hpos => ?_, fun x hx hcode => ?_⟩
  · have := hcomment k hk
    omega
  · have hne : Text.trimRight (body.take stop) ≠ [] := List.length_pos_iff.mp (hn ▸ hpos)
    have hc := List.getLast?_eq_some_getLast hne
    have hspace := hlast _ hc
    rw [List.getLast?_eq_getElem?, ← hn] at hc
    refine Option.isSome_iff_exists.mpr ⟨_, codeAt?_eq_some.mpr ⟨?_, hspace, ?_⟩⟩
    · rw [List.getElem?_toArray, hget (by omega), List.getElem?_append_left (by omega), hc]
    · rintro ⟨k, hk, h1, -⟩
      have := hcomment k hk
      omega
  · obtain ⟨c, hc⟩ := Option.isSome_iff_exists.mp hcode
    obtain ⟨hc, hink, hout⟩ := codeAt?_eq_some.mp hc
    rw [List.getElem?_toArray] at hc
    by_cases hlt : x < stop
    · -- what was trimmed is no code
      rw [hget hlt, List.getElem?_append_right (by omega)] at hc
      rw [hspaces c (List.mem_of_getElem? hc)] at hink
      cases hink
    · have hsize := (List.getElem?_eq_some_iff.mp hc).1
      obtain ⟨l, hl, hkind, hstart⟩ := hstarts (by omega)
      obtain ⟨k, hk, hoffset, -⟩ := exists_comment hl hkind
      refine ⟨k, hk, Nat.le_of_not_lt fun hin => hout ⟨k, hk, ?_, hin⟩⟩
      omega

/-! ## Where punctuation is inserted -/

/-- For the lines of code among those that are read, it is noted where their code stops. -/
theorem readLines_stops (d : Decorating) (i : Nat) (bodies : List (List Char)) :
    ∃ stops, (readLines d i bodies).ends.reverse = d.ends.reverse ++ stops ∧
      ∀ (k : Nat) (body : List Char), bodies[k]? = some body →
        (codeFlags d.inComment bodies).getD k false = true → stops.getD k 0 = codeStop body := by
  induction bodies generalizing d i with
  | nil => exact ⟨[], by simp [readLines], by simp⟩
  | cons body rest ih =>
    obtain ⟨stops, hstops, hcode⟩ := ih (readLine d i body) (i + 1)
    refine ⟨(if d.inComment then 0 else codeStop body) :: stops, ?_, fun k body' hk hflag => ?_⟩
    · rw [readLines, hstops, readLine_ends]
      simp
    · cases k with
      | zero =>
        cases hk
        have hopen : d.inComment = false := by
          simp only [codeFlags, List.getD_cons_zero, Bool.and_eq_true, Bool.not_eq_true'] at hflag
          exact hflag.1
        rw [List.getD_cons_zero, hopen, if_neg Bool.false_ne_true]
      | succ k =>
        rw [readLine_inComment] at hcode
        exact hcode k body' hk hflag

/-- Punctuation is inserted into lines of code only, where their code stops. -/
theorem codeStop_of_inserted {source : List Char} {l : Line} (hl : l ∈ decorate source)
    (hins : l.inserted ≠ []) : l.codeStop = codeStop (withoutReturn l.text) := by
  obtain ⟨i, hi⟩ := List.getElem?_of_mem hl
  -- the line is one of code, since something is inserted into it
  have hcode : isCode source i = true := by
    obtain ⟨c, hc⟩ := List.exists_mem_of_ne_nil _ hins
    rw [inserted_decorate hi] at hc
    obtain ⟨x, hx, rfl, -⟩ := mem_insertedInto.mp hc
    exact (nests_final source).2 x (List.mem_reverse.mp hx)
  obtain ⟨stops, hstops, hnoted⟩ := readLines_stops {} 0 ((Text.lines source).map withoutReturn)
  simp only [decorate, List.getElem?_map, List.getElem?_zipIdx, Option.map_map, closeAll_ends, hstops] at hi
  obtain ⟨text, htext, rfl⟩ := Option.map_eq_some_iff.mp hi
  simp only [Function.comp_apply, List.reverse_nil, List.nil_append, Nat.zero_add]
  refine hnoted i (withoutReturn text) ?_ hcode
  rw [List.getElem?_map, htext]
  rfl

/-- The character before the column where the code of a line stops is code. All code of the line stands
before that column, and so before the punctuation that is inserted into it, if and only if no code comes
after a comment of the line. -/
theorem codeStop_iff {body : List Char} (hfeed : '\n' ∉ body) :
    (0 < codeStop body → (codeIn? body (codeStop body - 1)).isSome = true) ∧
      (CodeBefore body (codeStop body) ↔ CommentsLast body) ∧
      ∀ source, ∀ l ∈ decorate source, withoutReturn l.text = body → l.inserted ≠ [] →
        (CodeBefore body l.codeStop ↔ CommentsLast body) := by
  obtain ⟨hcomments, hlast, hbehind⟩ := codeStop_spec hfeed
  have hiff : CodeBefore body (codeStop body) ↔ CommentsLast body := by
    constructor
    · intro hbefore k hk x hx hle
      have := comment_bounds hk
      have := hcomments k hk
      exact hbefore x hx (by omega)
    · intro hall x hx hle
      refine Option.not_isSome_iff_eq_none.mp fun hcode => ?_
      obtain ⟨k, hk, hstop⟩ := hbehind x hle hcode
      rw [hall k hk x hx hstop] at hcode
      cases hcode
  refine ⟨hlast, hiff, fun source l hl hline hins => ?_⟩
  rw [codeStop_of_inserted hl hins, hline]
  exact hiff

/-- A declaration with slashes in parentheses, a comment mark in a literal, and two comments behind. -/
def guardedSlashes : List Char := "  b: url(//x) \"/*\" /* y */ // z".toList

/-- Its code stops after the literal, before the comments. -/
theorem codeStop_iff_guardedSlashes : codeStop guardedSlashes = 18 ∧
    CodeBefore guardedSlashes (codeStop guardedSlashes) :=
  ⟨by decide, (codeStop_iff (by decide)).2.1.mpr (by decide)⟩

/-- A line with code on both sides of a comment. -/
def dividedCode : List Char := "  c: d /* x */ e".toList

/-- The code of such a line is cut off at the comment, and what follows it stays behind when the
declaration is moved. -/
theorem codeStop_cuts_declaration :
    ('\n' ∉ dividedCode ∧ codeStop dividedCode = 6 ∧ codeIn? dividedCode 15 = some 'e' ∧
      ¬CodeBefore dividedCode (codeStop dividedCode)) ∧
    (processWith { fileType := .sass } "a\n  c: 0\n  b: 1 /* x */ 2\n").processedText =
      some "a\n  b: 1\n  c: 0 /* x */ 2\n" := by
  decide +kernel

end MemberOrder.Style.Indented
