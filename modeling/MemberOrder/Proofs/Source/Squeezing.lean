/-
  Squeezed texts with block comments in them.

  A text of plain characters and closed block comments can be read one character at a time (`readOn`): what
  matters is whether a comment has been started, and whether the next character may end it. What is read to its
  end in this way is what the lexer passes over (`reads_of_readOn`, `readOn_of_reads`). White space means the
  same to this reading in any amount, so it does not notice when a text is squeezed (`foldl_collapse`), and the
  code stays (`Noted.packedCode_collapse`).
-/
import MemberOrder.Proofs.Source.Breaks
import MemberOrder.Proofs.Source.Stops

namespace MemberOrder

/-! ## White space in any amount -/

section Folds

variable {σ : Type} {step : σ → Char → σ} (hspace : ∀ x c, Text.isSpace c = true → step x c = step x ' ')
include hspace

theorem foldl_splitAt (x : σ) (cs : List Char) :
    ((Text.splitAt Text.isSpace cs).flatMap (· ++ [' '])).foldl step x = (cs ++ [' ']).foldl step x := by
  induction cs generalizing x with
  | nil => rfl
  | cons c rest ih =>
    rw [Text.splitAt, List.cons_append, List.foldl_cons, ← ih]
    cases hc : Text.isSpace c with
    | true =>
      rw [if_pos rfl, hspace x c hc]
      rfl
    | false =>
      rw [if_neg Bool.false_ne_true]
      obtain ⟨piece, more, hpieces⟩ := List.exists_cons_of_ne_nil (Text.splitAt_ne_nil Text.isSpace rest)
      rw [hpieces]
      rfl

variable (htwice : ∀ x, step (step x ' ') ' ' = step x ' ')
include htwice

omit hspace in
theorem foldl_nonempty {x : σ} (hx : step x ' ' = x) (pieces : List (List Char)) :
    ((pieces.filter (!·.isEmpty)).flatMap (· ++ [' '])).foldl step x =
      (pieces.flatMap (· ++ [' '])).foldl step x := by
  induction pieces generalizing x with
  | nil => rfl
  | cons piece rest ih =>
    rw [List.flatMap_cons, List.foldl_append]
    cases piece with
    | nil =>
      rw [List.filter_cons_of_neg (by simp), ih hx]
      exact congrArg (List.foldl step · _) hx.symm
    | cons c more =>
      rw [List.filter_cons_of_pos (by simp), List.flatMap_cons, List.foldl_append, ih]
      rw [List.foldl_append]
      exact htwice _

/-- A reading to which white space means the same in any amount does not notice when a text is squeezed. -/
theorem foldl_collapse {x : σ} (hx : step x ' ' = x) (cs : List Char) :
    (Text.collapse cs ++ [' ']).foldl step x = (cs ++ [' ']).foldl step x := by
  have hjoin (piece : List Char) (more : List (List Char)) :
      Text.join [' '] (piece :: more) ++ [' '] = (piece :: more).flatMap (· ++ [' ']) := by
    induction more generalizing piece with
    | nil => simp [Text.join]
    | cons next more ih =>
      rw [Text.join, List.append_assoc, ih]
      · simp
      · exact List.cons_ne_nil next more
  rw [← foldl_splitAt hspace x cs, ← foldl_nonempty htwice hx]
  unfold Text.collapse Text.words
  cases (Text.splitAt Text.isSpace cs).filter (!·.isEmpty) with
  | nil => exact hx
  | cons piece more => rw [hjoin]

end Folds

end MemberOrder

namespace MemberOrder.Scanned

open Lexeme

/-! ## Reading plain characters and block comments -/

/-- Where reading stands: in the code, behind the slash that starts a comment, inside of a comment, or behind
a star there. -/
inductive Place where
  | code
  | slash
  | inside
  | star
  deriving DecidableEq

/-- Reads a character on; the code so far comes along. Nothing is left where a literal or a parenthesis
stands, or a slash that starts no block comment. -/
def readOn (p : Profile) : Option (Place × List Char) → Char → Option (Place × List Char)
  | none, _ => none
  | some (.code, code), c =>
    if c == '/' then some (.slash, code)
    else if (p.quotes ++ ['(', ')']).contains c then none
    else some (.code, code ++ pack [c])
  | some (.slash, code), c => if c == '*' then some (.inside, code) else none
  | some (.inside, code), c => some (if c == '*' then .star else .inside, code)
  | some (.star, code), c => some (if c == '/' then .code else if c == '*' then .star else .inside, code)

/-- A text of plain characters and closed block comments, with what is code of it. -/
def Noted (p : Profile) (cs code : List Char) : Prop :=
  ∀ before, cs.foldl (readOn p) (some (.code, before)) = some (.code, before ++ code)

variable {p : Profile} {t : Text} {i x d d' : Nat} {ls : List Lexeme} {code code' cs : List Char}

theorem foldl_readOn_none (cs : List Char) : cs.foldl (readOn p) none = none := by
  induction cs with
  | nil => rfl
  | cons c rest ih => exact ih

theorem readOn_plain {c : Char} (hc : Plain p c) :
    readOn p (some (.code, code)) c = some (.code, code ++ pack [c]) := by
  obtain ⟨hquote, hslash, hopen, hclose⟩ := hc
  have hno : (p.quotes ++ ['(', ')']).contains c = false := by
    simp [List.contains_eq_mem] at hquote ⊢
    exact ⟨hquote, hopen, hclose⟩
  simp only [readOn, beq_iff_eq, hslash, if_false, hno, Bool.false_eq_true]

theorem readOn_space (hspaces : ∀ c, Text.isSpace c = true → Plain p c) (s : Option (Place × List Char))
    {c : Char} (hc : Text.isSpace c = true) : readOn p s c = readOn p s ' ' := by
  have hpack : pack [c] = pack [' '] := by simp [pack, hc]; decide
  have hne : c ≠ '/' ∧ c ≠ '*' := by constructor <;> (rintro rfl; cases hc)
  rcases s with _ | ⟨_ | _ | _ | _, code⟩
  · rfl
  · rw [readOn_plain (hspaces c hc), readOn_plain (hspaces ' ' (by decide)), hpack]
  · simp [readOn, hne]
  · simp [readOn, hne]
  · simp [readOn, hne]

theorem readOn_space_twice (hspaces : ∀ c, Text.isSpace c = true → Plain p c) (s : Option (Place × List Char)) :
    readOn p (readOn p s ' ') ' ' = readOn p s ' ' := by
  have hpack : pack [' '] = [] := by decide
  rcases s with _ | ⟨_ | _ | _ | _, code⟩
  · rfl
  · simp only [readOn_plain (hspaces ' ' (by decide)), hpack, List.append_nil]
  · rfl
  · rfl
  · rfl

/-! ## Comments -/

/-- As long as a comment is not closed, only a star at the end counts. -/
theorem readOn_inside {y z : Nat} (hyz : y < z) (hz : z ≤ t.size)
    (hopen : ∀ k, y ≤ k → k + 1 < z → t.standsAt k ['*', '/'] = false) :
    (t.slice y z).foldl (readOn p) (some (.inside, code)) =
      some (if t.hasAt (z - 1) '*' then .star else .inside, code) := by
  obtain ⟨n, rfl⟩ := Nat.exists_eq_add_of_lt hyz
  induction n with
  | zero =>
    have hc : t[y]? = some t[y] := Array.getElem?_eq_getElem (by omega)
    rw [Nat.add_zero, Text.slice_one hc, Nat.add_sub_cancel, Text.hasAt, Text.testAt_of_getElem? hc]
    rfl
  | succ n ih =>
    obtain ⟨c, hc⟩ : ∃ c, t[y + n + 1]? = some c := ⟨t[y + n + 1], Array.getElem?_eq_getElem (by omega)⟩
    have hlast : ¬(t.hasAt (y + n) '*' = true ∧ c = '/') := by
      rintro ⟨hstar, rfl⟩
      have hstands := hopen (y + n) (Nat.le_add_right y n) (by omega)
      rw [Text.standsAt_two.mpr ⟨Text.hasAt_iff.mp hstar, hc⟩] at hstands
      cases hstands
    rw [← Text.slice_append t (show y ≤ y + n + 1 by omega) (show y + n + 1 ≤ y + (n + 1) + 1 by omega),
      List.foldl_append, ih (by omega) (by omega) fun k hk hlt => hopen k hk (by omega),
      show y + (n + 1) + 1 = y + n + 1 + 1 by omega, Text.slice_one hc, Nat.add_sub_cancel, Nat.add_sub_cancel,
      Text.hasAt, Text.hasAt, Text.testAt_of_getElem? hc]
    cases hstar : t.hasAt (y + n) '*' with
    | false => simp [readOn, Text.hasAt] at hstar ⊢; simp [hstar]
    | true => simp [readOn, Text.hasAt] at hstar hlast ⊢; simp [hstar, hlast]

/-- A block comment that is closed is read as a whole. -/
theorem readOn_block {close : Nat} (hopen : t.standsAt i ['/', '*'] = true)
    (hfind : t.find? ['*', '/'] (i + 2) = some close) :
    (t.slice i (close + 2)).foldl (readOn p) (some (.code, code)) = some (.code, code) := by
  obtain ⟨hle, hsize, hstands, hfirst⟩ := Text.find?_some hfind
  obtain ⟨hstar, hslash⟩ := Text.standsAt_two.mp hstands
  have hend := Text.lt_size_of_getElem? hslash
  rw [← Text.slice_append t (show i ≤ i + 2 by omega) (show i + 2 ≤ close + 2 by omega),
    show t.slice i (i + 2) = ['/', '*'] from Text.slice_of_standsAt hopen,
    ← Text.slice_append t (show i + 2 ≤ close + 1 by omega) (show close + 1 ≤ close + 2 by omega),
    Text.slice_one hslash, List.foldl_append, List.foldl_append]
  have hinside : (t.slice (i + 2) (close + 1)).foldl (readOn p) (some (.inside, code)) = some (.star, code) := by
    rw [readOn_inside (by omega) (by omega) fun k hk hlt => hfirst k hk (by omega), Nat.add_sub_cancel,
      if_pos (Text.hasAt_iff.mpr hstar)]
  exact congrArg (List.foldl (readOn p) · ['/']) hinside

/-- What starts with a slash and is read to its end starts with a comment that is closed in it. -/
theorem block_of_readOn (hx : x ≤ t.size) (hi : i < x) (hslash : t[i]? = some '/')
    (h : (t.slice i x).foldl (readOn p) (some (.code, code)) = some (.code, code')) :
    t.standsAt i ['/', '*'] = true ∧ ∃ close, t.find? ['*', '/'] (i + 2) = some close ∧ close + 2 ≤ x ∧
      (t.slice (close + 2) x).foldl (readOn p) (some (.code, code)) = some (.code, code') := by
  have hopen : t.standsAt i ['/', '*'] = true ∧ i + 2 ≤ x := by
    rw [← Text.slice_append t (Nat.le_succ i) hi, Text.slice_one hslash] at h
    rcases Nat.eq_or_lt_of_le (show i + 1 ≤ x from hi) with rfl | hmore
    · rw [Text.slice_self t (Nat.le_refl _)] at h
      cases h
    · have hnext : t[i + 1]? = some t[i + 1] := Array.getElem?_eq_getElem (by omega)
      rw [← Text.slice_append t (Nat.le_succ (i + 1)) hmore, Text.slice_one hnext] at h
      change List.foldl (readOn p) (if t[i + 1] == '*' then some (.inside, code) else none) _ = _ at h
      split at h
      · rename_i hstar
        exact ⟨Text.standsAt_two.mpr ⟨hslash, by rw [hnext, eq_of_beq hstar]⟩, hmore⟩
      · rw [foldl_readOn_none] at h
        cases h
  obtain ⟨hopen, hi2⟩ := hopen
  have htwo : t.slice i (i + 2) = ['/', '*'] := Text.slice_of_standsAt hopen
  -- if it were not closed in front of `x`, reading would end inside of it
  have hunclosed : ¬∀ k, i + 2 ≤ k → k + 1 < x → t.standsAt k ['*', '/'] = false := by
    intro hno
    rw [← Text.slice_append t (Nat.le_add_right i 2) hi2, htwo, List.foldl_append] at h
    change List.foldl (readOn p) (some (.inside, code)) _ = _ at h
    rcases Nat.eq_or_lt_of_le hi2 with rfl | hlt
    · rw [Text.slice_self t (Nat.le_refl _)] at h
      cases h
    · rw [readOn_inside hlt hx hno] at h
      split at h <;> cases h
  refine ⟨hopen, ?_⟩
  cases hfind : t.find? ['*', '/'] (i + 2) with
  | none => exact absurd (fun k hk hlt => Text.find?_none hfind k hk (by omega)) hunclosed
  | some close =>
    obtain ⟨hle, -, -, hfirst⟩ := Text.find?_some hfind
    have hclose : close + 2 ≤ x := Nat.le_of_not_lt fun hlt =>
      hunclosed fun k hk hkx => hfirst k hk (by omega)
    refine ⟨close, rfl, hclose, ?_⟩
    rwa [← Text.slice_append t (show i ≤ close + 2 by omega) hclose, List.foldl_append,
      readOn_block hopen hfind] at h

/-! ## What the lexer makes of it -/

section Lexing

variable (hslash : p.quotes.contains '/' = false)
include hslash

theorem lexemeAt_block {close : Nat} (hopen : t.standsAt i ['/', '*'] = true)
    (hfind : t.find? ['*', '/'] (i + 2) = some close) : lexemeAt p t d i = ⟨.blockComment, i, close + 2⟩ := by
  have hc : t[i]? = some '/' := (Text.standsAt_two.mp hopen).1
  simp only [lexemeAt, hc, hslash, hopen, Bool.false_eq_true, if_false, if_true, blockStop, hfind]

omit hslash in
theorem block_of_lexemeAt (hkind : (lexemeAt p t d i).kind = .blockComment)
    (hstop : (lexemeAt p t d i).stop < t.size) : t.standsAt i ['/', '*'] = true ∧ ∃ close,
      t.find? ['*', '/'] (i + 2) = some close ∧ lexemeAt p t d i = ⟨.blockComment, i, close + 2⟩ := by
  have hl : t.standsAt i ['/', '*'] = true ∧ lexemeAt p t d i = ⟨.blockComment, i, blockStop t i⟩ := by
    unfold lexemeAt at hkind ⊢
    split at hkind
    · cases hkind
    split at hkind
    · cases hkind
    split at hkind
    · rename_i hquote hopen
      exact ⟨hopen, by rw [if_neg hquote, if_pos hopen]⟩
    split at hkind <;> cases hkind
  refine ⟨hl.1, ?_⟩
  rw [hl.2] at hstop ⊢
  unfold blockStop at hstop ⊢
  cases hfind : t.find? ['*', '/'] (i + 2) with
  | none =>
    rw [hfind] at hstop
    exact absurd hstop (Nat.lt_irrefl _)
  | some close => exact ⟨close, rfl, rfl⟩

/-- What is read to its end, the lexer passes over. -/
theorem reads_of_readOn {i : Nat} {code : List Char} (hx : x ≤ t.size) (hix : i ≤ x)
    (h : (t.slice i x).foldl (readOn p) (some (.code, code)) = some (.code, code')) (d : Nat) :
    ∃ ls, Reads p t x d i d ls ∧ code' = code ++ pack (ls.flatMap (·.clean t)) := by
  rcases Nat.eq_or_lt_of_le hix with rfl | hlt
  · rw [Text.slice_self t (Nat.le_refl i)] at h
    cases h
    exact ⟨[], .stop, (List.append_nil _).symm⟩
  have hi : i < t.size := by omega
  have hc : t[i]? = some t[i] := Array.getElem?_eq_getElem hi
  by_cases hcomment : t[i] = '/'
  · obtain ⟨hopen, close, hfind, hclose, hrest⟩ := block_of_readOn hx hlt (by rw [hc, hcomment]) h
    have hle := (Text.find?_some hfind).1
    have hl := lexemeAt_block (d := d) hslash hopen hfind
    obtain ⟨ls, hls, rfl⟩ := reads_of_readOn hx hclose hrest d
    refine ⟨lexemeAt p t d i :: ls, .step hi (by rw [hl]; exact hls), ?_⟩
    have hblank : pack (Lexeme.clean t ⟨.blockComment, i, close + 2⟩) = [] :=
      pack_eq_nil fun c hc => space_of_mem_blank hc
    rw [hl, List.flatMap_cons, pack_append, hblank, List.nil_append]
  · rw [← Text.slice_append t (Nat.le_succ i) hlt, Text.slice_one hc, List.singleton_append, List.foldl_cons] at h
    have hplain : Plain p t[i] := by
      simp only [readOn, beq_iff_eq, hcomment, if_false] at h
      split at h
      · rw [foldl_readOn_none] at h
        cases h
      · rename_i hno
        simp [List.contains_eq_mem] at hno
        exact ⟨by simp [List.contains_eq_mem, hno.1], hcomment, hno.2⟩
    obtain ⟨hl, hdepth⟩ := lexemeAt_of_plain (d := d) hc hplain
    rw [readOn_plain hplain] at h
    obtain ⟨ls, hls, rfl⟩ := reads_of_readOn hx hlt h d
    refine ⟨lexemeAt p t d i :: ls, .step hi (by rw [hl, hdepth]; exact hls), ?_⟩
    have hclean : Lexeme.clean t ⟨.code, i, i + 1⟩ = [t[i]] := Text.slice_one hc
    rw [hl, List.flatMap_cons, pack_append, hclean, List.append_assoc]
termination_by x - i

omit hslash in
/-- What the lexer passes over, without literals and line comments and before the end of the text, is read to
its end. -/
theorem readOn_of_reads (h : Reads p t x d' i d ls)
    (hls : ∀ l ∈ ls, (l.kind = .code ∧ ∃ c, t[l.start]? = some c ∧ Plain p c) ∨
      l.kind = .blockComment ∧ l.stop < t.size) :
    (t.slice i x).foldl (readOn p) (some (.code, code)) =
      some (.code, code ++ pack (ls.flatMap (·.clean t))) := by
  induction h generalizing code with
  | stop =>
    rw [Text.slice_self t (Nat.le_refl _), List.flatMap_nil]
    exact congrArg (fun cs => some (Place.code, cs)) (List.append_nil code).symm
  | @step i d ls hi h ih =>
    rw [List.forall_mem_cons] at hls
    obtain ⟨hself, hls⟩ := hls
    obtain ⟨hstart, hpos, -⟩ := lexemeAt_bounds p t d hi
    have hle := h.le
    rw [List.flatMap_cons, pack_append, ← Text.slice_append t (Nat.le_of_lt hpos) hle, List.foldl_append]
    rcases hself with ⟨hkind, c, hc, hplain⟩ | ⟨hkind, hstop⟩
    · rw [hstart] at hc
      obtain ⟨hl, -⟩ := lexemeAt_of_plain (d := d) hc hplain
      have hclean : Lexeme.clean t ⟨.code, i, i + 1⟩ = [c] := Text.slice_one hc
      rw [hl] at ih ⊢
      rw [hclean, Text.slice_one hc, List.foldl_cons, List.foldl_nil, readOn_plain hplain, ih hls,
        List.append_assoc]
    · obtain ⟨hopen, close, hfind, hl⟩ := block_of_lexemeAt hkind hstop
      have hblank : pack (Lexeme.clean t ⟨.blockComment, i, close + 2⟩) = [] :=
        pack_eq_nil fun c hc => space_of_mem_blank hc
      rw [hl] at ih ⊢
      rw [hblank, List.nil_append, readOn_block hopen hfind, ih hls]

/-! ## Squeezing -/

/-- Nothing of a text of plain characters and block comments goes on into what follows. -/
theorem Noted.seam (h : Noted p cs code) (ds : List Char) : Seam p cs ds := by
  have hslice : Text.slice (cs ++ ds).toArray 0 cs.length = cs := by
    rw [Text.slice_eq_take_drop]
    simp
  obtain ⟨ls, hls, -⟩ := reads_of_readOn hslash (t := (cs ++ ds).toArray) (x := cs.length) (by simp)
    (Nat.zero_le _) (by rw [hslice]; exact h []) 0
  exact ⟨0, ls, hls, fun _ => rfl⟩

theorem Noted.packedCode_eq (h : Noted p cs code) : packedCode p cs = code := by
  have hslice : Text.slice cs.toArray 0 cs.length = cs := by
    rw [Text.slice_eq_take_drop]
    simp
  obtain ⟨ls, hls, hcode⟩ := reads_of_readOn hslash (t := cs.toArray) (x := cs.length) (by simp)
    (Nat.zero_le _) (by rw [hslice]; exact h []) 0
  rw [Reads.packedCode_eq hls]
  exact hcode.symm

end Lexing

/-- A text of plain characters and block comments is one when it is squeezed, with the same code. -/
theorem Noted.collapse (hspaces : ∀ c, Text.isSpace c = true → Plain p c) (h : Noted p cs code) :
    Noted p (Text.collapse cs) code := by
  intro before
  have hblank (out : List Char) : readOn p (some (.code, out)) ' ' = some (.code, out) := by
    rw [readOn_plain (hspaces ' ' (by decide)), show pack [' '] = [] by decide, List.append_nil]
  have hfold := foldl_collapse (fun s c => readOn_space hspaces s) (readOn_space_twice hspaces) (hblank before) cs
  rw [List.foldl_append, List.foldl_append, h before, List.foldl_cons, List.foldl_cons, List.foldl_nil, List.foldl_nil,
    hblank] at hfold
  -- only the code is left behind by white space in the code
  match hlast : (Text.collapse cs).foldl (readOn p) (some (.code, before)) with
  | none => rw [hlast] at hfold; cases hfold
  | some (.code, out) => rw [hlast, hblank] at hfold; exact hfold
  | some (.slash, out) | some (.inside, out) | some (.star, out) => rw [hlast] at hfold; cases hfold

theorem noted_of_reads (h : Reads p t x d' i d ls)
    (hls : ∀ l ∈ ls, (l.kind = .code ∧ ∃ c, t[l.start]? = some c ∧ Plain p c) ∨
      l.kind = .blockComment ∧ l.stop < t.size) :
    Noted p (t.slice i x) (pack (ls.flatMap (·.clean t))) :=
  fun _ => readOn_of_reads h hls

/-- No line comment ends among characters of one line in front of which code comes last. -/
theorem ne_lineComment {l : Lexeme} {j : Nat} (hl : l ∈ lexemes p t) (hstop : l.stop ≤ j) (hj : j < t.size)
    (hlast : (scan p t).masked.testAt (j - 1) Text.isSpace = false)
    (hline : ∀ y, l.start ≤ y → y < j → (scan p t).masked[y]? ≠ some '\n') : l.kind ≠ .lineComment := by
  intro hkind
  obtain ⟨-, d, heq⟩ := eq_lexemeAt_of_mem hl
  obtain ⟨-, hpos, -⟩ := (lexemes_tile p t).bounds hl
  have hend : l.stop = lineStop t l.start := by
    rw [heq] at hkind
    exact congrArg Lexeme.stop (heq.trans (lexemeAt_of_line hkind))
  have hcomment : isComment l = true := by simp [isComment, hkind]
  -- what comes last is behind the comment
  have hlt : l.stop < j := Nat.lt_of_le_of_ne hstop fun heq => by
    rw [masked_comment hl hcomment (by omega) (by omega)] at hlast
    cases hlast
  have hshown {y : Nat} {c : Char} (hy : t[y]? = some c) (hc : c = '\r' ∨ c = '\n') :=
    masked_break (p := p) hy hc
  rcases lineStop_end t l.start with hsize | hfeed | ⟨hreturn, hfeed⟩
  · omega
  · exact hline _ (by omega) (by omega) (hshown hfeed (.inr rfl))
  · have hmore : l.stop + 1 ≠ j := fun heq => by
      rw [← heq, Nat.add_sub_cancel, hend, Text.testAt_of_getElem? (hshown hreturn (.inl rfl))] at hlast
      cases hlast
    rcases hfeed with hsize | hfeed
    · omega
    · exact hline _ (by omega) (by omega) (hshown hfeed (.inr rfl))

/-- What is shown on one line from a stop on, without quotes, slashes and parentheses and with code at its
end, is made of plain characters and block comments. -/
theorem Stops.noted {test : Char → Bool} {j : Nat} (h : Stops p t i) (hij : i < j) (hj : j < t.size)
    (htest : ∀ d ∈ p.quotes ++ ['/', '(', ')'], test d = false)
    (hshown : ∀ x, i ≤ x → x < j → (scan p t).masked.testAt x test = true)
    (hline : ∀ x, i ≤ x → x < j → (scan p t).masked[x]? ≠ some '\n')
    (hlast : (scan p t).masked.testAt (j - 1) Text.isSpace = false) : ∃ code, Noted p (t.slice i j) code := by
  have hunquoted := unquoted_of_class (p := p) (fun q hq => htest q (List.mem_append_left _ hq)) hshown
  have hstops : Stops p t j :=
    (h.boundary.of_unquoted (Nat.le_of_lt hij) hunquoted).stops (Nat.le_of_lt hj) (y := j - 1) (Or.inr (by omega)) hlast
  obtain ⟨d, before, hbefore⟩ := h
  obtain ⟨d', all, hall⟩ := hstops
  obtain ⟨ls, rfl, hls⟩ := hbefore.rest hall (Nat.le_of_lt hij)
  refine ⟨_, noted_of_reads hls fun l hl => ?_⟩
  have hmem := hbefore.mem_lexemes hls l hl
  obtain ⟨h1, h2, h3⟩ := hls.bounds hl
  obtain ⟨c, hc, hctest⟩ := Text.testAt_iff.mp (hshown l.start h1 (by omega))
  cases hk : l.kind with
  | code =>
    rw [masked_code hmem hk (Nat.le_refl _) h2] at hc
    exact .inl ⟨rfl, c, hc, plain_of_class htest hctest⟩
  | blockComment => exact .inr ⟨rfl, by omega⟩
  | lineComment =>
    exact absurd hk (ne_lineComment hmem h3 hj hlast fun y hy hlt => hline y (by omega) hlt)
  | literal =>
    -- it would show its quote
    obtain ⟨q, hget, hquote, -⟩ := quote_of_literal hmem hk
    have hq : (scan p t).masked[l.start]? = some q := by
      rcases masked_literal hmem hk (Nat.le_refl _) h2 with ⟨-, h'⟩ | ⟨h', -⟩ | ⟨h', -⟩ | ⟨h', -⟩
      · exact h'.trans hget
      all_goals omega
    rw [hunquoted l.start h1 (by omega) q hq] at hquote
    cases hquote

end MemberOrder.Scanned
