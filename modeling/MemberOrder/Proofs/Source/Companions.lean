/-
  The companions of a text stand beside it, offset by offset.

  A comment records where it stands, what is written there and its lines. The text without comments has
  white space in their place and keeps the line breaks; the masked text also has fillers in the literals,
  but for their quotes and line breaks. So a character that is no quote, no white space and no filler is
  visible in the masked text exactly where it is written outside of comments and literals
  (`scan_aligned`).
-/
import MemberOrder.Proofs.Source.Lines
import MemberOrder.Proofs.Source.Literals
import MemberOrder.Proofs.Source.Regions

namespace MemberOrder

namespace Lexeme

/-- What stands in place of a character that is blanked: line breaks stay. -/
def blankOf (filler c : Char) : Char := if c = '\r' ∨ c = '\n' then c else filler

theorem blank_eq_map (filler : Char) (cs : List Char) : blank filler cs = cs.map (blankOf filler) := by
  refine List.map_congr_left fun c _ => ?_
  simp [blankOf]

/-- A masked literal has its quotes and fillers in between. -/
theorem getElem?_maskLiteral_cons (quote : Char) (inside : List Char) (k : Nat) :
    (maskLiteral (quote :: inside))[k]? =
      if k = 0 ∨ k = inside.length ∧ inside.getLast? = some quote then (quote :: inside)[k]?
      else (quote :: inside)[k]?.map (blankOf '_') := by
  cases k with
  | zero =>
    unfold maskLiteral
    simp only [true_or, if_true]
    split <;> rfl
  | succ k =>
    unfold maskLiteral
    simp only [Nat.add_one_ne_zero, false_or, List.getElem?_cons_succ]
    split
    · rename_i hlast
      rw [beq_iff_eq] at hlast
      have hne : inside ≠ [] := by
        rintro rfl
        cases hlast
      have hlength : (blank '_' inside.dropLast).length = inside.length - 1 := by
        rw [length_blank, List.length_dropLast]
      have hpos := List.length_pos_iff.mpr hne
      rw [List.cons_append, List.getElem?_cons_succ]
      rcases Nat.lt_trichotomy (k + 1) inside.length with hlt | heq | hgt
      · rw [List.getElem?_append_left (by omega), if_neg (by omega), blank_eq_map, List.getElem?_map,
          List.getElem?_dropLast, if_pos (by omega)]
      · rw [List.getElem?_append_right (by omega), hlength, if_pos ⟨heq, hlast⟩,
          show k - (inside.length - 1) = 0 by omega]
        rw [List.getLast?_eq_getElem?, show inside.length - 1 = k by omega] at hlast
        rw [hlast]
        rfl
      · rw [List.getElem?_eq_none (by simp; omega), if_neg (by omega), List.getElem?_eq_none (by omega)]
        rfl
    · rename_i hlast
      rw [if_neg fun h => hlast (beq_iff_eq.mpr h.2), List.getElem?_cons_succ, blank_eq_map, List.getElem?_map]

theorem clean_comment {l : Lexeme} (hk : Scanned.isComment l = true) (t : Text) :
    l.clean t = blank ' ' (t.slice l.start l.stop) := by
  rcases l with ⟨kind, start, stop⟩
  cases kind <;> simp_all [Scanned.isComment, Lexeme.clean]

theorem clean_of_not_comment {l : Lexeme} (hk : Scanned.isComment l = false) (t : Text) :
    l.clean t = t.slice l.start l.stop := by
  rcases l with ⟨kind, start, stop⟩
  cases kind <;> simp_all [Scanned.isComment, Lexeme.clean]

theorem masked_of_not_literal {l : Lexeme} (hk : l.kind ≠ .literal) (t : Text) :
    l.masked t = l.clean t := by
  rcases l with ⟨kind, start, stop⟩
  cases kind <;> simp_all [Lexeme.clean, Lexeme.masked]

end Lexeme

namespace Scanned

open Lexeme

variable {p : Profile} {t : Text}

/-- Whether an offset is inside of a lexeme. -/
def Inside (start stop x : Nat) : Prop := start ≤ x ∧ x < stop

/-- The literals of a text. -/
def literals (p : Profile) (t : Text) : List Lexeme := (lexemes p t).filter (·.kind == .literal)

theorem mem_literals {l : Lexeme} : l ∈ literals p t ↔ l ∈ lexemes p t ∧ l.kind = .literal := by
  rw [literals, List.mem_filter, beq_iff_eq]

/-! ## The record of a comment -/

/-- Where a comment stands, what is written there and on which lines. -/
structure Recorded (t : Text) (c : Comment) : Prop where
  nonempty : c.offset < c.stop
  inside : c.stop ≤ t.size
  raw : c.raw = t.cut c.offset c.stop
  line : c.line = (t.toList.take c.offset).count '\n' + 1
  endLine : c.endLine = (t.toList.take (c.stop - 1)).count '\n' + 1

theorem recorded_of_scan {c : Comment} (h : c ∈ (scan p t).comments) : Recorded t c := by
  obtain ⟨hpos, hsize⟩ := comment_bounds h
  obtain ⟨l, -, hc⟩ := List.mem_filterMap.mp h
  have hmax : max c.offset (c.stop - 1) = c.stop - 1 := by omega
  have hmake : c.raw = t.cut c.offset c.stop ∧ c.line = (Lines.ofText t).lineAt c.offset ∧
      c.endLine = (Lines.ofText t).lineAt (max c.offset (c.stop - 1)) := by
    rcases l with ⟨kind, start, stop⟩
    cases kind <;> simp only [comment?, Option.some.injEq, reduceCtorEq] at hc
    all_goals
      subst hc
      exact ⟨rfl, rfl, rfl⟩
  obtain ⟨hraw, hline, hend⟩ := hmake
  rw [hmax] at hend
  exact ⟨hpos, hsize, hraw, hline.trans (Lines.lineAt_eq_count t _), hend.trans (Lines.lineAt_eq_count t _)⟩

/-- A comment lexeme is recorded. -/
theorem exists_comment {l : Lexeme} (hl : l ∈ lexemes p t) (hk : isComment l = true) :
    ∃ c ∈ (scan p t).comments, c.offset = l.start ∧ c.stop = l.stop := by
  cases hc : l.comment? t (Lines.ofText t) with
  | none =>
    rcases l with ⟨kind, start, stop⟩
    cases kind <;> simp_all [isComment, comment?]
  | some c =>
    obtain ⟨hstart, hstop, -⟩ := comment?_some hc
    exact ⟨c, List.mem_filterMap.mpr ⟨l, hl, hc⟩, hstart, hstop⟩

/-! ## Offset by offset -/

theorem getElem?_clean_of_size_le {x : Nat} (h : t.size ≤ x) : (scan p t).clean[x]? = t[x]? := by
  rw [Array.getElem?_eq_none (by rw [size_clean]; exact h), Array.getElem?_eq_none h]

theorem getElem?_clean_outside {x : Nat}
    (h : ∀ c ∈ (scan p t).comments, ¬Inside c.offset c.stop x) : (scan p t).clean[x]? = t[x]? := by
  rcases Nat.lt_or_ge x t.size with hx | hx
  · obtain ⟨l, hl, h1, h2⟩ := (lexemes_tile p t).covers (Nat.zero_le x) hx
    have hk : isComment l = false := Bool.eq_false_iff.mpr fun hk => by
      obtain ⟨c, hc, hstart, hstop⟩ := exists_comment hl hk
      exact h c hc ⟨by omega, by omega⟩
    rw [getElem?_clean hl h1 h2, clean_of_not_comment hk, getElem?_slice_of_lexeme h1 h2]
  · exact getElem?_clean_of_size_le hx

theorem getElem?_clean_comment {c : Comment} (hc : c ∈ (scan p t).comments) {x : Nat}
    (hx : Inside c.offset c.stop x) : (scan p t).clean[x]? = t[x]?.map (blankOf ' ') := by
  obtain ⟨l, hl, hk, hstart, hstop⟩ := comment_of_scan hc
  rw [Inside, hstart, hstop] at hx
  rw [getElem?_clean hl hx.1 hx.2, clean_comment hk, blank_eq_map, List.getElem?_map,
    getElem?_slice_of_lexeme hx.1 hx.2]

theorem getElem?_masked_outside {x : Nat} (h : ∀ l ∈ literals p t, ¬Inside l.start l.stop x) :
    (scan p t).masked[x]? = (scan p t).clean[x]? := by
  rcases Nat.lt_or_ge x t.size with hx | hx
  · obtain ⟨l, hl, h1, h2⟩ := (lexemes_tile p t).covers (Nat.zero_le x) hx
    have hk : l.kind ≠ .literal := fun hk => h l (mem_literals.mpr ⟨hl, hk⟩) ⟨h1, h2⟩
    rw [getElem?_clean hl h1 h2, getElem?_masked hl h1 h2, masked_of_not_literal hk]
  · rw [Array.getElem?_eq_none (by rw [size_masked]; exact hx),
      Array.getElem?_eq_none (by rw [size_clean]; exact hx)]

/-- The end of a literal that is visible: its opening quote, and a last character equal to it. -/
def Quoting (t : Text) (l : Lexeme) (x : Nat) : Prop :=
  x = l.start ∨ x + 1 = l.stop ∧ t[x]? = t[l.start]?

theorem getElem?_masked_literal {l : Lexeme} (hl : l ∈ literals p t) {x : Nat}
    (hx : Inside l.start l.stop x) :
    (Quoting t l x → (scan p t).masked[x]? = t[x]?) ∧
    (¬Quoting t l x → (scan p t).masked[x]? = t[x]?.map (blankOf '_')) := by
  obtain ⟨hl, hk⟩ := mem_literals.mp hl
  obtain ⟨hstart, hstop⟩ := hx
  obtain ⟨-, hlen, hsize⟩ := (lexemes_tile p t).bounds hl
  have hlength := Text.length_slice t (a := l.start) hsize
  have hget (y : Nat) (h1 : l.start ≤ y) (h2 : y < l.stop) :
      (t.slice l.start l.stop)[y - l.start]? = t[y]? := getElem?_slice_of_lexeme h1 h2
  have hshare : l.masked t = maskLiteral (t.slice l.start l.stop) := by simp only [Lexeme.masked, hk]
  rw [getElem?_masked hl hstart hstop, hshare]
  obtain ⟨quote, inside, hcs⟩ : ∃ quote inside, t.slice l.start l.stop = quote :: inside :=
    List.exists_cons_of_ne_nil (List.length_pos_iff.mp (by omega))
  have hfirst : t[l.start]? = some quote := by
    rw [← hget l.start (Nat.le_refl _) hlen, hcs, Nat.sub_self]
    rfl
  rw [hcs, List.length_cons] at hlength
  -- the last character of the literal
  have hlast (hlong : l.start + 1 < l.stop) : inside.getLast? = t[l.stop - 1]? := by
    rw [← hget (l.stop - 1) (by omega) (by omega), hcs, List.getLast?_eq_getElem?,
      show l.stop - 1 - l.start = inside.length - 1 + 1 by omega, List.getElem?_cons_succ]
  have hquoting : Quoting t l x ↔
      x - l.start = 0 ∨ x - l.start = inside.length ∧ inside.getLast? = some quote := by
    rw [Quoting, hfirst]
    constructor
    · rintro (rfl | ⟨hend, hchar⟩)
      · exact .inl (Nat.sub_self _)
      · rcases Nat.eq_or_lt_of_le hstart with rfl | hlt
        · exact .inl (Nat.sub_self _)
        · refine .inr ⟨by omega, ?_⟩
          rw [hlast (by omega), ← hend, Nat.add_sub_cancel, hchar]
    · rintro (hzero | ⟨hend, hchar⟩)
      · exact .inl (by omega)
      · rcases Nat.eq_or_lt_of_le hstart with rfl | hlt
        · exact .inl rfl
        · refine .inr ⟨by omega, ?_⟩
          rw [hlast (by omega)] at hchar
          rw [← hchar]
          congr 1
          omega
  rw [← hget x hstart hstop, hcs, getElem?_maskLiteral_cons, hquoting]
  exact ⟨fun h => if_pos h, fun h => if_neg h⟩

/-- A literal starts with a quote, ends where that quote says and has no part in a comment. -/
structure Delimited (p : Profile) (t : Text) (comments : List Comment) (l : Lexeme) : Prop where
  quoted : ∃ q ∈ p.quotes, t[l.start]? = some q ∧
    l.stop = literalStop p t q (t.size - l.start) (l.start + 1)
  apart : ∀ c ∈ comments, ∀ x, Inside l.start l.stop x → ¬Inside c.offset c.stop x

theorem delimited_of_literal {l : Lexeme} (hl : l ∈ literals p t) :
    Delimited p t (scan p t).comments l := by
  obtain ⟨hl, hk⟩ := mem_literals.mp hl
  constructor
  · obtain ⟨q, hq, hquote, hstop⟩ := quote_of_literal hl hk
    exact ⟨q, List.contains_iff_mem.mp hquote, hq, hstop⟩
  · intro c hc x hx hxc
    obtain ⟨m, hm, hmk, hstart, hstop⟩ := comment_of_scan hc
    rw [Inside, hstart, hstop] at hxc
    rw [← (lexemes_tile p t).unique hl hm hx hxc] at hmk
    simp [isComment, hk] at hmk

/-- Every quote is in a literal or a comment. -/
theorem inside_of_quote {x : Nat} {q : Char} (hq : q ∈ p.quotes) (hx : t[x]? = some q) :
    (∃ c ∈ (scan p t).comments, Inside c.offset c.stop x) ∨ ∃ l ∈ literals p t, Inside l.start l.stop x := by
  obtain ⟨l, hl, h1, h2⟩ := (lexemes_tile p t).covers (Nat.zero_le x) (Text.lt_size_of_getElem? hx)
  cases hcomment : isComment l with
  | true =>
    obtain ⟨c, hc, hstart, hstop⟩ := exists_comment hl hcomment
    exact .inl ⟨c, hc, by omega, by omega⟩
  | false =>
    refine .inr ⟨l, mem_literals.mpr ⟨hl, ?_⟩, h1, h2⟩
    cases hk : l.kind with
    | literal => rfl
    | lineComment | blockComment => simp [isComment, hk] at hcomment
    | code =>
      obtain ⟨hone, hquote⟩ := code_of_lexeme hl hk
      obtain rfl : x = l.start := by omega
      have hcode := hquote q hx
      rw [List.contains_iff_mem.mpr hq] at hcode
      cases hcode

/-- A character that neither quotes nor takes the place of another one is visible in the masked text exactly
where it is written outside of comments and literals. -/
theorem getElem?_masked_iff {x : Nat} {b : Char} (hquote : b ∉ p.quotes)
    (hfiller : b ∉ ['_', ' ', '\r', '\n']) : (scan p t).masked[x]? = some b ↔ t[x]? = some b ∧
      (∀ c ∈ (scan p t).comments, ¬Inside c.offset c.stop x) ∧
      ∀ l ∈ literals p t, ¬Inside l.start l.stop x := by
  have hblank (filler : Char) (hf : filler ∈ ['_', ' ']) : t[x]?.map (blankOf filler) ≠ some b := by
    intro h
    obtain ⟨d, -, hd⟩ := Option.map_eq_some_iff.mp h
    simp only [List.mem_cons, List.not_mem_nil, or_false, not_or] at hfiller hf
    unfold blankOf at hd
    split at hd
    · rename_i hbreak
      rcases hbreak with rfl | rfl
      · exact hfiller.2.2.1 hd.symm
      · exact hfiller.2.2.2 hd.symm
    · rcases hf with rfl | rfl
      · exact hfiller.1 hd.symm
      · exact hfiller.2.1 hd.symm
  constructor
  · intro h
    have hliteral : ∀ l ∈ literals p t, ¬Inside l.start l.stop x := by
      intro l hl hx
      obtain ⟨hquoting, hinside⟩ := getElem?_masked_literal hl hx
      by_cases hq : Quoting t l x
      · obtain ⟨q, hqp, hqt, -⟩ := (delimited_of_literal hl).quoted
        rw [hquoting hq] at h
        have hsame : t[x]? = t[l.start]? := by
          rcases hq with rfl | ⟨-, hq⟩
          · rfl
          · exact hq
        rw [h, hqt, Option.some.injEq] at hsame
        exact hquote (hsame ▸ hqp)
      · rw [hinside hq] at h
        exact hblank '_' (by simp) h
    rw [getElem?_masked_outside hliteral] at h
    have hcomment : ∀ c ∈ (scan p t).comments, ¬Inside c.offset c.stop x := by
      intro c hc hx
      rw [getElem?_clean_comment hc hx] at h
      exact hblank ' ' (by simp) h
    exact ⟨by rwa [getElem?_clean_outside hcomment] at h, hcomment, hliteral⟩
  · rintro ⟨h, hcomment, hliteral⟩
    rw [getElem?_masked_outside hliteral, getElem?_clean_outside hcomment, h]

/-- How the comments and the companions of a text stand beside it. -/
structure Aligned (p : Profile) (t : Text) (s : Scanned) : Prop where
  recorded : ∀ c ∈ s.comments, Recorded t c
  ordered : s.comments.Pairwise fun a b => a.stop ≤ b.offset
  size_clean : s.clean.size = t.size
  size_masked : s.masked.size = t.size
  clean_outside : ∀ x, (∀ c ∈ s.comments, ¬Inside c.offset c.stop x) → s.clean[x]? = t[x]?
  clean_inside : ∀ c ∈ s.comments, ∀ x, Inside c.offset c.stop x → s.clean[x]? = t[x]?.map (blankOf ' ')
  delimited : ∀ l ∈ literals p t, Delimited p t s.comments l
  quotes : ∀ x, ∀ q ∈ p.quotes, t[x]? = some q →
    (∃ c ∈ s.comments, Inside c.offset c.stop x) ∨ ∃ l ∈ literals p t, Inside l.start l.stop x
  masked_outside : ∀ x, (∀ l ∈ literals p t, ¬Inside l.start l.stop x) → s.masked[x]? = s.clean[x]?
  masked_quotes : ∀ l ∈ literals p t, ∀ x, Inside l.start l.stop x → Quoting t l x → s.masked[x]? = t[x]?
  masked_inside : ∀ l ∈ literals p t, ∀ x, Inside l.start l.stop x → ¬Quoting t l x →
    s.masked[x]? = t[x]?.map (blankOf '_')
  visible : ∀ x b, b ∉ p.quotes → b ∉ ['_', ' ', '\r', '\n'] → (s.masked[x]? = some b ↔ t[x]? = some b ∧
    (∀ c ∈ s.comments, ¬Inside c.offset c.stop x) ∧ ∀ l ∈ literals p t, ¬Inside l.start l.stop x)

/-- Scanning keeps every offset, in every text and for every profile. -/
theorem scan_aligned (p : Profile) (t : Text) : Aligned p t (scan p t) where
  recorded _ hc := recorded_of_scan hc
  ordered := comments_ordered p t
  size_clean := Scanned.size_clean p t
  size_masked := Scanned.size_masked p t
  clean_outside _ h := getElem?_clean_outside h
  clean_inside _ hc _ hx := getElem?_clean_comment hc hx
  delimited _ hl := delimited_of_literal hl
  quotes _ _ hq hx := inside_of_quote hq hx
  masked_outside _ h := getElem?_masked_outside h
  masked_quotes _ hl _ hx := (getElem?_masked_literal hl hx).1
  masked_inside _ hl _ hx := (getElem?_masked_literal hl hx).2
  visible _ _ hquote hfiller := getElem?_masked_iff hquote hfiller

end Scanned

end MemberOrder
