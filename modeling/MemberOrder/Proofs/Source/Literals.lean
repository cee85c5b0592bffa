/-
  Literals in the masked text.

  An offset is a `Boundary` when no literal starts before it and ends after it. Reading on from a
  boundary over white space leads to a boundary (`Boundary.nextCode`), and so does any code
  (`boundary_of_code`). A quote at a boundary opens a literal (`literal_of_quote`), and its literal
  either ends with the same quote or is cut off by a line feed or the end of the text
  (`literal_end`).
-/
import MemberOrder.Proofs.Source.Tiling

namespace MemberOrder.Scanned

open Lexeme

variable {p : Profile} {t : Text}

/-- No literal starts before the offset and ends after it. -/
def Boundary (p : Profile) (t : Text) (x : Nat) : Prop :=
  ∀ l ∈ lexemes p t, l.kind = .literal → ¬(l.start < x ∧ x < l.stop)

theorem boundary_zero (p : Profile) (t : Text) : Boundary p t 0 :=
  fun _ _ _ h => absurd h.1 (Nat.not_lt_zero _)

/-- A literal starts with one of the quotes. -/
theorem quote_of_literal {l : Lexeme} (hl : l ∈ lexemes p t) (hk : l.kind = .literal) :
    ∃ q, t[l.start]? = some q ∧ p.quotes.contains q = true ∧
      l.stop = literalStop p t q (t.size - l.start) (l.start + 1) := by
  obtain ⟨-, depth, heq⟩ := eq_lexemeAt_of_mem hl
  unfold lexemeAt at heq
  split at heq
  · rw [heq] at hk
    cases hk
  · rename_i q hq
    split at heq
    · rename_i hquote
      exact ⟨q, hq, hquote, congrArg Lexeme.stop heq⟩
    · split at heq
      · rw [heq] at hk
        cases hk
      · split at heq
        · rw [heq] at hk
          cases hk
        · rw [heq] at hk
          cases hk

/-- A code lexeme is one character, and no quote. -/
theorem code_of_lexeme {l : Lexeme} (hl : l ∈ lexemes p t) (hk : l.kind = .code) :
    l.stop = l.start + 1 ∧ ∀ c, t[l.start]? = some c → p.quotes.contains c = false := by
  obtain ⟨-, depth, heq⟩ := eq_lexemeAt_of_mem hl
  unfold lexemeAt at heq
  split at heq
  · rename_i hnone
    exact ⟨congrArg Lexeme.stop heq, fun c hc => by rw [hnone] at hc; cases hc⟩
  · rename_i q hq
    split at heq
    · rw [heq] at hk
      cases hk
    · rename_i hquote
      split at heq
      · rw [heq] at hk
        cases hk
      · split at heq
        · rw [heq] at hk
          cases hk
        · refine ⟨congrArg Lexeme.stop heq, fun c hc => ?_⟩
          rw [hq, Option.some.injEq] at hc
          rw [← hc]
          exact Bool.eq_false_iff.mpr hquote

/-- A character of the masked text that is neither white space, filler nor quote is code. -/
theorem lexeme_of_code {x : Nat} {c : Char} (h : (scan p t).masked[x]? = some c)
    (hspace : Text.isSpace c = false) (hfiller : c ≠ '_') (hquote : p.quotes.contains c = false) :
    ∃ l ∈ lexemes p t, l.kind = .code ∧ l.start = x := by
  have hsource := source_of_masked h hspace hfiller
  have hx : x < t.size := (Array.getElem?_eq_some_iff.mp hsource).1
  obtain ⟨l, hl, h1, h2⟩ := (lexemes_tile p t).covers (Nat.zero_le x) hx
  cases hk : l.kind with
  | code =>
    have := (code_of_lexeme hl hk).1
    exact ⟨l, hl, hk, by omega⟩
  | literal =>
    exfalso
    obtain ⟨q, hq, hquotes, -⟩ := quote_of_literal hl hk
    have hne : t[x]? ≠ t[l.start]? := by
      rw [hsource, hq, Ne, Option.some.injEq]
      rintro rfl
      rw [hquotes] at hquote
      cases hquote
    rcases masked_literal hl hk h1 h2 with ⟨rfl, -⟩ | ⟨-, -, h', -⟩ | ⟨-, h'⟩ | ⟨-, -, h'⟩
    · exact hne rfl
    · exact hne h'
    · rw [h, Option.some.injEq] at h'
      exact hfiller h'
    · rw [hsource] at h'
      rcases h' with h' | h' <;> (cases h'; revert hspace; decide)
  | lineComment | blockComment =>
    have := masked_comment hl (by simp [isComment, hk]) h1 h2
    rw [Text.testAt_of_getElem? h, hspace] at this
    cases this

/-- The place after code is a boundary. -/
theorem boundary_of_code {x : Nat} {c : Char} (h : (scan p t).masked[x]? = some c)
    (hspace : Text.isSpace c = false) (hfiller : c ≠ '_') (hquote : p.quotes.contains c = false) :
    Boundary p t (x + 1) := by
  obtain ⟨l, hl, hk, rfl⟩ := lexeme_of_code h hspace hfiller hquote
  have hstop := (code_of_lexeme hl hk).1
  rintro m hm hkm ⟨h1, h2⟩
  have := (lexemes_tile p t).unique hl hm (x := l.start) ⟨Nat.le_refl _, by omega⟩ ⟨by omega, by omega⟩
  rw [this, hkm] at hk
  cases hk

/-- The place after white space at a boundary is a boundary. -/
theorem Boundary.succ_of_space (hq : ∀ q, p.quotes.contains q = true → Text.isSpace q = false)
    {x : Nat} (hb : Boundary p t x) (h : (scan p t).masked.testAt x Text.isSpace = true) :
    Boundary p t (x + 1) := by
  rintro l hl hk ⟨h1, h2⟩
  have heq : x = l.start := by
    have := hb l hl hk
    omega
  obtain ⟨q, hget, hquote, -⟩ := quote_of_literal hl hk
  rcases masked_literal hl hk (x := x) (by omega) (by omega) with ⟨-, h'⟩ | ⟨h', -⟩ | ⟨h', -⟩ | ⟨h', -⟩
  · rw [heq, hget, ← heq] at h'
    rw [Text.testAt_of_getElem? h', hq q hquote] at h
    cases h
  all_goals omega

theorem Boundary.nextCode (hq : ∀ q, p.quotes.contains q = true → Text.isSpace q = false) {x : Nat}
    (hb : Boundary p t x) (limit : Nat) : Boundary p t ((scan p t).nextCode x limit) := by
  have hspaces : ∀ n, x + n ≤ (scan p t).nextCode x limit → Boundary p t (x + n) := by
    intro n
    induction n with
    | zero => exact fun _ => hb
    | succ n ih =>
      intro hle
      exact (ih (by omega)).succ_of_space hq (Text.space_before_nextCode (by omega) hle)
  have hle : x ≤ (scan p t).nextCode x limit := Text.le_nextCode _ _ _
  have := hspaces ((scan p t).nextCode x limit - x)
  rw [Nat.add_sub_cancel' hle] at this
  exact this (Nat.le_refl _)

/-- A quote at a boundary opens a literal. -/
theorem literal_of_quote {x : Nat} {q : Char} (hb : Boundary p t x)
    (h : (scan p t).masked[x]? = some q) (hspace : Text.isSpace q = false) (hfiller : q ≠ '_')
    (hquote : p.quotes.contains q = true) :
    ∃ l ∈ lexemes p t, l.kind = .literal ∧ l.start = x := by
  have hsource := source_of_masked h hspace hfiller
  have hx : x < t.size := (Array.getElem?_eq_some_iff.mp hsource).1
  obtain ⟨l, hl, h1, h2⟩ := (lexemes_tile p t).covers (Nat.zero_le x) hx
  cases hk : l.kind with
  | code =>
    obtain ⟨hstop, hno⟩ := code_of_lexeme hl hk
    obtain rfl : l.start = x := by omega
    rw [hno q hsource] at hquote
    cases hquote
  | literal =>
    have := hb l hl hk
    exact ⟨l, hl, hk, by omega⟩
  | lineComment | blockComment =>
    have := masked_comment hl (by simp [isComment, hk]) h1 h2
    rw [Text.testAt_of_getElem? h, hspace] at this
    cases this

/-! ## Where literals end -/

theorem literalStop_end (p : Profile) (t : Text) (q : Char) (fuel : Nat) {i : Nat}
    (hfuel : t.size ≤ i + fuel) :
    literalStop p t q fuel i = t.size ∨ t[literalStop p t q fuel i]? = some '\n' ∨
      i < literalStop p t q fuel i ∧ t[literalStop p t q fuel i - 1]? = some q := by
  induction fuel generalizing i with
  | zero => exact Or.inl rfl
  | succ fuel ih =>
    simp only [literalStop]
    split
    · exact Or.inl rfl
    · rename_i c hc
      split
      · rcases ih (i := i + 2) (by omega) with h | h | ⟨h1, h2⟩
        · exact Or.inl h
        · exact Or.inr (Or.inl h)
        · exact Or.inr (Or.inr ⟨by omega, h2⟩)
      · split
        · rename_i hquote
          rw [beq_iff_eq] at hquote
          exact Or.inr (Or.inr ⟨by omega, by rw [Nat.add_sub_cancel, hc, hquote]⟩)
        · split
          · rename_i hbreak
            rw [Bool.and_eq_true, beq_iff_eq] at hbreak
            exact Or.inr (Or.inl (by rw [hc, hbreak.1]))
          · rcases ih (i := i + 1) (by omega) with h | h | ⟨h1, h2⟩
            · exact Or.inl h
            · exact Or.inr (Or.inl h)
            · exact Or.inr (Or.inr ⟨by omega, h2⟩)

/-- A literal that ends with its quote shows it in the masked text. -/
theorem masked_literal_close {l : Lexeme} (hl : l ∈ lexemes p t) (hk : l.kind = .literal)
    (hlong : l.start + 1 < l.stop) (h : t[l.stop - 1]? = t[l.start]?) :
    (scan p t).masked[l.stop - 1]? = t[l.start]? := by
  have hsize := ((lexemes_tile p t).bounds hl).2.2
  rw [getElem?_masked hl (by omega) (by omega)]
  simp only [Lexeme.masked, hk]
  have hlength := Text.length_slice t (a := l.start) hsize
  have hfirst := getElem?_slice_of_lexeme (t := t) (Nat.le_refl l.start) (by omega : l.start < l.stop)
  have hlast := getElem?_slice_of_lexeme (t := t) (x := l.stop - 1) (by omega : l.start ≤ l.stop - 1)
    (by omega)
  rw [Nat.sub_self] at hfirst
  generalize t.slice l.start l.stop = cs at hlength hfirst hlast ⊢
  cases cs with
  | nil => simp at hlength; omega
  | cons q inside =>
    rw [List.length_cons] at hlength
    rw [show l.stop - 1 - l.start = inside.length - 1 + 1 by omega] at hlast ⊢
    rw [List.getElem?_cons_succ, h, ← hfirst, List.getElem?_cons_zero] at hlast
    rw [← hfirst, List.getElem?_cons_zero]
    unfold maskLiteral
    dsimp only
    rw [if_pos (by rw [List.getLast?_eq_getElem?, hlast, beq_self_eq_true]), List.cons_append,
      List.getElem?_cons_succ, List.getElem?_append_right (by simp [length_blank])]
    simp [length_blank]

/-- A literal ends with its quote, or is cut off by a line feed or the end of the text. -/
theorem literal_end {l : Lexeme} (hl : l ∈ lexemes p t) (hk : l.kind = .literal) :
    l.stop = t.size ∨ t[l.stop]? = some '\n' ∨
      l.start + 1 < l.stop ∧ (scan p t).masked[l.stop - 1]? = t[l.start]? := by
  obtain ⟨q, hq, -, hstop⟩ := quote_of_literal hl hk
  have := ((lexemes_tile p t).bounds hl).2
  rcases literalStop_end p t q (t.size - l.start) (i := l.start + 1) (by omega) with
    h | h | ⟨h1, h2⟩
  · exact Or.inl (hstop.trans h)
  · exact Or.inr (Or.inl (by rw [hstop, h]))
  · rw [← hstop] at h1 h2
    exact Or.inr (Or.inr ⟨h1, masked_literal_close hl hk h1 (by rw [h2, hq])⟩)

/-- A comment covers an offset. -/
def InComment (comments : List Comment) (x : Nat) : Prop := ∃ k ∈ comments, k.offset ≤ x ∧ x < k.stop

/-- Before a comment on its line the masked text is the source, but for other comments, where outside
of these there are no quotes: a literal would end with its quote before the comment. -/
theorem masked_before_comment {a x : Nat} {c : Comment} (hc : c ∈ (scan p t).comments)
    (hline : ∀ y, a ≤ y → y < c.offset → t[y]? ≠ some '\n')
    (hquotes : ∀ y d, a ≤ y → y < c.offset → t[y]? = some d →
      InComment (scan p t).comments y ∨ p.quotes.contains d = false) (hx : a ≤ x) (hlt : x < c.offset) :
    InComment (scan p t).comments x ∨ (scan p t).masked[x]? = t[x]? := by
  obtain ⟨m, hm, hmk, hmstart, -⟩ := comment_of_scan hc
  have hcb := comment_bounds hc
  obtain ⟨l, hl, h1, h2⟩ := (lexemes_tile p t).covers (Nat.zero_le x) (by omega : x < t.size)
  cases hk : l.kind with
  | code => exact Or.inr (masked_code hl hk h1 h2)
  | lineComment | blockComment =>
    exact Or.inl ⟨_, List.mem_filterMap.mpr ⟨l, hl, by simp only [comment?, hk]; rfl⟩, h1, h2⟩
  | literal =>
    exfalso
    have hnot : ∀ k ∈ (scan p t).comments, ∀ y, l.start ≤ y → y < l.stop →
        ¬(k.offset ≤ y ∧ y < k.stop) := by
      rintro k hk' y hy1 hy2 ⟨hy3, hy4⟩
      obtain ⟨n, hn, hnk, hn1, hn2⟩ := comment_of_scan hk'
      have heq := (lexemes_tile p t).unique hl hn (x := y) ⟨hy1, hy2⟩ ⟨by omega, by omega⟩
      rw [← heq] at hnk
      simp [isComment, hk] at hnk
    have hstop : l.stop ≤ c.offset := by
      refine Nat.le_of_not_lt fun hin => ?_
      exact hnot c hc c.offset (by omega) hin ⟨Nat.le_refl _, hcb.1⟩
    obtain ⟨q, hq, hquote, hlstop⟩ := quote_of_literal hl hk
    have hbounds := (lexemes_tile p t).bounds hl
    rcases literalStop_end p t q (t.size - l.start) (i := l.start + 1) (by omega) with h | h | ⟨h3, h4⟩
    · omega
    · rw [← hlstop] at h
      rcases Nat.eq_or_lt_of_le hstop with heq | hlt'
      · rw [heq, slash_of_comment hc] at h
        exact absurd h (by decide)
      · exact hline l.stop (by omega) hlt' h
    · rw [← hlstop] at h3 h4
      rcases hquotes (l.stop - 1) q (by omega) (by omega) h4 with ⟨k, hk', hin⟩ | hno
      · exact hnot k hk' (l.stop - 1) (by omega) (by omega) hin
      · rw [hquote] at hno
        cases hno

/-- A line feed right after a literal stays in the masked text. -/
theorem masked_break_after {l : Lexeme} (hl : l ∈ lexemes p t)
    (hq : p.quotes.contains '\n' = false) (h : t[l.stop]? = some '\n') :
    (scan p t).masked[l.stop]? = some '\n' := by
  have hx : l.stop < t.size := (Array.getElem?_eq_some_iff.mp h).1
  obtain ⟨m, hm, h1, h2⟩ := (lexemes_tile p t).covers (Nat.zero_le _) hx
  have hb := (lexemes_tile p t).bounds hl
  cases hk : m.kind with
  | code => rw [masked_code hm hk h1 h2, h]
  | literal =>
    -- it would start at the line feed, or share an offset with the first one
    exfalso
    by_cases hstart : m.start = l.stop
    · obtain ⟨q, hget, hquote, -⟩ := quote_of_literal hm hk
      rw [hstart, h, Option.some.injEq] at hget
      rw [← hget, hq] at hquote
      cases hquote
    · have := (lexemes_tile p t).unique hm hl (x := l.stop - 1) ⟨by omega, by omega⟩
        ⟨by omega, by omega⟩
      rw [this] at h2
      omega
  | lineComment | blockComment =>
    rw [getElem?_masked_comment hm (by simp [isComment, hk]) h1 h2, h]
    rfl

end MemberOrder.Scanned
