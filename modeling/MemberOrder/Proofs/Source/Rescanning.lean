/-
  Scanning a text again without its comments finds the same.

  Where a text has code or a literal, the text without comments has the same characters, and where it has
  a comment there is white space. So lexing of both gets to the same offsets at the same depth: over code
  and literals lexeme by lexeme (`lexemeAt_of_code`, `lexemeAt_of_literal`), and over the blanks of a
  comment one by one (`Reads.codes`). No comment is found on the way, and both companions come out as
  they were (`scan_clean`).
-/
import MemberOrder.Proofs.Source.Companions
import MemberOrder.Proofs.Source.Seams

namespace MemberOrder.Lexeme

variable {p : Profile} {t u : Text} {i x d d' : Nat}

/-- Only a line feed ends a literal at once. -/
theorem lt_literalStop {q c : Char} (hc : t[i]? = some c) (hfeed : c ≠ '\n') (fuel : Nat) :
    i < literalStop p t q (fuel + 1) i := by
  have hlt := Text.lt_size_of_getElem? hc
  simp only [literalStop, hc]
  split
  · have := (literalStop_bounds p t q fuel (i + 2)).1
    omega
  · split
    · omega
    · rw [if_neg (by simp [hfeed])]
      have := (literalStop_bounds p t q fuel (i + 1)).1
      omega

/-- A literal ends at the same offset in another text that has its characters and all line feeds. -/
theorem literalStop_congr {q : Char} (hsize : u.size = t.size)
    (hfeed : ∀ y : Nat, t[y]? = some '\n' → u[y]? = some '\n') {fuel : Nat}
    (hsame : ∀ y : Nat, i ≤ y → y < literalStop p t q fuel i → u[y]? = t[y]?) :
    literalStop p u q fuel i = literalStop p t q fuel i := by
  induction fuel generalizing i with
  | zero => exact hsize
  | succ fuel ih =>
    cases hc : t[i]? with
    | none =>
      have hu : u[i]? = none := by
        rw [Array.getElem?_eq_none_iff, hsize]
        exact Array.getElem?_eq_none_iff.mp hc
      simp only [literalStop, hc, hu, hsize]
    | some c =>
      have hu : u[i]? = some c := by
        by_cases hbreak : c = '\n'
        · exact hbreak ▸ hfeed i (hbreak ▸ hc)
        · rw [hsame i (Nat.le_refl i) (lt_literalStop hc hbreak fuel), hc]
      simp only [literalStop, hc] at hsame
      simp only [literalStop, hc, hu]
      split
      · rw [if_pos ‹_›] at hsame
        exact ih fun y hy => hsame y (by omega)
      · rw [if_neg ‹_›] at hsame
        split
        · rfl
        · rw [if_neg ‹_›] at hsame
          split
          · rfl
          · rw [if_neg ‹_›] at hsame
            exact ih fun y hy => hsame y (by omega)

/-- The lexemes of characters that are code one by one. -/
def codes (i x : Nat) : List Lexeme := (List.range' i (x - i)).map fun k => ⟨.code, k, k + 1⟩

/-- Lexing passes over plain characters one by one. -/
theorem Reads.codes (hix : i ≤ x) (hx : x ≤ t.size)
    (hplain : ∀ y : Nat, i ≤ y → y < x → ∀ c, t[y]? = some c → Plain p c) (d : Nat) :
    Reads p t x d i d (codes i x) := by
  obtain ⟨n, rfl⟩ := Nat.exists_eq_add_of_le hix
  induction n generalizing i with
  | zero =>
    rw [Lexeme.codes, Nat.add_zero, Nat.sub_self]
    exact .stop
  | succ n ih =>
    have hc : t[i]? = some t[i] := Array.getElem?_eq_getElem (by omega)
    obtain ⟨hl, hdepth⟩ := lexemeAt_of_plain (d := d) hc (hplain i (Nat.le_refl i) (by omega) _ hc)
    have hrest := ih (i := i + 1) (by omega) (by omega)
      fun y hy hyx => hplain y (by omega) (by omega)
    rw [Lexeme.codes, show i + (n + 1) - i = n + 1 by omega, List.range'_succ, List.map_cons]
    rw [Lexeme.codes, show i + 1 + n - (i + 1) = n by omega] at hrest
    rw [← hl, show i + (n + 1) = i + 1 + n by omega]
    refine .step (by omega) ?_
    rwa [hl, hdepth]

/-! ## One lexeme in another text -/

/-- A code lexeme is one in another text that has its character and not more after it. -/
theorem lexemeAt_of_code (hi : i < t.size) (hk : (lexemeAt p t d i).kind = .code) (hu : u[i]? = t[i]?)
    (hnext : ∀ b ∈ ['/', '*'], u[i + 1]? = some b → t[i + 1]? = some b) :
    lexemeAt p u d i = lexemeAt p t d i ∧
      depthAfter u (lexemeAt p t d i) d = depthAfter t (lexemeAt p t d i) d := by
  obtain ⟨c, hc⟩ : ∃ c, t[i]? = some c := ⟨t[i], Array.getElem?_eq_getElem hi⟩
  have hstands (b : Char) (hb : b ∈ ['/', '*']) (h : t.standsAt i ['/', b] = false) :
      u.standsAt i ['/', b] = false := Bool.eq_false_iff.mpr fun hstands => by
    obtain ⟨h1, h2⟩ := Text.standsAt_two.mp hstands
    rw [hu] at h1
    rw [Text.standsAt_two.mpr ⟨h1, hnext b hb h2⟩] at h
    cases h
  have hlexeme : lexemeAt p u d i = lexemeAt p t d i ∧ (lexemeAt p t d i).start = i := by
    simp only [lexemeAt, hu, hc] at hk ⊢
    cases hquote : p.quotes.contains c with
    | true => simp only [hquote, if_true, reduceCtorEq] at hk
    | false =>
      cases hblock : t.standsAt i ['/', '*'] with
      | true => simp only [hquote, hblock, Bool.false_eq_true, if_false, if_true, reduceCtorEq] at hk
      | false =>
        cases hline : p.lineComments && t.standsAt i ['/', '/'] && !(p.parenGuard && decide (0 < d)) with
        | true =>
          simp only [hquote, hblock, hline, Bool.false_eq_true, if_false, if_true, reduceCtorEq] at hk
        | false =>
          have hline' : (p.lineComments && u.standsAt i ['/', '/'] &&
              !(p.parenGuard && decide (0 < d))) = false := by
            cases hslashes : t.standsAt i ['/', '/'] with
            | true =>
              rw [hslashes, Bool.and_true] at hline
              cases hp : p.lineComments with
              | false => rfl
              | true =>
                rw [hp, Bool.true_and] at hline
                rw [hline, Bool.and_false]
            | false => rw [hstands '/' (by simp) hslashes, Bool.and_false, Bool.false_and]
          simp only [hstands '*' (by simp) hblock, hline', Bool.false_eq_true, if_false, and_self]
  refine ⟨hlexeme.1, ?_⟩
  simp only [depthAfter, hk, Text.hasAt, Text.testAt, hlexeme.2, hu]

theorem depthAfter_of_not_code {l : Lexeme} (h : l.kind ≠ .code) (t : Text) (d : Nat) :
    depthAfter t l d = d := if_neg (by simpa using h)

/-- A literal is one in another text that has its characters and all line feeds. -/
theorem lexemeAt_of_literal (hi : i < t.size) (hk : (lexemeAt p t d i).kind = .literal)
    (hsize : u.size = t.size) (hfeed : ∀ y : Nat, t[y]? = some '\n' → u[y]? = some '\n')
    (hsame : ∀ y : Nat, i ≤ y → y < (lexemeAt p t d i).stop → u[y]? = t[y]?) :
    lexemeAt p u d i = lexemeAt p t d i := by
  obtain ⟨c, hc⟩ : ∃ c, t[i]? = some c := ⟨t[i], Array.getElem?_eq_getElem hi⟩
  have hu : u[i]? = some c := by rw [hsame i (Nat.le_refl i) (lexemeAt_bounds p t d hi).2.1, hc]
  simp only [lexemeAt, hc, hu] at hk hsame ⊢
  split at hk
  · rename_i hquote
    simp only [hquote, if_true] at hsame ⊢
    rw [hsize, literalStop_congr hsize hfeed fun y hy hlt => hsame y (by omega) hlt]
  · split at hk
    · cases hk
    · split at hk <;> cases hk

end MemberOrder.Lexeme

namespace MemberOrder.Scanned

open Lexeme

variable {p : Profile} {t : Text} {i x d d' : Nat}

/-! ## The text without comments -/

/-- What stands in the text without comments is the source's, or the blank of a comment. -/
theorem source_or_blank {y : Nat} {b : Char} (h : (scan p t).clean[y]? = some b) :
    t[y]? = some b ∨ b ∈ [' ', '\r', '\n'] := by
  by_cases hin : ∃ c ∈ (scan p t).comments, Inside c.offset c.stop y
  · obtain ⟨c, hc, hy⟩ := hin
    rw [getElem?_clean_comment hc hy] at h
    obtain ⟨d, -, rfl⟩ := Option.map_eq_some_iff.mp h
    unfold blankOf
    split
    · rename_i hbreak
      rcases hbreak with rfl | rfl <;> simp
    · simp
  · rw [getElem?_clean_outside fun c hc hy => hin ⟨c, hc, hy⟩] at h
    exact .inl h

theorem clean_feed {y : Nat} (h : t[y]? = some '\n') : (scan p t).clean[y]? = some '\n' := by
  by_cases hin : ∃ c ∈ (scan p t).comments, Inside c.offset c.stop y
  · obtain ⟨c, hc, hy⟩ := hin
    rw [getElem?_clean_comment hc hy, h]
    rfl
  · rw [getElem?_clean_outside fun c hc hy => hin ⟨c, hc, hy⟩, h]

theorem clean_same {l : Lexeme} (hl : l ∈ lexemes p t) (hk : isComment l = false) {y : Nat}
    (hy : Inside l.start l.stop y) : (scan p t).clean[y]? = t[y]? := by
  rw [getElem?_clean hl hy.1 hy.2, clean_of_not_comment hk, getElem?_slice_of_lexeme hy.1 hy.2]

/-- No quote is a blank or a line break. -/
def Unspaced (p : Profile) : Prop := ∀ b ∈ [' ', '\r', '\n'], p.quotes.contains b = false

instance (p : Profile) : Decidable (Unspaced p) := inferInstanceAs (Decidable (∀ b ∈ _, _))

/-- The blanks of a comment mean nothing to the lexer. -/
theorem plain_of_comment (hp : Unspaced p) {l : Lexeme} (hl : l ∈ lexemes p t) (hk : isComment l = true)
    {y : Nat} (hy : Inside l.start l.stop y) {b : Char} (hb : (scan p t).clean[y]? = some b) :
    Plain p b := by
  obtain ⟨c, hc, hstart, hstop⟩ := exists_comment hl hk
  rw [getElem?_clean_comment hc ⟨by rw [hstart]; exact hy.1, by rw [hstop]; exact hy.2⟩] at hb
  obtain ⟨d, -, rfl⟩ := Option.map_eq_some_iff.mp hb
  have hblank : blankOf ' ' d ∈ [' ', '\r', '\n'] := by
    unfold blankOf
    split
    · rename_i hbreak
      rcases hbreak with rfl | rfl <;> simp
    · simp
  refine ⟨hp _ hblank, ?_, ?_, ?_⟩ <;>
  · intro heq
    rw [heq] at hblank
    revert hblank
    decide

/-! ## Reading it -/

theorem codes_shares {u : Text} (hix : i ≤ x) (hx : x ≤ u.size) :
    (codes i x).flatMap (·.clean u) = u.slice i x ∧ (codes i x).flatMap (·.masked u) = u.slice i x := by
  obtain ⟨n, rfl⟩ := Nat.exists_eq_add_of_le hix
  induction n generalizing i with
  | zero =>
    rw [codes, Nat.add_zero, Nat.sub_self, Text.slice_self u (Nat.le_refl i)]
    exact ⟨rfl, rfl⟩
  | succ n ih =>
    obtain ⟨hclean, hmasked⟩ := ih (i := i + 1) (by omega) (by omega)
    rw [codes, show i + 1 + n - (i + 1) = n by omega, show i + 1 + n = i + (n + 1) by omega] at hclean hmasked
    rw [codes, show i + (n + 1) - i = n + 1 by omega, List.range'_succ, List.map_cons, List.flatMap_cons,
      List.flatMap_cons, hclean, hmasked, ← Text.slice_append u (Nat.le_succ i) (by omega)]
    exact ⟨rfl, rfl⟩

/-- What a reading of the text shows is shown by a reading of it without its comments. -/
theorem rereads (hp : Unspaced p) {ls : List Lexeme} (h : Reads p t x d' i d ls)
    (hls : ∀ l ∈ ls, l ∈ lexemes p t) : ∃ ms, Reads p (scan p t).clean x d' i d ms ∧
      ms.flatMap (·.clean (scan p t).clean) = ls.flatMap (·.clean t) ∧
      ms.flatMap (·.masked (scan p t).clean) = ls.flatMap (·.masked t) ∧
      ∀ m ∈ ms, isComment m = false := by
  induction h with
  | stop => exact ⟨[], .stop, rfl, rfl, by simp⟩
  | @step i d ls hi h ih =>
    obtain ⟨ms, hms, hclean, hmasked, hcode⟩ := ih fun l hl => hls l (List.mem_cons_of_mem _ hl)
    have hl := hls _ List.mem_cons_self
    obtain ⟨hstart, hpos, hsize⟩ := lexemeAt_bounds p t d hi
    have hsizes : (scan p t).clean.size = t.size := size_clean p t
    have hin : i < (scan p t).clean.size := by omega
    -- code and literals are read as they are
    have hkeep (hk : isComment (lexemeAt p t d i) = false)
        (hlexeme : lexemeAt p (scan p t).clean d i = lexemeAt p t d i)
        (hdepth : depthAfter (scan p t).clean (lexemeAt p t d i) d = depthAfter t (lexemeAt p t d i) d) :
        ∃ ms, Reads p (scan p t).clean x d' i d ms ∧
          ms.flatMap (·.clean (scan p t).clean) =
            (lexemeAt p t d i).clean t ++ ls.flatMap (·.clean t) ∧
          ms.flatMap (·.masked (scan p t).clean) =
            (lexemeAt p t d i).masked t ++ ls.flatMap (·.masked t) ∧
          ∀ m ∈ ms, isComment m = false := by
      have hslice : (scan p t).clean.slice i (lexemeAt p t d i).stop = t.slice i (lexemeAt p t d i).stop := by
        refine List.ext_getElem? fun k => ?_
        rw [Text.getElem?_slice, Text.getElem?_slice]
        split
        · exact clean_same hl hk ⟨by omega, by omega⟩
        · rfl
      have hreads : Reads p (scan p t).clean x d' i d (lexemeAt p (scan p t).clean d i :: ms) := by
        refine .step hin ?_
        rw [hlexeme, hdepth]
        exact hms
      refine ⟨_, hreads, ?_, ?_, ?_⟩
      · rw [List.flatMap_cons, hclean, hlexeme, clean_of_not_comment hk, clean_of_not_comment hk, hstart, hslice]
      · have hshare : (lexemeAt p t d i).masked (scan p t).clean = (lexemeAt p t d i).masked t := by
          unfold Lexeme.masked
          rw [hstart, hslice]
        rw [List.flatMap_cons, hmasked, hlexeme, hshare]
      · intro m hm
        rcases List.mem_cons.mp hm with rfl | hm
        · rwa [hlexeme]
        · exact hcode m hm
    rw [List.flatMap_cons, List.flatMap_cons]
    cases hk : (lexemeAt p t d i).kind with
    | code =>
      have hcomment : isComment (lexemeAt p t d i) = false := by simp [isComment, hk]
      have hsame := clean_same hl hcomment (y := i) ⟨by omega, by omega⟩
      obtain ⟨hlexeme, hdepth⟩ := lexemeAt_of_code (u := (scan p t).clean) hi hk hsame fun b hb hnext => by
        refine (source_or_blank hnext).resolve_right fun hblank => ?_
        revert hblank
        rcases List.mem_cons.mp hb with rfl | hb
        · decide
        · rw [List.mem_singleton.mp hb]
          decide
      exact hkeep hcomment hlexeme hdepth
    | literal =>
      have hcomment : isComment (lexemeAt p t d i) = false := by simp [isComment, hk]
      have hlexeme := lexemeAt_of_literal (u := (scan p t).clean) hi hk hsizes (fun y => clean_feed)
        fun y hy hlt => clean_same hl hcomment ⟨by omega, hlt⟩
      refine hkeep hcomment hlexeme ?_
      rw [depthAfter_of_not_code (by simp [hk]), depthAfter_of_not_code (by simp [hk])]
    | lineComment | blockComment =>
      -- the blanks of a comment are code one by one
      have hcomment : isComment (lexemeAt p t d i) = true := by simp [isComment, hk]
      have hblanks := Reads.codes (p := p) (t := (scan p t).clean) (Nat.le_of_lt hpos) (by omega)
        (fun y hy hlt c hc => plain_of_comment hp hl hcomment ⟨by omega, hlt⟩ hc) d
      rw [depthAfter_of_not_code (by simp [hk])] at hms
      obtain ⟨hcodes, hcodes'⟩ := codes_shares (u := (scan p t).clean) (Nat.le_of_lt hpos) (by omega)
      have hslice : (scan p t).clean.slice i (lexemeAt p t d i).stop =
          blank ' ' (t.slice i (lexemeAt p t d i).stop) := by
        refine List.ext_getElem? fun k => ?_
        obtain ⟨c, hc, hoffset, hstop⟩ := exists_comment hl hcomment
        rw [blank_eq_map, List.getElem?_map, Text.getElem?_slice, Text.getElem?_slice]
        split
        · exact getElem?_clean_comment hc ⟨by omega, by omega⟩
        · rfl
      have hshare := clean_comment hcomment t
      rw [hstart] at hshare
      refine ⟨_, hblanks.trans hms, ?_, ?_, ?_⟩
      · rw [List.flatMap_append, hcodes, hclean, hslice, hshare]
      · rw [List.flatMap_append, hcodes', hmasked, hslice, masked_of_not_literal (by simp [hk]), hshare]
      · intro m hm
        rcases List.mem_append.mp hm with hm | hm
        · obtain ⟨k, -, rfl⟩ := List.mem_map.mp hm
          rfl
        · exact hcode m hm

/-- The lexemes of a text are what reading it from the start to the end gives. -/
theorem lexemes_of_reads {ls : List Lexeme} (h : Reads p t t.size d 0 0 ls) : lexemes p t = ls := by
  obtain ⟨fuel, heq, -⟩ := h.lexemesFrom_eq (Nat.le_add_left t.size 0)
  rw [lexemes, heq]
  cases fuel with
  | zero => exact List.append_nil ls
  | succ fuel => simp [lexemesFrom]

section Lexemes

variable {ls : List Lexeme} (h : lexemes p t = ls)
include h

theorem comments_of_lexemes : (scan p t).comments = ls.filterMap (·.comment? t (Lines.ofText t)) := by
  rw [← h]
  rfl

theorem clean_of_lexemes : (scan p t).clean = (ls.flatMap (·.clean t)).toArray := by
  rw [← h]
  rfl

theorem masked_of_lexemes : (scan p t).masked = (ls.flatMap (·.masked t)).toArray := by
  rw [← h]
  rfl

end Lexemes

theorem comment?_of_not_comment {l : Lexeme} (hk : isComment l = false) (t : Text) (lines : Lines) :
    l.comment? t lines = none := by
  rcases l with ⟨kind, start, stop⟩
  cases kind <;> simp_all [isComment, comment?]

/-- Scanning the text without comments finds no comments and gives the same companions. -/
theorem scan_clean {p : Profile} (hp : p ∈ [Profile.typescript, .css, .scss, .go, .json]) (t : Text) :
    (scan p (scan p t).clean).comments = [] ∧
    (scan p (scan p t).clean).clean = (scan p t).clean ∧
    (scan p (scan p t).clean).masked = (scan p t).masked := by
  have hspace : Unspaced p := by
    have hall : ∀ p ∈ [Profile.typescript, .css, .scss, .go, .json], Unspaced p := by decide
    exact hall p hp
  obtain ⟨d, ls, hls⟩ := exists_reads_end p (t := t) (Nat.zero_le _) 0
  have hlexemes := lexemes_of_reads hls
  obtain ⟨ms, hms, hclean, hmasked, hcode⟩ := rereads hspace hls fun l hl => by rwa [hlexemes]
  rw [show t.size = (scan p t).clean.size from (size_clean p t).symm] at hms
  have hagain := lexemes_of_reads hms
  refine ⟨?_, ?_, ?_⟩
  · rw [comments_of_lexemes hagain]
    exact List.filterMap_eq_nil_iff.mpr fun m hm => comment?_of_not_comment (hcode m hm) _ _
  · exact (clean_of_lexemes hagain).trans
      ((congrArg List.toArray hclean).trans (clean_of_lexemes hlexemes).symm)
  · exact (masked_of_lexemes hagain).trans
      ((congrArg List.toArray hmasked).trans (masked_of_lexemes hlexemes).symm)

theorem scan_clean_guarded : let t := Text.ofString "a(//b\n/*c*/\"\\\n//d)//e";
    Profile.scss ∈ [Profile.typescript, .css, .scss, .go, .json] ∧
    (scan .scss (scan .scss t).clean).comments = [] ∧
    (scan .scss (scan .scss t).clean).clean = (scan .scss t).clean ∧
    (scan .scss (scan .scss t).clean).masked = (scan .scss t).masked :=
  ⟨by simp, scan_clean (p := .scss) (by simp) _⟩

end MemberOrder.Scanned
