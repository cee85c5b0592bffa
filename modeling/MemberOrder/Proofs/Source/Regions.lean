/-
  Lexing is local.

  Lexing that gets from one offset of a text to another reads nothing else of the text: where the same
  characters stand in another text and lexing gets from their start to their end there too, both texts
  without comments have the same characters in between (`Reads.clean_eq`), and so have both masked texts
  (`Reads.masked_eq`): what counts is that comments are blanked and code is kept (`Lexeme.share`). The
  induction is on the characters that are left. A lexeme that ends inside ends at the same distance, but for a line comment
  that runs as far as the characters do: how it ends depends on what follows, and what is left of it
  does not.
-/
import MemberOrder.Proofs.Source.Tiling

/-!
## Code and comments

White space and separators left aside, a text consists of its code, which is what stands in the text
without comments, and of its comments (`ink_perm`).
-/

namespace MemberOrder

/-- Whether a character is neither white space nor a separator. -/
def isInk (c : Char) : Bool := !(Text.isSpace c || c == ',' || c == ';')

/-- The characters that are neither white space nor separators. -/
def ink (cs : List Char) : List Char := cs.filter isInk

theorem ink_append (cs ds : List Char) : ink (cs ++ ds) = ink cs ++ ink ds := List.filter_append cs ds

theorem ink_eq_nil {cs : List Char} :
    ink cs = [] ↔ ∀ c ∈ cs, Text.isSpace c = true ∨ c = ',' ∨ c = ';' := by
  simp only [ink, isInk, List.filter_eq_nil_iff, Bool.not_eq_true', Bool.not_eq_false,
    Bool.or_eq_true, beq_iff_eq, or_assoc]

/-- The ink of the code of a text. -/
def codeOf (p : Profile) (t : Text) : List Char := ink (Scanned.scan p t).clean.toList

/-- The ink of the comments of a text. -/
def commentsOf (p : Profile) (t : Text) : List Char :=
  ink ((Scanned.scan p t).comments.flatMap fun c => c.raw.toList)

namespace Lexeme

variable {t : Text}

theorem space_of_mem_blank {c : Char} {cs : List Char} (h : c ∈ blank ' ' cs) :
    Text.isSpace c = true := by
  obtain ⟨d, -, rfl⟩ := List.mem_map.mp h
  split
  · rename_i hbreak
    rw [Bool.or_eq_true, beq_iff_eq, beq_iff_eq] at hbreak
    rcases hbreak with rfl | rfl <;> decide
  · decide

theorem ink_blank (cs : List Char) : ink (blank ' ' cs) = [] :=
  ink_eq_nil.mpr fun _ hc => Or.inl (space_of_mem_blank hc)

theorem Tiles.flatMap_slice {n i : Nat} {ls : List Lexeme} (h : Tiles n i ls) :
    (ls.flatMap fun l => t.slice l.start l.stop) = t.slice i n := by
  induction ls generalizing i with
  | nil =>
    obtain rfl : i = n := h
    exact (Text.slice_self t (Nat.le_refl i)).symm
  | cons l rest ih =>
    obtain ⟨rfl, h2, h3, h4⟩ := h
    rw [List.flatMap_cons, ih h4, Text.slice_append t (Nat.le_of_lt h2) h3]

/-- The ink of a lexeme is in its share of the code or in its comment. -/
theorem ink_lexeme (lines : Lines) (l : Lexeme) :
    ink (t.slice l.start l.stop) =
      ink (l.clean t) ++ ink ((l.comment? t lines).toList.flatMap fun c => c.raw.toList) := by
  cases hk : l.kind with
  | code | literal => simp [Lexeme.clean, comment?, hk, ink]
  | lineComment | blockComment => simp [Lexeme.clean, comment?, hk, ink_blank]

theorem ink_lexemes (lines : Lines) (ls : List Lexeme) :
    (ink (ls.flatMap fun l => t.slice l.start l.stop)).Perm (ink (ls.flatMap (·.clean t)) ++
      ink ((ls.filterMap (·.comment? t lines)).flatMap fun c => c.raw.toList)) := by
  induction ls with
  | nil => exact .refl _
  | cons l rest ih =>
    have hcomments : ((l :: rest).filterMap (·.comment? t lines)) =
        (l.comment? t lines).toList ++ rest.filterMap (·.comment? t lines) := by
      rw [List.filterMap_cons]
      cases l.comment? t lines <;> rfl
    rw [hcomments, List.flatMap_cons, List.flatMap_cons, List.flatMap_append, ink_append, ink_append,
      ink_append, ink_lexeme lines l, List.append_assoc, List.append_assoc]
    refine List.Perm.append_left _ ?_
    exact (ih.append_left _).trans (List.perm_append_comm_assoc _ _ _)

end Lexeme

namespace Scanned

open Lexeme

variable {p : Profile} {t : Text}

theorem size_clean (p : Profile) (t : Text) : (scan p t).clean.size = t.size := by
  have := (lexemes_tile p t).length_flatMap
    fun l hl => length_clean ((lexemes_tile p t).bounds hl).2.2
  simpa [scan] using this

/-- A character of the text without comments is the source's, or white space. -/
theorem source_of_clean {x : Nat} {c : Char} (h : (scan p t).clean[x]? = some c) :
    t[x]? = some c ∨ Text.isSpace c = true := by
  have hx : x < t.size := by
    rw [← size_clean p t]
    exact (Array.getElem?_eq_some_iff.mp h).1
  obtain ⟨l, hl, h1, h2⟩ := (lexemes_tile p t).covers (Nat.zero_le x) hx
  rw [getElem?_clean hl h1 h2] at h
  cases hk : l.kind with
  | code | literal =>
    simp only [Lexeme.clean, hk, getElem?_slice_of_lexeme h1 h2] at h
    exact Or.inl h
  | lineComment | blockComment =>
    simp only [Lexeme.clean, hk] at h
    exact Or.inr (space_of_mem_blank (List.mem_of_getElem? h))

/-- Where a text has no ink, it has none without its comments. -/
theorem ink_clean_eq_nil {a b : Nat} (h : ink (t.slice a b) = []) :
    ink ((scan p t).clean.slice a b) = [] := by
  rw [ink_eq_nil] at h ⊢
  intro c hc
  obtain ⟨x, hax, hxb, hx⟩ := Text.mem_slice.mp hc
  rcases source_of_clean hx with hsource | hspace
  · exact h c (Text.mem_slice.mpr ⟨x, hax, hxb, hsource⟩)
  · exact Or.inl hspace

end Scanned

/-- The ink of a text is that of its code and that of its comments. -/
theorem ink_perm (p : Profile) (t : Text) :
    (ink t.toList).Perm (codeOf p t ++ commentsOf p t) := by
  have h := Lexeme.ink_lexemes (t := t) (Lines.ofText t) (Lexeme.lexemes p t)
  rwa [(Lexeme.lexemes_tile p t).flatMap_slice, Text.slice_full] at h

end MemberOrder

/-! ## Lexing is local -/

namespace MemberOrder.Lexeme

/-! ## The same characters -/

/-- The same `n` characters stand at `i` in one text and at `j` in another. -/
structure Same (t u : Text) (i j n : Nat) : Prop where
  inside : i + n ≤ t.size
  inside' : j + n ≤ u.size
  chars : ∀ k, k < n → t[i + k]? = u[j + k]?

namespace Same

variable {t u : Text} {i j n k : Nat}

theorem symm (h : Same t u i j n) : Same u t j i n :=
  ⟨h.inside', h.inside, fun k hk => (h.chars k hk).symm⟩

theorem drop (h : Same t u i j n) (hk : k ≤ n) : Same t u (i + k) (j + k) (n - k) := by
  have := h.inside
  have := h.inside'
  refine ⟨by omega, by omega, fun m hm => ?_⟩
  rw [Nat.add_assoc, Nat.add_assoc]
  exact h.chars (k + m) (by omega)

theorem slice_eq (h : Same t u i j n) (hk : k ≤ n) : t.slice i (i + k) = u.slice j (j + k) := by
  apply List.ext_getElem?
  intro m
  rw [Text.getElem?_slice, Text.getElem?_slice]
  by_cases hm : m < k
  · rw [if_pos (by omega), if_pos (by omega)]
    exact h.chars m (by omega)
  · rw [if_neg (by omega), if_neg (by omega)]

theorem of_slice (h : t.slice i (i + n) = u.slice j (j + n)) (hi : i + n ≤ t.size)
    (hj : j + n ≤ u.size) : Same t u i j n := by
  refine ⟨hi, hj, fun k hk => ?_⟩
  have := congrArg (·[k]?) h
  simpa only [Text.getElem?_slice, if_pos (show i + k < i + n by omega),
    if_pos (show j + k < j + n by omega)] using this

theorem hasAt_eq (h : Same t u i j n) (hk : k < n) (c : Char) :
    t.hasAt (i + k) c = u.hasAt (j + k) c := by
  simp only [Text.hasAt, Text.testAt, h.chars k hk]

theorem standsAt_two_eq (h : Same t u i j n) (hk : k + 1 < n) (c d : Char) :
    t.standsAt (i + k) [c, d] = u.standsAt (j + k) [c, d] := by
  simp only [Text.standsAt, h.hasAt_eq (show k < n by omega), Nat.add_assoc, h.hasAt_eq hk]

end Same

/-! ## Where lexemes end -/

variable {p : Profile} {t u : Text} {i j n : Nat}

/-- A literal that ends among the same characters ends at the same distance. -/
theorem literalStop_local {q : Char} (h : Same t u i j n) (f g k : Nat) (hf : t.size ≤ i + k + f)
    (hg : u.size ≤ j + k + g) (ht : literalStop p t q f (i + k) ≤ i + n)
    (hu : literalStop p u q g (j + k) ≤ j + n) :
    ∃ m, literalStop p t q f (i + k) = i + m ∧ literalStop p u q g (j + k) = j + m := by
  have hin := h.inside
  have hin' := h.inside'
  by_cases hk : n ≤ k
  · have hlow := (literalStop_bounds p t q f (i + k)).1
    have hlow' := (literalStop_bounds p u q g (j + k)).1
    exact ⟨n, by omega, by omega⟩
  · cases f with
    | zero => omega
    | succ f =>
      cases g with
      | zero => omega
      | succ g =>
        have hc : t[i + k]? = some t[i + k] := Array.getElem?_eq_getElem (by omega)
        have hc' : u[j + k]? = some t[i + k] := by rw [← h.chars k (by omega), hc]
        simp only [literalStop, hc, hc'] at ht hu ⊢
        split
        · simp only [if_pos ‹_›, Nat.add_assoc] at ht hu ⊢
          exact literalStop_local h f g (k + 2) (by omega) (by omega) ht hu
        · simp only [if_neg ‹_›] at ht hu ⊢
          split
          · exact ⟨k + 1, rfl, rfl⟩
          · simp only [if_neg ‹_›] at ht hu ⊢
            split
            · exact ⟨k, rfl, rfl⟩
            · simp only [if_neg ‹_›, Nat.add_assoc] at ht hu ⊢
              exact literalStop_local h f g (k + 1) (by omega) (by omega) ht hu
termination_by f

/-- What is found among the same characters in one text is found in the other. -/
theorem Same.find?_eq (h : Same t u i j n) {needle : List Char} {low x : Nat}
    (hneedle : ∀ k, k ≤ x → t.standsAt (i + k) needle = u.standsAt (j + k) needle) (hx : x < n)
    (hfind : t.find? needle (i + low) = some (i + x)) : u.find? needle (j + low) = some (j + x) := by
  obtain ⟨hlow, -, hstands, hfirst⟩ := Text.find?_some hfind
  have hin' := h.inside'
  refine Text.find?_of_first (by omega) (by omega) (hneedle x (Nat.le_refl x) ▸ hstands) ?_
  intro k hk hkx
  have := hneedle (k - j) (by omega)
  rw [Nat.add_sub_cancel' (by omega)] at this
  rw [← this]
  exact hfirst _ (by omega) (by omega)

theorem Same.find?_close (h : Same t u i j n) {x : Nat} (hfind : t.find? ['*', '/'] (i + 2) = some x)
    (hx : x + 2 ≤ i + n) : u.find? ['*', '/'] (j + 2) = some (j + (x - i)) := by
  have hlow := (Text.find?_some hfind).1
  obtain ⟨k, rfl⟩ := Nat.exists_eq_add_of_le (show i ≤ x by omega)
  rw [Nat.add_sub_cancel_left]
  exact h.find?_eq (fun m hm => h.standsAt_two_eq (by omega) '*' '/') (by omega) hfind

theorem Same.find?_break (h : Same t u i j n) {x : Nat} (hfind : t.find? ['\n'] i = some x)
    (hx : x < i + n) : u.find? ['\n'] j = some (j + (x - i)) := by
  have hlow := (Text.find?_some hfind).1
  obtain ⟨k, rfl⟩ := Nat.exists_eq_add_of_le hlow
  rw [Nat.add_sub_cancel_left]
  refine h.find?_eq (fun m hm => ?_) (by omega) (show t.find? ['\n'] (i + 0) = _ from hfind)
  simp only [Text.standsAt, h.hasAt_eq (show m < n by omega)]

/-- A block comment that ends among the same characters ends at the same distance. -/
theorem blockStop_local (h : Same t u i j n) (ht : blockStop t i ≤ i + n) (hu : blockStop u j ≤ j + n) :
    ∃ m, blockStop t i = i + m ∧ blockStop u j = j + m := by
  have hin := h.inside
  have hin' := h.inside'
  unfold blockStop at ht hu ⊢
  cases hx : t.find? ['*', '/'] (i + 2) with
  | some x =>
    rw [hx] at ht
    have hlow := (Text.find?_some hx).1
    rw [h.find?_close hx ht]
    exact ⟨x - i + 2, by simp only; omega, rfl⟩
  | none =>
    rw [hx] at ht
    cases hy : u.find? ['*', '/'] (j + 2) with
    | some y =>
      rw [hy] at hu
      rw [h.symm.find?_close hy hu] at hx
      cases hx
    | none =>
      rw [hy] at hu
      exact ⟨n, by simp only at ht ⊢; omega, by simp only at hu ⊢; omega⟩

/-- A line comment that a line feed among the same characters ends ends at the same distance. -/
theorem lineStop_local (h : Same t u i j n) (hfeed : ∃ k, k < n ∧ t[i + k]? = some '\n') :
    ∃ m, lineStop t i = i + m ∧ lineStop u j = j + m := by
  obtain ⟨y, hy, hchar⟩ := hfeed
  have hin := h.inside
  obtain ⟨x, hbreak, hx⟩ : ∃ x, t.find? ['\n'] i = some x ∧ x < i + n := by
    cases hfind : t.find? ['\n'] i with
    | none =>
      have := Text.find?_none hfind (i + y) (by omega) (by omega)
      rw [Text.standsAt_one.mpr hchar] at this
      cases this
    | some x =>
      refine ⟨x, rfl, Nat.lt_of_not_le fun hle => ?_⟩
      have := (Text.find?_some hfind).2.2.2 (i + y) (by omega) (by omega)
      rw [Text.standsAt_one.mpr hchar] at this
      cases this
  have hlow := (Text.find?_some hbreak).1
  obtain ⟨k, rfl⟩ := Nat.exists_eq_add_of_le hlow
  have hbreak' := h.find?_break hbreak hx
  rw [Nat.add_sub_cancel_left] at hbreak'
  simp only [lineStop, hbreak, hbreak', Option.getD_some]
  cases k with
  | zero => exact ⟨0, by simp, by simp⟩
  | succ k =>
    have hreturn := h.hasAt_eq (k := k) (by omega) '\r'
    by_cases hr : u.hasAt (j + k) '\r' = true
    · rw [if_pos (by simp [hreturn, hr]), if_pos (by simp [hr])]
      exact ⟨k, rfl, rfl⟩
    · rw [if_neg (by simp [hreturn, hr]), if_neg (by simp [hr])]
      exact ⟨k + 1, rfl, rfl⟩

/-! ## Lexemes -/

/-- A lexeme of one character is code where no literal starts. -/
theorem lexemeAt_of_short {c : Char} {d : Nat} (hc : t[i]? = some c)
    (hquote : p.quotes.contains c = false) (h : (lexemeAt p t d i).stop ≤ i + 1) :
    lexemeAt p t d i = ⟨.code, i, i + 1⟩ := by
  simp only [lexemeAt, hc, hquote, Bool.false_eq_true, if_false] at h ⊢
  split
  · rename_i hblock
    have := (blockStop_bounds hblock).1
    simp only [hblock, if_true] at h
    omega
  · rename_i hblock
    simp only [hblock, Bool.false_eq_true, if_false] at h
    split
    · rename_i hline
      simp only [hline, if_true] at h
      rw [Bool.and_eq_true, Bool.and_eq_true] at hline
      have := (lineStop_bounds hline.1.2).1
      omega
    · rfl

/-- Lexemes that start with the same characters and end among them are of one kind, and they end at the
same distance unless they are line comments that run as far as the characters do. -/
theorem lexemeAt_local (h : Same t u i j n) (hn : 0 < n) {d d' : Nat}
    (hdepth : p.parenGuard = true → d = d') (ht : (lexemeAt p t d i).stop ≤ i + n)
    (hu : (lexemeAt p u d' j).stop ≤ j + n) :
    (lexemeAt p t d i).kind = (lexemeAt p u d' j).kind ∧
      ((∃ k, (lexemeAt p t d i).stop = i + k ∧ (lexemeAt p u d' j).stop = j + k) ∨
        (lexemeAt p t d i).kind = .lineComment ∧ ∀ k, k < n → t[i + k]? ≠ some '\n') := by
  have hin := h.inside
  have hin' := h.inside'
  obtain ⟨c, hc⟩ : ∃ c, t[i]? = some c := ⟨t[i], Array.getElem?_eq_getElem (by omega)⟩
  have hc' : u[j]? = some c := by rw [← hc]; exact (h.chars 0 hn).symm
  cases hquote : p.quotes.contains c with
  | true =>
    simp only [lexemeAt, hc, hc', hquote, if_true] at ht hu ⊢
    exact ⟨trivial, Or.inl (literalStop_local h _ _ 1 (by omega) (by omega) ht hu)⟩
  | false =>
    rcases Nat.eq_or_lt_of_le (show 1 ≤ n from hn) with rfl | hn
    · rw [lexemeAt_of_short hc hquote ht, lexemeAt_of_short hc' hquote hu]
      exact ⟨rfl, Or.inl ⟨1, rfl, rfl⟩⟩
    · -- two characters are the same, so a comment starts in both texts or in none
      have hblock : t.standsAt i ['/', '*'] = u.standsAt j ['/', '*'] :=
        h.standsAt_two_eq (k := 0) hn '/' '*'
      have hline : t.standsAt i ['/', '/'] = u.standsAt j ['/', '/'] :=
        h.standsAt_two_eq (k := 0) hn '/' '/'
      have hguard : (p.parenGuard && decide (0 < d)) = (p.parenGuard && decide (0 < d')) := by
        cases hp : p.parenGuard with
        | false => rfl
        | true => rw [hdepth hp]
      simp only [lexemeAt, hc, hc', hquote, hblock, hline, hguard, Bool.false_eq_true, if_false]
        at ht hu ⊢
      split
      · simp only [if_pos ‹_›] at ht hu ⊢
        exact ⟨trivial, Or.inl (blockStop_local h ht hu)⟩
      · simp only [if_neg ‹_›] at ht hu ⊢
        split
        · refine ⟨rfl, ?_⟩
          by_cases hfeed : ∃ k, k < n ∧ t[i + k]? = some '\n'
          · exact Or.inl (lineStop_local h hfeed)
          · exact Or.inr ⟨rfl, fun k hk hchar => hfeed ⟨k, hk, hchar⟩⟩
        · exact ⟨rfl, Or.inl ⟨1, rfl, rfl⟩⟩

/-! ## Companions -/

/-- A lexeme's share of a companion of the text: code as it is, comments blanked, literals in some way. -/
def share (literal : List Char → List Char) (t : Text) (l : Lexeme) : List Char :=
  match l.kind with
  | .code => t.slice l.start l.stop
  | .literal => literal (t.slice l.start l.stop)
  | .lineComment | .blockComment => blank ' ' (t.slice l.start l.stop)

theorem clean_eq_share (t : Text) (l : Lexeme) : l.clean t = l.share id t := by
  unfold clean share
  cases l.kind <;> rfl

theorem masked_eq_share (t : Text) (l : Lexeme) : l.masked t = l.share maskLiteral t := by
  unfold masked share
  cases l.kind <;> rfl

/-- A way to show literals that keeps their length, and a quote on its own. -/
structure Even (literal : List Char → List Char) : Prop where
  length : ∀ cs, (literal cs).length = cs.length
  one : ∀ c, literal [c] = [c]

theorem even_id : Even id := ⟨fun _ => rfl, fun _ => rfl⟩

theorem even_maskLiteral : Even maskLiteral := ⟨length_maskLiteral, fun _ => rfl⟩

theorem length_share {literal : List Char → List Char} (h : Even literal) {l : Lexeme} (hl : l.stop ≤ t.size) :
    (l.share literal t).length = l.stop - l.start := by
  unfold share
  cases l.kind <;> simp only [h.length, length_blank, Text.length_slice t hl]

/-- The share of a lexeme of one character that is no comment. -/
theorem share_one {literal : List Char → List Char} (h : Even literal) {l : Lexeme} {c : Char}
    (hkind : l.kind = .code ∨ l.kind = .literal) (hslice : t.slice l.start l.stop = [c]) :
    l.share literal t = [c] := by
  unfold share
  rcases hkind with hkind | hkind
  · simp only [hkind, hslice]
  · simp only [hkind, hslice, h.one]

/-! ## Reading on -/

/-- Lexing gets from `i` at one depth to `x` at another, over some lexemes. -/
inductive Reads (p : Profile) (t : Text) (x depth' : Nat) : (i depth : Nat) → List Lexeme → Prop
  | stop : Reads p t x depth' x depth' []
  | step {i depth : Nat} {ls : List Lexeme} (hi : i < t.size)
      (h : Reads p t x depth' (lexemeAt p t depth i).stop
        (depthAfter t (lexemeAt p t depth i) depth) ls) :
      Reads p t x depth' i depth (lexemeAt p t depth i :: ls)

namespace Reads

variable {x y d d' e e' : Nat} {ls ms : List Lexeme} {literal : List Char → List Char}

theorem le (h : Reads p t x d' i d ls) : i ≤ x := by
  induction h with
  | stop => exact Nat.le_refl x
  | @step i d ls hi _ ih =>
    have := (lexemeAt_bounds p t d hi).2.1
    omega

theorem le_size (h : Reads p t x d' i d ls) (hi : i ≤ t.size) : x ≤ t.size := by
  induction h with
  | stop => exact hi
  | @step i d ls hlt _ ih => exact ih (lexemeAt_bounds p t d hlt).2.2

theorem eq_nil (h : Reads p t i d' i d ls) : ls = [] ∧ d' = d := by
  cases h with
  | stop => exact ⟨rfl, rfl⟩
  | step hi h =>
    have := (lexemeAt_bounds p t d hi).2.1
    have := h.le
    omega

theorem length_share (hliteral : Even literal) (h : Reads p t x d' i d ls) :
    (ls.flatMap (·.share literal t)).length = x - i := by
  induction h with
  | stop => simp
  | @step i d ls hi h ih =>
    obtain ⟨h1, h2, h3⟩ := lexemeAt_bounds p t d hi
    have := h.le
    rw [List.flatMap_cons, List.length_append, ih, Lexeme.length_share hliteral h3, h1]
    omega

/-- Where lexing gets, all that follows goes on from there. -/
theorem lexemesFrom_eq (h : Reads p t x d' i d ls) {fuel : Nat} (hfuel : t.size ≤ i + fuel) :
    ∃ fuel', lexemesFrom p t fuel i d = ls ++ lexemesFrom p t fuel' x d' ∧ t.size ≤ x + fuel' := by
  induction h generalizing fuel with
  | stop => exact ⟨fuel, rfl, hfuel⟩
  | @step i d ls hi h ih =>
    obtain ⟨-, h2, -⟩ := lexemeAt_bounds p t d hi
    cases fuel with
    | zero => omega
    | succ fuel =>
      have hrest : t.size ≤ (lexemeAt p t d i).stop + fuel := by omega
      obtain ⟨fuel', heq, hfuel'⟩ := ih hrest
      refine ⟨fuel', ?_, hfuel'⟩
      simp only [lexemesFrom, if_pos hi, heq, List.cons_append]

/-- What is read between two offsets is what a companion of the text has there. -/
theorem slice_share (hliteral : Even literal) (h : Reads p t i d 0 0 ms) (h' : Reads p t x d' i d ls) :
    Text.slice ((lexemes p t).flatMap (·.share literal t)).toArray i x = ls.flatMap (·.share literal t) := by
  obtain ⟨fuel, heq, hfuel⟩ := h.lexemesFrom_eq (Nat.le_add_left t.size 0)
  obtain ⟨fuel', heq', -⟩ := h'.lexemesFrom_eq hfuel
  have hlength := h.length_share hliteral
  have hlength' := h'.length_share hliteral
  rw [Nat.sub_zero] at hlength
  rw [Text.slice_eq_take_drop]
  simp only [lexemes, heq, heq', List.flatMap_append]
  rw [List.drop_append_of_le_length (by omega), List.drop_eq_nil_of_le (by omega), List.nil_append,
    List.take_append_of_le_length (by omega), List.take_of_length_le (by omega)]

theorem slice_clean (h : Reads p t i d 0 0 ms) (h' : Reads p t x d' i d ls) :
    (Scanned.scan p t).clean.slice i x = ls.flatMap (·.clean t) := by
  simp only [Scanned.scan, clean_eq_share]
  exact h.slice_share even_id h'

theorem slice_masked (h : Reads p t i d 0 0 ms) (h' : Reads p t x d' i d ls) :
    (Scanned.scan p t).masked.slice i x = ls.flatMap (·.masked t) := by
  simp only [Scanned.scan, masked_eq_share]
  exact h.slice_share even_maskLiteral h'

end Reads

/-! ## Line comments -/

theorem lexemeAt_of_line {d : Nat} (h : (lexemeAt p t d i).kind = .lineComment) :
    lexemeAt p t d i = ⟨.lineComment, i, lineStop t i⟩ := by
  unfold lexemeAt at h ⊢
  split at h
  · cases h
  · split at h
    · cases h
    · split at h
      · cases h
      · split at h
        · rw [if_neg ‹_›, if_neg ‹_›, if_pos ‹_›]
        · cases h

/-- A line comment with no line feed before `x` that ends there or before ends there, or it leaves a
carriage return. -/
theorem lineStop_of_no_feed {x : Nat} (hx : x ≤ t.size) (hle : lineStop t i ≤ x)
    (hnone : ∀ y, i ≤ y → y < x → t[y]? ≠ some '\n') :
    lineStop t i = x ∨ lineStop t i + 1 = x ∧ t[lineStop t i]? = some '\r' := by
  have hbreak : x ≤ (t.find? ['\n'] i).getD t.size := by
    cases hfind : t.find? ['\n'] i with
    | none => exact hx
    | some y =>
      obtain ⟨hiy, -, hy, -⟩ := Text.find?_some hfind
      exact Nat.le_of_not_lt fun hlt => hnone y hiy hlt (Text.standsAt_one.mp hy)
  unfold lineStop at hle ⊢
  simp only at hle ⊢
  split
  · rename_i hr
    rw [if_pos hr] at hle
    rw [Bool.and_eq_true, decide_eq_true_eq] at hr
    rcases Nat.eq_or_lt_of_le hle with heq | hlt
    · exact Or.inl heq
    · exact Or.inr ⟨by omega, Text.hasAt_iff.mp hr.2⟩
  · rename_i hr
    rw [if_neg hr] at hle
    exact Or.inl (Nat.le_antisymm hle hbreak)

/-- A carriage return is no comment, and no parenthesis. -/
theorem lexemeAt_of_return {d : Nat} (h : t[i]? = some '\r') :
    ((lexemeAt p t d i).kind = .code ∨ (lexemeAt p t d i).kind = .literal) ∧
      depthAfter t (lexemeAt p t d i) d = d := by
  have hslash : ∀ c, t.standsAt i ['/', c] = false := by
    intro c
    simp [Text.standsAt, Text.hasAt, Text.testAt, h]
  simp only [lexemeAt, h, hslash, Bool.and_false, Bool.false_and, Bool.false_eq_true, if_false]
  split
  · exact ⟨Or.inr rfl, rfl⟩
  · refine ⟨Or.inl rfl, ?_⟩
    simp [depthAfter, Text.hasAt, Text.testAt, h]

namespace Reads

variable {x d d' : Nat} {ls : List Lexeme} {literal : List Char → List Char}

/-- A line comment that runs on as far as lexing is followed leaves no characters but line breaks. -/
theorem share_of_line (hliteral : Even literal) (h : Reads p t x d' i d ls) (hix : i < x)
    (hline : (lexemeAt p t d i).kind = .lineComment)
    (hnone : ∀ y, i ≤ y → y < x → t[y]? ≠ some '\n') :
    ls.flatMap (·.share literal t) = blank ' ' (t.slice i x) ∧ d' = d := by
  cases h with
  | stop => omega
  | step hi h =>
    rename_i rest
    have hl := lexemeAt_of_line hline
    have hle := h.le
    have hsize := h.le_size (lexemeAt_bounds p t d hi).2.2
    have hpos := (lexemeAt_bounds p t d hi).2.1
    rw [hl] at h hle hpos
    replace h : Reads p t x d' (lineStop t i) d rest := h
    rw [List.flatMap_cons, hl]
    rcases lineStop_of_no_feed hsize hle hnone with heq | ⟨hx, hchar⟩
    · rw [heq] at h
      obtain ⟨rfl, hd⟩ := h.eq_nil
      refine ⟨?_, hd⟩
      simp [share, heq]
    · -- the carriage return that is left is code
      cases h with
      | stop => omega
      | step hi' h =>
        obtain ⟨hkind, hdepth'⟩ := lexemeAt_of_return (p := p) (d := d) hchar
        have hle' := h.le
        have hpos' := (lexemeAt_bounds p t d hi').2.1
        have hstop : (lexemeAt p t d (lineStop t i)).stop = x := by omega
        rw [hdepth', hstop] at h
        obtain ⟨rfl, hd⟩ := h.eq_nil
        have hone : t.slice (lexemeAt p t d (lineStop t i)).start (lexemeAt p t d (lineStop t i)).stop =
            ['\r'] := by
          rw [(lexemeAt_bounds p t d hi').1, hstop, ← hx, Text.slice_one hchar]
        refine ⟨?_, hd⟩
        rw [List.flatMap_cons, share_one hliteral hkind hone, ← hx,
          ← Text.slice_append t (Nat.le_of_lt hpos) (Nat.le_succ _), Text.slice_one hchar]
        simp [share, blank]

/-- Lexing that gets further starts with a lexeme. -/
theorem eq_cons (h : Reads p t x d' i d ls) (hix : i < x) :
    i < t.size ∧ ∃ rest, ls = lexemeAt p t d i :: rest ∧
      Reads p t x d' (lexemeAt p t d i).stop (depthAfter t (lexemeAt p t d i) d) rest := by
  cases h with
  | stop => omega
  | step hi h => exact ⟨hi, _, rfl, h⟩

/-- Where the same characters are read in two texts, from one depth where it counts, the companions of
the texts are the same. -/
theorem share_eq (hliteral : Even literal) {j e e' : Nat} {ms : List Lexeme} (hsame : Same t u i j n)
    (h : Reads p t (i + n) d' i d ls) (h' : Reads p u (j + n) e' j e ms)
    (hdepth : p.parenGuard = true → d = e) :
    ls.flatMap (·.share literal t) = ms.flatMap (·.share literal u) := by
  induction n using Nat.strongRecOn generalizing i j d e ls ms with
  | ind n ih =>
    rcases Nat.eq_zero_or_pos n with rfl | hn
    · rw [h.eq_nil.1, h'.eq_nil.1]
      rfl
    · have hline := h.share_of_line hliteral (by omega)
      have hline' := h'.share_of_line hliteral (by omega)
      obtain ⟨hi, rest, hls, hrest⟩ := h.eq_cons (by omega)
      obtain ⟨hj, rest', hms, hrest'⟩ := h'.eq_cons (by omega)
      obtain ⟨hstart, hpos, -⟩ := lexemeAt_bounds p t d hi
      obtain ⟨hstart', -, -⟩ := lexemeAt_bounds p u e hj
      have hle := hrest.le
      obtain ⟨hkind, ⟨k, hk, hk'⟩ | ⟨hcomment, hnone⟩⟩ :=
        lexemeAt_local hsame hn hdepth hle hrest'.le
      · -- the first lexemes are the same, and what follows is shorter
        have hdepth' : p.parenGuard = true → depthAfter t (lexemeAt p t d i) d =
            depthAfter u (lexemeAt p u e j) e := by
          intro hp
          have hhas := hsame.hasAt_eq (k := 0) hn
          simp only [Nat.add_zero] at hhas
          simp only [depthAfter, hkind, hstart, hstart', hhas]
          rw [hdepth hp]
        have hshare : (lexemeAt p t d i).share literal t = (lexemeAt p u e j).share literal u := by
          simp only [share, hkind, hstart, hstart', hk, hk',
            hsame.slice_eq (show k ≤ n by omega)]
        rw [hk] at hrest hle hpos
        rw [hk'] at hrest'
        have hsplit : ∀ y, y + n = y + k + (n - k) := fun y => by omega
        rw [hsplit i] at hrest
        rw [hsplit j] at hrest'
        rw [hls, hms, List.flatMap_cons, List.flatMap_cons, hshare,
          ih (n - k) (by omega) (hsame.drop (by omega)) hrest hrest' hdepth']
      · -- both are line comments to the end of what is the same
        have hnone' : ∀ k, k < n → u[j + k]? ≠ some '\n' := by
          intro k hk
          rw [← hsame.chars k hk]
          exact hnone k hk
        have hall : ∀ {t : Text} {i : Nat}, (∀ k, k < n → t[i + k]? ≠ some '\n') →
            ∀ y, i ≤ y → y < i + n → t[y]? ≠ some '\n' := by
          intro t i hnone y hiy hy
          obtain ⟨k, rfl⟩ := Nat.exists_eq_add_of_le hiy
          exact hnone k (by omega)
        rw [(hline hcomment (hall hnone)).1, (hline' (hkind ▸ hcomment) (hall hnone')).1,
          hsame.slice_eq (Nat.le_refl n)]

theorem clean_eq {j e e' : Nat} {ms : List Lexeme} (hsame : Same t u i j n)
    (h : Reads p t (i + n) d' i d ls) (h' : Reads p u (j + n) e' j e ms)
    (hdepth : p.parenGuard = true → d = e) :
    ls.flatMap (·.clean t) = ms.flatMap (·.clean u) := by
  simp only [clean_eq_share]
  exact share_eq even_id hsame h h' hdepth

theorem masked_eq {j e e' : Nat} {ms : List Lexeme} (hsame : Same t u i j n)
    (h : Reads p t (i + n) d' i d ls) (h' : Reads p u (j + n) e' j e ms)
    (hdepth : p.parenGuard = true → d = e) :
    ls.flatMap (·.masked t) = ms.flatMap (·.masked u) := by
  simp only [masked_eq_share]
  exact share_eq even_maskLiteral hsame h h' hdepth

end Reads

/-! ## Seams -/

/-- The depth at which lexing from `i` at `depth` gets to `x`, if it stops there. -/
def depthAt? (p : Profile) (t : Text) (x : Nat) : (fuel i depth : Nat) → Option Nat
  | 0, i, depth => if i = x then some depth else none
  | fuel + 1, i, depth =>
    if i = x then some depth
    else if i < t.size then
      let l := lexemeAt p t depth i
      depthAt? p t x fuel l.stop (depthAfter t l depth)
    else none

theorem reads_of_depthAt? {x fuel d d' : Nat} (h : depthAt? p t x fuel i d = some d') :
    ∃ ls, Reads p t x d' i d ls := by
  induction fuel generalizing i d with
  | zero =>
    simp only [depthAt?] at h
    split at h
    · rename_i heq
      cases h
      exact ⟨[], heq ▸ .stop⟩
    · cases h
  | succ fuel ih =>
    simp only [depthAt?] at h
    split at h
    · rename_i heq
      cases h
      exact ⟨[], heq ▸ .stop⟩
    · split at h
      · rename_i hi
        obtain ⟨ls, hls⟩ := ih h
        exact ⟨_, .step hi hls⟩
      · cases h

theorem Reads.depthAt?_eq {x fuel d d' : Nat} {ls : List Lexeme} (h : Reads p t x d' i d ls)
    (hfuel : x ≤ i + fuel) : depthAt? p t x fuel i d = some d' := by
  induction h generalizing fuel with
  | stop => cases fuel <;> simp [depthAt?]
  | @step i d ls hi h ih =>
    obtain ⟨-, hpos, -⟩ := lexemeAt_bounds p t d hi
    have hle := h.le
    cases fuel with
    | zero => omega
    | succ fuel =>
      rw [depthAt?, if_neg (by omega), if_pos hi]
      exact ih (by omega)

end MemberOrder.Lexeme
