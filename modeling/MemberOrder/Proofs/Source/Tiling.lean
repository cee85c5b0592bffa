/-
  The lexemes of a text are consecutive and cover it (`lexemes_tile`), so its companions have its
  length and agree with it lexeme by lexeme.

  For the masked text: code stays (`masked_code`), a comment becomes white space
  (`masked_comment`), and of a literal only its quotes stay, next to line breaks
  (`masked_literal`). The comments of a scanned text are disjoint and in order
  (`comments_ordered`), and white space of the masked text outside of comments is white space of
  the source (`space_of_masked`).
-/
import MemberOrder.Proofs.Text.Offsets
import MemberOrder.Source.Scanned

namespace MemberOrder.Lexeme

/-! ## Where lexemes end -/

theorem literalStop_bounds (p : Profile) (t : Text) (quote : Char) (fuel i : Nat) :
    min i t.size ≤ literalStop p t quote fuel i ∧ literalStop p t quote fuel i ≤ t.size := by
  induction fuel generalizing i with
  | zero => exact ⟨Nat.min_le_right i t.size, Nat.le_refl _⟩
  | succ fuel ih =>
    simp only [literalStop]
    split
    · exact ⟨Nat.min_le_right i t.size, Nat.le_refl _⟩
    · rename_i c hc
      have hi : i < t.size := (Array.getElem?_eq_some_iff.mp hc).1
      split
      · have := ih (i + 2)
        omega
      · split
        · omega
        · split
          · omega
          · have := ih (i + 1)
            omega

theorem blockStop_bounds {t : Text} {i : Nat} (h : t.standsAt i ['/', '*'] = true) :
    i + 2 ≤ blockStop t i ∧ blockStop t i ≤ t.size := by
  have hsize : i + 1 < t.size :=
    (Array.getElem?_eq_some_iff.mp (Text.standsAt_two.mp h).2).1
  unfold blockStop
  split
  · rename_i close hclose
    obtain ⟨h1, -, h3, -⟩ := Text.find?_some hclose
    have := (Array.getElem?_eq_some_iff.mp (Text.standsAt_two.mp h3).2).1
    omega
  · omega

theorem lineStop_bounds {t : Text} {i : Nat} (h : t.standsAt i ['/', '/'] = true) :
    i + 2 ≤ lineStop t i ∧ lineStop t i ≤ t.size := by
  obtain ⟨h0, h1⟩ := Text.standsAt_two.mp h
  have hsize : i + 1 < t.size := (Array.getElem?_eq_some_iff.mp h1).1
  -- two slashes are no line break, so the break comes after them
  have hbreak : i + 2 ≤ (t.find? ['\n'] i).getD t.size ∧ (t.find? ['\n'] i).getD t.size ≤ t.size := by
    cases hf : t.find? ['\n'] i with
    | none => simp only [Option.getD_none]; omega
    | some j =>
      obtain ⟨hj, hlt, hn, -⟩ := Text.find?_some hf
      have hn := Text.standsAt_one.mp hn
      simp only [Option.getD_some]
      refine ⟨?_, by omega⟩
      have hne0 : j ≠ i := by rintro rfl; simp [h0] at hn
      have hne1 : j ≠ i + 1 := by rintro rfl; simp [h1] at hn
      omega
  unfold lineStop
  dsimp only
  split
  · rename_i hr
    rw [Bool.and_eq_true] at hr
    refine ⟨?_, by omega⟩
    -- the carriage return that is left out stands after the slashes as well
    have hr := Text.hasAt_iff.mp hr.2
    have hne : (t.find? ['\n'] i).getD t.size ≠ i + 2 := by
      intro heq
      simp [heq, h1] at hr
    omega
  · exact hbreak

/-- A lexeme starts where it is looked for and ends further on, inside the text. -/
theorem lexemeAt_bounds (p : Profile) (t : Text) (depth : Nat) {i : Nat} (hi : i < t.size) :
    (lexemeAt p t depth i).start = i ∧ i < (lexemeAt p t depth i).stop ∧
      (lexemeAt p t depth i).stop ≤ t.size := by
  unfold lexemeAt
  split
  · exact ⟨rfl, Nat.lt_succ_self i, hi⟩
  · split
    · have := literalStop_bounds p t ‹Char› (t.size - i) (i + 1)
      exact ⟨rfl, by simp only; omega, this.2⟩
    · split
      · have := blockStop_bounds ‹_›
        exact ⟨rfl, by simp only; omega, this.2⟩
      · split
        · rename_i h
          simp only [Bool.and_eq_true] at h
          have := lineStop_bounds h.1.2
          exact ⟨rfl, by simp only; omega, this.2⟩
        · exact ⟨rfl, Nat.lt_succ_self i, hi⟩

/-! ## Tiling -/

/-- The lexemes follow each other without a gap from `i` on to the end of a text of `n`
characters. -/
def Tiles (n : Nat) : (i : Nat) → List Lexeme → Prop
  | i, [] => i = n
  | i, l :: rest => l.start = i ∧ i < l.stop ∧ l.stop ≤ n ∧ Tiles n l.stop rest

theorem lexemesFrom_tile (p : Profile) (t : Text) (fuel i depth : Nat) (hi : i ≤ t.size)
    (hfuel : t.size ≤ i + fuel) : Tiles t.size i (lexemesFrom p t fuel i depth) := by
  induction fuel generalizing i depth with
  | zero => exact Nat.le_antisymm hi hfuel
  | succ fuel ih =>
    simp only [lexemesFrom]
    split
    · rename_i hlt
      obtain ⟨h1, h2, h3⟩ := lexemeAt_bounds p t depth hlt
      exact ⟨h1, h2, h3, ih _ _ h3 (by omega)⟩
    · exact Nat.le_antisymm hi (by omega)

theorem lexemes_tile (p : Profile) (t : Text) : Tiles t.size 0 (lexemes p t) :=
  lexemesFrom_tile p t t.size 0 0 (Nat.zero_le _) (by omega)

example : (lexemes .typescript (Text.ofString "a'b'//c")).map (·.stop) = [1, 4, 7] := by cbv

theorem Tiles.bounds {n i : Nat} {ls : List Lexeme} (h : Tiles n i ls) {l : Lexeme} (hl : l ∈ ls) :
    i ≤ l.start ∧ l.start < l.stop ∧ l.stop ≤ n := by
  induction ls generalizing i with
  | nil => cases hl
  | cons m rest ih =>
    obtain ⟨h1, h2, h3, h4⟩ := h
    rcases List.mem_cons.mp hl with rfl | hl
    · exact ⟨by omega, by omega, h3⟩
    · obtain ⟨b1, b2, b3⟩ := ih h4 hl
      exact ⟨by omega, b2, b3⟩

theorem Tiles.ordered {n i : Nat} {ls : List Lexeme} (h : Tiles n i ls) :
    ls.Pairwise fun a b => a.stop ≤ b.start := by
  induction ls generalizing i with
  | nil => exact List.Pairwise.nil
  | cons m rest ih =>
    obtain ⟨-, -, -, h4⟩ := h
    refine List.Pairwise.cons ?_ (ih h4)
    intro l hl
    exact (h4.bounds hl).1

/-- Every offset is in a lexeme. -/
theorem Tiles.covers {n i : Nat} {ls : List Lexeme} (h : Tiles n i ls) {x : Nat} (hi : i ≤ x)
    (hx : x < n) : ∃ l ∈ ls, l.start ≤ x ∧ x < l.stop := by
  induction ls generalizing i with
  | nil =>
    have : i = n := h
    omega
  | cons m rest ih =>
    obtain ⟨h1, -, -, h4⟩ := h
    by_cases hlt : x < m.stop
    · exact ⟨m, List.mem_cons_self, by omega, hlt⟩
    · obtain ⟨l, hl, hlx⟩ := ih h4 (by omega)
      exact ⟨l, List.mem_cons_of_mem m hl, hlx⟩

/-- Two lexemes that share an offset are one. -/
theorem Tiles.unique {n i : Nat} {ls : List Lexeme} (h : Tiles n i ls) {l m : Lexeme} (hl : l ∈ ls)
    (hm : m ∈ ls) {x : Nat} (hlx : l.start ≤ x ∧ x < l.stop) (hmx : m.start ≤ x ∧ x < m.stop) :
    l = m := by
  induction ls generalizing i with
  | nil => cases hl
  | cons first rest ih =>
    obtain ⟨-, -, -, h4⟩ := h
    rcases List.mem_cons.mp hl with rfl | hl'
    · rcases List.mem_cons.mp hm with rfl | hm'
      · rfl
      · have := (h4.bounds hm').1
        omega
    · rcases List.mem_cons.mp hm with rfl | hm'
      · have := (h4.bounds hl').1
        omega
      · exact ih h4 hl' hm'

theorem Tiles.length_flatMap {n i : Nat} {ls : List Lexeme} (h : Tiles n i ls)
    {f : Lexeme → List Char} (hf : ∀ l ∈ ls, (f l).length = l.stop - l.start) :
    i + (ls.flatMap f).length = n := by
  induction ls generalizing i with
  | nil => exact h
  | cons m rest ih =>
    obtain ⟨h1, h2, h3, h4⟩ := h
    have := ih h4 fun l hl => hf l (List.mem_cons_of_mem m hl)
    rw [List.flatMap_cons, List.length_append, hf m List.mem_cons_self]
    omega

/-- What is joined from lexemes has at an offset what the lexeme there contributes. -/
theorem Tiles.getElem?_flatMap {n i : Nat} {ls : List Lexeme} (h : Tiles n i ls)
    {f : Lexeme → List Char} (hf : ∀ l ∈ ls, (f l).length = l.stop - l.start) {l : Lexeme}
    (hl : l ∈ ls) {x : Nat} (hx : l.start ≤ x) (hlt : x < l.stop) :
    (ls.flatMap f)[x - i]? = (f l)[x - l.start]? := by
  induction ls generalizing i with
  | nil => cases hl
  | cons m rest ih =>
    obtain ⟨h1, h2, h3, h4⟩ := h
    have hm := hf m List.mem_cons_self
    rw [List.flatMap_cons]
    rcases List.mem_cons.mp hl with rfl | hl
    · rw [List.getElem?_append_left (by omega), h1]
    · have hb := h4.bounds hl
      rw [List.getElem?_append_right (by omega), hm,
        ← ih h4 (fun l hl => hf l (List.mem_cons_of_mem m hl)) hl]
      congr 1
      omega

/-- A lexeme of a text is the one that starts at its place, at some depth. -/
theorem eq_lexemeAt_of_mem {p : Profile} {t : Text} {fuel i depth : Nat} {l : Lexeme}
    (hl : l ∈ lexemesFrom p t fuel i depth) :
    l.start < t.size ∧ ∃ depth', l = lexemeAt p t depth' l.start := by
  induction fuel generalizing i depth with
  | zero => simp [lexemesFrom] at hl
  | succ fuel ih =>
    simp only [lexemesFrom] at hl
    split at hl
    · rename_i hlt
      rcases List.mem_cons.mp hl with rfl | hl
      · rw [(lexemeAt_bounds p t depth hlt).1]
        exact ⟨hlt, depth, rfl⟩
      · exact ih hl
    · cases hl

/-! ## The companions -/

theorem length_blank (filler : Char) (cs : List Char) : (blank filler cs).length = cs.length := by
  simp [blank]

theorem length_maskLiteral (cs : List Char) : (maskLiteral cs).length = cs.length := by
  unfold maskLiteral
  split
  · rfl
  · rename_i quote inside
    split
    · rename_i hlast
      have : inside ≠ [] := by rintro rfl; simp at hlast
      have hpos := List.length_pos_iff.mpr this
      simp only [List.cons_append, List.length_cons, List.length_append, length_blank,
        List.length_dropLast, List.length_nil]
      omega
    · simp [length_blank]

theorem length_clean {t : Text} {l : Lexeme} (hl : l.stop ≤ t.size) :
    (l.clean t).length = l.stop - l.start := by
  unfold clean
  split <;> simp [length_blank, Text.length_slice t hl]

theorem length_masked {t : Text} {l : Lexeme} (hl : l.stop ≤ t.size) :
    (l.masked t).length = l.stop - l.start := by
  unfold masked
  split <;> simp [length_blank, length_maskLiteral, Text.length_slice t hl]

end MemberOrder.Lexeme

namespace MemberOrder.Scanned

open Lexeme

variable {p : Profile} {t : Text}

theorem size_masked (p : Profile) (t : Text) : (scan p t).masked.size = t.size := by
  have := (lexemes_tile p t).length_flatMap
    fun l hl => length_masked ((lexemes_tile p t).bounds hl).2.2
  simpa [scan] using this

example : (scan .typescript (Text.ofString "a'b'//c")).masked = Text.ofString "a'_'   " := by cbv

/-- The masked text has at an offset what the lexeme there contributes. -/
theorem getElem?_masked {l : Lexeme} (hl : l ∈ lexemes p t) {x : Nat} (hx : l.start ≤ x)
    (hlt : x < l.stop) : (scan p t).masked[x]? = (l.masked t)[x - l.start]? := by
  have := (lexemes_tile p t).getElem?_flatMap
    (fun l hl => length_masked ((lexemes_tile p t).bounds hl).2.2) hl hx hlt
  simpa [scan] using this

theorem getElem?_clean {l : Lexeme} (hl : l ∈ lexemes p t) {x : Nat} (hx : l.start ≤ x)
    (hlt : x < l.stop) : (scan p t).clean[x]? = (l.clean t)[x - l.start]? := by
  have := (lexemes_tile p t).getElem?_flatMap
    (fun l hl => length_clean ((lexemes_tile p t).bounds hl).2.2) hl hx hlt
  simpa [scan] using this

/-- Whether a lexeme is a comment. -/
def isComment (l : Lexeme) : Bool := l.kind == .lineComment || l.kind == .blockComment

theorem getElem?_slice_of_lexeme {l : Lexeme} {x : Nat} (hx : l.start ≤ x) (hlt : x < l.stop) :
    (t.slice l.start l.stop)[x - l.start]? = t[x]? := by
  rw [Text.getElem?_slice, if_pos (by omega)]
  congr 1
  omega

/-- Code stands in the masked text as it is written. -/
theorem masked_code {l : Lexeme} (hl : l ∈ lexemes p t) (hk : l.kind = .code) {x : Nat}
    (hx : l.start ≤ x) (hlt : x < l.stop) : (scan p t).masked[x]? = t[x]? := by
  rw [getElem?_masked hl hx hlt]
  simp only [Lexeme.masked, hk]
  exact getElem?_slice_of_lexeme hx hlt

/-- Of a comment the masked text keeps the line breaks. -/
theorem getElem?_masked_comment {l : Lexeme} (hl : l ∈ lexemes p t) (hk : isComment l = true)
    {x : Nat} (hx : l.start ≤ x) (hlt : x < l.stop) :
    (scan p t).masked[x]? = t[x]?.map fun c => if c == '\r' || c == '\n' then c else ' ' := by
  have hmask : l.masked t = blank ' ' (t.slice l.start l.stop) := by
    rcases l with ⟨kind, start, stop⟩
    cases kind <;> simp_all [isComment, Lexeme.masked]
  rw [getElem?_masked hl hx hlt, hmask, blank, List.getElem?_map, getElem?_slice_of_lexeme hx hlt]

/-- A comment is white space in the masked text. -/
theorem masked_comment {l : Lexeme} (hl : l ∈ lexemes p t) (hk : isComment l = true) {x : Nat}
    (hx : l.start ≤ x) (hlt : x < l.stop) :
    (scan p t).masked.testAt x Text.isSpace = true := by
  have hsize := ((lexemes_tile p t).bounds hl).2.2
  obtain ⟨c, hc⟩ : ∃ c, t[x]? = some c := ⟨t[x], Array.getElem?_eq_getElem (by omega)⟩
  rw [Text.testAt_iff]
  refine ⟨_, by rw [getElem?_masked_comment hl hk hx hlt, hc]; rfl, ?_⟩
  dsimp only
  split
  · rename_i h
    rw [Bool.or_eq_true, beq_iff_eq, beq_iff_eq] at h
    rcases h with rfl | rfl <;> decide
  · decide

/-- What stands in a literal that is masked: its first character, a last one equal to it, and
line breaks stay. -/
theorem getElem?_maskLiteral {quote c : Char} {inside : List Char} {k : Nat}
    (hc : inside[k]? = some c) :
    (k + 1 = inside.length ∧ c = quote ∧ (maskLiteral (quote :: inside))[k + 1]? = some c) ∨
      ((maskLiteral (quote :: inside))[k + 1]? = some '_') ∨
      ((maskLiteral (quote :: inside))[k + 1]? = some c ∧ (c = '\r' ∨ c = '\n')) := by
  have hk : k < inside.length := (List.getElem?_eq_some_iff.mp hc).1
  -- a blanked character is a filler or a line break that stays
  have hblank : ∀ {cs : List Char}, cs[k]? = some c →
      (blank '_' cs)[k]? = some '_' ∨ ((blank '_' cs)[k]? = some c ∧ (c = '\r' ∨ c = '\n')) := by
    intro cs hcs
    rw [blank, List.getElem?_map, hcs]
    simp only [Option.map_some]
    split
    · rename_i h
      rw [Bool.or_eq_true, beq_iff_eq, beq_iff_eq] at h
      exact Or.inr ⟨rfl, h⟩
    · exact Or.inl rfl
  unfold maskLiteral
  dsimp only
  split
  · rename_i hlast
    rw [beq_iff_eq, List.getLast?_eq_getElem?] at hlast
    have hlen : (blank '_' inside.dropLast).length = inside.length - 1 := by
      rw [length_blank, List.length_dropLast]
    rw [List.cons_append, List.getElem?_cons_succ]
    by_cases hend : k + 1 = inside.length
    · have hcq : c = quote := by
        rw [show inside.length - 1 = k by omega, hc] at hlast
        exact Option.some.inj hlast
      refine Or.inl ⟨hend, hcq, ?_⟩
      rw [List.getElem?_append_right (by omega), hlen, show k - (inside.length - 1) = 0 by omega,
        hcq]
      rfl
    · rw [List.getElem?_append_left (by omega)]
      refine Or.inr (hblank ?_)
      rw [List.getElem?_dropLast, if_pos (by omega), hc]
  · rw [List.getElem?_cons_succ]
    exact Or.inr (hblank hc)

/-- In the masked text a literal keeps its first character, a last one equal to it, and line
breaks; everything else in it becomes a filler. -/
theorem masked_literal {l : Lexeme} (hl : l ∈ lexemes p t) (hk : l.kind = .literal) {x : Nat}
    (hx : l.start ≤ x) (hlt : x < l.stop) :
    (x = l.start ∧ (scan p t).masked[x]? = t[x]?) ∨
      (l.start < x ∧ x + 1 = l.stop ∧ t[x]? = t[l.start]? ∧ (scan p t).masked[x]? = t[x]?) ∨
      (l.start < x ∧ (scan p t).masked[x]? = some '_') ∨
      (l.start < x ∧ (scan p t).masked[x]? = t[x]? ∧ (t[x]? = some '\r' ∨ t[x]? = some '\n')) := by
  obtain ⟨-, hlen, hsize⟩ := (lexemes_tile p t).bounds hl
  have hget : ∀ y, l.start ≤ y → y < l.stop → (t.slice l.start l.stop)[y - l.start]? = t[y]? :=
    fun y h1 h2 => getElem?_slice_of_lexeme h1 h2
  have hlength := Text.length_slice t (a := l.start) hsize
  rw [getElem?_masked hl hx hlt]
  simp only [Lexeme.masked, hk]
  obtain ⟨quote, inside, hcs⟩ : ∃ quote inside, t.slice l.start l.stop = quote :: inside := by
    cases hcs : t.slice l.start l.stop with
    | nil => rw [hcs] at hlength; simp at hlength; omega
    | cons quote inside => exact ⟨quote, inside, rfl⟩
  have hfirst : t[l.start]? = some quote := by
    rw [← hget l.start (Nat.le_refl _) hlen, hcs, Nat.sub_self]
    rfl
  rw [hcs] at hlength
  rw [hcs]
  rcases Nat.eq_or_lt_of_le hx with rfl | hx'
  · refine Or.inl ⟨rfl, ?_⟩
    rw [Nat.sub_self, hfirst]
    unfold maskLiteral
    dsimp only
    split <;> rfl
  · obtain ⟨c, hc⟩ : ∃ c, t[x]? = some c := ⟨t[x], Array.getElem?_eq_getElem (by omega)⟩
    have hin : inside[x - l.start - 1]? = some c := by
      rw [← hc, ← hget x hx hlt, hcs]
      rw [show x - l.start = (x - l.start - 1) + 1 by omega, List.getElem?_cons_succ]
      rfl
    have hsucc : x - l.start = (x - l.start - 1) + 1 := by omega
    rw [hsucc, hc, hfirst]
    rw [List.length_cons] at hlength
    rcases getElem?_maskLiteral hin with ⟨h1, h2, h3⟩ | h | ⟨h1, h2⟩
    · exact Or.inr (Or.inl ⟨hx', by omega, by rw [h2], h3⟩)
    · exact Or.inr (Or.inr (Or.inl ⟨hx', h⟩))
    · refine Or.inr (Or.inr (Or.inr ⟨hx', h1, ?_⟩))
      rcases h2 with rfl | rfl
      · exact Or.inl rfl
      · exact Or.inr rfl

/-! ## The comments -/

/-- The comment that a lexeme stands for covers its offsets. -/
theorem comment?_some {ls : Lines} {l : Lexeme} {c : Comment} (h : l.comment? t ls = some c) :
    c.offset = l.start ∧ c.stop = l.stop ∧ isComment l = true := by
  rcases l with ⟨kind, start, stop⟩
  cases kind <;> simp only [comment?, Option.some.injEq, reduceCtorEq] at h
  all_goals
    subst h
    exact ⟨rfl, rfl, rfl⟩

/-- The comments of a scanned text are disjoint and in order. -/
theorem comments_ordered (p : Profile) (t : Text) :
    (scan p t).comments.Pairwise fun a b => a.stop ≤ b.offset := by
  have hls := (lexemes_tile p t).ordered
  refine List.Pairwise.filterMap _ ?_ hls
  intro l m hlm a ha b hb
  obtain ⟨-, ha, -⟩ := comment?_some ha
  obtain ⟨hb, -, -⟩ := comment?_some hb
  omega

theorem comment_of_scan {c : Comment} (h : c ∈ (scan p t).comments) :
    ∃ l ∈ lexemes p t, isComment l = true ∧ c.offset = l.start ∧ c.stop = l.stop := by
  obtain ⟨l, hl, hc⟩ := List.mem_filterMap.mp h
  obtain ⟨h1, h2, h3⟩ := comment?_some hc
  exact ⟨l, hl, h3, h1, h2⟩

theorem comment_bounds {c : Comment} (h : c ∈ (scan p t).comments) :
    c.offset < c.stop ∧ c.stop ≤ t.size := by
  obtain ⟨l, hl, -, h1, h2⟩ := comment_of_scan h
  have := (lexemes_tile p t).bounds hl
  omega

/-- The line of a comment is that of its first character. -/
theorem line_of_comment {c : Comment} (h : c ∈ (scan p t).comments) :
    c.line = (scan p t).lineAt c.offset := by
  obtain ⟨l, -, hc⟩ := List.mem_filterMap.mp h
  rcases l with ⟨kind, start, stop⟩
  cases kind <;> simp only [comment?, Option.some.injEq, reduceCtorEq] at hc
  all_goals
    subst hc
    rfl

/-- A comment starts with a slash. -/
theorem slash_of_comment {c : Comment} (h : c ∈ (scan p t).comments) : t[c.offset]? = some '/' := by
  obtain ⟨l, hl, hk, h1, -⟩ := comment_of_scan h
  obtain ⟨hlt, depth, heq⟩ := eq_lexemeAt_of_mem hl
  rw [h1]
  rw [heq] at hk
  unfold lexemeAt at hk
  split at hk
  · cases hk
  · split at hk
    · cases hk
    · split at hk
      · rename_i hblock
        exact (Text.standsAt_two.mp hblock).1
      · split at hk
        · rename_i hline
          simp only [Bool.and_eq_true] at hline
          exact (Text.standsAt_two.mp hline.1.2).1
        · cases hk

theorem masked_in_comment {c : Comment} (h : c ∈ (scan p t).comments) {x : Nat}
    (hx : c.offset ≤ x) (hlt : x < c.stop) : (scan p t).masked.testAt x Text.isSpace = true := by
  obtain ⟨l, hl, hk, h1, h2⟩ := comment_of_scan h
  exact masked_comment hl hk (by omega) (by omega)

/-- White space of the masked text is white space of the source, or lies in a comment. -/
theorem space_of_masked {x : Nat} (h : (scan p t).masked.testAt x Text.isSpace = true) :
    t.testAt x Text.isSpace = true ∨ ∃ c ∈ (scan p t).comments, c.offset ≤ x ∧ x < c.stop := by
  obtain ⟨ch, hch, hspace⟩ := Text.testAt_iff.mp h
  have hx : x < t.size := by
    rw [← size_masked p t]
    exact (Array.getElem?_eq_some_iff.mp hch).1
  obtain ⟨l, hl, h1, h2⟩ := (lexemes_tile p t).covers (Nat.zero_le x) hx
  by_cases hsame : (scan p t).masked[x]? = t[x]?
  · exact Or.inl (Text.testAt_iff.mpr ⟨ch, by rw [← hsame, hch], hspace⟩)
  · right
    cases hk : l.kind with
    | code => exact absurd (masked_code hl hk h1 h2) hsame
    | literal =>
      -- a filler is no white space
      rcases masked_literal hl hk h1 h2 with ⟨-, h⟩ | ⟨-, -, -, h⟩ | ⟨-, h⟩ | ⟨-, h, -⟩
      · exact absurd h hsame
      · exact absurd h hsame
      · rw [hch, Option.some.injEq] at h
        subst h
        exact absurd hspace (by decide)
      · exact absurd h hsame
    | lineComment | blockComment =>
      refine ⟨_, List.mem_filterMap.mpr ⟨l, hl, by simp only [comment?, hk]; rfl⟩, h1, h2⟩

/-- A character of the masked text that is neither white space nor the filler is the source's. -/
theorem source_of_masked {x : Nat} {c : Char} (h : (scan p t).masked[x]? = some c)
    (hspace : Text.isSpace c = false) (hfiller : c ≠ '_') : t[x]? = some c := by
  have hx : x < t.size := by
    rw [← size_masked p t]
    exact (Array.getElem?_eq_some_iff.mp h).1
  obtain ⟨l, hl, h1, h2⟩ := (lexemes_tile p t).covers (Nat.zero_le x) hx
  have hcomment : isComment l = false := by
    refine Bool.eq_false_iff.mpr fun hk => ?_
    have := masked_comment hl hk h1 h2
    rw [Text.testAt_of_getElem? h, hspace] at this
    cases this
  cases hk : l.kind with
  | code => rw [← masked_code hl hk h1 h2, h]
  | literal =>
    rcases masked_literal hl hk h1 h2 with ⟨-, h'⟩ | ⟨-, -, -, h'⟩ | ⟨-, h'⟩ | ⟨-, h', -⟩
    · rw [← h', h]
    · rw [← h', h]
    · rw [h, Option.some.injEq] at h'
      exact absurd h' hfiller
    · rw [← h', h]
  | lineComment | blockComment => simp [isComment, hk] at hcomment

end MemberOrder.Scanned
