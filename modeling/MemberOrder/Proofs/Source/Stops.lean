/-
  Where lexing of a text stops.

  It stops at the end of the text, before and after a character of code (`stops_of_code`), and at each
  boundary next to a character that the masked text shows (`Boundary.stops`). A `Region` lies between two
  such stops. If code follows it or comes last in it, it has a seam after it wherever it is copied to
  (`Region.seam`); without literals its packed code is what the masked text shows
  (`Region.packedCode_of_unquoted`).
-/
import MemberOrder.Proofs.Source.Seams

namespace MemberOrder.Scanned

open Lexeme

variable {p : Profile} {t : Text} {i j x y : Nat}

/-! ## Stops -/

/-- Lexing of a text stops at an offset. -/
def Stops (p : Profile) (t : Text) (x : Nat) : Prop := ∃ d ls, Reads p t x d 0 0 ls

theorem reads_of_between {fuel d : Nat} (hfuel : t.size ≤ i + fuel) (hix : i ≤ x) (hx : x ≤ t.size)
    (h : ∀ l ∈ lexemesFrom p t fuel i d, ¬(l.start < x ∧ x < l.stop)) :
    ∃ d' ls, Reads p t x d' i d ls := by
  induction fuel generalizing i d with
  | zero =>
    obtain rfl : i = x := by omega
    exact ⟨d, [], .stop⟩
  | succ fuel ih =>
    rcases Nat.eq_or_lt_of_le hix with rfl | hlt
    · exact ⟨d, [], .stop⟩
    · have hi : i < t.size := by omega
      obtain ⟨hstart, hpos, -⟩ := lexemeAt_bounds p t d hi
      simp only [lexemesFrom, if_pos hi, List.forall_mem_cons] at h
      obtain ⟨d', ls, hls⟩ := ih (by omega) (by omega) h.2
      exact ⟨d', _, .step hi hls⟩

/-- Lexing stops between lexemes. -/
theorem stops_of_between (hx : x ≤ t.size) (h : ∀ l ∈ lexemes p t, ¬(l.start < x ∧ x < l.stop)) :
    Stops p t x := reads_of_between (Nat.le_add_left _ _) (Nat.zero_le x) hx h

/-- Lexing stops at a boundary that no comment runs over. -/
theorem Boundary.stops (hb : Boundary p t x) (hx : x ≤ t.size) (hy : y = x ∨ y + 1 = x)
    (hcode : (scan p t).masked.testAt y Text.isSpace = false) : Stops p t x := by
  refine stops_of_between hx fun l hl hin => ?_
  cases hk : l.kind with
  | code =>
    have := (code_of_lexeme hl hk).1
    omega
  | literal => exact hb l hl hk hin
  | lineComment | blockComment =>
    have := masked_comment (x := y) hl (by simp [isComment, hk]) (by omega) (by omega)
    rw [hcode] at this
    cases this

/-- Lexing stops before and after a character of code. -/
theorem stops_of_code {c : Char} (h : (scan p t).masked[x]? = some c) (hspace : Text.isSpace c = false)
    (hfiller : c ≠ '_') (hquote : p.quotes.contains c = false) :
    Stops p t x ∧ Stops p t (x + 1) := by
  obtain ⟨l, hl, hk, rfl⟩ := lexeme_of_code h hspace hfiller hquote
  have hstop := (code_of_lexeme hl hk).1
  have hbounds := (lexemes_tile p t).bounds hl
  have hself : ∀ m ∈ lexemes p t, m.start ≤ l.start → l.start < m.stop → m = l := fun m hm h1 h2 =>
    (lexemes_tile p t).unique hm hl ⟨h1, h2⟩ ⟨Nat.le_refl _, hbounds.2.1⟩
  refine ⟨stops_of_between (by omega) fun m hm hin => ?_, stops_of_between (by omega) fun m hm hin => ?_⟩
  · have := hself m hm (by omega) hin.2
    rw [this] at hin
    omega
  · have := hself m hm (by omega) (by omega)
    rw [this] at hin
    omega

/-- The place after a character that is no quote is a boundary if the place before it is. -/
theorem Boundary.succ (hb : Boundary p t x)
    (h : ∀ q, (scan p t).masked[x]? = some q → p.quotes.contains q = false) : Boundary p t (x + 1) := by
  rintro l hl hk ⟨h1, h2⟩
  have heq : x = l.start := by
    have := hb l hl hk
    omega
  obtain ⟨q, hget, hquote, -⟩ := quote_of_literal hl hk
  rcases masked_literal hl hk (x := x) (by omega) (by omega) with ⟨-, h'⟩ | ⟨h', -⟩ | ⟨h', -⟩ | ⟨h', -⟩
  · rw [heq, hget] at h'
    rw [heq] at h
    rw [h q h'] at hquote
    cases hquote
  all_goals omega

/-- At a boundary, the code that the masked text shows is the source's. -/
theorem Boundary.source_of_code (hb : Boundary p t x) {c : Char} (h : (scan p t).masked[x]? = some c)
    (hspace : Text.isSpace c = false) : t[x]? = some c := by
  have hx : x < t.size := by
    rw [← size_masked p t]
    exact Text.lt_size_of_getElem? h
  obtain ⟨l, hl, h1, h2⟩ := (lexemes_tile p t).covers (Nat.zero_le x) hx
  cases hk : l.kind with
  | code => rw [← masked_code hl hk h1 h2, h]
  | literal =>
    -- the literal starts here, and shows its quote
    have := hb l hl hk
    rcases masked_literal hl hk h1 h2 with ⟨-, h'⟩ | ⟨h', -⟩ | ⟨h', -⟩ | ⟨h', -⟩
    · rw [← h', h]
    all_goals omega
  | lineComment | blockComment =>
    have := masked_comment hl (by simp [isComment, hk]) h1 h2
    rw [Text.testAt_of_getElem? h, hspace] at this
    cases this

theorem Boundary.of_unquoted (hb : Boundary p t i) (hij : i ≤ j)
    (h : ∀ x, i ≤ x → x < j → ∀ q, (scan p t).masked[x]? = some q → p.quotes.contains q = false) :
    Boundary p t j := by
  obtain ⟨n, rfl⟩ := Nat.exists_eq_add_of_le hij
  induction n with
  | zero => exact hb
  | succ n ih =>
    exact (ih (by omega) fun x h1 h2 => h x h1 (by omega)).succ (h (i + n) (by omega) (by omega))

/-- No quote stands where all characters belong to a class without quotes. -/
theorem unquoted_of_class {u : Text} {test : Char → Bool} (hquotes : ∀ q ∈ p.quotes, test q = false)
    (h : ∀ x, i ≤ x → x < j → u.testAt x test = true) :
    ∀ x, i ≤ x → x < j → ∀ q, u[x]? = some q → p.quotes.contains q = false := by
  intro x h1 h2 q hq
  have hin := h x h1 h2
  rw [Text.testAt_of_getElem? hq] at hin
  refine Bool.eq_false_iff.mpr fun hquote => ?_
  rw [hquotes q (List.contains_iff_mem.mp hquote)] at hin
  cases hin

/-- Bare characters that the masked text shows from a boundary on are those of the source. -/
theorem Boundary.bare (hb : Boundary p t i)
    (h : ∀ x, i ≤ x → x < j → (scan p t).masked.testAt x (isBare p) = true) :
    ∀ c ∈ t.slice i j, isBare p c = true := by
  intro c hc
  obtain ⟨x, h1, h2, hx⟩ := Text.mem_slice.mp hc
  have hx' : Boundary p t x := hb.of_unquoted h1 fun y hy1 hy2 q hq => by
    have hbare := h y hy1 (by omega)
    rw [Text.testAt_of_getElem? hq] at hbare
    exact (plain_of_isBare hbare).1
  obtain ⟨d, hd, hbare⟩ := Text.testAt_iff.mp (h x h1 h2)
  rw [hx'.source_of_code hd (isSpace_of_isBare hbare), Option.some.injEq] at hx
  exact hx ▸ hbare

/-- No lexeme runs over a stop. -/
theorem Stops.apart (h : Stops p t x) : ∀ l ∈ lexemes p t, ¬(l.start < x ∧ x < l.stop) := by
  obtain ⟨d, ls, hls⟩ := h
  rintro l hl ⟨h1, h2⟩
  obtain ⟨fuel, heq, hfuel⟩ := hls.lexemesFrom_eq (Nat.le_add_left t.size 0)
  rw [lexemes, heq] at hl
  rcases List.mem_append.mp hl with hl | hl
  · have := (hls.bounds hl).2.2
    omega
  · have := ((lexemesFrom_tile p t fuel x d (hls.le_size (Nat.zero_le _)) hfuel).bounds hl).1
    omega

/-- No literal runs over a stop. -/
theorem Stops.boundary (h : Stops p t x) : Boundary p t x := fun l hl _ => h.apart l hl

/-- Lexing passes over a text that is read as a whole. -/
theorem Stops.pass {c : Char} (h : Stops p t i) (hij : i ≤ j) (hj : j ≤ t.size)
    (hseam : Seam p (t.slice i j) [c]) (hc : Text.isSpace c = false)
    (hlast : (t.slice i j).getLast? ≠ some '/') (hopen : p.parenGuard = false) : Stops p t j := by
  obtain ⟨d, before, hbefore⟩ := h
  have hlength := Text.length_slice t (a := i) hj
  have hsame : Same (t.slice i j).toArray t 0 i (t.slice i j).length := by
    refine ⟨by simp, by omega, fun k hk => ?_⟩
    rw [Nat.zero_add, List.getElem?_toArray, Text.getElem?_slice, if_pos (by omega)]
  obtain ⟨e, ls, hls, -⟩ := hseam.reads (e := d) hc hlast hsame fun hp => absurd (hopen.symm.trans hp) nofun
  rw [hlength, Nat.add_sub_cancel' hij] at hls
  exact ⟨e, _, hbefore.trans hls⟩

/-- The code from which on a text is not empty. -/
theorem code_of_slice_nextCode {v b : Nat} (hv : v = (scan p t).nextCode i b) (h : t.slice v b ≠ []) :
    v < b ∧ ∃ c, (scan p t).masked[v]? = some c ∧ Text.isSpace c = false := by
  subst hv
  obtain ⟨c, hc⟩ := List.exists_mem_of_ne_nil _ h
  obtain ⟨x, h1, h2, hx⟩ := Text.mem_slice.mp hc
  have hlt : (scan p t).masked.nextCode i b < b := Nat.lt_of_le_of_lt h1 h2
  have hsize : (scan p t).masked.nextCode i b < (scan p t).masked.size := by
    rw [size_masked]
    exact Nat.lt_of_le_of_lt h1 (Text.lt_size_of_getElem? hx)
  have hcode : (scan p t).masked.testAt _ Text.isSpace = false := Text.code_at_nextCode hlt
  have hget := Array.getElem?_eq_getElem hsize
  rw [Text.testAt_of_getElem? hget] at hcode
  exact ⟨hlt, _, hget, hcode⟩

/-- A text is sealed: in front of a colon no literal and no comment of it goes on, and it does
not end with a slash, which what follows could make the start of a comment. -/
structure Sealed (p : Profile) (cs : List Char) : Prop where
  seam : Seam p cs [':']
  last : cs.getLast? ≠ some '/'

/-- What is sealed has a seam after it in front of anything. -/
theorem Sealed.anywhere {cs : List Char} (h : Sealed p cs) (ds : List Char) : Seam p cs ds :=
  h.seam.anywhere (by decide) h.last ds

/-- Lexing passes over what is sealed. -/
theorem Sealed.stops (h : Sealed p (t.slice i j)) (hi : Stops p t i) (hij : i ≤ j) (hj : j ≤ t.size)
    (hopen : p.parenGuard = false) : Stops p t j :=
  hi.pass hij hj h.seam (by decide) h.last hopen

instance (p : Profile) (cs ds : List Char) : Decidable (Seam p cs ds) :=
  decidable_of_iff (∃ d ∈ depthAt? p (cs ++ ds).toArray cs.length cs.length 0 0, p.parenGuard = true → d = 0) <| by
    constructor
    · rintro ⟨d, hd, hguard⟩
      obtain ⟨ls, hls⟩ := reads_of_depthAt? (Option.mem_def.mp hd)
      exact ⟨d, ls, hls, hguard⟩
    · rintro ⟨d, ls, hls, hguard⟩
      exact ⟨d, hls.depthAt?_eq (by omega), hguard⟩

instance (p : Profile) (cs : List Char) : Decidable (Sealed p cs) :=
  decidable_of_iff (Seam p cs [':'] ∧ cs.getLast? ≠ some '/') ⟨fun h => ⟨h.1, h.2⟩, fun h => ⟨h.1, h.2⟩⟩

/-! ## Regions -/

/-- A region between two stops of lexing, after which code follows or in which it comes last. Where
parentheses count, it holds none, and no slash. -/
structure Region (p : Profile) (t : Text) (i j : Nat) : Prop where
  le : i ≤ j
  starts : Stops p t i
  stops : Stops p t j
  settled : (∃ c, t[j]? = some c ∧ Text.isSpace c = false) ∨
    ∃ l ∈ lexemes p t, l.kind = .code ∧ l.stop = j ∧ ∃ c, t[l.start]? = some c ∧ Text.isSpace c = false
  quiet : p.parenGuard = true → ∀ x, i ≤ x → x < j → ∀ c, (scan p t).masked[x]? = some c →
    c ≠ '/' ∧ c ≠ '(' ∧ c ≠ ')'

theorem Region.le_size (h : Region p t i j) : j ≤ t.size := by
  obtain ⟨d, ls, hls⟩ := h.stops
  exact hls.le_size (Nat.zero_le _)

/-- A region is read in the same way in a copy of it. -/
theorem Region.reads (h : Region p t i j) {u : Text} {k e : Nat} (hsame : Same t u i k (j - i))
    (he : p.parenGuard = true → e = 0)
    (hslash : (i < j → (scan p t).masked[j - 1]? ≠ some '/') ∨
      u[k + (j - i)]? ≠ some '/' ∧ u[k + (j - i)]? ≠ some '*') :
    ∃ e' ms, Reads p u (k + (j - i)) e' k e ms ∧
      ms.flatMap (·.clean u) = (scan p t).clean.slice i j ∧ (p.parenGuard = true → e' = 0) := by
  obtain ⟨d, before, hbefore⟩ := h.starts
  obtain ⟨d', all, hall⟩ := h.stops
  obtain ⟨ls, rfl, hls⟩ := hbefore.rest hall h.le
  have hmem : ∀ l ∈ ls, l ∈ lexemes p t := hbefore.mem_lexemes hls
  -- a character of code is shown by the masked text
  have hshown : ∀ l ∈ ls, l.kind = .code → l.stop = l.start + 1 ∧
      (scan p t).masked[l.start]? = t[l.start]? := fun l hl hk =>
    have hbounds := (lexemes_tile p t).bounds (hmem l hl)
    ⟨(code_of_lexeme (hmem l hl) hk).1, masked_code (hmem l hl) hk (Nat.le_refl _) hbounds.2.1⟩
  have hsettled : ∀ l ∈ ls, Settled t j l.kind l.stop := by
    intro l hl
    refine h.settled.imp_right ?_
    rintro ⟨last, hlast, hk, hstop, c, hc, hspace⟩
    have hlong := (code_of_lexeme hlast hk).1
    refine ⟨⟨c, by rw [← hstop, hlong]; exact hc, hspace⟩, fun hend => ?_⟩
    have hbounds := (lexemes_tile p t).bounds (hmem l hl)
    rw [(lexemes_tile p t).unique (hmem l hl) hlast (x := last.start) ⟨by omega, by omega⟩
      ⟨Nat.le_refl _, by omega⟩]
    exact hk
  have hlastSlash : (∀ l ∈ ls, l.kind = .code → l.stop = j → t[l.start]? ≠ some '/') ∨
      u[k + (j - i)]? ≠ some '/' ∧ u[k + (j - i)]? ≠ some '*' := by
    refine hslash.imp_left fun hno l hl hk hend => ?_
    obtain ⟨hlong, hmasked⟩ := hshown l hl hk
    have := (hls.bounds hl).1
    rw [← hmasked, show l.start = j - 1 by omega]
    exact hno (by omega)
  have hquiet : p.parenGuard = true → Quiet t ls := by
    intro hp l hl hk
    obtain ⟨-, hmasked⟩ := hshown l hl hk
    obtain ⟨h1, h2, h3⟩ := hls.bounds hl
    rw [← hmasked]
    have hquiet := h.quiet hp l.start h1 (by omega)
    exact ⟨fun hc => (hquiet _ hc).1 rfl, fun hc => (hquiet _ hc).2.1 rfl, fun hc => (hquiet _ hc).2.2 rfl⟩
  obtain ⟨e', ms, hms, hclean, hout⟩ := hls.carry hsame hsettled hlastSlash
    fun hp => Or.inr ⟨he hp, hquiet hp⟩
  exact ⟨e', ms, hms, by rw [hclean, hbefore.slice_clean hls], fun hp => (hout hp).2 (he hp) (hquiet hp)⟩

/-- There is a seam after a copy of a region. -/
theorem Region.seam (h : Region p t i j) {ds : List Char}
    (hslash : (i < j → (scan p t).masked[j - 1]? ≠ some '/') ∨
      ds.head? ≠ some '/' ∧ ds.head? ≠ some '*') :
    Seam p (t.slice i j) ds := by
  have hlength := Text.length_slice t (a := i) h.le_size
  have hle := h.le
  have hsize := h.le_size
  have hij : i + (j - i) = j := by omega
  have hsame : Same t (t.slice i j ++ ds).toArray i 0 (j - i) := by
    refine Same.of_slice ?_ (by omega) (by simp [hlength])
    rw [hij, Nat.zero_add, Text.slice_eq_take_drop (t.slice i j ++ ds).toArray]
    simp [hlength]
  have hnext : (t.slice i j ++ ds).toArray[0 + (j - i)]? = ds.head? := by
    rw [Nat.zero_add, List.getElem?_toArray, List.getElem?_append_right (by omega), hlength, Nat.sub_self,
      List.head?_eq_getElem?]
  obtain ⟨e', ms, hms, -, hout⟩ := h.reads (e := 0) hsame (fun _ => rfl) (by rwa [hnext])
  refine ⟨e', ms, ?_, hout⟩
  rw [hlength]
  rwa [Nat.zero_add] at hms

/-- The packed code of a region is what is left of it in the text without comments. -/
theorem Region.packedCode_eq (h : Region p t i j) :
    packedCode p (t.slice i j) = pack ((scan p t).clean.slice i j) := by
  have hlength := Text.length_slice t (a := i) h.le_size
  have hle := h.le
  have hsize := h.le_size
  have hij : i + (j - i) = j := by omega
  have hsame : Same t (t.slice i j).toArray i 0 (j - i) := by
    refine Same.of_slice ?_ (by omega) (by simp [hlength])
    rw [hij, Nat.zero_add, Text.slice_eq_take_drop (t.slice i j).toArray]
    exact (List.take_of_length_le (by simp [hlength])).symm
  obtain ⟨e', ms, hms, hclean, -⟩ := h.reads (e := 0) hsame (fun _ => rfl)
    (Or.inr (by simp [hlength]))
  rw [Nat.zero_add, ← hlength] at hms
  rw [hms.packedCode_eq, hclean]

/-- Where no quote stands, the text without comments is what the masked text shows. -/
theorem slice_clean_of_unquoted (hb : Boundary p t i)
    (h : ∀ x, i ≤ x → x < j → ∀ q, (scan p t).masked[x]? = some q → p.quotes.contains q = false) :
    (scan p t).clean.slice i j = (scan p t).masked.slice i j := by
  apply List.ext_getElem?
  intro k
  rw [Text.getElem?_slice, Text.getElem?_slice]
  split
  · rename_i hk
    by_cases hx : i + k < t.size
    · obtain ⟨l, hl, h1, h2⟩ := (lexemes_tile p t).covers (Nat.zero_le _) hx
      rw [getElem?_clean hl h1 h2, getElem?_masked hl h1 h2]
      cases hk' : l.kind with
      | literal =>
        -- it would show its quote in the region
        have hin : i ≤ l.start := Nat.le_of_not_lt fun hlt => by
          have := hb.of_unquoted (Nat.le_add_right i k) (fun x hx hxk => h x hx (by omega)) l hl hk'
          have := hb l hl hk'
          omega
        obtain ⟨q, hget, hquote, -⟩ := quote_of_literal hl hk'
        have hfirst := masked_literal hl hk' (x := l.start) (Nat.le_refl _) (by omega)
        rcases hfirst with ⟨-, h'⟩ | ⟨h', -⟩ | ⟨h', -⟩ | ⟨h', -⟩
        · rw [h l.start hin (by omega) q (h'.trans hget)] at hquote
          cases hquote
        all_goals omega
      | code | lineComment | blockComment => simp only [Lexeme.clean, Lexeme.masked, hk']
    · rw [Array.getElem?_eq_none (by rw [size_clean]; omega),
        Array.getElem?_eq_none (by rw [size_masked]; omega)]
  · rfl

/-- The packed code of a region without quotes is what the masked text shows of it. -/
theorem Region.packedCode_of_unquoted (h : Region p t i j)
    (hunquoted : ∀ x, i ≤ x → x < j → ∀ q, (scan p t).masked[x]? = some q →
      p.quotes.contains q = false) :
    packedCode p (t.slice i j) = pack ((scan p t).masked.slice i j) := by
  rw [h.packedCode_eq, slice_clean_of_unquoted h.starts.boundary hunquoted]

/-- What is shown in front of code, without quotes, slashes and parentheses, is a part of its own. -/
theorem Stops.packedCode_before {test : Char → Bool} {c : Char} {b : Nat} (h : Stops p t i) (hij : i ≤ j)
    (htest : ∀ d ∈ p.quotes ++ ['/', '(', ')'], test d = false)
    (hshown : ∀ x, i ≤ x → x < j → (scan p t).masked.testAt x test = true)
    (hcode : (scan p t).masked[j]? = some c) (hspace : Text.isSpace c = false) (hjb : j ≤ b) :
    Stops p t j ∧
      packedCode p (t.slice i b) = pack ((scan p t).masked.slice i j) ++ packedCode p (t.slice j b) := by
  have hunquoted := unquoted_of_class (p := p) (fun q hq => htest q (List.mem_append_left _ hq)) hshown
  have hb : Boundary p t j := h.boundary.of_unquoted hij hunquoted
  have hsource := hb.source_of_code hcode hspace
  have hstops : Stops p t j := hb.stops (Nat.le_of_lt (Text.lt_size_of_getElem? hsource)) (Or.inl rfl)
    (by rw [Text.testAt_of_getElem? hcode, hspace])
  have hne : ∀ d ∈ ['/', '(', ')'], ∀ x, i ≤ x → x < j → (scan p t).masked[x]? ≠ some d := by
    intro d hd x h1 h2 hx
    have hin := hshown x h1 h2
    rw [Text.testAt_of_getElem? hx, htest d (List.mem_append_right _ hd)] at hin
    cases hin
  have hregion : Region p t i j := by
    refine ⟨hij, h, hstops, Or.inl ⟨c, hsource, hspace⟩, fun _ x h1 h2 d hd => ?_⟩
    refine ⟨?_, ?_, ?_⟩ <;> rintro rfl <;> exact hne _ (by simp) x h1 h2 hd
  have hseam : Seam p (t.slice i j) (t.slice j b) :=
    hregion.seam (Or.inl fun hlt => hne '/' (by simp) (j - 1) (by omega) (by omega))
  refine ⟨hstops, ?_⟩
  rw [← Text.slice_append t hij hjb, packedCode_append hseam, hregion.packedCode_of_unquoted hunquoted]

end MemberOrder.Scanned
