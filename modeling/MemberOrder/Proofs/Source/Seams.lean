/-
  Texts that are lexed one after the other.

  There is a `Seam` between two texts when lexing of the first followed by the second stops in between.
  Then the packed code of both, which is what is left without comments and white space, is that of the
  first and that of the second (`packedCode_append`).

  Where lexing of a text stops at both ends of a region and code follows or comes last, the region is
  read in the same way wherever it is copied to (`Reads.carry`), so it has a seam after it there
  (`Region.seam`), and without literals its packed code is what the masked text shows
  (`Region.packedCode_eq`).
-/
import MemberOrder.Proofs.Source.Literals
import MemberOrder.Proofs.Source.Regions
import MemberOrder.Proofs.Text.Packed

namespace MemberOrder.Lexeme

variable {p : Profile} {t u : Text} {i j n x y d d' e : Nat} {ls ms : List Lexeme}

/-! ## Reading on -/

/-- Lexing always gets to the end of a text. -/
theorem exists_reads_end (p : Profile) {t : Text} {i : Nat} (hi : i ≤ t.size) (d : Nat) :
    ∃ d' ls, Reads p t t.size d' i d ls := by
  obtain ⟨n, hn⟩ := Nat.exists_eq_add_of_le hi
  induction n using Nat.strongRecOn generalizing i d with
  | ind n ih =>
    rcases Nat.eq_or_lt_of_le hi with rfl | hlt
    · exact ⟨d, [], .stop⟩
    · obtain ⟨-, hpos, hstop⟩ := lexemeAt_bounds p t d hlt
      obtain ⟨d', ls, hls⟩ := ih (t.size - (lexemeAt p t d i).stop) (by omega) hstop
        (depthAfter t (lexemeAt p t d i) d) (by omega)
      exact ⟨d', _, .step hlt hls⟩

/-- Lexing that stops at two offsets gets from the first to the second. -/
theorem Reads.rest (h : Reads p t x d' i d ls) (h' : Reads p t y e i d ms) (hxy : x ≤ y) :
    ∃ ns, ms = ls ++ ns ∧ Reads p t y e x d' ns := by
  induction h generalizing ms with
  | stop => exact ⟨ms, rfl, h'⟩
  | @step i d ls hi h ih =>
    obtain ⟨-, hpos, -⟩ := lexemeAt_bounds p t d hi
    have := h.le
    cases h' with
    | stop => omega
    | step _ h' =>
      obtain ⟨ns, rfl, hns⟩ := ih h'
      exact ⟨ns, rfl, hns⟩

theorem Reads.trans (h : Reads p t x d' i d ls) (h' : Reads p t y e x d' ms) :
    Reads p t y e i d (ls ++ ms) := by
  induction h with
  | stop => exact h'
  | step hi _ ih => exact .step hi ih

/-- What is read of a text is among its lexemes. -/
theorem Reads.mem_lexemes (h : Reads p t x d 0 0 ms) (h' : Reads p t y d' x d ls) :
    ∀ l ∈ ls, l ∈ lexemes p t := by
  obtain ⟨fuel, heq, -⟩ := (h.trans h').lexemesFrom_eq (Nat.le_add_left t.size 0)
  intro l hl
  rw [lexemes, heq]
  exact List.mem_append_left _ (List.mem_append_right ms hl)

theorem Reads.bounds (h : Reads p t x d' i d ls) {l : Lexeme} (hl : l ∈ ls) :
    i ≤ l.start ∧ l.start < l.stop ∧ l.stop ≤ x := by
  induction h with
  | stop => cases hl
  | @step i d ls hi h ih =>
    obtain ⟨hstart, hpos, -⟩ := lexemeAt_bounds p t d hi
    have hle := h.le
    rcases List.mem_cons.mp hl with rfl | hl
    · exact ⟨by omega, by omega, hle⟩
    · obtain ⟨h1, h2, h3⟩ := ih hl
      exact ⟨by omega, h2, h3⟩

/-! ## The same characters somewhere else -/

/-- A literal that ends among some characters, and not where they end unless code follows, ends at the
same distance in a copy of them. -/
theorem literalStop_carry {q : Char} (h : Same t u i j n) (f g k : Nat) (hf : t.size ≤ i + k + f)
    (hg : u.size ≤ j + k + g) (hstop : literalStop p t q f (i + k) < i + n ∨
      literalStop p t q f (i + k) = i + n ∧ ∃ c, t[i + n]? = some c ∧ Text.isSpace c = false) :
    ∃ m, literalStop p t q f (i + k) = i + m ∧ literalStop p u q g (j + k) = j + m := by
  have hin := h.inside
  have hin' := h.inside'
  have hlow := (literalStop_bounds p t q f (i + k)).1
  cases f with
  | zero =>
    simp only [literalStop] at hstop
    rcases hstop with hlt | ⟨heq, c, hc, -⟩
    · omega
    · have := Text.lt_size_of_getElem? hc
      omega
  | succ f =>
    by_cases hk : k < n
    · cases g with
      | zero => omega
      | succ g =>
        have hc : t[i + k]? = some t[i + k] := Array.getElem?_eq_getElem (by omega)
        have hc' : u[j + k]? = some t[i + k] := by rw [← h.chars k hk, hc]
        simp only [literalStop, hc, hc'] at hstop ⊢
        split
        · simp only [if_pos ‹_›, Nat.add_assoc] at hstop ⊢
          exact literalStop_carry h f g (k + 2) (by omega) (by omega) hstop
        · simp only [if_neg ‹_›] at hstop ⊢
          split
          · exact ⟨k + 1, rfl, rfl⟩
          · simp only [if_neg ‹_›] at hstop ⊢
            split
            · exact ⟨k, rfl, rfl⟩
            · simp only [if_neg ‹_›, Nat.add_assoc] at hstop ⊢
              exact literalStop_carry h f g (k + 1) (by omega) (by omega) hstop
    · -- past the characters only a line feed could end it at once
      exfalso
      obtain ⟨heq, c, hc, hspace⟩ := hstop.resolve_left (by omega)
      have hsize := Text.lt_size_of_getElem? hc
      obtain rfl : k = n := by omega
      have hnext (m : Nat) (hm : 0 < m) : i + k < literalStop p t q f (i + k + m) := by
        have := (literalStop_bounds p t q f (i + k + m)).1
        omega
      simp only [literalStop, hc] at heq
      split at heq
      · have := hnext 2 (by decide)
        omega
      · split at heq
        · omega
        · split at heq
          · rename_i hfeed
            rw [Bool.and_eq_true, beq_iff_eq] at hfeed
            rw [hfeed.1] at hspace
            cases hspace
          · have := hnext 1 (by decide)
            omega
termination_by f

/-- A block comment that ends before the text does ends at the same distance in a copy. -/
theorem blockStop_carry (h : Same t u i j n) (hstop : blockStop t i ≤ i + n)
    (hsize : blockStop t i < t.size) : ∃ m, blockStop t i = i + m ∧ blockStop u j = j + m := by
  unfold blockStop at hstop hsize ⊢
  cases hx : t.find? ['*', '/'] (i + 2) with
  | none =>
    rw [hx] at hsize
    exact absurd hsize (Nat.lt_irrefl _)
  | some x =>
    rw [hx] at hstop
    have hlow := (Text.find?_some hx).1
    rw [h.find?_close hx hstop]
    exact ⟨x - i + 2, by simp only; omega, rfl⟩

/-- How a text is read up to an offset does not depend on what follows: code starts there, or code comes
last, and it is no white space. -/
def Settled (t : Text) (x : Nat) (kind : LexemeKind) (stop : Nat) : Prop :=
  (∃ c, t[x]? = some c ∧ Text.isSpace c = false) ∨
    (∃ c, t[x - 1]? = some c ∧ Text.isSpace c = false) ∧ (stop = x → kind = .code)

/-- What ends a line comment. -/
theorem lineStop_end (t : Text) (i : Nat) : lineStop t i = t.size ∨ t[lineStop t i]? = some '\n' ∨
    t[lineStop t i]? = some '\r' ∧
      (lineStop t i + 1 = t.size ∨ t[lineStop t i + 1]? = some '\n') := by
  have hbreak : (t.find? ['\n'] i).getD t.size = t.size ∨
      t[(t.find? ['\n'] i).getD t.size]? = some '\n' := by
    cases hfind : t.find? ['\n'] i with
    | none => exact Or.inl rfl
    | some y => exact Or.inr (Text.standsAt_one.mp (Text.find?_some hfind).2.2.1)
  unfold lineStop
  dsimp only
  generalize (t.find? ['\n'] i).getD t.size = stop at hbreak
  split
  · rename_i hr
    rw [Bool.and_eq_true, decide_eq_true_eq] at hr
    rw [Nat.sub_add_cancel (by omega)]
    exact Or.inr (Or.inr ⟨Text.hasAt_iff.mp hr.2, hbreak⟩)
  · exact hbreak.imp_right Or.inl

/-- A line comment that ends among some characters ends at the same distance in a copy of them. -/
theorem lineStop_carry (h : Same t u i j n) (hlow : i ≤ lineStop t i) (hstop : lineStop t i ≤ i + n)
    (hsettled : Settled t (i + n) .lineComment (lineStop t i)) :
    ∃ m, lineStop t i = i + m ∧ lineStop u j = j + m := by
  have hin := h.inside
  refine lineStop_local h ?_
  suffices hfeed : ∃ x, i ≤ x ∧ x < i + n ∧ t[x]? = some '\n' by
    obtain ⟨x, hx, hlt, hchar⟩ := hfeed
    exact ⟨x - i, by omega, by rwa [Nat.add_sub_cancel' hx]⟩
  -- a line break comes neither after the characters nor last, nor does the text end there
  have hlast : ∀ c, t[i + n - 1]? = some c → t[i + n]? = some '\n' ∨ i + n = t.size →
      Text.isSpace c = false := by
    intro c hc hbreak
    rcases hsettled with ⟨c', hc', hspace⟩ | ⟨⟨c', hc', hspace⟩, -⟩
    · rcases hbreak with hbreak | hbreak
      · rw [hc', Option.some.injEq] at hbreak
        rw [hbreak] at hspace
        cases hspace
      · have := Text.lt_size_of_getElem? hc'
        omega
    · rw [hc, Option.some.injEq] at hc'
      rwa [hc']
  have hlt : lineStop t i < i + n := by
    refine Nat.lt_of_le_of_ne hstop fun heq => ?_
    rcases hsettled with ⟨c, hc, hspace⟩ | ⟨-, hkind⟩
    · rw [← heq] at hc
      rcases lineStop_end t i with hend | hend | ⟨hend, -⟩
      · have := Text.lt_size_of_getElem? hc
        omega
      all_goals
        rw [hc, Option.some.injEq] at hend
        rw [hend] at hspace
        cases hspace
    · cases hkind heq
  rcases lineStop_end t i with hend | hend | ⟨hreturn, hend⟩
  · omega
  · exact ⟨_, hlow, hlt, hend⟩
  · rcases Nat.eq_or_lt_of_le (show lineStop t i + 1 ≤ i + n from hlt) with heq | hmore
    · have := hlast '\r' (by rw [← heq, Nat.add_sub_cancel]; exact hreturn)
        (by rw [← heq]; exact hend.symm)
      cases this
    · exact ⟨_, by omega, hmore, hend.resolve_left (by omega)⟩

/-- A lexeme that ends among some characters ends at the same distance in a copy of them, unless it is a
slash that comes last and goes on into a comment there, or one that is code because of parentheses that
the copy is outside of. -/
theorem lexemeAt_carry (h : Same t u i j n) (hn : 0 < n) (hstop : (lexemeAt p t d i).stop ≤ i + n)
    (hsettled : Settled t (i + n) (lexemeAt p t d i).kind (lexemeAt p t d i).stop)
    (hslash : (lexemeAt p t d i).kind = .code → n = 1 → t[i]? = some '/' →
      u[j + 1]? ≠ some '/' ∧ u[j + 1]? ≠ some '*')
    (hguard : p.parenGuard = true →
      e = d ∨ e = 0 ∧ ((lexemeAt p t d i).kind = .code → t[i]? ≠ some '/')) :
    (lexemeAt p u e j).kind = (lexemeAt p t d i).kind ∧
      ∃ m, (lexemeAt p t d i).stop = i + m ∧ (lexemeAt p u e j).stop = j + m := by
  have hin := h.inside
  have hin' := h.inside'
  obtain ⟨c, hc⟩ : ∃ c, t[i]? = some c := ⟨t[i], Array.getElem?_eq_getElem (by omega)⟩
  have hc' : u[j]? = some c := by rw [← hc]; exact (h.chars 0 hn).symm
  -- a comment starts with two characters, so the second is among those that are the same
  have htwo (a b : Char) (hn : 2 ≤ n) : u.standsAt j [a, b] = t.standsAt i [a, b] :=
    (h.standsAt_two_eq (k := 0) (by omega) a b).symm
  cases hquote : p.quotes.contains c with
  | true =>
    simp only [lexemeAt, hc, hc', hquote, if_true] at hstop hsettled ⊢
    refine ⟨trivial, literalStop_carry h _ _ 1 (by omega) (by omega) ?_⟩
    rcases Nat.lt_or_eq_of_le hstop with hlt | heq
    · exact Or.inl hlt
    · exact Or.inr ⟨heq, hsettled.resolve_right fun hlast => by cases hlast.2 heq⟩
  | false =>
    simp only [lexemeAt, hc, hc', hquote, Bool.false_eq_true, if_false] at hstop hsettled hslash hguard ⊢
    cases hblock : t.standsAt i ['/', '*'] with
    | true =>
      simp only [hblock, if_true] at hstop hsettled ⊢
      have := (blockStop_bounds hblock).1
      rw [if_pos (by rw [htwo _ _ (by omega), hblock])]
      refine ⟨rfl, blockStop_carry h hstop ?_⟩
      rcases hsettled with ⟨a, ha, -⟩ | ⟨-, hcode⟩
      · have := Text.lt_size_of_getElem? ha
        omega
      · have hne : blockStop t i ≠ i + n := fun heq => by cases hcode heq
        omega
    | false =>
      simp only [hblock, Bool.false_eq_true, if_false] at hstop hsettled hslash hguard ⊢
      cases hline : p.lineComments && t.standsAt i ['/', '/'] && !(p.parenGuard && decide (0 < d)) with
      | true =>
        simp only [hline, if_true] at hstop hsettled ⊢
        rw [Bool.and_eq_true, Bool.and_eq_true] at hline
        have hlow := (lineStop_bounds hline.1.2).1
        have hopen : (p.parenGuard && decide (0 < e)) = false := by
          cases hp : p.parenGuard with
          | false => rfl
          | true =>
            rcases hguard hp with rfl | ⟨rfl, -⟩
            · simpa [hp] using hline.2
            · rfl
        rw [htwo _ _ (by omega), htwo _ _ (by omega), hblock, hline.1.1, hline.1.2, hopen]
        exact ⟨rfl, lineStop_carry h (by omega) hstop hsettled⟩
      | false =>
        simp only [hline, Bool.false_eq_true, if_false] at hslash hguard ⊢
        have hno : u.standsAt j ['/', '*'] = false ∧ (p.lineComments && u.standsAt j ['/', '/'] &&
            !(p.parenGuard && decide (0 < e))) = false := by
          rcases Nat.lt_or_eq_of_le (show 1 ≤ n from hn) with htwice | hone
          · rw [htwo _ _ htwice, htwo _ _ htwice]
            refine ⟨hblock, ?_⟩
            cases hcomment : p.lineComments && t.standsAt i ['/', '/'] with
            | false => rfl
            | true =>
              rw [hcomment, Bool.true_and, Bool.not_eq_false', Bool.and_eq_true] at hline
              rw [Bool.and_eq_true] at hcomment
              rcases hguard hline.1 with rfl | ⟨-, hno⟩
              · rw [hline.1, hline.2]
                rfl
              · exact absurd (hc.symm.trans (Text.standsAt_two.mp hcomment.2).1) (hno trivial)
          · have hno (b : Char) (hb : b = '/' ∨ b = '*') : u.standsAt j ['/', b] = false := by
              refine Bool.eq_false_iff.mpr fun hstands => ?_
              obtain ⟨h1, h2⟩ := Text.standsAt_two.mp hstands
              rw [hc', ← hc] at h1
              obtain ⟨hno1, hno2⟩ := hslash trivial hone.symm (hc.symm.trans h1)
              rcases hb with rfl | rfl
              · exact hno1 h2
              · exact hno2 h2
            rw [hno _ (Or.inr rfl), hno _ (Or.inl rfl), Bool.and_false]
            exact ⟨rfl, rfl⟩
        rw [hno.1, hno.2]
        exact ⟨rfl, 1, rfl, rfl⟩

/-- No code among some lexemes is a slash or a parenthesis. -/
def Quiet (t : Text) (ls : List Lexeme) : Prop :=
  ∀ l ∈ ls, l.kind = .code → t[l.start]? ≠ some '/' ∧ t[l.start]? ≠ some '(' ∧ t[l.start]? ≠ some ')'

/-- What is read of a region is read in the same way in a copy of it at the same depth of parentheses, or
outside of them if it is quiet. -/
theorem Reads.carry (h : Reads p t x d' i d ls) (hsame : Same t u i j (x - i))
    (hsettled : ∀ l ∈ ls, Settled t x l.kind l.stop)
    (hslash : (∀ l ∈ ls, l.kind = .code → l.stop = x → t[l.start]? ≠ some '/') ∨
      u[j + (x - i)]? ≠ some '/' ∧ u[j + (x - i)]? ≠ some '*')
    (hguard : p.parenGuard = true → e = d ∨ e = 0 ∧ Quiet t ls) :
    ∃ e' ms, Reads p u (j + (x - i)) e' j e ms ∧ ms.flatMap (·.clean u) = ls.flatMap (·.clean t) ∧
      (p.parenGuard = true → (e = d → e' = d') ∧ (e = 0 → Quiet t ls → e' = 0)) := by
  induction h generalizing j e with
  | stop =>
    rw [Nat.sub_self]
    exact ⟨e, [], .stop, rfl, fun _ => ⟨id, fun he _ => he⟩⟩
  | @step i d ls hi h ih =>
    obtain ⟨hstart, hpos, -⟩ := lexemeAt_bounds p t d hi
    have hle := h.le
    have hx : i + (x - i) = x := by omega
    have hself := hsettled _ List.mem_cons_self
    have hquiet : Quiet t (lexemeAt p t d i :: ls) → (lexemeAt p t d i).kind = .code →
        t[i]? ≠ some '/' ∧ t[i]? ≠ some '(' ∧ t[i]? ≠ some ')' := fun hquiet hcode => by
      have := hquiet _ List.mem_cons_self hcode
      rwa [hstart] at this
    obtain ⟨hkind, m, hm, hm'⟩ := lexemeAt_carry (p := p) (d := d) (e := e) hsame (by omega)
      (by omega) (by rw [hx]; exact hself)
      (fun hcode hone hchar => by
        rcases hslash with hno | hno
        · have := hno _ List.mem_cons_self hcode (by omega)
          rw [hstart] at this
          exact absurd hchar this
        · rwa [hone] at hno)
      fun hp => (hguard hp).imp_right fun hout => ⟨hout.1, fun hcode => (hquiet hout.2 hcode).1⟩
    have hj : j < u.size := by
      have := hsame.inside'
      omega
    obtain ⟨hstart', hpos', -⟩ := lexemeAt_bounds p u e hj
    have hchar : u[j]? = t[i]? := (hsame.chars 0 (by omega)).symm
    -- the same parentheses are counted
    have hdepth : e = d → depthAfter u (lexemeAt p u e j) e = depthAfter t (lexemeAt p t d i) d := by
      rintro rfl
      simp only [depthAfter, hkind, hstart, hstart', Text.hasAt, Text.testAt, hchar]
    -- a parenthesis would be code, so the depth stays
    have hout : e = 0 → Quiet t (lexemeAt p t d i :: ls) → depthAfter u (lexemeAt p u e j) e = 0 := by
      intro he hq
      rw [depthAfter, hkind, hstart']
      split
      · obtain ⟨-, hopen, hclose⟩ := hquiet hq (eq_of_beq ‹_›)
        rw [← hchar] at hopen hclose
        rw [if_neg fun h => hopen (Text.hasAt_iff.mp h), if_neg fun h => hclose (Text.hasAt_iff.mp h)]
        exact he
      · exact he
    have htail : Quiet t (lexemeAt p t d i :: ls) → Quiet t ls :=
      fun hq l hl => hq l (List.mem_cons_of_mem _ hl)
    have hrest : x - (i + m) = x - i - m := by omega
    have hend : j + m + (x - (i + m)) = j + (x - i) := by omega
    rw [hm] at h ih
    obtain ⟨e', ms, hms, hclean, hafter⟩ := ih (j := j + m)
      (by rw [hrest]; exact hsame.drop (by omega)) (fun l hl => hsettled l (List.mem_cons_of_mem _ hl))
      (by
        rw [hend]
        exact hslash.imp_left fun hno l hl => hno l (List.mem_cons_of_mem _ hl))
      fun hp => (hguard hp).imp hdepth fun h => ⟨hout h.1 h.2, htail h.2⟩
    refine ⟨e', lexemeAt p u e j :: ms, .step hj ?_, ?_, fun hp => ?_⟩
    · rw [hm', ← hend]
      exact hms
    · rw [List.flatMap_cons, List.flatMap_cons, hclean]
      simp only [Lexeme.clean, hkind, hstart, hstart', hm, hm',
        hsame.slice_eq (show m ≤ x - i by omega)]
    · exact ⟨fun he => (hafter hp).1 (hdepth he), fun he hq => (hafter hp).2 (hout he hq) (htail hq)⟩

/-! ## Characters that mean nothing to the lexer -/

/-- A character that neither starts a literal or a comment nor counts as a parenthesis. -/
def Plain (p : Profile) (c : Char) : Prop :=
  p.quotes.contains c = false ∧ c ≠ '/' ∧ c ≠ '(' ∧ c ≠ ')'

/-- Characters of a class without quotes, slashes and parentheses are plain. -/
theorem plain_of_class {f : Char → Bool} (h : ∀ d ∈ p.quotes ++ ['/', '(', ')'], f d = false)
    {c : Char} (hc : f c = true) : Plain p c := by
  have hne : ∀ d ∈ p.quotes ++ ['/', '(', ')'], c ≠ d := by
    rintro d hd rfl
    rw [h c hd] at hc
    cases hc
  refine ⟨Bool.eq_false_iff.mpr fun hquote => ?_, hne '/' (by simp), hne '(' (by simp), hne ')' (by simp)⟩
  exact hne c (List.mem_append_left _ (List.contains_iff_mem.mp hquote)) rfl

/-- A plain character that is no white space. -/
def isBare (p : Profile) (c : Char) : Bool :=
  !Text.isSpace c && !(p.quotes ++ ['/', '(', ')']).contains c

theorem isBare_of_class {f : Char → Bool} (hspace : ∀ c, f c = true → Text.isSpace c = false)
    (h : ∀ d ∈ p.quotes ++ ['/', '(', ')'], f d = false) (c : Char) (hc : f c = true) :
    isBare p c = true := by
  have hnot : (p.quotes ++ ['/', '(', ')']).contains c = false := Bool.eq_false_iff.mpr fun hmem => by
    rw [h c (List.contains_iff_mem.mp hmem)] at hc
    cases hc
  rw [isBare, hspace c hc, hnot]
  rfl

theorem plain_of_isBare {c : Char} (h : isBare p c = true) : Plain p c := by
  refine plain_of_class (fun d hd => ?_) h
  rw [isBare, List.contains_iff_mem.mpr hd]
  exact Bool.and_false _

theorem isSpace_of_isBare {c : Char} (h : isBare p c = true) : Text.isSpace c = false := by
  rw [isBare, Bool.and_eq_true, Bool.not_eq_true'] at h
  exact h.1

theorem lexemeAt_of_plain {c : Char} (hc : t[i]? = some c) (hplain : Plain p c) :
    lexemeAt p t d i = ⟨.code, i, i + 1⟩ ∧ depthAfter t ⟨.code, i, i + 1⟩ d = d := by
  obtain ⟨hquote, hslash, hopen, hclose⟩ := hplain
  have hstands (b : Char) : t.standsAt i ['/', b] = false := by
    simp [Text.standsAt, Text.hasAt, Text.testAt, hc, hslash]
  constructor
  · simp only [lexemeAt, hc, hquote, hstands, Bool.and_false, Bool.false_and, Bool.false_eq_true, if_false]
  · simp [depthAfter, Text.hasAt, Text.testAt, hc, hopen, hclose]

/-- Lexing passes over plain characters one by one. -/
theorem reads_of_plain (hix : i ≤ x) (h : ∀ c ∈ t.slice i x, Plain p c) (hx : x ≤ t.size) (d : Nat) :
    ∃ ls, Reads p t x d i d ls ∧ ls.flatMap (·.clean t) = t.slice i x := by
  obtain ⟨n, rfl⟩ := Nat.exists_eq_add_of_le hix
  induction n generalizing i with
  | zero => exact ⟨[], .stop, (Text.slice_self t (Nat.le_refl _)).symm⟩
  | succ n ih =>
    have hc : t[i]? = some t[i] := Array.getElem?_eq_getElem (by omega)
    have hsplit := Text.slice_append t (Nat.le_succ i) (show i + 1 ≤ i + (n + 1) by omega)
    rw [Text.slice_one hc] at hsplit
    obtain ⟨hl, hdepth⟩ := lexemeAt_of_plain (d := d) hc (h _ (hsplit ▸ List.mem_cons_self))
    rw [show i + (n + 1) = i + 1 + n by omega] at h hx hsplit ⊢
    obtain ⟨ls, hls, hclean⟩ := ih (by omega)
      (fun c hc => h c (hsplit ▸ List.mem_cons_of_mem _ hc)) hx
    refine ⟨⟨.code, i, i + 1⟩ :: ls, ?_, ?_⟩
    · rw [← hl]
      refine .step (by omega) ?_
      rw [hl, hdepth]
      exact hls
    · rw [List.flatMap_cons, hclean, ← hsplit]
      exact congrArg (· ++ _) (Text.slice_one hc)

end MemberOrder.Lexeme

namespace MemberOrder

open Lexeme Scanned

variable {p : Profile} {cs ds : List Char}

/-! ## Packed code -/

/-- What is left of a text without its comments and its white space. -/
def packedCode (p : Profile) (cs : List Char) : List Char := pack (scan p cs.toArray).clean.toList

/-- Lexing of one text followed by another stops in between, and outside of parentheses where it
counts. -/
def Seam (p : Profile) (cs ds : List Char) : Prop :=
  ∃ depth ls, Reads p (cs ++ ds).toArray cs.length depth 0 0 ls ∧ (p.parenGuard = true → depth = 0)

theorem same_left (cs ds : List Char) : Same (cs ++ ds).toArray cs.toArray 0 0 cs.length := by
  refine ⟨by simp, by simp, fun k hk => ?_⟩
  rw [Nat.zero_add, List.getElem?_toArray, List.getElem?_toArray, List.getElem?_append_left hk]

theorem same_right (cs ds : List Char) : Same (cs ++ ds).toArray ds.toArray cs.length 0 ds.length := by
  refine ⟨by simp, by simp, fun k hk => ?_⟩
  rw [Nat.zero_add, List.getElem?_toArray, List.getElem?_toArray,
    List.getElem?_append_right (Nat.le_add_right _ _), Nat.add_sub_cancel_left]

theorem Lexeme.Reads.packedCode_eq {d : Nat} {ls : List Lexeme}
    (h : Reads p cs.toArray cs.length d 0 0 ls) :
    packedCode p cs = pack (ls.flatMap (·.clean cs.toArray)) := by
  have hslice := Reads.slice_clean .stop h
  rw [show cs.length = (scan p cs.toArray).clean.size by rw [size_clean]; rfl, Text.slice_full] at hslice
  rw [packedCode, hslice]

/-- With a seam between them, two texts have the packed code of the first and that of the second. -/
theorem packedCode_append (h : Seam p cs ds) :
    packedCode p (cs ++ ds) = packedCode p cs ++ packedCode p ds := by
  obtain ⟨d, ls, hls, hguard⟩ := h
  have hlength : (cs ++ ds).toArray.size = cs.length + ds.length := by simp
  obtain ⟨d', rest, hrest⟩ := exists_reads_end p (t := (cs ++ ds).toArray) (i := cs.length) (by simp) d
  obtain ⟨d₁, ms, hms⟩ := exists_reads_end p (t := cs.toArray) (Nat.zero_le _) 0
  obtain ⟨d₂, ns, hns⟩ := exists_reads_end p (t := ds.toArray) (Nat.zero_le _) 0
  rw [hlength] at hrest
  have hall := hls.trans hrest
  rw [← List.length_append] at hall
  have hleft : ls.flatMap (·.clean (cs ++ ds).toArray) = ms.flatMap (·.clean cs.toArray) :=
    Reads.clean_eq (same_left cs ds) (by rwa [Nat.zero_add]) (by rw [Nat.zero_add]; exact hms) fun _ => rfl
  have hright : rest.flatMap (·.clean (cs ++ ds).toArray) = ns.flatMap (·.clean ds.toArray) :=
    Reads.clean_eq (same_right cs ds) hrest (by rw [Nat.zero_add]; exact hns) hguard
  rw [hall.packedCode_eq, Reads.packedCode_eq hms, Reads.packedCode_eq hns, List.flatMap_append,
    pack_append, hleft, hright]

/-- Plain characters are code, and nothing of them goes on into what follows. -/
theorem seam_of_plain (h : ∀ c ∈ cs, Plain p c) (ds : List Char) : Seam p cs ds := by
  have hslice : Text.slice (cs ++ ds).toArray 0 cs.length = cs := by
    rw [Text.slice_eq_take_drop]
    simp
  obtain ⟨ls, hls, -⟩ := reads_of_plain (t := (cs ++ ds).toArray) (Nat.zero_le cs.length)
    (by rwa [hslice]) (by simp) 0
  exact ⟨0, ls, hls, fun _ => rfl⟩

theorem packedCode_of_plain (h : ∀ c ∈ cs, Plain p c) : packedCode p cs = pack cs := by
  have hslice : Text.slice cs.toArray 0 cs.length = cs := by
    rw [Text.slice_eq_take_drop]
    simp
  obtain ⟨ls, hls, hclean⟩ := reads_of_plain (t := cs.toArray) (Nat.zero_le cs.length)
    (by rwa [hslice]) (by simp) 0
  rw [Reads.packedCode_eq hls, hclean, hslice]

/-- What lexing passes over as a whole, with code after it, it passes over anywhere; where parentheses
count, outside of them. -/
theorem Seam.reads {c : Char} (h : Seam p cs [c]) (hc : Text.isSpace c = false)
    (hlast : cs.getLast? ≠ some '/') {u : Text} {j : Nat} (hsame : Same cs.toArray u 0 j cs.length)
    {e : Nat} (hout : p.parenGuard = true → e = 0) :
    ∃ e' ms, Reads p u (j + cs.length) e' j e ms ∧ (p.parenGuard = true → e' = 0) := by
  obtain ⟨d, ls, hls, hdepth⟩ := h
  have hself : Same (cs ++ [c]).toArray u 0 j (cs.length - 0) :=
    ⟨by simp, hsame.inside', fun k hk => ((same_left cs [c]).chars k hk).trans (hsame.chars k hk)⟩
  have hslash : ∀ l ∈ ls, l.kind = .code → l.stop = cs.length →
      (cs ++ [c]).toArray[l.start]? ≠ some '/' := by
    intro l hl hcode hstop hchar
    have hlong := (code_of_lexeme (Reads.mem_lexemes .stop hls l hl) hcode).1
    rw [show l.start = cs.length - 1 by omega, List.getElem?_toArray,
      List.getElem?_append_left (by omega), ← List.getLast?_eq_getElem?] at hchar
    exact hlast hchar
  obtain ⟨e', ms, hms, -, hafter⟩ := hls.carry (e := e) hself (fun l hl => Or.inl ⟨c, by simp, hc⟩)
    (Or.inl hslash) fun hp => Or.inl (hout hp)
  exact ⟨e', ms, hms, fun hp => ((hafter hp).1 (hout hp)).trans (hdepth hp)⟩

theorem Seam.anywhere {c : Char} (h : Seam p cs [c]) (hc : Text.isSpace c = false)
    (hlast : cs.getLast? ≠ some '/') (ds : List Char) : Seam p cs ds := by
  obtain ⟨d, ls, hls, hdepth⟩ := h.reads hc hlast (same_left cs ds).symm fun _ => rfl
  exact ⟨d, ls, by rwa [Nat.zero_add] at hls, hdepth⟩

end MemberOrder
