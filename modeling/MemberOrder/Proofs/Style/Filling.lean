/-
  The items of a block fill it.

  Between its brackets a block holds its items one after the other, and around them nothing but white space
  and semicolons (`items_fill`): every bracket that is opened inside of it is closed there, so the reader of
  items passes over whole blocks and never meets a closing bracket (`LeadsTo`).
-/
import MemberOrder.Proofs.Placement.Items

/-! ## Reading inside of brackets -/

namespace MemberOrder.Brackets

variable {t : Text} {i stop : Nat}

/-- Reading on from an offset inside of curly brackets, outside of those in between, leads to the bracket
that closes them. -/
def LeadsTo (t : Text) (i stop : Nat) : Prop := closeFrom curly t (t.size - i) i ['}'] = some stop

/-- Reading one character. -/
theorem LeadsTo.step (h : LeadsTo t i stop) : ∃ c, t[i]? = some c ∧ t.size - i = t.size - (i + 1) + 1 ∧
    closeFrom curly t (t.size - (i + 1) + 1) i ['}'] = some stop := by
  have hsize : i < t.size := by
    obtain ⟨h1, h2, -⟩ := closeFrom_some h
    omega
  have hfuel : t.size - i = t.size - (i + 1) + 1 := by omega
  unfold LeadsTo at h
  rw [hfuel] at h
  exact ⟨t[i], Array.getElem?_eq_getElem hsize, hfuel, h⟩

theorem LeadsTo.le (h : LeadsTo t i stop) : i ≤ stop := (closeFrom_some h).1

theorem LeadsTo.succ (h : LeadsTo t i stop) {c : Char} (hc : t[i]? = some c) (hopen : c ≠ '{') (hclose : c ≠ '}') :
    LeadsTo t (i + 1) stop := by
  obtain ⟨d, hd, -, h⟩ := h.step
  have hlookup : curly.lookup c = none := by
    simp [curly, hopen]
  have hany : curly.any (·.2 == c) = false := by
    simpa [curly] using Ne.symm hclose
  unfold LeadsTo
  simpa only [closeFrom, hc, hlookup, hany, Bool.false_eq_true, if_false] using h

/-- The bracket that is led to is the first closing one. -/
theorem LeadsTo.eq_of_close (h : LeadsTo t i stop) (hc : t[i]? = some '}') : i = stop := by
  obtain ⟨d, hd, -, h⟩ := h.step
  have hlookup : curly.lookup '}' = none := by decide
  have hany : curly.any (·.2 == '}') = true := by decide
  simpa [closeFrom, hc, hlookup, hany] using h

/-- A bracket that is opened is closed, and behind it reading leads to the same end. -/
theorem LeadsTo.block (h : LeadsTo t i stop) (hc : t[i]? = some '{') :
    ∃ close, close? curly t i = some close ∧ LeadsTo t (close + 1) stop := by
  obtain ⟨d, hd, hfuel, h⟩ := h.step
  have hlookup : curly.lookup '{' = some '}' := by decide
  simp only [closeFrom, hc, hlookup] at h
  obtain ⟨close, hclose, hrest⟩ := closeFrom_append (List.cons_ne_nil '}' []) (List.cons_ne_nil '}' []) h
  have hle := (closeFrom_some hclose).1
  refine ⟨close, ?_, ?_⟩
  · rw [close?, hfuel]
    simpa only [closeFrom, hc, hlookup] using hclose
  · unfold LeadsTo
    rwa [show t.size - (i + 1) - (close + 1 - (i + 1)) = t.size - (close + 1) by omega] at hrest

/-- Behind an opening bracket reading leads to where it is closed. -/
theorem leadsTo_of_close? (hc : t[i]? = some '{') (h : close? curly t i = some stop) : LeadsTo t (i + 1) stop := by
  have hsize := Text.lt_size_of_getElem? hc
  have hlookup : curly.lookup '{' = some '}' := by decide
  rw [close?, show t.size - i = t.size - (i + 1) + 1 by omega] at h
  unfold LeadsTo
  simpa only [closeFrom, hc, hlookup] using h

end MemberOrder.Brackets

/-! ## Items -/

namespace MemberOrder.Style

variable {s : Scanned} {a b stop : Nat}

/-- White space and semicolons, which may stand around items. -/
def isIdle (c : Char) : Bool := Text.isSpace c || c == ';'

/-- Nothing but white space and semicolons stands between two offsets. -/
def Idle (s : Scanned) (a b : Nat) : Prop := ∀ i, a ≤ i → i < b → s.masked.testAt i isIdle = true

theorem idle_of_le (h : b ≤ a) : Idle s a b := fun _ _ _ => by omega

theorem Idle.append {c : Nat} (h : Idle s a b) (h' : Idle s b c) : Idle s a c := fun i h1 h2 => by
  rcases Nat.lt_or_ge i b with hlt | hle
  · exact h i h1 hlt
  · exact h' i hle h2

theorem idle_of_spaces (h : ∀ i, a ≤ i → i < b → s.masked.testAt i Text.isSpace = true) : Idle s a b := by
  intro i h1 h2
  obtain ⟨c, hc, hspace⟩ := Text.testAt_iff.mp (h i h1 h2)
  exact Text.testAt_iff.mpr ⟨c, hc, by rw [isIdle, hspace, Bool.true_or]⟩

theorem idle_of_semicolon (h : s.masked[a]? = some ';') : Idle s a (a + 1) := by
  intro i h1 h2
  obtain rfl : i = a := by omega
  exact Text.testAt_iff.mpr ⟨';', h, by decide⟩

/-- Where the text of an item ends, before its semicolon. -/
def Item.textStop : Item → Nat
  | .declaration _ stop _ | .statement _ stop _ => stop
  | .block _ _ _ closeAt => closeAt + 1

/-- Items follow each other between two offsets, with nothing but white space and semicolons around them. -/
inductive Fills (s : Scanned) : Nat → Nat → List Item → Prop
  | nil {a b : Nat} (h : Idle s a b) : Fills s a b []
  | cons {a b : Nat} {item : Item} {rest : List Item} (hgap : Idle s a item.start)
      (htail : Idle s item.textStop item.after) (hrest : Fills s item.after b rest) : Fills s a b (item :: rest)

theorem Fills.extend {c : Nat} {its : List Item} (h : Fills s b c its) (hab : Idle s a b) : Fills s a c its := by
  cases h with
  | nil hbc => exact .nil (hab.append hbc)
  | cons hgap htail hrest => exact .cons (hab.append hgap) htail hrest

theorem Fills.snoc {its : List Item} (h : Fills s a b its) {item : Item} (hgap : Idle s b item.start)
    (htail : Idle s item.textStop item.after) : Fills s a item.after (its ++ [item]) := by
  induction h with
  | nil hab => exact .cons (hab.append hgap) htail (.nil (idle_of_le (Nat.le_refl _)))
  | cons hgap' htail' _ ih => exact .cons hgap' htail' (ih hgap)

/-- Items fill what is around them up to where something else begins. -/
theorem Fills.between {a' b' : Nat} {first last : Item} {rest : List Item} (h : Fills s a b (first :: rest))
    (hlast : (first :: rest).getLast? = some last) (hstart : Idle s a' first.start)
    (hstop : Idle s last.after b') : Fills s a' b' (first :: rest) := by
  induction rest generalizing a a' first with
  | nil =>
    obtain rfl : first = last := by simpa using hlast
    cases h with
    | cons hgap htail hrest => exact .cons hstart htail (.nil hstop)
  | cons next more ih =>
    rw [List.getLast?_cons_cons] at hlast
    cases h with
    | cons hgap htail hrest =>
      cases hrest with
      | cons hgap' htail' hmore => exact .cons hstart htail (ih (.cons hgap' htail' hmore) hlast hgap')

/-- A statement, its semicolon and what follows. -/
theorem fills_statement {start place : Nat} {semicolon : Option Nat} {rest : List Item}
    (htail : Idle s place (pastSeparator place semicolon))
    (hrest : Fills s (pastSeparator place semicolon) b rest) :
    Fills s start b (statementItem s start place semicolon :: rest) := by
  have hself : Idle s start start := idle_of_le (Nat.le_refl start)
  unfold statementItem
  cases semicolon <;> split <;> exact .cons hself htail hrest

/-- A reader of items fills a block, from where it reads on or where the current statement starts. -/
def FindsFilling (s : Scanned) (stop fuel : Nat) (next : (i depth : Nat) → Option Nat → Items) : Prop :=
  ∀ i depth, Brackets.LeadsTo s.masked i stop → stop - i < fuel →
    Fills s i stop (next i depth none).1 ∧
    ∀ start, start < i → s.masked.testAt start startsItem = true → Fills s start stop (next i depth (some start)).1

theorem readItem_fills {fuel : Nat} {next : (i depth : Nat) → Option Nat → Items}
    (hnext : FindsFilling s stop fuel next) {i start depth : Nat} {c : Char}
    (hleads : Brackets.LeadsTo s.masked i stop) (hi : i < stop) (hfuel : stop - i < fuel + 1)
    (hc : s.masked[i]? = some c) (hstart : s.masked.testAt start startsItem = true) (hle : start ≤ i) :
    Fills s start stop (readItem s stop next i depth start c).1 := by
  have hon (hopen : c ≠ '{') (hclose : c ≠ '}') (depth : Nat) :
      Fills s start stop (next (i + 1) depth (some start)).1 :=
    (hnext (i + 1) depth (hleads.succ hc hopen hclose) (by omega)).2 start (by omega) hstart
  have hself : Idle s start start := idle_of_le (Nat.le_refl start)
  unfold readItem
  split
  · rename_i hround
    refine hon ?_ ?_ _ <;> rintro rfl <;> cases hround
  · split
    · rename_i hround
      refine hon ?_ ?_ _ <;> rintro rfl <;> cases hround
    · split
      · rename_i hopen
        rw [beq_iff_eq] at hopen
        subst hopen
        obtain ⟨close, hclose, hbehind⟩ := hleads.block hc
        have hlt : close < stop := hbehind.le
        have hle' := (Brackets.close?_some hclose).1
        rw [hclose, Option.filter_some, if_pos (decide_eq_true hlt)]
        dsimp only
        obtain ⟨hnone, hsome⟩ := hnext (close + 1) depth hbehind (by omega)
        split
        · exact .cons hself (idle_of_le (Nat.le_refl _)) hnone
        · exact hsome start (by omega) hstart
      · rename_i hopen
        split
        · rename_i hclose
          rw [beq_iff_eq] at hclose
          have := hleads.eq_of_close (hclose ▸ hc)
          omega
        · rename_i hclose
          have hopen : c ≠ '{' := by simpa using hopen
          have hclose : c ≠ '}' := by simpa using hclose
          split
          · rename_i hsemicolon
            rw [Bool.and_eq_true, beq_iff_eq] at hsemicolon
            have hbehind := (hnext (i + 1) depth (hleads.succ hc hopen hclose) (by omega)).1
            have htail : Idle s (s.prevCode i start) i :=
              idle_of_spaces fun x h1 h2 => Text.space_after_prevCode h1 h2
            exact fills_statement (htail.append (idle_of_semicolon (hsemicolon.1 ▸ hc))) hbehind
          · exact hon hopen hclose _

theorem itemsFrom_fills (s : Scanned) (stop fuel : Nat) : FindsFilling s stop fuel (itemsFrom s stop fuel) := by
  induction fuel with
  | zero => exact fun i depth hleads hfuel => absurd hfuel (Nat.not_lt_zero _)
  | succ fuel ih =>
    intro i depth hleads hfuel
    rcases Nat.lt_or_eq_of_le hleads.le with hlt | rfl
    · obtain ⟨c, hc, -⟩ := hleads.step
      simp only [itemsFrom, if_pos hlt, hc]
      refine ⟨?_, fun start hs hstart => readItem_fills ih hleads hlt hfuel hc hstart (Nat.le_of_lt hs)⟩
      have hidle (h : (Text.isSpace c || c == ';') = true) : Idle s i (i + 1) := by
        intro x h1 h2
        obtain rfl : x = i := by omega
        exact Text.testAt_iff.mpr ⟨c, hc, h⟩
      split
      · rename_i hskip
        have hbraces : c ≠ '{' ∧ c ≠ '}' := by constructor <;> rintro rfl <;> exact absurd hskip (by decide)
        exact (ih (i + 1) depth (hleads.succ hc hbraces.1 hbraces.2) (by omega)).1.extend (hidle hskip)
      · rename_i hskip
        split
        · rename_i hclose
          have := hleads.eq_of_close (beq_iff_eq.mp hclose ▸ hc)
          omega
        · rename_i hclose
          have hstarts : startsItem c = true := by
            simp only [Bool.or_eq_true, not_or, Bool.not_eq_true] at hskip
            simp only [startsItem, Bool.and_eq_true, Bool.not_eq_true', bne]
            exact ⟨⟨hskip.1, hskip.2⟩, by simpa using hclose⟩
          have hstart : s.masked.testAt i startsItem = true := by rwa [Text.testAt_of_getElem? hc]
          exact readItem_fills ih hleads hlt hfuel hc hstart (Nat.le_refl i)
    · simp only [itemsFrom, Nat.lt_irrefl, if_false]
      refine ⟨.nil (idle_of_le (Nat.le_refl _)), fun start hs hstart => ?_⟩
      have h1 : start < s.prevCode i start := Text.lt_prevCode_of_code (code_of_starts hstart) hs
      rw [if_pos h1]
      exact fills_statement (idle_of_le (Nat.le_refl _))
        (.nil (idle_of_spaces fun x h1 h2 => Text.space_after_prevCode h1 h2))

/-- The items of a block fill it. -/
theorem items_fill {openAt closeAt : Nat} (hopen : s.masked[openAt]? = some '{')
    (hclose : Brackets.close? Brackets.curly s.masked openAt = some closeAt) :
    Fills s (openAt + 1) closeAt (items s (openAt + 1) closeAt).1 :=
  (itemsFrom_fills s closeAt _ (openAt + 1) 0 (Brackets.leadsTo_of_close? hopen hclose) (by omega)).1

end MemberOrder.Style
