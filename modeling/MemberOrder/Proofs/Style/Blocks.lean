/-
  The brackets that decorate a source of the indented dialect nest as its indentation does.

  `signs` lists the lines of code and the inserted brackets of a decorated text in their order. While the
  lines are read it is known of each open selector only on which line it stands; the brackets before it,
  after it and between two of them pair up already (`Pending`). Closing a selector puts its brackets
  around all that has come since (`closeFrame_nests`), and it is closed by the first line of code that is
  not deeper. So the brackets of the whole text pair up, and between those of a selector stand the lines
  of code up to the first one that is not deeper (`decorate_nests`).
-/
import MemberOrder.Proofs.Style.Decoration

namespace MemberOrder.Style.Indented

/-! ## Lines of code -/

/-- The code of a line, without the white space around it. -/
def codeOf (body : List Char) : List Char := Text.trim (body.take (codeStop body))

/-- The indentation of a line. -/
def indentation (body : List Char) : Nat := body.length - (Text.trimLeft body).length

/-- Whether a comment is open after a line. Only a line without code can open one. -/
def leavesComment (inComment : Bool) (body : List Char) : Bool :=
  if inComment then !Text.contains ['*', '/'] body
  else (codeOf body).isEmpty && (['/', '*'].isPrefixOf (Text.trim body) &&
    !Text.contains ['*', '/'] (Text.trim body))

/-- For each line, whether it is a line of code, neither blank nor a comment. -/
def codeFlags : (inComment : Bool) → List (List Char) → List Bool
  | _, [] => []
  | inComment, body :: rest =>
    (!inComment && !(codeOf body).isEmpty) :: codeFlags (leavesComment inComment body) rest

/-- Whether a line of a source, by its number, is a line of code. -/
def isCode (source : List Char) (i : Nat) : Bool :=
  (codeFlags false ((Text.lines source).map withoutReturn)).getD i false

/-- The indentation of a line of a source, by its number. -/
def indentAt (source : List Char) (i : Nat) : Nat :=
  indentation (((Text.lines source).map withoutReturn).getD i [])

/-! ## Signs -/

/-- What the nesting of a decorated text shows in. -/
inductive Sign where
  /-- A line of code, by its number. -/
  | code (line : Nat)
  /-- An opening bracket that was inserted. -/
  | opening
  /-- A closing bracket that was inserted. -/
  | closing
  deriving Repr, DecidableEq

/-- The sign that an inserted character is, if it is a bracket. -/
def Sign.ofChar? (c : Char) : Option Sign :=
  if c == '{' then some .opening else if c == '}' then some .closing else none

/-- The character that a sign is, if it is a bracket. -/
def Sign.char? : Sign → Option Char
  | .code _ => none
  | .opening => some '{'
  | .closing => some '}'

/-- The number of a line of code. -/
def Sign.line? : Sign → Option Nat
  | .code i => some i
  | .opening | .closing => none

/-- The signs of a line: its code comes before what is inserted. -/
def lineSigns (isCode : Bool) (i : Nat) (inserted : List Char) : List Sign :=
  (if isCode then [.code i] else []) ++ inserted.filterMap Sign.ofChar?

/-- The signs of the decorated text of a source, in the order of the text. -/
def signs (source : List Char) : List Sign :=
  (decorate source).zipIdx.flatMap fun (l, i) => lineSigns (isCode source i) i l.inserted

/-- Whether the brackets pair up when `depth` of them are open. -/
def balanced : (depth : Nat) → List Sign → Bool
  | depth, [] => depth == 0
  | depth, .code _ :: rest => balanced depth rest
  | depth, .opening :: rest => balanced (depth + 1) rest
  | 0, .closing :: _ => false
  | depth + 1, .closing :: rest => balanced depth rest

/-- The lines of code up to the bracket that closes the one just opened, inside of which `depth` more
are open. -/
def enclosed : (depth : Nat) → List Sign → List Nat
  | _, [] => []
  | depth, .code i :: rest => i :: enclosed depth rest
  | depth, .opening :: rest => enclosed (depth + 1) rest
  | 0, .closing :: _ => []
  | depth + 1, .closing :: rest => enclosed depth rest

/-! ## Nests -/

/-- The lines of code among some signs. -/
def linesOf (w : List Sign) : List Nat := w.filterMap Sign.line?

theorem linesOf_code (i : Nat) (w : List Sign) : linesOf (.code i :: w) = i :: linesOf w := rfl

theorem linesOf_opening (w : List Sign) : linesOf (.opening :: w) = linesOf w := rfl

theorem linesOf_closing (w : List Sign) : linesOf (.closing :: w) = linesOf w := rfl

theorem linesOf_append (v w : List Sign) : linesOf (v ++ w) = linesOf v ++ linesOf w :=
  List.filterMap_append

/-- Signs whose brackets pair up. Each block is that of a line of code, of which `P` says what lines
stand in it. -/
inductive Nest (P : Nat → List Nat → Prop) : List Sign → Prop
  | nil : Nest P []
  | line (i : Nat) {w : List Sign} (h : Nest P w) : Nest P (.code i :: w)
  | block (i : Nat) {inner w : List Sign} (hinner : Nest P inner) (hlines : P i (linesOf inner))
      (h : Nest P w) : Nest P (.code i :: .opening :: (inner ++ .closing :: w))

namespace Nest

variable {P : Nat → List Nat → Prop} {v w : List Sign}

theorem append (h : Nest P v) (h' : Nest P w) : Nest P (v ++ w) := by
  induction h with
  | nil => exact h'
  | line i _ ih => exact ih.line i
  | block i hinner hlines _ _ ih =>
    rw [List.cons_append, List.cons_append, List.append_assoc, List.cons_append]
    exact .block i hinner hlines ih

theorem balanced_append (h : Nest P v) (depth : Nat) (w : List Sign) :
    balanced depth (v ++ w) = balanced depth w := by
  induction h generalizing depth w with
  | nil => rfl
  | line i _ ih => exact ih depth w
  | block i _ _ _ ihinner ih =>
    rw [List.cons_append, List.cons_append, List.append_assoc, List.cons_append, balanced, balanced,
      ihinner, balanced, ih]

theorem enclosed_append (h : Nest P v) (depth : Nat) (w : List Sign) :
    enclosed depth (v ++ w) = linesOf v ++ enclosed depth w := by
  induction h generalizing depth w with
  | nil => rfl
  | line i _ ih =>
    rw [List.cons_append, enclosed, ih, linesOf_code, List.cons_append]
  | block i _ _ _ ihinner ih =>
    rw [List.cons_append, List.cons_append, List.append_assoc, List.cons_append, enclosed, enclosed,
      ihinner, enclosed, ih]
    rw [linesOf_code, linesOf_opening, linesOf_append, linesOf_closing, List.cons_append,
      List.append_assoc]

/-- An opening bracket among signs that nest is that of the line of code before it, and further on is
the bracket that closes it. -/
theorem of_opening (h : Nest P w) {before after : List Sign} (hw : w = before ++ .opening :: after) :
    ∃ start i inner rest, before = start ++ [.code i] ∧ after = inner ++ .closing :: rest ∧
      Nest P inner ∧ P i (linesOf inner) := by
  induction h generalizing before after with
  | nil => simp at hw
  | line i _ ih =>
    cases before with
    | nil => cases hw
    | cons s start =>
      rw [List.cons_append, List.cons.injEq] at hw
      obtain ⟨rfl, hw⟩ := hw
      obtain ⟨start', j, inner, rest, rfl, hafter, hinner, hlines⟩ := ih hw
      exact ⟨.code i :: start', j, inner, rest, rfl, hafter, hinner, hlines⟩
  | block i hinner hlines hrest ihinner ih =>
    rename_i inner w
    cases before with
    | nil => cases hw
    | cons s start =>
      rw [List.cons_append, List.cons.injEq] at hw
      obtain ⟨rfl, hw⟩ := hw
      cases start with
      | nil =>
        rw [List.nil_append, List.cons.injEq] at hw
        exact ⟨[], i, inner, w, rfl, hw.2.symm, hinner, hlines⟩
      | cons s start =>
        rw [List.cons_append, List.cons.injEq] at hw
        obtain ⟨rfl, hw⟩ := hw
        -- the bracket is inside the block or behind it
        rcases List.append_eq_append_iff.mp hw with ⟨mid, rfl, hmid⟩ | ⟨mid, hinner', hmid⟩
        · cases mid with
          | nil => cases hmid
          | cons s mid =>
            rw [List.cons_append, List.cons.injEq] at hmid
            obtain ⟨rfl, hmid⟩ := hmid
            obtain ⟨start', j, inner', rest, rfl, hafter, h1, h2⟩ := ih hmid
            exact ⟨.code i :: .opening :: (inner ++ .closing :: start'), j, inner', rest, by simp,
              hafter, h1, h2⟩
        · cases mid with
          | nil => cases hmid
          | cons s mid =>
            rw [List.cons_append, List.cons.injEq] at hmid
            obtain ⟨rfl, rfl⟩ := hmid
            obtain ⟨start', j, inner', rest, rfl, rfl, h1, h2⟩ := ihinner hinner'
            exact ⟨.code i :: .opening :: start', j, inner', rest ++ .closing :: w, rfl, by simp, h1, h2⟩

end Nest

/-! ## Signs of lines that are read -/

section Reading

variable (code : Nat → Bool) (indent : Nat → Nat)

/-- Lines are those of the block of a line: the lines of code after it, up to the first one that is not
deeper. -/
def Encloses (i : Nat) (inside : List Nat) : Prop :=
  ∀ j, j ∈ inside ↔ code j = true ∧ i < j ∧ ∀ k, i < k → k ≤ j → code k = true → indent i < indent k

/-- The signs of a line after some insertions, which are listed last first. -/
def signsAt (ins : List Insertion) (i : Nat) : List Sign :=
  lineSigns (code i) i (insertedInto ins.reverse i)

/-- The signs of the lines from `a` up to `b`. -/
def signsBetween (ins : List Insertion) (a b : Nat) : List Sign :=
  (List.range' a (b - a)).flatMap (signsAt code ins)

variable {code indent} {ins ins' : List Insertion} {a b c : Nat}

theorem signsAt_cons (k : Nat) (cs : List Char) (ins : List Insertion) (i : Nat) :
    signsAt code ((k, cs) :: ins) i =
      signsAt code ins i ++ if k = i then cs.filterMap Sign.ofChar? else [] := by
  unfold signsAt lineSigns insertedInto
  rw [List.reverse_cons, List.filter_append, List.flatMap_append, List.filterMap_append,
    List.append_assoc]
  by_cases h : k = i <;> simp [h]

/-- A line that is no code and has no insertions has no signs. -/
theorem signsAt_idle {i : Nat} (hcode : code i = false) (hins : ∀ x ∈ ins, x.1 ≠ i) :
    signsAt code ins i = [] := by
  have hfilter : ins.reverse.filter (·.1 == i) = [] := by
    rw [List.filter_eq_nil_iff]
    intro x hx
    simpa using hins x (List.mem_reverse.mp hx)
  simp [signsAt, lineSigns, insertedInto, hcode, hfilter]

/-- A line of code without insertions. -/
theorem signsAt_code {i : Nat} (hcode : code i = true) (hins : ∀ x ∈ ins, x.1 ≠ i) :
    signsAt code ins i = [.code i] := by
  have hfilter : ins.reverse.filter (·.1 == i) = [] := by
    rw [List.filter_eq_nil_iff]
    intro x hx
    simpa using hins x (List.mem_reverse.mp hx)
  simp [signsAt, lineSigns, insertedInto, hcode, hfilter]

theorem signsBetween_self (ins : List Insertion) (a : Nat) : signsBetween code ins a a = [] := by
  simp [signsBetween]

theorem signsBetween_append (ins : List Insertion) (hab : a ≤ b) (hbc : b ≤ c) :
    signsBetween code ins a b ++ signsBetween code ins b c = signsBetween code ins a c := by
  unfold signsBetween
  rw [← List.flatMap_append]
  congr 1
  have h : List.range' a (b - a) ++ List.range' (a + 1 * (b - a)) (c - b) =
      List.range' a (b - a + (c - b)) := List.range'_append
  rwa [Nat.one_mul, Nat.add_sub_cancel' hab, show b - a + (c - b) = c - a by omega] at h

theorem signsBetween_one (ins : List Insertion) (i : Nat) :
    signsBetween code ins i (i + 1) = signsAt code ins i := by
  simp [signsBetween]

theorem signsBetween_succ (ins : List Insertion) (hab : a ≤ b) :
    signsBetween code ins a (b + 1) = signsBetween code ins a b ++ signsAt code ins b := by
  rw [← signsBetween_append ins hab (Nat.le_succ b), signsBetween_one]

theorem signsBetween_cons (ins : List Insertion) (hab : a < b) :
    signsBetween code ins a b = signsAt code ins a ++ signsBetween code ins (a + 1) b := by
  rw [← signsBetween_append ins (Nat.le_succ a) hab, signsBetween_one]

theorem signsBetween_congr (h : ∀ i, a ≤ i → i < b → signsAt code ins i = signsAt code ins' i) :
    signsBetween code ins a b = signsBetween code ins' a b := by
  unfold signsBetween
  rw [List.flatMap_def, List.flatMap_def]
  congr 1
  apply List.map_congr_left
  intro i hi
  rw [List.mem_range'_1] at hi
  exact h i hi.1 (by omega)

theorem signsBetween_eq_nil (h : ∀ i, a ≤ i → i < b → signsAt code ins i = []) :
    signsBetween code ins a b = [] := by
  unfold signsBetween
  rw [List.flatMap_eq_nil_iff]
  intro i hi
  rw [List.mem_range'_1] at hi
  exact h i hi.1 (by omega)

theorem mem_linesOf_signsAt {i j : Nat} :
    j ∈ linesOf (signsAt code ins i) ↔ j = i ∧ code i = true := by
  have hbrackets : ∀ cs : List Char, linesOf (cs.filterMap Sign.ofChar?) = [] := by
    intro cs
    unfold linesOf
    rw [List.filterMap_filterMap, List.filterMap_eq_nil_iff]
    intro x _
    unfold Sign.ofChar?
    split
    · rfl
    · split <;> rfl
  unfold signsAt lineSigns
  rw [linesOf_append, hbrackets, List.append_nil]
  split
  · rename_i hcode
    simp [linesOf, Sign.line?, hcode]
  · rename_i hcode
    simp [linesOf, hcode]

theorem mem_linesOf_signsBetween {j : Nat} :
    j ∈ linesOf (signsBetween code ins a b) ↔ a ≤ j ∧ j < b ∧ code j = true := by
  unfold signsBetween linesOf
  rw [List.filterMap_flatMap, List.mem_flatMap]
  constructor
  · rintro ⟨i, hi, hj⟩
    obtain ⟨rfl, hcode⟩ := mem_linesOf_signsAt.mp hj
    rw [List.mem_range'_1] at hi
    exact ⟨hi.1, by omega, hcode⟩
  · rintro ⟨h1, h2, hcode⟩
    refine ⟨j, ?_, mem_linesOf_signsAt.mpr ⟨rfl, hcode⟩⟩
    rw [List.mem_range'_1]
    omega

/-! ## Open selectors -/

/-- The lines up to `hi`, of which some are selectors that are still open, innermost first: before,
between and after these the brackets pair up, and a selector that is open has none. -/
def Pending (code : Nat → Bool) (indent : Nat → Nat) (ins : List Insertion) :
    (selectors : List Nat) → (hi : Nat) → Prop
  | [], hi => Nest (Encloses code indent) (signsBetween code ins 0 hi)
  | i :: outer, hi => i < hi ∧ signsAt code ins i = [.code i] ∧
    Nest (Encloses code indent) (signsBetween code ins (i + 1) hi) ∧ Pending code indent ins outer i

variable {selectors : List Nat} {mid hi : Nat}

theorem Pending.congr (h : Pending code indent ins selectors hi)
    (hsame : ∀ j, j < hi → signsAt code ins j = signsAt code ins' j) :
    Pending code indent ins' selectors hi := by
  induction selectors generalizing hi with
  | nil =>
    unfold Pending at h ⊢
    rwa [← signsBetween_congr fun j _ hj => hsame j hj]
  | cons i outer ih =>
    obtain ⟨hlt, hat, hnest, houter⟩ := h
    refine ⟨hlt, by rw [← hsame i hlt]; exact hat, ?_, ih houter fun j hj => hsame j (by omega)⟩
    rwa [← signsBetween_congr fun j _ hj => hsame j hj]

/-- Lines whose brackets pair up may follow. -/
theorem Pending.extend (h : Pending code indent ins selectors mid) (hle : mid ≤ hi)
    (hnest : Nest (Encloses code indent) (signsBetween code ins mid hi)) :
    Pending code indent ins selectors hi := by
  cases selectors with
  | nil =>
    unfold Pending at h ⊢
    rw [← signsBetween_append ins (Nat.zero_le mid) hle]
    exact h.append hnest
  | cons i outer =>
    obtain ⟨hlt, hat, hinner, houter⟩ := h
    refine ⟨by omega, hat, ?_, houter⟩
    rw [← signsBetween_append ins hlt hle]
    exact hinner.append hnest

/-- What holds of an open selector before line `i`: the lines of code after its own are deeper. -/
structure Frame.Stands (code : Nat → Bool) (indent : Nat → Nat) (i : Nat) (f : Frame) : Prop where
  level : f.level = indent f.line
  line : code f.line = true
  last : code f.last = true
  deeper : ∀ j, f.line < j → j < i → code j = true → f.level < indent j

/-- What holds of a decoration before line `i`, when the last line of code was the one before `n`. -/
structure Decorating.Nests (code : Nat → Bool) (indent : Nat → Nat) (n i : Nat) (d : Decorating) :
    Prop where
  sound : d.Sound n
  upTo : n ≤ i
  inserts : ∀ x ∈ d.insertions, x.1 < n ∧ code x.1 = true
  idle : ∀ j, n ≤ j → j < i → code j = false
  frames : ∀ f ∈ d.stack, f.Stands code indent i
  pending : Pending code indent d.insertions (d.stack.map (·.line)) i

theorem map_line_markContent (stack : List Frame) :
    (markContent stack).map (·.line) = stack.map (·.line) := by
  cases stack <;> rfl

variable {n i : Nat}

theorem stands_markContent {stack : List Frame} (h : ∀ f ∈ stack, f.Stands code indent i) :
    ∀ f ∈ markContent stack, f.Stands code indent i := by
  cases stack with
  | nil => exact h
  | cons g rest =>
    intro f hf
    rcases List.mem_cons.mp hf with rfl | hf
    · obtain ⟨h1, h2, h3, h4⟩ := h g List.mem_cons_self
      exact ⟨h1, h2, h3, h4⟩
    · exact h f (List.mem_cons_of_mem g hf)

variable {d : Decorating} {frame : Frame} {outer : List Frame}

/-- The block of a selector that is closed before line `i`, because that line is not deeper or because
no code follows. -/
theorem Decorating.Nests.encloses (h : d.Nests code indent n i) (hstack : d.stack = frame :: outer)
    (hend : (code i = true ∧ indent i ≤ frame.level) ∨ ∀ j, i ≤ j → code j = false) :
    Encloses code indent frame.line
      (linesOf (signsBetween code d.insertions (frame.line + 1) i)) := by
  obtain ⟨hlevel, -, -, hdeeper⟩ := h.frames frame (hstack ▸ List.mem_cons_self)
  have hn := (h.sound.frames frame (hstack ▸ List.mem_cons_self)).2.1
  have hupTo := h.upTo
  intro j
  rw [mem_linesOf_signsBetween]
  constructor
  · rintro ⟨h1, h2, hcode⟩
    refine ⟨hcode, by omega, fun k hk hkj hkcode => ?_⟩
    rw [← hlevel]
    exact hdeeper k hk (by omega) hkcode
  · rintro ⟨hcode, h1, hrun⟩
    refine ⟨h1, ?_, hcode⟩
    apply Nat.lt_of_not_le
    intro hij
    rcases hend with ⟨hicode, hile⟩ | hnone
    · have := hrun i (by omega) hij hicode
      omega
    · rw [hnone j hij] at hcode
      cases hcode

/-- Signs of lines from `n` on, where nothing has been inserted and no code stands. -/
theorem Decorating.Nests.signsBetween_idle (h : d.Nests code indent n i) :
    signsBetween code d.insertions n i = [] := by
  apply signsBetween_eq_nil
  intro j h1 h2
  apply signsAt_idle (h.idle j h1 h2)
  intro x hx
  have := (h.inserts x hx).1
  omega

theorem closeFrame_pending (h : d.Nests code indent n i) (hstack : d.stack = frame :: outer)
    (hend : (code i = true ∧ indent i ≤ frame.level) ∨ ∀ j, i ≤ j → code j = false) :
    Pending code indent (closeFrame d frame outer).insertions
      ((closeFrame d frame outer).stack.map (·.line)) i := by
  obtain ⟨hlast, hline, hcontent⟩ := h.sound.frames frame (hstack ▸ List.mem_cons_self)
  have hupTo := h.upTo
  have hpending := h.pending
  rw [hstack, List.map_cons] at hpending
  obtain ⟨hlt, hat, hinner, houter⟩ := hpending
  unfold closeFrame
  split
  · rename_i hc
    have hlt' := hcontent hc
    -- only the line of the selector and the last line of code get new signs
    have hsame : ∀ j, j ≠ frame.line → j ≠ frame.last → signsAt code
        ((frame.last, ['}']) :: (frame.line, [' ', '{']) :: d.insertions) j =
        signsAt code d.insertions j := by
      intro j h1 h2
      rw [signsAt_cons, signsAt_cons, if_neg (Ne.symm h1), if_neg (Ne.symm h2), List.append_nil,
        List.append_nil]
    have hopen : signsAt code
        ((frame.last, ['}']) :: (frame.line, [' ', '{']) :: d.insertions) frame.line =
        [.code frame.line, .opening] := by
      rw [signsAt_cons, signsAt_cons, if_pos rfl, if_neg (by omega), hat]
      rfl
    have hblock : signsBetween code
        ((frame.last, ['}']) :: (frame.line, [' ', '{']) :: d.insertions) (frame.line + 1) i =
        signsBetween code d.insertions (frame.line + 1) i ++ [.closing] := by
      have hidle := h.signsBetween_idle
      rw [← hlast] at hidle hupTo
      have hrest : signsBetween code
          ((frame.last, ['}']) :: (frame.line, [' ', '{']) :: d.insertions) (frame.last + 1) i = [] := by
        rw [← hidle]
        exact signsBetween_congr fun j h1 _ => hsame j (by omega) (by omega)
      rw [← signsBetween_append _ (b := frame.last + 1) (by omega) hupTo, hrest,
        ← signsBetween_append d.insertions (b := frame.last + 1) (by omega) hupTo, hidle,
        signsBetween_succ _ (by omega), signsBetween_succ _ (by omega), signsAt_cons, if_pos rfl,
        signsAt_cons, if_neg (by omega)]
      have hinside : signsBetween code ((frame.last, ['}']) :: (frame.line, [' ', '{']) :: d.insertions)
          (frame.line + 1) frame.last = signsBetween code d.insertions (frame.line + 1) frame.last :=
        signsBetween_congr fun j h1 h2 => hsame j (by omega) (by omega)
      rw [hinside]
      simp [Sign.ofChar?]
    rw [map_line_markContent]
    refine (houter.congr fun j hj => (hsame j (by omega) (by omega)).symm).extend
      (Nat.le_of_lt hlt) ?_
    rw [signsBetween_cons _ hlt, hopen, hblock]
    exact .block frame.line hinner (h.encloses hstack hend) .nil
  · have hsame : ∀ j, signsAt code d.insertions j =
        signsAt code ((frame.line, [';']) :: d.insertions) j := by
      intro j
      rw [signsAt_cons]
      by_cases hj : frame.line = j <;> simp [hj, Sign.ofChar?]
    refine (Pending.congr houter fun j _ => hsame j).extend (Nat.le_of_lt hlt) ?_
    rw [signsBetween_cons _ hlt, ← hsame, hat, ← signsBetween_congr fun j _ _ => hsame j]
    exact hinner.line frame.line

/-- Closing the innermost selector. -/
theorem closeFrame_nests (h : d.Nests code indent n i) (hstack : d.stack = frame :: outer)
    (hend : (code i = true ∧ indent i ≤ frame.level) ∨ ∀ j, i ≤ j → code j = false) :
    (closeFrame d frame outer).Nests code indent n i := by
  obtain ⟨hlast, hline, -⟩ := h.sound.frames frame (hstack ▸ List.mem_cons_self)
  obtain ⟨-, hlineCode, hlastCode, -⟩ := h.frames frame (hstack ▸ List.mem_cons_self)
  have houter : ∀ f ∈ outer, f.Stands code indent i := fun f hf => h.frames f (hstack ▸ List.mem_cons_of_mem frame hf)
  refine ⟨closeFrame_sound h.sound hstack, h.upTo, ?_, h.idle, ?_, closeFrame_pending h hstack hend⟩
  · intro x hx
    unfold closeFrame at hx
    split at hx
    · rcases List.mem_cons.mp hx with rfl | hx
      · exact ⟨by dsimp only; omega, hlastCode⟩
      · rcases List.mem_cons.mp hx with rfl | hx
        · exact ⟨hline, hlineCode⟩
        · exact h.inserts x hx
    · rcases List.mem_cons.mp hx with rfl | hx
      · exact ⟨hline, hlineCode⟩
      · exact h.inserts x hx
  · unfold closeFrame
    split
    · exact stands_markContent houter
    · exact houter

theorem length_stack_closeFrame (d : Decorating) (frame : Frame) (outer : List Frame) :
    (closeFrame d frame outer).stack.length = outer.length := by
  unfold closeFrame
  split
  · cases outer <;> rfl
  · rfl

/-- Closing the selectors that a line of code is outside of leaves those that it is inside of. -/
theorem closeDeeper_nests (fuel : Nat) (h : d.Nests code indent n i) (hcode : code i = true)
    (hfuel : d.stack.length ≤ fuel) :
    (closeDeeper (indent i) fuel d).Nests code indent n i ∧
      ∀ f ∈ (closeDeeper (indent i) fuel d).stack, f.level < indent i := by
  induction fuel generalizing d with
  | zero =>
    have hnil : d.stack = [] := List.length_eq_zero_iff.mp (Nat.le_zero.mp hfuel)
    refine ⟨h, fun f hf => ?_⟩
    rw [closeDeeper, hnil] at hf
    exact absurd hf List.not_mem_nil
  | succ fuel ih =>
    unfold closeDeeper
    split
    · rename_i hnil
      refine ⟨h, fun f hf => ?_⟩
      rw [hnil] at hf
      exact absurd hf List.not_mem_nil
    · rename_i frame outer hstack
      split
      · rename_i hle
        apply ih (closeFrame_nests h hstack (.inl ⟨hcode, hle⟩))
        rw [length_stack_closeFrame]
        rw [hstack, List.length_cons] at hfuel
        omega
      · rename_i hlt
        refine ⟨h, fun f hf => ?_⟩
        rw [hstack] at hf
        rcases List.mem_cons.mp hf with rfl | hf
        · omega
        · -- a selector further out is less deep than the innermost one
          obtain ⟨hlevel, hframe, -, -⟩ := h.frames frame (hstack ▸ List.mem_cons_self)
          have hline := (List.pairwise_cons.mp (hstack ▸ h.sound.nested)).1 f hf
          have hn := (h.sound.frames frame (hstack ▸ List.mem_cons_self)).2.1
          have hupTo := h.upTo
          have := (h.frames f (hstack ▸ List.mem_cons_of_mem frame hf)).deeper frame.line hline
            (by omega) hframe
          omega

theorem closeAll_nests {fuel : Nat} (h : d.Nests code indent n i) (hnone : ∀ j, i ≤ j → code j = false)
    (hfuel : d.stack.length ≤ fuel) :
    (closeAll fuel d).Nests code indent n i ∧ (closeAll fuel d).stack = [] := by
  induction fuel generalizing d with
  | zero => exact ⟨h, List.length_eq_zero_iff.mp (Nat.le_zero.mp hfuel)⟩
  | succ fuel ih =>
    unfold closeAll
    split
    · rename_i hnil
      exact ⟨h, hnil⟩
    · rename_i frame outer hstack
      apply ih (closeFrame_nests h hstack (.inr hnone))
      rw [length_stack_closeFrame]
      rw [hstack, List.length_cons] at hfuel
      omega

/-! ## Reading lines -/

/-- A line without code changes nothing. -/
theorem Decorating.Nests.skip (h : d.Nests code indent n i) (hcode : code i = false) {d' : Decorating}
    (hstack : d'.stack = d.stack) (hins : d'.insertions = d.insertions) :
    d'.Nests code indent n (i + 1) := by
  refine ⟨h.sound.same hstack hins, by have := h.upTo; omega, hins ▸ h.inserts, ?_, ?_, ?_⟩
  · intro j h1 h2
    rcases Nat.lt_succ_iff_lt_or_eq.mp h2 with h2 | rfl
    · exact h.idle j h1 h2
    · exact hcode
  · intro f hf
    obtain ⟨h1, h2, h3, h4⟩ := h.frames f (hstack ▸ hf)
    refine ⟨h1, h2, h3, fun j hj hji hjcode => ?_⟩
    rcases Nat.lt_succ_iff_lt_or_eq.mp hji with hji | rfl
    · exact h4 j hj hji hjcode
    · rw [hcode] at hjcode
      cases hjcode
  · rw [hstack, hins]
    apply h.pending.extend (Nat.le_succ i)
    rw [signsBetween_one, signsAt_idle hcode]
    · exact .nil
    · intro x hx
      have := (h.inserts x hx).1
      have := h.upTo
      omega

/-- A line of code inside of all selectors that are open: it is the last line of code of each. -/
theorem Decorating.Nests.inside (h : d.Nests code indent n i) (hcode : code i = true)
    (hdeep : ∀ f ∈ d.stack, f.level < indent i) :
    ∀ f ∈ d.stack.map (fun f => { f with last := i }), f.Stands code indent (i + 1) := by
  intro f hf
  obtain ⟨g, hg, rfl⟩ := List.mem_map.mp hf
  obtain ⟨h1, h2, -, h4⟩ := h.frames g hg
  refine ⟨h1, h2, hcode, fun j hj hji hjcode => ?_⟩
  rcases Nat.lt_succ_iff_lt_or_eq.mp hji with hji | rfl
  · exact h4 j hj hji hjcode
  · exact hdeep g hg

/-- What a line of code makes of the open selectors and the insertions, once the selectors that it is
outside of are closed. -/
theorem Decorating.Nests.enter (h : d.Nests code indent n i) (hcode : code i = true)
    (hdeep : ∀ f ∈ d.stack, f.level < indent i) (statement : Bool) :
    (if statement then
        { d with
          stack := markContent (d.stack.map fun frame => { frame with last := i })
          insertions := (i, [';']) :: d.insertions }
      else
        { d with
          stack := { level := indent i, line := i, last := i } ::
            d.stack.map fun frame => { frame with last := i } } : Decorating).Nests
      code indent (i + 1) (i + 1) := by
  have hn := h.upTo
  have hnext := h.sound.next hn
  have hframes := h.inside hcode hdeep
  have hlines : ∀ f ∈ d.stack.map (fun f => { f with last := i }), f.line < i := by
    intro f hf
    obtain ⟨g, hg, rfl⟩ := List.mem_map.mp hf
    have := (h.sound.frames g hg).2.1
    dsimp only
    omega
  have hins : ∀ x ∈ d.insertions, x.1 < i + 1 ∧ code x.1 = true := by
    intro x hx
    have := h.inserts x hx
    exact ⟨by omega, this.2⟩
  have hfresh : ∀ x ∈ d.insertions, x.1 ≠ i := by
    intro x hx
    have := (h.inserts x hx).1
    omega
  have hmap : (d.stack.map fun f => { f with last := i }).map (·.line) = d.stack.map (·.line) := by
    rw [List.map_map]
    rfl
  split
  · refine ⟨(hnext.content fun f hf => Nat.succ_lt_succ (hlines f hf)).semicolon i, Nat.le_refl _, ?_,
      fun j h1 h2 => by omega, stands_markContent hframes, ?_⟩
    · intro x hx
      rcases List.mem_cons.mp hx with rfl | hx
      · exact ⟨Nat.lt_succ_self i, hcode⟩
      · exact hins x hx
    · have hsame : ∀ j, signsAt code d.insertions j = signsAt code ((i, [';']) :: d.insertions) j := by
        intro j
        rw [signsAt_cons]
        by_cases hj : i = j <;> simp [hj, Sign.ofChar?]
      rw [map_line_markContent, hmap]
      refine (h.pending.congr fun j _ => hsame j).extend (Nat.le_succ i) ?_
      rw [signsBetween_one, ← hsame, signsAt_code hcode hfresh]
      exact .line i .nil
  · refine ⟨hnext.push hlines (fun x hx hclose => ?_) (indent i), Nat.le_refl _, hins,
      fun j h1 h2 => by omega, ?_, ?_⟩
    · have := (h.sound.closes x hx hclose).1
      omega
    · intro f hf
      rcases List.mem_cons.mp hf with rfl | hf
      · exact ⟨rfl, hcode, hcode, fun j h1 h2 => by dsimp only at h1; omega⟩
      · exact hframes f hf
    · rw [List.map_cons, hmap]
      refine ⟨Nat.lt_succ_self i, signsAt_code hcode hfresh, ?_, h.pending⟩
      rw [signsBetween_self]
      exact .nil

theorem readLine_nests (h : d.Nests code indent n i) (body : List Char)
    (hcode : code i = (!d.inComment && !(codeOf body).isEmpty))
    (hindent : indent i = indentation body) :
    ∃ n', (readLine d i body).Nests code indent n' (i + 1) := by
  unfold readLine
  split
  · rename_i hcomment
    rw [hcomment] at hcode
    exact ⟨n, h.skip hcode rfl rfl⟩
  · rename_i hcomment
    rw [Bool.not_eq_true] at hcomment
    rw [hcomment] at hcode
    change code i = !(codeOf body).isEmpty at hcode
    dsimp only
    split
    · rename_i hempty
      change (codeOf body).isEmpty = true at hempty
      rw [hempty] at hcode
      exact ⟨n, h.skip hcode rfl rfl⟩
    · rename_i hempty
      change ¬(codeOf body).isEmpty = true at hempty
      rw [Bool.not_eq_true] at hempty
      rw [hempty] at hcode
      have hstopped : ({ d with ends := codeStop body :: d.ends } : Decorating).Nests code indent n i :=
        ⟨h.sound.same rfl rfl, h.upTo, h.inserts, h.idle, h.frames, h.pending⟩
      obtain ⟨hclosed, hdeep⟩ := closeDeeper_nests d.stack.length hstopped hcode (Nat.le_refl _)
      have henter := hclosed.enter hcode hdeep
        (isStatement (String.ofList (codeOf body)))
      rw [hindent] at henter
      exact ⟨i + 1, henter⟩

theorem closeFrame_inComment (d : Decorating) (frame : Frame) (outer : List Frame) :
    (closeFrame d frame outer).inComment = d.inComment := by
  unfold closeFrame
  split <;> rfl

theorem closeDeeper_inComment (indent fuel : Nat) (d : Decorating) :
    (closeDeeper indent fuel d).inComment = d.inComment := by
  induction fuel generalizing d with
  | zero => rfl
  | succ fuel ih =>
    unfold closeDeeper
    split
    · rfl
    · split
      · rw [ih, closeFrame_inComment]
      · rfl

theorem readLine_inComment (d : Decorating) (i : Nat) (body : List Char) :
    (readLine d i body).inComment = leavesComment d.inComment body := by
  unfold readLine leavesComment
  split
  · rfl
  · rename_i hcomment
    dsimp only
    split
    · rename_i hempty
      change (codeOf body).isEmpty = true at hempty
      rw [hempty, Bool.true_and]
    · rename_i hempty
      change ¬(codeOf body).isEmpty = true at hempty
      rw [Bool.not_eq_true] at hempty hcomment
      rw [hempty, Bool.false_and]
      split
      · exact (closeDeeper_inComment _ _ _).trans hcomment
      · exact (closeDeeper_inComment _ _ _).trans hcomment

theorem readLines_nests (h : d.Nests code indent n i) (bodies : List (List Char))
    (hcode : ∀ k, k < bodies.length → code (i + k) = (codeFlags d.inComment bodies).getD k false)
    (hindent : ∀ k, k < bodies.length → indent (i + k) = indentation (bodies.getD k [])) :
    ∃ n', (readLines d i bodies).Nests code indent n' (i + bodies.length) := by
  induction bodies generalizing d i n with
  | nil => exact ⟨n, h⟩
  | cons body rest ih =>
    obtain ⟨n', hline⟩ := readLine_nests h body (hcode 0 (Nat.succ_pos _)) (hindent 0 (Nat.succ_pos _))
    unfold readLines
    obtain ⟨n'', hlines⟩ := ih hline
      (by
        intro k hk
        have hk' := hcode (k + 1) (Nat.succ_lt_succ hk)
        rw [readLine_inComment, Nat.add_right_comm]
        exact hk')
      (by
        intro k hk
        have hk' := hindent (k + 1) (Nat.succ_lt_succ hk)
        rw [Nat.add_right_comm]
        exact hk')
    refine ⟨n'', ?_⟩
    rw [List.length_cons, ← Nat.add_assoc, Nat.add_right_comm]
    exact hlines

end Reading

/-! ## Decorated texts -/

/-- The inserted characters of a decorated text, in its order. -/
def insertedChars (ls : List Line) : List Char := ((flagged ls).filter (·.2)).map Prod.fst

theorem inserted_flagged_line (l : Line) : (l.flagged.filter (·.2)).map Prod.fst = l.inserted := by
  have hkept : ∀ cs : List Char, (cs.map (·, false)).filter (·.2) = [] := by
    intro cs
    rw [List.filter_eq_nil_iff]
    simp
  unfold Line.flagged
  rw [List.filter_append, List.filter_append, hkept, hkept, List.filter_eq_self.mpr (by simp),
    List.append_nil, List.nil_append, List.map_map]
  exact List.map_id l.inserted

theorem insertedChars_eq (ls : List Line) : insertedChars ls = ls.flatMap (·.inserted) := by
  unfold insertedChars
  induction ls with
  | nil => rfl
  | cons l rest ih =>
    cases rest with
    | nil => rw [flagged, inserted_flagged_line, List.flatMap_singleton]
    | cons m more =>
      rw [flagged_cons (by simp), List.filter_append, List.map_append, inserted_flagged_line,
        List.filter_cons_of_neg (by simp), ih]
      rfl

/-- The brackets among the signs are those that were inserted, in the same order. -/
theorem filterMap_char?_signs (source : List Char) :
    (signs source).filterMap Sign.char? =
      (insertedChars (decorate source)).filter fun c => c == '{' || c == '}' := by
  have hline : ∀ (isCode : Bool) (i : Nat) (cs : List Char),
      (lineSigns isCode i cs).filterMap Sign.char? = cs.filter fun c => c == '{' || c == '}' := by
    intro isCode i cs
    have hcode : (if isCode then [Sign.code i] else []).filterMap Sign.char? = [] := by
      split <;> rfl
    unfold lineSigns
    rw [List.filterMap_append, hcode, List.nil_append]
    induction cs with
    | nil => rfl
    | cons c rest ih =>
      by_cases hopen : c = '{'
      · rw [hopen, List.filterMap_cons_some (by rfl), List.filterMap_cons_some (by rfl), ih]
        rfl
      · by_cases hclose : c = '}'
        · rw [hclose, List.filterMap_cons_some (by rfl), List.filterMap_cons_some (by rfl), ih]
          rfl
        · rw [List.filterMap_cons_none (by simp [Sign.ofChar?, hopen, hclose]), ih,
            List.filter_cons_of_neg (by simp [hopen, hclose])]
  rw [insertedChars_eq, signs, List.filterMap_flatMap, List.filter_flatMap]
  simp only [hline]
  rw [← List.flatMap_map Prod.fst fun l : Line => l.inserted.filter fun c => c == '{' || c == '}',
    List.zipIdx_map_fst]

/-- What is inserted into the lines of a source in the end, last first. -/
def finalInsertions (source : List Char) : List Insertion :=
  let d := readLines {} 0 ((Text.lines source).map withoutReturn)
  (closeAll d.stack.length d).insertions

theorem length_decorate (source : List Char) :
    (decorate source).length = (Text.lines source).length := by
  rw [← map_text_decorate, List.length_map]

theorem inserted_decorate {source : List Char} {i : Nat} {l : Line} (h : (decorate source)[i]? = some l) :
    l.inserted = insertedInto (finalInsertions source).reverse i := by
  simp only [decorate, List.getElem?_map, List.getElem?_zipIdx, Option.map_map] at h
  obtain ⟨text, -, rfl⟩ := Option.map_eq_some_iff.mp h
  simp [finalInsertions]

theorem signs_eq (source : List Char) :
    signs source = signsBetween (isCode source) (finalInsertions source) 0
      (Text.lines source).length := by
  unfold signs signsBetween
  rw [List.flatMap_def, List.flatMap_def]
  congr 1
  apply List.ext_getElem?
  intro i
  rw [List.getElem?_map, List.getElem?_map, List.getElem?_zipIdx, Nat.sub_zero, ← length_decorate]
  by_cases hi : i < (decorate source).length
  · rw [List.getElem?_eq_getElem hi, List.getElem?_range' hi]
    simp only [Option.map_some, Nat.zero_add, Nat.one_mul, signsAt]
    rw [inserted_decorate (List.getElem?_eq_getElem hi)]
  · rw [List.getElem?_eq_none (by omega), List.getElem?_eq_none (by rw [List.length_range']; omega)]
    rfl

theorem length_codeFlags (inComment : Bool) (bodies : List (List Char)) :
    (codeFlags inComment bodies).length = bodies.length := by
  induction bodies generalizing inComment with
  | nil => rfl
  | cons body rest ih => rw [codeFlags, List.length_cons, ih, List.length_cons]

theorem not_isCode_of_le {source : List Char} {i : Nat} (h : (Text.lines source).length ≤ i) :
    isCode source i = false := by
  unfold isCode
  rw [List.getD_eq_getElem?_getD, List.getElem?_eq_none]
  · rfl
  · rw [length_codeFlags, List.length_map]
    exact h

theorem Decorating.nests_empty (code : Nat → Bool) (indent : Nat → Nat) :
    ({} : Decorating).Nests code indent 0 0 := by
  refine ⟨Decorating.sound_empty 0, Nat.le_refl 0, by simp, fun j _ h => by omega, by simp, ?_⟩
  change Nest _ (signsBetween code [] 0 0)
  rw [signsBetween_self]
  exact .nil

/-- The whole decoration: all selectors are closed. -/
theorem nests_final (source : List Char) :
    Nest (Encloses (isCode source) (indentAt source)) (signs source) ∧
      ∀ x ∈ finalInsertions source, isCode source x.1 = true := by
  obtain ⟨n, hread⟩ := readLines_nests (Decorating.nests_empty (isCode source) (indentAt source))
    ((Text.lines source).map withoutReturn)
    (fun k _ => by rw [Nat.zero_add]; rfl) (fun k _ => by rw [Nat.zero_add]; rfl)
  rw [List.length_map, Nat.zero_add] at hread
  obtain ⟨hclosed, hnil⟩ := closeAll_nests hread (fun j hj => not_isCode_of_le hj) (Nat.le_refl _)
  have hpending := hclosed.pending
  rw [hnil, List.map_nil] at hpending
  rw [signs_eq]
  exact ⟨hpending, fun x hx => (hclosed.inserts x hx).2⟩

/-- The bracket of a selector follows its line among the signs. -/
theorem signs_of_opening {source : List Char} {i : Nat} {l : Line} (hl : (decorate source)[i]? = some l)
    (hopen : '{' ∈ l.inserted) :
    ∃ before after, signs source = before ++ .code i :: .opening :: after := by
  obtain ⟨hnest, hcode⟩ := nests_final source
  have hi : i < (Text.lines source).length := by
    rw [← length_decorate]
    exact (List.getElem?_eq_some_iff.mp hl).1
  have hins := inserted_decorate hl
  -- the line is one of code, since something is inserted into it
  obtain ⟨x, hx, rfl, -⟩ := mem_insertedInto.mp (hins ▸ hopen)
  have hline : signsAt (isCode source) (finalInsertions source) x.1 =
      .code x.1 :: l.inserted.filterMap Sign.ofChar? := by
    unfold signsAt lineSigns
    rw [if_pos (hcode x (List.mem_reverse.mp hx)), ← hins]
    rfl
  obtain ⟨marks, others, hsplit⟩ := List.append_of_mem
    (List.mem_filterMap.mpr ⟨'{', hopen, rfl⟩ : Sign.opening ∈ l.inserted.filterMap Sign.ofChar?)
  have hsigns : signs source =
      signsBetween (isCode source) (finalInsertions source) 0 x.1 ++ .code x.1 :: marks ++ .opening ::
        (others ++ signsBetween (isCode source) (finalInsertions source) (x.1 + 1)
          (Text.lines source).length) := by
    rw [signs_eq, ← signsBetween_append _ (Nat.zero_le x.1) (Nat.le_of_lt hi), signsBetween_cons _ hi,
      hline, hsplit]
    simp
  -- a bracket that is opened follows a line of code, so no other bracket is inserted before it
  obtain ⟨start, j, -, -, hbefore, -⟩ := hnest.of_opening hsigns
  have hmarks : marks = [] := by
    cases hlast : marks.getLast? with
    | none => exact List.getLast?_eq_none_iff.mp hlast
    | some s =>
      have hmem : s ∈ l.inserted.filterMap Sign.ofChar? := by
        rw [hsplit]
        exact List.mem_append_left _ (List.mem_of_getLast? hlast)
      have hs := congrArg List.getLast? hbefore
      rw [List.getLast?_append, List.getLast?_cons, hlast, List.getLast?_concat] at hs
      obtain ⟨c, -, hc⟩ := List.mem_filterMap.mp hmem
      simp only [Option.getD_some, Option.some_or, Option.some.injEq] at hs
      rw [hs] at hc
      unfold Sign.ofChar? at hc
      split at hc
      · cases hc
      · split at hc <;> cases hc
  refine ⟨signsBetween (isCode source) (finalInsertions source) 0 x.1,
    others ++ signsBetween (isCode source) (finalInsertions source) (x.1 + 1)
      (Text.lines source).length, ?_⟩
  rw [hsigns, hmarks, List.append_assoc]
  rfl

/-- Decorated lines are those of a source with characters put in between: without these the text is the
source, and so is each of its lines. -/
structure ErasesTo (ls : List Line) (source : List Char) : Prop where
  text : (flagged ls).map Prod.fst = braced ls
  erased : erase (flagged ls) = source
  lines : ls.map (fun l => l.flagged.map Prod.fst) = Text.lines (braced ls)
  sourceLines : ls.map (fun l => erase l.flagged) = Text.lines source
  count : (Text.lines (braced ls)).length = (Text.lines source).length

/-- The way back from decorated lines never goes backwards, leads the end to the end, and each character
of the source to its place. -/
structure LeadsBack (ls : List Line) (source : List Char) : Prop where
  mono : ∀ a b, a ≤ b → b ≤ (braced ls).length → toSource ls a ≤ toSource ls b
  stop : toSource ls (braced ls).length = source.length
  char : ∀ offset c, (flagged ls)[offset]? = some (c, false) → source[toSource ls offset]? = some c

/-- The inserted brackets pair up, and the lines of code between the bracket of a selector and the one
that closes it are those after the selector that it is shallower than, up to the first line of code that
it is not. -/
structure BracesBlocks (ls : List Line) (source : List Char) : Prop where
  inserted : (signs source).filterMap Sign.char? = (insertedChars ls).filter (fun c => c == '{' || c == '}')
  paired : balanced 0 (signs source) = true
  blocks : ∀ i l, ls[i]? = some l → '{' ∈ l.inserted →
    ∃ before after, signs source = before ++ .code i :: .opening :: after ∧
      ∀ j, j ∈ enclosed 0 after ↔ isCode source j = true ∧ i < j ∧
        ∀ k, i < k → k ≤ j → isCode source k = true → indentAt source i < indentAt source k

/-- The decoration of a source can be undone, leads back to the source, and braces its blocks. -/
theorem decorate_nests (source : List Char) :
    ErasesTo (decorate source) source ∧ LeadsBack (decorate source) source ∧
      BracesBlocks (decorate source) source := by
  obtain ⟨hnest, -⟩ := nests_final source
  refine ⟨⟨map_fst_flagged _, ?_, ?_, ?_, ?_⟩, ⟨?_, toSource_length source, ?_⟩,
    filterMap_char?_signs source, ?_, ?_⟩
  · rw [erase_flagged, map_text_decorate, Text.join_lines]
  · rw [lines_braced]
    exact List.map_congr_left fun l _ => map_fst_flagged_line l
  · rw [← map_text_decorate]
    exact List.map_congr_left fun l _ => erase_flagged_line l
  · rw [lines_braced, List.length_map, length_decorate]
  · intro a b hab _
    exact toSource_mono source hab
  · intro offset c h
    exact getElem?_toSource h
  · have h := hnest.balanced_append 0 []
    rwa [List.append_nil] at h
  · intro i l hl hopen
    obtain ⟨before, after, hsigns⟩ := signs_of_opening hl hopen
    refine ⟨before, after, hsigns, ?_⟩
    have hsplit : signs source = (before ++ [.code i]) ++ .opening :: after := by
      rw [hsigns, List.append_assoc]
      rfl
    obtain ⟨start, i', inner, rest, hstart, rfl, hinner, hlines⟩ := hnest.of_opening hsplit
    obtain ⟨-, hi⟩ := List.append_inj' hstart rfl
    cases hi
    rw [hinner.enclosed_append, enclosed, List.append_nil]
    exact hlines

end MemberOrder.Style.Indented
