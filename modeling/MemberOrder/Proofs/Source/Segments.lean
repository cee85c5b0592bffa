/-
  The segments of a masked text.

  The parsers of scripts and structs cut the masked text of a body character by character. What they
  know of a segment they can look up behind them: where its code stops is where the previous code does,
  and whether its line goes on shows in the characters before (`HeldAt`, `HeldAt.read`). A parser that
  finds in every step what a splitter cuts there finds the segments of the splitter (`foldl_cut`).
-/
import MemberOrder.Proofs.Source.Splitting
import MemberOrder.Struct.Document

namespace MemberOrder.Splitter

variable {s : Scanned} {p : Splitter} {start i a b : Nat} {ch : Char} {h : Held}

/-- The first code from an offset on. -/
def codeFrom (s : Scanned) (i : Nat) : Option Char := s.masked[s.nextCodeToEnd i]?

theorem codeFrom_of_space (hch : s.masked[i]? = some ch) (hspace : Text.isSpace ch = true) :
    codeFrom s i = codeFrom s (i + 1) := by
  have hi := Text.lt_size_of_getElem? hch
  have hstep : s.masked.size - i = s.masked.size - (i + 1) + 1 := by omega
  have hnext : s.nextCodeToEnd i = s.nextCodeToEnd (i + 1) := by
    rw [Scanned.nextCodeToEnd, Text.nextCode, hstep, Text.skipSpaces, Text.testAt_of_getElem? hch, hspace,
      decide_eq_true hi, Bool.and_self, if_pos rfl]
    rfl
  rw [codeFrom, hnext]
  rfl

theorem codeFrom_of_code (hch : s.masked[i]? = some ch) (hcode : Text.isSpace ch = false) :
    codeFrom s i = some ch := by
  have hle : s.nextCodeToEnd i ≤ i := Text.nextCode_le_of_code (Nat.le_refl i)
    (by rw [Text.testAt_of_getElem? hch, hcode])
  have hge : i ≤ s.nextCodeToEnd i := Text.le_nextCode _ _ _
  rw [codeFrom, Nat.le_antisymm hle hge, hch]

theorem slice_eq_cons (hch : s.masked[i]? = some ch) (hib : i < b) :
    s.masked.slice i b = ch :: s.masked.slice (i + 1) b := by
  rw [← Text.slice_append _ (Nat.le_succ i) hib, Text.slice_one hch]
  rfl

/-- A slice up to an offset and what follows it have the first code from its start on. -/
theorem firstCode_slice (hib : i ≤ b) (hb : b ≤ s.masked.size) :
    firstCode (s.masked.slice i b) (codeFrom s b) = codeFrom s i := by
  generalize hn : b - i = n
  induction n generalizing i with
  | zero =>
    obtain rfl : i = b := by omega
    rw [Text.slice_self _ (Nat.le_refl i)]
    rfl
  | succ n ih =>
    have hch : s.masked[i]? = some s.masked[i] := Array.getElem?_eq_getElem (by omega)
    have hslice := slice_eq_cons hch (show i < b by omega)
    cases hspace : Text.isSpace s.masked[i] with
    | true =>
      rw [hslice, codeFrom_of_space hch hspace, ← ih (i := i + 1) (by omega) (by omega)]
      simp [firstCode, hspace]
    | false =>
      rw [hslice, codeFrom_of_code hch hspace]
      simp [firstCode, hspace]

/-! ## Looking back -/

/-- What is held at `i` of a segment can be looked up in the masked text before `i`. -/
structure HeldAt (s : Scanned) (i : Nat) (h : Held) : Prop where
  le : h.start ≤ i
  /-- The character where it starts is code. -/
  code : s.masked.testAt h.start Text.isSpace = false
  /-- When its first character is read nothing is held. -/
  fresh : h.start = i → h.angle = 0 ∧ h.last = ' '
  last : h.start < i → s.masked[i - 1]? = some h.last
  stop : h.start < i → h.stop = s.prevCode i h.start
  isOpen : h.start < i → h.isOpen = (s.masked.testAt (h.stop - 1) Script.continuesAfter.contains ||
    (decide (h.start + 1 < h.stop) && s.masked.standsAt (h.stop - 2) ['=', '>']))

theorem prevCode_succ (hlt : start ≤ i) (hch : s.masked[i]? = some ch) :
    s.prevCode (i + 1) start = if Text.isSpace ch then s.prevCode i start else i + 1 := by
  rw [Scanned.prevCode, Text.prevCode, Text.testAt_of_getElem? hch,
    decide_eq_true (Nat.lt_succ_of_le hlt), Bool.true_and]
  rfl

/-- Where the previous code stops it stops. -/
theorem prevCode_prevCode (h : start < s.prevCode i start) :
    s.prevCode (s.prevCode i start) start = s.prevCode i start := by
  refine Nat.le_antisymm (Text.prevCode_le _ _ _) ?_
  have hcode := Text.code_before_prevCode h
  have hbefore : s.prevCode i start - 1 < s.prevCode i start := by omega
  have : s.prevCode i start - 1 < s.masked.prevCode start (s.prevCode i start) :=
    Text.lt_prevCode_of_code hcode hbefore
  unfold Scanned.prevCode at *
  omega

/-- A segment has code. -/
theorem HeldAt.start_lt_stop (hheld : HeldAt s i h) (hlt : h.start < i) : h.start < h.stop := by
  rw [hheld.stop hlt]
  exact Text.lt_prevCode_of_code hheld.code hlt

theorem HeldAt.enter (hch : s.masked[i]? = some ch) (hcode : Text.isSpace ch = false) :
    HeldAt s i { start := i, stop := i } where
  le := Nat.le_refl i
  code := by rw [Text.testAt_of_getElem? hch, hcode]
  fresh _ := ⟨rfl, rfl⟩
  last hlt := absurd hlt (Nat.lt_irrefl i)
  stop hlt := absurd hlt (Nat.lt_irrefl i)
  isOpen hlt := absurd hlt (Nat.lt_irrefl i)

theorem HeldAt.read (p : Splitter) (hheld : HeldAt s i h) (hch : s.masked[i]? = some ch) :
    HeldAt s (i + 1) (h.read p i ch) := by
  have hle := hheld.le
  refine ⟨Nat.le_succ_of_le hle, hheld.code, fun heq => ?_, fun _ => hch, fun _ => ?_, fun _ => ?_⟩
  · have : h.start = i + 1 := heq
    omega
  · -- white space does not belong to the code
    rw [show (h.read p i ch).start = h.start from rfl, prevCode_succ hle hch]
    by_cases hspace : Text.isSpace ch = true
    · have hlt : h.start < i := by
        refine Nat.lt_of_le_of_ne hle fun heq => ?_
        have := hheld.code
        rw [heq, Text.testAt_of_getElem? hch, hspace] at this
        cases this
      simp only [Held.read, if_pos hspace, hheld.stop hlt]
    · simp only [Held.read, if_neg hspace]
  · by_cases hspace : Text.isSpace ch = true
    · have hlt : h.start < i := by
        refine Nat.lt_of_le_of_ne hle fun heq => ?_
        have := hheld.code
        rw [heq, Text.testAt_of_getElem? hch, hspace] at this
        cases this
      simp only [Held.read, if_pos hspace]
      exact hheld.isOpen hlt
    · simp only [Held.read, if_neg hspace, Nat.add_sub_cancel, Text.testAt_of_getElem? hch]
      congr 1
      rw [Bool.eq_iff_iff, Bool.and_eq_true, Bool.and_eq_true, beq_iff_eq, beq_iff_eq, decide_eq_true_eq,
        Text.standsAt_two]
      rcases Nat.lt_or_eq_of_le hle with hlt | heq
      · have hback : i + 1 - 2 = i - 1 := by omega
        rw [hback, hheld.last hlt, Nat.sub_add_cancel (Nat.one_le_of_lt hlt), hch, Option.some_inj, Option.some_inj]
        constructor
        · rintro ⟨rfl, hlast⟩
          exact ⟨Nat.succ_lt_succ hlt, hlast, rfl⟩
        · rintro ⟨-, hlast, rfl⟩
          exact ⟨rfl, hlast⟩
      · rw [(hheld.fresh heq).2]
        constructor
        · rintro ⟨-, hlast⟩
          cases hlast
        · rintro ⟨hlt, -⟩
          omega

/-! ## Machines -/

/-- A parser whose state tells what is held, and which finds in each step what is cut there, finds all
segments that are cut. -/
theorem foldl_cut {C : Type} (step : C → Nat → C) (found : C → List (Nat × Nat))
    (Tracks : Nat → C → Option Held → Prop) (hb : b ≤ s.masked.size)
    (hstep : ∀ i c o ch, s.masked[i]? = some ch → i < b → Tracks i c o → ∃ o' new,
      Tracks (i + 1) (step c i) o' ∧ found (step c i) = found c ++ new ∧
        cut p (codeFrom s b) i o (ch :: s.masked.slice (i + 1) b) =
          new ++ cut p (codeFrom s b) (i + 1) o' (s.masked.slice (i + 1) b))
    {c : C} {o : Option Held} (htracks : Tracks a c o) (hab : a ≤ b) :
    ∃ o', Tracks b ((List.range' a (b - a)).foldl step c) o' ∧
      found ((List.range' a (b - a)).foldl step c) ++ cut p (codeFrom s b) b o' [] =
        found c ++ cut p (codeFrom s b) a o (s.masked.slice a b) := by
  generalize hn : b - a = n
  induction n generalizing a c o with
  | zero =>
    obtain rfl : a = b := by omega
    rw [Text.slice_self _ (Nat.le_refl a)]
    exact ⟨o, htracks, rfl⟩
  | succ n ih =>
    have hch : s.masked[a]? = some s.masked[a] := Array.getElem?_eq_getElem (by omega)
    have hlt : a < b := by omega
    obtain ⟨o', new, htracks', hfound, hcut⟩ := hstep a c o _ hch hlt htracks
    obtain ⟨o'', hend, heq⟩ := ih htracks' hlt (by omega)
    refine ⟨o'', hend, ?_⟩
    rw [List.range'_succ, List.foldl_cons, heq, hfound, List.append_assoc, ← hcut, slice_eq_cons hch hlt]

end MemberOrder.Splitter

/-!
## The bodies of scripts are split by a splitter

Cutting a body goes through its masked text as the splitter of scripts does: the state of one is that
of the other (`Tracks`), and a type goes on past a line feed exactly if the splitter says so
(`goesOn_eq`). So both find the same segments (`segments_eq_cut`).
-/

namespace MemberOrder.Script

open Splitter

/-- How the bodies of scripts are split; in types the end of a line ends a member. -/
def splitter (inType : Bool) : Splitter where
  separators := [',', ';']
  angles := inType
  breaks := inType
  goesOn := true

@[simp] theorem splitter_angles (inType : Bool) : (splitter inType).angles = inType := rfl

theorem splitter_fair (inType : Bool) : (splitter inType).Fair := by simp [Fair, splitter]

variable {s : Scanned} {inType : Bool} {i b : Nat} {ch : Char} {c : Cutting} {h : Held}

/-- A segment that is being cut is held. -/
structure Follows (s : Scanned) (i : Nat) (c : Cutting) (h : Held) : Prop where
  held : HeldAt s i h
  start : c.start = some h.start
  depth : c.depth = h.depth
  angle : c.angle = h.angle

/-- The state of a splitter at `i`. -/
def Tracks (s : Scanned) (i : Nat) (c : Cutting) : Option Held → Prop
  | none => c.start = none ∧ c.depth = 0 ∧ c.angle = 0
  | some h => h.start < i ∧ Follows s i c h

/-- Where the segments that have been cut start and stop. -/
def Cutting.places (c : Cutting) : List (Nat × Nat) := c.segments.reverse.map fun g => (g.start, g.stop)

/-- A line goes on if its code ends or the next code starts like that. -/
theorem goesOn_eq (hheld : HeldAt s i h) (hlt : h.start < i) (hch : s.masked[i]? = some '\n') :
    goesOn s h.start (s.prevCode i h.start) i =
      (h.isOpen || (codeFrom s (i + 1)).any continuesWith.contains) := by
  have hstop := hheld.start_lt_stop hlt
  have hnext : s.masked.testAt (s.nextCodeToEnd i) continuesWith.contains =
      (codeFrom s i).any continuesWith.contains := by
    rw [Text.testAt, codeFrom]
    cases s.masked[s.nextCodeToEnd i]? <;> rfl
  rw [goesOn, prevCode_prevCode (hheld.stop hlt ▸ hstop), ← hheld.stop hlt, hheld.isOpen hlt,
    decide_eq_true hstop, Bool.true_and, hnext, codeFrom_of_space hch rfl]

/-- A segment ends where the splitter ends it. -/
theorem Follows.read_of_ends (hf : Follows s i c h) (hlt : h.start < i) (hch : s.masked[i]? = some ch)
    (hends : h.ends (splitter inType) ch (codeFrom s (i + 1)) = true) :
    ∃ sep, c.read s inType h.start i ch = c.push ⟨h.start, h.stop, sep⟩ := by
  have hstop := hf.held.stop hlt
  simp only [Held.ends, Bool.and_eq_true, Bool.or_eq_true, beq_iff_eq] at hends
  obtain ⟨⟨hdepth, hangle⟩, hsep | ⟨⟨hbreaks, rfl⟩, hgoesOn⟩⟩ := hends
  · have hchar : ch = ',' ∨ ch = ';' := by simpa [splitter] using hsep
    refine ⟨some (ch, i), ?_⟩
    rcases hchar with rfl | rfl <;> simp [Cutting.read, hf.depth, hf.angle, hdepth, hangle, hstop]
  · refine ⟨none, ?_⟩
    have hgoes : goesOn s h.start (s.prevCode i h.start) i = false := by
      rw [goesOn_eq hf.held hlt hch]
      simpa [splitter] using hgoesOn
    have hcode := hf.held.start_lt_stop hlt
    have hin : inType = true := hbreaks
    rw [hstop] at hcode ⊢
    simp [Cutting.read, hf.depth, hf.angle, hdepth, hangle, hin, hgoes, hcode]

/-- A segment goes on where the splitter lets it. -/
theorem Follows.read_of_stays (inType : Bool) (hf : Follows s i c h) (hch : s.masked[i]? = some ch)
    (hends : h.ends (splitter inType) ch (codeFrom s (i + 1)) = false) :
    c.read s inType h.start i ch = { c with
      depth := (h.read (splitter inType) i ch).depth
      angle := (h.read (splitter inType) i ch).angle } := by
  have hdepth := hf.depth
  have hangle := hf.angle
  -- an angle bracket is only open once characters have been read
  have hlast : 0 < h.angle → s.masked.hasAt (i - 1) '=' = (h.last == '=') := by
    intro hpos
    have hlt : h.start < i := by
      refine Nat.lt_of_le_of_ne hf.held.le fun heq => ?_
      rw [(hf.held.fresh heq).1] at hpos
      exact Nat.lt_irrefl 0 hpos
    rw [Bool.eq_iff_iff, Text.hasAt_iff, hf.held.last hlt, Option.some_inj, beq_iff_eq]
  have hfeed : ch = '\n' → inType = true → h.depth = 0 → h.angle = 0 →
      goesOn s h.start (s.prevCode i h.start) i = true := by
    rintro rfl rfl hdepth hangle
    have hlt : h.start < i := by
      refine Nat.lt_of_le_of_ne hf.held.le fun heq => ?_
      have := hf.held.code
      rw [heq, Text.testAt_of_getElem? hch] at this
      cases this
    rw [goesOn_eq hf.held hlt hch]
    simpa [Held.ends, splitter, hdepth, hangle, or_iff_not_imp_left] using hends
  have hsep : ch = ',' ∨ ch = ';' → ¬(h.depth = 0 ∧ h.angle = 0) := by
    rintro hchar ⟨hdepth, hangle⟩
    rcases hchar with rfl | rfl <;> simp [Held.ends, splitter, hdepth, hangle] at hends
  rw [Cutting.read, Held.read, ← hdepth, ← hangle, splitter_angles]
  rw [← hangle] at hlast hfeed hsep
  rw [← hdepth] at hfeed hsep
  refine ite_eq_iff'.mpr ⟨fun hopens => ?_, fun hopens => ite_eq_iff'.mpr ⟨fun hcloses => ?_, fun hcloses => ?_⟩⟩
  · have hplain : ch ≠ '<' ∧ ch ≠ '>' := by
      constructor <;> (rintro rfl; cases hopens)
    simp [opens, hopens, hplain]
  · have hplain : ch ≠ '<' ∧ ch ≠ '>' := by
      constructor <;> (rintro rfl; cases hcloses)
    simp [opens, closes, hopens, hcloses, hplain]
  -- from here on nothing opens or closes a bracket but an angle bracket
  simp only [opens, closes, hopens, hcloses]
  refine ite_eq_iff'.mpr ⟨fun hlt => ?_, fun hlt => ite_eq_iff'.mpr ⟨fun hgt => ?_, fun hgt => ?_⟩⟩
  · simp [hlt]
  · simp only [Bool.and_eq_true, decide_eq_true_eq, Bool.not_eq_true'] at hgt
    obtain ⟨⟨⟨htype, hchar⟩, hpos⟩, heq⟩ := hgt
    obtain rfl : ch = '>' := eq_of_beq hchar
    rw [hlast hpos] at heq
    simp [htype, hpos, bne, heq]
  have hkept : (if inType && ch == '>' && decide (0 < c.angle) && h.last != '=' then c.angle - 1
      else c.angle) = c.angle := by
    refine if_neg fun hclose => hgt ?_
    simp only [Bool.and_eq_true, decide_eq_true_eq] at hclose ⊢
    obtain ⟨⟨⟨htype, hchar⟩, hpos⟩, heq⟩ := hclose
    refine ⟨⟨⟨htype, hchar⟩, hpos⟩, ?_⟩
    rw [hlast hpos, Bool.not_eq_true']
    simpa using heq
  simp only [Bool.false_eq_true, if_false, hlt, hkept]
  refine ite_eq_iff'.mpr ⟨fun hclosed => ?_, fun _ => rfl⟩
  simp only [Bool.and_eq_true, beq_iff_eq] at hclosed
  rw [if_neg (fun hchar => hsep (by simpa using hchar) hclosed)]
  refine ite_eq_iff'.mpr ⟨fun hbreak => ?_, fun _ => rfl⟩
  simp only [Bool.and_eq_true, beq_iff_eq] at hbreak
  simp [hfeed hbreak.1 hbreak.2 hclosed.1 hclosed.2]

theorem Follows.read (inType : Bool) (hf : Follows s i c h) (hch : s.masked[i]? = some ch)
    (hends : h.ends (splitter inType) ch (codeFrom s (i + 1)) = false) :
    Follows s (i + 1) (c.read s inType h.start i ch) (h.read (splitter inType) i ch) := by
  rw [hf.read_of_stays inType hch hends]
  exact ⟨hf.held.read _ hch, hf.start, rfl, rfl⟩

/-- Reading a character and cutting it go together. -/
theorem step_tracks (hb : b ≤ s.masked.size) (hch : s.masked[i]? = some ch) (hib : i < b) {o : Option Held}
    (htracks : Tracks s i c o) : ∃ o' new, Tracks s (i + 1) (c.step s inType i) o' ∧
      (c.step s inType i).places = c.places ++ new ∧
      cut (splitter inType) (codeFrom s b) i o (ch :: s.masked.slice (i + 1) b) =
        new ++ cut (splitter inType) (codeFrom s b) (i + 1) o' (s.masked.slice (i + 1) b) := by
  cases o with
  | none =>
    obtain ⟨hstart, hdepth, hangle⟩ := htracks
    simp only [Cutting.step, hch, hstart, cut]
    by_cases hblank : (Text.isSpace ch || (splitter inType).separators.contains ch) = true
    · have hskip : (Text.isSpace ch || ch == ',' || ch == ';') = true := by
        simpa [splitter, or_assoc] using hblank
      rw [if_pos hblank, if_pos hskip]
      exact ⟨none, [], ⟨hstart, hdepth, hangle⟩, (List.append_nil _).symm, rfl⟩
    · have hskip : ¬(Text.isSpace ch || ch == ',' || ch == ';') = true := by
        simpa [splitter, or_assoc] using hblank
      rw [if_neg hblank, if_neg hskip]
      simp only [Bool.or_eq_true, not_or, Bool.not_eq_true] at hblank
      have hf : Follows s i { c with start := some i } { start := i, stop := i } :=
        ⟨.enter hch hblank.1, rfl, hdepth, hangle⟩
      have hstays : ({ start := i, stop := i } : Held).ends (splitter inType) ch (codeFrom s (i + 1)) =
          false := Held.ends_of_code hblank.1 hblank.2
      have hread := hf.read inType hch hstays
      refine ⟨some (Held.enter (splitter inType) i ch), [], ⟨Nat.lt_succ_self i, hread⟩, ?_, rfl⟩
      rw [hf.read_of_stays inType hch hstays, List.append_nil]
      rfl
  | some h =>
    obtain ⟨hlt, hf⟩ := htracks
    simp only [Cutting.step, hch, hf.start, cut, firstCode_slice hib hb]
    cases hends : h.ends (splitter inType) ch (codeFrom s (i + 1)) with
    | true =>
      obtain ⟨sep, heq⟩ := hf.read_of_ends hlt hch hends
      have hclosed : h.depth = 0 ∧ h.angle = 0 := by
        simp only [Held.ends, Bool.and_eq_true, beq_iff_eq] at hends
        exact hends.1
      rw [heq]
      refine ⟨none, [(h.start, h.stop)], ⟨rfl, hf.depth.trans hclosed.1, hf.angle.trans hclosed.2⟩, ?_, rfl⟩
      simp [Cutting.places, Cutting.push]
    | false =>
      refine ⟨some (h.read (splitter inType) i ch), [], ⟨Nat.lt_succ_of_lt hlt, hf.read inType hch hends⟩, ?_, rfl⟩
      rw [hf.read_of_stays inType hch hends, List.append_nil]
      rfl

/-- The segments of a body are those the splitter cuts out of its masked text. -/
theorem segments_eq_cut (s : Scanned) {a b : Nat} (hab : a ≤ b) (hb : b ≤ s.masked.size) (inType : Bool) :
    (segments s a b inType).map (fun g => (g.start, g.stop)) =
      cut (splitter inType) (codeFrom s b) a none (s.masked.slice a b) := by
  obtain ⟨o, hend, heq⟩ := foldl_cut (p := splitter inType) (Cutting.step s inType) Cutting.places
    (Tracks s) hb (fun i c o ch hch hib htracks => step_tracks hb hch hib htracks) (c := {}) (a := a)
    (o := none) ⟨rfl, rfl, rfl⟩ hab
  rw [show ({} : Cutting).places = [] from rfl, List.nil_append] at heq
  rw [← heq, segments, List.map_append]
  congr 1
  cases o with
  | none =>
    simp only [hend.1]
    rfl
  | some h =>
    obtain ⟨hlt, hf⟩ := hend
    have hcode := hf.held.start_lt_stop hlt
    rw [hf.held.stop hlt] at hcode
    simp only [hf.start, if_pos hcode, List.map_cons, List.map_nil, cut, hf.held.stop hlt]

end MemberOrder.Script

/-!
## The bodies of structs are split by a splitter

As in scripts, but angle brackets do not nest and no line goes on (`segments_eq_cut`).
-/

namespace MemberOrder.Struct

open Splitter

/-- How the bodies of structs are split. -/
def splitter : Splitter where
  separators := [';']
  angles := false
  breaks := true
  goesOn := false

theorem splitter_fair : splitter.Fair := by simp [Fair, splitter]

variable {s : Scanned} {i b : Nat} {ch : Char} {c : Cutting} {h : Held}

/-- A field that is being cut is held. -/
structure Follows (s : Scanned) (i : Nat) (c : Cutting) (h : Held) : Prop where
  held : HeldAt s i h
  start : c.start = some h.start
  depth : c.depth = h.depth
  angle : h.angle = 0

/-- The state of a splitter at `i`. -/
def Tracks (s : Scanned) (i : Nat) (c : Cutting) : Option Held → Prop
  | none => c.start = none ∧ c.depth = 0
  | some h => h.start < i ∧ Follows s i c h

/-- Where the fields that have been cut start and stop. -/
def Cutting.places (c : Cutting) : List (Nat × Nat) := c.segments.reverse.map fun g => (g.start, g.stop)

/-- A field ends where the splitter ends it. -/
theorem Follows.read_of_ends (hf : Follows s i c h) (hlt : h.start < i) {next : Option Char}
    (hends : h.ends splitter ch next = true) :
    ∃ semicolon, c.read s h.start i ch =
      { c with start := none, segments := ⟨h.start, h.stop, semicolon⟩ :: c.segments } := by
  have hstop := hf.held.stop hlt
  have hcode := hf.held.start_lt_stop hlt
  rw [hstop] at hcode ⊢
  simp only [Held.ends, Bool.and_eq_true, Bool.or_eq_true, beq_iff_eq] at hends
  obtain ⟨⟨hdepth, -⟩, hchar⟩ := hends
  have hchar : ch = ';' ∨ ch = '\n' := by simpa [splitter] using hchar
  refine ⟨if ch == ';' then some i else none, ?_⟩
  rcases hchar with rfl | rfl <;> simp [Cutting.read, hf.depth, hdepth, hcode]

/-- A field goes on where the splitter lets it. -/
theorem Follows.read_of_stays (hf : Follows s i c h) {next : Option Char}
    (hends : h.ends splitter ch next = false) :
    c.read s h.start i ch = { c with depth := (h.read splitter i ch).depth } := by
  have hdepth := hf.depth
  have hchar : ch = ';' ∨ ch = '\n' → c.depth ≠ 0 := by
    rintro hchar hzero
    rw [hdepth] at hzero
    rcases hchar with rfl | rfl <;> simp [Held.ends, splitter, hzero, hf.angle] at hends
  rw [Cutting.read, Held.read, ← hdepth]
  split
  · rename_i hopens
    simp [opens, hopens]
  split
  · rename_i hopens hcloses
    simp [opens, closes, hopens, hcloses]
  rename_i hopens hcloses
  simp only [opens, closes, hopens, hcloses]
  split
  · rename_i hclosed
    simp only [Bool.and_eq_true, Bool.or_eq_true, beq_iff_eq] at hclosed
    exact absurd hclosed.1 (hchar hclosed.2)
  · simp

theorem Follows.read (hf : Follows s i c h) (hch : s.masked[i]? = some ch) {next : Option Char}
    (hends : h.ends splitter ch next = false) :
    Follows s (i + 1) (c.read s h.start i ch) (h.read splitter i ch) := by
  rw [hf.read_of_stays hends]
  exact ⟨hf.held.read _ hch, hf.start, rfl, by simp [Held.read, splitter, hf.angle]⟩

/-- Reading a character and cutting it go together. -/
theorem step_tracks (hch : s.masked[i]? = some ch) {o : Option Held} (htracks : Tracks s i c o)
    (next : Option Char) (rest : List Char) : ∃ o' new, Tracks s (i + 1) (c.step s i) o' ∧
      (c.step s i).places = c.places ++ new ∧
      cut splitter next i o (ch :: rest) = new ++ cut splitter next (i + 1) o' rest := by
  cases o with
  | none =>
    obtain ⟨hstart, hdepth⟩ := htracks
    simp only [Cutting.step, hch, hstart, cut]
    by_cases hblank : (Text.isSpace ch || splitter.separators.contains ch) = true
    · have hskip : (Text.isSpace ch || ch == ';') = true := by simpa [splitter] using hblank
      rw [if_pos hblank, if_pos hskip]
      exact ⟨none, [], ⟨hstart, hdepth⟩, (List.append_nil _).symm, rfl⟩
    · have hskip : ¬(Text.isSpace ch || ch == ';') = true := by simpa [splitter] using hblank
      rw [if_neg hblank, if_neg hskip]
      simp only [Bool.or_eq_true, not_or, Bool.not_eq_true] at hblank
      have hf : Follows s i { c with start := some i } { start := i, stop := i } :=
        ⟨.enter hch hblank.1, rfl, hdepth, rfl⟩
      have hstays : ({ start := i, stop := i } : Held).ends splitter ch (firstCode rest next) = false :=
        Held.ends_of_code hblank.1 hblank.2
      refine ⟨some (Held.enter splitter i ch), [], ⟨Nat.lt_succ_self i, hf.read hch hstays⟩, ?_, rfl⟩
      rw [hf.read_of_stays hstays, List.append_nil]
      rfl
  | some h =>
    obtain ⟨hlt, hf⟩ := htracks
    simp only [Cutting.step, hch, hf.start, cut]
    cases hends : h.ends splitter ch (firstCode rest next) with
    | true =>
      obtain ⟨semicolon, heq⟩ := hf.read_of_ends hlt hends
      have hclosed : h.depth = 0 := by
        simp only [Held.ends, Bool.and_eq_true, beq_iff_eq] at hends
        exact hends.1.1
      rw [heq]
      refine ⟨none, [(h.start, h.stop)], ⟨rfl, hf.depth.trans hclosed⟩, ?_, rfl⟩
      simp [Cutting.places]
    | false =>
      refine ⟨some (h.read splitter i ch), [], ⟨Nat.lt_succ_of_lt hlt, hf.read hch hends⟩, ?_, rfl⟩
      rw [hf.read_of_stays hends, List.append_nil]
      rfl

/-- The fields of a body are what the splitter cuts out of its masked text. -/
theorem segments_eq_cut (s : Scanned) {a b : Nat} (hab : a ≤ b) (hb : b ≤ s.masked.size) :
    (segments s a b).map (fun g => (g.start, g.stop)) =
      cut splitter (codeFrom s b) a none (s.masked.slice a b) := by
  obtain ⟨o, hend, heq⟩ := foldl_cut (p := splitter) (Cutting.step s) Cutting.places (Tracks s) hb
    (fun i c o ch hch _ htracks => step_tracks hch htracks _ _) (c := {}) (a := a) (o := none)
    ⟨rfl, rfl⟩ hab
  rw [show ({} : Cutting).places = [] from rfl, List.nil_append] at heq
  rw [← heq, segments, List.map_append]
  congr 1
  cases o with
  | none =>
    simp only [hend.1]
    rfl
  | some h =>
    obtain ⟨hlt, hf⟩ := hend
    have hcode := hf.held.start_lt_stop hlt
    rw [hf.held.stop hlt] at hcode
    simp only [hf.start, if_pos hcode, List.map_cons, List.map_nil, cut, hf.held.stop hlt]

end MemberOrder.Struct
