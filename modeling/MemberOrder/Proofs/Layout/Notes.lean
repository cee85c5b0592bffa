/-
  Line comments that end with their lines.

  A text of `Notes` is white space and line comments. Up to a line break it has no code, with whatever line
  endings it is written (`Notes.carries`), and notes that follow each other are notes (`Notes.append`).
  In the style of line comments every comment is written as notes (`notes_writeComment`), and so are the
  comments behind a member (`notes_writeTrailing`).
-/
import MemberOrder.Proofs.Layout.Rendering
import MemberOrder.Proofs.Source.Stops
import MemberOrder.Proofs.Text.Digits

/-!
## Code carried by lines

A text `Carries` code when, with the line endings that the options want, it is read as that code
whatever follows. Texts that follow each other carry what each of them does (`Carries.append`). A line
may end with a note, which carries nothing once the line is over (`Noted`). So lines joined by what ends
a line carry the code of all of them, up to the note of the last one (`Lines.joined`), and the same holds
of lines that are trimmed (`Lines.trimmed`).
-/

namespace MemberOrder.Layout

open Lexeme Scanned

/-! ## Line endings -/

/-- A text with the line endings that the options want. -/
def endLines (o : Options) (cs : List Char) : List Char := withOptionsEnding o [] cs

/-- No line ending depends on the source, as it is not found out from there. -/
theorem withOptionsEnding_eq (o : Options) (source cs : List Char) :
    withOptionsEnding o source cs = endLines o cs := by
  unfold endLines withOptionsEnding lineEndingFor
  cases o.lineEnding <;> rfl

/-- A text that does not end inside a line break of two characters. -/
def Uncut (cs : List Char) : Prop := cs.getLast? ≠ some '\r'

instance (cs : List Char) : Decidable (Uncut cs) := inferInstanceAs (Decidable (_ ≠ _))

variable {p : Profile} {o : Options} {b cs ds c d : List Char}

theorem uncut_nil : Uncut [] := nofun

theorem Uncut.append (h : Uncut cs) (h' : Uncut ds) : Uncut (cs ++ ds) := by
  intro heq
  rw [List.getLast?_append, Option.or_eq_some_iff] at heq
  exact heq.elim h' fun heq => h heq.2

theorem endLines_append_of (h : Uncut cs ∨ ds.head? ≠ some '\n') :
    endLines o (cs ++ ds) = endLines o cs ++ endLines o ds := by
  unfold endLines withOptionsEnding
  split
  · rfl
  · exact withLineEnding_append _ cs h

theorem endLines_append (h : Uncut cs) (ds : List Char) :
    endLines o (cs ++ ds) = endLines o cs ++ endLines o ds := endLines_append_of (Or.inl h)

theorem mem_endLines {x : Char} (h : x ∈ endLines o cs) : x = '\r' ∨ x = '\n' ∨ x ∈ cs := by
  unfold endLines withOptionsEnding lineEndingFor at h
  cases hending : o.lineEnding with
  | auto =>
    simp only [hending] at h
    exact Or.inr (Or.inr h)
  | lf =>
    simp only [hending] at h
    exact Or.inr ((mem_withLineEnding cs h).imp_left List.mem_singleton.mp)
  | crlf =>
    simp only [hending] at h
    rcases mem_withLineEnding cs h with h | h
    · exact (List.mem_cons.mp h).imp_right fun h => Or.inl (List.mem_singleton.mp h)
    · exact Or.inr (Or.inr h)

theorem endLines_spaces (h : ∀ x ∈ cs, Text.isSpace x = true) : ∀ x ∈ endLines o cs, Text.isSpace x = true := by
  intro x hx
  rcases mem_endLines hx with rfl | rfl | hx
  · decide
  · decide
  · exact h x hx

/-! ## Code -/

/-- No white space starts a literal. -/
def SpacesPlain (p : Profile) : Prop := ∀ q ∈ p.quotes, Text.isSpace q = false

theorem plain_of_space (hp : SpacesPlain p) {x : Char} (hx : Text.isSpace x = true) : Plain p x := by
  refine plain_of_class (f := Text.isSpace) (fun q hq => ?_) hx
  rcases List.mem_append.mp hq with hq | hq
  · exact hp q hq
  · exact (show ∀ q ∈ ['/', '(', ')'], Text.isSpace q = false by decide) q hq

/-- White space has no code. -/
theorem packedCode_spaces (hp : SpacesPlain p) (h : ∀ x ∈ cs, Text.isSpace x = true) (ds : List Char) :
    packedCode p (cs ++ ds) = packedCode p ds := by
  have hplain : ∀ x ∈ cs, Plain p x := fun x hx => plain_of_space hp (h x hx)
  rw [packedCode_append (seam_of_plain hplain ds), packedCode_of_plain hplain, pack_eq_nil h]
  rfl

/-- With the line endings that the options want, a text is read as `code`, whatever follows. -/
structure Carries (p : Profile) (o : Options) (cs code : List Char) : Prop where
  uncut : Uncut cs
  reads : ∀ ds, packedCode p (endLines o cs ++ ds) = code ++ packedCode p ds

theorem carries_nil : Carries p o [] [] := by
  refine ⟨uncut_nil, fun ds => ?_⟩
  unfold endLines withOptionsEnding
  split <;> rfl

theorem Carries.append (h : Carries p o cs c) (h' : Carries p o ds d) : Carries p o (cs ++ ds) (c ++ d) := by
  refine ⟨h.uncut.append h'.uncut, fun more => ?_⟩
  rw [endLines_append h.uncut, List.append_assoc, h.reads, h'.reads, List.append_assoc]

theorem Carries.packedCode_eq (h : Carries p o cs c) : packedCode p (endLines o cs) = c := by
  have := h.reads []
  rwa [List.append_nil, show packedCode p [] = [] from rfl, List.append_nil] at this

theorem Carries.eq_nil (h : Carries p o [] c) : c = [] := h.packedCode_eq.symm.trans carries_nil.packedCode_eq

theorem carries_spaces (hp : SpacesPlain p) (h : ∀ x ∈ cs, Text.isSpace x = true) (hlast : Uncut cs) :
    Carries p o cs [] :=
  ⟨hlast, fun ds => packedCode_spaces hp (endLines_spaces h) ds⟩

/-- What is sealed carries its own code. -/
theorem carries_of_sealed (h : Sealed p (endLines o cs)) (hlast : Uncut cs) :
    Carries p o cs (packedCode p (endLines o cs)) :=
  ⟨hlast, fun ds => packedCode_append (h.anywhere ds)⟩

/-! ## Lines -/

/-- A text that carries code, with a note of some kind at its end. -/
def Noted (p : Profile) (o : Options) (N : List Char → Prop) (l code : List Char) : Prop :=
  ∃ w n, l = w ++ n ∧ Carries p o w code ∧ N n

/-- Lines, each with its code. -/
inductive Lines (R : List Char → List Char → Prop) : List (List Char) → List Char → Prop
  | nil : Lines R [] []
  | cons {l code codes : List Char} {ls : List (List Char)} (h : R l code) (hrest : Lines R ls codes) :
      Lines R (l :: ls) (code ++ codes)

theorem Lines.append {R : List Char → List Char → Prop} {ls ms : List (List Char)} (h : Lines R ls c)
    (h' : Lines R ms d) : Lines R (ls ++ ms) (c ++ d) := by
  induction h with
  | nil => exact h'
  | cons hl hrest ih =>
    rw [List.append_assoc]
    exact .cons hl ih

theorem Lines.imp {R S : List Char → List Char → Prop} (hRS : ∀ l c, R l c → S l c) {ls : List (List Char)}
    (h : Lines R ls c) : Lines S ls c := by
  induction h with
  | nil => exact .nil
  | cons hl hrest ih => exact .cons (hRS _ _ hl) ih

/-- Lines that have no code. -/
theorem lines_of_forall {R : List Char → List Char → Prop} {ls : List (List Char)} (h : ∀ l ∈ ls, R l []) :
    Lines R ls [] := by
  induction ls with
  | nil => exact .nil
  | cons l rest ih =>
    obtain ⟨hl, hrest⟩ := List.forall_mem_cons.mp h
    exact .cons hl (ih hrest)

variable {N N' : List Char → Prop} {sep : Char}

/-- If `sep` closes notes, lines with `sep` in between carry the code of all, up to the note of the last. -/
theorem Lines.joined (hclosed : ∀ n, N n → Carries p o (n ++ [sep]) []) {ls : List (List Char)}
    (h : Lines (Noted p o N) ls c) (hne : ls ≠ []) : Noted p o N (Text.join [sep] ls) c := by
  induction h with
  | nil => exact absurd rfl hne
  | @cons l code codes ls hl hrest ih =>
    cases ls with
    | nil =>
      cases hrest
      rw [List.append_nil]
      exact hl
    | cons next more =>
      obtain ⟨w, n, rfl, hw, hn⟩ := hl
      obtain ⟨w', n', heq, hw', hn'⟩ := ih (List.cons_ne_nil _ _)
      refine ⟨w ++ (n ++ [sep]) ++ w', n', ?_, ?_, hn'⟩
      · have hjoin : Text.join [sep] ((w ++ n) :: next :: more) =
            (w ++ n) ++ [sep] ++ Text.join [sep] (next :: more) := rfl
        rw [hjoin, heq]
        simp
      · have := (hw.append (hclosed n hn)).append hw'
        rwa [List.append_nil] at this

/-- With what closes its note, a text carries its code. -/
theorem Noted.closed (hclosed : ∀ n, N n → Carries p o (n ++ [sep]) []) {l : List Char}
    (h : Noted p o N l c) : Carries p o (l ++ [sep]) c := by
  obtain ⟨w, n, rfl, hw, hn⟩ := h
  have := hw.append (hclosed n hn)
  rwa [List.append_nil, ← List.append_assoc] at this

/-! ## Trimmed lines -/

/-- A text that is blanks and tabs. -/
def Indents (b : List Char) : Prop := ∀ x ∈ b, x = ' ' ∨ x = '\t'

instance (b : List Char) : Decidable (Indents b) := inferInstanceAs (Decidable (∀ x ∈ b, _))

theorem Indents.space (h : Indents b) : ∀ x ∈ b, Text.isSpace x = true := by
  intro x hx
  rcases h x hx with rfl | rfl <;> decide

theorem Indents.uncut (h : Indents b) : Uncut b := by
  intro heq
  rcases h _ (List.mem_of_getLast? heq) with h | h <;> cases h

theorem Indents.append (h : Indents b) (h' : Indents cs) : Indents (b ++ cs) := fun x hx =>
  (List.mem_append.mp hx).elim (h x) (h' x)

theorem Indents.carries (hp : SpacesPlain p) (h : Indents b) : Carries p o b [] :=
  carries_spaces hp h.space h.uncut

/-- A text that neither starts nor ends with white space. -/
def Trimmed (cs : List Char) : Prop :=
  cs.head?.any Text.isSpace = false ∧ cs.getLast?.any Text.isSpace = false

instance (cs : List Char) : Decidable (Trimmed cs) := inferInstanceAs (Decidable (_ ∧ _))

theorem trimmed_nil : Trimmed [] := ⟨rfl, rfl⟩

theorem Trimmed.uncut (h : Trimmed cs) : Uncut cs := by
  intro heq
  have := h.2
  rw [heq] at this
  cases this

theorem Trimmed.append (h : Trimmed cs) (h' : Trimmed ds) : Trimmed (cs ++ ds) := by
  obtain ⟨hhead, hlast⟩ := h
  obtain ⟨hhead', hlast'⟩ := h'
  constructor
  · rw [List.head?_append]
    cases hcs : cs.head? with
    | none => exact hhead'
    | some x => rwa [hcs] at hhead
  · rw [List.getLast?_append]
    cases hds : ds.getLast? with
    | none => exact hlast
    | some x => rwa [hds] at hlast'

theorem trimLeft_spaces_append (hb : ∀ x ∈ b, Text.isSpace x = true) (cs : List Char) :
    Text.trimLeft (b ++ cs) = Text.trimLeft cs := List.dropWhile_append_of_pos hb

theorem trimLeft_of_head {cs : List Char} (h : cs.head?.any Text.isSpace = false) : Text.trimLeft cs = cs := by
  cases cs with
  | nil => rfl
  | cons x rest => exact List.dropWhile_cons_of_neg (by simpa using h)

theorem trimRight_append_of_last {cs : List Char} (h : cs.getLast?.any Text.isSpace = false) (ds : List Char) :
    Text.trimRight (cs ++ ds) = cs ++ Text.trimRight ds := by
  have hcs : Text.trimLeft cs.reverse = cs.reverse := trimLeft_of_head (by rwa [List.head?_reverse])
  unfold Text.trimRight
  rw [List.reverse_append, List.dropWhile_append]
  split
  · rename_i hnil
    rw [List.isEmpty_iff.mp hnil, List.reverse_nil, List.append_nil]
    exact (congrArg List.reverse hcs).trans (List.reverse_reverse cs)
  · rw [List.reverse_append, List.reverse_reverse]

/-- A line that is indented, carries code without white space around it, and ends with a note. -/
def Framed (p : Profile) (o : Options) (N : List Char → Prop) (l code : List Char) : Prop :=
  ∃ b w n, l = b ++ (w ++ n) ∧ Indents b ∧ Trimmed w ∧ Carries p o w code ∧ N n

theorem Framed.noted (hp : SpacesPlain p) {l : List Char} (h : Framed p o N l c) : Noted p o N l c := by
  obtain ⟨b, w, n, rfl, hb, -, hw, hn⟩ := h
  exact ⟨b ++ w, n, (List.append_assoc _ _ _).symm, (hb.carries hp).append hw, hn⟩

theorem Framed.indent {l : List Char} (hb : Indents b) (h : Framed p o N l c) : Framed p o N (b ++ l) c := by
  obtain ⟨b', w, n, rfl, hb', hw⟩ := h
  exact ⟨b ++ b', w, n, (List.append_assoc _ _ _).symm, hb.append hb', hw⟩

theorem framed_note {n : List Char} (hn : N n) : Framed p o N n [] :=
  ⟨[], [], n, rfl, nofun, trimmed_nil, carries_nil, hn⟩

/-- A trimmed line carries what the line does, and its note is trimmed. -/
theorem Framed.trimmed (htrim : ∀ n, N n → N' (Text.trim n) ∧ N' (Text.trimRight n)) {l : List Char}
    (h : Framed p o N l c) : Noted p o N' (Text.trim l) c := by
  obtain ⟨b, w, n, rfl, hb, htrimmed, hw, hn⟩ := h
  obtain ⟨htrim, htrimRight⟩ := htrim n hn
  rw [Text.trim, trimLeft_spaces_append hb.space]
  cases w with
  | nil =>
    rw [hw.eq_nil]
    exact ⟨[], _, rfl, carries_nil, htrim⟩
  | cons x rest =>
    rw [trimLeft_of_head (by rw [List.cons_append]; exact htrimmed.1), trimRight_append_of_last htrimmed.2]
    exact ⟨_, _, rfl, hw, htrimRight⟩

/-- Trimmed lines carry what the lines do, also without those of which nothing is left. -/
theorem Lines.trimmed (htrim : ∀ n, N n → N' (Text.trim n) ∧ N' (Text.trimRight n)) {ls : List (List Char)}
    (h : Lines (Framed p o N) ls c) : Lines (Noted p o N') ((ls.map Text.trim).filter (!·.isEmpty)) c := by
  induction h with
  | nil => exact .nil
  | @cons l code codes ls hl hrest ih =>
    have hnoted := hl.trimmed htrim
    rw [List.map_cons, List.filter_cons]
    split
    · exact .cons hnoted ih
    · rename_i hempty
      obtain ⟨w, n, heq, hw, -⟩ := hnoted
      have hnil : Text.trim l = [] := by simpa using hempty
      obtain rfl : w = [] := (List.append_eq_nil_iff.mp (heq.symm.trans hnil)).1
      rw [hw.eq_nil]
      exact ih

end MemberOrder.Layout

/-! ## Line comments that end with their lines -/

namespace MemberOrder.Layout

open Lexeme Scanned

/-- Two slashes start a comment, and neither they nor white space belong to literals. -/
structure Slashed (p : Profile) : Prop where
  lineComments : p.lineComments = true
  slash : p.quotes.contains '/' = false
  spaces : SpacesPlain p

variable {p : Profile} {o : Options} {cs ds : List Char}

/-- Where the first line break of a text stands, a line comment from its start ends, or at the carriage
return before it. -/
theorem lineStop_of_break {x : List Char} (hx : '\n' ∉ x) (ds : List Char) :
    let t : Text := (x ++ '\n' :: ds).toArray
    lineStop t 0 = x.length ∨ lineStop t 0 + 1 = x.length ∧ t[lineStop t 0]? = some '\r' := by
  intro t
  have hat : t[x.length]? = some '\n' := by simp [t]
  have hfind : t.find? ['\n'] 0 = some x.length := by
    refine Text.find?_of_first (Nat.zero_le _) (by simp [t]) (Text.standsAt_one.mpr hat) fun k _ hk => ?_
    refine Bool.eq_false_iff.mpr fun hstands => hx ?_
    have hget := Text.standsAt_one.mp hstands
    rw [List.getElem?_toArray, List.getElem?_append_left hk] at hget
    exact List.mem_of_getElem? hget
  unfold lineStop
  rw [hfind, Option.getD_some]
  dsimp only
  split
  · rename_i h
    rw [Bool.and_eq_true, decide_eq_true_eq, Text.hasAt_iff] at h
    exact Or.inr ⟨by omega, h.2⟩
  · exact Or.inl rfl

/-- A line comment with its line break has no code. -/
theorem packedCode_lineComment (hp : Slashed p) {x : List Char} (hx : '\n' ∉ x) (ds : List Char) :
    packedCode p ('/' :: '/' :: x ++ '\n' :: ds) = packedCode p ds := by
  let note := '/' :: '/' :: x ++ ['\n']
  -- lexing passes over the comment, and over the line break character by character
  have hreads (ds : List Char) : ∃ ls, Reads p (note ++ ds).toArray note.length 0 0 0 ls ∧
      pack (ls.flatMap (·.clean (note ++ ds).toArray)) = [] := by
    let t : Text := (note ++ ds).toArray
    have ht : t = ('/' :: '/' :: x ++ '\n' :: ds).toArray := by simp [t, note]
    have hlength : note.length = x.length + 3 := by simp [note]
    have hsize : note.length ≤ t.size := by simp [t]
    have hstands : t.standsAt 0 ['/', '/'] = true := Text.standsAt_two.mpr (by simp [ht])
    have hfirst : t[0]? = some '/' := (Text.standsAt_two.mp hstands).1
    have hblock : t.standsAt 0 ['/', '*'] = false := Bool.eq_false_iff.mpr fun h => by
      have := (Text.standsAt_two.mp h).2.symm.trans (Text.standsAt_two.mp hstands).2
      cases this
    have hlexeme : lexemeAt p t 0 0 = ⟨.lineComment, 0, lineStop t 0⟩ := by
      have hquote := hp.slash
      simp only [lexemeAt, hfirst, hquote, hblock, hstands, hp.lineComments]
      simp
    have hbounds := lineStop_bounds hstands
    have hstop : lineStop t 0 = x.length + 2 ∨ lineStop t 0 + 1 = x.length + 2 ∧ t[lineStop t 0]? = some '\r' := by
      have := lineStop_of_break (x := '/' :: '/' :: x) (by simp [hx]) ds
      rw [← ht] at this
      simpa using this
    have hspaces : ∀ c ∈ t.slice (lineStop t 0) note.length, Text.isSpace c = true := by
      intro c hc
      obtain ⟨k, h1, h2, hk⟩ := Text.mem_slice.mp hc
      have hbreak : t[x.length + 2]? = some '\n' := by simp [ht]
      rcases Nat.lt_or_eq_of_le (show k ≤ x.length + 2 by omega) with hlt | rfl
      · obtain ⟨hstop, hreturn⟩ := hstop.resolve_left (by omega)
        rw [show k = lineStop t 0 by omega, hreturn, Option.some.injEq] at hk
        rw [← hk]
        decide
      · rw [hbreak, Option.some.injEq] at hk
        rw [← hk]
        decide
    obtain ⟨ls, hls, hclean⟩ := reads_of_plain (p := p) (x := note.length) (by omega)
      (fun c hc => plain_of_space hp.spaces (hspaces c hc)) hsize 0
    refine ⟨⟨.lineComment, 0, lineStop t 0⟩ :: ls, ?_, ?_⟩
    · rw [← hlexeme]
      refine .step (Text.lt_size_of_getElem? hfirst) ?_
      rw [hlexeme]
      exact hls
    · rw [List.flatMap_cons, hclean, pack_append, pack_eq_nil hspaces, List.append_nil]
      exact pack_eq_nil fun c hc => space_of_mem_blank hc
  obtain ⟨ls, hls, -⟩ := hreads ds
  obtain ⟨ms, hms, hclean⟩ := hreads []
  rw [List.append_nil] at hms hclean
  have hseam : Seam p note ds := ⟨0, ls, hls, fun _ => rfl⟩
  rw [show '/' :: '/' :: x ++ '\n' :: ds = note ++ ds by simp [note], packedCode_append hseam,
    Reads.packedCode_eq hms, hclean]
  rfl

/-- So has a line comment with white space that breaks the line. -/
theorem packedCode_lineComment_spaces (hp : Slashed p) {x w : List Char} (hx : '\n' ∉ x)
    (hw : ∀ c ∈ w, Text.isSpace c = true) (hbreak : '\n' ∈ w) (ds : List Char) :
    packedCode p ('/' :: '/' :: x ++ (w ++ ds)) = packedCode p ds := by
  obtain ⟨a, b, rfl, ha⟩ := List.eq_append_cons_of_mem hbreak
  have hxa : '\n' ∉ x ++ a := fun h => (List.mem_append.mp h).elim hx ha
  have hb : ∀ c ∈ b, Text.isSpace c = true := fun c hc => hw c (by simp [hc])
  have := packedCode_lineComment hp hxa (b ++ ds)
  rw [packedCode_spaces hp.spaces hb] at this
  rw [← this]
  simp

/-! ## Notes -/

/-- White space and line comments, each up to the end of its line. A carriage return stands inside a
line. -/
inductive Notes : List Char → Prop
  | nil : Notes []
  | space {c : Char} {cs : List Char} (hc : Text.isSpace c = true)
      (hreturn : c = '\r' → cs ≠ [] ∧ cs.head? ≠ some '\n') (h : Notes cs) : Notes (c :: cs)
  | comment {x cs : List Char} (hx : '\n' ∉ x) (huncut : Uncut x) (hcs : cs = [] ∨ cs.head? = some '\n')
      (h : Notes cs) : Notes ('/' :: '/' :: x ++ cs)

theorem Notes.blank {c : Char} (hc : Text.isSpace c = true) (hreturn : c ≠ '\r') (h : Notes cs) : Notes (c :: cs) :=
  .space hc (fun heq => absurd heq hreturn) h

theorem Indents.notes (h : Indents cs) : Notes cs := by
  induction cs with
  | nil => exact .nil
  | cons c rest ih =>
    obtain ⟨hc, hrest⟩ := List.forall_mem_cons.mp h
    rcases hc with rfl | rfl
    · exact .blank (by decide) (by decide) (ih hrest)
    · exact .blank (by decide) (by decide) (ih hrest)

/-- White space in a line. -/
theorem notes_of_spaces (h : ∀ c ∈ cs, Text.isSpace c = true) (huncut : Uncut cs) (hbreak : '\n' ∉ cs) :
    Notes cs := by
  induction cs with
  | nil => exact .nil
  | cons c rest ih =>
    obtain ⟨hc, hrest⟩ := List.forall_mem_cons.mp h
    rw [List.mem_cons, not_or] at hbreak
    refine .space hc (fun hreturn => ⟨?_, fun heq => hbreak.2 (List.mem_of_mem_head? heq)⟩) (ih hrest ?_ hbreak.2)
    · rintro rfl
      exact huncut (by rw [hreturn]; rfl)
    · intro heq
      refine huncut ?_
      rw [List.getLast?_cons, heq]
      rfl

theorem uncut_slashes (h : Uncut cs) : Uncut ('/' :: '/' :: cs) :=
  (show Uncut ['/', '/'] by decide).append h

theorem uncut_cons {c : Char} (h : Uncut cs) (hreturn : c = '\r' → cs ≠ []) : Uncut (c :: cs) := by
  intro heq
  rw [List.getLast?_cons] at heq
  cases hlast : cs.getLast? with
  | none =>
    rw [hlast] at heq
    exact hreturn (Option.some.inj heq) (List.getLast?_eq_none_iff.mp hlast)
  | some d =>
    rw [hlast] at heq
    exact h (hlast.trans heq)

theorem Notes.uncut (h : Notes cs) : Uncut cs := by
  induction h with
  | nil => exact uncut_nil
  | space hc hreturn h ih => exact uncut_cons ih fun heq => (hreturn heq).1
  | comment hx huncut hcs h ih => exact (uncut_slashes huncut).append ih

/-- What notes start with up to the next line break, and what is left of them from there on. -/
theorem Notes.split (h : Notes cs) : Uncut (cs.takeWhile (· != '\n')) ∧ Notes (cs.dropWhile (· != '\n')) := by
  induction h with
  | nil => exact ⟨uncut_nil, .nil⟩
  | @space c cs hc hreturn h ih =>
    rw [List.takeWhile_cons, List.dropWhile_cons]
    split
    · refine ⟨uncut_cons ih.1 fun heq hnil => ?_, ih.2⟩
      obtain ⟨hne, hhead⟩ := hreturn heq
      obtain ⟨d, ds, rfl⟩ := List.exists_cons_of_ne_nil hne
      have hd : (d != '\n') = true := bne_iff_ne.mpr fun heq => hhead (congrArg some heq)
      rw [List.takeWhile_cons, if_pos hd] at hnil
      cases hnil
    · exact ⟨uncut_nil, .space hc hreturn h⟩
  | @comment x cs hx huncut hcs h ih =>
    have hall : ∀ c ∈ '/' :: '/' :: x, (c != '\n') = true := by
      intro c hc
      rw [bne_iff_ne]
      rintro rfl
      simp [hx] at hc
    rw [List.takeWhile_append_of_pos hall, List.dropWhile_append_of_pos hall]
    exact ⟨(uncut_slashes huncut).append ih.1, ih.2⟩

/-- Notes go on with notes: what follows on the line of a comment belongs to it. -/
theorem Notes.append (h : Notes cs) (hds : Notes ds) : Notes (cs ++ ds) := by
  induction h with
  | nil => exact hds
  | @space c cs hc hreturn h ih =>
    refine .space hc (fun heq => ?_) ih
    obtain ⟨hne, hhead⟩ := hreturn heq
    obtain ⟨d, rest, rfl⟩ := List.exists_cons_of_ne_nil hne
    exact ⟨List.cons_ne_nil _ _, hhead⟩
  | @comment x cs hx huncut hcs h ih =>
    rcases hcs with rfl | hbreak
    · have hjoin : '/' :: '/' :: x ++ [] ++ ds =
          '/' :: '/' :: (x ++ ds.takeWhile (· != '\n')) ++ ds.dropWhile (· != '\n') := by
        rw [List.append_nil, List.cons_append, List.cons_append, List.cons_append, List.cons_append,
          List.append_assoc, List.takeWhile_append_dropWhile]
      rw [hjoin]
      refine .comment (fun hmem => ?_) (huncut.append hds.split.1) ?_ hds.split.2
      · rcases List.mem_append.mp hmem with hmem | hmem
        · exact hx hmem
        · simpa using List.all_eq_true.mp List.all_takeWhile _ hmem
      · cases hrest : ds.dropWhile (· != '\n') with
        | nil => exact Or.inl rfl
        | cons c rest =>
          have hc := List.head?_dropWhile_not (· != '\n') ds
          rw [hrest] at hc
          simp only [List.head?_cons, bne_eq_false_iff_eq] at hc
          exact Or.inr (by rw [hc]; rfl)
    · rw [List.append_assoc]
      refine .comment hx huncut (Or.inr ?_) ih
      cases cs with
      | nil => cases hbreak
      | cons c rest => exact hbreak

theorem mem_withLineEnding_break {ending : List Char} (hending : '\n' ∈ ending) (h : '\n' ∈ cs) :
    '\n' ∈ withLineEnding ending cs := by
  fun_induction withLineEnding ending cs with
  | case1 => exact h
  | case2 rest ih => exact List.mem_append_left _ hending
  | case3 c rest _ hbreak ih => exact List.mem_append_left _ hending
  | case4 c rest _ hbreak ih =>
    refine List.mem_cons_of_mem _ (ih ((List.mem_cons.mp h).resolve_left fun heq => hbreak ?_))
    rw [← heq]
    rfl

/-- A line break stays one. -/
theorem mem_endLines_break (h : '\n' ∈ cs) : '\n' ∈ endLines o cs := by
  unfold endLines withOptionsEnding
  split
  · exact h
  · refine mem_withLineEnding_break ?_ h
    unfold lineEndingFor
    cases o.lineEnding <;> decide

theorem withLineEnding_of_not_mem (ending : List Char) (h : '\n' ∉ cs) : withLineEnding ending cs = cs := by
  induction cs with
  | nil => rfl
  | cons c rest ih =>
    rw [List.mem_cons, not_or] at h
    have hrest : rest.head? ≠ some '\n' := fun heq => h.2 (List.mem_of_mem_head? heq)
    rw [withLineEnding_cons ending (fun hc => hrest hc.2), if_neg (Ne.symm h.1), ih h.2]
    rfl

theorem endLines_of_not_mem (h : '\n' ∉ cs) : endLines o cs = cs := by
  unfold endLines withOptionsEnding
  split
  · rfl
  · exact withLineEnding_of_not_mem _ h

/-- In front of white space that breaks the line, notes have no code, whatever line endings they are
written with. -/
theorem Notes.packedCode_append (hp : Slashed p) (h : Notes cs) {w : List Char}
    (hw : ∀ c ∈ w, Text.isSpace c = true) (hbreak : '\n' ∈ w) (ds : List Char) :
    packedCode p (endLines o cs ++ (w ++ ds)) = packedCode p ds := by
  induction h with
  | nil =>
    rw [endLines_of_not_mem List.not_mem_nil]
    exact packedCode_spaces hp.spaces hw ds
  | @space c cs hc hreturn h ih =>
    have hself : ∀ x ∈ endLines o [c], Text.isSpace x = true :=
      endLines_spaces (List.forall_mem_singleton.mpr hc)
    have huncut : Uncut [c] ∨ cs.head? ≠ some '\n' := by
      by_cases heq : c = '\r'
      · exact Or.inr (hreturn heq).2
      · exact Or.inl fun hlast => heq (Option.some.inj hlast)
    rw [← List.singleton_append, endLines_append_of huncut, List.append_assoc, packedCode_spaces hp.spaces hself, ih]
  | @comment x cs hx huncut hcs h ih =>
    have hcomment : '\n' ∉ '/' :: '/' :: x := by simp [hx]
    rw [endLines_append (uncut_slashes huncut), endLines_of_not_mem hcomment]
    rcases hcs with rfl | hhead
    · rw [endLines_of_not_mem List.not_mem_nil, List.append_nil]
      exact packedCode_lineComment_spaces hp hx hw hbreak ds
    · obtain ⟨rest, rfl⟩ : ∃ rest, cs = '\n' :: rest := by
        cases cs with
        | nil => cases hhead
        | cons c rest => exact ⟨rest, by rw [Option.some.inj hhead]⟩
      -- the line break is written anew, and belongs to the white space behind the comment
      have hspaces : ∀ c ∈ endLines o ['\n'], Text.isSpace c = true := endLines_spaces (by decide)
      have hends : '\n' ∈ endLines o ['\n'] := mem_endLines_break List.mem_cons_self
      have hsplit : endLines o ('\n' :: rest) = endLines o ['\n'] ++ endLines o rest :=
        endLines_append (show Uncut ['\n'] by decide) rest
      rw [hsplit, List.append_assoc, packedCode_spaces hp.spaces hspaces] at ih
      rw [hsplit, ← ih, List.append_assoc, List.append_assoc]
      exact packedCode_lineComment_spaces hp hx hspaces hends _

/-- With the end of their line, notes carry no code. -/
theorem Notes.carries (hp : Slashed p) (h : Notes cs) : Carries p o (cs ++ ['\n']) [] := by
  refine ⟨h.uncut.append (by decide), fun ds => ?_⟩
  have hends : '\n' ∈ endLines o ['\n'] := mem_endLines_break List.mem_cons_self
  rw [endLines_append h.uncut, List.append_assoc]
  exact h.packedCode_append hp (endLines_spaces (by decide)) hends ds

/-! ## Comments written as line comments -/

theorem uncut_trimRight (cs : List Char) : Uncut (Text.trimRight cs) := by
  intro heq
  have := List.head?_dropWhile_not Text.isSpace cs.reverse
  rw [Text.trimRight, List.getLast?_reverse] at heq
  rw [heq] at this
  cases this

theorem trimRight_subset {cs : List Char} {x : Char} (h : x ∈ Text.trimRight cs) : x ∈ cs :=
  List.mem_reverse.mp ((List.dropWhile_sublist _).subset (List.mem_reverse.mp h))

theorem notes_asLines {indent : List Char} (hindent : Indents indent)
    {lines : List (List Char)} (h : ∀ line ∈ lines, '\n' ∉ line) : Notes (asLines ['/', '/'] indent lines) := by
  unfold asLines
  induction lines with
  | nil => exact .nil
  | cons line rest ih =>
    obtain ⟨hline, hrest⟩ := List.forall_mem_cons.mp h
    let y := Text.trimRight (' ' :: line)
    have hy : Text.trimRight (['/', '/'] ++ ' ' :: line) = '/' :: '/' :: y := trimRight_append_of_last rfl _
    have hbreak : '\n' ∉ y := fun hn => (List.mem_cons.mp (trimRight_subset hn)).elim (by decide) hline
    have huncut : Uncut y := uncut_trimRight _
    rw [List.map_cons, hy]
    cases rest with
    | nil =>
      rw [List.map_nil, Text.join, ← List.append_nil ('/' :: '/' :: y)]
      exact .comment hbreak huncut (Or.inl rfl) .nil
    | cons next more =>
      have hgap : Notes ('\n' :: indent ++ Text.join ('\n' :: indent)
          ((next :: more).map fun line => Text.trimRight (['/', '/'] ++ ' ' :: line))) :=
        .blank (by decide) (by decide) (hindent.notes.append (ih hrest))
      have hjoin (piece next : List Char) (more : List (List Char)) :
          Text.join ('\n' :: indent) (piece :: next :: more) =
            piece ++ ('\n' :: indent ++ Text.join ('\n' :: indent) (next :: more)) := List.append_assoc _ _ _
      rw [List.map_cons] at hgap ⊢
      rw [hjoin]
      exact .comment hbreak huncut (Or.inr rfl) hgap

theorem not_mem_bodyLines (c : Comment) : ∀ line ∈ bodyLines c, '\n' ∉ line := by
  unfold bodyLines
  dsimp only
  split
  · simp
  · intro line hline hbreak
    obtain ⟨raw, hraw, rfl⟩ := List.mem_map.mp (List.mem_filter.mp hline).1
    refine Text.not_mem_lines hraw ?_
    unfold bodyLine at hbreak
    split at hbreak
    · exact Text.trim_subset _ hbreak
    · exact Text.trim_subset _ ((List.dropWhile_sublist _).subset (Text.trim_subset _ hbreak))

/-- The comments of languages in which two slashes start a comment. -/
def slashForms : CommentForms := { line := some "//", block := true }

/-- In the style of line comments, a comment is written as notes. -/
theorem notes_writeComment {indent : String} (hindent : Indents indent.toList) (c : Comment) :
    Notes (writeComment slashForms .singleLine indent c).toList := by
  have hwritten : writeComment slashForms .singleLine indent c =
      String.ofList (asLines ['/', '/'] indent.toList (bodyLines c)) := rfl
  rw [hwritten, String.toList_ofList]
  exact notes_asLines hindent (not_mem_bodyLines c)

/-- So are the comments behind a member. -/
theorem notes_writeTrailing {o : Options} (hstyle : o.commentStyle = .singleLine) (cs : List Comment) :
    Notes (writeTrailing slashForms o cs).toList := by
  unfold writeTrailing
  split
  · rw [String.toList_ofList, hstyle]
    induction cs with
    | nil => exact .nil
    | cons c rest ih =>
      rw [List.flatMap_cons]
      have hwritten : Notes (writeComment slashForms .singleLine "" c).toList :=
        notes_writeComment (by decide) c
      exact (Notes.blank (c := ' ') (by decide) (by decide) hwritten).append ih
  · exact .nil

end MemberOrder.Layout
