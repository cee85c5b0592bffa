/-
  What the masked text of a JSON document shows of its strings.

  Behind an opening quote a literal is cut (`cutLiteral`) at the next quote that is not escaped, or else
  at a line feed that is not or at the end of the text. A text `Veils` another one when the code of both
  is the same and the literals of one are masked in the other; the clean text of a scan and its masked
  text are such (`veils_scan`). A string in the clean text is a pair of quotes with nothing but filler
  between them in the masked text (`veiled_of_taken`). The converse holds but for one case: a literal that
  its line cuts off right after an escaped quote looks like a string as well (`taken_of_veiled`).
-/
import MemberOrder.Proofs.Json.Grammar
import MemberOrder.Proofs.Source.Literals
import MemberOrder.Proofs.Text.Offsets

namespace MemberOrder.Json

open Lexeme

/-! ## Literals -/

/-- Cuts the text behind an opening quote: what belongs to the literal, its closing quote included, and what
follows it. -/
def cutLiteral : List Char → List Char × List Char
  | [] => ([], [])
  | c :: cs =>
    if c = '\\' then
      match cs with
      | [] => (['\\'], [])
      | d :: cs => ('\\' :: d :: (cutLiteral cs).1, (cutLiteral cs).2)
    else if c = '"' then (['"'], cs)
    else if c = '\n' then ([], '\n' :: cs)
    else (c :: (cutLiteral cs).1, (cutLiteral cs).2)

theorem cutLiteral_plain {c : Char} (hc : c ∉ ['"', '\\', '\n']) (cs : List Char) :
    cutLiteral (c :: cs) = (c :: (cutLiteral cs).1, (cutLiteral cs).2) := by
  simp only [List.mem_cons, List.not_mem_nil, or_false, not_or] at hc
  rw [cutLiteral.eq_def]
  simp [hc.1, hc.2.1, hc.2.2]

theorem cutLiteral_quote (cs : List Char) : cutLiteral ('"' :: cs) = (['"'], cs) := by
  rw [cutLiteral.eq_def]
  simp

theorem cutLiteral_feed (cs : List Char) : cutLiteral ('\n' :: cs) = ([], '\n' :: cs) := by
  rw [cutLiteral.eq_def]
  simp

theorem cutLiteral_escape (c : Char) (cs : List Char) :
    cutLiteral ('\\' :: c :: cs) = ('\\' :: c :: (cutLiteral cs).1, (cutLiteral cs).2) := by
  rw [cutLiteral]
  simp

/-- Characters and escapes belong to a literal. -/
theorem Escaped.cutLiteral_append {u : List Char} (h : Escaped u) (cs : List Char) :
    cutLiteral (u ++ cs) = (u ++ (cutLiteral cs).1, (cutLiteral cs).2) := by
  induction h with
  | nil => rfl
  | plain hc _ ih => rw [List.cons_append, cutLiteral_plain hc, ih]; rfl
  | escape _ ih => rw [List.cons_append, List.cons_append, cutLiteral_escape, ih]; rfl

/-- How a literal can end: with a quote that is not escaped, at the end of its line, or with a backslash at
the end of the text. -/
inductive Ends : List Char → List Char → Prop
  | closed {u cs : List Char} (h : Escaped u) : Ends (u ++ ['"']) cs
  | cut {u cs : List Char} (h : Escaped u) (hend : ∀ c, cs.head? = some c → c = '\n') : Ends u cs
  | dangling {u : List Char} (h : Escaped u) : Ends (u ++ ['\\']) []

theorem ends_cutLiteral (cs : List Char) : Ends (cutLiteral cs).1 (cutLiteral cs).2 := by
  have hcons {c : Char} {x rest : List Char} (hc : c ∉ ['"', '\\', '\n']) (h : Ends x rest) :
      Ends (c :: x) rest := by
    cases h with
    | closed h => exact .closed (.plain hc h)
    | cut h hend => exact .cut (.plain hc h) hend
    | dangling h => exact .dangling (.plain hc h)
  have hescape {c : Char} {x rest : List Char} (h : Ends x rest) : Ends ('\\' :: c :: x) rest := by
    cases h with
    | closed h => exact .closed (.escape h)
    | cut h hend => exact .cut (.escape h) hend
    | dangling h => exact .dangling (.escape h)
  fun_induction cutLiteral cs with
  | case1 => exact .cut .nil fun c h => by cases h
  | case2 => exact .dangling .nil
  | case3 d cs ih => exact hescape ih
  | case4 cs => exact .closed .nil
  | case5 cs =>
    refine .cut .nil fun c h => ?_
    cases h
    rfl
  | case6 c cs hslash hquote hline ih => exact hcons (by simp [hslash, hquote, hline]) ih

theorem cutLiteral_join (cs : List Char) : (cutLiteral cs).1 ++ (cutLiteral cs).2 = cs := by
  fun_induction cutLiteral cs with
  | case1 => rfl
  | case2 => rfl
  | case3 d cs ih => rw [List.cons_append, List.cons_append, ih]
  | case4 cs => rfl
  | case5 cs => rfl
  | case6 c cs _ _ _ ih => rw [List.cons_append, ih]

/-- A literal is cut alike where something else follows it that ends it as well. -/
theorem cutLiteral_congr {cs rest : List Char} (hnil : (cutLiteral cs).2 = [] → rest = [])
    (hline : ∀ after, (cutLiteral cs).2 = '\n' :: after → ∃ after', rest = '\n' :: after') :
    cutLiteral ((cutLiteral cs).1 ++ rest) = ((cutLiteral cs).1, rest) := by
  fun_induction cutLiteral cs with
  | case1 => rw [hnil rfl]; rfl
  | case2 => rw [hnil rfl]; rfl
  | case3 d cs ih => rw [List.cons_append, List.cons_append, cutLiteral_escape, ih hnil hline]
  | case4 cs => exact cutLiteral_quote rest
  | case5 cs =>
    obtain ⟨after, rfl⟩ := hline cs rfl
    exact cutLiteral_feed after
  | case6 c cs hslash hquote hbreak ih =>
    rw [List.cons_append, cutLiteral_plain (by simp [hslash, hquote, hbreak]), ih hnil hline]

/-- The literal that is found by offsets is the one that is cut. -/
theorem cutLiteral_remaining {t : Text} {fuel i : Nat} (hfuel : t.size ≤ i + fuel) (hi : i ≤ t.size) :
    cutLiteral (t.remaining i) = (t.slice i (literalStop .json t '"' fuel i),
      t.remaining (literalStop .json t '"' fuel i)) := by
  have hend : t.remaining t.size = [] := Text.remaining_of_size_le (Nat.le_refl _)
  have hrest {j : Nat} (h : t.size ≤ j) (fuel : Nat) : literalStop .json t '"' fuel j = t.size := by
    cases fuel with
    | zero => rfl
    | succ fuel => rw [literalStop, Array.getElem?_eq_none h]
  induction fuel generalizing i with
  | zero =>
    obtain rfl : i = t.size := by omega
    rw [hrest (Nat.le_refl _), hend, Text.slice_self t (Nat.le_refl _)]
    rfl
  | succ fuel ih =>
    cases hc : t[i]? with
    | none =>
      obtain rfl : i = t.size := Nat.le_antisymm hi (Array.getElem?_eq_none_iff.mp hc)
      rw [hrest (Nat.le_refl _), hend, Text.slice_self t (Nat.le_refl _)]
      rfl
    | some c =>
      have hlt := Text.lt_size_of_getElem? hc
      -- from a character on, the literal is that character and the literal from the next one on
      have hcons (stop : Nat) (h : i + 1 ≤ stop) : t.slice i stop = c :: t.slice (i + 1) stop := by
        rw [← Text.slice_append t (Nat.le_succ i) h, Text.slice_one hc]
        rfl
      have hbounds (j : Nat) := (literalStop_bounds .json t '"' fuel j).1
      rw [Text.remaining_of_getElem? hc, literalStop, hc]
      dsimp only
      split
      · rename_i hslash
        obtain rfl : c = '\\' := by simpa [Profile.json] using hslash
        cases hd : t[i + 1]? with
        | none =>
          have hsize := Array.getElem?_eq_none_iff.mp hd
          rw [hrest (by omega), hcons t.size hlt, Text.slice_self t hsize, hend,
            Text.remaining_of_size_le hsize, cutLiteral]
          simp
        | some d =>
          have hlt' := Text.lt_size_of_getElem? hd
          have hle := hbounds (i + 2)
          rw [Text.remaining_of_getElem? hd, cutLiteral_escape, ih (by omega) (by omega),
            hcons _ (by omega), ← Text.slice_append t (Nat.le_succ (i + 1)) (by omega), Text.slice_one hd]
          rfl
      · rename_i hslash
        split
        · rename_i hquote
          obtain rfl : c = '"' := beq_iff_eq.mp hquote
          rw [cutLiteral_quote, Text.slice_one hc]
        · rename_i hquote
          split
          · rename_i hfeed
            obtain rfl : c = '\n' := by simpa [Profile.json] using hfeed
            rw [cutLiteral_feed, Text.slice_self t (Nat.le_refl i), Text.remaining_of_getElem? hc]
          · rename_i hfeed
            have hplain : c ∉ ['"', '\\', '\n'] := by
              rw [Profile.json] at hslash hfeed
              simp_all
            have hle := hbounds (i + 1)
            rw [cutLiteral_plain hplain, ih (by omega) hlt, hcons _ (by omega)]

/-! ## Masked texts -/

/-- A text without comments, and the same text with the insides of its literals masked. -/
inductive Veils : List Char → List Char → Prop
  | nil : Veils [] []
  | code {c : Char} {cs ms : List Char} (hc : c ≠ '"') (h : Veils cs ms) : Veils (c :: cs) (c :: ms)
  | literal {cs ms : List Char} (h : Veils (cutLiteral cs).2 ms) :
      Veils ('"' :: cs) (maskLiteral ('"' :: (cutLiteral cs).1) ++ ms)

theorem Veils.append {x cs ms : List Char} (hx : '"' ∉ x) (h : Veils cs ms) :
    Veils (x ++ cs) (x ++ ms) := by
  induction x with
  | nil => exact h
  | cons c rest ih =>
    obtain ⟨hc, hrest⟩ := not_or.mp (mt List.mem_cons.mpr hx)
    exact .code (fun heq => hc heq.symm) (ih hrest)

theorem maskLiteral_head (cs : List Char) :
    ∃ ms, maskLiteral ('"' :: cs) = '"' :: ms := by
  rw [maskLiteral]
  split
  · exact ⟨_, rfl⟩
  · exact ⟨_, rfl⟩

theorem sameCode_veils : SameCode Veils := by
  intro c cs ms hc h
  cases h with
  | code _ h => exact ⟨_, rfl, h⟩
  | literal => exact absurd rfl hc

theorem sameCode_veils_flip : SameCode fun ms cs => Veils cs ms := by
  intro c ms cs hc h
  generalize hms : c :: ms = ms' at h
  cases h with
  | nil => cases hms
  | code _ h =>
    cases hms
    exact ⟨_, rfl, h⟩
  | @literal cs =>
    obtain ⟨x, hx⟩ := maskLiteral_head (cutLiteral cs).1
    rw [hx] at hms
    exact absurd (List.cons.inj hms).1 hc

/-- Nothing is masked but by nothing. -/
theorem Veils.eq_nil {ms : List Char} (h : Veils [] ms) : ms = [] := by
  cases h
  rfl

theorem Veils.nil_of_nil {cs : List Char} (h : Veils cs []) : cs = [] := by
  generalize hms : [] = ms at h
  cases h with
  | nil => rfl
  | code => cases hms
  | @literal cs =>
    obtain ⟨x, hx⟩ := maskLiteral_head (cutLiteral cs).1
    rw [hx] at hms
    cases hms

/-- A text is all white space when its mask is. -/
theorem Veils.spaces_iff {cs ms : List Char} (h : Veils cs ms) :
    (∀ c ∈ cs, Text.isSpace c = true) ↔ ∀ c ∈ ms, Text.isSpace c = true := by
  induction h with
  | nil => exact Iff.rfl
  | code _ _ ih => rw [List.forall_mem_cons, List.forall_mem_cons, ih]
  | @literal cs _ _ _ =>
    obtain ⟨x, hx⟩ := maskLiteral_head (cutLiteral cs).1
    rw [hx, List.cons_append, List.forall_mem_cons, List.forall_mem_cons]
    exact ⟨fun h => absurd h.1 (by decide), fun h => absurd h.1 (by decide)⟩

/-! ## Strings -/

/-- A masked string: quotes with filler between them, and carriage returns. -/
def Veiled : Front := fun ms rest =>
  ∃ w, (∀ c ∈ w, c = '_' ∨ c = '\r') ∧ ms = '"' :: (w ++ '"' :: rest)

/-- What the reader takes for a masked string: no line feed comes before the next quote. -/
def Shut : Front := fun ms rest => ∃ w, '"' ∉ w ∧ '\n' ∉ w ∧ ms = '"' :: (w ++ '"' :: rest)

theorem mem_blank {c : Char} {cs : List Char} (h : c ∈ blank '_' cs) :
    c = '_' ∨ (c = '\r' ∨ c = '\n') ∧ c ∈ cs := by
  obtain ⟨d, hd, rfl⟩ := List.mem_map.mp h
  split
  · rename_i hbreak
    rw [Bool.or_eq_true, beq_iff_eq, beq_iff_eq] at hbreak
    exact .inr ⟨hbreak, hd⟩
  · exact .inl rfl

theorem quote_not_mem_blank (cs : List Char) : '"' ∉ blank '_' cs := by
  intro hmem
  rcases mem_blank hmem with h | ⟨h | h, -⟩ <;> cases h

theorem maskLiteral_closed (u : List Char) :
    maskLiteral ('"' :: (u ++ ['"'])) = '"' :: (blank '_' u ++ ['"']) := by
  simp [maskLiteral]

theorem maskLiteral_open {u : List Char} (h : u.getLast? ≠ some '"') :
    maskLiteral ('"' :: u) = '"' :: blank '_' u := by
  simp [maskLiteral, h]

/-- Where a line ends, a literal is cut. -/
theorem cutLiteral_of_end {rest : List Char} (h : ∀ c, rest.head? = some c → c = '\n') :
    cutLiteral rest = ([], rest) := by
  cases rest with
  | nil => rfl
  | cons c rest =>
    obtain rfl := h c rfl
    exact cutLiteral_feed rest

/-- A string shows as one in the mask. -/
theorem veiled_of_taken (cs rest ms : List Char) (h : Taken cs rest) (hms : Veils cs ms) :
    ∃ ms', Veils rest ms' ∧ Veiled ms ms' := by
  -- either way the literal ends with a quote
  obtain ⟨u, hline, inner, rfl, hcut⟩ : ∃ u, '\n' ∉ u ∧ ∃ inner, cs = '"' :: inner ∧
      cutLiteral inner = (u ++ ['"'], rest) := by
    rcases h with ⟨u, hu, hline, rfl⟩ | ⟨u, hu, hline, hend, rfl⟩
    · exact ⟨u, hline, _, rfl, by rw [hu.cutLiteral_append, cutLiteral_quote]⟩
    · refine ⟨u ++ ['\\'], by simp [hline], _, rfl, ?_⟩
      rw [hu.cutLiteral_append, cutLiteral_escape, cutLiteral_of_end hend]
      simp
  cases hms with
  | code hc => exact absurd rfl hc
  | @literal _ ms hrest =>
    rw [hcut] at hrest ⊢
    refine ⟨ms, hrest, blank '_' u, fun c hc => ?_, by rw [maskLiteral_closed]; simp⟩
    rcases mem_blank hc with h | ⟨h | rfl, hmem⟩
    · exact .inl h
    · exact .inr h
    · exact absurd hmem hline

/-- A quote at the end of characters and escapes is escaped. -/
theorem Escaped.eq_of_getLast? {u : List Char} (h : Escaped u) (hlast : u.getLast? = some '"') :
    ∃ v, Escaped v ∧ u = v ++ ['\\', '"'] := by
  induction h with
  | nil => cases hlast
  | @plain c cs hc h ih =>
    cases cs with
    | nil =>
      obtain rfl : c = '"' := Option.some.inj hlast
      exact absurd hc (by decide)
    | cons d rest =>
      rw [List.getLast?_cons_cons] at hlast
      obtain ⟨v, hv, heq⟩ := ih hlast
      exact ⟨c :: v, .plain hc hv, by rw [heq, List.cons_append]⟩
  | @escape c cs h ih =>
    cases cs with
    | nil =>
      obtain rfl : c = '"' := Option.some.inj hlast
      exact ⟨[], .nil, rfl⟩
    | cons d rest =>
      rw [List.getLast?_cons_cons, List.getLast?_cons_cons] at hlast
      obtain ⟨v, hv, heq⟩ := ih hlast
      exact ⟨'\\' :: c :: v, .escape hv, by rw [heq, List.cons_append, List.cons_append]⟩

/-- What stands before the next quote goes on behind what holds none. -/
theorem exists_of_append_quote {x b w rest : List Char} (hx : '"' ∉ x)
    (h : x ++ b = w ++ '"' :: rest) : ∃ w', w = x ++ w' ∧ b = w' ++ '"' :: rest := by
  rcases List.append_eq_append_iff.mp h with ⟨w', hw, hb⟩ | ⟨w', hw, hb⟩
  · exact ⟨w', hw, hb⟩
  · cases w' with
    | nil => exact ⟨[], by rw [hw, List.append_nil, List.append_nil], by simpa using hb.symm⟩
    | cons c w' =>
      rw [List.cons_append] at hb
      obtain ⟨rfl, -⟩ := List.cons.inj hb
      exact absurd (by rw [hw]; simp) hx

theorem not_mem_of_blank {u : List Char} (h : '\n' ∉ blank '_' u) : '\n' ∉ u :=
  fun hmem => h (List.mem_map.mpr ⟨'\n', hmem, rfl⟩)

/-- What shows as a string is one, or was cut off right after an escaped quote. -/
theorem taken_of_shut (ms rest cs : List Char) (h : Shut ms rest) (hms : Veils cs ms) :
    ∃ cs', Veils cs' rest ∧ Taken cs cs' := by
  obtain ⟨w, hquote, hline, rfl⟩ := h
  generalize hmask : '"' :: (w ++ '"' :: rest) = ms at hms
  cases hms with
  | nil => cases hmask
  | code hc => exact absurd (List.cons.inj hmask).1.symm hc
  | @literal cs ms hrest =>
    -- a literal that ends with a quote shows as a string
    have hclosed {u : List Char} (hcut : (cutLiteral cs).1 = u ++ ['"']) :
        '\n' ∉ u ∧ Veils (cutLiteral cs).2 rest := by
      rw [hcut, maskLiteral_closed] at hmask
      have hinside : blank '_' u ++ '"' :: ms = w ++ '"' :: rest := by simpa using hmask.symm
      obtain ⟨w', rfl, hafter⟩ := exists_of_append_quote (quote_not_mem_blank u) hinside
      cases w' with
      | nil =>
        obtain rfl := (List.cons.inj hafter).2
        exact ⟨not_mem_of_blank fun hmem => hline (by simpa using hmem), hrest⟩
      | cons c w' =>
        obtain ⟨rfl, -⟩ := List.cons.inj hafter
        exact absurd (by simp) hquote
    -- and one that does not shows a line feed or the end of the text first
    have hopen (hlast : (cutLiteral cs).1.getLast? ≠ some '"')
        (hend : ∀ c, (cutLiteral cs).2.head? = some c → c = '\n') : False := by
      rw [maskLiteral_open hlast] at hmask
      have hinside : blank '_' (cutLiteral cs).1 ++ ms = w ++ '"' :: rest := (List.cons.inj hmask).2.symm
      obtain ⟨w', rfl, hafter⟩ := exists_of_append_quote (quote_not_mem_blank _) hinside
      cases hafter' : (cutLiteral cs).2 with
      | nil =>
        rw [hafter'] at hrest
        rw [hrest.eq_nil] at hafter
        cases w' <;> cases hafter
      | cons c after =>
        obtain rfl : c = '\n' := hend c (by rw [hafter']; rfl)
        rw [hafter'] at hrest
        obtain ⟨ms', rfl, -⟩ := sameCode_veils _ _ _ (by decide) hrest
        cases w' with
        | nil => cases hafter
        | cons d w' =>
          obtain ⟨rfl, -⟩ := List.cons.inj hafter
          exact hline (by simp)
    have hjoin := cutLiteral_join cs
    have hends := ends_cutLiteral cs
    generalize hx : (cutLiteral cs).1 = x at hends hclosed hopen hjoin
    generalize hy : (cutLiteral cs).2 = y at hends hclosed hopen hjoin
    cases hends with
    | @closed u _ hu =>
      obtain ⟨hu', hveils⟩ := hclosed rfl
      exact ⟨y, hveils, .inl ⟨u, hu, hu', by rw [← hjoin]; simp⟩⟩
    | @cut u _ hu hend =>
      have hlast : x.getLast? = some '"' := Classical.byContradiction fun hlast => hopen hlast hend
      obtain ⟨v, hv, rfl⟩ := hu.eq_of_getLast? hlast
      have hu' : v ++ ['\\', '"'] = (v ++ ['\\']) ++ ['"'] := by simp
      obtain ⟨hv', hveils⟩ := hclosed hu'
      exact ⟨y, hveils, .inr ⟨v, hv, by simpa using hv', hend, by rw [← hjoin]; simp⟩⟩
    | dangling hu => exact (hopen (by simp) fun c hc => by cases hc).elim

/-! ## Scans -/

/-- What one lexeme leaves, in the clean text and in the masked text: a literal, or the same characters and
no quote. -/
theorem lexemeAt_json {t : Text} {i : Nat} (depth : Nat) (hi : i < t.size) :
    (t[i]? = some '"' ∧ lexemeAt .json t depth i =
      ⟨.literal, i, literalStop .json t '"' (t.size - i) (i + 1)⟩) ∨
    (t[i]? ≠ some '"' ∧ (lexemeAt .json t depth i).clean t = (lexemeAt .json t depth i).masked t ∧
      '"' ∉ (lexemeAt .json t depth i).clean t) := by
  have hget : t[i]? = some t[i] := Array.getElem?_eq_getElem hi
  by_cases hquote : t[i]? = some '"'
  · refine .inl ⟨hquote, ?_⟩
    rw [lexemeAt, hquote]
    rfl
  · refine .inr ⟨hquote, ?_⟩
    have hcontains : Profile.json.quotes.contains t[i] = false := by
      have hne : t[i] ≠ '"' := fun h => hquote (by rw [hget, h])
      simp [Profile.json, hne]
    have hblank (l : Lexeme) : '"' ∉ blank ' ' (t.slice l.start l.stop) := by
      intro hmem
      obtain ⟨c, -, hc⟩ := List.mem_map.mp hmem
      split at hc
      · rename_i hbreak
        rw [hc] at hbreak
        cases hbreak
      · cases hc
    rw [lexemeAt, hget]
    simp only [hcontains, Bool.false_eq_true, if_false]
    split
    · exact ⟨rfl, hblank ⟨.blockComment, i, blockStop t i⟩⟩
    · split
      · exact ⟨rfl, hblank ⟨.lineComment, i, lineStop t i⟩⟩
      · refine ⟨rfl, fun hmem => hquote ?_⟩
        have hone : Lexeme.clean t ⟨.code, i, i + 1⟩ = [t[i]] := Text.slice_one hget
        rw [hone, List.mem_singleton] at hmem
        rw [hget, hmem]

/-- Lexemes from a line feed on start with it. -/
theorem clean_of_feed {t : Text} {fuel i depth : Nat} (h : t[i]? = some '\n') (hfuel : t.size ≤ i + fuel) :
    ∃ after, (lexemesFrom .json t fuel i depth).flatMap (·.clean t) = '\n' :: after := by
  have hi := Text.lt_size_of_getElem? h
  obtain ⟨n, rfl⟩ := Nat.exists_eq_succ_of_ne_zero (show fuel ≠ 0 by omega)
  have hslash (c : Char) : t.standsAt i ['/', c] = false := by
    simp [Text.standsAt, Text.hasAt, Text.testAt, h]
  have hcode : lexemeAt .json t depth i = ⟨.code, i, i + 1⟩ := by
    simp only [lexemeAt, h, hslash, Bool.and_false, Bool.false_and, Bool.false_eq_true, if_false]
    rfl
  rw [lexemesFrom, if_pos hi, hcode, List.flatMap_cons]
  simp only [Lexeme.clean, Text.slice_one h]
  exact ⟨_, rfl⟩

theorem veils_lexemesFrom {t : Text} {fuel i : Nat} (depth : Nat) (hfuel : t.size ≤ i + fuel) :
    Veils ((lexemesFrom .json t fuel i depth).flatMap (·.clean t))
      ((lexemesFrom .json t fuel i depth).flatMap (·.masked t)) := by
  induction fuel generalizing i depth with
  | zero => exact .nil
  | succ fuel ih =>
    rw [lexemesFrom]
    split
    · rename_i hi
      obtain ⟨hstart, hpos, hstop⟩ := lexemeAt_bounds .json t depth hi
      have hrest := ih (i := (lexemeAt .json t depth i).stop)
        (depthAfter t (lexemeAt .json t depth i) depth) (by omega)
      rw [List.flatMap_cons, List.flatMap_cons]
      rcases lexemeAt_json depth hi with ⟨hquote, hliteral⟩ | ⟨-, hsame, hnone⟩
      · generalize hls : lexemesFrom .json t fuel (lexemeAt .json t depth i).stop
          (depthAfter t (lexemeAt .json t depth i) depth) = ls at hrest ⊢
        rw [hliteral] at hpos hstop hls ⊢
        dsimp only at hpos hstop
        let stop := literalStop .json t '"' (t.size - i) (i + 1)
        have hcut := cutLiteral_remaining (show t.size ≤ i + 1 + (t.size - i) by omega) hi
        have hslice : t.slice i stop = '"' :: (cutLiteral (t.remaining (i + 1))).1 := by
          rw [hcut, ← Text.slice_append t (Nat.le_succ i) hpos, Text.slice_one hquote]
          rfl
        -- what follows the literal in the clean text ends it as well as what follows it in the source
        have hclean : cutLiteral ((cutLiteral (t.remaining (i + 1))).1 ++ ls.flatMap (·.clean t)) =
            ((cutLiteral (t.remaining (i + 1))).1, ls.flatMap (·.clean t)) := by
          refine cutLiteral_congr (fun hnil => ?_) fun after hfeed => ?_
          · rw [hcut] at hnil
            have hsize := Text.size_le_of_remaining hnil
            rw [← hls]
            cases fuel with
            | zero => rfl
            | succ fuel => rw [lexemesFrom, if_neg (by dsimp only; omega)]; rfl
          · rw [hcut] at hfeed
            rw [← hls]
            exact clean_of_feed (Text.getElem?_of_remaining hfeed).1 (by dsimp only; omega)
        have hveils := @Veils.literal ((cutLiteral (t.remaining (i + 1))).1 ++ ls.flatMap (·.clean t))
          (ls.flatMap (·.masked t)) (by rw [hclean]; exact hrest)
        rw [hclean] at hveils
        simp only [Lexeme.clean, Lexeme.masked]
        rw [hslice]
        exact hveils
      · rw [← hsame]
        exact hrest.append hnone
    · exact .nil

/-- The masked text of a scan masks its clean text. -/
theorem veils_scan (t : Text) :
    Veils (Scanned.scan .json t).clean.toList (Scanned.scan .json t).masked.toList :=
  veils_lexemesFrom 0 (by omega)

end MemberOrder.Json
