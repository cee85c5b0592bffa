/-
  The JSON reader accepts its language and nothing else.

  What is derived is read, wherever it stands: a lemma for each way to derive a part
  (`readsPart_string`, ..., `readsPart_more`), and from them the induction on derivations
  (`Derives.readsPart`). So the reader takes a masked text for a document just when it is accepted, and one
  of nothing but white space for no document (`readDocument_cases`). What is accepted of the masked text is
  what is accepted of the clean text, with the strings the reader takes (`accepted_clean_iff`).
-/
import MemberOrder.Proofs.Json.Deriving
import MemberOrder.Proofs.Json.Reading

namespace MemberOrder.Json

open Scanned

/-! ## What is derived is balanced -/

/-- Balanced characters stand in front of the rest. -/
def BalancedTo : Front := fun cs rest => ∃ x, Balanced x ∧ cs = x ++ rest

theorem BalancedTo.trans {a b c : List Char} (h : BalancedTo a b) (h' : BalancedTo b c) :
    BalancedTo a c := by
  obtain ⟨x, hx, rfl⟩ := h
  obtain ⟨y, hy, rfl⟩ := h'
  exact ⟨x ++ y, hx.append hy, (List.append_assoc x y c).symm⟩

theorem BalancedTo.length_le {cs rest : List Char} (h : BalancedTo cs rest) :
    rest.length ≤ cs.length := by
  obtain ⟨x, -, rfl⟩ := h
  simp

theorem balancedTo_cons {c : Char} (hc : NoBracket c) (rest : List Char) : BalancedTo (c :: rest) rest :=
  ⟨[c], balanced_of_noBracket fun _ hd => List.mem_singleton.mp hd ▸ hc, rfl⟩

theorem Spaces.balancedTo {cs rest : List Char} (h : Spaces cs rest) : BalancedTo cs rest := by
  obtain ⟨a, ha, rfl⟩ := h
  refine ⟨a, balanced_of_noBracket fun c hc hbracket => ?_, rfl⟩
  have hall : ∀ c ∈ ['{', '}', '[', ']'], Text.isSpace c = false := by decide
  have hno := hall c hbracket
  rw [ha c hc] at hno
  cases hno

theorem balancedTo_veiled {cs rest : List Char} (h : Veiled cs rest) : BalancedTo cs rest := by
  obtain ⟨w, hw, rfl⟩ := h
  refine ⟨'"' :: w ++ ['"'], balanced_of_noBracket fun c hc => ?_, by simp⟩
  have hall : ∀ c ∈ ['"', '_', '\r'], NoBracket c := by decide
  refine hall c ?_
  simp only [List.cons_append, List.mem_cons, List.mem_append, List.not_mem_nil, or_false] at hc ⊢
  rcases hc with h | h | h
  · exact .inl h
  · exact .inr (hw c h)
  · exact .inl h

theorem Plain.balanced {x : List Char} (h : Plain x) : Balanced x := by
  have hall : ∀ c ∈ ['{', '}', '[', ']'], Text.isDecimal c = false ∧ c ∉ plainMarks := by decide
  exact balanced_of_noBracket fun c hc hbracket =>
    h.not_mem (hall c hbracket).1 (hall c hbracket).2 hc

/-- What is derived is balanced. -/
theorem Derives.balancedTo {part : Part} {cs rest : List Char} (h : Derives Veiled part cs rest) :
    BalancedTo cs rest := by
  induction h with
  | string hstring => exact balancedTo_veiled hstring
  | plain hx => exact ⟨_, hx.balanced, rfl⟩
  | container isObject _ ih =>
    obtain ⟨x, hx, rfl⟩ := ih
    exact ⟨_, hx.bracketed isObject, by simp⟩
  | element _ ih => exact ih
  | named hname ha hb _ ih =>
    exact (balancedTo_veiled hname).trans (ha.balancedTo.trans
      ((balancedTo_cons (by decide) _).trans (hb.balancedTo.trans ih)))
  | none h => exact h.balancedTo
  | last ha _ hb ih => exact ha.balancedTo.trans (ih.trans hb.balancedTo)
  | more ha _ hb _ ih ihmore =>
    exact ha.balancedTo.trans (ih.trans (hb.balancedTo.trans
      ((balancedTo_cons (by decide) _).trans ihmore)))

theorem startsCode_veiled {cs rest : List Char} (h : Veiled cs rest) : StartsCode cs := by
  obtain ⟨w, -, rfl⟩ := h
  exact ⟨'"', rfl, by decide⟩

/-- Values and members start with code. -/
theorem Derives.startsCode {part : Part} {cs rest : List Char} (h : Derives Veiled part cs rest)
    (hpart : ∀ isObject, part ≠ .members isObject) : StartsCode cs := by
  induction h with
  | string hstring => exact startsCode_veiled hstring
  | @plain x rest hx =>
    obtain ⟨c, x, rfl⟩ := List.exists_cons_of_ne_nil hx.chars.1
    refine ⟨c, rfl, ?_⟩
    have hmarks : ∀ c ∈ plainMarks, Text.isSpace c = false := by decide
    exact (hx.chars.2 c List.mem_cons_self).elim Text.isSpace_of_isDecimal (hmarks c)
  | container isObject _ _ => exact ⟨_, rfl, (opener_code isObject).1⟩
  | element _ ih => exact ih nofun
  | named hname _ _ _ _ => exact startsCode_veiled hname
  | none _ => exact absurd rfl (hpart _)
  | last _ _ _ _ => exact absurd rfl (hpart _)
  | more _ _ _ _ _ _ => exact absurd rfl (hpart _)

/-! ## What is derived is read -/

/-- A value can end before what remains. -/
def Ended (rest : List Char) : Prop :=
  ∀ c, rest.head? = some c → Text.isSpace c = true ∨ c ∈ delimiters

theorem Ended.delimited {t : Text} {i : Nat} {rest : List Char} (h : Ended rest)
    (hrest : t.remaining i = rest) : Delimited t i := by
  intro c hc
  rw [Text.remaining_of_getElem? hc] at hrest
  exact h c (by rw [← hrest]; rfl)

theorem Spaces.ended {cs rest : List Char} (h : Spaces cs rest) (hrest : Ended rest) : Ended cs := by
  obtain ⟨a, ha, rfl⟩ := h
  cases a with
  | nil => exact hrest
  | cons c a =>
    intro d hd
    cases hd
    exact .inl (ha _ List.mem_cons_self)

theorem ended_cons {c : Char} (hc : c ∈ delimiters) (rest : List Char) : Ended (c :: rest) := by
  intro d hd
  cases hd
  exact .inr hc

variable {s : Scanned} {i close fuel : Nat} {isObject : Bool} {cs a b c rest : List Char}

/-- Behind white space the next code is found, within every limit that holds it. -/
theorem Spaces.nextCode (h : Spaces (s.masked.remaining i) rest)
    (hcode : ∀ c, rest.head? = some c → Text.isSpace c = false) :
    ∃ j, i ≤ j ∧ s.masked.remaining j = rest ∧
      ∀ limit, j ≤ limit → limit ≤ s.masked.size → s.nextCode i limit = j := by
  obtain ⟨a, ha, hrest⟩ := h
  obtain ⟨hstands, hj⟩ := Text.standsAt_of_remaining hrest
  refine ⟨i + a.length, Nat.le_add_right i a.length, hj, fun limit hlimit hsize => ?_⟩
  refine Text.nextCode_of_spaces hstands ha hlimit fun hlt => ?_
  cases rest with
  | nil =>
    have hend := Text.size_le_of_remaining hj
    omega
  | cons c rest => rw [Text.testAt_of_getElem? (Text.getElem?_of_remaining hj).1, hcode c rfl]

/-- What the reader does with a part, wherever it stands: a value is read to its end, a member as its label
and its value, and members up to the bracket that closes their container. -/
def ReadsPart (s : Scanned) : Part → Front
  | .value, cs, rest => ∀ i fuel, s.masked.remaining i = cs → Ended rest →
      s.masked.size < fuel + i → ∃ tree, readValue s fuel i = .ok tree ∧ tree.start = i ∧
        i < tree.stop ∧ tree.stop ≤ s.masked.size ∧ s.masked.remaining tree.stop = rest
  | .member isObject, cs, rest => ∀ i close fuel, s.masked.remaining i = cs → Ended rest →
      close ≤ s.masked.size → s.masked.size ≤ close + rest.length → s.masked.size < fuel + i →
      ∃ keyStop tree, readLabel s isObject close i = .ok (keyStop, tree.start) ∧ i ≤ tree.start ∧
        tree.start < close ∧ readValue s fuel tree.start = .ok tree ∧ tree.start < tree.stop ∧
        s.masked.remaining tree.stop = rest
  | .members isObject, cs, rest => ∀ i close fuel count, s.masked.remaining i = cs → i ≤ close →
      s.masked.remaining close = rest → rest.head? = some (closer isObject) →
      s.masked.size < fuel + i → close ≤ i + count →
      ∃ slots, readMembers s isObject close (readValue s fuel) count (s.nextCode i close) = .ok slots

/-- A masked string is read up to what follows it. -/
theorem stringStop_veiled (h : Veiled cs rest) (hcs : s.masked.remaining i = cs) :
    s.masked[i]? = some '"' ∧ ∃ stop, stringStop s i = .ok stop ∧ i < stop ∧
      stop ≤ s.masked.size ∧ s.masked.remaining stop = rest := by
  obtain ⟨w, hw, rfl⟩ := h
  have hquote : '"' ∉ w := fun hmem => absurd (hw _ hmem) (by decide)
  have hline : '\n' ∉ w := fun hmem => absurd (hw _ hmem) (by decide)
  have hsplit : '"' :: (w ++ '"' :: rest) = ('"' :: w ++ ['"']) ++ rest := by simp
  obtain ⟨hstands, hrest⟩ := Text.standsAt_of_remaining (hcs.trans hsplit)
  have hlength : ('"' :: w ++ ['"']).length = w.length + 2 := by simp
  rw [hlength, ← Nat.add_assoc] at hrest
  have hsize := Text.length_remaining s.masked i
  rw [hcs] at hsize
  simp only [List.length_cons, List.length_append] at hsize
  exact ⟨(Text.getElem?_of_remaining hcs).1, _, stringStop_eq hquote hline hstands, by omega, by omega,
    hrest⟩

theorem readsPart_string (h : Veiled cs rest) : ReadsPart s .value cs rest := by
  intro i fuel hcs _ hfuel
  obtain ⟨hopen, stop, hstop, hpos, hsize, hrest⟩ := stringStop_veiled h hcs
  obtain ⟨fuel, rfl⟩ := Nat.exists_eq_succ_of_ne_zero (show fuel ≠ 0 by omega)
  refine ⟨.scalar i stop, ?_, rfl, hpos, hsize, hrest⟩
  rw [readValue_scalar fuel hopen (by decide) (by decide), if_pos rfl, hstop]
  rfl

theorem readsPart_plain {x : List Char} (h : Plain x) : ReadsPart s .value (x ++ rest) rest := by
  intro i fuel hcs hend hfuel
  obtain ⟨hstands, hrest⟩ := Text.standsAt_of_remaining hcs
  have hstop := plainStop_eq h hstands (hend.delimited hrest)
  have hnot (d : Char) (hd : d ∈ ['{', '[', '"']) : d ∉ x := by
    have hall : ∀ d ∈ ['{', '[', '"'], Text.isDecimal d = false ∧ d ∉ plainMarks := by decide
    exact h.not_mem (hall d hd).1 (hall d hd).2
  have hsize := Text.length_remaining s.masked i
  obtain ⟨c, x, rfl⟩ := List.exists_cons_of_ne_nil h.chars.1
  have hne (d : Char) (hd : d ∈ ['{', '[', '"']) : c ≠ d := by
    rintro rfl
    exact hnot c hd List.mem_cons_self
  have hlt := Text.lt_size_of_remaining hcs
  obtain ⟨fuel, rfl⟩ := Nat.exists_eq_succ_of_ne_zero (show fuel ≠ 0 by omega)
  rw [hcs] at hsize
  simp only [List.length_cons, List.length_append, List.cons_append] at hsize hstop hrest
  refine ⟨.scalar i (i + (x.length + 1)), ?_, rfl, ?_, ?_, hrest⟩
  · rw [readValue_scalar fuel (Text.getElem?_of_remaining hcs).1 (hne _ (by decide)) (hne _ (by decide)),
      if_neg (hne _ (by decide)), hstop]
    rfl
  · show i < i + (x.length + 1)
    omega
  · show i + (x.length + 1) ≤ s.masked.size
    omega

theorem readsPart_container (hbalanced : BalancedTo cs (closer isObject :: rest))
    (h : ReadsPart s (.members isObject) cs (closer isObject :: rest)) :
    ReadsPart s .value (opener isObject :: cs) rest := by
  intro i fuel hcs _ hfuel
  obtain ⟨x, hx, rfl⟩ := hbalanced
  have hlt := Text.lt_size_of_remaining hcs
  obtain ⟨fuel, rfl⟩ := Nat.exists_eq_succ_of_ne_zero (show fuel ≠ 0 by omega)
  have hsplit : opener isObject :: (x ++ closer isObject :: rest) =
      (opener isObject :: x ++ [closer isObject]) ++ rest := by simp
  have hclose := close?_bracketed hx isObject (Text.standsAt_of_remaining (hcs.trans hsplit)).1
  obtain ⟨hopen, hinner⟩ := Text.getElem?_of_remaining hcs
  have hcloser := (Text.standsAt_of_remaining hinner).2
  obtain ⟨-, hafter⟩ := Text.getElem?_of_remaining hcloser
  have hsize := Text.lt_size_of_remaining hcloser
  obtain ⟨slots, hslots⟩ := h (i + 1) (i + 1 + x.length) fuel (i + 1 + x.length - i) hinner
    (Nat.le_add_right _ _) hcloser rfl (by omega) (by omega)
  have hbracket : (s.masked.hasAt i '{' || s.masked.hasAt i '[') = true := by
    rw [Bool.or_eq_true, Text.hasAt_iff, Text.hasAt_iff, hopen]
    cases isObject
    · exact .inr rfl
    · exact .inl rfl
  refine ⟨.container isObject i (i + 1 + x.length + 1) slots, ?_, rfl, ?_, hsize, hafter⟩
  · rw [readValue, if_pos hbracket, hclose]
    simp only [hasAt_opener hopen, hslots]
    rfl
  · show i < i + 1 + x.length + 1
    omega

theorem readsPart_element (h : ReadsPart s .value cs rest) :
    ReadsPart s (.member false) cs rest := by
  intro i close fuel hcs hend hclose hrest hfuel
  obtain ⟨tree, htree, rfl, hpos, hsize, hstop⟩ := h i fuel hcs hend hfuel
  have hlength := Text.length_remaining s.masked tree.stop
  rw [hstop] at hlength
  exact ⟨tree.start, tree, rfl, Nat.le_refl _, by omega, htree, hpos, hstop⟩

theorem readsPart_named (hname : Veiled cs a) (ha : Spaces a (':' :: b)) (hb : Spaces b c)
    (hvalue : Derives Veiled .value c rest) (h : ReadsPart s .value c rest) :
    ReadsPart s (.member true) cs rest := by
  intro i close fuel hcs hend hclose hrest hfuel
  obtain ⟨hquote, keyStop, hkeyStop, hkeyPos, -, hkey⟩ := stringStop_veiled hname hcs
  obtain ⟨colon, hcolonLe, hcolon, hnextColon⟩ :=
    Spaces.nextCode (hkey ▸ ha) fun d hd => by cases hd; decide
  obtain ⟨hget, hafter⟩ := Text.getElem?_of_remaining hcolon
  obtain ⟨valueAt, hvalueLe, hvalueAt, hnextValue⟩ := Spaces.nextCode (hafter ▸ hb) fun d hd => by
    obtain ⟨e, he, hspace⟩ := hvalue.startsCode nofun
    cases he.symm.trans hd
    exact hspace
  obtain ⟨tree, htree, rfl, hpos, hsize, hstop⟩ := h valueAt fuel hvalueAt hend (by omega)
  have hlengthStop := Text.length_remaining s.masked tree.stop
  rw [hstop] at hlengthStop
  refine ⟨keyStop, tree, ?_, by omega, by omega, htree, hpos, hstop⟩
  simp only [readLabel, readKey, if_true, Text.hasAt_iff.mpr hquote, Bool.not_true, Bool.false_eq_true,
    if_false, hkeyStop, bind, Except.bind, pure, Except.pure,
    hnextColon close (by omega) hclose, Text.hasAt_iff.mpr hget, hnextValue close (by omega) hclose]

/-- A member between white space is read, and the reader goes on at the comma or the bracket after it. -/
theorem ReadsPart.step {d : Char} (h : ReadsPart s (.member isObject) a b)
    (ha : Spaces (s.masked.remaining i) a) (hcode : StartsCode a) (hb : Spaces b (d :: rest))
    (hd : d ∈ delimiters) (hspace : Text.isSpace d = false) (hclose : close ≤ s.masked.size)
    (hrest : s.masked.size ≤ close + (d :: rest).length) (hfuel : s.masked.size < fuel + i) :
    ∃ j keyStop tree next, i ≤ j ∧ j < close ∧ s.nextCode i close = j ∧
      readLabel s isObject close j = .ok (keyStop, tree.start) ∧ tree.start < close ∧
      readValue s fuel tree.start = .ok tree ∧ i < next ∧ s.nextCode tree.stop close = next ∧
      s.masked.remaining next = d :: rest := by
  have hlength := hb.balancedTo.length_le
  obtain ⟨j, hij, hj, hnext⟩ := Spaces.nextCode ha fun c hc => by
    obtain ⟨e, he, hspace⟩ := hcode
    cases he.symm.trans hc
    exact hspace
  obtain ⟨keyStop, tree, hlabel, hle, hlt, htree, hpos, hstop⟩ := h j close fuel hj
    (hb.ended (ended_cons hd rest)) hclose (by omega) (by omega)
  obtain ⟨next, hnextLe, hnextAt, hnextStop⟩ := Spaces.nextCode (hstop ▸ hb) fun c hc => by
    cases hc
    exact hspace
  have hsize := Text.length_remaining s.masked next
  have hltNext := Text.lt_size_of_remaining hnextAt
  rw [hnextAt] at hsize
  exact ⟨j, keyStop, tree, next, hij, by omega, hnext close (by omega) hclose, hlabel, hlt, htree, by omega,
    hnextStop close (by omega) hclose, hnextAt⟩

theorem readsPart_none (h : Spaces cs rest) : ReadsPart s (.members isObject) cs rest := by
  intro i close fuel count hcs hi hclose hcloser _ _
  obtain ⟨c, rest, rfl⟩ := List.exists_cons_of_ne_nil (l := rest) (by rintro rfl; cases hcloser)
  cases hcloser
  have hsize := Nat.le_of_lt (Text.lt_size_of_remaining hclose)
  obtain ⟨j, -, hj, hnext⟩ := Spaces.nextCode (hcs ▸ h) fun c hc => by
    cases hc
    exact isSpace_closer isObject
  have hjsize := Nat.le_of_lt (Text.lt_size_of_remaining hj)
  obtain rfl : j = close := Text.eq_of_remaining hjsize hsize (hj.trans hclose.symm)
  exact ⟨[], by rw [hnext j (Nat.le_refl j) hsize, readMembers_end]⟩

theorem readsPart_last (ha : Spaces cs a) (hcode : StartsCode a) (h : ReadsPart s (.member isObject) a b)
    (hb : Spaces b rest) : ReadsPart s (.members isObject) cs rest := by
  intro i close fuel count hcs hi hclose hcloser hfuel hcount
  obtain ⟨c, rest, rfl⟩ := List.exists_cons_of_ne_nil (l := rest) (by rintro rfl; cases hcloser)
  cases hcloser
  have hsize := Nat.le_of_lt (Text.lt_size_of_remaining hclose)
  have hlength := Text.length_remaining s.masked close
  rw [hclose] at hlength
  obtain ⟨j, keyStop, tree, next, hij, hlt, hnext, hlabel, hstart, htree, -, hnext', hnextAt⟩ :=
    h.step (hcs ▸ ha) hcode hb (delimiter_closer isObject) (isSpace_closer isObject) hsize (by omega) hfuel
  have hnextSize := Nat.le_of_lt (Text.lt_size_of_remaining hnextAt)
  obtain rfl : next = close := Text.eq_of_remaining hnextSize hsize (hnextAt.trans hclose.symm)
  obtain ⟨count, rfl⟩ := Nat.exists_eq_succ_of_ne_zero (show count ≠ 0 by omega)
  exact ⟨_, by rw [hnext]; exact readMembers_last hlt hlabel hstart htree hnext'⟩

theorem readsPart_more (ha : Spaces cs a) (hcode : StartsCode a) (h : ReadsPart s (.member isObject) a b)
    (hb : Spaces b (',' :: c)) (hmore : ReadsPart s (.members isObject) c rest)
    (hbalanced : BalancedTo c rest) : ReadsPart s (.members isObject) cs rest := by
  intro i close fuel count hcs hi hclose hcloser hfuel hcount
  obtain ⟨d, rest, rfl⟩ := List.exists_cons_of_ne_nil (l := rest) (by rintro rfl; cases hcloser)
  have hsize := Nat.le_of_lt (Text.lt_size_of_remaining hclose)
  have hlength := Text.length_remaining s.masked close
  rw [hclose] at hlength
  have hle := hbalanced.length_le
  obtain ⟨j, keyStop, tree, next, hij, hlt, hnext, hlabel, hstart, htree, hpos, hnext', hnextAt⟩ :=
    h.step (hcs ▸ ha) hcode hb (show ',' ∈ delimiters by decide) (by decide) hsize
      (by rw [List.length_cons]; omega) hfuel
  obtain ⟨hcomma, hafter⟩ := Text.getElem?_of_remaining hnextAt
  have hlengthAfter := Text.length_remaining s.masked next
  rw [hnextAt, List.length_cons] at hlengthAfter
  obtain ⟨count, rfl⟩ := Nat.exists_eq_succ_of_ne_zero (show count ≠ 0 by omega)
  obtain ⟨slots, hslots⟩ := hmore (next + 1) close fuel count hafter (by omega) hclose hcloser (by omega)
    (by omega)
  exact ⟨_, by rw [hnext]; exact readMembers_more hlt hlabel hstart htree hnext' (by omega) hcomma hslots⟩

/-- What is derived is read, wherever it stands. -/
theorem Derives.readsPart {part : Part} (h : Derives Veiled part cs rest) : ReadsPart s part cs rest := by
  induction h with
  | string hstring => exact readsPart_string hstring
  | plain hx => exact readsPart_plain hx
  | container isObject hmembers ih => exact readsPart_container hmembers.balancedTo ih
  | element _ ih => exact readsPart_element ih
  | named hname ha hb hvalue ih => exact readsPart_named hname ha hb hvalue ih
  | none h => exact readsPart_none h
  | last ha hmember hb ih => exact readsPart_last ha (hmember.startsCode nofun) ih hb
  | more ha hmember hb hmore ih ihmore =>
    exact readsPart_more ha (hmember.startsCode nofun) ih hb ihmore hmore.balancedTo

/-! ## Documents -/

/-- A text of nothing but white space. -/
def AllSpaces (cs : List Char) : Prop := ∀ c ∈ cs, Text.isSpace c = true

theorem spaces_nil_iff : Spaces cs [] ↔ AllSpaces cs := by
  constructor
  · rintro ⟨a, ha, rfl⟩
    rwa [List.append_nil]
  · exact fun h => ⟨cs, h, (List.append_nil cs).symm⟩

/-- No code is found just where nothing but white space remains. -/
theorem getElem?_nextCodeToEnd :
    s.masked[s.nextCodeToEnd i]? = none ↔ Spaces (s.masked.remaining i) [] := by
  have hspaced := spaces_nextCode s i s.masked.size
  constructor
  · intro hnone
    rw [← Text.remaining_of_size_le (Array.getElem?_eq_none_iff.mp hnone)]
    exact hspaced
  · intro h
    cases hc : s.masked[s.nextCodeToEnd i]? with
    | none => rfl
    | some c =>
      have hcode : s.masked.testAt (s.nextCodeToEnd i) Text.isSpace = false :=
        Text.code_at_nextCode (Text.lt_size_of_getElem? hc)
      have hmem : c ∈ s.masked.remaining i := by
        obtain ⟨a, -, ha⟩ := hspaced
        rw [ha]
        refine List.mem_append_right a ?_
        rw [show s.nextCode i s.masked.size = s.nextCodeToEnd i from rfl, Text.remaining_of_getElem? hc]
        exact List.mem_cons_self
      rw [Text.testAt_of_getElem? hc, spaces_nil_iff.mp h c hmem] at hcode
      cases hcode

/-- An accepted text is read as a document. -/
theorem readDocument_of_accepted (h : Accepted Veiled s.masked.toList) :
    ∃ tree, readDocument s = .ok (some tree) := by
  obtain ⟨isObject, a, b, ha, hmembers, hb⟩ := h
  obtain ⟨start, -, hstart, hnext⟩ := Spaces.nextCode (s := s) (i := 0) ha fun c hc => by
    cases hc
    exact (opener_code isObject).1
  have hlt := Text.lt_size_of_remaining hstart
  have hopen := (Text.getElem?_of_remaining hstart).1
  have hnextToEnd : s.nextCodeToEnd 0 = start := hnext _ (Nat.le_of_lt hlt) (Nat.le_refl _)
  obtain ⟨tree, htree, -, -, -, hstop⟩ := (Derives.container isObject hmembers).readsPart start
    (s.masked.size + 1) hstart (hb.ended nofun) (by omega)
  have hend := getElem?_nextCodeToEnd.mpr (hstop ▸ hb)
  have hbracket : (opener isObject != '{' && opener isObject != '[') = false := by
    cases isObject <;> rfl
  refine ⟨tree, ?_⟩
  simp only [readDocument, hnextToEnd, hopen, hbracket, Bool.false_eq_true, if_false, htree, hend, bind,
    Except.bind, pure, Except.pure]

/-- The reader finds no document just in a text of nothing but white space. -/
theorem readDocument_none : readDocument s = .ok none ↔ AllSpaces s.masked.toList := by
  rw [← spaces_nil_iff, ← Text.remaining_zero, ← getElem?_nextCodeToEnd]
  constructor
  · intro h
    cases hc : s.masked[s.nextCodeToEnd 0]? with
    | none => rfl
    | some c =>
      simp only [readDocument, hc] at h
      split at h
      · cases h
      · obtain ⟨tree, -, h⟩ := bind_ok h
        split at h <;> cases h
  · intro h
    simp only [readDocument, h]
    rfl

/-! ## The clean text -/

/-- The reader takes a document for one just when its clean text is accepted. -/
theorem readDocument_some (t : Text) :
    (∃ tree, readDocument (scan .json t) = .ok (some tree)) ↔
      Accepted Taken (scan .json t).clean.toList := by
  constructor
  · rintro ⟨tree, h⟩
    exact (accepted_of_readDocument h).along sameCode_veils_flip (fun cs h => h.nil_of_nil)
      taken_of_shut (veils_scan t)
  · intro h
    exact readDocument_of_accepted
      (h.along sameCode_veils (fun ms h => h.eq_nil) veiled_of_taken (veils_scan t))

theorem Taken.suffix {cs rest : List Char} (h : Taken cs rest) : rest <:+ cs := by
  rcases h with ⟨u, -, -, rfl⟩ | ⟨u, -, -, -, rfl⟩
  · exact ⟨'"' :: u ++ ['"'], by simp⟩
  · exact ⟨'"' :: u ++ ['\\', '"'], by simp⟩

/-- What is accepted with one notion of a string is accepted with another one, when the strings in the text
are such. -/
theorem Accepted.mono {string other : Front} {cs : List Char} (h : Accepted string cs)
    (hsuffix : ∀ x rest, string x rest → rest <:+ x)
    (hother : ∀ x rest, x <:+ cs → string x rest → other x rest) : Accepted other cs := by
  let R := fun x y : List Char => x = y ∧ x <:+ cs
  refine h.along (R := R) ?_ (fun ms h => h.1.symm) ?_ ⟨rfl, List.suffix_refl cs⟩
  · rintro c x _ - ⟨rfl, hx⟩
    exact ⟨x, rfl, rfl, (List.suffix_cons c x).trans hx⟩
  · rintro x rest _ hstring ⟨rfl, hx⟩
    exact ⟨rest, ⟨rfl, (hsuffix x rest hstring).trans hx⟩, hother x rest hx hstring⟩

/-- The root is read just where a document is. -/
theorem read_root (fileType : FileType) (t : Text) :
    (∃ e, read fileType t = { entities := [e] } ∧ e.name = "root") ↔
      ∃ tree, readDocument (scan .json t) = .ok (some tree) := by
  constructor
  · rintro ⟨e, he, -⟩
    unfold read at he
    dsimp only at he
    split at he
    · cases he
    · cases he
    · rename_i tree htree
      exact ⟨tree, htree⟩
  · rintro ⟨tree, htree⟩
    exact ⟨rootEntity (scan .json t) fileType tree, by rw [read, htree], rfl⟩

theorem read_nothing (fileType : FileType) (t : Text) :
    read fileType t = {} ↔ readDocument (scan .json t) = .ok none := by
  constructor
  · intro h
    unfold read at h
    dsimp only at h
    split at h
    · cases h
    · assumption
    · cases h
  · intro h
    rw [read, h]

theorem message_json (problem : JsonProblem) (line : Nat) :
    ∃ text, (ReadError.json problem line).message = "JSON parsing error: " ++ text := by
  have hassoc (a b c d : String) : a ++ b ++ c ++ d = a ++ (b ++ (c ++ d)) := by
    rw [String.append_assoc, String.append_assoc]
  exact ⟨_, hassoc "JSON parsing error: " problem.message " at line " (toString line)⟩

/-- Reading a text, whose comments count as white space: the root is read just when the text is an object
or an array of the language, nothing is read and nothing is wrong just when it is all white space, and in
all other cases there is one error and no entity. Of the strings that are taken for such, the wrong ones are
those that their line cuts off right after an escaped quote: where there is none, the language is that of
the strings between quotes. -/
theorem read_accepts (fileType : FileType) (t : Text) :
    let cs := (scan .json t).clean.toList
    ((∃ e, read fileType t = { entities := [e] } ∧ e.name = "root") ↔ Accepted Taken cs) ∧
    (read fileType t = {} ↔ AllSpaces cs) ∧
    (Accepted Taken cs ∨ AllSpaces cs ∨ ∃ e, read fileType t = { errors := [e] } ∧
      ∃ text, e.message = "JSON parsing error: " ++ text) ∧
    (Accepted Quoted cs → Accepted Taken cs) ∧
    ((∀ x rest, x <:+ cs → ¬ CutOff x rest) → Accepted Taken cs → Accepted Quoted cs) := by
  intro cs
  have hroot : (∃ tree, readDocument (scan .json t) = .ok (some tree)) ↔ Accepted Taken cs :=
    readDocument_some t
  have hnothing : readDocument (scan .json t) = .ok none ↔ AllSpaces cs :=
    readDocument_none.trans (veils_scan t).spaces_iff.symm
  refine ⟨(read_root fileType t).trans hroot, (read_nothing fileType t).trans hnothing, ?_, fun h => ?_,
    fun hnone h => ?_⟩
  · rw [← hroot, ← hnothing]
    cases hread : readDocument (scan .json t) with
    | error fault =>
      have herror : read fileType t = { errors := [.json fault.1 fault.2] } := by rw [read, hread]
      exact .inr (.inr ⟨_, herror, message_json fault.1 fault.2⟩)
    | ok tree =>
      cases tree with
      | none => exact .inr (.inl rfl)
      | some tree => exact .inl ⟨tree, rfl⟩
  · exact h.mono (fun x rest h => Taken.suffix (.inl h)) fun x rest _ h => .inl h
  · exact h.mono (fun x rest => Taken.suffix) fun x rest hx h => h.resolve_right (hnone x rest hx)

/-- A comma may follow the last element. -/
theorem read_root_of_trailing_comma :
    ∃ e, read .json #['[', '"', 'a', '"', ',', ']'] = { entities := [e] } ∧ e.name = "root" := by
  obtain ⟨hroot, -, -, hquoted, -⟩ := read_accepts .json #['[', '"', 'a', '"', ',', ']']
  have hclean : (scan .json #['[', '"', 'a', '"', ',', ']']).clean.toList =
      ['[', '"', 'a', '"', ',', ']'] := by decide
  have hstring : Quoted ['"', 'a', '"', ',', ']'] [',', ']'] :=
    ⟨['a'], .plain (by decide) .nil, by decide, rfl⟩
  rw [hclean] at hroot hquoted
  refine hroot.mpr (hquoted ⟨false, _, [], spaces_self _, ?_, spaces_self _⟩)
  exact .more (spaces_self _) (.element (.string hstring)) (spaces_self _) (.none (spaces_self _))

/-! ## A string that is cut off -/

theorem Spaces.eq_of_code {c : Char} (hc : Text.isSpace c = false) {cs rest : List Char}
    (h : Spaces (c :: cs) rest) : rest = c :: cs := by
  obtain ⟨a, ha, heq⟩ := h
  cases a with
  | nil => exact heq.symm
  | cons d a =>
    obtain ⟨rfl, -⟩ := List.cons.inj heq
    rw [ha c List.mem_cons_self] at hc
    cases hc

/-- A value that starts with a quote is a string. -/
theorem Derives.string_of_quote {string : Front} {cs rest : List Char}
    (h : Derives string .value ('"' :: cs) rest) : string ('"' :: cs) rest := by
  generalize hvalue : '"' :: cs = value at h
  cases h with
  | string h => exact h
  | plain hx =>
    obtain ⟨c, x, rfl⟩ := List.exists_cons_of_ne_nil hx.chars.1
    obtain ⟨rfl, -⟩ := List.cons.inj hvalue
    exact absurd List.mem_cons_self (hx.not_mem (by decide) (by decide))
  | container isObject _ =>
    have hne : ∀ isObject, '"' ≠ opener isObject := by decide
    exact absurd (List.cons.inj hvalue).1 (hne isObject)

/-- An array whose one element starts with a quote has a string for it. -/
theorem Accepted.string_of_quote {string : Front} {cs : List Char}
    (h : Accepted string ('[' :: '"' :: cs)) : ∃ rest, string ('"' :: cs) rest := by
  obtain ⟨isObject, a, b, ha, hmembers, -⟩ := h
  obtain ⟨hopen, rfl⟩ := List.cons.inj (ha.eq_of_code (by decide))
  cases isObject with
  | true => exact absurd hopen (by decide)
  | false =>
    cases hmembers with
    | none h => exact absurd (List.cons.inj (h.eq_of_code (by decide))).1 (by decide)
    | last ha hmember _ =>
      rw [ha.eq_of_code (by decide)] at hmember
      cases hmember with
      | element h => exact ⟨_, h.string_of_quote⟩
    | more ha hmember _ _ =>
      rw [ha.eq_of_code (by decide)] at hmember
      cases hmember with
      | element h => exact ⟨_, h.string_of_quote⟩

/-- The string of `["a\"` and `]` on the next line has no end. -/
theorem read_root_of_cut_off :
    let t : Text := #['[', '"', 'a', '\\', '"', '\n', ']']
    (∃ e, read .json t = { entities := [e] } ∧ e.name = "root") ∧
      ¬ Accepted Quoted (scan .json t).clean.toList := by
  intro t
  have hclean : (scan .json t).clean.toList = ['[', '"', 'a', '\\', '"', '\n', ']'] := by decide
  rw [read_root, readDocument_some, hclean]
  constructor
  · have hcut : CutOff ['"', 'a', '\\', '"', '\n', ']'] ['\n', ']'] :=
      ⟨['a'], .plain (by decide) .nil, by decide, by simp, rfl⟩
    have hfeed : Spaces ['\n', ']'] [']'] := ⟨['\n'], by decide, rfl⟩
    exact ⟨false, _, [], spaces_self _, .last (spaces_self _) (.element (.string (.inr hcut))) hfeed,
      spaces_self _⟩
  · intro h
    obtain ⟨rest, u, hu, -, heq⟩ := h.string_of_quote
    have hcut := hu.cutLiteral_append ('"' :: rest)
    have hends : cutLiteral ['a', '\\', '"', '\n', ']'] = (['a', '\\'] ++ ['"'], ['\n', ']']) := by decide
    rw [← (List.cons.inj heq).2, cutLiteral_quote, hends] at hcut
    obtain rfl := List.append_cancel_right (Prod.mk.inj hcut).1
    cases hu with
    | plain _ hu => cases hu with
      | plain hc _ => exact absurd hc (by decide)

end MemberOrder.Json
