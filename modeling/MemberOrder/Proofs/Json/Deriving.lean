/-
  What the JSON reader takes is derived.

  A match of the number pattern is a number (`numeral_of_matches`), and what is read as a string is shut
  (`shut_of_stringStop`). By induction on the fuel what is read as a value is one (`readValue_derives`), so
  a document that is read is accepted (`accepted_of_readDocument`).
-/
import MemberOrder.Proofs.Json.Reading
import MemberOrder.Proofs.Json.Veiling

namespace MemberOrder

namespace Pattern

/-! ## What a match stands for -/

variable {t : Text} {stop i j : Nat} {marks : Captures} {test : Char → Bool} {p : Pattern}

theorem Matches.one (h : Matches t stop (.one test) i j marks) :
    ∃ c, test c = true ∧ t.remaining i = c :: t.remaining j := by
  obtain ⟨-, hpass, rfl, -⟩ := h
  obtain ⟨c, hc, hpass⟩ := Text.testAt_iff.mp hpass
  exact ⟨c, hpass, Text.remaining_of_getElem? hc⟩

theorem Matches.span (h : Matches t stop (.span test) i j marks) :
    ∃ x, (∀ c ∈ x, test c = true) ∧ t.remaining i = x ++ t.remaining j := by
  obtain ⟨hij, -, hall, -⟩ := h
  refine ⟨t.slice i j, fun c hc => ?_, Text.remaining_slice t hij⟩
  obtain ⟨k, hk, hk', hget⟩ := Text.mem_slice.mp hc
  rw [← Text.testAt_of_getElem? hget test]
  exact hall k hk hk'

theorem Matches.some1 (h : Matches t stop (.some1 test) i j marks) :
    ∃ x, x ≠ [] ∧ (∀ c ∈ x, test c = true) ∧ t.remaining i = x ++ t.remaining j := by
  obtain ⟨k, _, _, hone, hspan, -⟩ := h
  obtain ⟨c, hc, hfirst⟩ := hone.one
  obtain ⟨x, hx, hrest⟩ := hspan.span
  exact ⟨c :: x, List.cons_ne_nil c x, List.forall_mem_cons.mpr ⟨hc, hx⟩, by rw [hfirst, hrest]; rfl⟩

theorem Matches.optional (h : Matches t stop (.optional p) i j marks) :
    Matches t stop p i j marks ∨ j = i :=
  h.imp_right fun h => h.1

theorem Matches.char {d : Char} (h : Matches t stop (.char d) i j marks) :
    t.remaining i = d :: t.remaining j := by
  obtain ⟨c, hc, hrest⟩ := Matches.one h
  rwa [beq_iff_eq.mp hc] at hrest

theorem Matches.chars {cs : List Char} (h : Matches t stop (.chars cs) i j marks) :
    t.remaining i = cs ++ t.remaining j := by
  induction cs generalizing i marks with
  | nil => rw [h.1]; rfl
  | cons c rest ih =>
    cases rest with
    | nil => exact h.char
    | cons d rest =>
      obtain ⟨k, _, _, hfirst, hrest, -⟩ := h
      rw [hfirst.char, ih hrest]
      rfl

end Pattern

namespace Json

open Pattern Scanned

variable {t : Text} {stop i j : Nat} {marks : Captures}

theorem mem_leadingDigits {c : Char} (h : ('1' ≤ c && c ≤ '9') = true) : c ∈ leadingDigits := by
  have hall : ∀ n < 58, 49 ≤ n → Char.ofNat n ∈ leadingDigits := by decide
  rw [Bool.and_eq_true, decide_eq_true_eq, decide_eq_true_eq] at h
  have hlo : 49 ≤ c.toNat := h.1
  have hhi : c.toNat ≤ 57 := h.2
  rw [← Char.ofNat_toNat c]
  exact hall c.toNat (by omega) hlo

theorem decimals_of_matches (h : Matches t stop (.some1 Text.isDecimal) i j marks) :
    ∃ x, Decimals x ∧ t.remaining i = x ++ t.remaining j := by
  obtain ⟨x, hne, hx, hrest⟩ := h.some1
  exact ⟨x, ⟨hne, hx⟩, hrest⟩

/-- A match of the number pattern is a number. -/
theorem numeral_of_matches (h : Matches t stop number i j marks) :
    ∃ x, Numeral x ∧ t.remaining i = x ++ t.remaining j := by
  obtain ⟨a, _, _, hsign, h, -⟩ := h
  obtain ⟨b, _, _, hwhole, h, -⟩ := h
  obtain ⟨c, _, _, hfraction, hexponent, -⟩ := h
  have hsign' : ∃ x ∈ [[], ['-']], t.remaining i = x ++ t.remaining a := by
    rcases hsign.optional with h | rfl
    · exact ⟨['-'], by decide, h.char⟩
    · exact ⟨[], by decide, rfl⟩
  have hwhole' : ∃ x, IntegerPart x ∧ t.remaining a = x ++ t.remaining b := by
    rcases hwhole with h | h
    · exact ⟨['0'], .zero, h.char⟩
    · obtain ⟨k, _, _, hone, hspan, -⟩ := h
      obtain ⟨d, hd, hfirst⟩ := hone.one
      obtain ⟨x, hx, hrest⟩ := hspan.span
      exact ⟨d :: x, .leading (mem_leadingDigits hd) hx, by rw [hfirst, hrest]; rfl⟩
  have hfraction' : ∃ x, FractionPart x ∧ t.remaining b = x ++ t.remaining c := by
    rcases hfraction.optional with h | rfl
    · obtain ⟨k, _, _, hpoint, hdigits, -⟩ := h
      obtain ⟨x, hx, hrest⟩ := decimals_of_matches hdigits
      exact ⟨'.' :: x, .point hx, by rw [hpoint.char, hrest]; rfl⟩
    · exact ⟨[], .none, rfl⟩
  have hexponent' : ∃ x, ExponentPart x ∧ t.remaining c = x ++ t.remaining j := by
    rcases hexponent.optional with h | rfl
    · obtain ⟨k, _, _, hmark, h, -⟩ := h
      obtain ⟨l, _, _, hplus, hdigits, -⟩ := h
      obtain ⟨d, hd, hfirst⟩ := hmark.one
      obtain ⟨x, hx, hrest⟩ := decimals_of_matches hdigits
      have hall : ∀ d ∈ "eE".toList, d ∈ ['e', 'E'] := by decide
      obtain ⟨sign, hsign, hsecond⟩ :
          ∃ sign ∈ [[], ['+'], ['-']], t.remaining k = sign ++ t.remaining l := by
        rcases hplus.optional with h | rfl
        · obtain ⟨s, hs, hrest⟩ := h.one
          have hsigns : ∀ s ∈ "+-".toList, [s] ∈ [[], ['+'], ['-']] := by decide
          exact ⟨[s], hsigns s (List.contains_iff_mem.mp hs), hrest⟩
        · exact ⟨[], by decide, rfl⟩
      refine ⟨d :: sign ++ x, .signed (hall d (List.contains_iff_mem.mp hd)) hsign hx, ?_⟩
      rw [hfirst, hsecond, hrest]
      simp
    · exact ⟨[], .none, rfl⟩
  obtain ⟨sign, hsign, h1⟩ := hsign'
  obtain ⟨whole, hwhole, h2⟩ := hwhole'
  obtain ⟨fraction, hfraction, h3⟩ := hfraction'
  obtain ⟨exponent, hexponent, h4⟩ := hexponent'
  refine ⟨_, .parts hsign hwhole hfraction hexponent, ?_⟩
  rw [h1, h2, h3, h4]
  simp only [List.append_assoc]

/-- What is read as a number or a word is one. -/
theorem plain_of_plainStop {s : Scanned} (h : plainStop s i = .ok j) :
    ∃ x, Plain x ∧ s.masked.remaining i = x ++ s.masked.remaining j := by
  unfold plainStop at h
  split at h
  · rename_i m hm
    cases h
    cases hnumber : number.matchAt? s.masked i s.masked.size with
    | some m' =>
      rw [hnumber] at hm
      cases hm
      obtain ⟨x, hx, hrest⟩ := numeral_of_matches (matchAt?_matches hnumber).2
      exact ⟨x, .inl hx, hrest⟩
    | none =>
      rw [hnumber] at hm
      have hall {w : String} (hw : w.toList ∈ words)
          (hmatch : Matches s.masked s.masked.size (.word w) i m.stop m.marks) :
          ∃ x, Plain x ∧ s.masked.remaining i = x ++ s.masked.remaining m.stop :=
        ⟨w.toList, .inr hw, hmatch.chars⟩
      have hword : Matches s.masked s.masked.size word i m.stop m.marks := (matchAt?_matches hm).2
      rcases hword with hmatch | hmatch | hmatch
      · exact hall (by decide) hmatch
      · exact hall (by decide) hmatch
      · exact hall (by decide) hmatch
  · cases h

/-- What is read as a string is shut. -/
theorem shut_of_stringStop {s : Scanned} (hquote : s.masked[i]? = some '"')
    (h : stringStop s i = .ok j) : Shut (s.masked.remaining i) (s.masked.remaining j) := by
  unfold stringStop at h
  split at h
  · cases h
  · rename_i close hclose
    split at h
    · cases h
    · rename_i hline
      cases h
      obtain ⟨hle, -, hfound, hfirst⟩ := Text.find?_some hclose
      refine ⟨s.masked.slice (i + 1) close, fun hmem => ?_, fun hmem => hline ?_, ?_⟩
      · obtain ⟨k, hk, hk', hget⟩ := Text.mem_slice.mp hmem
        have hnone := hfirst k hk hk'
        rw [Text.standsAt_one.mpr hget] at hnone
        cases hnone
      · rw [List.contains_iff_mem, ← Text.slice_append s.masked (Nat.le_succ i) hle]
        exact List.mem_append_right _ hmem
      · rw [Text.remaining_of_getElem? hquote, Text.remaining_slice s.masked hle,
          Text.remaining_of_getElem? (Text.standsAt_one.mp hfound)]

/-! ## What is read is derived -/

theorem spaces_nextCode (s : Scanned) (i limit : Nat) :
    Spaces (s.masked.remaining i) (s.masked.remaining (s.nextCode i limit)) :=
  Text.remaining_nextCode s.masked i limit

theorem member_of_readLabel {isObject : Bool} {close keyStop valueAt : Nat} {rest : List Char}
    {s : Scanned} (h : readLabel s isObject close i = .ok (keyStop, valueAt))
    (hvalue : Derives Shut .value (s.masked.remaining valueAt) rest) :
    Derives Shut (.member isObject) (s.masked.remaining i) rest := by
  cases isObject with
  | false =>
    cases h
    exact .element hvalue
  | true =>
    simp only [readLabel, if_true, readKey] at h
    split at h
    · cases h
    · rename_i hquote
      rw [Bool.not_eq_true', Bool.not_eq_false] at hquote
      obtain ⟨-, -, h⟩ := bind_ok h
      obtain ⟨stop, hstop, h⟩ := bind_ok h
      split at h
      · cases h
      · rename_i hcolon
        rw [Bool.not_eq_true', Bool.not_eq_false] at hcolon
        cases h
        have hspaced := spaces_nextCode s keyStop close
        rw [Text.remaining_of_getElem? (Text.hasAt_iff.mp hcolon)] at hspaced
        exact .named (shut_of_stringStop (Text.hasAt_iff.mp hquote) hstop) hspaced
          (spaces_nextCode s _ close) hvalue

/-- The members of a container are derived when its values are. -/
theorem readMembers_derives {isObject : Bool} {close fuel i : Nat} {value : Nat → Except Fault Tree}
    {ms : List (Slot × Tree)} (hi : i ≤ close) (hfuel : close ≤ i + fuel) (hb : Boundary .json t i)
    (hvalue : ∀ j tree, i ≤ j → j < close → Boundary .json t j → value j = .ok tree →
      Derives Shut .value ((scan .json t).masked.remaining j) ((scan .json t).masked.remaining tree.stop) ∧
        j < tree.stop ∧ tree.stop ≤ close)
    (h : readMembers (scan .json t) isObject close value fuel i = .ok ms) :
    Derives Shut (.members isObject) ((scan .json t).masked.remaining i)
      ((scan .json t).masked.remaining close) := by
  induction fuel generalizing i ms with
  | zero =>
    obtain rfl : i = close := by omega
    exact .none (spaces_self _)
  | succ fuel ih =>
    rcases Nat.eq_or_lt_of_le hi with rfl | hlt
    · exact .none (spaces_self _)
    · obtain ⟨keyStop, valueAt, tree, hlabel, hvalueAt, htree, h⟩ := readMembers_cases hlt h
      obtain ⟨hle, hbv⟩ := readLabel_spec hb hlabel
      obtain ⟨hderives, hpos, hstop⟩ := hvalue valueAt tree hle hvalueAt hbv htree
      have hmember := member_of_readLabel hlabel hderives
      have hspaced := spaces_nextCode (scan .json t) tree.stop close
      have hnextLe : (scan .json t).nextCode tree.stop close ≤ close := Text.nextCode_le _ hstop
      rcases h with ⟨rest, hnext, hcomma, hrest, -⟩ | ⟨hnext, -⟩
      · have hcomma := Text.hasAt_iff.mp hcomma
        have hafter : tree.stop ≤ (scan .json t).nextCode tree.stop close := Text.le_nextCode _ _ _
        have hlow : (scan .json t).nextCode tree.stop close + 1 ≤
            (scan .json t).nextCode ((scan .json t).nextCode tree.stop close + 1) close :=
          Text.le_nextCode _ _ _
        have hbn := boundary_of_code hcomma (by decide) (by decide) (by decide)
        have hmore := ih (i := (scan .json t).nextCode ((scan .json t).nextCode tree.stop close + 1) close)
          (Text.nextCode_le _ hnext) (by omega) (hbn.nextCode quote_not_space close)
          (fun j tree hj => hvalue j tree (by omega)) hrest
        rw [Text.remaining_of_getElem? hcomma] at hspaced
        exact .more (spaces_self _) hmember hspaced (hmore.spaces (spaces_nextCode _ _ close))
      · rw [Nat.le_antisymm hnextLe hnext] at hspaced
        exact .last (spaces_self _) hmember hspaced

/-- A bracket that closes the one at an offset is its counterpart. -/
theorem closer_of_close? {t : Text} {isObject : Bool} {start close : Nat}
    (hopen : t[start]? = some (opener isObject))
    (h : Brackets.close? Brackets.data t start = some close) : t[close]? = some (closer isObject) :=
  Brackets.close?_closer hopen (by cases isObject <;> rfl) h

theorem opener_code (isObject : Bool) :
    Text.isSpace (opener isObject) = false ∧ opener isObject ≠ '_' ∧
      Profile.json.quotes.contains (opener isObject) = false ∧
        (opener isObject = '{' ∨ opener isObject = '[') := by
  cases isObject <;> decide

theorem hasAt_opener {t : Text} {isObject : Bool} {i : Nat} (h : t[i]? = some (opener isObject)) :
    t.hasAt i '{' = isObject := by
  cases isObject <;> simp [Text.hasAt, Text.testAt_of_getElem? h, opener]

/-- What is read as a value is derived. -/
theorem readValue_derives {fuel i : Nat} {tree : Tree} (hfuel : t.size < fuel + i) (hi : i < t.size)
    (hb : Boundary .json t i) (h : readValue (scan .json t) fuel i = .ok tree) :
    Derives Shut .value ((scan .json t).masked.remaining i)
      ((scan .json t).masked.remaining tree.stop) := by
  induction fuel generalizing i tree with
  | zero => omega
  | succ fuel ih =>
    rw [readValue] at h
    split at h
    · rename_i hopen
      obtain ⟨isObject, hopener⟩ : ∃ isObject, (scan .json t).masked[i]? = some (opener isObject) := by
        rw [Bool.or_eq_true, Text.hasAt_iff, Text.hasAt_iff] at hopen
        rcases hopen with h | h
        · exact ⟨true, h⟩
        · exact ⟨false, h⟩
      obtain ⟨hspace, hfiller, hquote, hbrackets⟩ := opener_code isObject
      split at h
      · cases h
      · rename_i close hclose
        obtain ⟨members, hmembers, h⟩ := bind_ok h
        cases h
        obtain ⟨hlt, hsize, -⟩ := Brackets.close?_some hclose
        rw [size_masked] at hsize
        have hbi := boundary_of_code hopener hspace hfiller hquote
        have hnext : i + 1 ≤ (scan .json t).nextCode (i + 1) close := Text.le_nextCode _ _ _
        have hvalue : ∀ j tree, (scan .json t).nextCode (i + 1) close ≤ j → j < close →
            Boundary .json t j → readValue (scan .json t) fuel j = .ok tree →
            Derives Shut .value ((scan .json t).masked.remaining j)
              ((scan .json t).masked.remaining tree.stop) ∧ j < tree.stop ∧ tree.stop ≤ close := by
          intro j tree hj hjc hbj hread
          obtain ⟨rfl, hstands, hin⟩ := readValue_stands (by omega) (by omega) hbj hread
          exact ⟨ih (by omega) (by omega) hbj hread, hstands.bounds.1,
            hin i close _ hclose (by omega) hjc hopener hbrackets⟩
        have hnextLe : (scan .json t).nextCode (i + 1) close ≤ close := Text.nextCode_le _ hlt
        have hinner := readMembers_derives hnextLe (by omega) (hbi.nextCode quote_not_space close)
          hvalue hmembers
        rw [hasAt_opener hopener] at hinner
        have hcloser := Text.remaining_of_getElem? (closer_of_close? hopener hclose)
        rw [hcloser] at hinner
        rw [Text.remaining_of_getElem? hopener]
        exact .container isObject (hinner.spaces (spaces_nextCode _ (i + 1) close))
    · split at h
      · rename_i hquote
        obtain ⟨stop, hstop, h⟩ := bind_ok h
        cases h
        exact .string (shut_of_stringStop (Text.hasAt_iff.mp hquote) hstop)
      · obtain ⟨stop, hstop, h⟩ := bind_ok h
        cases h
        obtain ⟨x, hx, hrest⟩ := plain_of_plainStop hstop
        rw [hrest]
        exact .plain hx

/-! ## Documents -/

/-- What starts with a bracket and is a value is a container. -/
theorem Derives.members_of_opener {isObject : Bool} {cs rest : List Char}
    (h : Derives Shut .value (opener isObject :: cs) rest) :
    Derives Shut (.members isObject) cs (closer isObject :: rest) := by
  generalize hvalue : opener isObject :: cs = value at h
  cases h with
  | string hstring =>
    obtain ⟨w, -, -, rfl⟩ := hstring
    have hne : ∀ isObject, opener isObject ≠ '"' := by decide
    exact absurd (List.cons.inj hvalue).1 (hne isObject)
  | @plain x _ hx =>
    obtain ⟨c, x, rfl⟩ := List.exists_cons_of_ne_nil hx.chars.1
    have hnone : ∀ isObject, Text.isDecimal (opener isObject) = false ∧
        opener isObject ∉ plainMarks := by decide
    refine absurd ?_ (hx.not_mem (hnone isObject).1 (hnone isObject).2)
    rw [(List.cons.inj hvalue).1]
    exact List.mem_cons_self
  | @container isObject' cs' _ hmembers =>
    obtain ⟨hsame, rfl⟩ := List.cons.inj hvalue
    have hinj : ∀ a b, opener a = opener b → a = b := by decide
    rwa [hinj _ _ hsame]

/-- A document that is read is accepted. -/
theorem accepted_of_readDocument {tree : Tree} (h : readDocument (scan .json t) = .ok (some tree)) :
    Accepted Shut (scan .json t).masked.toList := by
  simp only [readDocument] at h
  split at h
  · cases h
  · rename_i c hc
    split at h
    · cases h
    · rename_i hbracket
      obtain ⟨value, hvalue, h⟩ := bind_ok h
      split at h
      · cases h
      · rename_i hend
        cases h
        obtain ⟨isObject, rfl⟩ : ∃ isObject, c = opener isObject := by
          simp only [Bool.and_eq_true, bne_iff_ne, ne_eq, Classical.not_and_iff_not_or_not,
            Classical.not_not] at hbracket
          rcases hbracket with rfl | rfl
          · exact ⟨true, rfl⟩
          · exact ⟨false, rfl⟩
        let start := (scan .json t).nextCodeToEnd 0
        have hlt := Text.lt_size_of_getElem? hc
        have hb : Boundary .json t start :=
          (boundary_zero .json t).nextCode quote_not_space (scan .json t).masked.size
        have hderives := readValue_derives (by rw [size_masked]; omega)
          (by rwa [← size_masked .json t]) hb hvalue
        have hbefore := spaces_nextCode (scan .json t) 0 (scan .json t).masked.size
        have hafter := spaces_nextCode (scan .json t) tree.stop (scan .json t).masked.size
        rw [Text.remaining_of_getElem? hc] at hderives
        refine ⟨isObject, _, _, ?_, hderives.members_of_opener, ?_⟩
        · rwa [← Text.remaining_zero, ← Text.remaining_of_getElem? hc]
        · rw [← Text.remaining_of_size_le (Array.getElem?_eq_none_iff.mp hend)]
          exact hafter

end Json

end MemberOrder
