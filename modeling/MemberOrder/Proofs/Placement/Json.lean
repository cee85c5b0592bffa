/-
  The members of a JSON document have their places.

  The reader first builds a tree of offsets. A value ends before the bracket that closes the
  container around it: a number or a word because it holds no bracket (`within_number`,
  `within_word`), a string because its closing quote is the end of its literal (`stringStop_spec`),
  and a container because brackets nest. So the slots of a container follow each other inside it
  (`readValue_stands`), and comments extend them as they extend the members of other languages
  (`containerMembers_laid`).
-/
import MemberOrder.Json.Document
import MemberOrder.Proofs.Fallible
import MemberOrder.Proofs.Pattern.Matches
import MemberOrder.Proofs.Placement.Basic
import MemberOrder.Proofs.Source.Literals
import MemberOrder.Proofs.Source.Nesting
import MemberOrder.Proofs.Text.Digits

namespace MemberOrder.Json

open Attachment Scanned

variable {t : Text}

/-! ## Numbers and words -/

/-- A character that is neither white space nor a closing bracket. -/
def isPlain (c : Char) : Bool := !Text.isSpace c && c != '}' && c != ']'

theorem isPlain_of_isDecimal {c : Char} (h : Text.isDecimal c = true) : isPlain c = true := by
  simp only [isPlain, bne, Bool.and_eq_true, Bool.not_eq_true', beq_eq_false_iff_ne]
  exact ⟨⟨Text.isSpace_of_isDecimal h, Text.ne_of_isDecimal h (by decide)⟩,
    Text.ne_of_isDecimal h (by decide)⟩

theorem isPlain_of_eq {c d : Char} (hd : isPlain d = true) (h : (c == d) = true) :
    isPlain c = true := by
  rw [beq_iff_eq.mp h]
  exact hd

theorem within_char {d : Char} (hd : isPlain d = true) : Pattern.Within isPlain (.char d) :=
  Pattern.within_one fun _ h => isPlain_of_eq hd h

theorem within_optional {p : Pattern} (hp : Pattern.Within isPlain p) :
    Pattern.Within isPlain (.optional p) :=
  Pattern.within_either hp Pattern.within_empty

theorem within_digits : Pattern.Within isPlain (Pattern.some1 Text.isDecimal) :=
  Pattern.within_seq (Pattern.within_one fun _ => isPlain_of_isDecimal)
    (Pattern.within_span fun _ => isPlain_of_isDecimal)

theorem within_number : Pattern.Within isPlain number := by
  have hfirst : ∀ c : Char, ('1' ≤ c && c ≤ '9') = true → isPlain c = true := by
    intro c hc
    rw [Bool.and_eq_true, decide_eq_true_eq, decide_eq_true_eq] at hc
    refine isPlain_of_isDecimal ?_
    have h1 : 49 ≤ c.toNat := hc.1
    have h2 : c.toNat ≤ 57 := hc.2
    simp only [Text.isDecimal, Text.decimalValue?]
    rw [if_pos (by omega), if_pos (by simp; omega)]
    rfl
  have hoption : ∀ s : String, (∀ d ∈ s.toList, isPlain d = true) →
      Pattern.Within isPlain (.oneOf s) := fun s hs =>
    Pattern.within_one fun c hc => hs c (List.contains_iff_mem.mp hc)
  refine Pattern.within_seq (within_optional (within_char (by decide))) ?_
  refine Pattern.within_seq (Pattern.within_either (within_char (by decide))
    (Pattern.within_seq (Pattern.within_one hfirst)
      (Pattern.within_span fun _ => isPlain_of_isDecimal))) ?_
  refine Pattern.within_seq
    (within_optional (Pattern.within_seq (within_char (by decide)) within_digits)) ?_
  refine within_optional (Pattern.within_seq (hoption _ (List.all_eq_true.mp (by decide))) ?_)
  exact Pattern.within_seq (within_optional (hoption _ (List.all_eq_true.mp (by decide))))
    within_digits

theorem within_word : Pattern.Within isPlain word :=
  Pattern.within_either (Pattern.within_chars (List.all_eq_true.mp (by decide))) <|
    Pattern.within_either (Pattern.within_chars (List.all_eq_true.mp (by decide)))
      (Pattern.within_chars (List.all_eq_true.mp (by decide)))

theorem consumes_number : Pattern.Consumes number :=
  Pattern.consumes_seq_right _ <| Pattern.consumes_seq_left (Pattern.consumes_either
    (Pattern.consumes_one _) (Pattern.consumes_seq_left (Pattern.consumes_one _) _)) _

theorem consumes_word : Pattern.Consumes word :=
  Pattern.consumes_either (Pattern.consumes_seq_left (Pattern.consumes_one _) _) <|
    Pattern.consumes_either (Pattern.consumes_seq_left (Pattern.consumes_one _) _)
      (Pattern.consumes_seq_left (Pattern.consumes_one _) _)

/-- A number or a word is not empty and holds plain characters only. -/
theorem plainStop_spec {s : Scanned} {i stop : Nat} (h : plainStop s i = .ok stop) :
    i < stop ∧ ∀ x, i ≤ x → x < stop → s.masked.testAt x isPlain = true := by
  simp only [plainStop] at h
  split at h
  · rename_i m hm
    cases h
    cases hn : number.matchAt? s.masked i s.masked.size with
    | some m' =>
      rw [hn] at hm
      cases hm
      obtain ⟨-, hmatch⟩ := Pattern.matchAt?_matches hn
      exact ⟨consumes_number _ _ _ _ _ hmatch, within_number _ _ _ _ _ hmatch⟩
    | none =>
      rw [hn] at hm
      obtain ⟨-, hmatch⟩ := Pattern.matchAt?_matches hm
      exact ⟨consumes_word _ _ _ _ _ hmatch, within_word _ _ _ _ _ hmatch⟩
  · cases h

/-! ## Strings -/

theorem quote_not_space (q : Char) (h : Profile.json.quotes.contains q = true) :
    Text.isSpace q = false := by
  simp only [Profile.json, List.contains_cons, List.contains_nil, Bool.or_false, beq_iff_eq] at h
  subst h
  decide

/-- A string whose quote stands at a boundary ends with a quote, before every bracket that comes
after it. -/
theorem stringStop_spec {i stop : Nat} (hb : Boundary .json t i)
    (hq : (scan .json t).masked[i]? = some '"') (h : stringStop (scan .json t) i = .ok stop) :
    i < stop ∧ (scan .json t).masked.testAt (stop - 1) Text.isSpace = false ∧
      ∀ close c, i < close → (scan .json t).masked[close]? = some c → (c = '}' ∨ c = ']') →
        stop ≤ close := by
  simp only [stringStop] at h
  split at h
  · cases h
  · rename_i found hfound
    obtain ⟨h1, -, h3, h4⟩ := Text.find?_some hfound
    have hfoundq := Text.standsAt_one.mp h3
    split at h
    · cases h
    · rename_i hline
      cases h
      refine ⟨by omega, ?_, ?_⟩
      · rw [Nat.add_sub_cancel, Text.testAt_of_getElem? hfoundq]
        decide
      · intro close c hi hclose hbracket
        refine Nat.succ_le_of_lt (Nat.lt_of_not_le fun hle => hline ?_)
        have hlt : close < found := by
          rcases Nat.eq_or_lt_of_le hle with rfl | hlt
          · rw [hfoundq, Option.some.injEq] at hclose
            rcases hbracket with rfl | rfl <;> cases hclose
          · exact hlt
        -- the bracket is not in the literal that starts here
        obtain ⟨l, hl, hk, rfl⟩ := literal_of_quote hb hq (by decide) (by decide) (by decide)
        have hbounds := (Lexeme.lexemes_tile .json t).bounds hl
        have hsource := source_of_masked hq (by decide) (by decide)
        have hout : l.stop ≤ close := by
          refine Nat.le_of_not_lt fun hin => ?_
          rcases masked_literal hl hk (Nat.le_of_lt hi) hin with h | h | h | h
          · omega
          · rw [hclose, h.2.2.1, hsource, Option.some.injEq] at h
            rcases hbracket with rfl | rfl <;> cases h.2.2.2
          · rw [hclose, Option.some.injEq] at h
            rcases hbracket with rfl | rfl <;> cases h.2
          · rw [← h.2.1, hclose] at h
            rcases hbracket with rfl | rfl <;> (rcases h.2.2 with h' | h' <;> cases h')
        -- so the literal has no closing quote, and a line feed cuts it off before the bracket
        have hsize : close < t.size := by
          rw [← size_masked .json t]
          exact (Array.getElem?_eq_some_iff.mp hclose).1
        have hbreak : t[l.stop]? = some '\n' := by
          rcases literal_end hl hk with h | h | ⟨h, h'⟩
          · omega
          · exact h
          · rw [hsource] at h'
            have := h4 (l.stop - 1) (by omega) (by omega)
            rw [Text.standsAt_one.mpr h'] at this
            cases this
        rw [List.contains_iff_mem, Text.mem_slice]
        exact ⟨l.stop, by omega, by omega, masked_break_after hl (by decide) hbreak⟩

/-! ## Trees -/

/-- A slot starts with code and before its value, and has white space only between its value and
its comma. -/
structure SlotStands (s : Scanned) (slot : Slot) (value : Tree) : Prop where
  code : s.masked.testAt slot.start Text.isSpace = false
  start_le : slot.start ≤ value.start
  comma : ∀ comma, slot.comma = some comma → value.stop ≤ comma ∧ s.masked[comma]? = some ',' ∧
    ∀ x, value.stop ≤ x → x < comma → s.masked.testAt x Text.isSpace = true

mutual

/-- A value is not empty and ends with code, and the slots of a container follow each other
between its brackets. -/
def Tree.Stands (s : Scanned) : Tree → Prop
  | .scalar a b => a < b ∧ s.masked.testAt (b - 1) Text.isSpace = false
  | .container _ a b members => a + 1 < b ∧ s.masked.testAt (b - 1) Text.isSpace = false ∧
      SlotsFrom s (b - 1) members (a + 1)

/-- Slots with their values follow each other from `lo` on up to `hi`. -/
def SlotsFrom (s : Scanned) (hi : Nat) : List (Slot × Tree) → (lo : Nat) → Prop
  | [], lo => lo ≤ hi
  | m :: rest, lo =>
    lo ≤ m.1.start ∧ SlotStands s m.1 m.2 ∧ ValueStands s m ∧
      SlotsFrom s hi rest (pastSeparator m.2.stop m.1.comma)

/-- The value of a slot stands. -/
def ValueStands (s : Scanned) : Slot × Tree → Prop
  | (_, value) => value.Stands s

end

theorem Tree.Stands.bounds {s : Scanned} {tree : Tree} (h : tree.Stands s) :
    tree.start < tree.stop ∧ s.masked.testAt (tree.stop - 1) Text.isSpace = false := by
  cases tree with
  | scalar a b => exact h
  | container isObject a b members =>
    obtain ⟨h1, h2, -⟩ := h
    exact ⟨by simp only [Tree.start, Tree.stop]; omega, h2⟩

theorem SlotsFrom.le {s : Scanned} {hi lo : Nat} {ms : List (Slot × Tree)}
    (h : SlotsFrom s hi ms lo) : lo ≤ hi := by
  induction ms generalizing lo with
  | nil => exact h
  | cons m rest ih =>
    obtain ⟨slot, value⟩ := m
    obtain ⟨h1, h2, h3, h4⟩ := h
    have h3 : value.Stands s := h3
    have h5 := h3.bounds.1
    have h6 := le_pastSeparator fun p hp => (h2.comma p hp).1
    have h7 := h2.start_le
    have h8 := ih h4
    dsimp only at *
    omega

theorem SlotsFrom.weaken {s : Scanned} {hi lo lo' : Nat} {ms : List (Slot × Tree)}
    (h : SlotsFrom s hi ms lo) (hlo : lo' ≤ lo) : SlotsFrom s hi ms lo' := by
  cases ms with
  | nil => exact Nat.le_trans hlo h
  | cons m rest =>
    obtain ⟨h1, h2⟩ := h
    exact ⟨Nat.le_trans hlo h1, h2⟩

/-- What a reader of values is expected to do from `lo` on inside a container. -/
def ReadsValues (t : Text) (lo close : Nat) (value : Nat → Except Fault Tree) : Prop :=
  ∀ i tree, lo ≤ i → i < close → Boundary .json t i → value i = .ok tree →
    tree.start = i ∧ tree.Stands (scan .json t) ∧ tree.stop ≤ close

/-- The value of a member comes after its key, at a boundary. -/
theorem readKey_spec {close i keyStop valueAt : Nat} (hb : Boundary .json t i)
    (h : readKey (scan .json t) close i = .ok (keyStop, valueAt)) :
    i ≤ valueAt ∧ Boundary .json t valueAt := by
  simp only [readKey] at h
  split at h
  · cases h
  · rename_i hquote
    rw [Bool.not_eq_true', Bool.not_eq_false] at hquote
    obtain ⟨-, -, h⟩ := bind_ok h
    obtain ⟨stop, hstop, h⟩ := bind_ok h
    split at h
    · cases h
    · rename_i hcolon
      rw [Bool.not_eq_true', Bool.not_eq_false] at hcolon
      cases h
      have h1 := (stringStop_spec hb (Text.hasAt_iff.mp hquote) hstop).1
      have h2 : keyStop ≤ (scan .json t).nextCode keyStop close := Text.le_nextCode _ _ _
      have h3 : (scan .json t).nextCode keyStop close + 1 ≤
          (scan .json t).nextCode ((scan .json t).nextCode keyStop close + 1) close :=
        Text.le_nextCode _ _ _
      refine ⟨by omega, Boundary.nextCode quote_not_space ?_ close⟩
      exact boundary_of_code (Text.hasAt_iff.mp hcolon) (by decide) (by decide) (by decide)

/-- Reads the key of a member; an element has none. -/
def readLabel (s : Scanned) (inObject : Bool) (close i : Nat) : Except Fault (Nat × Nat) :=
  if inObject then readKey s close i else pure (i, i)

theorem readLabel_spec {inObject : Bool} {close i keyStop valueAt : Nat} (hb : Boundary .json t i)
    (h : readLabel (scan .json t) inObject close i = .ok (keyStop, valueAt)) :
    i ≤ valueAt ∧ Boundary .json t valueAt := by
  cases inObject with
  | true => exact readKey_spec hb h
  | false =>
    cases h
    exact ⟨Nat.le_refl _, hb⟩

/-- What reading one more member comes to: its key and its value, then a comma and the members
after it, or the end of the container. -/
theorem readMembers_cases {s : Scanned} {isObject : Bool} {close fuel i : Nat}
    {value : Nat → Except Fault Tree} {ms : List (Slot × Tree)} (hlt : i < close)
    (h : readMembers s isObject close value (fuel + 1) i = .ok ms) :
    ∃ keyStop valueAt tree,
      readLabel s isObject close i = .ok (keyStop, valueAt) ∧ valueAt < close ∧ value valueAt = .ok tree ∧
      ((∃ rest, s.nextCode tree.stop close < close ∧
          s.masked.hasAt (s.nextCode tree.stop close) ',' = true ∧
          readMembers s isObject close value fuel
            (s.nextCode (s.nextCode tree.stop close + 1) close) = .ok rest ∧
          ms = (⟨i, keyStop, some (s.nextCode tree.stop close)⟩, tree) :: rest) ∨
        close ≤ s.nextCode tree.stop close ∧ ms = [(⟨i, keyStop, none⟩, tree)]) := by
  simp only [readMembers, if_pos hlt] at h
  cases isObject
  all_goals
    simp only [Bool.false_eq_true, if_false, if_true] at h
    obtain ⟨⟨keyStop, valueAt⟩, hkey, h⟩ := bind_ok h
    split at h
    · cases h
    · rename_i hvalueAt
      obtain ⟨tree, htree, h⟩ := bind_ok h
      refine ⟨keyStop, valueAt, tree, hkey, Nat.lt_of_not_le hvalueAt, htree, ?_⟩
      split at h
      · rename_i hnext
        split at h
        · rename_i hcomma
          obtain ⟨rest, hrest, h⟩ := bind_ok h
          cases h
          exact Or.inl ⟨rest, hnext, hcomma, hrest, rfl⟩
        · cases h
      · rename_i hnext
        cases h
        exact Or.inr ⟨Nat.le_of_not_lt hnext, rfl⟩

/-- The slots of a container follow each other up to its closing bracket. -/
theorem readMembers_stands {isObject : Bool} {lo close : Nat} {value : Nat → Except Fault Tree}
    (hvalue : ReadsValues t lo close value) {fuel i : Nat} {ms : List (Slot × Tree)} (hlo : lo ≤ i)
    (hi : i ≤ close) (hb : Boundary .json t i)
    (hcode : i < close → (scan .json t).masked.testAt i Text.isSpace = false)
    (h : readMembers (scan .json t) isObject close value fuel i = .ok ms) :
    SlotsFrom (scan .json t) close ms i := by
  induction fuel generalizing i ms with
  | zero =>
    cases h
    exact hi
  | succ fuel ih =>
    by_cases hlt : i < close
    · obtain ⟨keyStop, valueAt, tree, hkey, hvalueAt, htree, h⟩ := readMembers_cases hlt h
      obtain ⟨hle, hbv⟩ := readLabel_spec hb hkey
      obtain ⟨hstart, hstands, hstop⟩ := hvalue valueAt tree (by omega) hvalueAt hbv htree
      rcases h with ⟨rest, hnext, hcomma, hrest, rfl⟩ | ⟨hnext, rfl⟩
      · have hcomma := Text.hasAt_iff.mp hcomma
        have hle' : tree.stop ≤ (scan .json t).nextCode tree.stop close := Text.le_nextCode _ _ _
        have hlow : (scan .json t).nextCode tree.stop close + 1 ≤
            (scan .json t).nextCode ((scan .json t).nextCode tree.stop close + 1) close :=
          Text.le_nextCode _ _ _
        have hpos := hstands.bounds.1
        have hbn := boundary_of_code hcomma (by decide) (by decide) (by decide)
        have hslots := ih (Nat.le_trans (by omega) hlow) (Text.nextCode_le _ hnext)
          (hbn.nextCode quote_not_space close) (fun hlt => Text.code_at_nextCode hlt) hrest
        refine ⟨Nat.le_refl _, ⟨hcode hlt, hstart ▸ hle, ?_⟩, hstands, hslots.weaken hlow⟩
        intro comma heq
        cases heq
        exact ⟨hle', hcomma, fun x h1 h2 => Text.space_before_nextCode h1 h2⟩
      · exact ⟨Nat.le_refl _, ⟨hcode hlt, hstart ▸ hle, by simp⟩, hstands, hstop⟩
    · simp only [readMembers, if_neg hlt] at h
      cases h
      exact hi

/-- Every value stands, and ends before the bracket that closes the container around it. -/
theorem readValue_stands {fuel i : Nat} {tree : Tree} (hfuel : t.size < fuel + i)
    (hi : i < t.size) (hb : Boundary .json t i) (h : readValue (scan .json t) fuel i = .ok tree) :
    tree.start = i ∧ tree.Stands (scan .json t) ∧
      ∀ start close b, Brackets.close? Brackets.data (scan .json t).masked start = some close →
        start < i → i < close → (scan .json t).masked[start]? = some b →
        (b = '{' ∨ b = '[') → tree.stop ≤ close := by
  induction fuel generalizing i tree with
  | zero => omega
  | succ fuel ih =>
    simp only [readValue] at h
    split at h
    · rename_i hopen
      rw [Bool.or_eq_true, Text.hasAt_iff, Text.hasAt_iff] at hopen
      obtain ⟨o, ho, hoo, hlookup⟩ : ∃ o, (scan .json t).masked[i]? = some o ∧
          (o = '{' ∨ o = '[') ∧ (Brackets.data.lookup o).isSome = true := by
        rcases hopen with h | h
        · exact ⟨_, h, Or.inl rfl, rfl⟩
        · exact ⟨_, h, Or.inr rfl, rfl⟩
      obtain ⟨closer, hcloser⟩ := Option.isSome_iff_exists.mp hlookup
      split at h
      · cases h
      · rename_i close hclose
        obtain ⟨ms, hms, h⟩ := bind_ok h
        cases h
        obtain ⟨hlt, hsize, c, hc, hcl⟩ := Brackets.close?_some hclose
        rw [size_masked] at hsize
        have hreads : ReadsValues t (i + 1) close (readValue (scan .json t) fuel) := by
          intro j tree h1 h2 hbj htree
          obtain ⟨g1, g2, g3⟩ := ih (by omega) (by omega) hbj htree
          exact ⟨g1, g2, g3 i close o hclose h1 h2 ho hoo⟩
        have hcode : Boundary .json t (i + 1) := by
          refine boundary_of_code ho ?_ ?_ ?_ <;> (rcases hoo with rfl | rfl <;> decide)
        have hslots := readMembers_stands hreads (Text.le_nextCode _ _ _)
          (Text.nextCode_le _ hlt) (Boundary.nextCode quote_not_space hcode close)
          (fun h => Text.code_at_nextCode h) hms
        refine ⟨rfl, ⟨by omega, ?_, ?_⟩, ?_⟩
        · rw [Nat.add_sub_cancel, Text.testAt_of_getElem? hc]
          simp only [Brackets.data, List.any_cons, List.any_nil, Bool.or_false, Bool.or_eq_true,
            beq_iff_eq] at hcl
          rcases hcl with rfl | rfl <;> decide
        · exact hslots.weaken (Text.le_nextCode _ _ _)
        · intro start far b hfar h1 h2 hb' hbo
          obtain ⟨opened, hopened⟩ : ∃ opened, Brackets.data.lookup b = some opened := by
            rcases hbo with rfl | rfl
            · exact ⟨_, rfl⟩
            · exact ⟨_, rfl⟩
          exact Brackets.close?_lt_close? hfar hb' hopened h1 (Nat.le_of_lt h2) ho hcloser hclose
    · -- a scalar holds no bracket
      have hbracket : ∀ start close, Brackets.close? Brackets.data (scan .json t).masked start =
          some close → ∃ c, (scan .json t).masked[close]? = some c ∧ (c = '}' ∨ c = ']') := by
        intro start close hclose
        obtain ⟨-, -, c, hc, hcl⟩ := Brackets.close?_some hclose
        simp only [Brackets.data, List.any_cons, List.any_nil, Bool.or_false, Bool.or_eq_true,
          beq_iff_eq] at hcl
        exact ⟨c, hc, hcl.imp Eq.symm Eq.symm⟩
      split at h
      · rename_i hquote
        obtain ⟨stop, hstop, h⟩ := bind_ok h
        cases h
        obtain ⟨h1, h2, h3⟩ := stringStop_spec hb (Text.hasAt_iff.mp hquote) hstop
        refine ⟨rfl, ⟨h1, h2⟩, ?_⟩
        intro start close b hclose _ hlt _ _
        obtain ⟨c, hc, hcl⟩ := hbracket start close hclose
        exact h3 close c hlt hc hcl
      · obtain ⟨stop, hstop, h⟩ := bind_ok h
        cases h
        obtain ⟨h1, h2⟩ := plainStop_spec hstop
        refine ⟨rfl, ⟨h1, ?_⟩, ?_⟩
        · obtain ⟨c, hc, hplain⟩ := Text.testAt_iff.mp (h2 (stop - 1) (by omega) (by omega))
          rw [Text.testAt_of_getElem? hc]
          simp only [isPlain, Bool.and_eq_true, Bool.not_eq_true'] at hplain
          exact hplain.1.1
        · intro start close b hclose _ hlt _ _
          obtain ⟨c, hc, hcl⟩ := hbracket start close hclose
          refine Nat.le_of_not_lt fun hin => ?_
          have := h2 close (Nat.le_of_lt hlt) hin
          rw [Text.testAt_of_getElem? hc] at this
          rcases hcl with rfl | rfl <;> exact absurd this (by decide)

/-! ## Members -/

/-- A value takes no comment from its end on, and the members of a container are laid out between
its brackets. -/
def LaysOut (t : Text) (tree : Tree) : Prop :=
  ∀ pool, Drawn tree.start (scan .json t).comments pool →
    Drawn tree.stop (scan .json t).comments (containerMembers (scan .json t) tree pool).2 ∧
      ∀ isObject a b members, tree = .container isObject a b members →
        LaidFrom (Loose (Tended SeparatorPlaced .json) t) t (b - 1) (a + 1)
          (containerMembers (scan .json t) tree pool).1.1

/-- One member step by step. -/
theorem memberOf_eq (s : Scanned) (isObject : Bool) (close : Nat) (slot : Slot) (value : Tree)
    (index floor : Nat) (pool : List Comment) :
    memberOf s isObject close (slot, value) index floor pool =
      let lead := takeLeading s slot.start floor pool
      let key := takeInside slot.start value.start lead.2
      let inner := containerMembers s value key.2
      let early := takeEarly value.stop slot.comma inner.2
      let trail := takeTrailing s (pastSeparator value.stop slot.comma) close [] early.2
      let info := memberInfo s isObject index slot value lead.1 (early.1 ++ trail.1) inner.1.2
      (((match value with
        | .scalar _ _ => Member.leaf info
        | .container _ _ _ _ => Member.group info inner.1.1),
        endOf (early.1 ++ trail.1) (pastSeparator value.stop slot.comma)), trail.2) := by
  rcases slot with ⟨start, keyStop, comma | comma⟩ <;> rfl

/-- One member with its comments: it is laid out from the floor on, and its unit ends where the
next member may take comments. -/
theorem memberOf_laid {slot : Slot} {value : Tree} (isObject : Bool) {close : Nat} (index : Nat)
    {floor : Nat} {pool : List Comment} (hslot : SlotStands (scan .json t) slot value)
    (hvalue : value.Stands (scan .json t)) (hlays : LaysOut t value) (hfloor : floor ≤ slot.start)
    (hclose : pastSeparator value.stop slot.comma ≤ close)
    (hcode : (scan .json t).masked.testAt close Text.isSpace = false)
    (hpool : Drawn floor (scan .json t).comments pool) :
    let s := scan .json t
    let r := memberOf s isObject close (slot, value) index floor pool
    floor ≤ r.1.1.unitStart ∧ r.1.1.LaidOut (Loose (Tended SeparatorPlaced .json) t) t ∧ r.1.1.unitStop = r.1.2 ∧
      pastSeparator value.stop slot.comma ≤ r.1.2 ∧ r.1.2 ≤ close ∧ Drawn r.1.2 s.comments r.2 ∧
      ∀ i, pastSeparator value.stop slot.comma ≤ i → i < r.1.2 → passes s [] i := by
  intro s
  have hs : Orderly s s.comments := orderly_scan .json t
  obtain ⟨hne, hlast⟩ := hvalue.bounds
  have hstart := hslot.start_le
  have hplace : ∀ p, slot.comma = some p → value.stop ≤ p := fun p hp => (hslot.comma p hp).1
  let lead := takeLeading s slot.start floor pool
  have hlead : floor ≤ startOf lead.1 slot.start ∧ startOf lead.1 slot.start ≤ slot.start :=
    startOf_takeLeading (hs.sublist hpool.sublist) hfloor
  have hpool1 : Drawn slot.start s.comments lead.2 := takeLeading_drawn hs hpool hfloor
  let key := takeInside slot.start value.start lead.2
  have hpool2 : Drawn value.start s.comments key.2 := takeInside_drawn hs hpool1 hstart
  let inner := containerMembers s value key.2
  obtain ⟨hpool3, hinside⟩ := hlays key.2 hpool2
  let early := takeEarly value.stop slot.comma inner.2
  let trail := takeTrailing s (pastSeparator value.stop slot.comma) close [] early.2
  have hf := followed hs [] hpool3 hplace hclose
  let last := endOf (early.1 ++ trail.1) (pastSeparator value.stop slot.comma)
  let info := memberInfo s isObject index slot value lead.1 (early.1 ++ trail.1) inner.1.2
  intro r
  have hplaced : Placed t info (s.span slot.start value.stop)
      (s.span (startOf lead.1 slot.start) last) := by
    have hle := Nat.le_trans (le_pastSeparator hplace) hf.after_le
    have hunit : info.unit = some (s.span (startOf lead.1 slot.start) last) := by
      simp only [info, memberInfo, last, pastSeparator]
      cases value <;> rfl
    refine ⟨?_, hunit, hlead.2, Nat.lt_of_le_of_lt hstart hne, hle, ?_⟩
    · cases value <;> rfl
    · cases value <;> rfl
  have hseparator : SeparatorPlaced t info := by
    cases hcomma : slot.comma with
    | none =>
      refine Or.inl ?_
      cases value <;> simp [info, memberInfo, hcomma]
    | some p =>
      obtain ⟨h1, h2, h3⟩ := hslot.comma p hcomma
      have htrail : info.trailingComments = early.1 ++ trail.1 := by cases value <;> rfl
      refine separatorPlaced_of_scan (p := .json) rfl (c := ',') ?_ hplaced.span_eq hplaced.unit_eq
        rfl rfl h1 h2 (by decide) hlast h3 hcomma (by rw [htrail]; exact hf)
      cases value <;> (simp only [info, memberInfo, hcomma]; rfl)
  have hseverable : Severable t info := by
    have hstop : Cuttable t value.stop := cuttable_after_code hlast
    refine .of_eq hplaced.span_eq hplaced.unit_eq ?_ ?_ hstop
    · exact cuttable_leading hpool _ (cuttable_of_code hslot.code)
    · refine cuttable_endOf (cuttable_pastSeparator (p := .json) hstop fun p hp => ?_) hf.known
      exact ⟨',', Or.inl rfl, (hslot.comma p hp).2.1⟩
  have htrailing : info.trailingComments = early.1 ++ trail.1 := by cases value <;> rfl
  have hnext : SeparatorNext s info.separator value.stop slot.comma := by
    have hsep : info.separator = if slot.comma.isSome then "," else "" := by cases value <;> rfl
    rw [hsep]
    cases hcomma : slot.comma with
    | none => rfl
    | some p =>
      obtain ⟨h1, h2, h3⟩ := hslot.comma p hcomma
      exact ⟨h1, h3, ',', Or.inl rfl, rfl, h2⟩
  have hholds : HoldsTrail s info (s.span slot.start value.stop)
      (s.span (startOf lead.1 slot.start) last) slot.comma :=
    .of_limit hs hplaced.span_eq hplaced.unit_eq hlast hnext (htrailing ▸ hf.inside)
      (htrailing ▸ hf.held) hcode hclose
  have hP : Loose (Tended SeparatorPlaced .json) t info := ⟨⟨hseparator, _, _, _, hholds⟩, hseverable⟩
  simp only [r, memberOf_eq]
  cases value with
  | scalar a b =>
    have h1 := Placed.unitStart_eq (m := .leaf info) hplaced
    have h2 := Placed.unitStop_eq (m := .leaf info) hplaced
    exact ⟨h1 ▸ hlead.1, ⟨hP, _, _, hplaced⟩, h2, hf.after_le, hf.le_limit, hf.drawn, hf.gap⟩
  | container nested a b members =>
    have h1 := Placed.unitStart_eq (m := .group info inner.1.1) hplaced
    have h2 := Placed.unitStop_eq (m := .group info inner.1.1) hplaced
    refine ⟨h1 ▸ hlead.1, ⟨hP, _, _, _, hplaced, rfl, ?_, ?_, hinside nested a b members rfl⟩, h2,
      hf.after_le, hf.le_limit, hf.drawn, hf.gap⟩
    · exact Nat.le_succ_of_le hstart
    · exact Nat.sub_le b 1

mutual

/-- The members of a container are laid out between its brackets. -/
theorem containerMembers_laid : (tree : Tree) → tree.Stands (scan .json t) → LaysOut t tree
  | .scalar a b, h, pool, hpool => by
    refine ⟨takeInside_drawn (orderly_scan .json t) hpool (Nat.le_of_lt h.1), ?_⟩
    intro _ _ _ _ heq
    cases heq
  | .container isObject a b members, h, pool, hpool => by
    obtain ⟨h1, hcode, h3⟩ := h
    obtain ⟨hlaid, hleft⟩ := membersFrom_laid isObject members 0 h3 (Nat.le_refl _) h3.le
      (fun i h1 h2 => by omega) hcode (hpool.mono (Nat.le_succ a))
    simp only [containerMembers, bind_apply, pure_apply]
    refine ⟨(takeInside_drawn (orderly_scan .json t) hleft (Nat.le_refl _)).mono (Nat.sub_le b 1), ?_⟩
    intro _ _ _ _ heq
    cases heq
    exact hlaid

theorem membersFrom_laid (isObject : Bool) : (members : List (Slot × Tree)) →
    (index : Nat) → {close a floor : Nat} → {pool : List Comment} →
    SlotsFrom (scan .json t) close members a → a ≤ floor → floor ≤ close →
    (∀ i, a ≤ i → i < floor → passes (scan .json t) [] i) →
    (scan .json t).masked.testAt close Text.isSpace = false →
    Drawn floor (scan .json t).comments pool →
    let r := membersFrom (scan .json t) isObject close members index floor pool
    LaidFrom (Loose (Tended SeparatorPlaced .json) t) t close floor r.1 ∧ Drawn close (scan .json t).comments r.2
  | [], _, _, _, _, _, _, _, hfloor, _, _, hpool => ⟨hfloor, hpool.mono hfloor⟩
  | m :: rest, index, close, a, floor, pool, h, ha, hfloor, hgap, hcode, hpool => by
    obtain ⟨h1, h2, h3, h4⟩ := h
    have hstart := le_of_passes h1 hgap fun hpass => by
      have := space_of_passes hpass
      rw [h2.code] at this
      cases this
    have hvalue : m.2.Stands (scan .json t) := by
      cases m
      exact h3
    obtain ⟨g1, g2, g3, g4, g5, g6, g7⟩ :=
      memberOf_laid isObject index h2 hvalue (value_laid m h3) hstart h4.le hcode hpool
    obtain ⟨i1, i2⟩ := membersFrom_laid isObject rest (index + 1) h4 g4 g5 g7 hcode g6
    simp only [membersFrom, bind_apply, pure_apply]
    exact ⟨⟨g1, g2, by rw [g3]; exact i1⟩, i2⟩

theorem value_laid : (m : Slot × Tree) → ValueStands (scan .json t) m → LaysOut t m.2
  | (_, value), h => containerMembers_laid value h

end

/-! ## The document -/

theorem readDocument_stands {tree : Tree} (h : readDocument (scan .json t) = .ok (some tree)) :
    tree.Stands (scan .json t) ∧ (scan .json t).masked.testAt tree.start Text.isSpace = false ∧
      tree.stop ≤ t.size ∧ ∃ isObject a b members, tree = .container isObject a b members := by
  simp only [readDocument] at h
  split at h
  · cases h
  · rename_i opener hopener
    split at h
    · cases h
    · rename_i hbracket
      obtain ⟨value, hvalue, h⟩ := bind_ok h
      split at h
      · cases h
      · cases h
        let start := (scan .json t).nextCodeToEnd 0
        have hlt : start < (scan .json t).masked.size := (Array.getElem?_eq_some_iff.mp hopener).1
        have hcode : (scan .json t).masked.testAt start Text.isSpace = false :=
          Text.code_at_nextCode hlt
        have hsize : start < t.size := by
          rwa [← size_masked .json t]
        have hb : Boundary .json t start :=
          (boundary_zero .json t).nextCode quote_not_space (scan .json t).masked.size
        have hstands := (readValue_stands (by rw [size_masked]; omega) hsize hb hvalue).2.1
        have hopen : ((scan .json t).masked.hasAt start '{' ||
            (scan .json t).masked.hasAt start '[') = true := by
          rw [Bool.or_eq_true, Text.hasAt_iff, Text.hasAt_iff, hopener]
          simp only [bne_iff_ne, ne_eq, Bool.and_eq_true, Classical.not_and_iff_not_or_not,
            Classical.not_not, Option.some.injEq] at hbracket ⊢
          exact hbracket
        rw [readValue, if_pos hopen] at hvalue
        split at hvalue
        · cases hvalue
        · rename_i close hclose
          obtain ⟨members, -, hvalue⟩ := bind_ok hvalue
          cases hvalue
          have hclose := (Brackets.close?_some hclose).2.1
          rw [size_masked] at hclose
          exact ⟨hstands, hcode, hclose, _, _, _, _, rfl⟩

/-- Reading a JSON document places its entity. -/
theorem read_chain (fileType : FileType) (t : Text) :
    Chain (Entity.LaidOut (Loose (Tended SeparatorPlaced .json) t) t) 0 t.size (read fileType t).entities := by
  unfold read
  dsimp only
  split
  · exact .nil (Nat.zero_le _)
  · exact .nil (Nat.zero_le _)
  · rename_i tree htree
    obtain ⟨hstands, hcode, hsize, isObject, a, b, members, rfl⟩ := readDocument_stands htree
    obtain ⟨-, hlaid⟩ := containerMembers_laid _ hstands (scan .json t).comments
      ((Drawn.refl 0 _).mono (Nat.zero_le _))
    obtain ⟨hlt, hlast⟩ := hstands.bounds
    refine .cons (i := a) (j := b) (Nat.zero_le _)
      ⟨hlt, ⟨cuttable_of_code hcode, cuttable_after_code hlast⟩, rfl, ⟨_, rfl, rfl, rfl⟩, ?_⟩ (.nil hsize)
    exact ⟨_, rfl, Nat.le_succ a, Nat.sub_le b 1, hlaid isObject a b members rfl⟩

end MemberOrder.Json
