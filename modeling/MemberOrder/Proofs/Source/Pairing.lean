/-
  A bracket is closed where the brackets from it on first are a well-nested word.

  Of a text only the brackets of a set count (`bracketsIn`). A word of brackets is `Nested` when each one
  is closed by its own kind, in turn. A word is `Unclosed` when none of its brackets closes the first one;
  the closing brackets that it then waits for are known.

  Reading with a stack of expected brackets is a fold over the word (`expect`). It gives the stack back
  after a nested word (`fold_nested`), and what it has read behind an opening bracket without closing it is
  unclosed (`unclosed_of_fold`, `fold_of_unclosed`). The search for the closing bracket is this fold along
  the text, with the bracket itself at the bottom of the stack (`closeFrom_eq_some_iff`,
  `closeFrom_eq_none`). So it finds the one place where the bracket is closed (`close?_finds`).
-/
import Mathlib.Data.List.Induction
import MemberOrder.Proofs.Source.Nesting
import MemberOrder.Proofs.Text.Offsets

namespace MemberOrder.Brackets

variable {pairs : List (Char × Char)} {t : Text}

/-! ## Words of brackets -/

/-- Whether a character is a bracket of the set. -/
def isBracket (pairs : List (Char × Char)) (b : Char) : Bool := pairs.any fun p => p.1 == b || p.2 == b

/-- The brackets that stand between two offsets. -/
def bracketsIn (pairs : List (Char × Char)) (t : Text) (start stop : Nat) : List Char :=
  (t.slice start stop).filter (isBracket pairs)

/-- No character is more than one bracket of the set. -/
def Distinct (pairs : List (Char × Char)) : Prop := (pairs.flatMap fun p => [p.1, p.2]).Nodup

instance (pairs : List (Char × Char)) : Decidable (Distinct pairs) :=
  inferInstanceAs (Decidable (List.Nodup _))

/-- Words in which every bracket is closed by its own kind. -/
inductive Nested (pairs : List (Char × Char)) : List Char → Prop
  | empty : Nested pairs []
  | pair {opener closer : Char} {inside after : List Char} (h : (opener, closer) ∈ pairs)
      (hinside : Nested pairs inside) (hafter : Nested pairs after) :
      Nested pairs (opener :: inside ++ closer :: after)

/-- Words in which brackets wait for the closing ones in the second list, innermost first, and the rest is
nested. -/
inductive Unclosed (pairs : List (Char × Char)) : List Char → List Char → Prop
  | empty : Unclosed pairs [] []
  | opening {opener closer : Char} {word expected inside : List Char} (h : (opener, closer) ∈ pairs)
      (hword : Unclosed pairs word expected) (hinside : Nested pairs inside) :
      Unclosed pairs (word ++ opener :: inside) (closer :: expected)

/-- The bracket at `start` is closed at `stop`: from the one to the other the brackets are a nested word
whose first bracket is closed by its last. -/
def ClosedAt (pairs : List (Char × Char)) (t : Text) (start stop : Nat) : Prop :=
  ∃ opener closer inside, (opener, closer) ∈ pairs ∧ Nested pairs inside ∧ start < stop ∧
    t[start]? = some opener ∧ t[stop]? = some closer ∧
    bracketsIn pairs t start (stop + 1) = opener :: inside ++ [closer]

/-- The text ends, and the bracket at `start` is not closed. -/
def LeftOpen (pairs : List (Char × Char)) (t : Text) (start : Nat) : Prop :=
  ∃ expected, Unclosed pairs (bracketsIn pairs t start t.size) expected

/-- A closing bracket comes where one of another kind is waited for, and the bracket at `start` is not
closed before. -/
def Crossed (pairs : List (Char × Char)) (t : Text) (start : Nat) : Prop :=
  ∃ stop opener closer want outer, start < stop ∧ t[stop]? = some closer ∧ (opener, closer) ∈ pairs ∧
    want ≠ closer ∧ Unclosed pairs (bracketsIn pairs t start stop) (want :: outer)

theorem Nested.append {u v : List Char} (hu : Nested pairs u) (hv : Nested pairs v) :
    Nested pairs (u ++ v) := by
  induction hu with
  | empty => exact hv
  | @pair opener closer inside after h hinside _ _ ih =>
    have := Nested.pair h hinside ih
    rwa [show opener :: inside ++ closer :: after ++ v = opener :: inside ++ closer :: (after ++ v) by simp]

theorem Nested.enclosed {opener closer : Char} (h : (opener, closer) ∈ pairs) {u : List Char}
    (hu : Nested pairs u) : Nested pairs (opener :: u ++ [closer]) := .pair h hu .empty

/-- A nested word changes nothing of what is waited for. -/
theorem Unclosed.append {word expected u : List Char} (h : Unclosed pairs word expected)
    (hne : expected ≠ []) (hu : Nested pairs u) : Unclosed pairs (word ++ u) expected := by
  cases h with
  | empty => exact absurd rfl hne
  | opening hpair hword hinside =>
    rw [List.append_assoc, List.cons_append]
    exact .opening hpair hword (hinside.append hu)

/-! ## Reading with a stack -/

/-- What is waited for after one more bracket; nothing when it is of the wrong kind. -/
def expect (pairs : List (Char × Char)) (expected : List Char) (b : Char) : Option (List Char) :=
  match pairs.lookup b with
  | some closer => some (closer :: expected)
  | none =>
    match expected with
    | [] => none
    | want :: outer => if want = b then some outer else none

section Distinct

variable (hdistinct : Distinct pairs)
include hdistinct

theorem lookup_opener {opener closer : Char} (h : (opener, closer) ∈ pairs) :
    pairs.lookup opener = some closer := by
  induction pairs with
  | nil => cases h
  | cons p rest ih =>
    simp only [Distinct, List.flatMap_cons, List.nodup_append, List.mem_flatMap] at hdistinct
    obtain ⟨-, hrest, hdisjoint⟩ := hdistinct
    rcases List.mem_cons.mp h with rfl | h
    · exact List.lookup_cons_self
    · have hne : (opener == p.1) = false :=
        beq_false_of_ne fun heq => hdisjoint p.1 (by simp) opener ⟨_, h, by simp⟩ heq.symm
      rw [List.lookup_cons, hne]
      exact ih hrest h

/-- No bracket both opens and closes. -/
theorem opener_ne_closer {opener opener' closer closer' : Char} (h : (opener, closer) ∈ pairs)
    (h' : (opener', closer') ∈ pairs) : opener ≠ closer' := by
  induction pairs with
  | nil => cases h
  | cons p rest ih =>
    simp only [Distinct, List.flatMap_cons, List.nodup_append, List.mem_flatMap] at hdistinct
    obtain ⟨hself, hrest, hdisjoint⟩ := hdistinct
    rcases List.mem_cons.mp h with rfl | hin <;> rcases List.mem_cons.mp h' with heq | hin'
    · cases heq
      simpa using hself
    · exact hdisjoint opener (by simp) closer' ⟨_, hin', by simp⟩
    · cases heq
      exact fun heq => hdisjoint closer' (by simp) opener ⟨_, hin, by simp⟩ heq.symm
    · exact ih hrest hin hin'

theorem lookup_closer {opener closer : Char} (h : (opener, closer) ∈ pairs) :
    pairs.lookup closer = none := by
  rw [List.lookup_eq_none_iff]
  rintro ⟨other, closer'⟩ hother
  exact bne_iff_ne.mpr (opener_ne_closer hdistinct hother h).symm

theorem expect_opener {opener closer : Char} (h : (opener, closer) ∈ pairs) (expected : List Char) :
    expect pairs expected opener = some (closer :: expected) := by
  simp only [expect, lookup_opener hdistinct h]

theorem expect_closer {opener closer : Char} (h : (opener, closer) ∈ pairs) (outer : List Char) :
    expect pairs (closer :: outer) closer = some outer := by
  simp only [expect, lookup_closer hdistinct h, if_true]

/-- After a nested word the same brackets are waited for as before. -/
theorem fold_nested {u : List Char} (hu : Nested pairs u) (expected : List Char) :
    u.foldlM (expect pairs) expected = some expected := by
  induction hu generalizing expected with
  | empty => rfl
  | pair h _ _ hinside hafter =>
    rw [List.foldlM_append, List.foldlM_cons, expect_opener hdistinct h]
    simp only [Option.bind_eq_bind, Option.bind_some]
    rw [hinside]
    simp only [Option.bind_some, List.foldlM_cons]
    rw [expect_closer hdistinct h]
    exact hafter expected

end Distinct

/-- A bracket that is read opens one more pair or closes the innermost one. -/
theorem expect_cases {expected expected' : List Char} {b : Char}
    (h : expect pairs expected b = some expected') :
    (∃ closer, (b, closer) ∈ pairs ∧ expected' = closer :: expected) ∨ expected = b :: expected' := by
  unfold expect at h
  split at h
  · rename_i closer hlookup
    obtain ⟨l₁, l₂, rfl, -⟩ := List.lookup_eq_some_iff.mp hlookup
    exact .inl ⟨closer, by simp, (Option.some.inj h).symm⟩
  · split at h
    · cases h
    · split at h
      · rename_i hwant
        cases h
        exact .inr (by rw [hwant])
      · cases h

/-- What is read behind an opening bracket without closing it is unclosed. -/
theorem unclosed_of_fold {opener closer : Char} (hpair : (opener, closer) ∈ pairs) {word inner : List Char}
    (h : word.foldlM (expect pairs) [] = some inner) :
    Unclosed pairs (opener :: word) (inner ++ [closer]) := by
  induction word using List.reverseRecOn generalizing inner with
  | nil =>
    cases h
    exact .opening hpair .empty .empty
  | append_singleton word b ih =>
    rw [List.foldlM_append] at h
    obtain ⟨before, hbefore, hlast⟩ := Option.bind_eq_some_iff.mp h
    have hword := ih hbefore
    simp only [List.foldlM_cons, List.foldlM_nil, bind_pure] at hlast
    rw [← List.cons_append]
    rcases expect_cases hlast with ⟨closer', hpair', rfl⟩ | rfl
    · exact .opening hpair' hword .empty
    · -- the bracket closes the innermost pair, which makes a nested word
      rw [List.cons_append] at hword
      generalize hw : opener :: word = w at hword
      cases hword with
      | @opening opener' _ outer _ inside hpair' houter hinside =>
        rw [show outer ++ opener' :: inside ++ [b] = outer ++ (opener' :: inside ++ [b]) by simp]
        exact houter.append (by simp) (.enclosed hpair' hinside)

/-- An unclosed word is read behind its first bracket without closing it. -/
theorem fold_of_unclosed (hdistinct : Distinct pairs) {word expected : List Char}
    (h : Unclosed pairs word expected) : word = [] ∧ expected = [] ∨
    ∃ opener closer rest inner, (opener, closer) ∈ pairs ∧ word = opener :: rest ∧
      expected = inner ++ [closer] ∧ rest.foldlM (expect pairs) [] = some inner := by
  induction h with
  | empty => exact .inl ⟨rfl, rfl⟩
  | @opening opener closer word expected inside hpair _ hinside ih =>
    refine .inr ?_
    rcases ih with ⟨rfl, rfl⟩ | ⟨first, last, rest, inner, hfirst, rfl, rfl, hrest⟩
    · exact ⟨opener, closer, inside, [], hpair, rfl, rfl, fold_nested hdistinct hinside []⟩
    · refine ⟨first, last, rest ++ opener :: inside, closer :: inner, hfirst, rfl, rfl, ?_⟩
      rw [List.foldlM_append, hrest, Option.bind_eq_bind, Option.bind_some, List.foldlM_cons,
        expect_opener hdistinct hpair, Option.bind_eq_bind, Option.bind_some]
      exact fold_nested hdistinct hinside _

/-- A word is nested when after it nothing more is waited for. -/
theorem nested_iff_fold (hdistinct : Distinct pairs) {opener closer : Char}
    (hpair : (opener, closer) ∈ pairs) {word : List Char} :
    Nested pairs word ↔ word.foldlM (expect pairs) [] = some [] := by
  refine ⟨fun h => fold_nested hdistinct h [], fun h => ?_⟩
  have hword := unclosed_of_fold hpair h
  generalize hw : opener :: word = w at hword
  cases hword with
  | opening _ houter hinside =>
    cases houter
    cases hw
    exact hinside

/-! ## Reading along a text -/

theorem isBracket_opener {opener closer : Char} (h : (opener, closer) ∈ pairs) :
    isBracket pairs opener = true := List.any_eq_true.mpr ⟨_, h, by simp⟩

theorem isBracket_closer {opener closer : Char} (h : (opener, closer) ∈ pairs) :
    isBracket pairs closer = true := List.any_eq_true.mpr ⟨_, h, by simp⟩

theorem bracketsIn_self (i : Nat) : bracketsIn pairs t i i = [] := by
  rw [bracketsIn, Text.slice_self t (Nat.le_refl i), List.filter_nil]

theorem bracketsIn_append {i j k : Nat} (hij : i ≤ j) (hjk : j ≤ k) :
    bracketsIn pairs t i k = bracketsIn pairs t i j ++ bracketsIn pairs t j k := by
  rw [bracketsIn, ← Text.slice_append t hij hjk, List.filter_append]
  rfl

theorem bracketsIn_one {i : Nat} {b : Char} (hb : t[i]? = some b) (hbracket : isBracket pairs b = true) :
    bracketsIn pairs t i (i + 1) = [b] := by
  rw [bracketsIn, Text.slice_one hb, List.filter_cons_of_pos hbracket, List.filter_nil]

/-- A bracket that stands before the rest is read first. -/
theorem fold_bracketsIn {i j : Nat} {b : Char} (hb : t[i]? = some b) (hij : i < j)
    (hbracket : isBracket pairs b = true) (expected : List Char) :
    (bracketsIn pairs t i j).foldlM (expect pairs) expected =
      (expect pairs expected b).bind fun next => (bracketsIn pairs t (i + 1) j).foldlM (expect pairs) next := by
  rw [bracketsIn_append (Nat.le_succ i) hij, bracketsIn_one hb hbracket]
  rfl

theorem bracketsIn_of_other {i j : Nat} {b : Char} (hb : t[i]? = some b) (hij : i < j)
    (hother : isBracket pairs b = false) : bracketsIn pairs t i j = bracketsIn pairs t (i + 1) j := by
  have hnone : bracketsIn pairs t i (i + 1) = [] := by
    rw [bracketsIn, Text.slice_one hb, List.filter_cons_of_neg (by simp [hother]), List.filter_nil]
  rw [bracketsIn_append (Nat.le_succ i) hij, hnone, List.nil_append]

/-- What one character does to the search, with some bracket waited for. -/
theorem closeFrom_step {fuel i : Nat} {b : Char} (hb : t[i]? = some b) {expected : List Char}
    (hne : expected ≠ []) : closeFrom pairs t (fuel + 1) i expected =
      if isBracket pairs b then
        match expect pairs expected b with
        | none => none
        | some [] => some i
        | some expected => closeFrom pairs t fuel (i + 1) expected
      else closeFrom pairs t fuel (i + 1) expected := by
  obtain ⟨want, outer, rfl⟩ := List.exists_cons_of_ne_nil hne
  simp only [closeFrom, hb, expect]
  cases hlookup : pairs.lookup b with
  | some closer =>
    obtain ⟨l₁, l₂, hpairs, -⟩ := List.lookup_eq_some_iff.mp hlookup
    have hpair : (b, closer) ∈ pairs := by simp [hpairs]
    simp [isBracket_opener hpair]
  | none =>
    have hclose : isBracket pairs b = pairs.any (·.2 == b) := by
      refine Bool.eq_iff_iff.mpr ?_
      simp only [isBracket, List.any_eq_true, Bool.or_eq_true]
      refine exists_congr fun p => and_congr_right fun hp => or_iff_right fun hfirst => ?_
      have := List.lookup_eq_none_iff.mp hlookup p hp
      simp_all
    rw [hclose]
    cases pairs.any (·.2 == b) with
    | false => simp
    | true =>
      by_cases hwant : want = b
      · cases outer <;> simp [hwant]
      · simp [hwant]

/-- A bracket at the bottom of the stack is only reached when nothing lies on it. -/
theorem expect_bottom {inner : List Char} {b closer : Char} (h : ¬(inner = [] ∧ b = closer)) :
    expect pairs (inner ++ [closer]) b = (expect pairs inner b).map (· ++ [closer]) := by
  unfold expect
  cases pairs.lookup b with
  | some c => rfl
  | none =>
    cases inner with
    | nil =>
      have hne : closer ≠ b := fun heq => h ⟨rfl, heq.symm⟩
      simp [hne]
    | cons want outer =>
      by_cases hwant : want = b <;> simp [hwant]

/-- A bracket that cannot be read is a closing one that is not waited for next. -/
theorem expect_eq_none {expected : List Char} {b : Char} (h : expect pairs expected b = none)
    (hbracket : isBracket pairs b = true) : (∃ a, (a, b) ∈ pairs) ∧ expected.head? ≠ some b := by
  unfold expect at h
  cases hlookup : pairs.lookup b with
  | some closer => simp [hlookup] at h
  | none =>
    rw [hlookup] at h
    constructor
    · obtain ⟨⟨a, closer⟩, hpair, heq⟩ := List.any_eq_true.mp hbracket
      have hne : b ≠ a := bne_iff_ne.mp (List.lookup_eq_none_iff.mp hlookup _ hpair)
      simp only [Bool.or_eq_true, beq_iff_eq] at heq
      exact ⟨a, heq.resolve_left hne.symm ▸ hpair⟩
    · cases expected with
      | nil => simp
      | cons want outer =>
        rintro heq
        simp_all

section Search

variable (hdistinct : Distinct pairs) {opener closer : Char} (hpair : (opener, closer) ∈ pairs)
include hdistinct hpair

theorem expect_empty : expect pairs [] closer = none := by
  simp only [expect, lookup_closer hdistinct hpair]

/-- Nothing is read behind the closing bracket at the bottom. -/
theorem fold_past {i j : Nat} (hi : t[i]? = some closer) (hij : i < j) :
    (bracketsIn pairs t i j).foldlM (expect pairs) [] = none := by
  rw [fold_bracketsIn hi hij (isBracket_closer hpair), expect_empty hdistinct hpair]
  rfl

/-- The search stops at the closing bracket at the bottom of the stack, after a word that closes what lies
on it. -/
theorem closeFrom_eq_some_iff {fuel i stop : Nat} {inner : List Char} (hfuel : t.size ≤ i + fuel) :
    closeFrom pairs t fuel i (inner ++ [closer]) = some stop ↔ i ≤ stop ∧ t[stop]? = some closer ∧
      (bracketsIn pairs t i stop).foldlM (expect pairs) inner = some [] := by
  induction fuel generalizing i inner with
  | zero =>
    refine iff_of_false nofun fun ⟨hle, hstop, _⟩ => ?_
    have := Text.lt_size_of_getElem? hstop
    omega
  | succ fuel ih =>
    cases hb : t[i]? with
    | none =>
      refine iff_of_false (by simp [closeFrom, hb]) fun ⟨hle, hstop, _⟩ => ?_
      have := Text.lt_size_of_getElem? hstop
      have := Array.getElem?_eq_none_iff.mp hb
      omega
    | some b =>
      have hnext (next : List Char) : closeFrom pairs t fuel (i + 1) (next ++ [closer]) = some stop ↔ _ :=
        ih (by omega)
      rw [closeFrom_step hb (by simp)]
      by_cases hbracket : isBracket pairs b = true
      · rw [if_pos hbracket]
        by_cases hbottom : inner = [] ∧ b = closer
        · obtain ⟨rfl, rfl⟩ := hbottom
          rw [List.nil_append, expect_closer hdistinct hpair]
          constructor
          · rintro ⟨⟩
            exact ⟨Nat.le_refl _, hb, by rw [bracketsIn_self]; rfl⟩
          · rintro ⟨hle, -, hfold⟩
            rcases Nat.eq_or_lt_of_le hle with rfl | hlt
            · rfl
            · rw [fold_past hdistinct hpair hb hlt] at hfold
              cases hfold
        · -- what is at the bottom stays there
          have hlater : (i ≤ stop ∧ t[stop]? = some closer ∧
              (bracketsIn pairs t i stop).foldlM (expect pairs) inner = some []) ↔
              i + 1 ≤ stop ∧ t[stop]? = some closer ∧ ((expect pairs inner b).bind fun next =>
                (bracketsIn pairs t (i + 1) stop).foldlM (expect pairs) next) = some [] := by
            constructor
            · rintro ⟨hle, hstop, hfold⟩
              rcases Nat.eq_or_lt_of_le hle with rfl | hlt
              · rw [bracketsIn_self] at hfold
                rw [hb] at hstop
                exact absurd ⟨Option.some.inj hfold, Option.some.inj hstop⟩ hbottom
              · exact ⟨hlt, hstop, by rwa [fold_bracketsIn hb hlt hbracket] at hfold⟩
            · rintro ⟨hlt, hstop, hfold⟩
              exact ⟨by omega, hstop, by rwa [fold_bracketsIn hb hlt hbracket]⟩
          rw [hlater, expect_bottom hbottom]
          cases expect pairs inner b with
          | none => simp
          | some next =>
            rw [Option.map_some, Option.bind_some, ← hnext next]
            cases next <;> rfl
      · rw [if_neg hbracket, hnext inner]
        have hother := Bool.eq_false_iff.mpr hbracket
        have hne : t[stop]? = some closer → i ≠ stop := by
          rintro hstop rfl
          rw [hb, Option.some.injEq] at hstop
          exact hbracket (hstop ▸ isBracket_closer hpair)
        constructor
        · rintro ⟨hlt, hstop, hfold⟩
          exact ⟨by omega, hstop, by rwa [bracketsIn_of_other hb hlt hother]⟩
        · rintro ⟨hle, hstop, hfold⟩
          have hlt : i < stop := Nat.lt_of_le_of_ne hle (hne hstop)
          exact ⟨hlt, hstop, by rwa [bracketsIn_of_other hb hlt hother] at hfold⟩

/-- The search fails when the text ends first, or at a closing bracket that is not waited for. -/
theorem closeFrom_eq_none {fuel i : Nat} {inner : List Char} (hfuel : t.size ≤ i + fuel)
    (h : closeFrom pairs t fuel i (inner ++ [closer]) = none) (hi : i ≤ t.size) :
    (∃ next, (bracketsIn pairs t i t.size).foldlM (expect pairs) inner = some next) ∨
    ∃ stop b next, i ≤ stop ∧ t[stop]? = some b ∧ (∃ a, (a, b) ∈ pairs) ∧
      (bracketsIn pairs t i stop).foldlM (expect pairs) inner = some next ∧
      (next ++ [closer]).head? ≠ some b := by
  induction fuel generalizing i inner with
  | zero =>
    obtain rfl : i = t.size := by omega
    exact .inl ⟨inner, by rw [bracketsIn_self]; rfl⟩
  | succ fuel ih =>
    cases hb : t[i]? with
    | none =>
      obtain rfl : i = t.size := by
        have := Array.getElem?_eq_none_iff.mp hb
        omega
      exact .inl ⟨inner, by rw [bracketsIn_self]; rfl⟩
    | some b =>
      have hlt := Text.lt_size_of_getElem? hb
      rw [closeFrom_step hb (by simp)] at h
      by_cases hbracket : isBracket pairs b = true
      · rw [if_pos hbracket] at h
        have hbottom : ¬(inner = [] ∧ b = closer) := by
          rintro ⟨rfl, rfl⟩
          rw [List.nil_append, expect_closer hdistinct hpair] at h
          cases h
        rw [expect_bottom hbottom] at h
        cases hexpect : expect pairs inner b with
        | none =>
          obtain ⟨hcloses, hhead⟩ := expect_eq_none hexpect hbracket
          refine .inr ⟨i, b, inner, Nat.le_refl i, hb, hcloses, by rw [bracketsIn_self]; rfl, ?_⟩
          cases inner with
          | nil => exact fun heq => hbottom ⟨rfl, (Option.some.inj heq).symm⟩
          | cons want outer => exact hhead
        | some next =>
          rw [hexpect] at h
          have h : closeFrom pairs t fuel (i + 1) (next ++ [closer]) = none := by
            cases next <;> exact h
          rcases ih (by omega) h hlt with ⟨last, hlast⟩ | ⟨stop, b', last, hle, hstop, hb', hlast, hne⟩
          · refine .inl ⟨last, ?_⟩
            rw [fold_bracketsIn hb hlt hbracket, hexpect]
            exact hlast
          · refine .inr ⟨stop, b', last, by omega, hstop, hb', ?_, hne⟩
            rw [fold_bracketsIn hb hle hbracket, hexpect]
            exact hlast
      · rw [if_neg hbracket] at h
        have hother := Bool.eq_false_iff.mpr hbracket
        rcases ih (by omega) h hlt with ⟨last, hlast⟩ | ⟨stop, b', last, hle, hstop, hb', hlast, hne⟩
        · exact .inl ⟨last, by rwa [bracketsIn_of_other hb hlt hother]⟩
        · exact .inr ⟨stop, b', last, by omega, hstop, hb', by rwa [bracketsIn_of_other hb hle hother], hne⟩

variable {start : Nat} (hopen : t[start]? = some opener)
include hopen

theorem close?_eq_closeFrom :
    close? pairs t start = closeFrom pairs t (t.size - (start + 1)) (start + 1) [closer] := by
  have hsize := Text.lt_size_of_getElem? hopen
  rw [close?, show t.size - start = t.size - (start + 1) + 1 by omega]
  simp only [closeFrom, hopen, lookup_opener hdistinct hpair]

omit hdistinct in
theorem bracketsIn_opened {stop : Nat} (h : start < stop) :
    bracketsIn pairs t start stop = opener :: bracketsIn pairs t (start + 1) stop := by
  rw [bracketsIn_append (Nat.le_succ start) h, bracketsIn_one hopen (isBracket_opener hpair)]
  rfl

theorem closedAt_iff {stop : Nat} : ClosedAt pairs t start stop ↔
    start < stop ∧ t[stop]? = some closer ∧ Nested pairs (bracketsIn pairs t (start + 1) stop) := by
  have hwhole (hlt : start < stop) {c c' : Char} (hpair' : (c, c') ∈ pairs) (hstop : t[stop]? = some c') :
      bracketsIn pairs t start (stop + 1) = opener :: bracketsIn pairs t (start + 1) stop ++ [c'] := by
    rw [bracketsIn_append (Nat.le_of_lt hlt) (Nat.le_succ stop), bracketsIn_opened hpair hopen hlt,
      bracketsIn_one hstop (isBracket_closer hpair')]
  constructor
  · rintro ⟨opener', closer', inside, hpair', hinside, hlt, hopen', hstop, hword⟩
    obtain rfl : opener = opener' := Option.some.inj (hopen.symm.trans hopen')
    obtain rfl : closer = closer' := Option.some.inj
      ((lookup_opener hdistinct hpair).symm.trans (lookup_opener hdistinct hpair'))
    rw [hwhole hlt hpair hstop, List.append_cancel_right_eq, List.cons.injEq] at hword
    exact ⟨hlt, hstop, hword.2 ▸ hinside⟩
  · rintro ⟨hlt, hstop, hinside⟩
    exact ⟨opener, closer, _, hpair, hinside, hlt, hopen, hstop, hwhole hlt hpair hstop⟩

theorem close?_eq_some_iff {stop : Nat} :
    close? pairs t start = some stop ↔ ClosedAt pairs t start stop := by
  rw [close?_eq_closeFrom hdistinct hpair hopen, closedAt_iff hdistinct hpair hopen,
    nested_iff_fold hdistinct hpair, ← List.nil_append [closer]]
  have hfuel : t.size ≤ start + 1 + (t.size - (start + 1)) := by omega
  exact closeFrom_eq_some_iff hdistinct hpair hfuel

theorem leftOpen_or_crossed (h : close? pairs t start = none) :
    LeftOpen pairs t start ∨ Crossed pairs t start := by
  have hsize := Text.lt_size_of_getElem? hopen
  rw [close?_eq_closeFrom hdistinct hpair hopen] at h
  rw [← List.nil_append [closer]] at h
  rcases closeFrom_eq_none hdistinct hpair (by omega) h hsize with
    ⟨next, hnext⟩ | ⟨stop, b, next, hlt, hstop, ⟨a, hb⟩, hnext, hhead⟩
  · refine .inl ⟨next ++ [closer], ?_⟩
    rw [bracketsIn_opened hpair hopen hsize]
    exact unclosed_of_fold hpair hnext
  · have hword := unclosed_of_fold hpair hnext
    rw [← bracketsIn_opened hpair hopen hlt] at hword
    obtain ⟨want, outer, heq⟩ := List.exists_cons_of_ne_nil (show next ++ [closer] ≠ [] by simp)
    rw [heq] at hword hhead
    exact .inr ⟨stop, a, b, want, outer, hlt, hstop, hb, fun h => hhead (congrArg some h), hword⟩

theorem ClosedAt.not_leftOpen_or_crossed {stop : Nat} (h : ClosedAt pairs t start stop) :
    ¬(LeftOpen pairs t start ∨ Crossed pairs t start) := by
  obtain ⟨hlt, hstop, hnested⟩ := (closedAt_iff hdistinct hpair hopen).mp h
  have hfold := fold_nested hdistinct hnested []
  -- the fold over what is unclosed goes on behind the closing bracket
  have hread {j : Nat} (hj : start < j) {expected : List Char}
      (hword : Unclosed pairs (bracketsIn pairs t start j) expected) :
      ∃ inner, expected = inner ++ [closer] ∧
        (bracketsIn pairs t (start + 1) j).foldlM (expect pairs) [] = some inner := by
    rw [bracketsIn_opened hpair hopen hj] at hword
    rcases fold_of_unclosed hdistinct hword with ⟨h, -⟩ | ⟨first, last, rest, inner, hfirst, hw, rfl, hrest⟩
    · cases h
    · cases hw
      obtain rfl : closer = last := Option.some.inj
        ((lookup_opener hdistinct hpair).symm.trans (lookup_opener hdistinct hfirst))
      exact ⟨inner, rfl, hrest⟩
  have hpast {j : Nat} (hj : stop < j) :
      (bracketsIn pairs t (start + 1) j).foldlM (expect pairs) [] = none := by
    rw [bracketsIn_append hlt (Nat.le_of_lt hj), List.foldlM_append, hfold, Option.bind_eq_bind,
      Option.bind_some]
    exact fold_past hdistinct hpair hstop hj
  rintro (⟨expected, hword⟩ | ⟨j, a, b, want, outer, hj, hb, hab, hne, hword⟩)
  · obtain ⟨inner, -, hinner⟩ := hread (Text.lt_size_of_getElem? hopen) hword
    rw [hpast (Text.lt_size_of_getElem? hstop)] at hinner
    cases hinner
  · obtain ⟨inner, heq, hinner⟩ := hread hj hword
    rcases Nat.lt_trichotomy j stop with hbefore | rfl | hbehind
    · rw [bracketsIn_append hj (Nat.le_of_lt hbefore), List.foldlM_append, hinner, Option.bind_eq_bind,
        Option.bind_some, fold_bracketsIn hb hbefore (isBracket_closer hab)] at hfold
      obtain ⟨next, hnext, -⟩ := Option.bind_eq_some_iff.mp hfold
      rcases expect_cases hnext with ⟨closer', hpair', -⟩ | rfl
      · exact opener_ne_closer hdistinct hpair' hab rfl
      · exact hne (List.cons.inj heq).1
    · rw [hfold] at hinner
      cases hinner
      cases heq
      exact hne (Option.some.inj (hstop.symm.trans hb))
    · rw [hpast hbehind] at hinner
      cases hinner

end Search

/-- The search for the bracket that closes the one at `start` finds the only place where it is closed, and
it fails exactly when there is none: the text ends or a closing bracket of the wrong kind comes first. -/
theorem close?_finds {pairs : List (Char × Char)} (hdistinct : Distinct pairs) {t : Text} {start : Nat}
    {opener closer : Char} (hpair : (opener, closer) ∈ pairs) (hopen : t[start]? = some opener) :
    (∀ stop, close? pairs t start = some stop ↔ ClosedAt pairs t start stop) ∧
    (∀ stop stop', ClosedAt pairs t start stop → ClosedAt pairs t start stop' → stop = stop') ∧
    (close? pairs t start = none ↔ ∀ stop, ¬ClosedAt pairs t start stop) ∧
    (close? pairs t start = none ↔ LeftOpen pairs t start ∨ Crossed pairs t start) := by
  have hfound {stop : Nat} : close? pairs t start = some stop ↔ ClosedAt pairs t start stop :=
    close?_eq_some_iff hdistinct hpair hopen
  have hnone : close? pairs t start = none ↔ ∀ stop, ¬ClosedAt pairs t start stop := by
    simp only [← hfound]
    exact Option.eq_none_iff_forall_ne_some
  refine ⟨fun _ => hfound, fun stop stop' h h' => ?_, hnone, leftOpen_or_crossed hdistinct hpair hopen, ?_⟩
  · rw [← hfound] at h h'
    exact Option.some.inj (h.symm.trans h')
  · exact fun hfails => hnone.mpr fun stop h => h.not_leftOpen_or_crossed hdistinct hpair hopen hfails

theorem close?_finds_nested : ClosedAt all (Text.ofString "f(a[0], {b})]") 1 11 ∧
    (LeftOpen all (Text.ofString "f(a[0)]") 1 ∨ Crossed all (Text.ofString "f(a[0)]") 1) :=
  ⟨((close?_finds (by decide) (show ('(', ')') ∈ all by decide) (by decide)).1 11).mp (by decide),
    (close?_finds (by decide) (show ('(', ')') ∈ all by decide) (by decide)).2.2.2.mp (by decide)⟩

end MemberOrder.Brackets
