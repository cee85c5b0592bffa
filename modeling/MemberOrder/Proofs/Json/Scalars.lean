/-
  How scalars are read.

  The first way in which a pattern is tried decides its match: `Takes` says where that way ends, and
  `Fails` that there is none. A number, read where its text stands, is taken up to the delimiter after
  it, a word likewise, and a string up to its closing quote; so every scalar of the grammar is read to
  its end (`plainStop_eq`, `stringStop_eq`).
-/
import MemberOrder.Json.Tree
import MemberOrder.Proofs.Json.Grammar
import MemberOrder.Proofs.Placement.Json
import MemberOrder.Proofs.Text.Offsets

/-!
## How spelled texts are scanned

A text without comments is `Masked` as another one when its strings keep their quotes and nothing of
their insides; scanning such a text gives just that, and no comment (`scan_masked`). In a masked text
brackets pair up: what is `Balanced` is passed over when the end of a bracket is looked for.
-/

namespace MemberOrder.Json

open Lexeme

/-! ## Masked texts -/

/-- A text without comments, and what is left of it when the insides of strings are masked. -/
inductive Masked : List Char → List Char → Prop
  | nil : Masked [] []
  | code {c : Char} {cs ms : List Char} (hquote : c ≠ '"') (hslash : c ≠ '/') (h : Masked cs ms) :
      Masked (c :: cs) (c :: ms)
  | string {inside cs ms : List Char} (hinside : Inside inside) (h : Masked cs ms) :
      Masked ('"' :: inside ++ '"' :: cs)
        ('"' :: List.replicate inside.length '_' ++ '"' :: ms)

theorem Masked.append {a a' b b' : List Char} (ha : Masked a a') (hb : Masked b b') :
    Masked (a ++ b) (a' ++ b') := by
  induction ha with
  | nil => exact hb
  | code hquote hslash _ ih => exact .code hquote hslash ih
  | string hinside _ ih =>
    simp only [List.append_assoc, List.cons_append]
    exact .string hinside ih

theorem Masked.length_eq {cs ms : List Char} (h : Masked cs ms) : ms.length = cs.length := by
  induction h with
  | nil => rfl
  | code _ _ _ ih => rw [List.length_cons, List.length_cons, ih]
  | string _ _ ih => simp [ih]

/-- Code is its own mask. -/
theorem masked_of_code {cs : List Char} (h : ∀ c ∈ cs, c ≠ '"' ∧ c ≠ '/') : Masked cs cs := by
  induction cs with
  | nil => exact .nil
  | cons c rest ih =>
    obtain ⟨hquote, hslash⟩ := h c List.mem_cons_self
    exact .code hquote hslash (ih fun d hd => h d (List.mem_cons_of_mem c hd))

theorem masked_of_blank {cs : List Char} (h : Blank cs) : Masked cs cs := by
  have hall : ∀ c ∈ blanks, c ≠ '"' ∧ c ≠ '/' := by decide
  exact masked_of_code fun c hc => hall c (h c hc)

theorem masked_of_bare {cs : List Char} (h : Bare cs) : Masked cs cs := by
  have hall : ∀ c ∈ bareChars, c ≠ '"' ∧ c ≠ '/' := by decide
  exact masked_of_code fun c hc => hall c (h.2 c hc)

theorem masked_quoted {inside : List Char} (h : Inside inside) :
    Masked ('"' :: inside ++ ['"']) ('"' :: List.replicate inside.length '_' ++ ['"']) :=
  .string h .nil

/-! ## Scanning -/

theorem Inside.control {cs : List Char} (h : Inside cs) : ∀ c ∈ cs, 32 ≤ c.toNat := by
  have hescapable : ∀ c ∈ escapable, 32 ≤ c.toNat := by decide
  have hhexDigits : ∀ c ∈ hexDigits, 32 ≤ c.toNat := by decide
  induction h with
  | nil => exact fun _ h => absurd h List.not_mem_nil
  | plain hcontrol _ _ _ ih => exact List.forall_mem_cons.mpr ⟨hcontrol, ih⟩
  | escape hc _ ih =>
    exact List.forall_mem_cons.mpr ⟨by decide, List.forall_mem_cons.mpr ⟨hescapable _ hc, ih⟩⟩
  | unicode hhex _ ih =>
    simp only [List.forall_mem_cons, List.not_mem_nil, false_implies, implies_true, and_true] at hhex
    obtain ⟨ha, hb, hc, hd⟩ := hhex
    simp only [List.forall_mem_cons]
    exact ⟨by decide, by decide, hhexDigits _ ha, hhexDigits _ hb, hhexDigits _ hc, hhexDigits _ hd, ih⟩

/-- A backslash skips the character after it. -/
theorem literalStop_backslash {t : Text} {fuel i : Nat} (h : t[i]? = some '\\') :
    literalStop .json t '"' (fuel + 1) i = literalStop .json t '"' fuel (i + 2) := by
  rw [literalStop, h]
  rfl

theorem literalStop_plain {t : Text} {fuel i : Nat} {c : Char} (h : t[i]? = some c)
    (hcontrol : 32 ≤ c.toNat) (hquote : c ≠ '"') (hslash : c ≠ '\\') :
    literalStop .json t '"' (fuel + 1) i = literalStop .json t '"' fuel (i + 1) := by
  have hline : c ≠ '\n' := by
    rintro rfl
    exact absurd hcontrol (by decide)
  rw [literalStop, h]
  simp [hquote, hslash, hline]

/-- The literal of a string ends just past its closing quote. -/
theorem literalStop_inside {inside : List Char} (h : Inside inside) {t : Text} {i fuel : Nat}
    (hstands : t.standsAt i (inside ++ ['"']) = true) (hfuel : inside.length < fuel) :
    literalStop .json t '"' fuel i = i + inside.length + 1 := by
  induction h generalizing i fuel with
  | nil =>
    obtain ⟨fuel, rfl⟩ := Nat.exists_eq_succ_of_ne_zero (Nat.ne_of_gt hfuel)
    have hquote : t[i]? = some '"' := (Text.standsAt_cons.mp hstands).1
    rw [literalStop, hquote]
    rfl
  | plain hcontrol hquote hslash _ ih =>
    obtain ⟨fuel, rfl⟩ := Nat.exists_eq_succ_of_ne_zero (Nat.ne_of_gt (Nat.zero_lt_of_lt hfuel))
    obtain ⟨hc, hrest⟩ := Text.standsAt_cons.mp hstands
    rw [List.length_cons] at hfuel
    rw [literalStop_plain hc hcontrol hquote hslash, ih hrest (by omega), List.length_cons]
    omega
  | escape hc _ ih =>
    obtain ⟨fuel, rfl⟩ := Nat.exists_eq_succ_of_ne_zero (Nat.ne_of_gt (Nat.zero_lt_of_lt hfuel))
    obtain ⟨hslash, hrest⟩ := Text.standsAt_cons.mp hstands
    have hrest := (Text.standsAt_cons.mp hrest).2
    simp only [List.length_cons] at hfuel
    rw [literalStop_backslash hslash, ih hrest (by omega)]
    simp only [List.length_cons]
    omega
  | unicode hhex _ ih =>
    -- the four digits after the mark are plain characters
    have hall : ∀ c ∈ hexDigits, 32 ≤ c.toNat ∧ c ≠ '"' ∧ c ≠ '\\' := by decide
    simp only [List.forall_mem_cons, List.not_mem_nil, false_implies, implies_true, and_true] at hhex
    obtain ⟨ha, hb, hc, hd⟩ := hhex
    simp only [List.length_cons] at hfuel
    simp only [List.cons_append, Text.standsAt_cons] at hstands
    obtain ⟨h0, h1, h2, h3, h4, h5, hrest⟩ := hstands
    obtain ⟨fuel, rfl⟩ := Nat.exists_eq_add_of_le (show 5 ≤ fuel by omega)
    rw [show 5 + fuel = fuel + 1 + 1 + 1 + 1 + 1 by omega, literalStop_backslash h0,
      literalStop_plain h2 (hall _ ha).1 (hall _ ha).2.1 (hall _ ha).2.2,
      literalStop_plain h3 (hall _ hb).1 (hall _ hb).2.1 (hall _ hb).2.2,
      literalStop_plain h4 (hall _ hc).1 (hall _ hc).2.1 (hall _ hc).2.2,
      literalStop_plain h5 (hall _ hd).1 (hall _ hd).2.1 (hall _ hd).2.2, ih hrest (by omega)]
    simp only [List.length_cons]
    omega

/-- Only the quotes of a string are left by masking it. -/
theorem maskLiteral_quoted {inside : List Char} (h : Inside inside) :
    maskLiteral ('"' :: inside ++ ['"']) = '"' :: List.replicate inside.length '_' ++ ['"'] := by
  have hblank : blank '_' inside = List.replicate inside.length '_' := by
    rw [← List.map_const', blank]
    refine List.map_congr_left fun c hc => ?_
    have hcontrol := h.control c hc
    have hreturn : c ≠ '\r' := by
      rintro rfl
      exact absurd hcontrol (by decide)
    have hline : c ≠ '\n' := by
      rintro rfl
      exact absurd hcontrol (by decide)
    simp [hreturn, hline]
  simp [maskLiteral, hblank]

/-- A character that opens neither a string nor a comment is a lexeme by itself. -/
theorem lexemeAt_code {t : Text} {i : Nat} {c : Char} (hc : t[i]? = some c) (hquote : c ≠ '"')
    (hslash : c ≠ '/') (depth : Nat) : lexemeAt .json t depth i = ⟨.code, i, i + 1⟩ := by
  have hcomment : ∀ d, t.standsAt i ['/', d] = false := by
    intro d
    rw [Bool.eq_false_iff, Ne, Text.standsAt_two, hc]
    simp [hslash]
  rw [lexemeAt, hc]
  simp [hcomment, Profile.json, hquote]

/-- A string is one lexeme, up to its closing quote. -/
theorem lexemeAt_string {t : Text} {i : Nat} {inside : List Char} (h : Inside inside)
    (hstands : t.standsAt i ('"' :: inside ++ ['"']) = true) (depth : Nat) :
    lexemeAt .json t depth i = ⟨.literal, i, i + (inside.length + 2)⟩ := by
  obtain ⟨hquote, hinner⟩ := Text.standsAt_cons.mp hstands
  have hsize := Text.le_size_of_standsAt hstands (Nat.le_of_lt (Text.lt_size_of_getElem? hquote))
  simp only [List.length_append, List.length_cons, List.length_nil] at hsize
  have hstop := literalStop_inside h hinner (show inside.length < t.size - i by omega)
  rw [lexemeAt, hquote]
  simp only [Profile.json, List.contains_cons, beq_self_eq_true, Bool.true_or, if_true]
  rw [show Profile.mk true ['"'] [] [] false = .json from rfl, hstop]
  congr 1
  omega

/-- Scanning a text from where a masked rest stands. -/
theorem lexemesFrom_masked {cs ms : List Char} (h : Masked cs ms) {t : Text} {i fuel : Nat}
    (depth : Nat) (hstands : t.standsAt i cs = true) (hsize : i + cs.length = t.size)
    (hfuel : cs.length ≤ fuel) :
    (lexemesFrom .json t fuel i depth).flatMap (·.masked t) = ms ∧
      ∀ lines, (lexemesFrom .json t fuel i depth).filterMap (·.comment? t lines) = [] := by
  induction h generalizing i fuel depth with
  | nil =>
    have hend : lexemesFrom .json t fuel i depth = [] := by
      rw [List.length_nil] at hsize
      cases fuel with
      | zero => rfl
      | succ fuel => rw [lexemesFrom, if_neg (by omega)]
    rw [hend]
    exact ⟨rfl, fun _ => rfl⟩
  | code hquote hslash hmask ih =>
    obtain ⟨hc, hrest⟩ := Text.standsAt_cons.mp hstands
    rw [List.length_cons] at hsize hfuel
    obtain ⟨fuel, rfl⟩ := Nat.exists_eq_succ_of_ne_zero (show fuel ≠ 0 by omega)
    rw [lexemesFrom, if_pos (by omega), lexemeAt_code hc hquote hslash]
    obtain ⟨hmasked, hcomments⟩ := ih (depthAfter t ⟨.code, i, i + 1⟩ depth) hrest (by omega)
      (Nat.le_of_succ_le_succ hfuel)
    refine ⟨?_, fun lines => hcomments lines⟩
    rw [List.flatMap_cons, hmasked]
    simp only [masked, Text.slice_one hc]
    rfl
  | string hinside hmask ih =>
    rename_i inside cs ms
    have hsplit : '"' :: inside ++ '"' :: cs = ('"' :: inside ++ ['"']) ++ cs := by simp
    have hlength : ('"' :: inside ++ ['"']).length = inside.length + 2 := by simp
    rw [hsplit] at hstands hsize hfuel
    obtain ⟨hquoted, hrest⟩ := Text.standsAt_append.mp hstands
    rw [List.length_append, hlength] at hsize hfuel
    rw [hlength] at hrest
    obtain ⟨fuel, rfl⟩ := Nat.exists_eq_succ_of_ne_zero (show fuel ≠ 0 by omega)
    rw [lexemesFrom, if_pos (by omega), lexemeAt_string hinside hquoted]
    obtain ⟨hmasked, hcomments⟩ := ih
      (depthAfter t ⟨.literal, i, i + (inside.length + 2)⟩ depth) hrest (by omega)
      (show cs.length ≤ fuel by omega)
    refine ⟨?_, fun lines => hcomments lines⟩
    have hslice := Text.slice_of_standsAt hquoted
    rw [hlength] at hslice
    rw [List.flatMap_cons, hmasked]
    simp only [masked, hslice, maskLiteral_quoted hinside]
    simp

/-- A text without comments is scanned as its mask. -/
theorem scan_masked {t : Text} {ms : List Char} (h : Masked t.toList ms) :
    (Scanned.scan .json t).masked = ms.toArray ∧ (Scanned.scan .json t).comments = [] := by
  obtain ⟨hmasked, hcomments⟩ := lexemesFrom_masked h (t := t) (i := 0) 0
    (Text.standsAt_toArray t.toList) (by simp) (show t.toList.length ≤ t.size by simp)
  exact ⟨congrArg List.toArray hmasked, hcomments _⟩

/-! ## Balanced texts -/

/-- What is passed over when the end of an open bracket is looked for. -/
def Balanced (ms : List Char) : Prop :=
  ∀ (t : Text) (i fuel : Nat) (expected : List Char), expected ≠ [] → t.standsAt i ms = true →
    Brackets.closeFrom Brackets.data t (ms.length + fuel) i expected =
      Brackets.closeFrom Brackets.data t fuel (i + ms.length) expected

theorem balanced_nil : Balanced [] := by
  intro t i fuel expected _ _
  rw [List.length_nil, Nat.zero_add, Nat.add_zero]

theorem Balanced.append {a b : List Char} (ha : Balanced a) (hb : Balanced b) :
    Balanced (a ++ b) := by
  intro t i fuel expected hne hstands
  obtain ⟨hstandsA, hstandsB⟩ := Text.standsAt_append.mp hstands
  rw [List.length_append, Nat.add_assoc, ha t i _ expected hne hstandsA,
    hb t _ fuel expected hne hstandsB, Nat.add_assoc]

/-- The characters that are no bracket. -/
def NoBracket (c : Char) : Prop := c ∉ ['{', '}', '[', ']']

instance : DecidablePred NoBracket := fun c =>
  inferInstanceAs (Decidable (c ∉ ['{', '}', '[', ']']))

theorem closeFrom_noBracket {t : Text} {i fuel : Nat} {expected : List Char} {c : Char}
    (hc : t[i]? = some c) (hno : NoBracket c) :
    Brackets.closeFrom Brackets.data t (fuel + 1) i expected =
      Brackets.closeFrom Brackets.data t fuel (i + 1) expected := by
  simp only [NoBracket, List.mem_cons, List.not_mem_nil, or_false, not_or] at hno
  obtain ⟨h1, h2, h3, h4⟩ := hno
  have hlookup : Brackets.data.lookup c = none := by
    simp [Brackets.data, List.lookup_cons, beq_eq_false_iff_ne.mpr h1, beq_eq_false_iff_ne.mpr h3]
  have hany : Brackets.data.any (·.2 == c) = false := by
    simp [Brackets.data, Ne.symm h2, Ne.symm h4]
  rw [Brackets.closeFrom, hc]
  simp only [hlookup, hany, Bool.false_eq_true, if_false]

theorem balanced_of_noBracket {ms : List Char} (h : ∀ c ∈ ms, NoBracket c) : Balanced ms := by
  induction ms with
  | nil => exact balanced_nil
  | cons c rest ih =>
    intro t i fuel expected hne hstands
    obtain ⟨hc, hrest⟩ := Text.standsAt_cons.mp hstands
    rw [List.length_cons, Nat.add_right_comm, closeFrom_noBracket hc (h c List.mem_cons_self),
      ih (fun d hd => h d (List.mem_cons_of_mem c hd)) t (i + 1) fuel expected hne hrest,
      Nat.add_assoc, Nat.add_comm 1]

theorem closeFrom_opener (isObject : Bool) {t : Text} {i fuel : Nat} {expected : List Char}
    (hc : t[i]? = some (opener isObject)) :
    Brackets.closeFrom Brackets.data t (fuel + 1) i expected =
      Brackets.closeFrom Brackets.data t fuel (i + 1) (closer isObject :: expected) := by
  rw [Brackets.closeFrom, hc]
  cases isObject <;> rfl

theorem closeFrom_closer (isObject : Bool) {t : Text} {i fuel : Nat} {outer : List Char}
    (hc : t[i]? = some (closer isObject)) :
    Brackets.closeFrom Brackets.data t (fuel + 1) i (closer isObject :: outer) =
      if outer.isEmpty then some i else Brackets.closeFrom Brackets.data t fuel (i + 1) outer := by
  rw [Brackets.closeFrom, hc]
  cases isObject <;> rfl

/-- A bracket, something balanced and the bracket's end are balanced. -/
theorem Balanced.bracketed {ms : List Char} (h : Balanced ms) (isObject : Bool) :
    Balanced (opener isObject :: ms ++ [closer isObject]) := by
  intro t i fuel expected hne hstands
  rw [List.cons_append, Text.standsAt_cons, Text.standsAt_append, Text.standsAt_cons] at hstands
  obtain ⟨hopen, hinner, hclose, -⟩ := hstands
  rw [show (opener isObject :: ms ++ [closer isObject]).length + fuel =
      ms.length + (fuel + 1) + 1 by simp; omega,
    closeFrom_opener isObject hopen, h t _ _ _ (List.cons_ne_nil _ _) hinner,
    closeFrom_closer isObject hclose, if_neg (by simpa using hne)]
  congr 1
  simp
  omega

/-- The end of a bracket around something balanced. -/
theorem close?_bracketed {t : Text} {ms : List Char} (h : Balanced ms) (isObject : Bool) {i : Nat}
    (hstands : t.standsAt i (opener isObject :: ms ++ [closer isObject]) = true) :
    Brackets.close? Brackets.data t i = some (i + 1 + ms.length) := by
  rw [List.cons_append, Text.standsAt_cons, Text.standsAt_append, Text.standsAt_cons] at hstands
  obtain ⟨hopen, hinner, hclose, -⟩ := hstands
  have hsize := Text.lt_size_of_getElem? hclose
  obtain ⟨fuel, hfuel⟩ := Nat.exists_eq_add_of_le (show ms.length + 2 ≤ t.size - i by omega)
  rw [Brackets.close?, hfuel, show ms.length + 2 + fuel = ms.length + (fuel + 1) + 1 by omega,
    closeFrom_opener isObject hopen, h t _ _ _ (List.cons_ne_nil _ _) hinner,
    closeFrom_closer isObject hclose]
  rfl

end MemberOrder.Json

/-! ## How scalars are read -/

namespace MemberOrder

namespace Pattern

variable {t : Text} {stop i j l : Nat} {p q : Pattern} {test : Char → Bool}

/-- Tried at `i`, a pattern marks nothing and ends at `j` when the rest can go on from there. -/
def Takes (t : Text) (stop : Nat) (p : Pattern) (i j : Nat) : Prop :=
  ∀ marks k, (k j marks).isSome = true → run t stop p i marks k = k j marks

/-- No way to match at `i`. -/
def Fails (t : Text) (stop : Nat) (p : Pattern) (i : Nat) : Prop :=
  ∀ marks k, run t stop p i marks k = none

theorem takes_one (hi : i < stop) (h : t.testAt i test = true) :
    Takes t stop (.one test) i (i + 1) := by
  intro marks k _
  simp [run, hi, h]

theorem fails_one (h : t.testAt i test = false) : Fails t stop (.one test) i := by
  intro marks k
  simp [run, h]

theorem Takes.seq (hp : Takes t stop p i j) (hq : Takes t stop q j l) :
    Takes t stop (.seq p q) i l := by
  intro marks k hk
  have hnext := hq marks k hk
  rw [run, hp marks _ (by rw [hnext]; exact hk), hnext]

theorem Takes.either_left (hp : Takes t stop p i j) : Takes t stop (.either p q) i j := by
  intro marks k hk
  rw [run, hp marks k hk]
  cases h : k j marks with
  | none => simp [h] at hk
  | some r => rfl

theorem Fails.either_right (hp : Fails t stop p i) (hq : Takes t stop q i j) :
    Takes t stop (.either p q) i j := by
  intro marks k hk
  rw [run, hp marks k]
  exact hq marks k hk

theorem Fails.either (hp : Fails t stop p i) (hq : Fails t stop q i) :
    Fails t stop (.either p q) i := by
  intro marks k
  rw [run, hp marks k]
  exact hq marks k

theorem Fails.seq (hp : Fails t stop p i) (q : Pattern) : Fails t stop (.seq p q) i :=
  fun marks _ => hp marks _

/-- What is optional and not there takes nothing. -/
theorem Fails.takes_optional (hp : Fails t stop p i) : Takes t stop (.optional p) i i :=
  hp.either_right fun _ _ _ => rfl

theorem Fails.optional_seq (hp : Fails t stop p i) (hq : Fails t stop q i) :
    Fails t stop (.seq (.optional p) q) i := by
  intro marks k
  rw [run, optional, run, hp marks]
  exact hq marks k

theorem runLength_eq {fuel : Nat} (hij : i ≤ j) (hfuel : j - i ≤ fuel)
    (h : ∀ x, i ≤ x → x < j → t.testAt x test = true)
    (hend : j - i < fuel → t.testAt j test = false) : runLength t test fuel i = j - i := by
  induction fuel generalizing i with
  | zero => rw [Nat.le_zero.mp hfuel, runLength]
  | succ fuel ih =>
    rw [runLength]
    rcases Nat.eq_or_lt_of_le hij with rfl | hlt
    · rw [hend (by omega), Nat.sub_self]
      rfl
    · rw [if_pos (h i (Nat.le_refl i) hlt), ih hlt (by omega)
        (fun x hx hxj => h x (Nat.le_of_succ_le hx) hxj) fun hlt' => hend (by omega)]
      omega

/-- A run is taken to its end. -/
theorem takes_span (hij : i ≤ j) (hj : j ≤ stop) (h : ∀ x, i ≤ x → x < j → t.testAt x test = true)
    (hend : t.testAt j test = false) : Takes t stop (.span test) i j := by
  intro marks k hk
  rw [run, runLength_eq hij (by omega) h fun _ => hend]
  rcases Nat.eq_or_lt_of_le hij with rfl | hlt
  · rw [Nat.sub_self]
    rfl
  · obtain ⟨n, rfl⟩ := Nat.exists_eq_add_of_lt hlt
    rw [show i + n + 1 - i = n + 1 by omega, downFrom]
    cases hr : k (i + n + 1) marks with
    | none => simp [hr] at hk
    | some r => rfl

theorem takes_chars {cs : List Char} (hne : cs ≠ []) (h : t.standsAt i cs = true)
    (hstop : i + cs.length ≤ stop) : Takes t stop (.chars cs) i (i + cs.length) := by
  induction cs generalizing i with
  | nil => exact absurd rfl hne
  | cons c rest ih =>
    obtain ⟨hc, hrest⟩ := Text.standsAt_cons.mp h
    rw [List.length_cons] at hstop ⊢
    have hfirst : Takes t stop (.char c) i (i + 1) :=
      takes_one (by omega) (Text.hasAt_iff.mpr hc)
    cases rest with
    | nil => exact hfirst
    | cons d rest =>
      have hnext := ih (List.cons_ne_nil d rest) hrest (by omega)
      rw [show i + 1 + (d :: rest).length = i + ((d :: rest).length + 1) by omega] at hnext
      exact hfirst.seq hnext

theorem fails_chars {c d : Char} (rest : List Char) (hc : t[i]? = some c) (hne : c ≠ d) :
    Fails t stop (.chars (d :: rest)) i := by
  have hfirst : Fails t stop (.char d) i := fails_one (by simp [Text.testAt_of_getElem? hc, hne])
  cases rest with
  | nil => exact hfirst
  | cons e rest => exact hfirst.seq _

theorem Takes.matchAt? (h : Takes t stop p i j) : p.matchAt? t i stop = some ⟨i, j, []⟩ := by
  rw [Pattern.matchAt?, h [] _ rfl]
  rfl

theorem Fails.matchAt? (h : Fails t stop p i) : p.matchAt? t i stop = none := by
  rw [Pattern.matchAt?, h]
  rfl

end Pattern

namespace Json

open Pattern

/-! ## Ends of numbers and words -/

/-- The characters besides white space that can follow a number or a word. -/
def delimiters : List Char := [',', '}', ']']

/-- A number or a word can end at this offset. -/
def Delimited (t : Text) (i : Nat) : Prop :=
  ∀ c, t[i]? = some c → Text.isSpace c = true ∨ c ∈ delimiters

theorem Delimited.testAt {t : Text} {i : Nat} (h : Delimited t i) {test : Char → Bool}
    (hspace : ∀ c, test c = true → Text.isSpace c = false)
    (htest : ∀ c ∈ delimiters, test c = false) :
    t.testAt i test = false := by
  unfold Text.testAt
  cases hc : t[i]? with
  | none => rfl
  | some c =>
    rcases h c hc with hc | hc
    · refine Bool.eq_false_iff.mpr fun hpass => ?_
      rw [hspace c hpass] at hc
      cases hc
    · exact htest c hc

theorem isSpace_of_beq {c d : Char} (hd : Text.isSpace d = false) (h : (c == d) = true) :
    Text.isSpace c = false := by
  rw [beq_iff_eq.mp h]
  exact hd

theorem isSpace_of_contains (cs : List Char) (hcs : ∀ d ∈ cs, Text.isSpace d = false) (c : Char)
    (h : cs.contains c = true) : Text.isSpace c = false :=
  hcs c (List.contains_iff_mem.mp h)

section Number

variable {t : Text} {i : Nat}

theorem testAt_of_standsAt {cs : List Char} (h : t.standsAt i cs = true) {test : Char → Bool}
    (hcs : ∀ c ∈ cs, test c = true) (x : Nat) (hi : i ≤ x) (hx : x < i + cs.length) :
    t.testAt x test = true := by
  obtain ⟨k, rfl⟩ := Nat.exists_eq_add_of_le hi
  have hget := Text.getElem?_of_standsAt h (k := k) (by omega)
  rw [List.getElem?_eq_getElem (by omega)] at hget
  rw [Text.testAt_of_getElem? hget]
  exact hcs _ (List.getElem_mem _)

theorem takes_digits {cs : List Char} (hcs : Decimals cs) (h : t.standsAt i cs = true)
    (hsize : i + cs.length ≤ t.size) (hend : t.testAt (i + cs.length) Text.isDecimal = false) :
    Takes t t.size (some1 Text.isDecimal) i (i + cs.length) := by
  have hdecimal := testAt_of_standsAt h hcs.2
  have hlength : 0 < cs.length := List.length_pos_iff.mpr hcs.1
  refine (takes_one (by omega) (hdecimal i (Nat.le_refl i) (by omega))).seq ?_
  exact takes_span (by omega) hsize (fun x hx => hdecimal x (by omega)) hend

theorem takes_sign {sign : List Char} (hsign : sign ∈ [[], ['-']]) (h : t.standsAt i sign = true)
    (hnext : t.testAt (i + sign.length) (· == '-') = false) :
    Takes t t.size (.optional (.char '-')) i (i + sign.length) := by
  simp only [List.mem_cons, List.not_mem_nil, or_false] at hsign
  rcases hsign with rfl | rfl
  · exact (fails_one hnext).takes_optional
  · have hc := (Text.standsAt_cons.mp h).1
    exact (takes_one (Text.lt_size_of_getElem? hc) (Text.hasAt_iff.mpr hc)).either_left

theorem takes_whole {whole : List Char} (hwhole : IntegerPart whole) (h : t.standsAt i whole = true)
    (hsize : i + whole.length ≤ t.size)
    (hend : t.testAt (i + whole.length) Text.isDecimal = false) :
    Takes t t.size (.either (.char '0')
      (.seq (.one fun c => '1' ≤ c && c ≤ '9') (.span Text.isDecimal))) i (i + whole.length) := by
  cases hwhole with
  | zero => exact (takes_one hsize (Text.hasAt_iff.mpr (Text.standsAt_cons.mp h).1)).either_left
  | leading hlead hcs =>
    rename_i c cs
    have hall : ∀ c ∈ leadingDigits, (c == '0') = false ∧ ('1' ≤ c && c ≤ '9') = true := by decide
    obtain ⟨hc, hrest⟩ := Text.standsAt_cons.mp h
    rw [List.length_cons] at hsize hend ⊢
    have hdecimal := testAt_of_standsAt hrest hcs
    refine Fails.either_right (fails_one (by rw [Text.testAt_of_getElem? hc, (hall c hlead).1])) ?_
    refine (takes_one (by omega) (by rw [Text.testAt_of_getElem? hc, (hall c hlead).2])).seq ?_
    exact takes_span (by omega) hsize (fun x hx hx' => hdecimal x hx (by omega)) hend

theorem takes_fraction {fraction : List Char} (hfraction : FractionPart fraction)
    (h : t.standsAt i fraction = true) (hsize : i + fraction.length ≤ t.size)
    (hpoint : t.testAt (i + fraction.length) (· == '.') = false)
    (hend : t.testAt (i + fraction.length) Text.isDecimal = false) :
    Takes t t.size (.optional (.seq (.char '.') (some1 Text.isDecimal))) i
      (i + fraction.length) := by
  cases hfraction with
  | none => exact ((fails_one hpoint).seq _).takes_optional
  | point hdigits =>
    obtain ⟨hc, hrest⟩ := Text.standsAt_cons.mp h
    rw [List.length_cons, ← Nat.add_assoc, Nat.add_right_comm] at hsize hend ⊢
    have hpoint := takes_one (Text.lt_size_of_getElem? hc) (Text.hasAt_iff.mpr hc)
    exact (hpoint.seq (takes_digits hdigits hrest hsize hend)).either_left

theorem isDecimal_of_sign {c : Char} (h : "+-".toList.contains c = true) : Text.isDecimal c = false := by
  have hall : ∀ c ∈ "+-".toList, Text.isDecimal c = false := by decide
  exact hall c (List.contains_iff_mem.mp h)

theorem takes_exponent {exponent : List Char} (hexponent : ExponentPart exponent)
    (h : t.standsAt i exponent = true) (hsize : i + exponent.length ≤ t.size)
    (hend : Delimited t (i + exponent.length)) :
    Takes t t.size (.optional (.all [.oneOf "eE", .optional (.oneOf "+-"), some1 Text.isDecimal])) i
      (i + exponent.length) := by
  cases hexponent with
  | none =>
    have hnone := hend.testAt (isSpace_of_contains "eE".toList (by decide)) (by decide)
    exact ((fails_one hnone).seq _).takes_optional
  | signed hmark hsign hdigits =>
    rename_i mark sign cs
    have hmarks : ∀ c ∈ ['e', 'E'], "eE".toList.contains c = true := by decide
    have hsigns : ∀ s ∈ [[], ['+'], ['-']], ∀ c ∈ s, "+-".toList.contains c = true := by decide
    have hsignLength : ∀ s ∈ [([] : List Char), ['+'], ['-']], s = [] ∨ s.length = 1 := by decide
    rw [List.cons_append, Text.standsAt_cons, Text.standsAt_append] at h
    obtain ⟨hc, hsignStands, hrest⟩ := h
    rw [List.length_append, List.length_cons,
      show i + (sign.length + 1 + cs.length) = i + 1 + sign.length + cs.length by omega]
      at hsize hend ⊢
    have hfirst : Takes t t.size (.oneOf "eE") i (i + 1) :=
      takes_one (Text.lt_size_of_getElem? hc) (by
        rw [Text.testAt_of_getElem? hc]
        exact hmarks mark hmark)
    -- the sign is there, or a digit stands in its place
    have hsecond : Takes t t.size (.optional (.oneOf "+-")) (i + 1) (i + 1 + sign.length) := by
      rcases hsignLength sign hsign with rfl | hlength
      · obtain ⟨d, rest, rfl⟩ := List.exists_cons_of_ne_nil hdigits.1
        have hd : t[i + 1]? = some d := (Text.standsAt_cons.mp hrest).1
        refine (fails_one ?_).takes_optional
        rw [Text.testAt_of_getElem? hd, Bool.eq_false_iff]
        intro hsign
        have hdecimal := hdigits.2 d List.mem_cons_self
        rw [isDecimal_of_sign hsign] at hdecimal
        cases hdecimal
      · rw [hlength] at hsize ⊢
        refine (takes_one (by omega) ?_).either_left
        exact testAt_of_standsAt hsignStands (hsigns sign hsign) (i + 1) (Nat.le_refl _) (by omega)
    have hthird := takes_digits hdigits hrest hsize
      (hend.testAt (fun _ => Text.isSpace_of_isDecimal) (by decide))
    exact (hfirst.seq (hsecond.seq hthird)).either_left

/-- What stands at the end of a part of a number is the next part or a delimiter. -/
theorem testAt_next {cs : List Char} (h : t.standsAt i cs = true)
    (hend : Delimited t (i + cs.length)) {test : Char → Bool}
    (hhead : ∀ c, cs.head? = some c → test c = false)
    (hspace : ∀ c, test c = true → Text.isSpace c = false)
    (htest : ∀ c ∈ delimiters, test c = false) :
    t.testAt i test = false := by
  cases cs with
  | nil => exact Delimited.testAt hend hspace htest
  | cons c rest =>
    rw [Text.testAt_of_getElem? (Text.standsAt_cons.mp h).1]
    exact hhead c rfl

theorem ExponentPart.head {cs : List Char} (h : ExponentPart cs) :
    ∀ c, cs.head? = some c → c ∈ ['e', 'E'] := by
  cases h with
  | none => exact fun c h => by cases h
  | signed hc _ _ =>
    intro c h
    cases h
    exact hc

theorem FractionPart.head {cs ds : List Char} (h : FractionPart cs) (hds : ExponentPart ds) :
    ∀ c, (cs ++ ds).head? = some c → c ∈ ['.', 'e', 'E'] := by
  cases h with
  | none => exact fun c hc => List.mem_cons_of_mem '.' (hds.head c hc)
  | point _ =>
    intro c h
    cases h
    exact List.mem_cons_self

/-- A number is taken up to the delimiter after it. -/
theorem takes_number {cs : List Char} (hcs : Numeral cs) (h : t.standsAt i cs = true)
    (hsize : i + cs.length ≤ t.size) (hend : Delimited t (i + cs.length)) :
    Takes t t.size number i (i + cs.length) := by
  obtain ⟨hsign, hwhole, hfraction, hexponent⟩ := hcs
  rename_i sign whole fraction exponent
  have hlength : i + (sign ++ (whole ++ (fraction ++ exponent))).length =
      i + sign.length + whole.length + fraction.length + exponent.length := by
    simp only [List.length_append]
    omega
  rw [hlength] at hsize hend ⊢
  obtain ⟨hstandsSign, h⟩ := Text.standsAt_append.mp h
  obtain ⟨hstandsWhole, h⟩ := Text.standsAt_append.mp h
  obtain ⟨hstandsFraction, hstandsExponent⟩ := Text.standsAt_append.mp h
  have hend' : Delimited t (i + sign.length + whole.length + (fraction ++ exponent).length) := by
    rwa [List.length_append, ← Nat.add_assoc]
  have hpoint (c : Char) : (c == '.') = true → Text.isSpace c = false := isSpace_of_beq (by decide)
  have hdecimal (c : Char) : Text.isDecimal c = true → Text.isSpace c = false := Text.isSpace_of_isDecimal
  have hfirst := takes_sign hsign hstandsSign (by
    obtain ⟨c, rest, rfl⟩ := List.exists_cons_of_ne_nil hwhole.decimals.1
    rw [Text.testAt_of_getElem? (Text.standsAt_cons.mp hstandsWhole).1, beq_eq_false_iff_ne]
    rintro rfl
    exact absurd (hwhole.decimals.2 '-' List.mem_cons_self) (by decide))
  have hsecond := takes_whole hwhole hstandsWhole (by omega) (by
    have hall : ∀ c ∈ ['.', 'e', 'E'], Text.isDecimal c = false := by decide
    exact testAt_next h hend' (fun c hc => hall c (hfraction.head hexponent c hc)) hdecimal (by decide))
  have hthird := takes_fraction hfraction hstandsFraction (by omega) (by
      have hall : ∀ c ∈ ['e', 'E'], (c == '.') = false := by decide
      exact testAt_next hstandsExponent hend (fun c hc => hall c (hexponent.head c hc)) hpoint (by decide))
    (by
      have hall : ∀ c ∈ ['e', 'E'], Text.isDecimal c = false := by decide
      exact testAt_next hstandsExponent hend (fun c hc => hall c (hexponent.head c hc)) hdecimal
        (by decide))
  have hfourth := takes_exponent hexponent hstandsExponent hsize hend
  exact hfirst.seq (hsecond.seq (hthird.seq hfourth))

end Number

/-! ## Where a scalar ends -/

/-- A letter starts no number. -/
theorem fails_number {t : Text} {i : Nat} {c : Char} (hc : t[i]? = some c)
    (h : c ∈ ['t', 'f', 'n']) : Fails t t.size number i := by
  have hall : ∀ c ∈ ['t', 'f', 'n'],
      (c == '-') = false ∧ (c == '0') = false ∧ ('1' ≤ c && c ≤ '9') = false := by decide
  obtain ⟨h1, h2, h3⟩ := hall c h
  refine Fails.optional_seq (fails_one ?_) (Fails.seq (Fails.either (fails_one ?_)
    (Fails.seq (fails_one ?_) _)) _)
  all_goals
    rw [Text.testAt_of_getElem? hc]
    assumption

/-- A word is taken to its end. -/
theorem takes_word {t : Text} {i : Nat} {cs : List Char} (hcs : cs ∈ words)
    (h : t.standsAt i cs = true) (hsize : i + cs.length ≤ t.size) :
    Takes t t.size word i (i + cs.length) := by
  have hchoice : word = .either (.chars ['t', 'r', 'u', 'e'])
      (.either (.chars ['f', 'a', 'l', 's', 'e']) (.chars ['n', 'u', 'l', 'l'])) := rfl
  have hhead : ∀ {c : Char} {rest : List Char}, t.standsAt i (c :: rest) = true → t[i]? = some c :=
    fun h => (Text.standsAt_cons.mp h).1
  rw [hchoice]
  simp only [words, List.mem_cons, List.not_mem_nil, or_false] at hcs
  rcases hcs with rfl | rfl | rfl
  · exact (takes_chars (by decide) h hsize).either_left
  · exact (fails_chars _ (hhead h) (by decide)).either_right
      (takes_chars (by decide) h hsize).either_left
  · exact (fails_chars _ (hhead h) (by decide)).either_right
      ((fails_chars _ (hhead h) (by decide)).either_right (takes_chars (by decide) h hsize))

/-- A string is read up to its closing quote. -/
theorem stringStop_eq {s : Scanned} {i : Nat} {w : List Char} (hquote : '"' ∉ w) (hline : '\n' ∉ w)
    (h : s.masked.standsAt i ('"' :: w ++ ['"']) = true) : stringStop s i = .ok (i + w.length + 2) := by
  rw [List.cons_append, Text.standsAt_cons, Text.standsAt_append, Text.standsAt_cons] at h
  obtain ⟨hopen, hinside, hclose, -⟩ := h
  have hfind : s.masked.find? ['"'] (i + 1) = some (i + 1 + w.length) := by
    refine Text.find?_of_first (by omega) (Text.lt_size_of_getElem? hclose)
      (Text.standsAt_one.mpr hclose) fun k hk hk' => ?_
    obtain ⟨l, rfl⟩ := Nat.exists_eq_add_of_le hk
    have hget := Text.getElem?_of_standsAt hinside (k := l) (by omega)
    rw [Bool.eq_false_iff, Ne, Text.standsAt_one, hget]
    exact fun hmem => hquote (List.mem_of_getElem? hmem)
  have hslice : s.masked.slice i (i + 1 + w.length) = '"' :: w := by
    have hstands : s.masked.standsAt i ('"' :: w) = true := Text.standsAt_cons.mpr ⟨hopen, hinside⟩
    have hcut := Text.slice_of_standsAt hstands
    rwa [List.length_cons, show i + (w.length + 1) = i + 1 + w.length by omega] at hcut
  have hfeed : (s.masked.slice i (i + 1 + w.length)).contains '\n' = false := by
    rw [hslice]
    simp [hline]
  simp only [stringStop, hfind, hfeed, Bool.false_eq_true, if_false]
  congr 1
  omega

/-- A string of which nothing but filler is left is read up to its closing quote. -/
theorem stringStop_filler {s : Scanned} {i n : Nat}
    (h : s.masked.standsAt i ('"' :: List.replicate n '_' ++ ['"']) = true) :
    stringStop s i = .ok (i + n + 2) := by
  rw [stringStop_eq (by simp) (by simp) h, List.length_replicate]

/-- A number or a word is read to its end. -/
theorem plainStop_eq {s : Scanned} {i : Nat} {cs : List Char} (hplain : Plain cs)
    (h : s.masked.standsAt i cs = true) (hend : Delimited s.masked (i + cs.length)) :
    plainStop s i = .ok (i + cs.length) := by
  have hsize : i + cs.length ≤ s.masked.size := by
    obtain ⟨c, rest, rfl⟩ := List.exists_cons_of_ne_nil hplain.chars.1
    exact Text.le_size_of_standsAt h
      (Nat.le_of_lt (Text.lt_size_of_getElem? (Text.standsAt_cons.mp h).1))
  unfold plainStop
  rcases hplain with hnumber | hword
  · rw [(takes_number hnumber h hsize hend).matchAt?]
    rfl
  · have hheads : ∀ cs ∈ words, cs ≠ [] ∧ cs.headD ' ' ∈ ['t', 'f', 'n'] := by decide
    obtain ⟨hne, hc⟩ := hheads cs hword
    obtain ⟨c, rest, rfl⟩ := List.exists_cons_of_ne_nil hne
    rw [(fails_number (Text.standsAt_cons.mp h).1 hc).matchAt?, (takes_word hword h hsize).matchAt?]
    rfl

/-! ## Scalars of the interchange format -/

theorem Digits.decimals {cs : List Char} (h : Digits cs) : Decimals cs := by
  have hall : ∀ c ∈ digits, Text.isDecimal c = true := by decide
  exact ⟨h.1, fun c hc => hall c (h.2 c hc)⟩

theorem Whole.integerPart {cs : List Char} (h : Whole cs) : IntegerPart cs := by
  have hall : ∀ c ∈ Json.digits, Text.isDecimal c = true := by decide
  cases h with
  | zero => exact .zero
  | leading hc hcs => exact .leading hc fun d hd => hall d (hcs d hd)

theorem Fraction.fractionPart {cs : List Char} (h : Fraction cs) : FractionPart cs := by
  cases h with
  | none => exact .none
  | point hdigits => exact .point hdigits.decimals

theorem Exponent.exponentPart {cs : List Char} (h : Exponent cs) : ExponentPart cs := by
  cases h with
  | none => exact .none
  | signed hc hsign hdigits => exact .signed hc hsign hdigits.decimals

/-- A bare scalar is a number or a word. -/
theorem Scalar.plain {cs : List Char} (h : Scalar cs) (hbare : Bare cs) : Plain cs := by
  cases h with
  | string _ => exact absurd (hbare.2 '"' List.mem_cons_self) (by decide)
  | number hsign hwhole hfraction hexponent =>
    exact .inl ⟨hsign, hwhole.integerPart, hfraction.fractionPart, hexponent.exponentPart⟩
  | word hword => exact .inr hword

end Json

end MemberOrder
