/-
  Every text of the grammar is read as what it spells.

  A text is `Readable` as an entry when, wherever it stands, the reader takes exactly it and the member
  it makes of it stands for the entry. Rows of readable texts are read item by item (`Row.reads`), so by
  induction on the spelling every spelled text is readable (`Spells.readable`), and a document is read
  as the entry it spells (`Document.read`).
-/
import MemberOrder.Proofs.Json.Recording
import MemberOrder.Proofs.Json.Scalars

namespace MemberOrder.Json

open Layout

/-! ## What the reader does -/

section Steps

variable {s : Scanned} {isObject : Bool} {close i keyStop fuel : Nat}
  {value : Nat → Except Fault Tree} {tree : Tree}

/-- One member and the rest, step by step. -/
theorem readMembers_succ (s : Scanned) (isObject : Bool) (close fuel i : Nat)
    (value : Nat → Except Fault Tree) (hlt : i < close) :
    readMembers s isObject close value (fuel + 1) i =
      (readLabel s isObject close i).bind fun (keyStop, valueAt) =>
        if close ≤ valueAt then .error (.missingValue, s.lineAt valueAt)
        else (value valueAt).bind fun tree =>
          let next := s.nextCode tree.stop close
          if next < close then
            if s.masked.hasAt next ',' then
              (readMembers s isObject close value fuel (s.nextCode (next + 1) close)).bind fun rest =>
                .ok ((⟨i, keyStop, some next⟩, tree) :: rest)
            else .error (.expectedComma (s.masked.getD next ' '), s.lineAt next)
          else .ok [(⟨i, keyStop, none⟩, tree)] := by
  rw [readMembers, if_pos hlt]
  cases isObject <;> rfl

theorem readMembers_last (hlt : i < close)
    (hlabel : readLabel s isObject close i = .ok (keyStop, tree.start)) (hstart : tree.start < close)
    (hvalue : value tree.start = .ok tree) (hnext : s.nextCode tree.stop close = close) :
    readMembers s isObject close value (fuel + 1) i = .ok [(⟨i, keyStop, none⟩, tree)] := by
  simp only [readMembers_succ s isObject close fuel i value hlt, hlabel, Except.bind,
    if_neg (Nat.not_le.mpr hstart), hvalue, hnext, Nat.lt_irrefl, if_false]

theorem readMembers_more {next : Nat} {rest : List (Slot × Tree)} (hlt : i < close)
    (hlabel : readLabel s isObject close i = .ok (keyStop, tree.start)) (hstart : tree.start < close)
    (hvalue : value tree.start = .ok tree) (hnext : s.nextCode tree.stop close = next)
    (hnextLt : next < close) (hcomma : s.masked[next]? = some ',')
    (hrest : readMembers s isObject close value fuel (s.nextCode (next + 1) close) = .ok rest) :
    readMembers s isObject close value (fuel + 1) i =
      .ok ((⟨i, keyStop, some next⟩, tree) :: rest) := by
  simp only [readMembers_succ s isObject close fuel i value hlt, hlabel, Except.bind,
    if_neg (Nat.not_le.mpr hstart), hvalue, hnext, hnextLt, if_true, Text.hasAt_iff.mpr hcomma, hrest]

theorem readMembers_end (value : Nat → Except Fault Tree) (fuel : Nat) :
    readMembers s isObject close value fuel close = .ok [] := by
  cases fuel with
  | zero => rfl
  | succ fuel => rw [readMembers, if_neg (Nat.lt_irrefl close)]

theorem unitStart_memberAt (index : Nat) (slot : Slot) (tree : Tree) :
    (memberAt s isObject index (slot, tree)).unitStart = slot.start := by
  cases tree <;> rfl

theorem unitStop_memberAt (index : Nat) (slot : Slot) (tree : Tree) :
    (memberAt s isObject index (slot, tree)).unitStop = pastSeparator tree.stop slot.comma := by
  obtain ⟨start, keyStop, comma⟩ := slot
  cases tree <;> cases comma <;> rfl

theorem separator_memberAt (index : Nat) (slot : Slot) (tree : Tree) :
    (memberAt s isObject index (slot, tree)).info.separator =
      if slot.comma.isSome then "," else "" := by
  cases tree <;> rfl

end Steps

/-! ## Labels -/

theorem Masked.head?_eq {cs ms : List Char} (h : Masked cs ms) : ms.head? = cs.head? := by
  cases h <;> rfl

theorem Blank.spaces {cs : List Char} (h : Blank cs) : ∀ c ∈ cs, Text.isSpace c = true :=
  fun c hc => isSpace_of_blank (h c hc)

theorem Blank.balanced {cs : List Char} (h : Blank cs) : Balanced cs := by
  have hall : ∀ c ∈ blanks, NoBracket c := by decide
  exact balanced_of_noBracket fun c hc => hall c (h c hc)

theorem balanced_quoted (n : Nat) : Balanced ('"' :: List.replicate n '_' ++ ['"']) := by
  refine balanced_of_noBracket fun c hc => ?_
  rcases List.mem_append.mp hc with hc | hc
  · rcases List.mem_cons.mp hc with rfl | hc
    · decide
    · rw [(List.mem_replicate.mp hc).2]
      decide
  · rw [List.mem_singleton.mp hc]
    decide

/-- A text that starts with code. -/
def StartsCode (ms : List Char) : Prop := ∃ c, ms.head? = some c ∧ Text.isSpace c = false

theorem StartsCode.testAt {ms : List Char} (h : StartsCode ms) {t : Text} {i : Nat}
    (hstands : t.standsAt i ms = true) : i < t.size ∧ t.testAt i Text.isSpace = false := by
  obtain ⟨c, hhead, hc⟩ := h
  cases ms with
  | nil => cases hhead
  | cons d rest =>
    cases hhead
    have hget := (Text.standsAt_cons.mp hstands).1
    exact ⟨Text.lt_size_of_getElem? hget, by rw [Text.testAt_of_getElem? hget, hc]⟩

/-- What the reader does with a label before a value. -/
def ReadsLabel (inObject : Bool) (key label ms : List Char) : Prop :=
  ∀ ⦃s : Scanned⦄ ⦃a close : Nat⦄ ⦃value : List Char⦄, StartsCode value →
    s.masked.standsAt a (ms ++ value) = true → a + label.length < close →
    ∃ keyStop, readLabel s inObject close a = .ok (keyStop, a + label.length) ∧
      (inObject = true → keyStop = a + key.length + 2)

/-- Every label is read to its end. -/
theorem Label.reads {inObject : Bool} {key label : List Char} (h : Label inObject key label) :
    ∃ ms, Masked label ms ∧ Balanced ms ∧ ReadsLabel inObject key label ms ∧
      (ms = [] ∨ StartsCode ms) := by
  cases h with
  | element =>
    exact ⟨[], .nil, balanced_nil, fun s a close value _ _ _ => ⟨a, rfl, fun h => by cases h⟩,
      Or.inl rfl⟩
  | member hkey ha hb =>
    rename_i a b
    let quoted := '"' :: List.replicate key.length '_' ++ ['"']
    refine ⟨quoted ++ (a ++ (':' :: b)), ?_, ?_, ?_, Or.inr ⟨'"', rfl, by decide⟩⟩
    · have hlabel : '"' :: key ++ '"' :: a ++ ':' :: b =
          ('"' :: key ++ ['"']) ++ (a ++ (':' :: b)) := by simp
      rw [hlabel]
      exact (masked_quoted hkey).append ((masked_of_blank ha).append
        (.code (by decide) (by decide) (masked_of_blank hb)))
    · exact (balanced_quoted _).append (ha.balanced.append
        ((show Balanced [':'] from balanced_of_noBracket (by decide)).append hb.balanced))
    · intro s p close value hvalue hstands hclose
      have hlength : quoted.length = key.length + 2 := by simp [quoted]
      simp only [List.append_assoc, List.cons_append, List.length_append, List.length_cons]
        at hstands hclose ⊢
      obtain ⟨hquoted, hstands⟩ := Text.standsAt_append.mp hstands
      obtain ⟨hblanks, hstands⟩ := Text.standsAt_append.mp hstands
      obtain ⟨hcolon, hstands⟩ := Text.standsAt_cons.mp hstands
      obtain ⟨hblanks', hstands⟩ := Text.standsAt_append.mp hstands
      rw [hlength, ← Nat.add_assoc] at hblanks hcolon hblanks' hstands
      have hopen : s.masked.hasAt p '"' = true :=
        Text.hasAt_iff.mpr (Text.standsAt_cons.mp hquoted).1
      have hcode : s.masked.testAt (p + key.length + 2 + a.length) Text.isSpace = false := by
        rw [Text.testAt_of_getElem? hcolon]
        decide
      have hnext : s.nextCode (p + key.length + 2) close = p + key.length + 2 + a.length :=
        Text.nextCode_of_spaces hblanks ha.spaces (by omega) fun _ => hcode
      have hnext' : s.nextCode (p + key.length + 2 + a.length + 1) close =
          p + key.length + 2 + a.length + 1 + b.length :=
        Text.nextCode_of_spaces hblanks' hb.spaces (by omega) fun _ => (hvalue.testAt hstands).2
      refine ⟨p + key.length + 2, ?_, fun _ => rfl⟩
      simp only [readLabel, readKey, if_true, hopen, Bool.not_true, Bool.false_eq_true, if_false,
        stringStop_filler hquoted, bind, Except.bind, pure, Except.pure, hnext,
        Text.hasAt_iff.mpr hcolon, hnext']
      congr 2
      omega

/-! ## Readable texts -/

/-- What the reader does with the text `cs`, masked as `ms`, wherever it stands. -/
def Reads (trailing inObject : Bool) (e : Entry) (cs ms : List Char) : Prop :=
  ∀ ⦃s : Scanned⦄ ⦃x : Excerpt⦄ ⦃lo hi a close fuel : Nat⦄, Shows x s.source lo hi → lo ≤ a →
    a + cs.length ≤ hi → a + cs.length ≤ close → s.source.standsAt a cs = true →
    s.masked.standsAt a ms = true → Delimited s.masked (a + cs.length) → cs.length < fuel →
    ∃ keyStop tree, readLabel s inObject close a = .ok (keyStop, tree.start) ∧ tree.start < close ∧
      readValue s fuel tree.start = .ok tree ∧ tree.stop = a + cs.length ∧
      ∀ index comma, CommaAfter s.source (a + cs.length) hi comma →
        let m := memberAt s inObject index (⟨a, keyStop, comma⟩, tree)
        Read x trailing inObject m ∧ m.entry inObject = e

/-- A text that is read as an entry. -/
def Readable (trailing inObject : Bool) (e : Entry) (cs : List Char) : Prop :=
  ∃ ms, Masked cs ms ∧ Balanced ms ∧ StartsCode ms ∧ Reads trailing inObject e cs ms

theorem Solid.startsCode {cs ms : List Char} (h : Solid cs) (hmask : Masked cs ms) :
    StartsCode ms := by
  obtain ⟨c, -, hhead, -, hc, -⟩ := h
  exact ⟨c, hmask.head?_eq.trans hhead, hc⟩

/-- What does not start with a bracket is read as a scalar. -/
theorem readValue_scalar {s : Scanned} {a : Nat} (fuel : Nat) {c : Char} (hc : s.masked[a]? = some c)
    (hbrace : c ≠ '{') (hbracket : c ≠ '[') :
    readValue s (fuel + 1) a = if c = '"' then return .scalar a (← stringStop s a)
      else return .scalar a (← plainStop s a) := by
  simp [readValue, Text.hasAt, Text.testAt_of_getElem? hc, hbrace, hbracket]

/-- A scalar is read to its end. -/
theorem Scalar.reads {text : List Char} (h : Scalar text) :
    ∃ ms, Masked text ms ∧ Balanced ms ∧ ∀ (s : Scanned) (a fuel : Nat),
      s.masked.standsAt a ms = true → Delimited s.masked (a + text.length) →
      readValue s (fuel + 1) a = .ok (.scalar a (a + text.length)) := by
  obtain ⟨inside, hinside, rfl⟩ | hbare := h.cases_bare
  · refine ⟨_, masked_quoted hinside, balanced_quoted _, fun s a fuel hstands _ => ?_⟩
    have hquote := (Text.standsAt_cons.mp hstands).1
    rw [readValue_scalar fuel hquote (by decide) (by decide), if_pos rfl, stringStop_filler hstands]
    simp [bind, Except.bind, pure, Except.pure, Nat.add_assoc]
  · have hall : ∀ c ∈ bareChars, c ≠ '{' ∧ c ≠ '[' ∧ c ≠ '"' ∧ NoBracket c := by decide
    refine ⟨text, masked_of_bare hbare, balanced_of_noBracket fun c hc => (hall c (hbare.2 c hc)).2.2.2,
      fun s a fuel hstands hend => ?_⟩
    obtain ⟨c, rest, rfl⟩ := List.exists_cons_of_ne_nil hbare.1
    obtain ⟨h1, h2, h3, -⟩ := hall c (hbare.2 c List.mem_cons_self)
    rw [readValue_scalar fuel (Text.standsAt_cons.mp hstands).1 h1 h2, if_neg h3,
      plainStop_eq (h.plain hbare) hstands hend]
    rfl

/-! ## Rows -/

/-- What the reader does with a row of items between brackets. -/
def ReadsRow (trailing isObject : Bool) (es : List Entry) (body ms : List Char) : Prop :=
  ∀ ⦃s : Scanned⦄ ⦃x : Excerpt⦄ ⦃lo hi a fuel count : Nat⦄ (index : Nat), Shows x s.source lo hi →
    lo ≤ a → a + body.length ≤ hi → s.source.standsAt a body = true →
    s.masked.standsAt a ms = true → s.masked[a + body.length]? = some (closer isObject) →
    body.length < fuel → body.length ≤ count →
    ∃ slots, readMembers s isObject (a + body.length) (readValue s fuel) count
        (s.nextCode a (a + body.length)) = .ok slots ∧
      InRow x trailing a (a + body.length) (membersAt s isObject index slots) ∧
      (∀ m ∈ membersAt s isObject index slots, Read x trailing isObject m) ∧
      (membersAt s isObject index slots).map (Member.entry isObject) = es

theorem delimiter_closer (isObject : Bool) : closer isObject ∈ delimiters := by
  cases isObject <;> decide

/-- Blanks are followed by what follows them; a scalar can end before them. -/
theorem delimited_of_blank {t : Text} {i : Nat} {b : List Char} (hb : Blank b)
    (hstands : t.standsAt i b = true) {c : Char} (hc : t[i + b.length]? = some c)
    (hdelimiter : c ∈ delimiters) : Delimited t i := by
  intro d hd
  cases b with
  | nil =>
    obtain rfl : c = d := Option.some.inj (hc.symm.trans hd)
    exact .inr hdelimiter
  | cons e rest =>
    obtain rfl : e = d := Option.some.inj ((Text.standsAt_cons.mp hstands).1.symm.trans hd)
    exact .inl (isSpace_of_blank (hb e List.mem_cons_self))

theorem Commas.cons {trailing : Bool} {rest : List String} (h : Commas trailing rest)
    (hne : trailing = true ∨ rest ≠ []) : Commas trailing ("," :: rest) := by
  cases rest with
  | nil => exact Or.inr ⟨hne.resolve_right fun h => h rfl, rfl⟩
  | cons s rest => exact ⟨rfl, h⟩

/-- Between its blanks an item is read, and the reader goes on at what follows the blanks. -/
theorem Reads.step {trailing isObject : Bool} {e : Entry} {item ms a b : List Char}
    (h : Reads trailing isObject e item ms) (hcode : StartsCode ms) (hmask : Masked item ms)
    (ha : Blank a) (hb : Blank b) {s : Scanned} {x : Excerpt} {lo hi p close fuel : Nat}
    (hshows : Shows x s.source lo hi) (hlo : lo ≤ p)
    (hhi : p + (a ++ (item ++ b)).length ≤ hi) (hclose : p + (a ++ (item ++ b)).length ≤ close)
    (hsource : s.source.standsAt p (a ++ (item ++ b)) = true)
    (hmasked : s.masked.standsAt p (a ++ (ms ++ b)) = true) {c : Char}
    (hc : s.masked[p + (a ++ (item ++ b)).length]? = some c) (hdelimiter : c ∈ delimiters)
    (hcodeC : Text.isSpace c = false) (hfuel : (a ++ (item ++ b)).length < fuel) :
    ∃ keyStop tree, s.nextCode p close = p + a.length ∧
      p + a.length < p + (a ++ (item ++ b)).length ∧
      readLabel s isObject close (p + a.length) = .ok (keyStop, tree.start) ∧ tree.start < close ∧
      readValue s fuel tree.start = .ok tree ∧
      s.nextCode tree.stop close = p + (a ++ (item ++ b)).length ∧
      tree.stop = p + a.length + item.length ∧ x.slice p (p + a.length) = a ∧
      ∀ index comma, CommaAfter s.source tree.stop hi comma →
        let m := memberAt s isObject index (⟨p + a.length, keyStop, comma⟩, tree)
        Read x trailing isObject m ∧ m.entry isObject = e := by
  have hlength : (a ++ (item ++ b)).length = a.length + item.length + b.length := by
    simp only [List.length_append]
    omega
  rw [hlength] at hhi hclose hc hfuel ⊢
  obtain ⟨hsourceA, hsource⟩ := Text.standsAt_append.mp hsource
  obtain ⟨hmaskedA, hmasked⟩ := Text.standsAt_append.mp hmasked
  obtain ⟨hsourceItem, -⟩ := Text.standsAt_append.mp hsource
  obtain ⟨hmaskedItem, hmaskedB⟩ := Text.standsAt_append.mp hmasked
  rw [hmask.length_eq] at hmaskedB
  have hc' : s.masked[p + a.length + item.length + b.length]? = some c := by
    rwa [← Nat.add_assoc, ← Nat.add_assoc] at hc
  have hitem : 0 < item.length := by
    obtain ⟨d, hd, -⟩ := hcode
    rw [hmask.head?_eq] at hd
    cases item with
    | nil => cases hd
    | cons d rest => exact Nat.zero_lt_succ _
  obtain ⟨keyStop, tree, hlabel, hstart, hvalue, hstop, hread⟩ := h hshows
    (Nat.le_trans hlo (Nat.le_add_right p a.length)) (by omega) (show _ ≤ close by omega) hsourceItem
    hmaskedItem (delimited_of_blank hb hmaskedB hc' hdelimiter) (show _ < fuel by omega)
  refine ⟨keyStop, tree, ?_, by omega, hlabel, hstart, hvalue, ?_, hstop, ?_, ?_⟩
  · exact Text.nextCode_of_spaces hmaskedA ha.spaces (by omega) fun _ =>
      (hcode.testAt hmaskedItem).2
  · rw [hstop, show p + (a.length + item.length + b.length) =
      p + a.length + item.length + b.length by omega]
    refine Text.nextCode_of_spaces hmaskedB hb.spaces (by omega) fun _ => ?_
    rw [Text.testAt_of_getElem? hc', hcodeC]
  · rw [hshows _ _ hlo (by omega)]
    exact Text.slice_of_standsAt hsourceA
  · intro index comma hcomma
    rw [hstop] at hcomma
    exact hread index comma hcomma

theorem isSpace_closer (isObject : Bool) : Text.isSpace (closer isObject) = false := by
  cases isObject <;> decide

theorem readsRow_nil (trailing isObject : Bool) {a : List Char} (ha : Blank a) :
    ReadsRow trailing isObject [] a a := by
  intro s x lo hi p fuel count index hshows hlo hhi hsource hmasked _ _ _
  have hnext := Text.nextCode_of_spaces hmasked ha.spaces (Nat.le_refl _)
    fun h => absurd h (Nat.lt_irrefl _)
  refine ⟨[], ?_, ⟨?_, trivial⟩, fun _ h => absurd h List.not_mem_nil, rfl⟩
  · rw [Scanned.nextCode, hnext, readMembers_end]
  · intro gap hgap
    rw [membersAt, gapsFrom, List.mem_singleton, hshows _ _ hlo hhi,
      Text.slice_of_standsAt hsource] at hgap
    rwa [hgap]

section Steps

variable {trailing isObject : Bool} {e : Entry} {item ms a b : List Char}
  (h : Reads trailing isObject e item ms) (hcode : StartsCode ms) (hmask : Masked item ms)
  (ha : Blank a) (hb : Blank b)
include h hcode hmask ha hb

/-- The last item of a row, without a comma. -/
theorem Reads.row_last : ReadsRow trailing isObject [e] (a ++ (item ++ b)) (a ++ (ms ++ b)) := by
  intro s x lo hi p fuel count index hshows hlo hhi hsource hmasked hclose hfuel hcount
  obtain ⟨keyStop, tree, hnext, hlt, hlabel, hstart, hvalue, hnext', hstop, hgap, hread⟩ :=
    h.step hcode hmask ha hb hshows hlo hhi (Nat.le_refl _) hsource hmasked hclose
      (delimiter_closer isObject) (isSpace_closer isObject) hfuel
  obtain ⟨count, rfl⟩ := Nat.exists_eq_succ_of_ne_zero (show count ≠ 0 by omega)
  obtain ⟨hmember, hentry⟩ := hread index none fun p hp => by cases hp
  refine ⟨[(⟨p + a.length, keyStop, none⟩, tree)], ?_, ⟨?_, ?_⟩, ?_, ?_⟩
  · rw [hnext]
    exact readMembers_last hlt hlabel hstart hvalue hnext'
  · have hafter : x.slice tree.stop (p + (a ++ (item ++ b)).length) = b := by
      have hsourceB := (Text.standsAt_append.mp (Text.standsAt_append.mp hsource).2).2
      rw [hshows _ _ (by omega) hhi, hstop, List.length_append, List.length_append,
        ← Nat.add_assoc, ← Nat.add_assoc]
      exact Text.slice_of_standsAt hsourceB
    simp only [membersAt, gapsFrom, unitStart_memberAt, unitStop_memberAt, pastSeparator, hgap,
      hafter, List.forall_mem_cons, List.not_mem_nil, false_implies, implies_true, and_true]
    exact ⟨ha, hb⟩
  · simp only [membersAt, List.map_cons, List.map_nil, separator_memberAt]
    exact Or.inl rfl
  · intro m hm
    rw [List.mem_singleton.mp hm]
    exact hmember
  · simp only [membersAt, List.map_cons, List.map_nil, hentry]

/-- An item with a comma before the rest of a row. -/
theorem Reads.row_cons {es : List Entry} {body ms' : List Char}
    (hrest : ReadsRow trailing isObject es body ms') (hne : trailing = true ∨ es ≠ []) :
    ReadsRow trailing isObject (e :: es) (a ++ (item ++ b) ++ ',' :: body)
      (a ++ (ms ++ b) ++ ',' :: ms') := by
  intro s x lo hi p fuel count index hshows hlo hhi hsource hmasked hclose hfuel hcount
  obtain ⟨hsource, hsourceRest⟩ := Text.standsAt_append.mp hsource
  obtain ⟨hmasked, hmaskedRest⟩ := Text.standsAt_append.mp hmasked
  have hfirst : Masked (a ++ (item ++ b)) (a ++ (ms ++ b)) :=
    (masked_of_blank ha).append (hmask.append (masked_of_blank hb))
  rw [hfirst.length_eq] at hmaskedRest
  obtain ⟨hcommaSource, hsourceRest⟩ := Text.standsAt_cons.mp hsourceRest
  obtain ⟨hcomma, hmaskedRest⟩ := Text.standsAt_cons.mp hmaskedRest
  -- the comma stands `n` characters after the start of the row
  generalize hfirstLength : (a ++ (item ++ b)).length = n at *
  have hsum : n = a.length + item.length + b.length := by
    simp only [← hfirstLength, List.length_append, Nat.add_assoc]
  have hlength : (a ++ (item ++ b) ++ ',' :: body).length = n + 1 + body.length := by
    rw [List.length_append, List.length_cons, hfirstLength]
    omega
  rw [hlength] at hhi hclose hfuel hcount ⊢
  have hoffset : p + (n + 1 + body.length) = p + n + 1 + body.length := by omega
  rw [hoffset] at hhi hclose ⊢
  obtain ⟨keyStop, tree, hnext, hlt, hlabel, hstart, hvalue, hnext', hstop, hgap, hread⟩ :=
    h.step hcode hmask ha hb hshows hlo (show _ ≤ hi by omega)
      (show _ ≤ p + n + 1 + body.length by omega) hsource hmasked (by rw [hfirstLength]; exact hcomma)
      (by decide) (by decide) (show _ < fuel by omega)
  rw [hfirstLength] at hlt hnext'
  obtain ⟨count, rfl⟩ := Nat.exists_eq_succ_of_ne_zero (show count ≠ 0 by omega)
  obtain ⟨slots, hslots, hrowRest, hreadRest, hentries⟩ := hrest (index + 1) hshows
    (show lo ≤ p + n + 1 by omega) (show _ ≤ hi by omega) hsourceRest hmaskedRest hclose
    (show _ < fuel by omega) (show body.length ≤ count by omega)
  have hafter : s.source.slice tree.stop (p + n + 1) = b ++ [','] := by
    have hsourceB := (Text.standsAt_append.mp (Text.standsAt_append.mp hsource).2).2
    rw [← hstop] at hsourceB
    have hend : tree.stop + b.length = p + n := by omega
    rw [← hend]
    exact Text.slice_succ_of_standsAt hsourceB (hend ▸ hcommaSource)
  obtain ⟨hmember, hentry⟩ := hread index (some (p + n)) fun q hq => by
    cases hq
    exact ⟨by omega, b, hb, hafter⟩
  refine ⟨(⟨p + a.length, keyStop, some (p + n)⟩, tree) :: slots, ?_, ⟨?_, ?_⟩, ?_, ?_⟩
  · rw [hnext]
    exact readMembers_more (by omega) hlabel hstart hvalue hnext' (by omega) hcomma hslots
  · simp only [membersAt, gapsFrom, unitStart_memberAt, unitStop_memberAt, pastSeparator, hgap,
      List.forall_mem_cons]
    exact ⟨ha, hrowRest.gaps⟩
  · simp only [membersAt, List.map_cons, separator_memberAt]
    refine hrowRest.commas.cons (hne.imp_right fun hne hnil => hne ?_)
    rw [← hentries, List.map_eq_nil_iff.mp hnil, List.map_nil]
  · intro m hm
    rcases List.mem_cons.mp hm with rfl | hm
    · exact hmember
    · exact hreadRest m hm
  · simp only [membersAt, List.map_cons, hentry, hentries]

end Steps

/-- A row of readable texts is read item by item. -/
theorem Row.reads {trailing isObject : Bool} {texts : List (List Char)} {body : List Char}
    (h : Row trailing texts body) {items : List (Entry × List Char)} (htexts : items.map (·.2) = texts)
    (hitems : ∀ x ∈ items, Readable trailing isObject x.1 x.2) :
    ∃ ms, Masked body ms ∧ Balanced ms ∧
      ReadsRow trailing isObject (items.map (·.1)) body ms := by
  induction h generalizing items with
  | nil ha =>
    obtain rfl : items = [] := List.map_eq_nil_iff.mp htexts
    exact ⟨_, masked_of_blank ha, ha.balanced, readsRow_nil trailing isObject ha⟩
  | last ha hb =>
    rename_i a _ b
    obtain ⟨⟨e, item⟩, rest, rfl, rfl, hrest⟩ := List.map_eq_cons_iff.mp htexts
    obtain rfl : rest = [] := List.map_eq_nil_iff.mp hrest
    obtain ⟨ms, hmask, hbalanced, hcode, hreads⟩ := hitems (e, item) List.mem_cons_self
    exact ⟨a ++ (ms ++ b), (masked_of_blank ha).append (hmask.append (masked_of_blank hb)),
      ha.balanced.append (hbalanced.append hb.balanced), hreads.row_last hcode hmask ha hb⟩
  | cons ha hb hxs hrow ih =>
    rename_i a _ b body texts
    obtain ⟨⟨e, item⟩, rest, rfl, rfl, hrest⟩ := List.map_eq_cons_iff.mp htexts
    obtain ⟨ms, hmask, hbalanced, hcode, hreads⟩ := hitems (e, item) List.mem_cons_self
    obtain ⟨ms', hmask', hbalanced', hreads'⟩ := ih hrest
      fun x hx => hitems x (List.mem_cons_of_mem _ hx)
    have hassoc : a ++ (item ++ (b ++ ',' :: body)) = (a ++ (item ++ b)) ++ (',' :: body) := by simp
    rw [hassoc]
    refine ⟨(a ++ (ms ++ b)) ++ (',' :: ms'), ?_, ?_, ?_⟩
    · exact ((masked_of_blank ha).append (hmask.append (masked_of_blank hb))).append
        (.code (by decide) (by decide) hmask')
    · exact (ha.balanced.append (hbalanced.append hb.balanced)).append
        ((show Balanced [','] from balanced_of_noBracket (by decide)).append hbalanced')
    · refine hreads.row_cons hcode hmask ha hb hreads' (hxs.imp_right fun hne hnil => hne ?_)
      rw [← hrest, List.map_eq_nil_iff.mp hnil, List.map_nil]

/-! ## Entries -/

theorem readValue_container {s : Scanned} {isObject : Bool} {fuel i close : Nat}
    {slots : List (Slot × Tree)} (hopen : s.masked[i]? = some (opener isObject))
    (hclose : Brackets.close? Brackets.data s.masked i = some close)
    (hslots : readMembers s isObject close (readValue s fuel) (close - i)
      (s.nextCode (i + 1) close) = .ok slots) :
    readValue s (fuel + 1) i = .ok (.container isObject i (close + 1) slots) := by
  have hbrace : s.masked.hasAt i '{' = isObject := by
    rw [Text.hasAt, Text.testAt_of_getElem? hopen]
    cases isObject <;> rfl
  have hbracket : (s.masked.hasAt i '{' || s.masked.hasAt i '[') = true := by
    rw [hbrace, Text.hasAt, Text.testAt_of_getElem? hopen]
    cases isObject <;> rfl
  rw [readValue, if_pos hbracket, hclose]
  simp only [hbrace, hslots, bind, Except.bind]
  rfl

/-- A container is read from its opening bracket to its closing one. -/
theorem ReadsRow.readValue {trailing isObject : Bool} {es : List Entry} {body ms : List Char}
    (h : ReadsRow trailing isObject es body ms) (hmask : Masked body ms) (hbalanced : Balanced ms)
    {s : Scanned} {x : Excerpt} {lo hi p fuel : Nat} (hshows : Shows x s.source lo hi) (hlo : lo ≤ p)
    (hhi : p + 1 + body.length + 1 ≤ hi)
    (hsource : s.source.standsAt p (opener isObject :: body ++ [closer isObject]) = true)
    (hmasked : s.masked.standsAt p (opener isObject :: ms ++ [closer isObject]) = true)
    (hfuel : body.length < fuel) :
    ∃ slots, readValue s (fuel + 1) p = .ok (.container isObject p (p + 1 + body.length + 1) slots) ∧
      InRow x trailing (p + 1) (p + 1 + body.length) (membersAt s isObject 0 slots) ∧
      (∀ m ∈ membersAt s isObject 0 slots, Read x trailing isObject m) ∧
      (membersAt s isObject 0 slots).map (Member.entry isObject) = es := by
  have hcloseAt := close?_bracketed hbalanced isObject hmasked
  simp only [List.cons_append, Text.standsAt_cons, Text.standsAt_append] at hsource hmasked
  obtain ⟨hopen, hmaskedBody, hcloses, -⟩ := hmasked
  obtain ⟨-, hsourceBody, -, -⟩ := hsource
  rw [hmask.length_eq] at hcloses hcloseAt
  obtain ⟨slots, hslots, hrow, hchildren, hentries⟩ := h 0 hshows
    (Nat.le_trans hlo (Nat.le_succ p)) (Nat.le_trans (Nat.le_succ _) hhi) hsourceBody hmaskedBody
    hcloses hfuel (show body.length ≤ p + 1 + body.length - p by omega)
  exact ⟨slots, readValue_container hopen hcloseAt hslots, hrow, hchildren, hentries⟩

theorem scalar_readable (trailing : Bool) {inObject : Bool} {key label text : List Char}
    (hlabel : Label inObject key label) (htext : Scalar text) :
    Readable trailing inObject (.scalar key text) (label ++ text) := by
  obtain ⟨ms, hmask, hbalanced, hreadsLabel, -⟩ := hlabel.reads
  obtain ⟨ms', hmask', hbalanced', hreads⟩ := htext.reads
  have hcode := htext.solid.startsCode hmask'
  have hmasked := hmask.append hmask'
  refine ⟨ms ++ ms', hmasked, hbalanced.append hbalanced',
    (hlabel.solid htext.solid).startsCode hmasked, ?_⟩
  intro s x lo hi a close fuel hshows hlo hhi hclose hsource hmasked hend hfuel
  have htext0 : 0 < text.length := by
    obtain ⟨c, -, hhead, -⟩ := htext.solid
    cases text with
    | nil => cases hhead
    | cons c rest => exact Nat.zero_lt_succ _
  have hlength : (label ++ text).length = label.length + text.length := List.length_append
  obtain ⟨keyStop, hread, hkey⟩ := hreadsLabel hcode hmasked (show _ < close by omega)
  obtain ⟨fuel, rfl⟩ := Nat.exists_eq_succ_of_ne_zero (show fuel ≠ 0 by omega)
  have hstandsText := (Text.standsAt_append.mp hmasked).2
  rw [hmask.length_eq] at hstandsText
  have hvalue := hreads s (a + label.length) fuel hstandsText (by
    rwa [Nat.add_assoc, ← hlength])
  rw [Nat.add_assoc, ← hlength] at hvalue
  refine ⟨keyStop, .scalar (a + label.length) (a + (label ++ text).length), hread,
    show a + label.length < close by omega, hvalue, rfl, fun index comma hcomma => ?_⟩
  obtain ⟨hrecorded, hkeyOf⟩ := memberInfo_recorded index
    (.scalar (a + label.length) (a + (label ++ text).length)) hshows hlo hhi hlabel hsource hkey rfl
    rfl hcomma
  refine ⟨.leaf hrecorded rfl htext, ?_⟩
  simp only [memberAt, Member.entry, hkeyOf, hrecorded.display]

theorem masked_bracketed (isObject : Bool) {body ms : List Char} (h : Masked body ms) :
    Masked (opener isObject :: body ++ [closer isObject])
      (opener isObject :: ms ++ [closer isObject]) := by
  have hopen : opener isObject ≠ '"' ∧ opener isObject ≠ '/' := by cases isObject <;> decide
  have hclose : closer isObject ≠ '"' ∧ closer isObject ≠ '/' := by cases isObject <;> decide
  exact .code hopen.1 hopen.2 (h.append (.code hclose.1 hclose.2 .nil))

theorem container_readable {trailing inObject isObject : Bool} {key label body ms : List Char}
    {es : List Entry} (hlabel : Label inObject key label) (hmask : Masked body ms)
    (hbalanced : Balanced ms) (hreads : ReadsRow trailing isObject es body ms)
    (hspells : Spells trailing false (.container [] isObject es)
      (opener isObject :: body ++ [closer isObject])) :
    Readable trailing inObject (.container key isObject es)
      (label ++ (opener isObject :: body ++ [closer isObject])) := by
  obtain ⟨labelMs, hmaskLabel, hbalancedLabel, hreadsLabel, -⟩ := hlabel.reads
  have hmaskValue := masked_bracketed isObject hmask
  have hmasked := hmaskLabel.append hmaskValue
  refine ⟨_, hmasked, hbalancedLabel.append (hbalanced.bracketed isObject),
    (hlabel.solid hspells.solid).startsCode hmasked, ?_⟩
  intro s x lo hi a close fuel hshows hlo hhi hclose hsource hmasked hend hfuel
  have hlength : (label ++ (opener isObject :: body ++ [closer isObject])).length =
      label.length + 1 + body.length + 1 := by
    simp only [List.length_append, List.length_cons, List.length_nil]
    omega
  obtain ⟨keyStop, hread, hkey⟩ := hreadsLabel (hspells.solid.startsCode hmaskValue) hmasked
    (show _ < close by omega)
  obtain ⟨fuel, rfl⟩ := Nat.exists_eq_succ_of_ne_zero (show fuel ≠ 0 by omega)
  obtain ⟨hsourceLabel, hsourceValue⟩ := Text.standsAt_append.mp hsource
  have hmaskedValue := (Text.standsAt_append.mp hmasked).2
  rw [hmaskLabel.length_eq] at hmaskedValue
  obtain ⟨slots, hvalue, hrow, hchildren, hentries⟩ := hreads.readValue hmask hbalanced hshows
    (show lo ≤ a + label.length by omega) (by omega) hsourceValue hmaskedValue
    (show body.length < fuel by omega)
  let tree : Tree := .container isObject (a + label.length) (a + label.length + 1 + body.length + 1)
    slots
  have hstop : tree.stop = a + (label ++ (opener isObject :: body ++ [closer isObject])).length := by
    rw [hlength]
    show a + label.length + 1 + body.length + 1 = _
    omega
  refine ⟨keyStop, tree, hread, show a + label.length < close by omega, hvalue, hstop,
    fun index comma hcomma => ?_⟩
  rw [← hstop] at hcomma
  obtain ⟨hrecorded, hkeyOf⟩ := memberInfo_recorded index tree hshows hlo hhi hlabel hsource
    hkey rfl hstop hcomma
  have hcontainer : (memberInfo s inObject index ⟨a, keyStop, comma⟩ tree [] [] []).container =
      bracketsOf isObject := rfl
  have hmembers : tree.members s = membersAt s isObject 0 slots :=
    Tree.members_container isObject _ _ slots
  simp only [List.cons_append, Text.standsAt_cons, Text.standsAt_append] at hsourceValue
  obtain ⟨hopenSource, -, hcloseSource, -⟩ := hsourceValue
  show Read x trailing inObject (.group _ (tree.members s)) ∧
    (Member.group _ (tree.members s)).entry inObject = _
  rw [hmembers]
  refine ⟨.group isObject hrecorded rfl rfl rfl ?_ ?_ (by rwa [hentries]) hrow hchildren, ?_⟩
  · show x.slice a (a + label.length + 1) = _
    rw [hshows _ _ hlo (by omega)]
    exact Text.slice_succ_of_standsAt hsourceLabel hopenSource
  · show x.slice (a + label.length + 1 + body.length) (a + label.length + 1 + body.length + 1) = _
    rw [hshows _ _ (by omega) (by omega)]
    exact Text.slice_one hcloseSource
  · rw [entry_group hcontainer, hkeyOf, hentries]

/-- Every text that spells an entry is read as that entry. -/
theorem Spells.readable {trailing inObject : Bool} {e : Entry} {cs : List Char}
    (h : Spells trailing inObject e cs) : Readable trailing inObject e cs := by
  induction h with
  | scalar hlabel htext => exact scalar_readable trailing hlabel htext
  | container isObject items hlabel hitems hbody ih =>
    obtain ⟨ms, hmask, hbalanced, hreads⟩ := hbody.reads rfl ih
    exact container_readable hlabel hmask hbalanced hreads
      (.container isObject items .element hitems hbody)

/-! ## Documents -/

theorem readDocument_eq {s : Scanned} {isObject : Bool} {tree : Tree}
    (hfirst : s.nextCodeToEnd 0 = tree.start) (hopen : s.masked[tree.start]? = some (opener isObject))
    (hvalue : readValue s (s.masked.size + 1) tree.start = .ok tree)
    (hlast : s.nextCodeToEnd tree.stop = s.masked.size) :
    readDocument s = .ok (some tree) := by
  have hopener : (opener isObject != '{' && opener isObject != '[') = false := by
    cases isObject <;> rfl
  have hend : s.masked[s.masked.size]? = none := Array.getElem?_eq_none (Nat.le_refl _)
  simp only [readDocument, hfirst, hopen, hopener, Bool.false_eq_true, if_false, hvalue, bind,
    Except.bind, hlast, hend, pure, Except.pure]

/-- A scalar can end before the blanks at the end of a text. -/
theorem delimited_at_end {t : Text} {i : Nat} {b : List Char} (hb : Blank b)
    (hstands : t.standsAt i b = true) (hsize : t.size = i + b.length) : Delimited t i := by
  intro c hc
  cases b with
  | nil =>
    have hlt := Text.lt_size_of_getElem? hc
    rw [List.length_nil] at hsize
    omega
  | cons d rest =>
    obtain rfl : d = c := Option.some.inj ((Text.standsAt_cons.mp hstands).1.symm.trans hc)
    exact .inl (isSpace_of_blank (hb d List.mem_cons_self))

theorem Spells.head_container {trailing isObject : Bool} {es : List Entry} {cs : List Char}
    (h : Spells trailing false (.container [] isObject es) cs) : cs.head? = some (opener isObject) := by
  cases h with
  | container _ items hlabel hitems hbody =>
    cases hlabel
    rfl

theorem getElem?_of_head? {t : Text} {i : Nat} {cs : List Char} {c : Char}
    (hstands : t.standsAt i cs = true) (h : cs.head? = some c) : t[i]? = some c := by
  cases cs with
  | nil => cases h
  | cons d rest =>
    cases h
    exact (Text.standsAt_cons.mp hstands).1

/-- The root container of a document, as an element that stands alone. -/
def rootMember (s : Scanned) (tree : Tree) : Member :=
  memberAt s false 0 (⟨tree.start, tree.start, none⟩, tree)

/-- An entry that stands alone is read without a label. -/
theorem Reads.alone {trailing : Bool} {e : Entry} {cs ms : List Char}
    (h : Reads trailing false e cs ms) {s : Scanned} {a fuel : Nat}
    (hsource : s.source.standsAt a cs = true) (hmasked : s.masked.standsAt a ms = true)
    (hend : Delimited s.masked (a + cs.length)) (hfuel : cs.length < fuel) {x : Excerpt}
    (hshows : Shows x s.source a (a + cs.length)) :
    ∃ tree : Tree, tree.start = a ∧ tree.stop = a + cs.length ∧
      readValue s fuel tree.start = .ok tree ∧ Read x trailing false (rootMember s tree) ∧
      (rootMember s tree).entry false = e := by
  obtain ⟨keyStop, tree, hlabel, -, hvalue, hstop, hread⟩ := h hshows (Nat.le_refl _)
    (Nat.le_refl _) (Nat.le_refl _) hsource hmasked hend hfuel
  have hkey : (a, a) = (keyStop, tree.start) := Except.ok.inj hlabel
  obtain ⟨rfl, hstart⟩ := Prod.mk.inj hkey
  obtain ⟨hmember, hentry⟩ := hread 0 none fun p hp => by cases hp
  subst hstart
  exact ⟨tree, rfl, hstop, hvalue, hmember, hentry⟩

/-- A document is read as the entry that it spells. -/
theorem Document.read {trailing isObject : Bool} {es : List Entry} {t : Text}
    (h : Document trailing (.container [] isObject es) t.toList) :
    let s := Scanned.scan .json t
    ∃ tree : Tree, readDocument s = .ok (some tree) ∧
      s.masked[tree.start]? = some (opener isObject) ∧ s.comments = [] ∧ tree.start ≤ tree.stop ∧
      tree.stop ≤ t.size ∧ Blank (t.slice 0 tree.start) ∧ Blank (t.slice tree.stop t.size) ∧
      (∀ x, Shows x t tree.start tree.stop → Read x trailing false (rootMember s tree)) ∧
      (rootMember s tree).entry false = .container [] isObject es := by
  intro s
  obtain ⟨a, text, b, ha, hb, hspells, htext⟩ := h
  obtain ⟨ms, hmask, hbalanced, hcode, hreads⟩ := hspells.readable
  have hmaskAll : Masked t.toList (a ++ (ms ++ b)) := by
    rw [htext]
    exact (masked_of_blank ha).append (hmask.append (masked_of_blank hb))
  obtain ⟨hmasked, hcomments⟩ := scan_masked hmaskAll
  have hsize : s.masked.size = t.size := by
    show (Scanned.scan .json t).masked.size = _
    rw [hmasked, List.size_toArray, hmaskAll.length_eq, Array.length_toList]
  have hlength : t.size = a.length + text.length + b.length := by
    rw [← Array.length_toList, htext]
    simp only [List.length_append]
    omega
  have hsource : t.standsAt 0 (a ++ (text ++ b)) = true := by
    rw [← htext]
    exact Text.standsAt_toArray t.toList
  have hstands : s.masked.standsAt 0 (a ++ (ms ++ b)) = true := by
    show (Scanned.scan .json t).masked.standsAt 0 _ = true
    rw [hmasked]
    exact Text.standsAt_toArray _
  obtain ⟨hsourceA, hsource⟩ := Text.standsAt_append.mp hsource
  obtain ⟨hsourceText, hsourceB⟩ := Text.standsAt_append.mp hsource
  obtain ⟨hstandsA, hstands⟩ := Text.standsAt_append.mp hstands
  obtain ⟨hstandsText, hstandsB⟩ := Text.standsAt_append.mp hstands
  rw [hmask.length_eq] at hstandsB
  rw [Nat.zero_add] at hsourceText hsourceB hstandsText hstandsB
  have hend : Delimited s.masked (a.length + text.length) :=
    delimited_at_end hb hstandsB (hsize.trans hlength)
  have hroot := fun x hx => hreads.alone (s := s) (x := x) hsourceText hstandsText hend
    (show text.length < s.masked.size + 1 by omega) hx
  obtain ⟨tree, hstart, hstop, hvalue, -, hentry⟩ := hroot ⟨t, 0⟩ fun _ _ _ _ => rfl
  have hopen : s.masked[tree.start]? = some (opener isObject) := by
    rw [hstart]
    exact getElem?_of_head? hstandsText (hmask.head?_eq.trans hspells.head_container)
  have hfirst : s.nextCodeToEnd 0 = tree.start := by
    have hnext := Text.nextCode_of_spaces hstandsA ha.spaces (show _ ≤ s.masked.size by omega)
      fun _ => by
        rw [Nat.zero_add]
        exact (hcode.testAt hstandsText).2
    rw [hstart, Scanned.nextCodeToEnd, hnext, Nat.zero_add]
  have hlast : s.nextCodeToEnd tree.stop = s.masked.size := by
    rw [hstop, Scanned.nextCodeToEnd, Text.nextCode_of_spaces hstandsB hb.spaces (by omega)
      fun h => by omega]
    omega
  refine ⟨tree, readDocument_eq hfirst hopen hvalue hlast, hopen, hcomments, by omega, by omega, ?_,
    ?_, ?_, hentry⟩
  · have hbefore := Text.slice_of_standsAt hsourceA
    rw [Nat.zero_add] at hbefore
    rw [hstart, hbefore]
    exact ha
  · rw [hstop, hlength, Text.slice_of_standsAt hsourceB]
    exact hb
  · intro x hx
    rw [hstart, hstop] at hx
    obtain ⟨tree', hstart', -, hvalue', hread, -⟩ := hroot x hx
    rw [hstart', ← hstart, hvalue] at hvalue'
    obtain rfl := Except.ok.inj hvalue'
    exact hread

end MemberOrder.Json
