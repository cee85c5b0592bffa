/-
  A decorated text of the indented dialect is its source with characters put in between.

  `flagged` is the decorated text with a note at each character whether it was inserted. Without the
  notes it is the decorated text, and what is not inserted is the source, line by line
  (`erase_flagged`, `lines_braced`). `toSource` leads each character that was not inserted to the place
  it has in the source (`getElem?_toSource`), and the end of the decorated text to the end of the source
  (`toSource_length`).
-/
import MemberOrder.Proofs.Placement.Indented

namespace MemberOrder.Style.Indented

/-- A decorated line, with a note at each character whether it was inserted. -/
def Line.flagged (l : Line) : List (Char × Bool) :=
  (l.text.take l.codeStop).map (·, false) ++ l.inserted.map (·, true) ++
    (l.text.drop l.codeStop).map (·, false)

/-- The decorated text, with a note at each character whether it was inserted. -/
def flagged : List Line → List (Char × Bool)
  | [] => []
  | [l] => l.flagged
  | l :: rest => l.flagged ++ ('\n', false) :: flagged rest

/-- What is left of a text when the characters that were inserted are erased. -/
def erase (cs : List (Char × Bool)) : List Char := (cs.filter (!·.2)).map Prod.fst

theorem erase_append (as bs : List (Char × Bool)) : erase (as ++ bs) = erase as ++ erase bs := by
  unfold erase
  rw [List.filter_append, List.map_append]

theorem erase_map_kept (cs : List Char) : erase (cs.map (·, false)) = cs := by
  unfold erase
  rw [List.filter_eq_self.mpr (by simp), List.map_map]
  exact List.map_id cs

theorem erase_map_inserted (cs : List Char) : erase (cs.map (·, true)) = [] := by
  simp [erase]

/-! ## Single lines -/

theorem map_fst_flagged_line (l : Line) : l.flagged.map Prod.fst = l.braced := by
  simp [Line.flagged, Line.braced, Function.comp_def]

theorem erase_flagged_line (l : Line) : erase l.flagged = l.text := by
  unfold Line.flagged
  rw [erase_append, erase_append, erase_map_kept, erase_map_inserted, erase_map_kept, List.append_nil,
    List.take_append_drop]

theorem length_flagged_line (l : Line) : l.flagged.length = l.braced.length := by
  rw [← map_fst_flagged_line, List.length_map]

/-- A column of a character that was not inserted is led to the place of that character. -/
theorem getElem?_sourceColumn {l : Line} (hl : l.codeStop ≤ l.text.length) {column : Nat} {c : Char}
    (h : l.flagged[column]? = some (c, false)) : l.text[sourceColumn l column]? = some c := by
  have htake : ((l.text.take l.codeStop).map fun c => (c, false)).length = l.codeStop := by
    rw [List.length_map, List.length_take]
    omega
  unfold Line.flagged at h
  rw [List.append_assoc] at h
  unfold sourceColumn
  by_cases hbefore : column < l.codeStop
  · rw [List.getElem?_append_left (by omega), List.getElem?_map, List.getElem?_take_of_lt hbefore] at h
    rw [if_neg (by omega)]
    simpa using h
  · rw [List.getElem?_append_right (by omega), htake] at h
    by_cases hinside : column < l.codeStop + l.inserted.length
    · -- here only characters that were inserted stand
      rw [List.getElem?_append_left (by rw [List.length_map]; omega), List.getElem?_map] at h
      simp at h
    · rw [List.getElem?_append_right (by rw [List.length_map]; omega), List.length_map,
        List.getElem?_map, List.getElem?_drop] at h
      have hcolumn : (if l.codeStop < column then
          if column < l.codeStop + l.inserted.length then l.codeStop else column - l.inserted.length
          else column) = l.codeStop + (column - l.codeStop - l.inserted.length) := by
        split <;> omega
      rw [hcolumn]
      simpa using h

/-- The end of a decorated line is led to the end of the line. -/
theorem sourceColumn_length {l : Line} (hl : l.codeStop ≤ l.text.length) :
    sourceColumn l l.braced.length = l.text.length := by
  rw [length_braced l hl]
  unfold sourceColumn
  split
  · rw [if_neg (by omega)]
    omega
  · omega

/-! ## Lines joined -/

theorem flagged_cons {l : Line} {rest : List Line} (h : rest ≠ []) :
    flagged (l :: rest) = l.flagged ++ ('\n', false) :: flagged rest := by
  cases rest with
  | nil => exact absurd rfl h
  | cons m more => rfl

theorem braced_cons {l : Line} {rest : List Line} (h : rest ≠ []) :
    braced (l :: rest) = l.braced ++ '\n' :: braced rest := by
  cases rest with
  | nil => exact absurd rfl h
  | cons m more =>
    simp only [braced, List.map_cons, Text.join, List.append_assoc, List.singleton_append]

theorem map_fst_flagged (ls : List Line) : (flagged ls).map Prod.fst = braced ls := by
  induction ls with
  | nil => rfl
  | cons l rest ih =>
    cases rest with
    | nil => exact map_fst_flagged_line l
    | cons m more =>
      rw [flagged_cons (by simp), braced_cons (by simp), List.map_append, map_fst_flagged_line,
        List.map_cons, ih]

theorem erase_flagged (ls : List Line) :
    erase (flagged ls) = Text.join ['\n'] (ls.map (·.text)) := by
  induction ls with
  | nil => rfl
  | cons l rest ih =>
    cases rest with
    | nil => exact erase_flagged_line l
    | cons m more =>
      rw [flagged_cons (by simp), List.map_cons, Text.join_cons (by simp), erase_append,
        erase_flagged_line, ← ih]
      rfl

/-- The decorated text has the lines of the source, each with its decoration. -/
theorem lines_braced (source : List Char) :
    Text.lines (braced (decorate source)) = (decorate source).map Line.braced := by
  refine Text.lines_join ?_ ?_
  · intro h
    have hlines : Text.lines source = [] := by
      rw [← map_text_decorate, List.map_eq_nil_iff.mp h]
      rfl
    exact Text.splitAt_ne_nil _ _ hlines
  · intro x hx
    obtain ⟨l, hl, rfl⟩ := List.mem_map.mp hx
    have hline : l.text ∈ Text.lines source := by
      rw [← map_text_decorate]
      exact List.mem_map_of_mem hl
    have htext : '\n' ∉ l.text := Text.not_mem_lines hline
    intro hmem
    rw [Line.braced, List.mem_append, List.mem_append] at hmem
    rcases hmem with (hmem | hmem) | hmem
    · exact htext (List.mem_of_mem_take hmem)
    · exact absurd ((decorate_apart hl).2 _ hmem) (by decide)
    · exact htext (List.mem_of_mem_drop hmem)

/-! ## Offsets -/

theorem getElem?_toSourceFrom {ls : List Line} (hfits : Fits ls) (start inSource : Nat) {offset : Nat}
    (hstart : start ≤ offset) {c : Char} (h : (flagged ls)[offset - start]? = some (c, false)) :
    (Text.join ['\n'] (ls.map (·.text)))[toSourceFrom start inSource ls offset - inSource]? =
      some c := by
  induction ls generalizing start inSource with
  | nil => cases h
  | cons l rest ih =>
    have hl := hfits l List.mem_cons_self
    have hlen := length_braced l hl
    have hflag := length_flagged_line l
    rw [toSourceFrom_cons]
    cases rest with
    | nil =>
      simp only [List.isEmpty_nil, Bool.not_true, Bool.and_false, Bool.false_eq_true, if_false]
      rw [Nat.add_sub_cancel_left]
      exact getElem?_sourceColumn hl h
    | cons m more =>
      have hrest : Fits (m :: more) := fun k hk => hfits k (List.mem_cons_of_mem l hk)
      rw [flagged_cons (by simp)] at h
      rw [List.map_cons, Text.join_cons (by simp)]
      simp only [List.isEmpty_cons, Bool.not_false, Bool.and_true, decide_eq_true_eq]
      split
      · -- the offset is on a later line
        rename_i hnext
        have hinner : (flagged (m :: more))[offset -
            (start + l.text.length + l.inserted.length + 1)]? = some (c, false) := by
          rw [List.getElem?_append_right (by omega), List.getElem?_cons, if_neg (by omega)] at h
          rw [← h]
          congr 1
          omega
        have hih := ih hrest _ (inSource + l.text.length + 1) hnext hinner
        have hle := le_toSourceFrom (m :: more) (start + l.text.length + l.inserted.length + 1)
          (inSource + l.text.length + 1) offset
        rw [List.getElem?_append_right (by omega), List.getElem?_cons, if_neg (by omega), ← hih]
        congr 1
        omega
      · rename_i hnext
        rw [Nat.add_sub_cancel_left]
        by_cases hline : offset - start < l.braced.length
        · rw [List.getElem?_append_left (by omega)] at h
          have hcolumn := getElem?_sourceColumn hl h
          rw [List.getElem?_append_left (List.getElem?_eq_some_iff.mp hcolumn).1]
          exact hcolumn
        · -- the offset is that of the line feed
          have heq : offset - start = l.braced.length := by omega
          rw [List.getElem?_append_right (by omega), List.getElem?_cons, if_pos (by omega)] at h
          rw [heq, sourceColumn_length hl, List.getElem?_append_right (Nat.le_refl _), Nat.sub_self,
            List.getElem?_cons_zero]
          simpa using h

theorem toSourceFrom_length {ls : List Line} (hfits : Fits ls) (hne : ls ≠ []) (start inSource : Nat) :
    toSourceFrom start inSource ls (start + joinedLength (ls.map Line.braced)) =
      inSource + joinedLength (ls.map (·.text)) := by
  induction ls generalizing start inSource with
  | nil => exact absurd rfl hne
  | cons l rest ih =>
    have hl := hfits l List.mem_cons_self
    have hlen := length_braced l hl
    rw [toSourceFrom_cons, List.map_cons, List.map_cons]
    cases rest with
    | nil =>
      simp only [List.isEmpty_nil, Bool.not_true, Bool.and_false, Bool.false_eq_true, if_false]
      rw [Nat.add_sub_cancel_left]
      exact congrArg (inSource + ·) (sourceColumn_length hl)
    | cons m more =>
      rw [joinedLength_cons _ (by simp), joinedLength_cons _ (by simp)]
      rw [if_pos (by simp; omega)]
      have hih := ih (fun k hk => hfits k (List.mem_cons_of_mem l hk)) (by simp)
        (start + l.text.length + l.inserted.length + 1) (inSource + l.text.length + 1)
      rw [show start + (l.braced.length + 1 + joinedLength ((m :: more).map Line.braced)) =
        start + l.text.length + l.inserted.length + 1 + joinedLength ((m :: more).map Line.braced) by
          omega, hih]
      omega

/-- A character that was not inserted stands in the source where its offset leads. -/
theorem getElem?_toSource {source : List Char} {offset : Nat} {c : Char}
    (h : (flagged (decorate source))[offset]? = some (c, false)) :
    source[toSource (decorate source) offset]? = some c := by
  have hfrom := getElem?_toSourceFrom (decorate_fits source) 0 0 (Nat.zero_le offset) (c := c) h
  rw [map_text_decorate, Text.join_lines, Nat.sub_zero] at hfrom
  exact hfrom

/-- The end of the decorated text is led to the end of the source. -/
theorem toSource_length (source : List Char) :
    toSource (decorate source) (braced (decorate source)).length = source.length := by
  have hne : decorate source ≠ [] := by
    intro h
    apply Text.splitAt_ne_nil (· == '\n') source
    have htexts := map_text_decorate source
    rw [h] at htexts
    exact htexts.symm
  have hfrom := toSourceFrom_length (decorate_fits source) hne 0 0
  rw [map_text_decorate, Nat.zero_add, Nat.zero_add] at hfrom
  rw [joinedLength, joinedLength, Text.join_lines] at hfrom
  exact hfrom

/-- A character that is inserted belongs to a line. -/
theorem mem_inserted_of_flagged {ls : List Line} {c : Char} (h : (c, true) ∈ flagged ls) :
    ∃ l ∈ ls, c ∈ l.inserted := by
  induction ls with
  | nil => cases h
  | cons l rest ih =>
    have hline : (c, true) ∈ l.flagged → ∃ k ∈ l :: rest, c ∈ k.inserted := fun h => by
      simp only [Line.flagged, List.mem_append, List.mem_map, Prod.mk.injEq, Bool.false_eq_true,
        and_false, exists_const, false_or, or_false, and_true, exists_eq_right] at h
      exact ⟨l, List.mem_cons_self, h⟩
    cases rest with
    | nil => exact hline h
    | cons m more =>
      rw [flagged_cons (by simp), List.mem_append, List.mem_cons] at h
      rcases h with h | h | h
      · exact hline h
      · cases h
      · obtain ⟨k, hk, hc⟩ := ih h
        exact ⟨k, List.mem_cons_of_mem l hk, hc⟩

/-! ## Slices -/

theorem length_erase_take_line {l : Line} (hl : l.codeStop ≤ l.text.length) {column : Nat}
    (hcolumn : column ≤ l.braced.length) :
    (erase (l.flagged.take column)).length = sourceColumn l column := by
  have htake : ((l.text.take l.codeStop).map fun c => (c, false)).length = l.codeStop := by
    rw [List.length_map, List.length_take]
    omega
  rw [length_braced l hl] at hcolumn
  rw [Line.flagged, List.append_assoc, List.take_append, List.take_append, htake, List.length_map,
    erase_append, erase_append, ← List.map_take, ← List.map_take, ← List.map_take, erase_map_kept,
    erase_map_inserted, erase_map_kept, sourceColumn]
  simp only [List.length_append, List.length_take, List.length_nil, List.length_drop]
  split
  · split <;> omega
  · omega

theorem length_erase_take {ls : List Line} (hfits : Fits ls) (start inSource : Nat) {n : Nat}
    (hn : n ≤ (flagged ls).length) :
    toSourceFrom start inSource ls (start + n) = inSource + (erase ((flagged ls).take n)).length := by
  induction ls generalizing start inSource n with
  | nil =>
    obtain rfl : n = 0 := by simpa [flagged] using hn
    rfl
  | cons l rest ih =>
    have hl := hfits l List.mem_cons_self
    have hlength := length_braced l hl
    rw [toSourceFrom_cons, Nat.add_sub_cancel_left]
    cases rest with
    | nil =>
      rw [if_neg (by simp), flagged, length_erase_take_line hl (by rwa [← length_flagged_line])]
    | cons m more =>
      rw [flagged_cons (by simp)] at hn ⊢
      rw [List.take_append, erase_append, List.length_append, length_flagged_line]
      simp only [List.isEmpty_cons, Bool.not_false, Bool.and_true, decide_eq_true_eq]
      split
      · -- the whole line, its line feed, and a part of what follows
        rename_i hnext
        obtain ⟨k, rfl⟩ : ∃ k, n = l.braced.length + 1 + k := ⟨n - (l.braced.length + 1), by omega⟩
        rw [List.length_append, length_flagged_line, List.length_cons] at hn
        have hrest := ih (fun k hk => hfits k (List.mem_cons_of_mem l hk))
          (start + l.text.length + l.inserted.length + 1) (inSource + l.text.length + 1)
          (show k ≤ (flagged (m :: more)).length by omega)
        rw [List.take_of_length_le (by rw [length_flagged_line]; omega), erase_flagged_line,
          show l.braced.length + 1 + k - l.braced.length = k + 1 by omega, List.take_succ_cons]
        have hfeed : erase (('\n', false) :: (flagged (m :: more)).take k) =
            '\n' :: erase ((flagged (m :: more)).take k) := rfl
        rw [hfeed, List.length_cons, show start + (l.braced.length + 1 + k) =
          start + l.text.length + l.inserted.length + 1 + k by omega, hrest]
        omega
      · rename_i hnext
        rw [show n - l.braced.length = 0 by omega, List.take_zero,
          length_erase_take_line hl (by omega)]
        rfl

/-- An offset leads past as many characters as were not inserted before it. -/
theorem toSource_eq_length {source : List Char} {n : Nat} (hn : n ≤ (flagged (decorate source)).length) :
    toSource (decorate source) n = (erase ((flagged (decorate source)).take n)).length := by
  have := length_erase_take (decorate_fits source) 0 0 hn
  rwa [Nat.zero_add, Nat.zero_add] at this

/-- Past a character that was not inserted an offset leads further on. -/
theorem toSource_lt_of_kept {source : List Char} {x b : Nat} {c : Char}
    (hx : (flagged (decorate source))[x]? = some (c, false)) (hxb : x < b) :
    toSource (decorate source) x < toSource (decorate source) b := by
  have hlt := (List.getElem?_eq_some_iff.mp hx).1
  refine Nat.lt_of_lt_of_le ?_ (toSource_mono source (Nat.succ_le_of_lt hxb))
  rw [toSource_eq_length (Nat.le_of_lt hlt), toSource_eq_length (Nat.succ_le_of_lt hlt),
    List.take_add_one, hx, erase_append, List.length_append]
  exact Nat.lt_succ_self _

/-- A slice of the source is what was not inserted of the slice of the decorated text. -/
theorem slice_toSource {source : List Char} {a b : Nat} (hab : a ≤ b)
    (hb : b ≤ (flagged (decorate source)).length) :
    Text.slice source.toArray (toSource (decorate source) a) (toSource (decorate source) b) =
      erase (((flagged (decorate source)).take b).drop a) := by
  have hcount : ∀ n ≤ (flagged (decorate source)).length,
      toSource (decorate source) n = (erase ((flagged (decorate source)).take n)).length :=
    fun _ => toSource_eq_length
  generalize hfs : flagged (decorate source) = fs at hb hcount
  have hsource : source = erase (fs.take a) ++ (erase ((fs.take b).drop a) ++ erase (fs.drop b)) := by
    rw [← erase_append, ← erase_append, ← List.append_assoc,
      show fs.take a = (fs.take b).take a by rw [List.take_take, Nat.min_eq_left hab],
      List.take_append_drop, List.take_append_drop, ← hfs, erase_flagged, map_text_decorate, Text.join_lines]
  have hlength : (erase (fs.take b)).length =
      (erase (fs.take a)).length + (erase ((fs.take b).drop a)).length := by
    rw [← List.length_append, ← erase_append,
      show fs.take a = (fs.take b).take a by rw [List.take_take, Nat.min_eq_left hab],
      List.take_append_drop]
  rw [Text.slice_eq_take_drop, hcount a (Nat.le_trans hab hb), hcount b hb, hlength, Nat.add_sub_cancel_left,
    hsource, List.drop_left, List.take_left]

end MemberOrder.Style.Indented

/-!
## What is inserted into one line of the indented dialect, in order

A line gets at most one mark of its own, a semicolon or an opening bracket, and after it any number of
closing brackets (`inserted_form`): a line gets its mark when it is read or when the block that it
opens is closed, and no closing bracket is put on it before that (`Decorating.InOrder`). So where two
characters are inserted into a line, the second one is no semicolon and no opening bracket, unless the
first one is the blank in front of the bracket (`inserted_pair`).
-/

namespace MemberOrder.Style.Indented

/-! ## The order of insertions -/

/-- What is inserted at once: a semicolon, a closing bracket, or a blank and an opening bracket. -/
def isInsertion (cs : List Char) : Prop := cs = [';'] ∨ cs = [' ', '{'] ∨ cs = ['}']

/-- What holds of the insertions of a decoration whose lines of code so far have numbers below `n`: the
lines that open blocks have none yet, and the second insertion into a line is a closing bracket. -/
structure Decorating.InOrder (n : Nat) (d : Decorating) : Prop where
  fresh : ∀ x ∈ d.insertions, ∀ f ∈ d.stack, f.line ≠ x.1
  before : ∀ x ∈ d.insertions, x.1 < n
  form : ∀ x ∈ d.insertions, isInsertion x.2
  later : d.insertions.Pairwise fun x y => x.1 = y.1 → x.2 = ['}']

theorem Decorating.inOrder_empty (n : Nat) : ({} : Decorating).InOrder n :=
  ⟨by simp, by simp, by simp, .nil⟩

namespace Decorating.InOrder

variable {n : Nat} {d : Decorating}

/-- Only the lines of the stack and the insertions matter. -/
theorem same {d' : Decorating} (h : d.InOrder n) (hins : d'.insertions = d.insertions)
    (hstack : ∀ f ∈ d'.stack, ∃ g ∈ d.stack, f.line = g.line) : d'.InOrder n := by
  refine ⟨fun x hx f hf => ?_, ?_, ?_, ?_⟩
  · obtain ⟨g, hg, heq⟩ := hstack f hf
    rw [heq]
    exact h.fresh x (hins ▸ hx) g hg
  · rw [hins]
    exact h.before
  · rw [hins]
    exact h.form
  · rw [hins]
    exact h.later

theorem mono {m : Nat} (h : d.InOrder n) (hnm : n ≤ m) : d.InOrder m :=
  ⟨h.fresh, fun x hx => Nat.lt_of_lt_of_le (h.before x hx) hnm, h.form, h.later⟩

/-- A mark is put on a line that has no insertion yet and opens none of the blocks. -/
theorem mark {k : Nat} {cs : List Char} (h : d.InOrder n) (hk : k < n) (hcs : isInsertion cs)
    (hnew : ∀ x ∈ d.insertions, x.1 ≠ k) (hstack : ∀ f ∈ d.stack, f.line ≠ k) :
    ({ d with insertions := (k, cs) :: d.insertions } : Decorating).InOrder n := by
  refine ⟨List.forall_mem_cons.mpr ⟨hstack, h.fresh⟩, List.forall_mem_cons.mpr ⟨hk, h.before⟩,
    List.forall_mem_cons.mpr ⟨hcs, h.form⟩, .cons (fun x hx heq => ?_) h.later⟩
  exact absurd heq.symm (hnew x hx)

/-- A closing bracket may follow anything on its line. -/
theorem close {k : Nat} (h : d.InOrder n) (hk : k < n) (hstack : ∀ f ∈ d.stack, f.line ≠ k) :
    ({ d with insertions := (k, ['}']) :: d.insertions } : Decorating).InOrder n :=
  ⟨List.forall_mem_cons.mpr ⟨hstack, h.fresh⟩, List.forall_mem_cons.mpr ⟨hk, h.before⟩,
    List.forall_mem_cons.mpr ⟨Or.inr (Or.inr rfl), h.form⟩, .cons (fun _ _ _ => rfl) h.later⟩

end Decorating.InOrder

theorem markContent_line {stack : List Frame} {f : Frame} (h : f ∈ markContent stack) :
    ∃ g ∈ stack, f.line = g.line :=
  let ⟨g, hg, heq, _⟩ := mem_markContent h
  ⟨g, hg, heq⟩

theorem closeFrame_inOrder {k n : Nat} {d : Decorating} {frame : Frame} {outer : List Frame}
    (h : d.InOrder n) (hs : d.Sound k) (hk : k ≤ n) (hstack : d.stack = frame :: outer) :
    (closeFrame d frame outer).InOrder n := by
  have hmem : frame ∈ d.stack := hstack ▸ List.mem_cons_self
  obtain ⟨hlast, hline, -⟩ := hs.frames frame hmem
  have hbelow : ∀ f ∈ outer, f.line < frame.line :=
    (List.pairwise_cons.mp (hstack ▸ hs.nested)).1
  have hnew : ∀ x ∈ d.insertions, x.1 ≠ frame.line := fun x hx heq => h.fresh x hx frame hmem heq.symm
  have hpop : ({ d with stack := outer } : Decorating).InOrder n :=
    h.same rfl fun f hf => ⟨f, hstack ▸ List.mem_cons_of_mem frame hf, rfl⟩
  have hmarked : ∀ {cs}, isInsertion cs →
      ({ d with stack := outer, insertions := (frame.line, cs) :: d.insertions } : Decorating).InOrder n :=
    fun hcs => hpop.mark (by omega) hcs hnew fun f hf => Nat.ne_of_lt (hbelow f hf)
  unfold closeFrame
  split
  · refine (Decorating.InOrder.close (k := frame.last) (hmarked (Or.inr (Or.inl rfl))) (by omega)
      fun f hf => ?_).same rfl fun f hf => markContent_line hf
    have := hbelow f hf
    omega
  · exact hmarked (Or.inl rfl)

theorem closeDeeper_inOrder {k n indent fuel : Nat} {d : Decorating} (h : d.InOrder n)
    (hs : d.Sound k) (hk : k ≤ n) : (closeDeeper indent fuel d).InOrder n := by
  induction fuel generalizing d with
  | zero => exact h
  | succ fuel ih =>
    simp only [closeDeeper]
    split
    · exact h
    · rename_i frame outer hstack
      split
      · exact ih (closeFrame_inOrder h hs hk hstack) (closeFrame_sound hs hstack)
      · exact h

theorem closeAll_inOrder {k n : Nat} {d : Decorating} (fuel : Nat) (h : d.InOrder n) (hs : d.Sound k)
    (hk : k ≤ n) : (closeAll fuel d).InOrder n := by
  induction fuel generalizing d with
  | zero => exact h
  | succ fuel ih =>
    simp only [closeAll]
    split
    · exact h
    · rename_i frame outer hstack
      exact ih (closeFrame_inOrder h hs hk hstack) (closeFrame_sound hs hstack)

/-- Reading a line keeps the insertions in order. -/
theorem readLine_inOrder {k i : Nat} {d : Decorating} (h : d.InOrder i) (hs : d.Sound k) (hk : k ≤ i)
    (body : List Char) : (readLine d i body).InOrder (i + 1) := by
  have hnext : d.InOrder (i + 1) := h.mono (Nat.le_succ i)
  unfold readLine
  split
  · exact hnext.same rfl fun f hf => ⟨f, hf, rfl⟩
  · dsimp only
    split
    · exact hnext.same rfl fun f hf => ⟨f, hf, rfl⟩
    · generalize body.length - (Text.trimLeft body).length = indent
      let d' : Decorating := { d with ends := codeStop body :: d.ends }
      let closed := closeDeeper indent d.stack.length d'
      have hclosed : closed.InOrder i :=
        closeDeeper_inOrder (h.same rfl fun f hf => ⟨f, hf, rfl⟩) (hs.same rfl rfl) hk
      have hsound : closed.Sound k := closeDeeper_sound (hs.same rfl rfl)
      let stack := closed.stack.map fun f => { f with last := i }
      have hstack : ∀ f ∈ stack, ∃ g ∈ closed.stack, f.line = g.line := by
        intro f hf
        obtain ⟨g, hg, rfl⟩ := List.mem_map.mp hf
        exact ⟨g, hg, rfl⟩
      have hlines : ∀ f ∈ closed.stack, f.line ≠ i := fun f hf => by
        have := (hsound.frames f hf).2.1
        omega
      have hnew : ∀ x ∈ closed.insertions, x.1 ≠ i := fun x hx => Nat.ne_of_lt (hclosed.before x hx)
      split
      · refine ((hclosed.mono (Nat.le_succ i)).mark (Nat.lt_succ_self i) (Or.inl rfl) hnew hlines).same
          rfl fun f hf => ?_
        obtain ⟨g, hg, heq⟩ := markContent_line hf
        obtain ⟨g', hg', heq'⟩ := hstack g hg
        exact ⟨g', hg', heq.trans heq'⟩
      · -- no line so far is the one that opens the new block
        refine ⟨fun x hx f hf => ?_, (hclosed.mono (Nat.le_succ i)).before, hclosed.form, hclosed.later⟩
        rcases List.mem_cons.mp hf with rfl | hf
        · exact (hnew x hx).symm
        · obtain ⟨g, hg, heq⟩ := hstack f hf
          rw [heq]
          exact hclosed.fresh x hx g hg

theorem readLines_inOrder {k i : Nat} {d : Decorating} (h : d.InOrder i) (hs : d.Sound k) (hk : k ≤ i)
    (bodies : List (List Char)) :
    ∃ k n, k ≤ n ∧ (readLines d i bodies).InOrder n ∧ (readLines d i bodies).Sound k := by
  induction bodies generalizing d i k with
  | nil => exact ⟨k, i, hk, h, hs⟩
  | cons body rest ih =>
    obtain ⟨k', hk', hs'⟩ := readLine_sound hs hk body
    exact ih (readLine_inOrder h hs hk body) hs' hk'

/-! ## Lines -/

/-- Insertions of which all but the first are closing brackets. -/
theorem flatMap_form {xs : List Insertion} (hform : ∀ x ∈ xs, isInsertion x.2)
    (hlater : xs.Pairwise fun _ y => y.2 = ['}']) :
    ∃ mark n, (mark = [] ∨ mark = [';'] ∨ mark = [' ', '{']) ∧
      xs.flatMap (·.2) = mark ++ List.replicate n '}' := by
  have hclosers : ∀ ys : List Insertion, (∀ y ∈ ys, y.2 = ['}']) →
      ys.flatMap (·.2) = List.replicate ys.length '}' := by
    intro ys hys
    induction ys with
    | nil => rfl
    | cons y rest ih =>
      obtain ⟨hy, hrest⟩ := List.forall_mem_cons.mp hys
      rw [List.flatMap_cons, hy, ih hrest, List.length_cons, List.replicate_succ]
      rfl
  cases xs with
  | nil => exact ⟨[], 0, Or.inl rfl, rfl⟩
  | cons x rest =>
    have hrest := hclosers rest (List.pairwise_cons.mp hlater).1
    rw [List.flatMap_cons, hrest]
    rcases hform x List.mem_cons_self with hx | hx | hx
    · exact ⟨_, rest.length, Or.inr (Or.inl rfl), by rw [hx]⟩
    · exact ⟨_, rest.length, Or.inr (Or.inr rfl), by rw [hx]⟩
    · exact ⟨[], rest.length + 1, Or.inl rfl, by rw [hx, List.replicate_succ]; rfl⟩

/-- A line gets one mark at most, and closing brackets after it. -/
theorem inserted_form {source : List Char} {l : Line} (hl : l ∈ decorate source) :
    ∃ mark n, (mark = [] ∨ mark = [';'] ∨ mark = [' ', '{']) ∧
      l.inserted = mark ++ List.replicate n '}' := by
  obtain ⟨k, n, hk, horder, hsound⟩ := readLines_inOrder (Decorating.inOrder_empty 0)
    (Decorating.sound_empty 0) (Nat.le_refl 0) ((Text.lines source).map withoutReturn)
  simp only [decorate, List.mem_map] at hl
  obtain ⟨⟨text, i⟩, -, rfl⟩ := hl
  have hclosed := closeAll_inOrder
    (readLines {} 0 ((Text.lines source).map withoutReturn)).stack.length horder hsound hk
  refine flatMap_form (fun x hx => hclosed.form x ?_) ?_
  · exact List.mem_reverse.mp (List.mem_filter.mp hx).1
  · -- insertions are noted last first
    refine (List.pairwise_filter.mpr ((List.pairwise_reverse.mpr hclosed.later).imp ?_))
    intro x y hxy hx hy
    rw [beq_iff_eq] at hx hy
    exact hxy (hy.trans hx.symm)

/-- Two characters that are inserted into a line: the second one is a closing bracket, or the first one
is the blank before an opening one. -/
theorem inserted_pair {source : List Char} {l : Line} (hl : l ∈ decorate source) {i j : Nat}
    {c d : Char} (hij : i < j) (hc : l.inserted[i]? = some c) (hd : l.inserted[j]? = some d) :
    c = ' ' ∨ d = '}' := by
  obtain ⟨mark, n, hmark, heq⟩ := inserted_form hl
  rw [heq] at hc hd
  by_cases hj : mark.length ≤ j
  · right
    rw [List.getElem?_append_right hj, List.getElem?_replicate] at hd
    split at hd
    · exact (Option.some.inj hd).symm
    · cases hd
  · left
    -- only the longer mark has two characters
    rcases hmark with rfl | rfl | rfl
    · simp at hj
    · simp at hj
      omega
    · simp at hj
      obtain rfl : i = 0 := by omega
      simpa using hc.symm

/-! ## The decorated text -/

theorem inserted_of_flagged_line {l : Line} (hl : l.codeStop ≤ l.text.length) {column : Nat} {c : Char}
    (h : l.flagged[column]? = some (c, true)) :
    l.codeStop ≤ column ∧ l.inserted[column - l.codeStop]? = some c := by
  have htake : ((l.text.take l.codeStop).map fun c => (c, false)).length = l.codeStop := by
    rw [List.length_map, List.length_take]
    omega
  unfold Line.flagged at h
  rw [List.append_assoc] at h
  by_cases hbefore : column < l.codeStop
  · rw [List.getElem?_append_left (by omega), List.getElem?_map] at h
    simp at h
  · rw [List.getElem?_append_right (by omega), htake] at h
    by_cases hinside : column - l.codeStop < l.inserted.length
    · rw [List.getElem?_append_left (by rw [List.length_map]; omega), List.getElem?_map] at h
      exact ⟨by omega, by simpa using h⟩
    · rw [List.getElem?_append_right (by rw [List.length_map]; omega), List.getElem?_map] at h
      simp at h

/-- Two characters that are inserted with no line feed in between are inserted into one line. -/
theorem inserted_of_flagged {ls : List Line} (hfits : Fits ls) {x y : Nat} {c d : Char} (hxy : x < y)
    (hline : ∀ z, x ≤ z → z < y → (flagged ls)[z]? ≠ some ('\n', false))
    (hx : (flagged ls)[x]? = some (c, true)) (hy : (flagged ls)[y]? = some (d, true)) :
    ∃ l ∈ ls, ∃ i j : Nat, i < j ∧ l.inserted[i]? = some c ∧ l.inserted[j]? = some d := by
  induction ls generalizing x y with
  | nil => cases hx
  | cons l rest ih =>
    have hl := hfits l List.mem_cons_self
    have hsame : l.flagged[x]? = some (c, true) → l.flagged[y]? = some (d, true) →
        ∃ k ∈ l :: rest, ∃ i j : Nat, i < j ∧ k.inserted[i]? = some c ∧ k.inserted[j]? = some d := by
      intro hx hy
      obtain ⟨h1, h2⟩ := inserted_of_flagged_line hl hx
      obtain ⟨h3, h4⟩ := inserted_of_flagged_line hl hy
      exact ⟨l, List.mem_cons_self, _, _, by omega, h2, h4⟩
    cases rest with
    | nil => exact hsame hx hy
    | cons m more =>
      rw [flagged_cons (by simp)] at hx hy hline
      have hfeed : (l.flagged ++ ('\n', false) :: flagged (m :: more))[l.flagged.length]? =
          some ('\n', false) := by
        rw [List.getElem?_append_right (Nat.le_refl _), Nat.sub_self]
        rfl
      rcases Nat.lt_trichotomy y l.flagged.length with hlt | heq | hgt
      · rw [List.getElem?_append_left (by omega)] at hx hy
        exact hsame hx hy
      · rw [heq, hfeed] at hy
        cases hy
      · by_cases hxl : l.flagged.length < x
        · -- both are on later lines
          have hlater : ∀ z, l.flagged.length < z →
              (l.flagged ++ ('\n', false) :: flagged (m :: more))[z]? =
                (flagged (m :: more))[z - (l.flagged.length + 1)]? := by
            intro z hz
            rw [List.getElem?_append_right (by omega), List.getElem?_cons, if_neg (by omega)]
            congr 1
          rw [hlater x hxl] at hx
          rw [hlater y hgt] at hy
          obtain ⟨k, hk, h⟩ := ih (fun k hk => hfits k (List.mem_cons_of_mem l hk)) (by omega)
            (fun z h1 h2 => by
              have := hline (z + (l.flagged.length + 1)) (by omega) (by omega)
              rwa [hlater _ (by omega), Nat.add_sub_cancel] at this) hx hy
          exact ⟨k, List.mem_cons_of_mem l hk, h⟩
        · exact absurd hfeed (hline _ (by omega) hgt)

/-- Of two characters inserted into a line the second one is a closing bracket, unless the first one is
a blank. -/
theorem flagged_pair {source : List Char} {x y : Nat} {c d : Char} (hxy : x < y)
    (hline : ∀ z, x ≤ z → z < y → (flagged (decorate source))[z]? ≠ some ('\n', false))
    (hx : (flagged (decorate source))[x]? = some (c, true))
    (hy : (flagged (decorate source))[y]? = some (d, true)) : c = ' ' ∨ d = '}' := by
  obtain ⟨l, hl, i, j, hij, hi, hj⟩ := inserted_of_flagged (decorate_fits source) hxy hline hx hy
  exact inserted_pair hl hij hi hj

end MemberOrder.Style.Indented
