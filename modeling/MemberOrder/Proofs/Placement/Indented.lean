/-
  The decorated text of the indented dialect leads back to its source.

  `toSource` never goes backwards (`toSource_mono`) and stays inside the source
  (`toSource_le`). It stands still only over characters that were inserted into one line
  (`inserted_of_flat`). No line gets both an opening and a closing bracket (`decorate_apart`): a
  block that holds something is closed on a later line than it is opened, and on a line that opens
  no other such block. So a declaration or a block of the decorated text is never empty in the
  source (`toSource_lt`). Nothing is inserted into a line break, so one that is not cut in the
  decorated text is not cut in the source (`cuttable_toSource`).
-/
import MemberOrder.Proofs.Source.Breaks
import MemberOrder.Proofs.Text.Offsets
import MemberOrder.Style.Indented

namespace MemberOrder.Style.Indented

/-! ## Lines -/

/-- The code of each line stops inside it. -/
def Fits (ls : List Line) : Prop := ∀ l ∈ ls, l.codeStop ≤ l.text.length

theorem length_braced (l : Line) (h : l.codeStop ≤ l.text.length) :
    l.braced.length = l.text.length + l.inserted.length := by
  simp only [Line.braced, List.length_append, List.length_take, List.length_drop]
  omega

/-- Between the end of a line's code and the rest stand the inserted characters. -/
theorem getElem?_braced_inserted {l : Line} (h : l.codeStop ≤ l.text.length) {k : Nat}
    (h1 : l.codeStop ≤ k) (h2 : k < l.codeStop + l.inserted.length) :
    ∃ c ∈ l.inserted, l.braced[k]? = some c := by
  have hlt : k - l.codeStop < l.inserted.length := by omega
  refine ⟨l.inserted[k - l.codeStop], List.getElem_mem hlt, ?_⟩
  have htake : (l.text.take l.codeStop).length = l.codeStop := by
    rw [List.length_take]
    omega
  rw [Line.braced, List.append_assoc, List.getElem?_append_right (by omega), htake,
    List.getElem?_append_left hlt, List.getElem?_eq_getElem hlt]

/-- A column of a decorated line, in the source. -/
def sourceColumn (l : Line) (column : Nat) : Nat :=
  if l.codeStop < column then
    if column < l.codeStop + l.inserted.length then l.codeStop else column - l.inserted.length
  else column

theorem toSourceFrom_cons (start inSource : Nat) (l : Line) (rest : List Line) (offset : Nat) :
    toSourceFrom start inSource (l :: rest) offset =
      if start + l.text.length + l.inserted.length + 1 ≤ offset && !rest.isEmpty then
        toSourceFrom (start + l.text.length + l.inserted.length + 1) (inSource + l.text.length + 1)
          rest offset
      else inSource + sourceColumn l (offset - start) := rfl

theorem sourceColumn_mono (l : Line) {a b : Nat} (h : a ≤ b) :
    sourceColumn l a ≤ sourceColumn l b := by
  unfold sourceColumn
  split <;> split <;> (try split) <;> (try split) <;> omega

theorem sourceColumn_le {l : Line} (h : l.codeStop ≤ l.text.length) (column : Nat)
    (hc : column ≤ l.text.length + l.inserted.length) : sourceColumn l column ≤ l.text.length := by
  unfold sourceColumn
  split
  · split <;> omega
  · omega

/-- Two columns that lead to one column of the source have inserted characters between them. -/
theorem inserted_of_sourceColumn {l : Line} {a b : Nat} (h : a < b)
    (heq : sourceColumn l a = sourceColumn l b) :
    l.codeStop ≤ a ∧ b ≤ l.codeStop + l.inserted.length := by
  unfold sourceColumn at heq
  split at heq <;> split at heq <;> (try split at heq) <;> (try split at heq) <;> omega

/-! ## Offsets -/

theorem le_toSourceFrom (ls : List Line) (start inSource offset : Nat) :
    inSource ≤ toSourceFrom start inSource ls offset := by
  induction ls generalizing start inSource with
  | nil => exact Nat.le_refl _
  | cons l rest ih =>
    rw [toSourceFrom_cons]
    split
    · have := ih (start + l.text.length + l.inserted.length + 1) (inSource + l.text.length + 1)
      omega
    · omega

theorem toSourceFrom_mono {ls : List Line} (hfits : Fits ls) (start inSource : Nat) {a b : Nat}
    (h : a ≤ b) : toSourceFrom start inSource ls a ≤ toSourceFrom start inSource ls b := by
  induction ls generalizing start inSource with
  | nil => exact Nat.le_refl _
  | cons l rest ih =>
    have hl := hfits l List.mem_cons_self
    have hrest : Fits rest := fun m hm => hfits m (List.mem_cons_of_mem l hm)
    have hcol := sourceColumn_mono l (Nat.sub_le_sub_right h start)
    rw [toSourceFrom_cons, toSourceFrom_cons]
    simp only [Bool.and_eq_true, decide_eq_true_eq]
    split
    · rename_i ha
      rw [if_pos ⟨by omega, ha.2⟩]
      exact ih hrest _ _
    · split
      · rename_i ha hb
        -- the first offset is on an earlier line
        have ha : ¬start + l.text.length + l.inserted.length + 1 ≤ a := fun h => ha ⟨h, hb.2⟩
        have hle := sourceColumn_le hl (a - start) (by omega)
        have := le_toSourceFrom rest (start + l.text.length + l.inserted.length + 1)
          (inSource + l.text.length + 1) b
        omega
      · omega

/-- The number of characters of lines joined by line feeds. -/
def joinedLength (ls : List (List Char)) : Nat := (Text.join ['\n'] ls).length

theorem joinedLength_cons (x : List Char) {rest : List (List Char)} (h : rest ≠ []) :
    joinedLength (x :: rest) = x.length + 1 + joinedLength rest := by
  cases rest with
  | nil => exact absurd rfl h
  | cons y more =>
    simp only [joinedLength, Text.join, List.length_append, List.length_cons, List.length_nil]

theorem toSourceFrom_le {ls : List Line} (hfits : Fits ls) (start inSource : Nat) {offset : Nat}
    (h : offset ≤ start + joinedLength (ls.map Line.braced)) :
    toSourceFrom start inSource ls offset ≤ inSource + joinedLength (ls.map (·.text)) := by
  induction ls generalizing start inSource with
  | nil => exact Nat.le_add_right _ _
  | cons l rest ih =>
    have hl := hfits l List.mem_cons_self
    have hlen := length_braced l hl
    rw [toSourceFrom_cons]
    rw [List.map_cons] at h ⊢
    cases rest with
    | nil =>
      simp only [joinedLength, Text.join, List.map_nil] at h ⊢
      have := sourceColumn_le hl (offset - start) (by omega)
      simp only [List.isEmpty_nil, Bool.not_true, Bool.and_false, Bool.false_eq_true, if_false]
      omega
    | cons m more =>
      rw [joinedLength_cons _ (by simp)] at h ⊢
      split
      · have := ih (fun m hm => hfits m (List.mem_cons_of_mem l hm))
          (start + l.text.length + l.inserted.length + 1) (inSource + l.text.length + 1) (by omega)
        omega
      · rename_i hnext
        simp only [List.isEmpty_cons, Bool.not_false, Bool.and_true, decide_eq_true_eq] at hnext
        have := sourceColumn_le hl (offset - start) (by omega)
        omega

/-- Offsets that lead to one place of the source have only characters between them that were
inserted into one line. -/
theorem inserted_of_flat {ls : List Line} (hfits : Fits ls) (start inSource : Nat) {a b : Nat}
    (ha : start ≤ a) (hab : a < b) (hb : b ≤ start + joinedLength (ls.map Line.braced))
    (heq : toSourceFrom start inSource ls a = toSourceFrom start inSource ls b) :
    ∃ l ∈ ls, ∀ x, a ≤ x → x < b → ∃ c ∈ l.inserted, (braced ls)[x - start]? = some c := by
  induction ls generalizing start inSource with
  | nil =>
    simp only [joinedLength, List.map_nil, Text.join, List.length_nil] at hb
    omega
  | cons l rest ih =>
    have hl := hfits l List.mem_cons_self
    have hlen := length_braced l hl
    rw [toSourceFrom_cons, toSourceFrom_cons] at heq
    -- both offsets are on this line
    have hline : b ≤ start + l.braced.length →
        inSource + sourceColumn l (a - start) = inSource + sourceColumn l (b - start) →
        (∀ k, k < l.braced.length → (braced (l :: rest))[k]? = l.braced[k]?) →
        ∃ l' ∈ l :: rest, ∀ x, a ≤ x → x < b →
          ∃ c ∈ l'.inserted, (braced (l :: rest))[x - start]? = some c := by
      intro hb' heq hget
      obtain ⟨h1, h2⟩ := inserted_of_sourceColumn (l := l) (a := a - start) (b := b - start)
        (by omega) (by omega)
      refine ⟨l, List.mem_cons_self, fun x hx hx' => ?_⟩
      obtain ⟨c, hc, hget'⟩ := getElem?_braced_inserted hl (k := x - start) (by omega) (by omega)
      exact ⟨c, hc, by rw [hget _ (by omega), hget']⟩
    cases rest with
    | nil =>
      simp only [List.isEmpty_nil, Bool.not_true, Bool.and_false, Bool.false_eq_true,
        if_false] at heq
      exact hline hb heq fun k _ => rfl
    | cons m more =>
      rw [List.map_cons, joinedLength_cons _ (by simp)] at hb
      have hbraced : braced (l :: m :: more) = l.braced ++ '\n' :: braced (m :: more) := by
        simp only [braced, List.map_cons, Text.join, List.append_assoc, List.singleton_append]
      simp only [List.isEmpty_cons, Bool.not_false, Bool.and_true, decide_eq_true_eq] at heq
      split at heq
      · rename_i hnext
        rw [if_pos (by omega)] at heq
        obtain ⟨l', hl', hx⟩ := ih (fun m hm => hfits m (List.mem_cons_of_mem l hm)) _ _ hnext
          (by omega) heq
        refine ⟨l', List.mem_cons_of_mem l hl', fun x h1 h2 => ?_⟩
        obtain ⟨c, hc, hget⟩ := hx x h1 h2
        refine ⟨c, hc, ?_⟩
        rw [hbraced, List.getElem?_append_right (by omega),
          show x - start - l.braced.length =
            (x - (start + l.text.length + l.inserted.length + 1)) + 1 by omega,
          List.getElem?_cons_succ, hget]
      · rename_i hnext
        split at heq
        · -- the second offset is on a later line, so it leads further on
          have := sourceColumn_le hl (a - start) (by omega)
          have := le_toSourceFrom (m :: more) (start + l.text.length + l.inserted.length + 1)
            (inSource + l.text.length + 1) b
          omega
        · refine hline (by omega) heq fun k hk => ?_
          rw [hbraced, List.getElem?_append_left hk]

/-! ## Decoration -/

/-- What holds of a decoration whose lines of code so far have numbers below `n`. -/
structure Decorating.Sound (n : Nat) (d : Decorating) : Prop where
  frames : ∀ f ∈ d.stack, f.last + 1 = n ∧ f.line < n ∧ (f.hasContent = true → f.line + 1 < n)
  nested : d.stack.Pairwise fun a b => b.line < a.line
  opens : ∀ x ∈ d.insertions, '{' ∈ x.2 → x.1 + 1 < n
  closes : ∀ x ∈ d.insertions, '}' ∈ x.2 → x.1 < n ∧ ∀ f ∈ d.stack, f.line ≠ x.1
  apart : ∀ x ∈ d.insertions, ∀ y ∈ d.insertions, '{' ∈ x.2 → '}' ∈ y.2 → x.1 ≠ y.1
  marks : ∀ x ∈ d.insertions, ∀ c ∈ x.2, c = ' ' ∨ c = '{' ∨ c = '}' ∨ c = ';'

theorem Decorating.sound_empty (n : Nat) : ({} : Decorating).Sound n :=
  ⟨by simp, .nil, by simp, by simp, by simp, by simp⟩

/-- Noting that a block holds something changes no line. -/
theorem mem_markContent {stack : List Frame} {f : Frame} (h : f ∈ markContent stack) :
    ∃ g ∈ stack, f.line = g.line ∧ f.last = g.last := by
  cases stack with
  | nil => cases h
  | cons g rest =>
    rcases List.mem_cons.mp h with rfl | h
    · exact ⟨g, List.mem_cons_self, rfl, rfl⟩
    · exact ⟨f, List.mem_cons_of_mem g h, rfl, rfl⟩

theorem pairwise_markContent {stack : List Frame}
    (h : stack.Pairwise fun a b => b.line < a.line) :
    (markContent stack).Pairwise fun a b => b.line < a.line := by
  cases stack with
  | nil => exact .nil
  | cons g rest =>
    obtain ⟨h1, h2⟩ := List.pairwise_cons.mp h
    exact .cons h1 h2

namespace Decorating.Sound

variable {n : Nat} {d : Decorating}

/-- Only the stack and the insertions matter. -/
theorem same {d' : Decorating} (h : d.Sound n) (hstack : d'.stack = d.stack)
    (hins : d'.insertions = d.insertions) : d'.Sound n := by
  refine ⟨?_, ?_, ?_, ?_, ?_, ?_⟩
  · rw [hstack]
    exact h.frames
  · rw [hstack]
    exact h.nested
  · rw [hins]
    exact h.opens
  · rw [hstack, hins]
    exact h.closes
  · rw [hins]
    exact h.apart
  · rw [hins]
    exact h.marks

theorem semicolon (h : d.Sound n) (k : Nat) :
    ({ d with insertions := (k, [';']) :: d.insertions } : Decorating).Sound n := by
  have hold : ∀ x ∈ (k, [';']) :: d.insertions, ∀ c, c ≠ ';' → c ∈ x.2 → x ∈ d.insertions := by
    intro x hx c hc hcx
    rcases List.mem_cons.mp hx with rfl | hx
    · exact absurd (List.mem_singleton.mp hcx) hc
    · exact hx
  refine ⟨h.frames, h.nested, ?_, ?_, ?_, ?_⟩
  · intro x hx hopen
    exact h.opens x (hold x hx _ (by decide) hopen) hopen
  · intro x hx hclose
    exact h.closes x (hold x hx _ (by decide) hclose) hclose
  · intro x hx y hy hopen hclose
    exact h.apart x (hold x hx _ (by decide) hopen) y (hold y hy _ (by decide) hclose) hopen hclose
  · intro x hx c hcx
    by_cases hc : c = ';'
    · exact Or.inr (Or.inr (Or.inr hc))
    · exact h.marks x (hold x hx c hc hcx) c hcx

theorem pop {frame : Frame} {outer : List Frame} (h : d.Sound n) (hstack : d.stack = frame :: outer) :
    ({ d with stack := outer } : Decorating).Sound n := by
  have hmem : ∀ f ∈ outer, f ∈ d.stack := fun f hf => hstack ▸ List.mem_cons_of_mem frame hf
  refine ⟨fun f hf => h.frames f (hmem f hf), ?_, h.opens, ?_, h.apart, h.marks⟩
  · exact (List.pairwise_cons.mp (hstack ▸ h.nested)).2
  · intro x hx hclose
    obtain ⟨h1, h2⟩ := h.closes x hx hclose
    exact ⟨h1, fun f hf => h2 f (hmem f hf)⟩

/-- The next line of code belongs to all open blocks. -/
theorem next {i : Nat} (h : d.Sound n) (hn : n ≤ i) :
    ({ d with stack := d.stack.map fun f => { f with last := i } } : Decorating).Sound (i + 1) := by
  refine ⟨?_, ?_, ?_, ?_, h.apart, h.marks⟩
  · intro f hf
    obtain ⟨g, hg, rfl⟩ := List.mem_map.mp hf
    have := h.frames g hg
    exact ⟨rfl, by dsimp only; omega, fun _ => by dsimp only; omega⟩
  · exact h.nested.map _ fun _ _ hab => hab
  · intro x hx hopen
    have := h.opens x hx hopen
    omega
  · intro x hx hclose
    obtain ⟨h1, h2⟩ := h.closes x hx hclose
    refine ⟨by omega, fun f hf => ?_⟩
    obtain ⟨g, hg, rfl⟩ := List.mem_map.mp hf
    exact h2 g hg

/-- A block that was opened on an earlier line may hold something. -/
theorem content (h : d.Sound n) (hlines : ∀ f ∈ d.stack, f.line + 1 < n) :
    ({ d with stack := markContent d.stack } : Decorating).Sound n := by
  refine ⟨?_, pairwise_markContent h.nested, h.opens, ?_, h.apart, h.marks⟩
  · intro f hf
    obtain ⟨g, hg, h1, h2⟩ := mem_markContent hf
    have h3 := h.frames g hg
    have h4 := hlines g hg
    exact ⟨by omega, by omega, fun _ => by omega⟩
  · intro x hx hclose
    obtain ⟨h1, h2⟩ := h.closes x hx hclose
    refine ⟨h1, fun f hf => ?_⟩
    obtain ⟨g, hg, h3, -⟩ := mem_markContent hf
    rw [h3]
    exact h2 g hg

/-- A block is opened on a line after all others. -/
theorem push {i : Nat} (h : d.Sound (i + 1)) (hlines : ∀ f ∈ d.stack, f.line < i)
    (hcloses : ∀ x ∈ d.insertions, '}' ∈ x.2 → x.1 < i) (level : Nat) :
    ({ d with stack := { level, line := i, last := i } :: d.stack } : Decorating).Sound (i + 1) := by
  refine ⟨?_, .cons hlines h.nested, h.opens, ?_, h.apart, h.marks⟩
  · intro f hf
    rcases List.mem_cons.mp hf with rfl | hf
    · exact ⟨rfl, Nat.lt_succ_self i, by simp⟩
    · exact h.frames f hf
  · intro x hx hclose
    have hlt := hcloses x hx hclose
    refine ⟨by omega, fun f hf => ?_⟩
    rcases List.mem_cons.mp hf with rfl | hf
    · dsimp only
      omega
    · exact (h.closes x hx hclose).2 f hf

end Decorating.Sound

/-- Closing the innermost block keeps a decoration sound. -/
theorem closeFrame_sound {n : Nat} {d : Decorating} {frame : Frame} {outer : List Frame}
    (h : d.Sound n) (hstack : d.stack = frame :: outer) : (closeFrame d frame outer).Sound n := by
  have hframes := h.frames
  have hnested := h.nested
  have hcloses := h.closes
  rw [hstack] at hframes hnested hcloses
  obtain ⟨hlast, hline, hcontent⟩ := hframes frame List.mem_cons_self
  obtain ⟨hbelow, houter⟩ := List.pairwise_cons.mp hnested
  unfold closeFrame
  split
  · rename_i hc
    have hlt := hcontent hc
    refine ⟨?_, pairwise_markContent houter, ?_, ?_, ?_, ?_⟩
    · intro f hf
      obtain ⟨g, hg, h1, h2⟩ := mem_markContent hf
      have h3 := hframes g (List.mem_cons_of_mem _ hg)
      have h4 := hbelow g hg
      exact ⟨by omega, by omega, fun _ => by omega⟩
    · intro x hx hopen
      rcases List.mem_cons.mp hx with rfl | hx
      · simp at hopen
      · rcases List.mem_cons.mp hx with rfl | hx
        · exact hlt
        · exact h.opens x hx hopen
    · intro x hx hclose
      rcases List.mem_cons.mp hx with rfl | hx
      · -- blocks around it were opened before
        refine ⟨by dsimp only; omega, fun f hf => ?_⟩
        obtain ⟨g, hg, h1, -⟩ := mem_markContent hf
        have := hbelow g hg
        dsimp only
        omega
      · rcases List.mem_cons.mp hx with rfl | hx
        · simp at hclose
        · obtain ⟨h1, h2⟩ := hcloses x hx hclose
          refine ⟨h1, fun f hf => ?_⟩
          obtain ⟨g, hg, h3, -⟩ := mem_markContent hf
          rw [h3]
          exact h2 g (List.mem_cons_of_mem _ hg)
    · intro x hx y hy hopen hclose
      have hxcase : x = (frame.line, [' ', '{']) ∨ x ∈ d.insertions := by
        rcases List.mem_cons.mp hx with rfl | hx
        · simp at hopen
        · exact List.mem_cons.mp hx
      have hycase : y = (frame.last, ['}']) ∨ y ∈ d.insertions := by
        rcases List.mem_cons.mp hy with rfl | hy
        · exact Or.inl rfl
        · rcases List.mem_cons.mp hy with rfl | hy
          · simp at hclose
          · exact Or.inr hy
      rcases hxcase with rfl | hx <;> rcases hycase with rfl | hy
      · dsimp only
        omega
      · exact (hcloses y hy hclose).2 frame List.mem_cons_self
      · have := h.opens x hx hopen
        dsimp only
        omega
      · exact h.apart x hx y hy hopen hclose
    · intro x hx c hcx
      rcases List.mem_cons.mp hx with rfl | hx
      · simp_all
      · rcases List.mem_cons.mp hx with rfl | hx
        · simp only [List.mem_cons, List.not_mem_nil, or_false] at hcx
          rcases hcx with rfl | rfl <;> simp
        · exact h.marks x hx c hcx
  · exact (h.pop hstack).semicolon frame.line

theorem closeDeeper_sound {n indent fuel : Nat} {d : Decorating} (h : d.Sound n) :
    (closeDeeper indent fuel d).Sound n := by
  induction fuel generalizing d with
  | zero => exact h
  | succ fuel ih =>
    simp only [closeDeeper]
    split
    · exact h
    · rename_i frame outer hstack
      split
      · exact ih (closeFrame_sound h hstack)
      · exact h

theorem closeAll_sound {n : Nat} {d : Decorating} (fuel : Nat) (h : d.Sound n) :
    (closeAll fuel d).Sound n := by
  induction fuel generalizing d with
  | zero => exact h
  | succ fuel ih =>
    simp only [closeAll]
    split
    · exact h
    · rename_i frame outer hstack
      exact ih (closeFrame_sound h hstack)

/-- Reading a line keeps a decoration sound. -/
theorem readLine_sound {n i : Nat} {d : Decorating} (h : d.Sound n) (hn : n ≤ i)
    (body : List Char) : ∃ n', n' ≤ i + 1 ∧ (readLine d i body).Sound n' := by
  unfold readLine
  split
  · exact ⟨n, by omega, h.same rfl rfl⟩
  · dsimp only
    split
    · exact ⟨n, by omega, h.same rfl rfl⟩
    · refine ⟨i + 1, Nat.le_refl _, ?_⟩
      have hd : ({ d with ends := codeStop body :: d.ends } : Decorating).Sound n := h.same rfl rfl
      generalize body.length - (Text.trimLeft body).length = indent
      have hclosed : (closeDeeper indent d.stack.length
          { d with ends := codeStop body :: d.ends }).Sound n := closeDeeper_sound hd
      have hlines : ∀ f ∈ (closeDeeper indent d.stack.length
          { d with ends := codeStop body :: d.ends }).stack.map (fun f => { f with last := i }),
          f.line < i := by
        intro f hf
        obtain ⟨g, hg, rfl⟩ := List.mem_map.mp hf
        have := (hclosed.frames g hg).2.1
        dsimp only
        omega
      have hnext := hclosed.next hn
      split
      · exact (hnext.content fun f hf => Nat.succ_lt_succ (hlines f hf)).semicolon i
      · refine hnext.push hlines (fun x hx hclose => ?_) indent
        have := (hclosed.closes x hx hclose).1
        omega

theorem readLines_sound {n i : Nat} {d : Decorating} (h : d.Sound n) (hn : n ≤ i)
    (bodies : List (List Char)) : ∃ n', (readLines d i bodies).Sound n' := by
  induction bodies generalizing d i n with
  | nil => exact ⟨n, h⟩
  | cons body rest ih =>
    obtain ⟨n', hn', h'⟩ := readLine_sound h hn body
    exact ih h' hn'

/-- What is inserted into a line. -/
theorem mem_insertedInto {insertions : List Insertion} {i : Nat} {c : Char} :
    c ∈ insertedInto insertions i ↔ ∃ x ∈ insertions, x.1 = i ∧ c ∈ x.2 := by
  simp [insertedInto, List.mem_flatMap, and_assoc]

/-- Only brackets, semicolons and blanks are inserted, and into no line both an opening and a
closing bracket. -/
theorem decorate_apart {source : List Char} {l : Line} (hl : l ∈ decorate source) :
    ¬('{' ∈ l.inserted ∧ '}' ∈ l.inserted) ∧
      ∀ c ∈ l.inserted, c = ' ' ∨ c = '{' ∨ c = '}' ∨ c = ';' := by
  obtain ⟨n, hsound⟩ := readLines_sound (Decorating.sound_empty 0) (Nat.le_refl 0)
    ((Text.lines source).map withoutReturn)
  simp only [decorate, List.mem_map] at hl
  obtain ⟨⟨text, i⟩, -, rfl⟩ := hl
  have hclosed := closeAll_sound
    (readLines {} 0 ((Text.lines source).map withoutReturn)).stack.length hsound
  constructor
  · rintro ⟨hopen, hclose⟩
    obtain ⟨x, hx, hxi, hcx⟩ := mem_insertedInto.mp hopen
    obtain ⟨y, hy, hyi, hcy⟩ := mem_insertedInto.mp hclose
    exact hclosed.apart x (List.mem_reverse.mp hx) y (List.mem_reverse.mp hy) hcx hcy
      (hxi.trans hyi.symm)
  · intro c hc
    obtain ⟨x, hx, -, hcx⟩ := mem_insertedInto.mp hc
    exact hclosed.marks x (List.mem_reverse.mp hx) c hcx

/-! ## Where code stops -/

theorem closeFrame_ends (d : Decorating) (frame : Frame) (outer : List Frame) :
    (closeFrame d frame outer).ends = d.ends := by
  unfold closeFrame
  split <;> rfl

theorem closeDeeper_ends (indent fuel : Nat) (d : Decorating) :
    (closeDeeper indent fuel d).ends = d.ends := by
  induction fuel generalizing d with
  | zero => rfl
  | succ fuel ih =>
    simp only [closeDeeper]
    split
    · rfl
    · split
      · rw [ih, closeFrame_ends]
      · rfl

theorem closeAll_ends (fuel : Nat) (d : Decorating) : (closeAll fuel d).ends = d.ends := by
  induction fuel generalizing d with
  | zero => rfl
  | succ fuel ih =>
    simp only [closeAll]
    split
    · rfl
    · rw [ih, closeFrame_ends]

theorem length_dropWhile_le (test : Char → Bool) (cs : List Char) :
    (cs.dropWhile test).length ≤ cs.length :=
  (List.dropWhile_sublist test).length_le

theorem codeStop_le (body : List Char) : codeStop body ≤ body.length := by
  unfold codeStop Text.trimRight
  rw [List.length_reverse]
  refine Nat.le_trans (length_dropWhile_le _ _) ?_
  rw [List.length_reverse, List.length_take]
  exact Nat.min_le_right _ _

/-- Reading a line notes where its code stops, in a comment that it stops at once. -/
theorem readLine_ends (d : Decorating) (i : Nat) (body : List Char) :
    (readLine d i body).ends = (if d.inComment then 0 else codeStop body) :: d.ends := by
  unfold readLine
  split
  · rfl
  · dsimp only
    split
    · rfl
    · split
      · exact closeDeeper_ends _ _ _
      · exact closeDeeper_ends _ _ _

theorem readLines_ends (d : Decorating) (i : Nat) (bodies : List (List Char)) :
    ∃ stops, (readLines d i bodies).ends.reverse = d.ends.reverse ++ stops ∧
      ∀ (k : Nat) (body : List Char), bodies[k]? = some body → stops.getD k 0 ≤ body.length := by
  induction bodies generalizing d i with
  | nil => exact ⟨[], by simp [readLines], by simp⟩
  | cons body rest ih =>
    obtain ⟨stops, hstops, hle⟩ := ih (readLine d i body) (i + 1)
    refine ⟨(if d.inComment then 0 else codeStop body) :: stops, ?_, ?_⟩
    · rw [readLines, hstops, readLine_ends]
      simp
    · intro k body' hk
      cases k with
      | zero =>
        cases hk
        rw [List.getD_cons_zero]
        split
        · exact Nat.zero_le _
        · exact codeStop_le body
      | succ k => exact hle k body' hk

theorem length_withoutReturn_le (line : List Char) : (withoutReturn line).length ≤ line.length := by
  unfold withoutReturn
  split
  · rw [List.length_dropLast]
    exact Nat.sub_le _ _
  · exact Nat.le_refl _

/-- The code of a line stops before the carriage return that ends it. -/
theorem decorate_codeStop {source : List Char} {l : Line} (hl : l ∈ decorate source) :
    l.codeStop ≤ (withoutReturn l.text).length := by
  obtain ⟨stops, hstops, hle⟩ := readLines_ends {} 0 ((Text.lines source).map withoutReturn)
  simp only [decorate, List.mem_map] at hl
  obtain ⟨⟨text, i⟩, hmem, rfl⟩ := hl
  have hget : (Text.lines source)[i]? = some text := List.mem_zipIdx_iff_getElem?.mp hmem
  dsimp only
  rw [closeAll_ends, hstops]
  refine hle i (withoutReturn text) ?_
  rw [List.getElem?_map, hget]
  rfl

theorem decorate_fits (source : List Char) : Fits (decorate source) := fun l hl =>
  Nat.le_trans (decorate_codeStop hl) (length_withoutReturn_le l.text)

/-! ## The decorated text -/

theorem map_text_decorate (source : List Char) :
    (decorate source).map (·.text) = Text.lines source := by
  simp only [decorate, List.map_map]
  exact List.zipIdx_map_fst 0 (Text.lines source)

theorem toSource_mono (source : List Char) {a b : Nat} (h : a ≤ b) :
    toSource (decorate source) a ≤ toSource (decorate source) b :=
  toSourceFrom_mono (decorate_fits source) 0 0 h

theorem toSource_le (source : List Char) (offset : Nat)
    (h : offset ≤ (braced (decorate source)).length) :
    toSource (decorate source) offset ≤ source.length := by
  have hle : offset ≤ 0 + joinedLength ((decorate source).map Line.braced) := by
    rw [Nat.zero_add]
    exact h
  have := toSourceFrom_le (decorate_fits source) 0 0 hle
  rw [map_text_decorate, joinedLength, Text.join_lines, Nat.zero_add] at this
  exact this

/-- Everything between two offsets that lead to one place is inserted into one line. -/
theorem inserted_of_toSource_eq {source : List Char} {a b : Nat} (hab : a < b)
    (hb : b ≤ (braced (decorate source)).length)
    (heq : toSource (decorate source) a = toSource (decorate source) b) :
    ∃ l ∈ decorate source, ∀ x c, a ≤ x → x < b → (braced (decorate source))[x]? = some c →
      c ∈ l.inserted := by
  obtain ⟨l, hl, hin⟩ := inserted_of_flat (decorate_fits source) 0 0 (Nat.zero_le a) hab
    (by rw [Nat.zero_add]; exact hb) heq
  refine ⟨l, hl, fun x c h1 h2 hc => ?_⟩
  obtain ⟨c', hc', hget⟩ := hin x h1 h2
  rw [Nat.sub_zero, hc, Option.some.injEq] at hget
  rw [hget]
  exact hc'

/-- Between two offsets that lead to one place there is no character but those that are inserted. -/
theorem toSource_lt_of_char {source : List Char} {a b x : Nat} {c : Char} (h1 : a ≤ x) (h2 : x < b)
    (hb : b ≤ (braced (decorate source)).length) (hx : (braced (decorate source))[x]? = some c)
    (hc : c ∉ [' ', '{', '}', ';']) :
    toSource (decorate source) a < toSource (decorate source) b := by
  refine Nat.lt_of_le_of_ne (toSource_mono source (by omega)) fun heq => hc ?_
  obtain ⟨l, hl, hin⟩ := inserted_of_toSource_eq (by omega) hb heq
  simpa using (decorate_apart hl).2 c (hin x c h1 h2 hx)

/-- Between two offsets that lead to one place there is neither a colon, nor both an opening and a
closing bracket. -/
theorem toSource_lt {source : List Char} {a b : Nat} (hab : a < b)
    (hb : b ≤ (braced (decorate source)).length)
    (h : (∃ x, a ≤ x ∧ x < b ∧ (braced (decorate source))[x]? = some ':') ∨
      ∃ x y, a ≤ x ∧ x < b ∧ a ≤ y ∧ y < b ∧ (braced (decorate source))[x]? = some '{' ∧
        (braced (decorate source))[y]? = some '}') :
    toSource (decorate source) a < toSource (decorate source) b := by
  rcases h with ⟨x, h1, h2, hc⟩ | ⟨x, y, h1, h2, h3, h4, hx, hy⟩
  · exact toSource_lt_of_char h1 h2 hb hc (by decide)
  · refine Nat.lt_of_le_of_ne (toSource_mono source (Nat.le_of_lt hab)) fun heq => ?_
    obtain ⟨l, hl, hin⟩ := inserted_of_toSource_eq hab hb heq
    exact (decorate_apart hl).1 ⟨hin x _ h1 h2 hx, hin y _ h3 h4 hy⟩

/-! ## Line breaks -/

/-- The column at the end of a line that ends with a carriage return comes from the end of the
decorated line, which ends with it too. -/
theorem braced_of_sourceColumn {l : Line} {column j : Nat}
    (hstop : l.codeStop ≤ (withoutReturn l.text).length) (hlen : l.text.length = j + 1)
    (hreturn : l.text[j]? = some '\r') (h : sourceColumn l column = j + 1) :
    column = l.braced.length ∧ l.braced[column - 1]? = some '\r' := by
  have hlast : l.text.getLast? = some '\r' := by
    rw [List.getLast?_eq_getElem?, hlen]
    exact hreturn
  rw [withoutReturn, hlast, if_pos (by rfl), List.length_dropLast, hlen, Nat.add_sub_cancel] at hstop
  have hcolumn : column = j + 1 + l.inserted.length := by
    unfold sourceColumn at h
    split at h <;> (try split at h) <;> omega
  have hbraced := length_braced l (by omega)
  refine ⟨by omega, ?_⟩
  have htake : (l.text.take l.codeStop).length = l.codeStop := by
    rw [List.length_take]
    omega
  rw [Line.braced, List.getElem?_append_right (by rw [List.length_append]; omega),
    List.length_append, htake, List.getElem?_drop]
  rw [show l.codeStop + (column - 1 - (l.codeStop + l.inserted.length)) = j by omega]
  exact hreturn

/-- An offset inside a line break of the source comes from one inside a line break. -/
theorem break_of_toSourceFrom {ls : List Line}
    (hstops : ∀ l ∈ ls, l.codeStop ≤ (withoutReturn l.text).length)
    (hlines : ∀ l ∈ ls, '\n' ∉ l.text) (start inSource : Nat) {offset j : Nat}
    (hoffset : offset ≤ start + joinedLength (ls.map Line.braced)) (hstart : start ≤ offset)
    (h : toSourceFrom start inSource ls offset = inSource + (j + 1))
    (hreturn : (Text.join ['\n'] (ls.map (·.text)))[j]? = some '\r')
    (hfeed : (Text.join ['\n'] (ls.map (·.text)))[j + 1]? = some '\n') :
    ∃ k, offset = start + (k + 1) ∧ (braced ls)[k]? = some '\r' ∧ (braced ls)[k + 1]? = some '\n' := by
  induction ls generalizing start inSource j with
  | nil => cases hfeed
  | cons l rest ih =>
    have hstop := hstops l List.mem_cons_self
    have hl : l.codeStop ≤ l.text.length := Nat.le_trans hstop (length_withoutReturn_le l.text)
    have hnot := hlines l List.mem_cons_self
    have hlen := length_braced l hl
    rw [toSourceFrom_cons] at h
    cases rest with
    | nil => exact absurd (List.mem_of_getElem? hfeed) hnot
    | cons m more =>
      have htext : Text.join ['\n'] ((l :: m :: more).map (·.text)) =
          l.text ++ '\n' :: Text.join ['\n'] ((m :: more).map (·.text)) := by
        simp only [List.map_cons, Text.join, List.append_assoc, List.singleton_append]
      have hbraced : braced (l :: m :: more) = l.braced ++ '\n' :: braced (m :: more) := by
        simp only [braced, List.map_cons, Text.join, List.append_assoc, List.singleton_append]
      rw [htext] at hreturn hfeed
      rw [List.map_cons, joinedLength_cons _ (by simp)] at hoffset
      rw [hbraced]
      simp only [List.isEmpty_cons, Bool.not_false, Bool.and_true, decide_eq_true_eq] at h
      split at h
      · -- the line break ends a later line
        rename_i hnext
        have hge := le_toSourceFrom (m :: more) (start + l.text.length + l.inserted.length + 1)
          (inSource + l.text.length + 1) offset
        obtain ⟨j, rfl⟩ | hj : (∃ i, j = l.text.length + 1 + i) ∨ j = l.text.length := by
          rcases Nat.lt_or_ge l.text.length j with hlt | hle
          · exact Or.inl ⟨j - (l.text.length + 1), by omega⟩
          · exact Or.inr (by omega)
        · have hget : ∀ i, (l.text ++ '\n' :: Text.join ['\n'] ((m :: more).map (·.text)))[
              l.text.length + 1 + i]? = (Text.join ['\n'] ((m :: more).map (·.text)))[i]? := by
            intro i
            rw [List.getElem?_append_right (by omega),
              show l.text.length + 1 + i - l.text.length = i + 1 by omega, List.getElem?_cons_succ]
          rw [hget] at hreturn
          rw [Nat.add_assoc (l.text.length + 1) j 1, hget] at hfeed
          obtain ⟨k, hk, h1, h2⟩ := ih (fun x hx => hstops x (List.mem_cons_of_mem l hx))
            (fun x hx => hlines x (List.mem_cons_of_mem l hx)) _ (inSource + l.text.length + 1)
            (by omega) hnext (by omega) hreturn hfeed
          have hget' : ∀ i, (l.braced ++ '\n' :: braced (m :: more))[l.braced.length + 1 + i]? =
              (braced (m :: more))[i]? := by
            intro i
            rw [List.getElem?_append_right (by omega),
              show l.braced.length + 1 + i - l.braced.length = i + 1 by omega,
              List.getElem?_cons_succ]
          exact ⟨l.braced.length + 1 + k, by omega, by rw [hget', h1], by
            rw [Nat.add_assoc _ k 1, hget', h2]⟩
        · rw [hj, List.getElem?_append_right (Nat.le_refl _), Nat.sub_self] at hreturn
          cases hreturn
      · have hcolumn : sourceColumn l (offset - start) = j + 1 := by omega
        have hle := sourceColumn_le hl (offset - start) (by omega)
        have hj : l.text.length = j + 1 := by
          refine Nat.le_antisymm (Nat.le_of_not_lt fun hlt => hnot ?_) (by omega)
          rw [List.getElem?_append_left hlt] at hfeed
          exact List.mem_of_getElem? hfeed
        rw [List.getElem?_append_left (by omega)] at hreturn
        obtain ⟨h1, h2⟩ := braced_of_sourceColumn hstop hj hreturn hcolumn
        refine ⟨offset - start - 1, by omega, ?_, ?_⟩
        · rw [List.getElem?_append_left (by omega), h2]
        · rw [List.getElem?_append_right (by omega),
            show offset - start - 1 + 1 - l.braced.length = 0 by omega]
          rfl

/-- A cut of the decorated text that goes through no line break is one of the source. -/
theorem cuttable_toSource {source : List Char} {offset : Nat}
    (hoffset : offset ≤ (braced (decorate source)).length)
    (h : Cuttable (braced (decorate source)).toArray offset) :
    Cuttable source.toArray (toSource (decorate source) offset) := by
  rintro ⟨j, hj, hreturn, hfeed⟩
  rw [hj] at hfeed
  rw [List.getElem?_toArray] at hreturn hfeed
  have htext : Text.join ['\n'] ((decorate source).map (·.text)) = source := by
    rw [map_text_decorate, Text.join_lines]
  obtain ⟨k, hk, h1, h2⟩ := break_of_toSourceFrom (fun _ => decorate_codeStop)
    (fun l hl => Text.not_mem_lines (map_text_decorate source ▸ List.mem_map_of_mem hl)) 0 0
    (by rw [Nat.zero_add]; exact hoffset) (Nat.zero_le offset) (by rw [Nat.zero_add]; exact hj)
    (by rw [htext]; exact hreturn) (by rw [htext]; exact hfeed)
  rw [Nat.zero_add] at hk
  exact h ⟨k, hk, by rw [List.getElem?_toArray, h1], by rw [hk, List.getElem?_toArray, h2]⟩

end MemberOrder.Style.Indented
