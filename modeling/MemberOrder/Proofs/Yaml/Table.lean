/-
  What a table of lines tells, given the lines.

  Where a table `Holds` lines from a number on, the text up to each of their columns is known
  (`Plain.toList_eq`), and so are the offset there, its line (`Plain.lineAt_eq`) and the text between two such
  places (`Plain.slice_eq`). A table is `Plain` if its lines are those of its text.
-/
import MemberOrder.Proofs.Source.Lines
import MemberOrder.Proofs.Text.Offsets
import MemberOrder.Yaml.Entries

namespace MemberOrder.Yaml

/-- Lines, each after a line break. -/
def below (lines : List (List Char)) : List Char := lines.flatMap fun line => '\n' :: line

theorem below_cons (line : List Char) (rest : List (List Char)) :
    below (line :: rest) = '\n' :: (line ++ below rest) := rfl

theorem join_eq_below (line : List Char) (rest : List (List Char)) :
    Text.join ['\n'] (line :: rest) = line ++ below rest := by
  induction rest generalizing line with
  | nil => exact (List.append_nil line).symm
  | cons next rest ih => rw [Text.join_cons (by simp), ih, below_cons]

namespace LineTable

/-- The lines of a table from a number on. -/
structure Holds (t : LineTable) (n : Nat) (ls : List (List Char)) : Prop where
  pos : 1 ≤ n
  get : ∀ i (h : i < ls.length), t.lines[n - 1 + i]? = some ls[i]

namespace Holds

variable {t : LineTable} {n : Nat} {line : List Char} {a b ls : List (List Char)}

theorem append (h : t.Holds n (a ++ b)) : t.Holds n a ∧ t.Holds (n + a.length) b := by
  have hpos := h.pos
  refine ⟨⟨hpos, fun i hi => ?_⟩, ⟨by omega, fun i hi => ?_⟩⟩
  · rw [h.get i (by rw [List.length_append]; omega), List.getElem_append_left hi]
  · have hindex : n + a.length - 1 + i = n - 1 + (a.length + i) := by omega
    rw [hindex, h.get (a.length + i) (by rw [List.length_append]; omega)]
    simp

theorem line_eq (h : t.Holds n (line :: ls)) : t.line n = line := by
  have hpos := h.pos
  have hget := h.get 0 (by simp)
  have hne : (n == 0) = false := by
    rw [beq_eq_false_iff_ne]
    omega
  rw [Nat.add_zero] at hget
  rw [LineTable.line, hne, if_neg (by decide), Array.getD_eq_getD_getElem?, hget]
  rfl

theorem tail (h : t.Holds n (line :: ls)) : t.Holds (n + 1) ls :=
  (append (a := [line]) h).2

end Holds

/-! ## Offsets -/

/-- The text up to a column of a line. -/
def upTo (t : LineTable) (n c : Nat) : List Char :=
  (t.lines.toList.take (n - 1)).flatMap (· ++ ['\n']) ++ (t.line n).take c

/-- The lines of a table are those of its text, and its offsets are theirs. -/
structure Plain (t : LineTable) : Prop where
  lines_eq : t.lines.toList = Text.lines t.source.toList
  index_eq : t.index = Lines.ofText t.source

section Offsets

variable {t : LineTable} {n : Nat} {line next : List Char} {ls mid : List (List Char)}

theorem Plain.unbroken (h : t.Plain) (hn : t.Holds n (line :: ls)) : '\n' ∉ line := by
  have hget := hn.get 0 (by simp)
  have hmem : line ∈ t.lines.toList := Array.mem_toList_iff.mpr (Array.mem_of_getElem? hget)
  rw [h.lines_eq] at hmem
  exact Text.not_mem_lines hmem

theorem Holds.split (hn : t.Holds n (line :: ls)) :
    t.lines.toList = t.lines.toList.take (n - 1) ++ line :: t.lines.toList.drop n := by
  have hpos := hn.pos
  have hget : t.lines.toList[n - 1]? = some line := by
    rw [Array.getElem?_toList]
    exact hn.get 0 (by simp)
  obtain ⟨hlt, hline⟩ := List.getElem?_eq_some_iff.mp hget
  have hn' : n - 1 + 1 = n := by omega
  calc t.lines.toList
      = t.lines.toList.take (n - 1) ++ t.lines.toList.drop (n - 1) := (List.take_append_drop _ _).symm
    _ = _ := by rw [List.drop_eq_getElem_cons hlt, hline, hn']

theorem join_append (a : List (List Char)) (x : List Char) (b : List (List Char)) :
    Text.join ['\n'] (a ++ x :: b) = a.flatMap (· ++ ['\n']) ++ (x ++ below b) := by
  induction a with
  | nil => exact join_eq_below x b
  | cons y a ih =>
    rw [List.cons_append, Text.join_cons (by simp), ih, List.flatMap_cons, List.append_assoc,
      List.append_assoc]
    rfl

theorem Plain.toList_eq (h : t.Plain) (hn : t.Holds n (line :: ls)) (c : Nat) :
    t.source.toList = t.upTo n c ++ (line.drop c ++ below (t.lines.toList.drop n)) := by
  have hjoin : Text.join ['\n'] t.lines.toList = t.source.toList := by
    rw [h.lines_eq, Text.join_lines]
  rw [hn.split, join_append] at hjoin
  rw [← hjoin, upTo, hn.line_eq, List.append_assoc, ← List.append_assoc (line.take c),
    List.take_append_drop]

theorem count_flatMap_feed {a : List (List Char)} (h : ∀ x ∈ a, '\n' ∉ x) :
    (a.flatMap (· ++ ['\n'])).count '\n' = a.length := by
  induction a with
  | nil => rfl
  | cons x a ih =>
    have hx : x.count '\n' = 0 := List.count_eq_zero.mpr (h x List.mem_cons_self)
    rw [List.flatMap_cons, List.count_append, List.count_append, hx,
      ih fun y hy => h y (List.mem_cons_of_mem x hy), List.length_cons]
    show 0 + 1 + a.length = _
    omega

/-- The table cuts its text at each line. -/
theorem Plain.isLine (h : t.Plain) (hn : t.Holds n (line :: ls)) :
    IsLine t.source.toList (t.upTo n 0) line (below (t.lines.toList.drop n)) ∧
      (t.upTo n 0).count '\n' + 1 = n := by
  have hpos := hn.pos
  have hbefore : t.upTo n 0 = (t.lines.toList.take (n - 1)).flatMap (· ++ ['\n']) := by
    rw [upTo, List.take_zero, List.append_nil]
  refine ⟨⟨h.toList_eq hn 0, h.unbroken hn, ?_⟩, ?_⟩
  · rw [hbefore]
    rcases List.eq_nil_or_concat (t.lines.toList.take (n - 1)) with heq | ⟨first, last, heq⟩
    · exact .inl (by rw [heq]; rfl)
    · refine .inr ?_
      rw [heq, List.concat_eq_append, List.flatMap_append]
      simp
  · rw [hbefore, count_flatMap_feed]
    · have hsplit := congrArg List.length hn.split
      simp only [List.length_append, List.length_cons] at hsplit
      rw [List.length_take] at hsplit ⊢
      omega
    · intro x hx
      have hmem := List.mem_of_mem_take hx
      rw [h.lines_eq] at hmem
      exact Text.not_mem_lines hmem

/-- The offset of a place of a line is the length of the text before it. -/
theorem Plain.length_upTo (h : t.Plain) (hn : t.Holds n (line :: ls)) {c : Nat}
    (hc : c ≤ line.length) : (t.upTo n c).length = t.offset n c := by
  obtain ⟨hline, hcount⟩ := h.isLine hn
  have hstart := Lines.lineStart_eq hline
  rw [hcount] at hstart
  rw [offset, h.index_eq, hstart]
  simp only [upTo, hn.line_eq, List.take_zero, List.append_nil, List.length_append, List.length_take]
  omega

theorem Plain.lineAt_eq (h : t.Plain) (hn : t.Holds n (line :: ls)) {c : Nat}
    (hc : c ≤ line.length) : t.index.lineAt (t.offset n c) = n := by
  obtain ⟨hline, hcount⟩ := h.isLine hn
  have hstart := Lines.lineStart_eq hline
  have hat : (t.upTo n 0).length ≤ t.offset n c ∧ t.offset n c ≤ (t.upTo n 0).length + line.length := by
    rw [hcount] at hstart
    rw [offset, h.index_eq, hstart]
    omega
  rw [h.index_eq, Lines.lineAt_eq hline hat.1 hat.2, hcount]

theorem lineEnd_eq (hn : t.Holds n (line :: ls)) : t.lineEnd n = t.offset n line.length := by
  rw [lineEnd, hn.line_eq]

theorem Holds.upTo_succ (hn : t.Holds n (line :: next :: ls)) (c c' : Nat) :
    t.upTo (n + 1) c' = t.upTo n c ++ (line.drop c ++ '\n' :: next.take c') := by
  have hpos := hn.pos
  have hget : t.lines.toList[n - 1]? = some line := by
    rw [Array.getElem?_toList]
    exact hn.get 0 (by simp)
  have hn' : n + 1 - 1 = n - 1 + 1 := by omega
  have htake : t.lines.toList.take (n + 1 - 1) = t.lines.toList.take (n - 1) ++ [line] := by
    rw [hn', List.take_add_one, hget]
    rfl
  rw [upTo, upTo, htake, hn.tail.line_eq, hn.line_eq, List.flatMap_append, List.append_assoc,
    List.append_assoc, ← List.append_assoc (line.take c), List.take_append_drop]
  simp

/-- From a place of a line to one of a later line. -/
theorem Holds.upTo_eq (hn : t.Holds n (line :: (mid ++ next :: ls))) (c c' : Nat) :
    t.upTo (n + mid.length + 1) c' =
      t.upTo n c ++ (line.drop c ++ (below mid ++ '\n' :: next.take c')) := by
  induction mid generalizing n line c with
  | nil => exact hn.upTo_succ c c'
  | cons x mid ih =>
    have hrest := ih hn.tail 0
    have hnumber : n + (x :: mid).length + 1 = n + 1 + mid.length + 1 := by
      rw [List.length_cons]
      omega
    rw [hnumber, hrest, hn.upTo_succ c 0, below_cons]
    simp

/-- The text between two places. -/
theorem Plain.slice_eq (h : t.Plain) {m c c' : Nat} {x y : List Char} {xs ys : List (List Char)}
    (hx : t.Holds n (x :: xs)) (hc : c ≤ x.length) (hy : t.Holds m (y :: ys)) (hc' : c' ≤ y.length)
    {between : List Char} (hbetween : t.upTo m c' = t.upTo n c ++ between) :
    t.source.slice (t.offset n c) (t.offset m c') = between := by
  have hsource := h.toList_eq hy c'
  rw [Text.slice_eq_take_drop, ← h.length_upTo hx hc, ← h.length_upTo hy hc', hsource, hbetween,
    List.append_assoc, List.drop_left, List.length_append, Nat.add_sub_cancel_left, List.take_left]

/-- A piece of a line. -/
theorem Plain.slice_line (h : t.Plain) {x y z : List Char} (hn : t.Holds n ((x ++ (y ++ z)) :: ls)) :
    t.source.slice (t.offset n x.length) (t.offset n (x.length + y.length)) = y := by
  have hlength : (x ++ (y ++ z)).length = x.length + y.length + z.length := by
    simp only [List.length_append, Nat.add_assoc]
  refine h.slice_eq hn (by omega) hn (by omega) ?_
  have htake : (x ++ (y ++ z)).take (x.length + y.length) = x ++ y := by
    rw [← List.append_assoc, ← List.length_append, List.take_left]
  rw [upTo, upTo, hn.line_eq, htake, List.take_left, List.append_assoc]

theorem Plain.lineEnd_lt (h : t.Plain) (hn : t.Holds n (line :: (mid ++ next :: ls))) {c : Nat}
    (hc : c ≤ next.length) : t.lineEnd n < t.offset (n + mid.length + 1) c := by
  have hnext : t.Holds (n + mid.length + 1) (next :: ls) := by
    have := (hn.tail.append).2
    rwa [Nat.add_right_comm] at this
  have hbetween := congrArg List.length (hn.upTo_eq line.length c)
  rw [List.length_append, h.length_upTo hnext hc, h.length_upTo hn (Nat.le_refl _)] at hbetween
  simp only [List.length_append, List.length_cons] at hbetween
  rw [lineEnd_eq hn]
  omega

end Offsets

end LineTable

/-! ## Lines -/

/-- Whether a line holds data. -/
def holdsData (line : List Char) : Bool :=
  !(Text.isBlank line || (Text.trimLeft line).head? == some '#')

theorem numbersFrom_eq (first last : Nat) :
    numbersFrom first last = List.range' first (last + 1 - first) := by
  rw [numbersFrom, List.range_eq_range', List.map_add_range', Nat.add_zero]

end MemberOrder.Yaml
