/-
  The records of entries, and the entity of a block.

  What an entry has nested in it does not change where it is (`info_attachNested`). The keys of a mapping
  that are placed are those that are no merges, and those on different lines are told apart by their
  lines (`find?_of_pairwise`, `idxOf_of_pairwise`). The entity of a block has the members that were found;
  comments that open the document are taken from the first (`blockEntity_opened`), and what is left of it
  is what would have been found below these comments (`detach_entry`).
-/
import MemberOrder.Yaml.Document

namespace MemberOrder.Yaml.Block

/-! ## Entries -/

theorem info_attachNested (t : LineTable) (i : MemberInfo) (v : Node) (members : NodeMembers) :
    (attachNested t i v members).info.span = i.span ∧
      (attachNested t i v members).info.unit = i.unit ∧
        (attachNested t i v members).info.comments = i.comments := by
  unfold attachNested
  split
  · exact ⟨rfl, rfl, rfl⟩
  · split
    · split <;> exact ⟨rfl, rfl, rfl⟩
    · exact ⟨rfl, rfl, rfl⟩

/-- The keys that are placed are those that are no merges. -/
theorem placeKeys_eq_map (t : LineTable) (skipped : Nat) (entries : List (Node × Node)) :
    placeKeys t skipped entries = (entries.filter fun e => !isMerge e.1).map
      fun e => ⟨e.1, e.2, membersOf t skipped e.2⟩ := by
  induction entries with
  | nil => rfl
  | cons e rest ih =>
    obtain ⟨key, value⟩ := e
    rw [placeKeys, placeKey, ih]
    cases hmerge : isMerge key with
    | true => rw [List.filter_cons_of_neg (by simp [hmerge]), if_pos rfl, List.nil_append]
    | false =>
      rw [List.filter_cons_of_pos (by simp [hmerge]), if_neg (by decide), List.map_cons,
        List.singleton_append]

theorem placeItems_eq (t : LineTable) (skipped : Nat) (items : List Node) :
    placeItems t skipped items = items.map fun item => ⟨item, membersOf t skipped item⟩ := by
  induction items with
  | nil => rfl
  | cons item rest ih => rw [placeItems, ih, List.map_cons]

/-- Among things on different lines the one on a line is found. -/
theorem find?_of_pairwise {α : Type} (f : α → Nat) {xs : List α}
    (h : (xs.map f).Pairwise (· < ·)) {j : Nat} {x : α} (hj : xs[j]? = some x) :
    xs.reverse.find? (fun y => f y == f x) = some x := by
  induction xs generalizing j with
  | nil => cases hj
  | cons y ys ih =>
    rw [List.map_cons, List.pairwise_cons] at h
    rw [List.reverse_cons, List.find?_append]
    cases j with
    | zero =>
      obtain rfl := Option.some.inj hj
      have hnone : ys.reverse.find? (fun z => f z == f y) = none := by
        rw [List.find?_eq_none]
        intro z hz heq
        have := h.1 (f z) (List.mem_map_of_mem (List.mem_reverse.mp hz))
        rw [beq_iff_eq] at heq
        omega
      rw [hnone, Option.none_or, List.find?_cons, beq_self_eq_true]
    | succ j => rw [ih h.2 hj, Option.some_or]

theorem idxOf_of_pairwise {numbers : List Nat} (h : numbers.Pairwise (· < ·)) {j k : Nat}
    (hj : numbers[j]? = some k) : numbers.idxOf k = j := by
  induction numbers generalizing j with
  | nil => cases hj
  | cons m rest ih =>
    rw [List.pairwise_cons] at h
    cases j with
    | zero =>
      obtain rfl := Option.some.inj hj
      exact List.idxOf_cons_self
    | succ j =>
      have hj : rest[j]? = some k := hj
      have hlt := h.1 k (List.mem_of_getElem? hj)
      rw [List.idxOf_cons, beq_eq_false_iff_ne.mpr (Nat.ne_of_lt hlt), cond_false, ih h.2 hj]

theorem foldl_min_of_le {k : Nat} {ks : List Nat} (h : ∀ x ∈ ks, k ≤ x) : ks.foldl min k = k := by
  induction ks with
  | nil => rfl
  | cons x ks ih =>
    rw [List.foldl_cons, Nat.min_eq_left (h x List.mem_cons_self)]
    exact ih fun y hy => h y (List.mem_cons_of_mem x hy)

/-- What an item of a sequence is laid out to, by the index of its line. -/
def placeItem (t : LineTable) (c : Nat) (numbers : List Nat) (items : List PlacedItem)
    (floor number stop : Nat) : Member :=
  let i := numbers.idxOf number
  let info := t.entry number c stop c floor
  match items[i]? with
  | some p => attachNested t { info with name := toString i, value := .node p.item } p.item p.members
  | none => .leaf info

/-! ## The entity -/

/-- A record without the comments above it. -/
def detach (unit : Span) (i : MemberInfo) : MemberInfo := { i with comments := [], unit := some unit }

/-- Whether comments open a range of lines. -/
def opensRange (t : LineTable) (first last : Nat) (comments : List Comment) : Bool :=
  match comments with
  | c :: _ => some c.line == (numbersFrom first last).find? (!t.isBlank ·)
  | [] => false

/-- The entity of a block of members. -/
structure IsBlock (t : LineTable) (root : Node) (first : Member) (rest : List Member) (e : Entity) :
    Prop where
  members_eq : e.members = first :: rest
  kind_eq : e.kind = entityKind root
  unlined : e.inline = false
  span_eq : e.span = some (t.span first.unitStart ((first :: rest).getLast?.getD first).unitStop)
  body_eq : e.body = e.span
  source_eq : e.sourceText =
    t.source.cut first.unitStart ((first :: rest).getLast?.getD first).unitStop
  startLine_eq : e.startLine = t.index.lineAt first.unitStart
  endLine_eq : e.endLine = t.index.lineAt (((first :: rest).getLast?.getD first).unitStop - 1)

section BlockEntity

variable (fileType : FileType) {t : LineTable} (root : Node) (name : String) {first last : Nat}
  {head : Member} (rest : List Member)

/-- Comments that open the document are taken from the first member. -/
theorem blockEntity_opened (h : opensRange t first last head.info.comments = true) :
    IsBlock t root (head.mapInfo (detach (t.span ((head.info.span.map (·.start)).getD 0)
      head.unitStop))) rest (blockEntity fileType t root name first last head rest) := by
  unfold blockEntity
  cases hcomments : head.info.comments with
  | nil =>
    rw [hcomments] at h
    cases h
  | cons c more =>
    rw [hcomments] at h
    have h : (some c.line == (numbersFrom first last).find? (!t.isBlank ·)) = true := h
    simp only [h, if_true]
    exact ⟨rfl, rfl, rfl, rfl, rfl, rfl, rfl, rfl⟩

theorem blockEntity_kept (h : opensRange t first last head.info.comments = false) :
    IsBlock t root head rest (blockEntity fileType t root name first last head rest) := by
  unfold blockEntity
  cases hcomments : head.info.comments with
  | nil => exact ⟨rfl, rfl, rfl, rfl, rfl, rfl, rfl, rfl⟩
  | cons c more =>
    rw [hcomments] at h
    have h : (some c.line == (numbersFrom first last).find? (!t.isBlank ·)) = false := h
    simp only [h, Bool.false_eq_true, if_false]
    exact ⟨rfl, rfl, rfl, rfl, rfl, rfl, rfl, rfl⟩

end BlockEntity

theorem attachNested_detach (t : LineTable) (i : MemberInfo) (v : Node) (members : NodeMembers)
    (unit : Span) :
    (attachNested t i v members).mapInfo (detach unit) = attachNested t (detach unit i) v members := by
  unfold attachNested
  split
  · rfl
  · dsimp only [detach]
    split
    · split <;> rfl
    · rfl

theorem commentsAbove_pred (t : LineTable) (n : Nat) : t.commentsAbove n (n + 1) = [] := by
  rw [LineTable.commentsAbove]
  split
  · rw [if_neg (Nat.lt_irrefl n)]
  · rfl

/-- The record of an entry below comments that were taken from it is that of an entry below their lines. -/
theorem detach_entry (t : LineTable) (n c stop above : Nat) (name : String) (value : MemberOrder.Value) :
    let i (floor : Nat) := { t.entry (n + 1) c stop c floor with name, value }
    detach (t.span (((i above).span.map (·.start)).getD 0) (((i above).unit.map (·.stop)).getD 0)) (i above) =
      i n := by
  intro i
  have hnone := commentsAbove_pred t n
  show _ = ({ t.entry (n + 1) c stop c n with name, value } : MemberInfo)
  unfold LineTable.entry
  rw [hnone]
  rfl

end MemberOrder.Yaml.Block
