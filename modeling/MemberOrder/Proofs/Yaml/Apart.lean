/-
  Documents whose entries come apart.

  Each entry of a block has a strip of lines: the comments directly above the line on which it starts, that
  line, and the lines below it without the blank lines and the comments that end them. Exchanging entries
  exchanges their strips, and what stands between them stays. So the entries of a block come `Apart` if the
  strip of each, with whatever may follow it then, reads as that entry alone, and so on inside of it. Where
  the entries start is known from the places that a loader reports; other lines of data have to be deeper
  (`EntryLines`). A scalar that keeps blank lines after it does not come apart from them.

  The members of such a block are found on these lines (`Sited.members_eq`).
-/
import Mathlib.Data.List.Sort
import Mathlib.Data.List.TakeWhile
import MemberOrder.Proofs.Yaml.Laying
import MemberOrder.Proofs.Yaml.Loading

namespace MemberOrder.Yaml

open LineTable

/-! ## Strips -/

/-- The topmost of the comments directly above a line and below line `floor`, or the line itself. -/
def LineTable.topOf (t : LineTable) (floor number : Nat) : Nat :=
  ((t.commentsAbove floor number).head?.map (·.line)).getD number

/-- The lines of an entry: the topmost of the comments above it, the line on which it starts, and its last
line. -/
structure Strip where
  top : Nat
  line : Nat
  stop : Nat
  deriving Repr, DecidableEq

/-- The strips of entries at a column that start on some lines, below line `floor` and up to `last`. -/
def strips (t : LineTable) (column last : Nat) : (floor : Nat) → List Nat → List Strip
  | _, [] => []
  | floor, n :: rest =>
    let stop := t.trimEntry n column ((rest.head?.map (· - 1)).getD last)
    ⟨t.topOf floor n, n, stop⟩ :: strips t column last stop rest

/-- The text of a strip from a column on. -/
def Strip.text (t : LineTable) (column : Nat) (s : Strip) : List Char :=
  t.source.slice (t.offset s.top column) (t.lineEnd s.stop)

/-- The text of the entry of a strip, without the comments above it. -/
def Strip.entryText (t : LineTable) (column : Nat) (s : Strip) : String :=
  t.source.cut (t.offset s.line column) (t.lineEnd s.stop)

/-- What may follow a strip if strips are exchanged: what stands between two of them, or what follows the
last of them up to line `last`, with what may follow that. -/
def followers (t : LineTable) (last : Nat) (after : List (List Char)) : List Strip → List (List Char)
  | [] => []
  | [s] => after.map (t.source.slice (t.lineEnd s.stop) (t.lineEnd last) ++ ·)
  | s :: next :: rest =>
    t.source.slice (t.lineEnd s.stop) (t.offset next.top 0) :: followers t last after (next :: rest)

/-! ## Where entries start -/

/-- Where no line of data is shallower, siblings are the lines of data at their column. -/
theorem LineTable.siblingLines_eq_filter {t : LineTable} {column : Nat} {ns : List Nat}
    (h : ∀ n ∈ ns, t.isIdle n = false → column ≤ t.indent n) :
    t.siblingLines column ns = ns.filter fun n => !t.isIdle n && t.indent n == column := by
  induction ns with
  | nil => rfl
  | cons n rest ih =>
    rw [siblingLines, List.filter_cons, ih fun m hm => h m (List.mem_cons_of_mem n hm)]
    cases hidle : t.isIdle n with
    | true => rfl
    | false =>
      have hle := h n List.mem_cons_self hidle
      rw [if_neg (by decide), if_neg (Nat.not_lt.mpr hle)]
      rfl

/-- Lines up to `last` on which entries start at a column: the line `first` and others below it. All other
lines of data below `first` are deeper, except that the items of a sequence may be at the column of the key
whose value it is. -/
structure EntryLines (t : LineTable) (areItems : Bool) (column last first : Nat) (others : List Nat) : Prop where
  first_le : first ≤ last
  reaches : column < (t.line first).length
  sorted : (first :: others).Pairwise (· < ·)
  starts : ∀ n ∈ others, n ≤ last ∧ t.isIdle n = false ∧ t.indent n = column ∧ t.isItem n = areItems
  deeper : ∀ n ∈ numbersFrom (first + 1) last, n ∈ others ∨ t.isIdle n = true ∨ column < t.indent n ∨
    areItems = false ∧ t.indent n = column ∧ t.isItem n = true

instance (t : LineTable) (areItems : Bool) (column last first : Nat) (others : List Nat) :
    Decidable (EntryLines t areItems column last first others) :=
  decidable_of_iff
    (first ≤ last ∧ column < (t.line first).length ∧ (first :: others).Pairwise (· < ·) ∧
      (∀ n ∈ others, n ≤ last ∧ t.isIdle n = false ∧ t.indent n = column ∧ t.isItem n = areItems) ∧
      ∀ n ∈ numbersFrom (first + 1) last, n ∈ others ∨ t.isIdle n = true ∨ column < t.indent n ∨
        areItems = false ∧ t.indent n = column ∧ t.isItem n = true)
    ⟨fun ⟨h₁, h₂, h₃, h₄, h₅⟩ => ⟨h₁, h₂, h₃, h₄, h₅⟩,
      fun h => ⟨h.first_le, h.reaches, h.sorted, h.starts, h.deeper⟩⟩

namespace EntryLines

variable {t : LineTable} {areItems : Bool} {column last first n : Nat} {others : List Nat}

theorem mem_numbersFrom {a b n : Nat} : n ∈ numbersFrom a b ↔ a ≤ n ∧ n ≤ b := by
  rw [numbersFrom_eq, List.mem_range'_1]
  omega

theorem lt_of_mem (h : EntryLines t areItems column last first others) (hn : n ∈ others) : first < n :=
  (List.pairwise_cons.mp h.sorted).1 n hn

theorem le_of_mem (h : EntryLines t areItems column last first others) (hn : n ∈ first :: others) :
    first ≤ n ∧ n ≤ last := by
  rcases List.mem_cons.mp hn with rfl | hn
  · exact ⟨Nat.le_refl _, h.first_le⟩
  · exact ⟨Nat.le_of_lt (h.lt_of_mem hn), (h.starts n hn).1⟩

/-- No line of data below the first is shallower than the entries. -/
theorem column_le (h : EntryLines t areItems column last first others) (hlt : first < n) (hle : n ≤ last)
    (hdata : t.isIdle n = false) : column ≤ t.indent n := by
  rcases h.deeper n (mem_numbersFrom.mpr ⟨hlt, hle⟩) with hn | hidle | hdeep | ⟨-, hindent, -⟩
  · exact Nat.le_of_eq (h.starts n hn).2.2.1.symm
  · rw [hidle] at hdata
    cases hdata
  · exact Nat.le_of_lt hdeep
  · exact Nat.le_of_eq hindent.symm

/-- The last entry reaches as far as all of them. -/
theorem regionEnd_eq (h : EntryLines t areItems column last first others) (hn : first ≤ n) :
    t.regionEnd n last column = last := by
  have hnone : ((numbersFrom (n + 1) last).find? fun m => !t.isIdle m && t.indent m < column) = none := by
    rw [List.find?_eq_none]
    intro m hm hshallow
    obtain ⟨hlt, hle⟩ := mem_numbersFrom.mp hm
    rw [Bool.and_eq_true, Bool.not_eq_true', decide_eq_true_eq] at hshallow
    have := h.column_le (by omega) hle hshallow.1
    omega
  rw [regionEnd, hnone]

/-- The lines of data at the column of the entries, below the first. -/
theorem siblingLines_eq (h : EntryLines t areItems column last first others) :
    t.siblingLines column (numbersFrom (first + 1) last) =
      (numbersFrom (first + 1) last).filter fun n => !t.isIdle n && t.indent n == column :=
  siblingLines_eq_filter fun _ hn => h.column_le (mem_numbersFrom.mp hn).1 (mem_numbersFrom.mp hn).2

/-- The scan for the keys of a mapping finds the lines on which entries start. -/
theorem keyLines_eq (h : EntryLines t false column last first others) :
    t.keyLines column first last = first :: others := by
  rw [keyLines, h.siblingLines_eq, List.filter_filter]
  refine congrArg (first :: ·) ?_
  refine ((pairwise_numbersFrom _ _).sublist List.filter_sublist).eq_of_mem_iff
    (List.pairwise_cons.mp h.sorted).2 fun n => ?_
  rw [List.mem_filter, mem_numbersFrom]
  simp only [Bool.and_eq_true, Bool.not_eq_true', beq_iff_eq]
  constructor
  · rintro ⟨hn, hitem, hidle, hindent⟩
    rcases h.deeper n (mem_numbersFrom.mpr hn) with hn | h' | h' | ⟨-, -, h'⟩
    · exact hn
    · rw [hidle] at h'
      cases h'
    · omega
    · rw [hitem] at h'
      cases h'
  · intro hn
    obtain ⟨hle, hidle, hindent, hitem⟩ := h.starts n hn
    exact ⟨⟨h.lt_of_mem hn, hle⟩, hitem, hidle, hindent⟩

/-- The scan for the items of a sequence finds the lines on which they start. -/
theorem itemLines_eq (h : EntryLines t true column last first others) (hidle : t.isIdle first = false)
    (hindent : t.indent first = column) (hitem : t.isItem first = true) :
    t.itemLines column first last = first :: others := by
  have hothers : t.siblingLines column (numbersFrom (first + 1) last) = others := by
    rw [h.siblingLines_eq]
    refine ((pairwise_numbersFrom _ _).sublist List.filter_sublist).eq_of_mem_iff
      (List.pairwise_cons.mp h.sorted).2 fun n => ?_
    rw [List.mem_filter, mem_numbersFrom]
    simp only [Bool.and_eq_true, Bool.not_eq_true', beq_iff_eq]
    constructor
    · rintro ⟨hn, hidle, hindent⟩
      rcases h.deeper n (mem_numbersFrom.mpr hn) with hn | h' | h' | ⟨h', -⟩
      · exact hn
      · rw [hidle] at h'
        cases h'
      · omega
      · cases h'
    · intro hn
      obtain ⟨hle, hidle, hindent, -⟩ := h.starts n hn
      exact ⟨⟨h.lt_of_mem hn, hle⟩, hidle, hindent⟩
  have hnumbers : numbersFrom first last = first :: numbersFrom (first + 1) last := by
    have := h.first_le
    rw [numbersFrom_eq, numbersFrom_eq, show last + 1 - first = last - first + 1 by omega,
      show last + 1 - (first + 1) = last - first by omega, List.range'_succ]
  rw [itemLines, hnumbers, siblingLines, hidle, if_neg (by decide), hindent, if_neg (Nat.lt_irrefl column),
    beq_self_eq_true, if_pos rfl, hothers, List.takeWhile_eq_self_iff]
  exact List.forall_mem_cons.mpr ⟨hitem, fun n hn => (h.starts n hn).2.2.2⟩

end EntryLines

/-- The values of a block with their keys; items have nothing for a key. -/
def childrenOf : Node → List (Data × Node)
  | .scalar _ _ => []
  | .sequence items _ => items.map (noKey, ·)
  | .mapping entries _ => entries.map fun e => (dataOf e.1, e.2)

/-- The data of the entries of a block. -/
def partsOf (node : Node) : Parts := (childrenOf node).map fun child => (child.1, dataOf child.2)

/-- Whether the entries of a node, which are looked for below line `floor`, start on lines at a column. The
keys of a mapping are reported there; merges have none. The first item of a sequence is reported on the
line of its dash, or below it and above the next one. -/
inductive Sited (t : LineTable) (skipped floor last column : Nat) : (areItems : Bool) → List Nat → Node → Prop
  | mapping {first : Nat} {others : List Nat} {entries : List (Node × Node)} {f : Form}
      (hrole : f.role = .plain) (hat : entries.map (fun e => lineOf skipped e.1) = first :: others)
      (hkeys : ∀ e ∈ entries, isMerge e.1 = false ∧ e.1.form.column = column)
      (hlines : EntryLines t false column last first others) :
      Sited t skipped floor last column false (first :: others) (.mapping entries f)
  | sequence {first : Nat} {others : List Nat} {item : Node} {items : List Node} {f : Form}
      (hrole : f.role = .plain) (htag : f.tag = none)
      (hat : floor < first ∧ first ≤ lineOf skipped item ∧
        ∀ n ∈ numbersFrom (first + 1) (lineOf skipped item), t.isItem n = false)
      (hdash : t.isIdle first = false ∧ t.indent first = column ∧ t.isItem first = true)
      (hlength : items.length = others.length)
      (hlines : EntryLines t true column last first others) :
      Sited t skipped floor last column true (first :: others) (.sequence (item :: items) f)

namespace Sited

variable {t : LineTable} {skipped floor last column : Nat} {areItems : Bool} {lines : List Nat} {node : Node}

theorem dataOf_eq (h : Sited t skipped floor last column areItems lines node) :
    dataOf node = blockOf areItems node.form.tag (partsOf node) := by
  cases h with
  | mapping hrole _ _ _ =>
    rw [dataOf, hrole, dataOfEntries_eq_map]
    simp [blockOf, partsOf, childrenOf, Node.form]
  | sequence hrole _ _ _ _ _ =>
    rw [dataOf, hrole, dataOfEach_eq_map]
    simp [blockOf, partsOf, childrenOf, Node.form, Function.comp_def]

theorem mergedInto_eq_nil {entries : List (Node × Node)} (h : ∀ e ∈ entries, isMerge e.1 = false) :
    mergedInto entries = [] := by
  induction entries with
  | nil => rfl
  | cons e rest ih =>
    rw [mergedInto, mergedBy, h e List.mem_cons_self, if_neg (by decide),
      ih fun e he => h e (List.mem_cons_of_mem _ he)]
    rfl

theorem isDivided_eq (h : Sited t skipped floor last column areItems lines node) : isDivided node = true := by
  cases h with
  | @mapping first others entries f hrole hat hkeys _ =>
    have hentries : entriesOf (.mapping entries f) = entries := by
      have hown : entries.filter (fun e => !isMerge e.1) = entries :=
        List.filter_eq_self.mpr fun e he => by rw [(hkeys e he).1]; rfl
      rw [entriesOf, mergedInto_eq_nil fun e he => (hkeys e he).1, hown]
      rfl
    have hne : entries ≠ [] := by
      rintro rfl
      cases hat
    simp [isDivided, Node.isCollection, isEmptyCollection, Node.form, hrole, hentries, hne]
  | sequence hrole _ _ _ _ _ =>
    simp [isDivided, Node.isCollection, isEmptyCollection, Node.form, hrole]

/-- What is placed on a line is the entry that starts there, with the members of its value. -/
def Places (t : LineTable) (skipped column : Nat) (place : (floor number stop : Nat) → Member) (n : Nat)
    (child : Data × Node) : Prop :=
  ∃ name value, ∀ floor stop, place floor n stop =
    attachNested t { t.entry n column stop column floor with name := name, value := value } child.2
      (membersOf t skipped child.2)

theorem dashLine?_eq {first n : Nat} (hfloor : floor < first) (hfirst : t.isItem first = true) (hle : first ≤ n)
    (h : ∀ m ∈ numbersFrom (first + 1) n, t.isItem m = false) : dashLine? t floor n = some first := by
  induction n with
  | zero => omega
  | succ n ih =>
    rw [dashLine?, if_neg (by omega)]
    rcases Nat.eq_or_lt_of_le hle with rfl | hlt
    · rw [hfirst, if_pos rfl]
    · rw [h (n + 1) (EntryLines.mem_numbersFrom.mpr ⟨hlt, Nat.le_refl _⟩), if_neg (by decide)]
      refine ih (by omega) fun m hm => h m ?_
      rw [EntryLines.mem_numbersFrom] at hm ⊢
      omega

theorem mappingMembers_eq {keys : List PlacedKey} {first : Nat} {others : List Nat}
    (hat : keys.map (·.line skipped) = first :: others) (hkeys : ∀ k ∈ keys, k.key.form.column = column)
    (hlines : EntryLines t false column last first others) :
    mappingMembers t skipped keys floor last = some (layOut (placeOnLine t skipped keys column) floor
      (withStops (t.regionEnd · last column) (first :: others))) := by
  have hsorted : (keys.map (·.line skipped)).Pairwise (· < ·) := hat ▸ hlines.sorted
  have hleast : others.foldl min first = first :=
    Block.foldl_min_of_le fun n hn => Nat.le_of_lt (hlines.lt_of_mem hn)
  obtain ⟨k, hk, hline⟩ : ∃ k, keys[0]? = some k ∧ k.line skipped = first := by
    have hget := congrArg (·[0]?) hat
    simpa [List.getElem?_map, Option.map_eq_some_iff] using hget
  have hfound := Block.find?_of_pairwise (PlacedKey.line skipped) hsorted hk
  rw [hline] at hfound
  unfold mappingMembers
  dsimp only
  rw [hat]
  dsimp only
  rw [hleast, hfound, Option.bind_eq_bind, Option.bind_some, hkeys k (List.mem_of_getElem? hk),
    hlines.keyLines_eq]
  rfl

/-- The entries of a node are found on the lines on which they start, also if they are looked for from
further above on. -/
theorem members_eq (h : Sited t skipped floor last column areItems lines node) :
    ∃ place lastStop,
      (∀ above ≤ floor, membersOf t skipped node above last =
        some (layOut place above (withStops lastStop lines))) ∧
      (∀ n ∈ lines, lastStop n = last) ∧ List.Forall₂ (Places t skipped column place) lines (childrenOf node) := by
  cases h with
  | @mapping first others entries f hrole hat hkeys hlines =>
    have hplaced : placeKeys t skipped entries = entries.map fun e => ⟨e.1, e.2, membersOf t skipped e.2⟩ := by
      rw [Block.placeKeys_eq_map, List.filter_eq_self.mpr]
      intro e he
      rw [(hkeys e he).1]
      rfl
    have hlinesOf : (placeKeys t skipped entries).map (·.line skipped) = first :: others := by
      rw [hplaced, List.map_map]
      exact hat
    have hcolumn : ∀ k ∈ placeKeys t skipped entries, k.key.form.column = column := by
      rw [hplaced, List.forall_mem_map]
      exact fun e he => (hkeys e he).2
    refine ⟨placeOnLine t skipped (placeKeys t skipped entries) column, _, fun above _ => ?_,
      fun n hn => hlines.regionEnd_eq (hlines.le_of_mem hn).1, ?_⟩
    · rw [membersOf, hrole]
      exact mappingMembers_eq hlinesOf hcolumn hlines
    · rw [← hat, childrenOf, List.forall₂_map_left_iff, List.forall₂_map_right_iff, List.forall₂_same]
      intro e he
      obtain ⟨j, hj⟩ := List.getElem?_of_mem he
      have hkey : (placeKeys t skipped entries)[j]? = some ⟨e.1, e.2, membersOf t skipped e.2⟩ := by
        rw [hplaced, List.getElem?_map, hj, Option.map_some]
      have hfound := Block.find?_of_pairwise (PlacedKey.line skipped) (hlinesOf ▸ hlines.sorted) hkey
      refine ⟨e.1.displayKey, .node e.2, fun floor stop => ?_⟩
      unfold placeOnLine
      rw [show lineOf skipped e.1 = PlacedKey.line skipped ⟨e.1, e.2, membersOf t skipped e.2⟩ from rfl,
        hfound]
      dsimp only
      rw [(hkeys e he).2]
  | @sequence first others item items f hrole htag hat hdash hlength hlines =>
    have hdash' : ∀ above ≤ floor, dashLine? t above (skipped + item.form.line + 1) = some first :=
      fun above hle => dashLine?_eq (Nat.lt_of_le_of_lt hle hat.1) hdash.2.2 hat.2.1 hat.2.2
    have hitems : t.itemLines (t.indent first) first last = first :: others := by
      rw [hdash.2.1]
      exact hlines.itemLines_eq hdash.1 hdash.2.1 hdash.2.2
    refine ⟨Block.placeItem t column (first :: others) (placeItems t skipped (item :: items)), _,
      fun above hle => ?_, fun n hn => hlines.regionEnd_eq (hlines.le_of_mem hn).1, ?_⟩
    · rw [membersOf, htag, Option.isSome_none, if_neg (by decide)]
      unfold sequenceMembers
      rw [Block.placeItems_eq, List.map_cons, List.head?_cons, Option.bind_eq_bind, Option.bind_some]
      dsimp only
      rw [hdash' above hle, Option.bind_eq_bind, Option.bind_some, hitems, hdash.2.1, if_neg]
      · rfl
      · simp [hlength]
    · rw [List.forall₂_iff_get, childrenOf]
      refine ⟨by simp [hlength], fun j hj hj' => ?_⟩
      rw [List.get_eq_getElem, List.get_eq_getElem, List.getElem_map]
      rw [List.length_map] at hj'
      refine ⟨toString j, .node (item :: items)[j], fun floor stop => ?_⟩
      unfold Block.placeItem
      dsimp only
      rw [Block.idxOf_of_pairwise hlines.sorted (List.getElem?_eq_getElem hj), Block.placeItems_eq,
        List.getElem?_map, List.getElem?_eq_getElem hj']
      rfl

end Sited

/-! ## Blocks whose entries come apart -/

section Apart

variable (load : DataLoader) (tag : Option Tag) (preserve : Bool) (t : LineTable) (skipped : Nat)

mutual

/-- The entries of a block, which are looked for below line `floor` and up to `last`, come apart, and what
follows line `last` may be any of some texts. The first strip is given. Comments above an entry start at its
column, and there are only blanks in front of it. With anchors preserved no item shows the mark of an alias
with a name that a later one shows with the mark of an anchor. -/
inductive Apart : (floor last : Nat) → (after : List (List Char)) → (column : Nat) → (areItems : Bool) →
    Strip → Node → Prop
  | block {floor last : Nat} {after : List (List Char)} {column : Nat} {areItems : Bool} {lines : List Nat}
      {first : Strip} {others : List Strip} {node : Node}
      (hflow : node.form.flow = false)
      (hsited : Sited t skipped floor last column areItems lines node)
      (hstrips : strips t column last floor lines = first :: others)
      (hcomments : ∀ s ∈ first :: others, s.top = s.line ∨ t.indent s.top = column)
      (hblanks : ∀ s ∈ others, (t.line s.top).take column = spaces column)
      (hmarks : areItems = true → preserve = true → (first :: others).Pairwise fun a b =>
        ∀ name ∈ Order.aliasesIn (a.entryText t column), name ∉ Order.anchorsIn (b.entryText t column))
      (hfits : Fits load tag areItems ((partsOf node).map (·.1)))
      (heach : EachApart column areItems (followers t last after (first :: others)) (first :: others)
        (childrenOf node)) :
      Apart floor last after column areItems first node

/-- Each of some strips at a column reads as its entry alone, whatever of some texts follows it. What is
inside comes apart too, unless the value of the entry is no block, or one of which no members are found. -/
inductive EachApart : (column : Nat) → (areItems : Bool) → (follows : List (List Char)) → List Strip →
    List (Data × Node) → Prop
  | nil {column : Nat} {areItems : Bool} {follows : List (List Char)} :
      EachApart column areItems follows [] []
  | leaf {column : Nat} {areItems : Bool} {follows : List (List Char)} {s : Strip} {ss : List Strip}
      {key : Data} {value : Node} {rest : List (Data × Node)}
      (hreads : ∀ g ∈ follows,
        Reads load tag column areItems (spaces column ++ s.text t column ++ g) [(key, dataOf value)])
      (hleaf : isDivided value = false ∨ value.form.flow = true ∨
        membersOf t skipped value s.line s.stop = none)
      (hrest : EachApart column areItems follows ss rest) :
      EachApart column areItems follows (s :: ss) ((key, value) :: rest)
  | nest {column : Nat} {areItems : Bool} {follows : List (List Char)} {s : Strip} {ss : List Strip}
      {key : Data} {value : Node} {rest : List (Data × Node)} {column' : Nat} {inner : Bool} {first : Strip}
      (hreads : ∀ g ∈ follows,
        Reads load tag column areItems (spaces column ++ s.text t column ++ g) [(key, dataOf value)])
      (hbelow : t.offset s.line column < t.offset first.line column')
      (hleads : Leads column column' (t.source.slice (t.offset s.top column) (t.offset first.top column')))
      (happart : Apart s.line s.stop follows column' inner first value)
      (hrest : EachApart column areItems follows ss rest) :
      EachApart column areItems follows (s :: ss) ((key, value) :: rest)

end

end Apart

end MemberOrder.Yaml
