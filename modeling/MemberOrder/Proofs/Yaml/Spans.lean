/-
  The spans of the entities of a stream are in the text, and none is turned around.

  A place is a column of a line that reaches as far (`IsPlace`); from a place to the end of a line that is
  not above it the offsets rise (`IsPlace.offset_le_lineEnd`). The entity of a flow collection goes from a
  place to such an end. That of a block collection goes from where its first member starts, with the
  comments above it, to where its last one ends: the lines of members are in the lines of their document
  (`mem_itemLines`, `mem_keyLines`), and a member ends on its line or below (`le_trimEntry`). The columns of
  items are read off the lines, but the columns of keys are those of the nodes; so all that is asked of
  the nodes is that the keys of a mapping at the root are at places of their document (`KeysPlaced`).
-/
import MemberOrder.Proofs.Fallible
import MemberOrder.Proofs.Yaml.Entries
import MemberOrder.Proofs.Yaml.Table

namespace MemberOrder.Yaml

namespace LineTable

/-! ## Places -/

/-- A column of a line, its end included. -/
structure IsPlace (t : LineTable) (number column : Nat) : Prop where
  pos : 1 ≤ number
  le_count : number ≤ t.count
  le_length : column ≤ (t.line number).length

/-- The lines of a text with the carriage returns at their ends. -/
def whole (text : Text) : LineTable := ⟨text, (Text.lines text.toList).toArray, Lines.ofText text⟩

theorem plain_whole (text : Text) : (whole text).Plain := ⟨rfl, rfl⟩

theorem holds_drop (t : LineTable) {n : Nat} (hn : 1 ≤ n) : t.Holds n (t.lines.toList.drop (n - 1)) := by
  refine ⟨hn, fun i hi => ?_⟩
  rw [← Array.getElem?_toList, ← List.getElem?_drop, List.getElem?_eq_getElem hi]

variable {text : Text}

theorem count_ofText (text : Text) : (ofText text).count = (Text.lines text.toList).length := by
  simp [count, ofText]

theorem length_withoutReturn_le (line : List Char) : (withoutReturn line).length ≤ line.length := by
  rw [withoutReturn]
  split
  · rw [List.length_dropLast]
    omega
  · exact Nat.le_refl _

/-- A line of the table is no longer than the line of the text. -/
theorem length_line_ofText_le (text : Text) (n : Nat) :
    ((ofText text).line n).length ≤ ((whole text).line n).length := by
  rw [line, line]
  split
  · exact Nat.le_refl _
  · rw [Array.getD_eq_getD_getElem?, Array.getD_eq_getD_getElem?, ofText, whole, List.getElem?_toArray,
      List.getElem?_toArray, List.getElem?_map]
    cases (Text.lines text.toList)[n - 1]? with
    | none => exact Nat.le_refl _
    | some line => exact length_withoutReturn_le line

/-- A line, with those from it on. -/
theorem holds_line {n : Nat} (hn : 1 ≤ n) (hcount : n ≤ (ofText text).count) :
    (whole text).Holds n ((whole text).line n :: (Text.lines text.toList).drop n) := by
  have hlt : n - 1 < (Text.lines text.toList).length := by
    rw [count_ofText] at hcount
    omega
  have hholds := holds_drop (whole text) hn
  have hlines : (whole text).lines.toList = Text.lines text.toList := rfl
  have hsucc : n - 1 + 1 = n := by omega
  rw [hlines, List.drop_eq_getElem_cons hlt, hsucc] at hholds
  rwa [hholds.line_eq]

theorem lineEnd_le_size {n : Nat} (hn : 1 ≤ n) (hcount : n ≤ (ofText text).count) :
    (ofText text).lineEnd n ≤ text.size := by
  have hplain := plain_whole text
  have hholds := holds_line hn hcount
  have hlength := length_line_ofText_le text n
  have hsource := congrArg List.length (hplain.toList_eq hholds ((whole text).line n).length)
  rw [List.length_append, hplain.length_upTo hholds (Nat.le_refl _), Array.length_toList] at hsource
  have hoffset : (ofText text).lineEnd n ≤ (whole text).offset n ((whole text).line n).length :=
    Nat.add_le_add_left hlength _
  have hsize : (whole text).source.size = text.size := rfl
  omega

/-- From a place on, the ends of lines that are not above come later. -/
theorem IsPlace.offset_le_lineEnd {n c m : Nat} (h : (ofText text).IsPlace n c) (hnm : n ≤ m)
    (hm : m ≤ (ofText text).count) : (ofText text).offset n c ≤ (ofText text).lineEnd m := by
  rcases Nat.eq_or_lt_of_le hnm with rfl | hlt
  · exact Nat.add_le_add_left h.le_length _
  · have hplain := plain_whole text
    obtain ⟨mid, next, rest, hrest, hmid⟩ : ∃ mid next rest,
        (Text.lines text.toList).drop n = mid ++ next :: rest ∧ n + mid.length + 1 = m := by
      rw [count_ofText] at hm
      refine ⟨((Text.lines text.toList).drop n).take (m - 1 - n), (Text.lines text.toList)[m - 1],
        (Text.lines text.toList).drop m, ?_, ?_⟩
      · have hdrop := List.drop_eq_getElem_cons (l := Text.lines text.toList) (i := m - 1) (by omega)
        rw [Nat.sub_add_cancel (by omega)] at hdrop
        calc (Text.lines text.toList).drop n
            = ((Text.lines text.toList).drop n).take (m - 1 - n) ++
                ((Text.lines text.toList).drop n).drop (m - 1 - n) := (List.take_append_drop _ _).symm
          _ = _ := by rw [List.drop_drop, Nat.add_sub_cancel' (by omega), hdrop]
      · rw [List.length_take, List.length_drop]
        omega
    have hholds := holds_line h.pos h.le_count
    rw [hrest] at hholds
    have hends := hplain.lineEnd_lt hholds (Nat.zero_le _)
    rw [hmid] at hends
    have hplace : (ofText text).offset n c ≤ (whole text).lineEnd n :=
      Nat.add_le_add_left (Nat.le_trans h.le_length (length_line_ofText_le text n)) _
    have hnext : (whole text).offset m 0 ≤ (ofText text).lineEnd m := Nat.le_add_right _ _
    omega

theorem indent_le_length (t : LineTable) (n : Nat) : t.indent n ≤ (t.line n).length := by
  rw [indent, indentOf]
  exact (List.takeWhile_sublist _).length_le

/-! ## Extents -/

theorem le_trimEntry (t : LineTable) {number stop : Nat} (column : Nat) (h : number ≤ stop) :
    number ≤ t.trimEntry number column stop ∧ t.trimEntry number column stop ≤ stop := by
  induction stop with
  | zero => exact ⟨h, Nat.le_refl _⟩
  | succ stop ih =>
    rw [trimEntry]
    split
    · rename_i hcut
      rw [Bool.and_eq_true, decide_eq_true_eq] at hcut
      have := ih (by omega)
      omega
    · exact ⟨h, Nat.le_refl _⟩

theorem le_regionEnd (t : LineTable) {number last : Nat} (column : Nat) (h : number ≤ last) :
    number ≤ t.regionEnd number last column ∧ t.regionEnd number last column ≤ last := by
  rw [regionEnd]
  split
  · rename_i n hn
    have hmem := List.mem_of_find?_eq_some hn
    rw [numbersFrom_eq, List.mem_range'_1] at hmem
    omega
  · exact ⟨h, Nat.le_refl _⟩

/-- The comments above a line start at places above it. -/
theorem place_of_commentsAbove {t : LineTable} {floor number : Nat} {c : Comment}
    (h : c ∈ t.commentsAbove floor number) :
    floor < c.line ∧ c.line < number ∧ c.offset = t.offset c.line (t.indent c.line) := by
  induction number with
  | zero => cases h
  | succ above ih =>
    rw [commentsAbove] at h
    split at h
    · rename_i comment hcomment
      split at h
      · rename_i hfloor
        rcases List.mem_append.mp h with h | h
        · obtain ⟨hn, hlt, hoffset⟩ := ih h
          exact ⟨hn, by omega, hoffset⟩
        · obtain rfl := List.mem_singleton.mp h
          rw [comment?] at hcomment
          split at hcomment
          · cases hcomment
            exact ⟨hfloor, Nat.lt_succ_self above, rfl⟩
          · cases hcomment
      · cases h
    · cases h

/-- The lines of siblings hold data at their column. -/
theorem mem_siblingLines {t : LineTable} {column n : Nat} {ns : List Nat}
    (h : n ∈ t.siblingLines column ns) : n ∈ ns ∧ t.isIdle n = false ∧ t.indent n = column := by
  induction ns with
  | nil => cases h
  | cons m rest ih =>
    rw [siblingLines] at h
    split at h
    · exact ⟨List.mem_cons_of_mem m (ih h).1, (ih h).2⟩
    rename_i hdata
    split at h
    · cases h
    split at h
    · rename_i heq
      rcases List.mem_cons.mp h with rfl | h
      · exact ⟨List.mem_cons_self, Bool.not_eq_true _ ▸ hdata, eq_of_beq heq⟩
      · exact ⟨List.mem_cons_of_mem m (ih h).1, (ih h).2⟩
    · exact ⟨List.mem_cons_of_mem m (ih h).1, (ih h).2⟩

theorem siblingLines_sublist (t : LineTable) (column : Nat) (ns : List Nat) :
    (t.siblingLines column ns).Sublist ns := by
  induction ns with
  | nil => exact .slnil
  | cons m rest ih =>
    rw [siblingLines]
    split
    · exact ih.cons m
    split
    · exact List.nil_sublist _
    split
    · exact ih.cons_cons m
    · exact ih.cons m

theorem pairwise_numbersFrom (first last : Nat) : (numbersFrom first last).Pairwise (· < ·) := by
  rw [numbersFrom_eq]
  exact List.pairwise_lt_range'

end LineTable

/-! ## Members -/

open LineTable

variable {t : LineTable} {number column stop floor last : Nat}

/-- A member whose entry starts at a column of a line, no comments of which are at or above line `floor`,
and which reaches to the line `stop` at most. -/
structure OnLines (t : LineTable) (number column floor stop : Nat) (m : Member) : Prop where
  span : ∃ s, m.info.span = some s ∧ s.start = t.offset number column
  unitStart : m.unitStart = t.offset number column ∨
    ∃ n, floor < n ∧ n < number ∧ m.unitStart = t.offset n (t.indent n)
  unitStop : number ≤ stop → ∃ n, number ≤ n ∧ n ≤ stop ∧ m.unitStop = t.lineEnd n

/-- An entry, whatever else is known of its member. -/
theorem onLines_entry {keyColumn : Nat} {m : Member}
    (hspan : m.info.span = (t.entry number keyColumn stop column floor).span)
    (hunit : m.info.unit = (t.entry number keyColumn stop column floor).unit) :
    OnLines t number keyColumn floor stop m := by
  refine ⟨⟨_, hspan, rfl⟩, ?_, fun hle => ?_⟩
  · have hstart : m.unitStart = (((t.commentsAbove floor number).head?.map (·.offset)).getD
        (t.offset number keyColumn)) := by
      rw [Member.unitStart, hunit]
      rfl
    rw [hstart]
    cases hfirst : (t.commentsAbove floor number).head? with
    | none => exact .inl rfl
    | some c => exact .inr ⟨_, place_of_commentsAbove (List.mem_of_head? hfirst)⟩
  · obtain ⟨hfrom, hto⟩ := t.le_trimEntry column hle
    refine ⟨_, hfrom, hto, ?_⟩
    rw [Member.unitStop, hunit]
    rfl

theorem onLines_attachNested {keyColumn : Nat} {info : MemberInfo} {value : Node} {members : NodeMembers}
    (hspan : info.span = (t.entry number keyColumn stop column floor).span)
    (hunit : info.unit = (t.entry number keyColumn stop column floor).unit) :
    OnLines t number keyColumn floor stop (attachNested t info value members) := by
  obtain ⟨hs, hu, -⟩ := Block.info_attachNested t info value members
  exact onLines_entry (hs.trans hspan) (hu.trans hunit)

theorem getLast?_withStops (lastStop : Nat → Nat) (ns : List Nat) :
    (withStops lastStop ns).getLast? = ns.getLast?.map fun n => (n, lastStop n) := by
  induction ns with
  | nil => rfl
  | cons n rest ih =>
    cases rest with
    | nil => rfl
    | cons next more =>
      rw [withStops, List.getLast?_cons, List.getLast?_cons, ih, List.getLast?_cons]
      rfl

theorem head?_withStops (lastStop : Nat → Nat) (ns : List Nat) :
    (withStops lastStop ns).head?.map (·.1) = ns.head? := by
  cases ns with
  | nil => rfl
  | cons n rest => cases rest <;> rfl

/-- The first of members that are laid out. -/
theorem head?_layOut (place : (floor number stop : Nat) → Member) (floor : Nat) (pairs : List (Nat × Nat)) :
    (layOut place floor pairs).head? = pairs.head?.map fun p => place floor p.1 p.2 := by
  cases pairs with
  | nil => rfl
  | cons p rest => rfl

/-- The last of members that are laid out. -/
theorem getLast?_layOut (place : (floor number stop : Nat) → Member) (floor : Nat)
    {pairs : List (Nat × Nat)} {number stop : Nat} (h : pairs.getLast? = some (number, stop)) :
    ∃ above, (layOut place floor pairs).getLast? = some (place above number stop) := by
  induction pairs generalizing floor with
  | nil => cases h
  | cons p rest ih =>
    obtain ⟨n, s⟩ := p
    rw [layOut]
    cases rest with
    | nil =>
      cases h
      exact ⟨floor, rfl⟩
    | cons q more =>
      rw [List.getLast?_cons_cons] at h
      obtain ⟨above, hlast⟩ := ih (((place floor n s).info.span.map (·.endLine)).getD 0) h
      refine ⟨above, ?_⟩
      rw [layOut] at hlast ⊢
      rw [List.getLast?_cons_cons]
      exact hlast

/-- Members of which the first starts at a place, with comments at places above, and the last ends with a
line that is not above the first. -/
structure OnPlaces (t : LineTable) (head : Member) (rest : List Member) : Prop where
  start : ∃ number column, t.IsPlace number column ∧
    (∃ s, head.info.span = some s ∧ s.start = t.offset number column) ∧
    (∃ n c, t.IsPlace n c ∧ n ≤ number ∧ head.unitStart = t.offset n c) ∧
    ∃ m, number ≤ m ∧ m ≤ t.count ∧ ((head :: rest).getLast?.getD head).unitStop = t.lineEnd m

/-- Entries that are laid out on lines of a document, of which the first starts at a place. -/
theorem onPlaces_layOut {place : (floor number stop : Nat) → Member} {lines : List Nat} (keyColumn : Nat)
    (hplace : ∀ floor number stop, number ∈ lines →
      ∃ column, OnLines t number column floor stop (place floor number stop))
    (hfirst : ∀ stop, OnLines t number keyColumn floor stop (place floor number stop))
    (hhead : lines.head? = some number) (hat : t.IsPlace number keyColumn)
    (hlines : ∀ n ∈ lines, number ≤ n ∧ n ≤ last) (hcount : last ≤ t.count) {head : Member}
    {rest : List Member}
    (h : layOut place floor (withStops (t.regionEnd · last column) lines) = head :: rest) :
    OnPlaces t head rest := by
  obtain ⟨final, hfinal⟩ : ∃ final, lines.getLast? = some final := by
    cases lines with
    | nil => cases hhead
    | cons n ns => exact ⟨_, List.getLast?_eq_some_getLast (List.cons_ne_nil n ns)⟩
  -- the first member
  have hstarts : ∃ stop, head = place floor number stop := by
    have hlaid := head?_layOut place floor (withStops (t.regionEnd · last column) lines)
    have hnumber := head?_withStops (t.regionEnd · last column) lines
    rw [h, List.head?_cons] at hlaid
    cases hpair : (withStops (t.regionEnd · last column) lines).head? with
    | none =>
      rw [hpair] at hlaid
      cases hlaid
    | some p =>
      rw [hpair, hhead] at hnumber
      rw [hpair] at hlaid
      obtain rfl : p.1 = number := Option.some.inj hnumber
      exact ⟨p.2, Option.some.inj hlaid⟩
  obtain ⟨stop, rfl⟩ := hstarts
  -- the last member
  obtain ⟨above, hlaid⟩ := getLast?_layOut place floor
    ((getLast?_withStops (t.regionEnd · last column) lines).trans (congrArg (Option.map _) hfinal))
  rw [h] at hlaid
  have hmem := List.mem_of_getLast? hfinal
  obtain ⟨hfrom, hto⟩ := hlines final hmem
  obtain ⟨hregion, hregion'⟩ := t.le_regionEnd column hto
  obtain ⟨c, hends⟩ := hplace above final (t.regionEnd final last column) hmem
  obtain ⟨m, hm, hm', hstop⟩ := hends.unitStop hregion
  have hbegins := hfirst stop
  refine ⟨number, keyColumn, hat, hbegins.span, ?_, m, by omega, by omega, by rw [hlaid]; exact hstop⟩
  rcases hbegins.unitStart with hunit | ⟨n, hn, hlt, hunit⟩
  · exact ⟨number, keyColumn, hat, Nat.le_refl _, hunit⟩
  · have hle := hat.le_count
    exact ⟨n, t.indent n, ⟨by omega, by omega, t.indent_le_length n⟩, by omega, hunit⟩

/-- Whether the keys of a mapping that are written there are at places of lines up to one. -/
def KeysAt (t : LineTable) (skipped last : Nat) : Node → Prop
  | .mapping entries _ => ∀ e ∈ entries, isMerge e.1 = false →
      skipped + e.1.form.line + 1 ≤ last ∧
        e.1.form.column ≤ (t.line (skipped + e.1.form.line + 1)).length
  | _ => True

instance (t : LineTable) (skipped last : Nat) : (n : Node) → Decidable (KeysAt t skipped last n)
  | .mapping entries _ => inferInstanceAs (Decidable (∀ e ∈ entries, isMerge e.1 = false → _ ∧ _))
  | .scalar _ _ | .sequence _ _ => inferInstanceAs (Decidable True)

/-- The keys that are placed, each with its entry. -/
theorem mem_placeKeys {t : LineTable} {skipped : Nat} {entries : List (Node × Node)} {k : PlacedKey} :
    k ∈ placeKeys t skipped entries ↔ ∃ e ∈ entries.filter fun e => !isMerge e.1,
      k = ⟨e.1, e.2, membersOf t skipped e.2⟩ := by
  rw [Block.placeKeys_eq_map, List.mem_map]
  exact exists_congr fun e => and_congr_right fun _ => eq_comm

theorem mem_keyLines {n : Nat} (h : n ∈ t.keyLines column number last) (hle : number ≤ last) :
    number ≤ n ∧ n ≤ last := by
  rw [keyLines] at h
  rcases List.mem_cons.mp h with rfl | h
  · exact ⟨Nat.le_refl _, hle⟩
  · have hmem := (mem_siblingLines (List.mem_filter.mp h).1).1
    rw [numbersFrom_eq, List.mem_range'_1] at hmem
    omega

/-- The members of a mapping whose keys are at places. -/
theorem onPlaces_mapping {skipped : Nat} {keys : List PlacedKey}
    (hkeys : ∀ k ∈ keys, k.line skipped ≤ last ∧ k.key.form.column ≤ (t.line (k.line skipped)).length)
    (hcount : last ≤ t.count) {head : Member} {rest : List Member}
    (h : mappingMembers t skipped keys floor last = some (head :: rest)) : OnPlaces t head rest := by
  unfold mappingMembers at h
  dsimp only at h
  split at h
  · cases h
  · rename_i line lines hlines
    obtain ⟨first, hfound, h⟩ := Option.bind_eq_some_iff.mp h
    have htest := List.find?_some hfound
    have hfirst : first.line skipped = lines.foldl min line := eq_of_beq htest
    have hmem : first ∈ keys := List.mem_reverse.mp (List.mem_of_find?_eq_some hfound)
    obtain ⟨hlast, hcolumn⟩ := hkeys first hmem
    rw [← hfirst] at h hfound
    have hpos : 1 ≤ first.line skipped := by
      rw [PlacedKey.line]
      omega
    refine onPlaces_layOut first.key.form.column
      (fun floor number stop _ => ?_) (fun stop => ?_) rfl ⟨hpos, by omega, hcolumn⟩
      (fun n hn => mem_keyLines hn hlast) hcount (Option.some.inj h)
    · split
      · exact ⟨_, onLines_attachNested rfl rfl⟩
      · exact ⟨_, onLines_entry rfl rfl⟩
    · rw [hfound]
      exact onLines_attachNested rfl rfl

/-- The dash that is found is below the floor. -/
theorem floor_lt_dashLine {n dash : Nat} (h : dashLine? t floor n = some dash) : floor < dash := by
  induction n with
  | zero => cases h
  | succ n ih =>
    rw [dashLine?] at h
    split at h
    · cases h
    split at h
    · cases h
      omega
    · exact ih h

/-- The members of a sequence. Their columns are those of the dashes, so nothing is asked of the nodes. -/
theorem onPlaces_sequence {skipped : Nat} {items : List PlacedItem} (hcount : last ≤ t.count)
    {head : Member} {rest : List Member}
    (h : sequenceMembers t skipped items floor last = some (head :: rest)) : OnPlaces t head rest := by
  unfold sequenceMembers at h
  obtain ⟨first, -, h⟩ := Option.bind_eq_some_iff.mp h
  obtain ⟨dash, hdash, h⟩ := Option.bind_eq_some_iff.mp h
  dsimp only at h
  split at h
  · cases h
  · have hlines : ∀ n ∈ t.itemLines (t.indent dash) dash last,
        (dash ≤ n ∧ n ≤ last) ∧ t.indent n = t.indent dash := by
      intro n hn
      obtain ⟨hmem, -, hindent⟩ := mem_siblingLines ((List.takeWhile_sublist _).subset hn)
      rw [numbersFrom_eq, List.mem_range'_1] at hmem
      exact ⟨by omega, hindent⟩
    have hsorted : (t.itemLines (t.indent dash) dash last).Pairwise (· < ·) :=
      ((pairwise_numbersFrom dash last).sublist (siblingLines_sublist t _ _)).sublist
        (List.takeWhile_sublist _)
    have hpos : 1 ≤ dash := Nat.zero_lt_of_lt (floor_lt_dashLine hdash)
    generalize hns : t.itemLines (t.indent dash) dash last = ns at h hlines hsorted
    cases ns with
    | nil => cases h
    | cons number more =>
      obtain ⟨⟨hfrom, hto⟩, hindent⟩ := hlines number List.mem_cons_self
      have hplace (floor n stop : Nat) : OnLines t n (t.indent dash) floor stop
          (Block.placeItem t (t.indent dash) (number :: more) items floor n stop) := by
        unfold Block.placeItem
        dsimp only
        split
        · exact onLines_attachNested rfl rfl
        · exact onLines_entry rfl rfl
      refine onPlaces_layOut (t.indent dash)
        (fun floor n stop _ => ⟨t.indent dash, hplace floor n stop⟩)
        (fun stop => hplace floor number stop) rfl
        ⟨by omega, by omega, hindent ▸ t.indent_le_length number⟩ (fun n hn => ?_) hcount
        (Option.some.inj h)
      · refine ⟨?_, (hlines n hn).1.2⟩
        rcases List.mem_cons.mp hn with rfl | hn
        · exact Nat.le_refl _
        · exact Nat.le_of_lt ((List.pairwise_cons.mp hsorted).1 n hn)

theorem onPlaces_membersOf {skipped : Nat} {root : Node} (hkeys : KeysAt t skipped last root)
    (hcount : last ≤ t.count) {head : Member} {rest : List Member}
    (h : membersOf t skipped root floor last = some (head :: rest)) : OnPlaces t head rest := by
  cases root with
  | scalar value f =>
    rw [membersOf] at h
    cases h
  | sequence items f =>
    rw [membersOf] at h
    split at h
    · cases h
    · exact onPlaces_sequence hcount h
  | mapping entries f =>
    rw [membersOf] at h
    split at h
    · cases h
    · refine onPlaces_mapping (fun k hk => ?_) hcount h
      obtain ⟨e, he, rfl⟩ := mem_placeKeys.mp hk
      obtain ⟨he, hmerge⟩ := List.mem_filter.mp he
      exact hkeys e he ((Bool.not_eq_true' _).mp hmerge)

/-! ## Entities -/

section Entities

variable {text : Text} {first : Nat}

/-- The span of a block goes from its first member, or from where that would start without its comments,
to the end of its last one. -/
theorem blockEntity_span (fileType : FileType) (t : LineTable) (root : Node) (name : String)
    (first last : Nat) (head : Member) (rest : List Member) :
    ∃ start, (blockEntity fileType t root name first last head rest).span =
        some (t.span start ((head :: rest).getLast?.getD head).unitStop) ∧
      (start = head.unitStart ∨ start = (head.info.span.map (·.start)).getD 0) := by
  unfold blockEntity
  dsimp only
  split
  · split
    · -- the comments that open the document are none of the first member's
      refine ⟨(head.info.span.map (·.start)).getD 0, ?_, .inr rfl⟩
      cases head <;> cases rest <;> rfl
    · exact ⟨head.unitStart, rfl, .inl rfl⟩
  · exact ⟨head.unitStart, rfl, .inl rfl⟩

theorem span_blockEntity (fileType : FileType) (root : Node) (name : String) {head : Member}
    {rest : List Member} (h : OnPlaces (ofText text) head rest) {s : Span}
    (hs : (blockEntity fileType (ofText text) root name first last head rest).span = some s) :
    s.start ≤ s.stop ∧ s.stop ≤ text.size := by
  obtain ⟨number, column, hat, ⟨sp, hsp, hstart⟩, ⟨n, c, hplace, hle, hunit⟩, m, hm, hcount, hstop⟩ := h.start
  have hbetween : (ofText text).offset number column ≤ (ofText text).lineEnd m :=
    hat.offset_le_lineEnd hm hcount
  have habove : (ofText text).offset n c ≤ (ofText text).lineEnd m :=
    hplace.offset_le_lineEnd (by omega) hcount
  obtain ⟨start, hspan, hwhere⟩ := blockEntity_span fileType (ofText text) root name first last head rest
  rw [hspan, hstop] at hs
  cases hs
  refine ⟨?_, lineEnd_le_size (Nat.le_trans hat.pos hm) hcount⟩
  show start ≤ (ofText text).lineEnd m
  rcases hwhere with rfl | rfl
  · rw [hunit]
    exact habove
  · rw [hsp, Option.map_some, Option.getD_some, hstart]
    exact hbetween

theorem le_firstBusy (t : LineTable) (fuel first : Nat) (h : first ≤ last) :
    first ≤ firstBusy t last fuel first ∧ firstBusy t last fuel first ≤ last := by
  induction fuel generalizing first with
  | zero => exact ⟨Nat.le_refl _, h⟩
  | succ fuel ih =>
    rw [firstBusy]
    split
    · rename_i hidle
      rw [Bool.and_eq_true, decide_eq_true_eq] at hidle
      have := ih (first + 1) hidle.1
      omega
    · exact ⟨Nat.le_refl _, h⟩

theorem le_lastBusy (t : LineTable) {first last : Nat} (h : first ≤ last) :
    first ≤ lastBusy t first last ∧ lastBusy t first last ≤ last := by
  induction last with
  | zero => exact ⟨h, Nat.le_refl _⟩
  | succ last ih =>
    rw [lastBusy]
    split
    · rename_i hidle
      rw [Bool.and_eq_true, decide_eq_true_eq] at hidle
      have := ih (by omega)
      omega
    · exact ⟨h, Nat.le_refl _⟩

theorem span_flowEntity (fileType : FileType) (root : Node) (name : String) (hfirst : 1 ≤ first)
    (hle : first ≤ last) (hcount : last ≤ (ofText text).count) {s : Span}
    (hs : (flowEntity fileType (ofText text) root name first last).span = some s) :
    s.start ≤ s.stop ∧ s.stop ≤ text.size := by
  cases hs
  obtain ⟨hbusy, hbusy'⟩ := le_firstBusy (ofText text) (last - first) first hle
  obtain ⟨hlast, hlast'⟩ := le_lastBusy (ofText text) hbusy'
  exact ⟨IsPlace.offset_le_lineEnd ⟨by omega, by omega, indent_le_length _ _⟩ hlast (by omega),
    lineEnd_le_size (by omega) (by omega)⟩

end Entities

/-! ## Streams -/

theorem mem_rangesFrom {ls : List (List Char)} {first number a b : Nat} (hle : first ≤ number)
    (h : (a, b) ∈ rangesFrom ls first number) : first ≤ a ∧ a ≤ b ∧ b < number + ls.length := by
  induction ls generalizing first number with
  | nil =>
    rw [rangesFrom] at h
    split at h
    · obtain ⟨rfl, rfl⟩ := Prod.mk.inj (List.mem_singleton.mp h)
      simp only [List.length_nil]
      omega
    · cases h
  | cons line rest ih =>
    rw [rangesFrom] at h
    rw [List.length_cons]
    split at h
    · have hmore : (a, b) ∈ rangesFrom rest (number + 1) (number + 1) →
          first ≤ a ∧ a ≤ b ∧ b < number + (rest.length + 1) := by
        intro h
        have := ih (Nat.le_refl _) h
        omega
      dsimp only at h
      split at h
      · rcases List.mem_cons.mp h with heq | h
        · obtain ⟨rfl, rfl⟩ := Prod.mk.inj heq
          omega
        · exact hmore h
      · exact hmore h
    · have := ih (Nat.le_succ_of_le hle) h
      omega

theorem mem_documentRanges {t : LineTable} {first last : Nat} (h : (first, last) ∈ documentRanges t) :
    1 ≤ first ∧ first ≤ last ∧ last ≤ t.count := by
  obtain ⟨h1, h2, h3⟩ := mem_rangesFrom (Nat.le_refl 1) (List.mem_filter.mp h).1
  rw [Array.length_toList] at h3
  exact ⟨h1, h2, by rw [count]; omega⟩

/-- Whether the keys of each document whose root is a mapping are at places of the document. -/
def KeysPlaced (t : LineTable) : Prop :=
  ∀ first last, (first, last) ∈ documentRanges t →
    ∀ root, read (rangeText t first last) true = .ok (some root) → KeysAt t (first - 1) last root

instance (t : LineTable) : Decidable (KeysPlaced t) :=
  decidable_of_iff (∀ range ∈ documentRanges t, ∀ root ∈ (read (rangeText t range.1 range.2) true).toOption.join,
      KeysAt t (range.1 - 1) range.2 root) <| by
    constructor
    · intro h first last hrange root hroot
      exact h (first, last) hrange root (by rw [hroot]; rfl)
    · intro h range hrange root hroot
      cases hread : read (rangeText t range.1 range.2) true with
      | error fault =>
        rw [hread] at hroot
        cases hroot
      | ok document =>
        rw [hread] at hroot
        obtain rfl : document = some root := hroot
        exact h range.1 range.2 hrange root hread

variable {text : Text} {fileType : FileType}

/-- An entity of a document is the flow collection at the root or the block there. -/
theorem mem_readDocument {t : LineTable} {name : String} {first last : Nat} {r : Reading}
    (h : readDocument fileType t name first last = .ok r) {e : Entity} (he : e ∈ r.entities) :
    ∃ root, read (rangeText t first last) true = .ok (some root) ∧ isDivided root = true ∧
      (root.form.flow = true ∧ e = flowEntity fileType t root name first last ∨
        root.form.flow = false ∧ ∃ head rest,
          membersOf t (first - 1) root (first - 1) last = some (head :: rest) ∧
            e = blockEntity fileType t root name first last head rest) := by
  unfold readDocument at h
  obtain ⟨node, hnode, h⟩ := bind_ok h
  cases node with
  | none =>
    cases h
    cases he
  | some root =>
    dsimp only at h
    split at h
    · cases h
      cases he
    rename_i hdivided
    rw [Bool.not_eq_true, Bool.not_eq_false'] at hdivided
    split at h
    · rename_i hflow
      cases h
      exact ⟨root, hnode, hdivided, .inl ⟨hflow, List.mem_singleton.mp he⟩⟩
    rename_i hflow
    split at h
    · rename_i head rest hmembers
      cases h
      exact ⟨root, hnode, hdivided,
        .inr ⟨Bool.not_eq_true _ ▸ hflow, head, rest, hmembers, List.mem_singleton.mp he⟩⟩
    · cases h
      cases he

/-- An entity of a run of documents is one of a document. -/
theorem mem_readDocuments {t : LineTable} {nameOf : Nat → String} {index : Nat} {ranges : List (Nat × Nat)}
    {e : Entity} (he : e ∈ (readDocuments fileType t nameOf index ranges).entities) :
    ∃ range ∈ ranges, ∃ name r, readDocument fileType t name range.1 range.2 = .ok r ∧ e ∈ r.entities := by
  induction ranges generalizing index with
  | nil => cases he
  | cons range rest ih =>
    obtain ⟨first, last⟩ := range
    have hrest (he : e ∈ (readDocuments fileType t nameOf (index + 1) rest).entities) :
        ∃ range ∈ (first, last) :: rest, ∃ name r,
          readDocument fileType t name range.1 range.2 = .ok r ∧ e ∈ r.entities :=
      (ih he).imp fun _ h => ⟨List.mem_cons_of_mem _ h.1, h.2⟩
    rw [readDocuments] at he
    split at he
    · cases he
    · exact hrest he
    · rename_i r hr
      rcases List.mem_append.mp he with he | he
      · exact ⟨_, List.mem_cons_self, _, r, hr, he⟩
      · exact hrest he

theorem span_readDocument {name : String} {first last : Nat} {r : Reading}
    (h : readDocument fileType (ofText text) name first last = .ok r)
    (hrange : 1 ≤ first ∧ first ≤ last ∧ last ≤ (ofText text).count)
    (hkeys : ∀ root, read (rangeText (ofText text) first last) true = .ok (some root) →
      KeysAt (ofText text) (first - 1) last root) {e : Entity} (he : e ∈ r.entities) {s : Span}
    (hs : e.span = some s) : s.start ≤ s.stop ∧ s.stop ≤ text.size := by
  obtain ⟨hfirst, hle, hcount⟩ := hrange
  obtain ⟨root, hnode, -, ⟨-, rfl⟩ | ⟨-, head, rest, hmembers, rfl⟩⟩ := mem_readDocument h he
  · exact span_flowEntity fileType root name hfirst hle hcount hs
  · exact span_blockEntity fileType root name (onPlaces_membersOf (hkeys root hnode) hcount hmembers) hs

/-- The spans of the entities of a stream are in the text, and none is turned around, if the keys of its
documents are at places of them. -/
theorem span_of_readStream (hkeys : KeysPlaced (ofText text)) {e : Entity}
    (he : e ∈ (readStream fileType text).entities) {s : Span} (hs : e.span = some s) :
    s.start ≤ s.stop ∧ s.stop ≤ text.size := by
  obtain ⟨⟨first, last⟩, hrange, name, r, hr, he⟩ := mem_readDocuments he
  exact span_readDocument hr (mem_documentRanges hrange) (hkeys first last hrange) he hs

end MemberOrder.Yaml
