/-
  What sorting arrays settles in one run.

  After a run that has changed a document the members of its objects are in turn, at every depth, and a
  second run leaves them. The elements of an array are ordered by their texts, and a run changes the
  texts by which it orders: it sorts inside an element as well. So the output is sorted exactly if the
  elements of its arrays stand in the order of the texts that they have there (`arraysInOrder`). That
  suffices, because members in order are sorted to themselves; it is needed, because the elements of an
  array have different names, their indices, and any other order of them would change the names
  (`Read.inOrderInside_of_same`). Scalars keep their texts, so where arrays hold scalars alone one run is
  always enough (`Entry.Flat`).
-/
import Mathlib
import MemberOrder.Proofs.Json.Preserving
import MemberOrder.Proofs.Layout.Noticing

namespace MemberOrder.Json

open MemberOrder.Order MemberOrder.Sorter

variable {x : Layout.Excerpt} {trailing isObject : Bool} {o : Options}

/-! ## Names of elements -/

/-- In every array inside a member the elements have different names. -/
inductive ElementsApart : Member → Prop
  | leaf (i : MemberInfo) : ElementsApart (.leaf i)
  | group (i : MemberInfo) {children : List Member}
      (hapart : i.container = .brackets → (children.map Member.name).Nodup)
      (h : ∀ m ∈ children, ElementsApart m) : ElementsApart (.group i children)

section Tree

variable {s : Scanned}

/-- Elements are named by their indices. -/
theorem map_name_membersAt (index : Nat) (slots : List (Slot × Tree)) :
    (membersAt s false index slots).map Member.name =
      (List.range' index slots.length).map toString := by
  induction slots generalizing index with
  | nil => rfl
  | cons slot rest ih =>
    obtain ⟨slot, value⟩ := slot
    rw [membersAt, List.map_cons, ih, List.length_cons, List.range'_succ, List.map_cons]
    cases value <;> rfl

theorem nodup_membersAt (slots : List (Slot × Tree)) :
    ((membersAt s false 0 slots).map Member.name).Nodup := by
  rw [map_name_membersAt]
  exact List.Nodup.map (fun _ _ h => Nat.repr_inj.mp h) List.nodup_range'

mutual

theorem elementsApart_of_mem_tree : (tree : Tree) → ∀ m ∈ tree.members s, ElementsApart m
  | .scalar a b => fun m hm => absurd hm List.not_mem_nil
  | .container isObject a b slots => by
    rw [Tree.members_container]
    exact elementsApart_of_mem_slots isObject slots 0

theorem elementsApart_of_mem_slots (isObject : Bool) : (slots : List (Slot × Tree)) →
    (index : Nat) → ∀ m ∈ membersAt s isObject index slots, ElementsApart m
  | [], _ => fun m hm => absurd hm List.not_mem_nil
  | slot :: rest, index => fun m hm => by
    rw [membersAt] at hm
    rcases List.mem_cons.mp hm with rfl | hm
    · exact elementsApart_memberAt slot isObject index
    · exact elementsApart_of_mem_slots isObject rest (index + 1) m hm

theorem elementsApart_memberAt : (slot : Slot × Tree) → (isObject : Bool) → (index : Nat) →
    ElementsApart (memberAt s isObject index slot)
  | (slot, .scalar a b), _, _ => .leaf _
  | (slot, .container inner a b slots), isObject, index => by
    refine .group _ (fun harray => ?_) (elementsApart_of_mem_tree (.container inner a b slots))
    -- what stands between brackets are elements
    cases inner with
    | true => cases harray
    | false =>
      rw [Tree.members_container]
      exact nodup_membersAt slots

end

end Tree

/-- In the arrays of a document that was read the elements have different names. -/
theorem Document.elementsApart {es : List Entry} {t : Text}
    (h : Document trailing (.container [] isObject es) t.toList) {fileType : FileType} {e : Entity}
    (hread : Json.read fileType t = { entities := [e] }) :
    (isObject = false → (e.members.map Member.name).Nodup) ∧ ∀ m ∈ e.members, ElementsApart m := by
  obtain ⟨tree, hdocument, -, hcomments, -, -, -, -, -, hentry⟩ := h.read
  have hreading : Json.read fileType t =
      { entities := [rootEntity (Scanned.scan .json t) fileType tree] } := by
    unfold Json.read
    simp only [hdocument]
  rw [hreading] at hread
  obtain rfl : rootEntity (Scanned.scan .json t) fileType tree = e := by
    have hentities := congrArg Reading.entities hread
    exact List.head_eq_of_cons_eq hentities
  have hmembers : (rootEntity (Scanned.scan .json t) fileType tree).members =
      tree.members (Scanned.scan .json t) := by
    show (containerMembers _ tree (Scanned.scan .json t).comments).1.1 = _
    rw [hcomments]
    rfl
  rw [hmembers]
  refine ⟨fun harray => ?_, elementsApart_of_mem_tree tree⟩
  cases tree with
  | scalar a b => cases hentry
  | container inner a b slots =>
    have hinner : inner = isObject := by
      injection hentry with _ hkind
      rw [← hkind]
      cases inner <;> rfl
    subst hinner harray
    rw [Tree.members_container]
    exact nodup_membersAt slots

/-! ## Levels under the same names -/

theorem beside_of_map_fst {f : Member → Except SortError Member} {ms : List Member}
    {items : List Nested} (hitems : ∀ y ∈ items, y.2 = f y.1) (h : items.map Prod.fst = ms) :
    items = beside f ms := by
  subst h
  rw [beside, List.map_map]
  refine (List.map_id items).symm.trans (List.map_congr_left fun y hy => ?_)
  exact Prod.ext rfl (hitems y hy)

section Level

variable {ms : List Member} (hread : ∀ m ∈ ms, Read x trailing isObject m)
  {f : Member → Except SortError Member}
include hread

/-- Where members of an object are in turn and elements have different names, a level whose names have
not changed has been left as it was: elements are in order, and each member is sorted inside at its
place. -/
theorem arrangeLevel_same (hplain : o.naturalSort = false)
    (hkeys : KeysInTurn o isObject (ms.map (Member.entry isObject)))
    (hapart : isObject = false → (ms.map Member.name).Nodup) (hinside : SortedInside (beside f ms))
    {entity : Option String} {checksNames : Bool} {r : List Member}
    (h : Sorter.json.arrangeLevel o (some (kindOf isObject)) entity checksNames (beside f ms) = .ok r)
    (hnames : ms.map Member.name = r.map Member.name) :
    elementsInOrder o isObject ms = true ∧ (beside f ms).mapM Prod.snd = .ok r := by
  obtain ⟨ordered, hordered, hmapM⟩ := arrangeLevel_ok h
  clear h
  rw [arrangeAround_unspread fun y hy => (read_of_mem_beside hread hy).unspread] at hordered
  have hperm := arrangeEntries_perm hordered
  cases isObject with
  | true =>
    have hself : arrangeEntries o (.json o) false Prod.fst (beside f ms) = .ok (beside f ms) := by
      refine arrangeEntries_self hplain fun hsort => ?_
      have hturn := (pairwise_inTurn_iff hread).mpr (hkeys rfl hsort)
      rwa [← map_fst_beside f ms, List.pairwise_map] at hturn
    rw [Bool.not_true, hself] at hordered
    cases hordered
    exact ⟨rfl, hmapM⟩
  | false =>
    have harranged := each_of_mapM EachArranged.nil .cons (fun y hy => hinside y (hperm.mem_iff.mp hy)) hmapM
    have hfst : ordered.map Prod.fst = ms := by
      have hpermFst := hperm.map Prod.fst
      rw [map_fst_beside] at hpermFst
      exact eq_of_perm_of_names hpermFst.symm (hapart rfl)
        (hnames.trans harranged.rearranged.map_name)
    have hsame : ordered = beside f ms := by
      refine beside_of_map_fst (fun y hy => ?_) hfst
      obtain ⟨m, -, rfl⟩ := List.mem_map.mp (hperm.mem_iff.mp hy)
      rfl
    subst hsame
    refine ⟨?_, hmapM⟩
    unfold elementsInOrder
    cases hpreserve : o.preserveArrayOrder with
    | true => rfl
    | false =>
      rw [Bool.not_false, arrangeEntries_array hplain hpreserve, Except.ok.injEq] at hordered
      have hsorted : (beside f ms).Pairwise fun a b =>
          (elementOrder o a.1.info b.1.info).isLE = true := by
        rw [← hordered]
        exact stableSort_isLE (fun y : Nested => y.1.info) (beside f ms)
      have hpairwise : ms.Pairwise fun a b => (elementOrder o a.info b.info).isLE = true := by
        rwa [← map_fst_beside f ms, List.pairwise_map]
      simpa using hpairwise

end Level

/-- Where members are sorted inside at their places, names that have not changed have not changed inside
any member. -/
theorem nameTree_of_mapM {f : Member → Except SortError Member} {ms r : List Member}
    (h : (beside f ms).mapM Prod.snd = .ok r) (hsame : nameTrees ms = nameTrees r) :
    ∀ m ∈ ms, ∃ m', f m = .ok m' ∧ m.nameTree = m'.nameTree := by
  induction ms generalizing r with
  | nil => exact fun m hm => absurd hm List.not_mem_nil
  | cons m rest ih =>
    rw [beside, List.map_cons, List.mapM_cons] at h
    obtain ⟨m', hm', h⟩ := bind_ok h
    obtain ⟨others, hothers, h⟩ := bind_ok h
    cases h
    rw [nameTrees, nameTrees, List.cons.injEq] at hsame
    intro n hn
    rcases List.mem_cons.mp hn with rfl | hn
    · exact ⟨m', hm', hsame.1⟩
    · exact ih hothers hsame.2 n hn

/-- A member that stands for a settled entry and under whose names nothing has changed is in order
inside. -/
theorem Read.inOrderInside_of_same {inObject : Bool} {m m' : Member} (h : Read x trailing inObject m)
    (hplain : o.naturalSort = false) (hsettled : (m.entry inObject).Settled o)
    (hapart : ElementsApart m) {entity : Option String} (hsorted : sortInside .json o entity m = .ok m')
    (hsame : m.nameTree = m'.nameTree) : inOrderInside o m = true := by
  induction h generalizing m' with
  | leaf h hnested hvalue => rfl
  | group isObject h hnested hcontainer hbody hopen hclose hvalue hrow hchildren ih =>
    rename_i inObject i span unit body label value children
    rw [inOrderInside_group hcontainer]
    rw [entry_group hcontainer] at hsettled
    rw [sortInside] at hsorted
    split at hsorted
    · rename_i hempty
      rw [List.isEmpty_iff.mp hempty]
      refine ⟨?_, fun m hm => absurd hm List.not_mem_nil⟩
      simp [elementsInOrder]
    · obtain ⟨r, hr, hsorted⟩ := bind_ok hsorted
      cases hsorted
      rw [Member.nameTree, Member.nameTree, NameTree.node.injEq] at hsame
      rw [childContext_eq hcontainer, sortEachInside_eq_beside] at hr
      cases hsettled with
      | container _ _ hkeys hinside =>
      cases hapart with
      | group _ hnodup hapart =>
        have harray : isObject = false → (children.map Member.name).Nodup := by
          rintro rfl
          exact hnodup hcontainer
        have harranged : SortedInside (beside (sortInside .json o entity) children) := by
          rw [← sortEachInside_eq_beside]
          exact (sortEachInside_spec entity children).1
        obtain ⟨helements, hr⟩ := arrangeLevel_same hchildren hplain hkeys harray harranged hr
          (map_name_of_nameTrees hsame.2)
        refine ⟨helements, fun m hm => ?_⟩
        obtain ⟨m', hm', hnames⟩ := nameTree_of_mapM hr hsame.2 m hm
        exact ih m hm (hinside _ (List.mem_map_of_mem hm)) (hapart m hm) hm' hnames

/-! ## Sorting answers -/

theorem arrangeEntries_total {α : Type} (hplain : o.naturalSort = false) (isArray : Bool)
    (view : α → Member) (items : List α) : ∃ r, arrangeEntries o (.json o) isArray view items = .ok r := by
  cases isArray with
  | true =>
    cases hpreserve : o.preserveArrayOrder with
    | true =>
      refine ⟨items, ?_⟩
      unfold arrangeEntries
      rw [if_pos rfl, hpreserve, if_pos rfl]
    | false => exact ⟨_, arrangeEntries_array hplain hpreserve view items⟩
  | false =>
    cases hkeys : o.sortObjectKeys with
    | false =>
      refine ⟨items, arrangeEntries_self hplain fun h => ?_⟩
      rw [hkeys] at h
      cases h
    | true =>
      rw [arrangeEntries_object hkeys, arrangeRemaining_plain hplain]
      exact ⟨_, rfl⟩

/-- A level of members that can be sorted inside can be arranged. -/
theorem arrangeLevel_total {ms : List Member} (hread : ∀ m ∈ ms, Read x trailing isObject m)
    {f : Member → Except SortError Member} (hinside : ∀ m ∈ ms, ∃ m', f m = .ok m')
    (hplain : o.naturalSort = false) (entity : Option String) (checksNames : Bool) :
    ∃ r, Sorter.json.arrangeLevel o (some (kindOf isObject)) entity checksNames (beside f ms) =
      .ok r := by
  have hnamed : (beside f ms).find? (fun y => !y.1.info.hasName) = none := by
    refine List.find?_eq_none.mpr fun y hy => ?_
    rw [(read_of_mem_beside hread hy).named]
    decide
  obtain ⟨ordered, hordered⟩ := arrangeEntries_total (o := o) hplain (!isObject) Prod.fst (beside f ms)
  have harranged : Sorter.json.arrangeAround o (some (kindOf isObject)) Prod.fst (beside f ms) =
      .ok ordered := by
    rwa [arrangeAround_unspread fun y hy => (read_of_mem_beside hread hy).unspread]
  have hsteps : Sorter.json.lacksSteps (some (kindOf isObject)) (beside f ms) = false := rfl
  obtain ⟨r, hr⟩ : ∃ r, ordered.mapM Prod.snd = .ok r := by
    refine mapM_ok fun y hy => ?_
    obtain ⟨m, hm, rfl⟩ := List.mem_map.mp ((arrangeEntries_perm hordered).mem_iff.mp hy)
    exact hinside m hm
  refine ⟨r, ?_⟩
  unfold arrangeLevel
  rw [hnamed, hsteps, harranged]
  cases checksNames <;> exact hr

theorem Read.sortInside_total {inObject : Bool} {m : Member} (h : Read x trailing inObject m)
    (hplain : o.naturalSort = false) (entity : Option String) :
    ∃ m', sortInside .json o entity m = .ok m' := by
  induction h with
  | leaf h hnested hvalue => exact ⟨_, rfl⟩
  | group isObject h hnested hcontainer hbody hopen hclose hvalue hrow hchildren ih =>
    rw [sortInside]
    split
    · exact ⟨_, rfl⟩
    · rw [childContext_eq hcontainer, sortEachInside_eq_beside]
      obtain ⟨r, hr⟩ := arrangeLevel_total hchildren ih hplain entity (!Sorter.json.isDocumentWide)
      rw [hr]
      exact ⟨_, rfl⟩

/-! ## Roots -/

section Root

variable {ms : List Member} (hread : ∀ m ∈ ms, Read x trailing isObject m)
include hread

theorem sortMembers_total (hplain : o.naturalSort = false) (name : String) :
    ∃ ms', Sorter.json.sortMembers o (some (kindOf isObject, name)) ms = .ok ms' := by
  by_cases hne : ms = []
  · subst hne
    exact ⟨[], rfl⟩
  · rw [sortMembers_eq hne]
    refine arrangeLevel_total hread (fun m hm => ?_) hplain _ _
    split
    · exact (hread m hm).sortInside_total hplain _
    · exact ⟨m, rfl⟩

/-- The members of a settled root under whose names nothing has changed are in order. -/
theorem rootInOrder_of_same (hplain : o.naturalSort = false)
    (hsettled : SettledRoot o isObject (ms.map (Member.entry isObject)))
    (hnodup : isObject = false → (ms.map Member.name).Nodup) (hapart : ∀ m ∈ ms, ElementsApart m)
    {name : String} {ms' : List Member}
    (h : Sorter.json.sortMembers o (some (kindOf isObject, name)) ms = .ok ms')
    (hsame : nameTrees ms = nameTrees ms') : rootInOrder o isObject ms = true := by
  by_cases hne : ms = []
  · subst hne
    rw [rootInOrder_iff]
    refine ⟨by simp [elementsInOrder], fun _ m hm => absurd hm List.not_mem_nil⟩
  · rw [sortMembers_eq hne] at h
    have hinside : SortedInside (beside
        (if o.sortNestedObjects then sortInside .json o (some name) else .ok) ms) := by
      intro y hy m' hm'
      obtain ⟨m, -, rfl⟩ := List.mem_map.mp hy
      dsimp only at hm'
      split at hm'
      · exact sortInside_arranged hm'
      · cases hm'
        exact .refl _
    obtain ⟨helements, hr⟩ := arrangeLevel_same hread hplain hsettled.keys hnodup hinside h
      (map_name_of_nameTrees hsame)
    refine rootInOrder_iff.mpr ⟨helements, fun hnested m hm => ?_⟩
    obtain ⟨m', hm', hnames⟩ := nameTree_of_mapM hr hsame m hm
    rw [if_pos hnested] at hm'
    exact (hread m hm).inOrderInside_of_same hplain
      (hsettled.inside hnested _ (List.mem_map_of_mem hm)) (hapart m hm) hm' hnames

end Root

/-! ## Arrays of scalars -/

/-- Every array in an entry holds scalars alone. -/
inductive Entry.Flat : Entry → Prop
  | scalar (key text : List Char) : Entry.Flat (.scalar key text)
  | container (key : List Char) (isObject : Bool) {es : List Entry}
      (hscalars : isObject = false → ∀ e ∈ es, e.isContainer = false) (h : ∀ e ∈ es, e.Flat) :
      Entry.Flat (.container key isObject es)

/-- The text of a scalar; a container has none of its own. -/
def Entry.text : Entry → List Char
  | .scalar _ text => text
  | .container _ _ _ => []

/-- The order of scalars by their texts. -/
def textOrder (o : Options) (a b : Entry) : Ordering :=
  directed o (comparePlain (foldedName o (String.ofList a.text)) (foldedName o (String.ofList b.text)))

/-- The elements of an array are scalars, and where arrays are sorted they stand in the order of their
texts. -/
def ScalarsInOrder (o : Options) (isObject : Bool) (es : List Entry) : Prop :=
  isObject = false → (∀ e ∈ es, e.isContainer = false) ∧
    (o.preserveArrayOrder = false → es.Pairwise fun a b => (textOrder o a b).isLE = true)

/-- Every array in an entry holds scalars in order. -/
inductive Entry.FlatInOrder (o : Options) : Entry → Prop
  | scalar (key text : List Char) : Entry.FlatInOrder o (.scalar key text)
  | container (key : List Char) (isObject : Bool) {es : List Entry}
      (hscalars : ScalarsInOrder o isObject es) (h : ∀ e ∈ es, e.FlatInOrder o) :
      Entry.FlatInOrder o (.container key isObject es)

/-- A scalar element is compared by its text. -/
theorem Read.elementKey_scalar {m : Member} (h : Read x trailing false m)
    (hscalar : (m.entry false).isContainer = false) :
    (EntryRules.json o).elementKey m.info = String.ofList (m.entry false).text := by
  cases h with
  | leaf h hnested hvalue =>
    rename_i i span unit label value
    have hlabel : label = [] := by
      have hlabel := h.label_key
      cases hlabel
      rfl
    have htext : ((Member.leaf i).entry false).text = value := h.display
    have hfull : i.fullText = String.ofList value := by rw [h.fullText_eq, hlabel, List.nil_append]
    have hne : value ≠ [] := by
      obtain ⟨c, -, hhead, -⟩ := hvalue.solid
      rintro rfl
      cases hhead
    have hempty : (String.ofList value).isEmpty = false := by simpa using hne
    show (if i.fullText.isEmpty then i.value.display else Text.strip i.fullText) = _
    rw [htext, hfull, hempty, if_neg (by decide), Text.strip, String.toList_ofList, Text.trim,
      hvalue.solid.trimLeft, hvalue.solid.trimRight]
  | group isObject _ _ hcontainer =>
    rw [entry_group hcontainer] at hscalar
    cases hscalar

/-- A scalar has nothing inside that could be sorted. -/
theorem Read.sortInside_scalar {inObject : Bool} {m : Member} (h : Read x trailing inObject m)
    (hscalar : (m.entry inObject).isContainer = false) (entity : Option String) :
    sortInside .json o entity m = .ok m := by
  cases h with
  | leaf => rfl
  | group isObject _ _ hcontainer =>
    rw [entry_group hcontainer] at hscalar
    cases hscalar

section Flat

variable {ms : List Member} (hread : ∀ m ∈ ms, Read x trailing isObject m)
include hread

theorem elementsInOrder_of_scalars
    (h : ScalarsInOrder o isObject (ms.map (Member.entry isObject))) :
    elementsInOrder o isObject ms = true := by
  cases isObject with
  | true => rfl
  | false =>
    obtain ⟨hscalars, horder⟩ := h rfl
    unfold elementsInOrder
    cases hpreserve : o.preserveArrayOrder with
    | true => rfl
    | false =>
      have horder := List.pairwise_map.mp (horder hpreserve)
      refine decide_eq_true (horder.imp_of_mem fun {a b} ha hb hab => ?_)
      rwa [elementOrder, (hread a ha).elementKey_scalar (hscalars _ (List.mem_map_of_mem ha)),
        (hread b hb).elementKey_scalar (hscalars _ (List.mem_map_of_mem hb))]

/-- A level of scalars is arranged in the order of their texts. -/
theorem arrangeLevel_scalars {f : Member → Except SortError Member} (hplain : o.naturalSort = false)
    (hscalars : isObject = false → ∀ e ∈ ms.map (Member.entry isObject), e.isContainer = false)
    (hself : isObject = false → ∀ m ∈ ms, f m = .ok m) {entity : Option String} {checksNames : Bool}
    {r : List Member}
    (h : Sorter.json.arrangeLevel o (some (kindOf isObject)) entity checksNames (beside f ms) = .ok r) :
    ScalarsInOrder o isObject (r.map (Member.entry isObject)) := by
  rintro rfl
  have hscalars := hscalars rfl
  obtain ⟨ordered, hordered, hmapM⟩ := arrangeLevel_ok h
  rw [arrangeAround_unspread fun y hy => (read_of_mem_beside hread hy).unspread] at hordered
  have hperm := arrangeEntries_perm hordered
  have hfrom : ∀ y ∈ ordered, y.1 ∈ ms ∧ y.2 = .ok y.1 := by
    intro y hy
    obtain ⟨m, hm, rfl⟩ := List.mem_map.mp (hperm.mem_iff.mp hy)
    exact ⟨hm, hself rfl m hm⟩
  rw [mapM_snd_self fun y hy => (hfrom y hy).2] at hmapM
  cases hmapM
  have hmem : ∀ m ∈ ordered.map Prod.fst, m ∈ ms := by
    intro m hm
    obtain ⟨y, hy, rfl⟩ := List.mem_map.mp hm
    exact (hfrom y hy).1
  refine ⟨fun e he => ?_, fun hpreserve => ?_⟩
  · obtain ⟨m, hm, rfl⟩ := List.mem_map.mp he
    exact hscalars _ (List.mem_map_of_mem (hmem m hm))
  · rw [Bool.not_false, arrangeEntries_array hplain hpreserve, Except.ok.injEq] at hordered
    have hsorted : ordered.Pairwise fun a b => (elementOrder o a.1.info b.1.info).isLE = true := by
      rw [← hordered]
      exact stableSort_isLE (fun y : Nested => y.1.info) (beside f ms)
    rw [List.pairwise_map, List.pairwise_map]
    refine hsorted.imp_of_mem fun {a b} ha hb hab => ?_
    have ha := (hfrom a ha).1
    have hb := (hfrom b hb).1
    rwa [elementOrder, (hread _ ha).elementKey_scalar (hscalars _ (List.mem_map_of_mem ha)),
      (hread _ hb).elementKey_scalar (hscalars _ (List.mem_map_of_mem hb))] at hab

end Flat

/-- Where arrays hold scalars alone, sorting a member inside puts them in order. -/
theorem Read.sortInside_flat {inObject : Bool} {m m' : Member} (h : Read x trailing inObject m)
    (hplain : o.naturalSort = false) (hflat : (m.entry inObject).Flat) {entity : Option String}
    (hm : sortInside .json o entity m = .ok m') : (m'.entry inObject).FlatInOrder o := by
  induction h generalizing m' with
  | leaf h hnested hvalue =>
    cases hm
    exact .scalar _ _
  | group isObject h hnested hcontainer hbody hopen hclose hvalue hrow hchildren ih =>
    rename_i inObject i span unit body label value children
    rw [entry_group hcontainer] at hflat
    cases hflat with
    | container _ _ hscalars hflat =>
      rw [sortInside] at hm
      split at hm
      · rename_i hempty
        cases hm
        rw [List.isEmpty_iff.mp hempty, entry_group hcontainer]
        refine .container _ _ (fun _ => ⟨?_, fun _ => .nil⟩) ?_ <;>
          exact fun e he => absurd he List.not_mem_nil
      · obtain ⟨r, hr, hm⟩ := bind_ok hm
        cases hm
        rw [childContext_eq hcontainer, sortEachInside_eq_beside] at hr
        have hself : isObject = false → ∀ m ∈ children, sortInside .json o entity m = .ok m :=
          fun harray m hm => (hchildren m hm).sortInside_scalar
            (hscalars harray _ (List.mem_map_of_mem hm)) entity
        obtain ⟨-, -, hfrom⟩ := arrangeLevel_sorts hchildren
          (fun m hm m' hm' => ((hchildren m hm).sortInside_sorts hm').1) hr
        rw [entry_group hcontainer]
        refine .container _ _ (arrangeLevel_scalars hchildren hplain hscalars hself hr) fun e he => ?_
        obtain ⟨m', hm', rfl⟩ := List.mem_map.mp he
        obtain ⟨m, hm, hmm'⟩ := hfrom m' hm'
        exact ih m hm (hflat _ (List.mem_map_of_mem hm)) hmm'

/-- A member whose arrays hold scalars in order is in order inside. -/
theorem Read.inOrderInside_of_flat {inObject : Bool} {m : Member} (h : Read x trailing inObject m)
    (hflat : (m.entry inObject).FlatInOrder o) : inOrderInside o m = true := by
  induction h with
  | leaf h hnested hvalue => rfl
  | group isObject h hnested hcontainer hbody hopen hclose hvalue hrow hchildren ih =>
    rw [entry_group hcontainer] at hflat
    rw [inOrderInside_group hcontainer]
    cases hflat with
    | container _ _ hscalars hflat =>
      exact ⟨elementsInOrder_of_scalars hchildren hscalars, fun m hm =>
        ih m hm (hflat _ (List.mem_map_of_mem hm))⟩

/-- A root whose arrays hold scalars in order, as far as they are sorted. -/
structure FlatRoot (o : Options) (isObject : Bool) (es : List Entry) : Prop where
  scalars : ScalarsInOrder o isObject es
  inside : o.sortNestedObjects = true → ∀ e ∈ es, e.FlatInOrder o

theorem rootInOrder_of_flat {ms : List Member} (hread : ∀ m ∈ ms, Read x trailing isObject m)
    (h : FlatRoot o isObject (ms.map (Member.entry isObject))) : rootInOrder o isObject ms = true :=
  rootInOrder_iff.mpr ⟨elementsInOrder_of_scalars hread h.scalars, fun hnested m hm =>
    (hread m hm).inOrderInside_of_flat (h.inside hnested _ (List.mem_map_of_mem hm))⟩

/-- Where arrays hold scalars alone, sorting the members of a root puts them in order. -/
theorem sortMembers_flat {ms : List Member} (hread : ∀ m ∈ ms, Read x trailing isObject m)
    (hplain : o.naturalSort = false)
    (hflat : (Entry.container [] isObject (ms.map (Member.entry isObject))).Flat) {name : String}
    {ms' : List Member} (h : Sorter.json.sortMembers o (some (kindOf isObject, name)) ms = .ok ms') :
    FlatRoot o isObject (ms'.map (Member.entry isObject)) := by
  by_cases hne : ms = []
  · subst hne
    cases h
    refine ⟨fun _ => ⟨?_, fun _ => .nil⟩, fun _ => ?_⟩ <;> exact fun e he => absurd he List.not_mem_nil
  · rw [sortMembers_eq hne] at h
    cases hflat with
    | container _ _ hscalars hflat =>
      have hself : isObject = false → ∀ m ∈ ms,
          (if o.sortNestedObjects then sortInside .json o (some name) else .ok) m = .ok m := by
        intro harray m hm
        split
        · exact (hread m hm).sortInside_scalar (hscalars harray _ (List.mem_map_of_mem hm)) _
        · rfl
      refine ⟨arrangeLevel_scalars hread hplain hscalars hself h, fun hnested e he => ?_⟩
      rw [hnested, if_pos rfl] at h
      obtain ⟨-, -, hfrom⟩ := arrangeLevel_sorts hread
        (fun m hm m' hm' => ((hread m hm).sortInside_sorts hm').1) h
      obtain ⟨m', hm', rfl⟩ := List.mem_map.mp he
      obtain ⟨m, hm, hmm'⟩ := hfrom m' hm'
      exact (hread m hm).sortInside_flat hplain (hflat _ (List.mem_map_of_mem hm)) hmm'

/-! ## Runs -/

/-- Whether in the arrays of a document the elements stand in the order of their texts, as far as they are
sorted. -/
def arraysInOrder (o : Options) (source : String) : Bool :=
  (Json.read o.fileType (Text.ofString source)).entities.all fun e =>
    rootInOrder o (e.kind == .jsonObject) e.members

/-- A run that finds its source sorted gives it back. -/
theorem processedText_of_alreadySorted {source : String}
    (h : Notice.alreadySorted ∈ (processWith o source).warnings) :
    (processWith o source).success = true ∧ (processWith o source).processedText = some source := by
  obtain ⟨⟨e, he, hne⟩, hchanges⟩ := (alreadySorted_mem_warnings_iff rfl).mp h
  have hmembers : (readSource o.fileType (Text.ofString source)).entities.all (·.members.isEmpty) =
      false := List.all_eq_false.mpr ⟨e, he, by simpa using hne⟩
  obtain ⟨hsuccess, htext, -⟩ := processWith_unchanged rfl hmembers hchanges
  exact ⟨hsuccess, htext⟩

/-- A document whose entries are settled is found sorted exactly if its arrays are in order. -/
theorem Document.alreadySorted_iff {es : List Entry} {source : String}
    (h : Document trailing (.container [] isObject es) source.toList) (hjson : o.language = .json)
    (hplain : o.naturalSort = false) (hne : es ≠ []) (hsettled : SettledRoot o isObject es) :
    Notice.alreadySorted ∈ (processWith o source).warnings ↔ arraysInOrder o source = true := by
  have h : Document trailing (.container [] isObject es) (Text.ofString source).toList := h
  obtain ⟨e, span, body, hread, hroot, hes⟩ := h.readRoot o.fileType
  obtain ⟨hnodup, hapart⟩ := h.elementsApart hread
  have hentities : (readSource o.fileType (Text.ofString source)).entities = [e] := by
    rw [readSource_json hjson, hread]
  have hkind : (e.kind == .jsonObject) = isObject := by
    rw [hroot.kind_eq]
    cases isObject <;> rfl
  have hmembers : ∃ e' ∈ [e], e'.members ≠ [] := by
    refine ⟨e, List.mem_cons_self, fun hnil => hne ?_⟩
    rw [← hes, hnil, List.map_nil]
  subst hes
  rw [alreadySorted_mem_warnings_iff hentities, hasChanges_sortEntities, arraysInOrder, hread]
  simp only [List.any_cons, List.any_nil, Bool.or_false, List.all_cons, List.all_nil, Bool.and_true,
    Bool.not_eq_false', hmembers, true_and, hkind]
  constructor
  · intro hsame
    obtain ⟨ms', hms'⟩ := sortMembers_total hroot.members hplain e.name
    rw [hroot.sortedTwin_eq hjson, hms'] at hsame
    exact rootInOrder_of_same hroot.members hplain hsettled hnodup hapart hms' (sameNames_iff.mp hsame)
  · intro horder
    rw [hroot.sortedTwin_self hjson hplain horder hsettled]
    exact sameTrees_refl _

/-- In preserving mode and without natural sorting, a run over the output of a run over a document finds it
sorted exactly if the first run found the source sorted or the elements of the arrays of the output stand
in the order of their texts. Then it gives the output back. Where the arrays of the document hold scalars
alone it always does. -/
theorem processWith_settles (o : Options) (hjson : o.language = .json)
    (hlayout : o.asksForLayout = false) (hplain : o.naturalSort = false) (isObject : Bool)
    (es : List Entry) (source out : String)
    (hsource : Document false (.container [] isObject es) source.toList)
    (h : (processWith o source).processedText = some out) :
    (Notice.alreadySorted ∈ (processWith o out).warnings ↔
      Notice.alreadySorted ∈ (processWith o source).warnings ∨ arraysInOrder o out = true) ∧
    (Notice.alreadySorted ∈ (processWith o out).warnings →
      (processWith o out).success = true ∧ (processWith o out).processedText = some out) ∧
    ((Entry.container [] isObject es).Flat → Notice.alreadySorted ∈ (processWith o out).warnings) := by
  have hsource : Document false (.container [] isObject es) (Text.ofString source).toList := hsource
  obtain ⟨e, span, body, hread, hroot, rfl⟩ := hsource.readRoot o.fileType
  have hentities : (readSource o.fileType (Text.ofString source)).entities = [e] := by
    rw [readSource_json hjson, hread]
  have hmembers := members_of_processedText hjson hread h
  have hwarns := alreadySorted_mem_warnings_iff hentities
  have hcases := processedText_cases h
  rw [hentities] at hcases
  rcases hcases with ⟨hchanges, rfl⟩ | ⟨hchanges, rfl⟩
  · have hdocument := hroot.writeBack_document hjson (Or.inl hlayout) hmembers
    obtain ⟨-, hsettled⟩ := hroot.sortedTwin_sorts hjson
    have hmoved : sortedTwin o e ≠ e := fun hsame => by
      rw [sortEntities_eq_map, List.map_cons, List.map_nil, hsame, not_hasChanges_self] at hchanges
      cases hchanges
    have hagain := hdocument.alreadySorted_iff hjson hplain
      (by simpa using sortedTwin_members_ne o hmembers) (hsettled hmoved hplain)
    have hfirst : Notice.alreadySorted ∉ (processWith o source).warnings := fun hmem => by
      rw [(hwarns.mp hmem).2] at hchanges
      cases hchanges
    refine ⟨?_, processedText_of_alreadySorted, fun hflat => hagain.mpr ?_⟩
    · rw [hagain]
      exact (or_iff_right hfirst).symm
    · -- the sorted members stand for the entries that are read of the output
      have hdocument : Document (addsComma o) _ (Text.ofString _).toList := hdocument
      obtain ⟨e', _, _, hread', hroot', hentries⟩ := hdocument.readRoot o.fileType
      obtain ⟨ms', hms'⟩ := sortMembers_total hroot.members hplain e.name
      have hflat' := sortMembers_flat hroot.members hplain hflat hms'
      rw [hroot.sortedTwin_eq hjson, hms'] at hentries
      rw [← hentries] at hflat'
      have hkind : (e'.kind == .jsonObject) = isObject := by
        rw [hroot'.kind_eq]
        cases isObject <;> rfl
      rw [arraysInOrder, hread']
      simp only [List.all_cons, List.all_nil, Bool.and_true, hkind]
      exact rootInOrder_of_flat hroot'.members hflat'
  · have hsorted : Notice.alreadySorted ∈ (processWith o out).warnings :=
      hwarns.mpr ⟨⟨e, List.mem_cons_self, hmembers⟩, hchanges⟩
    exact ⟨⟨fun _ => Or.inl hsorted, fun _ => hsorted⟩, processedText_of_alreadySorted, fun _ => hsorted⟩

/-! ## Documents of digits -/

theorem scalar_digit {c : Char} (h : c ∈ leadingDigits) : Scalar [c] := by
  have hsign : ([] : List Char) ∈ [[], ['-']] := by decide
  exact .number hsign (.leading h fun _ h => absurd h List.not_mem_nil) .none .none

/-- Two items with a comma between them. -/
theorem spells_pair {inObject isObject : Bool} {key label a b : List Char} {e e' : Entry}
    (hlabel : Label inObject key label) (ha : Spells false isObject e a)
    (hb : Spells false isObject e' b) : Spells false inObject (.container key isObject [e, e'])
      (label ++ (opener isObject :: (a ++ ',' :: b) ++ [closer isObject])) := by
  have hrow : Row false [a, b] (a ++ ',' :: b) := by
    have hlast : Row false [b] ([] ++ (b ++ [])) := .last blank_nil blank_nil
    rw [List.append_nil, List.nil_append] at hlast
    exact .cons blank_nil blank_nil (Or.inr (List.cons_ne_nil _ _)) hlast
  refine .container isObject [(e, a), (e', b)] hlabel (fun item hitem => ?_) hrow
  rcases List.mem_cons.mp hitem with rfl | hitem
  · exact ha
  · rw [List.mem_singleton.mp hitem]
    exact hb

/-- One item alone. -/
theorem spells_one {inObject isObject : Bool} {key label a : List Char} {e : Entry}
    (hlabel : Label inObject key label) (ha : Spells false isObject e a) :
    Spells false inObject (.container key isObject [e])
      (label ++ (opener isObject :: a ++ [closer isObject])) := by
  have hrow : Row false [a] ([] ++ (a ++ [])) := .last blank_nil blank_nil
  rw [List.append_nil, List.nil_append] at hrow
  refine .container isObject [(e, a)] hlabel (fun item hitem => ?_) hrow
  rw [List.mem_singleton.mp hitem]
  exact ha

/-- A key of one letter. -/
theorem label_letter {c : Char} (h : 32 ≤ c.toNat ∧ c ≠ '"' ∧ c ≠ '\\') :
    Label true [c] ['"', c, '"', ':'] :=
  .member (.plain h.1 h.2.1 h.2.2 .nil) blank_nil blank_nil

/-- A document that is one array of two items. -/
theorem document_pair {a b : List Char} {e e' : Entry} (ha : Spells false false e a)
    (hb : Spells false false e' b) :
    Document false (.container [] false [e, e']) ('[' :: (a ++ ',' :: b) ++ [']']) :=
  ⟨[], _, [], blank_nil, blank_nil, spells_pair .element ha hb, by simp [opener, closer]⟩

/-- An array in an array is sorted, and then stands behind the number. A second run changes nothing. -/
theorem processWith_settles_nested :
    let o : Options := { fileType := .json, preserveArrayOrder := false }
    Document false (.container [] false
        [.container [] false [.scalar [] ['2'], .scalar [] ['1']], .scalar [] ['3']])
        "[[2,1],3]".toList ∧
      (processWith o "[[2,1],3]").processedText = some "[3,[1,2]]" ∧
      arraysInOrder o "[3,[1,2]]" = true ∧
      (processWith o "[3,[1,2]]").processedText = some "[3,[1,2]]" ∧
      Notice.alreadySorted ∈ (processWith o "[3,[1,2]]").warnings := by
  intro o
  have hdigit {c : Char} (h : c ∈ leadingDigits) : Spells false false (.scalar [] [c]) [c] :=
    .scalar .element (scalar_digit h)
  have hdocument := document_pair (spells_pair .element (hdigit (c := '2') (by decide))
    (hdigit (c := '1') (by decide))) (hdigit (c := '3') (by decide))
  obtain ⟨htext, horder⟩ : (processWith o "[[2,1],3]").processedText = some "[3,[1,2]]" ∧
      arraysInOrder o "[3,[1,2]]" = true := by
    decide +kernel
  obtain ⟨hiff, hsame, -⟩ := processWith_settles o rfl rfl rfl false _ "[[2,1],3]" "[3,[1,2]]"
    hdocument htext
  have hsorted := hiff.mpr (Or.inr horder)
  exact ⟨hdocument, htext, horder, (hsame hsorted).2, hsorted⟩

/-- Two objects, the keys of the first backwards. -/
def objectsInArray : String := "[\x7b\"b\":1,\"a\":2\x7d,\x7b\"a\":9\x7d]"

/-- What a first run makes of them: the objects have changed places, and one of them its text. -/
def objectsOnce : String := "[\x7b\"a\":9\x7d,\x7b\"a\":2,\"b\":1\x7d]"

/-- What a second run makes of them. -/
def objectsTwice : String := "[\x7b\"a\":2,\"b\":1\x7d,\x7b\"a\":9\x7d]"

/-- The first object is moved behind the second one by its old text, and back by its new text. -/
theorem processWith_unsettles_objects :
    let o : Options := { fileType := .json, preserveArrayOrder := false }
    (∃ es, Document false (.container [] false es) objectsInArray.toList) ∧
      o.asksForLayout = false ∧ o.naturalSort = false ∧
      (processWith o objectsInArray).processedText = some objectsOnce ∧
      (processWith o objectsOnce).processedText = some objectsTwice ∧ objectsTwice ≠ objectsOnce ∧
      Notice.alreadySorted ∉ (processWith o objectsOnce).warnings := by
  intro o
  have hmember {k c : Char} (hk : 32 ≤ k.toNat ∧ k ≠ '"' ∧ k ≠ '\\') (hc : c ∈ leadingDigits) :
      Spells false true (.scalar [k] [c]) (['"', k, '"', ':'] ++ [c]) :=
    .scalar (label_letter hk) (scalar_digit hc)
  have hdocument := document_pair
    (spells_pair .element (hmember (k := 'b') (c := '1') (by decide) (by decide))
      (hmember (k := 'a') (c := '2') (by decide) (by decide)))
    (spells_one .element (hmember (k := 'a') (c := '9') (by decide) (by decide)))
  exact ⟨⟨_, hdocument⟩, rfl, rfl, by decide +kernel⟩

end MemberOrder.Json
