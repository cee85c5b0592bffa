/-
  What a run notices of the changes that sorting makes.

  A run compares the names of the members before and after sorting (`hasChanges`), at every depth;
  writing compares their places in the source (`reordered`). Names that differ show that members have
  moved. The converse needs that no list has two members of one name (`namesApart`): then members that
  are rearranged under the same names are what they were (`Rearranged.eq_of_sameNames`). Otherwise two
  namesakes may change places and the run takes the source to be sorted (`hasChanges_misses_namesakes`).
-/
import Mathlib.Data.List.Nodup
import MemberOrder.Proofs.Layout.Splicing

namespace MemberOrder

open Layout

/-! ## Names -/

mutual

theorem NameTree.eq_of_same {a b : NameTree} (h : a.same b = true) : a = b := by
  cases a with
  | node name children =>
    cases b with
    | node name' children' =>
      rw [NameTree.same, Bool.and_eq_true, beq_iff_eq] at h
      rw [h.1, eq_of_sameTrees h.2]

theorem eq_of_sameTrees {as bs : List NameTree} (h : sameTrees as bs = true) : as = bs := by
  cases as with
  | nil =>
    cases bs with
    | nil => rfl
    | cons b rest => cases h
  | cons a rest =>
    cases bs with
    | nil => cases h
    | cons b rest' =>
      rw [sameTrees, Bool.and_eq_true] at h
      rw [NameTree.eq_of_same h.1, eq_of_sameTrees h.2]

end

theorem sameNames_iff {ms ms' : List Member} :
    sameNames ms ms' = true ↔ nameTrees ms = nameTrees ms' := by
  constructor
  · exact eq_of_sameTrees
  · intro h
    rw [sameNames, h]
    exact sameTrees_refl _

mutual

/-- Whether in no list inside a member two members have one name. -/
def Member.namesApart : Member → Bool
  | .leaf _ => true
  | .group _ children => decide (children.map Member.name).Nodup && eachNamesApart children

/-- Whether in no list inside some members two members have one name. -/
def eachNamesApart : List Member → Bool
  | [] => true
  | m :: rest => m.namesApart && eachNamesApart rest

end

/-- Whether no two members of a list have one name, nor two members of a list inside it. -/
def namesApart (ms : List Member) : Bool :=
  decide (ms.map Member.name).Nodup && eachNamesApart ms

theorem eachNamesApart_iff {ms : List Member} :
    eachNamesApart ms = true ↔ ∀ m ∈ ms, m.namesApart = true := by
  induction ms with
  | nil => simp [eachNamesApart]
  | cons m rest ih => simp [eachNamesApart, ih]

theorem nameTree_name {m m' : Member} (h : m.nameTree = m'.nameTree) : m.name = m'.name := by
  cases m <;> cases m' <;> simp_all [Member.nameTree, Member.name, Member.info]

theorem map_name_of_nameTrees {ms ms' : List Member} (h : nameTrees ms = nameTrees ms') :
    ms.map Member.name = ms'.map Member.name := by
  induction ms generalizing ms' with
  | nil =>
    cases ms' with
    | nil => rfl
    | cons m' rest' => simp [nameTrees] at h
  | cons m rest ih =>
    cases ms' with
    | nil => simp [nameTrees] at h
    | cons m' rest' =>
      rw [nameTrees, nameTrees, List.cons.injEq] at h
      rw [List.map_cons, List.map_cons, nameTree_name h.1, ih h.2]

/-! ## Rearranged under the same names -/

/-- Two lists that agree under a map that tells their items apart are the same. -/
theorem eq_of_map_eq {α β : Type} {f : α → β} {xs ys : List α}
    (hf : ∀ x ∈ xs, ∀ y ∈ ys, f x = f y → x = y) (h : xs.map f = ys.map f) : xs = ys := by
  induction xs generalizing ys with
  | nil => exact (List.map_eq_nil_iff.mp h.symm).symm
  | cons x rest ih =>
    cases ys with
    | nil => cases h
    | cons y rest' =>
      rw [List.map_cons, List.map_cons, List.cons.injEq] at h
      rw [hf x List.mem_cons_self y List.mem_cons_self h.1,
        ih (fun a ha b hb => hf a (List.mem_cons_of_mem x ha) b (List.mem_cons_of_mem y hb)) h.2]

theorem EachRearranged.map_name {ms ms' : List Member} (h : EachRearranged ms ms') :
    ms'.map Member.name = ms.map Member.name := by
  have hinfo := congrArg (List.map MemberInfo.name) h.map_info
  rwa [List.map_map, List.map_map] at hinfo

/-- A permutation of members with different names that keeps the sequence of the names is none. -/
theorem eq_of_perm_of_names {ms mid : List Member} (hperm : ms.Perm mid)
    (hapart : (ms.map Member.name).Nodup) (hnames : ms.map Member.name = mid.map Member.name) :
    mid = ms := by
  refine (eq_of_map_eq (fun x hx y hy hxy => ?_) hnames).symm
  exact List.inj_on_of_nodup_map hapart hx (hperm.mem_iff.mpr hy) hxy

mutual

theorem Member.Rearranged.eq_of_nameTree {m m' : Member} (hapart : m.namesApart = true)
    (h : m.Rearranged m') (hnames : m.nameTree = m'.nameTree) : m' = m := by
  cases h with
  | leaf i => rfl
  | group i hperm heach =>
    rename_i children mid children'
    rw [Member.namesApart, Bool.and_eq_true, decide_eq_true_eq, eachNamesApart_iff] at hapart
    rw [Member.nameTree, Member.nameTree, NameTree.node.injEq] at hnames
    have hmid : mid = children := eq_of_perm_of_names hperm hapart.1
      ((map_name_of_nameTrees hnames.2).trans heach.map_name)
    subst hmid
    rw [EachRearranged.eq_of_nameTrees hapart.2 heach hnames.2]

theorem EachRearranged.eq_of_nameTrees {ms ms' : List Member}
    (hapart : ∀ m ∈ ms, m.namesApart = true) (h : EachRearranged ms ms')
    (hnames : nameTrees ms = nameTrees ms') : ms' = ms := by
  cases h with
  | nil => rfl
  | cons hm hrest =>
    rw [nameTrees, nameTrees, List.cons.injEq] at hnames
    rw [Member.Rearranged.eq_of_nameTree (hapart _ List.mem_cons_self) hm hnames.1,
      EachRearranged.eq_of_nameTrees (fun m hm => hapart m (List.mem_cons_of_mem _ hm)) hrest hnames.2]

end

/-- Members without namesakes that are rearranged under the same names are what they were. -/
theorem Rearranged.eq_of_sameNames {ms ms' : List Member} (hapart : namesApart ms = true)
    (h : Rearranged ms ms') (hnames : sameNames ms ms' = true) : ms' = ms := by
  obtain ⟨mid, hperm, heach⟩ := h
  have htrees := sameNames_iff.mp hnames
  rw [namesApart, Bool.and_eq_true, decide_eq_true_eq, eachNamesApart_iff] at hapart
  have hmid : mid = ms := eq_of_perm_of_names hperm hapart.1
    ((map_name_of_nameTrees htrees).trans heach.map_name)
  subst hmid
  exact heach.eq_of_nameTrees hapart.2 htrees

/-! ## Runs -/

/-- Whether some entity has a member list, at some depth, that is out of source order. -/
def anyOutOfOrder (es : List Entity) : Bool := es.any fun e => reordered e.members

theorem sortedTwin_eq_self_iff (o : Options) (e : Entity) :
    sortedTwin o e = e ↔ (sortedTwin o e).members = e.members := by
  constructor
  · intro h
    rw [h]
  · intro h
    rw [sortedTwin_eq, h]

/-- Sorting puts an entity that was read out of order exactly when it changes it. -/
theorem reordered_sortedTwin_iff {o : Options} (hyaml : o.fileType.language ≠ .yaml) {t : Text}
    {e : Entity} (he : e ∈ (readSource o.fileType t).entities) :
    reordered (sortedTwin o e).members = true ↔ sortedTwin o e ≠ e := by
  obtain ⟨i, j, hlaid, -, -⟩ := (readSource_chain hyaml t).of_mem (fun _ _ _ he => he.le) he
  obtain ⟨body, -, -, -, hmembers⟩ := hlaid.members
  rw [reordered_iff hmembers (sortedTwin_rearranged o e), Ne, Ne, sortedTwin_eq_self_iff]

theorem hasChanges_sortEntities (o : Options) (es : List Entity) :
    hasChanges es (sortEntities o es).1 = es.any fun e => !sameNames e.members (sortedTwin o e).members := by
  rw [sortEntities_eq_map, hasChanges, List.length_map, bne_self_eq_false, Bool.false_or]
  induction es with
  | nil => rfl
  | cons e rest ih => rw [List.map_cons, List.zip_cons_cons, List.any_cons, List.any_cons, ih]

theorem anyOutOfOrder_sortEntities (o : Options) (es : List Entity) :
    anyOutOfOrder (sortEntities o es).1 = es.any fun e => reordered (sortedTwin o e).members := by
  rw [sortEntities_eq_map, anyOutOfOrder, List.any_map]
  rfl

theorem alreadySorted_not_mem_sortNotices (o : Options) (es : List Entity) :
    Notice.alreadySorted ∉ (sortEntities o es).2 := by
  induction es with
  | nil => exact List.not_mem_nil
  | cons e rest ih =>
    simp only [sortEntities]
    split
    · exact ih
    · rw [List.mem_cons, not_or]
      exact ⟨by simp, ih⟩

theorem alreadySorted_not_mem_readNotices (errors : List ReadError) :
    Notice.alreadySorted ∉ errors.map Notice.read := by
  intro h
  obtain ⟨error, -, h⟩ := List.mem_map.mp h
  cases h

/-- A run says that the source is sorted when there are members and their names have not changed. -/
theorem alreadySorted_mem_warnings_iff {o : Options} {source : String} {es : List Entity}
    (hes : (readSource o.fileType (Text.ofString source)).entities = es) :
    Notice.alreadySorted ∈ (processWith o source).warnings ↔
      (∃ e ∈ es, e.members ≠ []) ∧ hasChanges es (sortEntities o es).1 = false := by
  have hread := alreadySorted_not_mem_readNotices (readSource o.fileType (Text.ofString source)).errors
  have hsort := alreadySorted_not_mem_sortNotices o es
  cases hempty : es.isEmpty with
  | true =>
    rw [List.isEmpty_iff] at hempty
    subst hempty
    simp only [processWith, hes, List.isEmpty_nil, if_true]
    split <;> simp_all
  | false =>
    cases hall : es.all (·.members.isEmpty) with
    | true =>
      have hnone : ¬∃ e ∈ es, e.members ≠ [] := by
        rintro ⟨e, he, hne⟩
        have := List.all_eq_true.mp hall e he
        exact hne (List.isEmpty_iff.mp this)
      simp only [processWith, hes, hempty, hall, Bool.false_eq_true, if_false, if_true]
      split <;> simp_all
    | false =>
      have hsome : ∃ e ∈ es, e.members ≠ [] := by
        obtain ⟨e, he, hne⟩ := List.all_eq_false.mp hall
        exact ⟨e, he, fun h => hne (by rw [h]; rfl)⟩
      cases hchanges : hasChanges es (sortEntities o es).1 with
      | true =>
        simp only [processWith, hes, hempty, hall, hchanges, Bool.false_eq_true, if_false, if_true]
        simp [hread, hsort]
      | false =>
        simp only [processWith, hes, hempty, hall, hchanges, Bool.false_eq_true, if_false]
        simp [hsome]

/-- Of a scanned source, names that change show that sorting has put something out of order, which it
does exactly when it moves something. Where no list has two members of one name, what sorting moves
always shows in the names, and a run that finds members says that the source is sorted exactly when
nothing is moved. -/
theorem hasChanges_iff_outOfOrder (o : Options) (hyaml : o.fileType.language ≠ .yaml)
    (source : String) :
    let es := (readSource o.fileType (Text.ofString source)).entities
    let sorted := (sortEntities o es).1
    (hasChanges es sorted = true → anyOutOfOrder sorted = true) ∧
      (anyOutOfOrder sorted = true ↔ sorted ≠ es) ∧
      ((∀ e ∈ es, namesApart e.members = true) →
        (hasChanges es sorted = true ↔ anyOutOfOrder sorted = true) ∧
        (Notice.alreadySorted ∈ (processWith o source).warnings ↔
          (∃ e ∈ es, e.members ≠ []) ∧ anyOutOfOrder sorted = false)) := by
  intro es sorted
  have hreordered : ∀ e ∈ es, (reordered (sortedTwin o e).members = true ↔ sortedTwin o e ≠ e) :=
    fun e he => reordered_sortedTwin_iff hyaml he
  have hforward : hasChanges es sorted = true → anyOutOfOrder sorted = true := by
    intro h
    rw [hasChanges_sortEntities, List.any_eq_true] at h
    obtain ⟨e, he, hnames⟩ := h
    rw [anyOutOfOrder_sortEntities, List.any_eq_true]
    refine ⟨e, he, (hreordered e he).mpr fun heq => ?_⟩
    rw [heq, sameNames, sameTrees_refl] at hnames
    cases hnames
  have hbackward : (∀ e ∈ es, namesApart e.members = true) →
      anyOutOfOrder sorted = true → hasChanges es sorted = true := by
    intro hapart h
    rw [anyOutOfOrder_sortEntities, List.any_eq_true] at h
    obtain ⟨e, he, hout⟩ := h
    rw [hasChanges_sortEntities, List.any_eq_true]
    refine ⟨e, he, ?_⟩
    rw [Bool.not_eq_true', ← Bool.not_eq_true]
    intro hnames
    refine (hreordered e he).mp hout ((sortedTwin_eq_self_iff o e).mpr ?_)
    exact (sortedTwin_rearranged o e).eq_of_sameNames (hapart e he) hnames
  refine ⟨hforward, ?_, fun hapart => ?_⟩
  · rw [anyOutOfOrder_sortEntities, List.any_eq_true]
    constructor
    · rintro ⟨e, he, hout⟩ hsame
      rw [show sorted = es.map (sortedTwin o) from sortEntities_eq_map o es] at hsame
      have hfixed : es.map (sortedTwin o) = es.map id := by rw [hsame, List.map_id]
      exact (hreordered e he).mp hout (List.map_inj_left.mp hfixed e he)
    · intro hne
      refine Classical.byContradiction fun hnone => hne ?_
      rw [show sorted = es.map (sortedTwin o) from sortEntities_eq_map o es]
      calc es.map (sortedTwin o) = es.map id := List.map_congr_left fun e he =>
            Classical.byContradiction fun hmoved => hnone ⟨e, he, (hreordered e he).mpr hmoved⟩
        _ = es := List.map_id es
  · have hiff : hasChanges es sorted = true ↔ anyOutOfOrder sorted = true :=
      ⟨hforward, hbackward hapart⟩
    refine ⟨hiff, ?_⟩
    rw [alreadySorted_mem_warnings_iff rfl, ← Bool.not_eq_true, ← Bool.not_eq_true, hiff]

/-- Two rules of which the second one is sorted. -/
theorem hasChanges_iff_outOfOrder_rules :
    FileType.css.language ≠ .yaml ∧
    (∀ e ∈ (readSource .css (Text.ofString "a\x7bc:1;b:2\x7dd\x7be:1\x7d")).entities,
      namesApart e.members = true) ∧
    (hasChanges (readSource .css (Text.ofString "a\x7bc:1;b:2\x7dd\x7be:1\x7d")).entities
        (sortEntities { fileType := .css }
          (readSource .css (Text.ofString "a\x7bc:1;b:2\x7dd\x7be:1\x7d")).entities).1 = true ↔
      anyOutOfOrder (sortEntities { fileType := .css }
        (readSource .css (Text.ofString "a\x7bc:1;b:2\x7dd\x7be:1\x7d")).entities).1 = true) := by
  have hlanguage : FileType.css.language ≠ .yaml := by decide
  have hapart : ∀ e ∈ (readSource .css (Text.ofString "a\x7bc:1;b:2\x7dd\x7be:1\x7d")).entities,
      namesApart e.members = true := by
    decide +kernel
  exact ⟨hlanguage, hapart, ((hasChanges_iff_outOfOrder { fileType := .css } hlanguage
    "a\x7bc:1;b:2\x7dd\x7be:1\x7d").2.2 hapart).1⟩

/-- A rule that sets one property twice, the second time with importance. -/
def importantNamesake : String := "a\x7bcolor:red;color:blue!important\x7d"

/-- With important declarations first the two declarations change places; their names do not tell, and
the run takes the rule to be sorted. -/
theorem hasChanges_misses_namesakes :
    let o : Options := { fileType := .css, sortByImportance := true }
    let es := (readSource .css (Text.ofString importantNamesake)).entities
    anyOutOfOrder (sortEntities o es).1 = true ∧ hasChanges es (sortEntities o es).1 = false ∧
      (processWith o importantNamesake).warnings = [Notice.alreadySorted] ∧
      (processWith o importantNamesake).processedText = some importantNamesake := by
  decide +kernel

end MemberOrder
