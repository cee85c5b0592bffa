/-
  The arrangement of struct fields as one stable sort.

  Fields are taken apart three times: embedded ones from the others, by tag pattern, and exported ones
  from the others; what is left is sorted by the strategy. Taking apart by a test is sorting by the test
  first (`stableSort_split`), so each step adds its order of groups in front of the comparison with which
  the groups are sorted (`SortsAs.split`, `eachGroup_sortsAs`). In the end the fields are sorted once,
  by `compareFields`. Only a size can fail to be told; the arrangement fails with it exactly when two
  fields have to be compared by their sizes and one of the two sizes cannot be told
  (`arrangeFields_sorts`).
-/
import MemberOrder.Proofs.Order.Stability
import MemberOrder.Proofs.Order.Steadiness

namespace MemberOrder.Order

open Std

/-! ## Taking apart -/

section Split

variable {α : Type} {le : α → α → Bool} {p : α → Bool} {x : α} {xs ys : List α}

theorem insertSorted_append_of_before (h : ∀ y ∈ ys, le x y = true) :
    insertSorted le x (xs ++ ys) = insertSorted le x xs ++ ys := by
  induction xs with
  | nil =>
    cases ys with
    | nil => rfl
    | cons y rest => exact if_pos (h y List.mem_cons_self)
  | cons z rest ih =>
    rw [List.cons_append, insertSorted, insertSorted, ih]
    split <;> rfl

theorem insertSorted_append_of_after (h : ∀ y ∈ xs, le x y = false) :
    insertSorted le x (xs ++ ys) = xs ++ insertSorted le x ys := by
  induction xs with
  | nil => rfl
  | cons z rest ih =>
    rw [List.cons_append, insertSorted, h z List.mem_cons_self, if_neg (by decide),
      ih fun y hy => h y (List.mem_cons_of_mem z hy), List.cons_append]

/-- Where what passes a test comes before all that does not, the two are sorted apart. -/
theorem stableSort_split (h : ∀ a b, p a = true → p b = false → le a b = true ∧ le b a = false)
    (xs : List α) :
    stableSort le xs = stableSort le (xs.filter p) ++ stableSort le (xs.filter fun x => !p x) := by
  have hmem {q : α → Bool} {ys : List α} {y : α} (hy : y ∈ stableSort le (ys.filter q)) : q y = true :=
    (List.mem_filter.mp ((stableSort_perm _ _).mem_iff.mp hy)).2
  induction xs with
  | nil => rfl
  | cons x rest ih =>
    rw [stableSort, ih]
    cases hx : p x with
    | true =>
      have hbefore : ∀ y ∈ stableSort le (rest.filter fun x => !p x), le x y = true := fun y hy =>
        (h x y hx (by simpa using hmem hy)).1
      rw [insertSorted_append_of_before hbefore, List.filter_cons_of_pos hx,
        List.filter_cons_of_neg (by simp [hx]), stableSort]
    | false =>
      have hafter : ∀ y ∈ stableSort le (rest.filter p), le x y = false := fun y hy =>
        (h y x (hmem hy) hx).2
      rw [insertSorted_append_of_after hafter, List.filter_cons_of_neg (by simp [hx]),
        List.filter_cons_of_pos (by simp [hx]), stableSort]

/-- What holds of every two items of which one passes a test holds of all if it holds in both parts. -/
theorem pairwise_split {R : α → α → Prop} (h : ∀ a b, p a ≠ p b → R a b) :
    xs.Pairwise R ↔ (xs.filter p).Pairwise R ∧ (xs.filter fun x => !p x).Pairwise R := by
  induction xs with
  | nil => simp
  | cons x rest ih =>
    have hall : (∀ y ∈ rest, R x y) ↔ ∀ y ∈ rest, p y = p x → R x y := by
      refine ⟨fun hr y hy _ => hr y hy, fun hr y hy => ?_⟩
      by_cases hsame : p y = p x
      · exact hr y hy hsame
      · exact h x y (Ne.symm hsame)
    rw [List.pairwise_cons, ih, hall]
    cases hx : p x with
    | true =>
      simp only [List.filter_cons, hx, if_true, Bool.not_true, Bool.false_eq_true, if_false,
        List.pairwise_cons, List.mem_filter, and_imp, and_assoc]
    | false =>
      simp only [List.filter_cons, hx, if_true, Bool.not_false, Bool.false_eq_true, if_false,
        List.pairwise_cons, List.mem_filter, and_imp, Bool.not_eq_true']
      exact ⟨fun ⟨h1, h2, h3⟩ => ⟨h2, h1, h3⟩, fun ⟨h2, h1, h3⟩ => ⟨h1, h2, h3⟩⟩

end Split

/-! ## Comparisons that can fail -/

/-- A comparison of members. -/
abbrev Comparison : Type := MemberInfo → MemberInfo → Except Fault Ordering

/-- Whether a comparison answers. -/
def Answers (cmp : Comparison) (a b : MemberInfo) : Prop := ∃ r, cmp a b = .ok r

/-- Compares by groups, and within a group by another comparison. -/
def within (group : MemberInfo → MemberInfo → Ordering) (cmp : Comparison) : Comparison := fun a b =>
  match group a b with
  | .eq => cmp a b
  | r => .ok r

/-- Whether a comparison lets the first of two items come first. -/
def before {α : Type} (cmp : Comparison) (view : α → Member) (a b : α) : Bool :=
  allows (cmp (view a).info (view b).info)

/-- Items are sorted by a comparison, and that fails exactly if the comparison does not answer on two of
them. -/
structure SortsAs {α : Type} (cmp : Comparison) (view : α → Member) (items : List α)
    (result : Except Fault (List α)) : Prop where
  answers : (∃ r, result = .ok r) ↔ items.Pairwise fun a b => Answers cmp (view a).info (view b).info
  eq : ∀ r, result = .ok r → r = stableSort (before cmp view) items

section SortsAs

variable {α : Type} {view : α → Member} {items : List α} {cmp cmp' : Comparison}

/-- Comparisons that agree on the items sort them alike. -/
theorem SortsAs.congr {result : Except Fault (List α)} (h : SortsAs cmp view items result)
    (hsame : ∀ a ∈ items, ∀ b ∈ items,
      cmp (view a).info (view b).info = cmp' (view a).info (view b).info) :
    SortsAs cmp' view items result := by
  refine ⟨h.answers.trans ?_, fun r hr => (h.eq r hr).trans (stableSort_congr fun a ha b hb => ?_)⟩
  · refine List.Pairwise.iff_of_mem fun {a b} ha hb => ?_
    rw [Answers, Answers, hsame a ha b hb]
  · rw [before, before, hsame a ha b hb]

theorem within_of_eq {group : MemberInfo → MemberInfo → Ordering} {a b : MemberInfo}
    (h : group a b = .eq) : within group cmp a b = cmp a b := by
  rw [within, h]

/-- Compares by a test, what passes it first. -/
def byTest (test : MemberInfo → Bool) : MemberInfo → MemberInfo → Ordering := compareOn fun i => !test i

theorem byTest_eq {test : MemberInfo → Bool} {a b : MemberInfo} (h : test a = test b) :
    byTest test a b = .eq := by
  rw [byTest, compareOn, h]
  exact ReflCmp.compare_self

/-- Two parts that are sorted by a comparison are, one after the other, sorted by the test first. -/
theorem SortsAs.split {first second : Except Fault (List α)} (test : MemberInfo → Bool)
    (hfirst : SortsAs cmp view (items.filter fun x => test (view x).info) first)
    (hsecond : SortsAs cmp view (items.filter fun x => !test (view x).info) second) :
    SortsAs (within (byTest test) cmp) view items (do
      let a ← first
      let b ← second
      return a ++ b) := by
  have hwithin {a b : α} (h : test (view a).info = test (view b).info) :
      within (byTest test) cmp (view a).info (view b).info = cmp (view a).info (view b).info :=
    within_of_eq (byTest_eq h)
  have hahead {a b : α} (ha : test (view a).info = true) (hb : test (view b).info = false) :
      within (byTest test) cmp (view a).info (view b).info = .ok .lt ∧
        within (byTest test) cmp (view b).info (view a).info = .ok .gt := by
    simp only [within, byTest, compareOn, ha, hb]
    exact ⟨rfl, rfl⟩
  have hfirst : SortsAs (within (byTest test) cmp) view _ first := hfirst.congr fun a ha b hb => by
    rw [hwithin ((List.mem_filter.mp ha).2.trans (List.mem_filter.mp hb).2.symm)]
  have hsecond : SortsAs (within (byTest test) cmp) view _ second := hsecond.congr fun a ha b hb => by
    have htests : test (view a).info = test (view b).info := by
      simpa using (List.mem_filter.mp ha).2.trans (List.mem_filter.mp hb).2.symm
    rw [hwithin htests]
  refine ⟨?_, fun r hr => ?_⟩
  · rw [pairwise_split (p := fun x => test (view x).info), ← hfirst.answers, ← hsecond.answers]
    · constructor
      · rintro ⟨r, hr⟩
        obtain ⟨a, ha, hr⟩ := bind_ok hr
        obtain ⟨b, hb, -⟩ := bind_ok hr
        exact ⟨⟨a, ha⟩, ⟨b, hb⟩⟩
      · rintro ⟨⟨a, rfl⟩, ⟨b, rfl⟩⟩
        exact ⟨a ++ b, rfl⟩
    · intro a b hne
      -- across the parts the test alone answers
      cases ha : test (view a).info with
      | true =>
        have hb : test (view b).info = false := by simpa [ha] using hne
        exact ⟨_, (hahead ha hb).1⟩
      | false =>
        have hb : test (view b).info = true := by simpa [ha] using hne
        exact ⟨_, (hahead hb ha).2⟩
  · obtain ⟨a, ha, hr⟩ := bind_ok hr
    obtain ⟨b, hb, hr⟩ := bind_ok hr
    cases hr
    rw [hfirst.eq a ha, hsecond.eq b hb]
    refine (stableSort_split (p := fun x => test (view x).info) (fun a b ha hb => ?_) items).symm
    rw [before, before, (hahead ha hb).1, (hahead ha hb).2]
    exact ⟨rfl, rfl⟩

end SortsAs

/-! ## The order of fields -/

/-- Embedded fields first, where they are grouped. -/
def embeddedOrder (o : Options) : MemberInfo → MemberInfo → Ordering :=
  byTest fun i => !o.groupEmbeddedFields || i.isEmbedded

/-- Tag patterns in the order of their texts, untagged fields last. -/
def patternOrder : Option String → Option String → Ordering
  | some p, some q => compareChars p.toList q.toList
  | some _, none => .lt
  | none, some _ => .gt
  | none, none => .eq

theorem patternOrder_eq : patternOrder = compareLex (compareOn Option.isNone)
    fun p q => compareChars (p.getD "").toList (q.getD "").toList := by
  funext p q
  cases p <;> cases q <;> rfl

instance patternOrder_trans : TransCmp patternOrder := by
  have := transCmp_on compareChars fun p : Option String => (p.getD "").toList
  rw [patternOrder_eq]
  infer_instance

/-- Fields by tag pattern, where they are grouped so. -/
def tagOrder (o : Options) (a b : MemberInfo) : Ordering :=
  if o.structStrategy == .preserveTags then patternOrder (tagPattern a.structTags) (tagPattern b.structTags)
  else .eq

/-- Exported fields first, where they are grouped. -/
def visibilityOrder (o : Options) : MemberInfo → MemberInfo → Ordering :=
  byTest fun i => !o.groupByVisibility || isExported i

/-- Compares two fields of one group by the strategy of the options. -/
def compareByStrategy (o : Options) : Comparison :=
  match o.structStrategy with
  | .byType => compareTypes o
  | .bySize => compareSizes o
  | .alphabetical | .preserveTags => compareMembers o

/-- Compares two fields: embedded ones first, then by tag pattern, then exported ones first, then by the
strategy. -/
def compareFields (o : Options) : Comparison :=
  within (embeddedOrder o) (within (tagOrder o) (within (visibilityOrder o) (compareByStrategy o)))

theorem within_byTest_true (cmp : Comparison) : within (byTest fun _ => true) cmp = cmp := by
  funext a b
  exact within_of_eq (byTest_eq rfl)

section Arranging

variable {o : Options} (hplain : o.naturalSort = false) {α : Type} {view : α → Member}
include hplain

/-! ## Strategies -/

theorem sortBy_eq (cmp : Comparison) (items : List α) :
    sortBy o cmp view items = .ok (stableSort (before cmp view) items) := by
  simp only [sortBy, hplain, Bool.false_eq_true, if_false]
  rfl

/-- A comparison that always answers sorts all items. -/
theorem sortBy_sortsAs {cmp : Comparison} (h : ∀ a b, Answers cmp a b) (items : List α) :
    SortsAs cmp view items (sortBy o cmp view items) := by
  rw [sortBy_eq hplain]
  refine ⟨⟨fun _ => ?_, fun _ => ⟨_, rfl⟩⟩, fun r hr => (Except.ok.inj hr).symm⟩
  exact List.pairwise_of_forall fun _ _ => h _ _

theorem compareSizes_answers {a b : MemberInfo} : Answers (compareSizes o) a b ↔
    (∃ m, typeSize a.value.display = .ok m) ∧ ∃ n, typeSize b.value.display = .ok n := by
  constructor
  · rintro ⟨r, hr⟩
    obtain ⟨m, hm, hr⟩ := bind_ok hr
    obtain ⟨n, hn, -⟩ := bind_ok hr
    exact ⟨⟨m, hm⟩, ⟨n, hn⟩⟩
  · rintro ⟨⟨m, hm⟩, ⟨n, hn⟩⟩
    exact ⟨_, compareSizes_plain hplain hm hn⟩

/-- Of two fields or more every size is asked for; one field alone is not looked at. -/
theorem sortBySize_sortsAs (items : List α) :
    SortsAs (compareSizes o) view items (sortBySize o view items) := by
  rw [sortBySize_eq hplain]
  refine ⟨?_, fun r hr => ?_⟩
  · have hsorts : (∃ r, (do
          let _ ← (lookedAt items).mapM fun x => typeSize (view x).info.value.display
          sortBy o (compareSizes o) view items) = Except.ok r) ↔
        ∀ x ∈ lookedAt items, ∃ size, typeSize (view x).info.value.display = .ok size := by
      constructor
      · rintro ⟨r, hr⟩ x hx
        obtain ⟨sizes, hsizes, -⟩ := bind_ok hr
        exact exists_of_mapM hsizes hx
      · intro h
        obtain ⟨sizes, hsizes⟩ := mapM_ok h
        rw [hsizes, sortBy_eq hplain]
        exact ⟨_, rfl⟩
    rw [hsorts]
    simp only [compareSizes_answers hplain]
    match items with
    | [] => simp [lookedAt]
    | [x] => simp [lookedAt]
    | x :: y :: rest =>
      rw [List.pairwise_cons]
      constructor
      · intro h
        have hknown {z : α} (hz : z ∈ x :: y :: rest) :
            ∃ size, typeSize (view z).info.value.display = .ok size :=
          h z ((lookedAt_perm (Nat.le_add_left 2 _)).mem_iff.mpr hz)
        refine ⟨fun z hz => ⟨hknown List.mem_cons_self, hknown (List.mem_cons_of_mem x hz)⟩, ?_⟩
        refine (List.pairwise_of_forall (R := fun _ _ => True) fun _ _ => trivial).imp_of_mem ?_
        exact fun ha hb _ => ⟨hknown (List.mem_cons_of_mem x ha), hknown (List.mem_cons_of_mem x hb)⟩
      · rintro ⟨h, -⟩ z hz
        rcases List.mem_cons.mp ((lookedAt_perm (Nat.le_add_left 2 _)).mem_iff.mp hz) with rfl | hz
        · exact (h y List.mem_cons_self).1
        · exact (h z hz).2
  · obtain ⟨sizes, -, hr⟩ := bind_ok hr
    rw [sortBy_eq hplain] at hr
    exact (Except.ok.inj hr).symm

theorem orderFields_sortsAs (items : List α) :
    SortsAs (compareByStrategy o) view items (orderFields o view items) := by
  have hchain : ∀ a b, Answers (compareMembers o) a b := fun a b => ⟨_, compareMembers_plain hplain a b⟩
  unfold orderFields compareByStrategy
  cases o.structStrategy with
  | byType => exact sortBy_sortsAs hplain (fun a b => ⟨_, compareTypes_plain hplain a b⟩) items
  | bySize => exact sortBySize_sortsAs hplain items
  | alphabetical => exact sortBy_sortsAs hplain hchain items
  | preserveTags => exact sortBy_sortsAs hplain hchain items

/-! ## Groups -/

theorem arrangeByVisibility_sortsAs (items : List α) : SortsAs
    (within (visibilityOrder o) (compareByStrategy o)) view items (arrangeByVisibility o view items) := by
  unfold arrangeByVisibility visibilityOrder
  cases o.groupByVisibility with
  | false =>
    simp only [Bool.not_false, Bool.true_or, within_byTest_true, Bool.false_eq_true, if_false]
    exact orderFields_sortsAs hplain items
  | true => exact (orderFields_sortsAs hplain _).split isExported (orderFields_sortsAs hplain _)

/-! ## Tags -/

omit hplain in
/-- The tag patterns of fields stand in the order of their texts. -/
theorem tagPatterns_sorted (view : α → Member) (items : List α) :
    (tagPatterns view items).Pairwise fun p q => compareChars p.toList q.toList = .lt := by
  have hle (a b : String) : (compareChars a.toList b.toList != .gt) =
      (compareChars a.toList b.toList).isLE := by
    cases compareChars a.toList b.toList <;> rfl
  unfold tagPatterns
  simp only [hle]
  have hnodup := (stableSort_perm (fun a b : String => (compareChars a.toList b.toList).isLE)
    (items.filterMap fun x => tagPattern (view x).info.structTags).eraseDups).nodup_iff.mpr
      (nodup_eraseDups _)
  refine ((stableSort_isLE String.toList _).and hnodup).imp fun {a b} hab => ?_
  cases hcmp : compareChars a.toList b.toList with
  | lt => rfl
  | eq => exact absurd (String.toList_inj.mp (eq_of_compareChars hcmp)) hab.2
  | gt =>
    rw [hcmp] at hab
    exact absurd hab.1 (by decide)

/-- Fields by tag pattern. -/
def byPattern (a b : MemberInfo) : Ordering :=
  patternOrder (tagPattern a.structTags) (tagPattern b.structTags)

/-- The fields with a tag pattern. -/
def withPattern (pattern : String) (i : MemberInfo) : Bool := tagPattern i.structTags == some pattern

omit hplain in
theorem byPattern_of_withPattern {pattern : String} {a b : MemberInfo} (ha : withPattern pattern a = true)
    (hb : withPattern pattern b = true) : byPattern a b = .eq := by
  rw [byPattern, eq_of_beq ha, eq_of_beq hb]
  exact ReflCmp.compare_self

omit hplain in
/-- Fields with the first of some patterns come before those with the others and those with none. -/
theorem byPattern_first {pattern : String} {patterns : List String} {a b : MemberInfo}
    (hfirst : ∀ p ∈ patterns, compareChars pattern.toList p.toList = .lt)
    (ha : withPattern pattern a = true) (hb : withPattern pattern b = false)
    (hmem : ∀ p, tagPattern b.structTags = some p → p ∈ pattern :: patterns) :
    byPattern a b = .lt ∧ byPattern b a = .gt := by
  rw [byPattern, byPattern, eq_of_beq ha]
  cases htag : tagPattern b.structTags with
  | none => exact ⟨rfl, rfl⟩
  | some p =>
    have hne : p ≠ pattern := by
      rintro rfl
      rw [withPattern, htag, beq_self_eq_true] at hb
      cases hb
    have hlt := hfirst p ((List.mem_cons.mp (hmem p htag)).resolve_left hne)
    exact ⟨hlt, OrientedCmp.gt_of_lt hlt⟩

omit hplain in
/-- The test for the first of some patterns tells nothing that the order of patterns does not. -/
theorem within_withPattern {cmp : Comparison} {pattern : String} {patterns : List String} {a b : MemberInfo}
    (hfirst : ∀ p ∈ patterns, compareChars pattern.toList p.toList = .lt)
    (hmema : ∀ p, tagPattern a.structTags = some p → p ∈ pattern :: patterns)
    (hmemb : ∀ p, tagPattern b.structTags = some p → p ∈ pattern :: patterns) :
    within (byTest (withPattern pattern)) (within byPattern cmp) a b = within byPattern cmp a b := by
  cases ha : withPattern pattern a with
  | true =>
    cases hb : withPattern pattern b with
    | true => exact within_of_eq (byTest_eq (ha.trans hb.symm))
    | false =>
      have hlt := (byPattern_first hfirst ha hb hmemb).1
      simp only [within, byTest, compareOn, ha, hb, hlt]
      rfl
  | false =>
    cases hb : withPattern pattern b with
    | false => exact within_of_eq (byTest_eq (ha.trans hb.symm))
    | true =>
      have hgt := (byPattern_first hfirst hb ha hmema).2
      simp only [within, byTest, compareOn, ha, hb, hgt]
      rfl

omit hplain in
/-- The groups of the patterns after one have none of its fields. -/
theorem groups_without {pattern : String} {patterns : List String}
    (hfirst : ∀ p ∈ patterns, compareChars pattern.toList p.toList = .lt) (view : α → Member)
    (items : List α) :
    let others := items.filter fun x => !withPattern pattern (view x).info
    patterns.map (fun p => others.filter fun x => withPattern p (view x).info) =
        patterns.map (fun p => items.filter fun x => withPattern p (view x).info) ∧
      (others.filter fun x => (tagPattern (view x).info.structTags).isNone) =
        items.filter fun x => (tagPattern (view x).info.structTags).isNone := by
  have hothers {q : α → Bool} (hq : ∀ x, q x = true → withPattern pattern (view x).info = false) :
      (items.filter fun x => !withPattern pattern (view x).info).filter q = items.filter q := by
    rw [List.filter_filter]
    refine List.filter_congr fun x _ => ?_
    cases hqx : q x with
    | false => rfl
    | true => rw [hq x hqx]; rfl
  refine ⟨List.map_congr_left fun p hp => hothers fun x hx => ?_, hothers fun x hx => ?_⟩
  · refine beq_eq_false_iff_ne.mpr fun heq => ?_
    have hlt := hfirst p hp
    have hself : compareChars p.toList p.toList = .eq := ReflCmp.compare_self
    rw [Option.some.inj (heq.symm.trans (eq_of_beq hx)), hself] at hlt
    cases hlt
  · refine beq_eq_false_iff_ne.mpr fun heq => ?_
    rw [heq] at hx
    cases hx

omit hplain in
/-- Groups by pattern, one after the other, are sorted by pattern first. -/
theorem eachGroup_sortsAs {cmp : Comparison}
    (hgroup : ∀ items : List α, SortsAs cmp view items (arrangeByVisibility o view items))
    {patterns : List String} (hsorted : patterns.Pairwise fun p q => compareChars p.toList q.toList = .lt)
    {items : List α}
    (hitems : ∀ x ∈ items, ∀ p, tagPattern (view x).info.structTags = some p → p ∈ patterns) :
    SortsAs (within byPattern cmp) view items (eachGroup (arrangeByVisibility o view)
      (patterns.map (fun p => items.filter fun x => withPattern p (view x).info) ++
        [items.filter fun x => (tagPattern (view x).info.structTags).isNone])) := by
  induction patterns generalizing items with
  | nil =>
    have hnone : ∀ x ∈ items, tagPattern (view x).info.structTags = none := fun x hx =>
      Option.eq_none_iff_forall_ne_some.mpr fun p hp => List.not_mem_nil (hitems x hx p hp)
    have hall : (items.filter fun x => (tagPattern (view x).info.structTags).isNone) = items :=
      List.filter_eq_self.mpr fun x hx => by rw [hnone x hx]; rfl
    have hresult : eachGroup (arrangeByVisibility o view) [items] = arrangeByVisibility o view items := by
      rw [eachGroup]
      cases arrangeByVisibility o view items with
      | error fault => rfl
      | ok r => exact congrArg Except.ok (List.append_nil r)
    rw [List.map_nil, List.nil_append, hall, hresult]
    refine (hgroup items).congr fun a ha b hb => (within_of_eq ?_).symm
    rw [byPattern, hnone a ha, hnone b hb]
    rfl
  | cons pattern rest ih =>
    obtain ⟨hfirst, hrest⟩ := List.pairwise_cons.mp hsorted
    -- the first group, and the others by the same pattern order
    have hhead : SortsAs (within byPattern cmp) view
        (items.filter fun x => withPattern pattern (view x).info) _ :=
      (hgroup _).congr fun a ha b hb => (within_of_eq (byPattern_of_withPattern
        (List.mem_filter.mp ha).2 (List.mem_filter.mp hb).2)).symm
    have hpatterns : ∀ x ∈ items.filter fun x => !withPattern pattern (view x).info,
        ∀ p, tagPattern (view x).info.structTags = some p → p ∈ rest := by
      intro x hx p hp
      obtain ⟨hx, hnot⟩ := List.mem_filter.mp hx
      refine (List.mem_cons.mp (hitems x hx p hp)).resolve_left ?_
      rintro rfl
      simp [withPattern, hp] at hnot
    obtain ⟨hgroups, huntagged⟩ := groups_without hfirst view items
    have htail := ih hrest hpatterns
    rw [hgroups, huntagged] at htail
    exact (hhead.split (withPattern pattern) htail).congr fun a ha b hb =>
      within_withPattern hfirst (hitems a ha) (hitems b hb)

theorem arrangeByTags_sortsAs (items : List α) : SortsAs
    (within (tagOrder o) (within (visibilityOrder o) (compareByStrategy o))) view items
    (arrangeByTags o view items) := by
  have hgroup : ∀ items, SortsAs (within (visibilityOrder o) (compareByStrategy o)) view items
      (arrangeByVisibility o view items) := arrangeByVisibility_sortsAs hplain
  cases htags : o.structStrategy == .preserveTags with
  | false =>
    have hnone : within (tagOrder o) (within (visibilityOrder o) (compareByStrategy o)) =
        within (visibilityOrder o) (compareByStrategy o) := by
      funext a b
      refine within_of_eq ?_
      rw [tagOrder, htags, if_neg (by decide)]
    simp only [arrangeByTags, htags, Bool.false_eq_true, if_false, hnone]
    exact hgroup items
  | true =>
    have hpattern : tagOrder o = byPattern := by
      funext a b
      rw [tagOrder, htags, if_pos rfl, byPattern]
    simp only [arrangeByTags, htags, if_true, hpattern]
    refine eachGroup_sortsAs hgroup (tagPatterns_sorted view items) fun x hx p hp => ?_
    refine (stableSort_perm _ _).mem_iff.mpr (List.mem_eraseDups.mpr ?_)
    exact List.mem_filterMap.mpr ⟨x, hx, hp⟩

theorem arrangeFields_sortsAs (items : List α) :
    SortsAs (compareFields o) view items (arrangeFields o view items) := by
  have htags : ∀ items, SortsAs (within (tagOrder o) (within (visibilityOrder o) (compareByStrategy o)))
      view items (arrangeByTags o view items) := arrangeByTags_sortsAs hplain
  unfold arrangeFields compareFields embeddedOrder
  cases o.groupEmbeddedFields with
  | false =>
    simp only [Bool.not_false, Bool.true_or, within_byTest_true, Bool.false_eq_true, if_false]
    exact htags items
  | true => exact (htags _).split (·.isEmbedded) (htags _)

/-! ## The order as a total preorder -/

omit hplain in
/-- A stable sort asks only whether an item may stand before those after it. -/
theorem stableSort_congr_pairwise {le le' : α → α → Bool} {items : List α}
    (h : items.Pairwise fun a b => le a b = le' a b) : stableSort le items = stableSort le' items := by
  induction items with
  | nil => rfl
  | cons x rest ih =>
    obtain ⟨hx, hrest⟩ := List.pairwise_cons.mp h
    rw [stableSort, stableSort, ← ih hrest]
    exact insertSorted_congr fun y hy => hx y ((stableSort_perm le rest).mem_iff.mp hy)

/-- The order of the strategy; a size that cannot be told counts as none. -/
def strategyOrder (o : Options) : MemberInfo → MemberInfo → Ordering :=
  match o.structStrategy with
  | .byType => typeOrder o
  | .bySize => sizeOrder o
  | .alphabetical | .preserveTags => memberOrder o

/-- The order of fields. -/
def fieldOrder (o : Options) : MemberInfo → MemberInfo → Ordering :=
  compareLex (embeddedOrder o) (compareLex (tagOrder o) (compareLex (visibilityOrder o) (strategyOrder o)))

omit hplain in
instance strategyOrder_trans (o : Options) : TransCmp (strategyOrder o) := by
  unfold strategyOrder
  split <;> infer_instance

omit hplain in
instance tagOrder_trans (o : Options) : TransCmp (tagOrder o) := by
  unfold tagOrder
  split
  · exact transCmp_on patternOrder fun i : MemberInfo => tagPattern i.structTags
  · exact { eq_swap := rfl, isLE_trans := fun _ _ => rfl }

omit hplain in
instance fieldOrder_trans (o : Options) : TransCmp (fieldOrder o) := by
  unfold fieldOrder embeddedOrder visibilityOrder byTest
  infer_instance

/-- Where the strategy answers, it answers with its order, also when the fields trade places. -/
theorem compareByStrategy_answers {a b : MemberInfo} (h : Answers (compareByStrategy o) a b) :
    compareByStrategy o a b = .ok (strategyOrder o a b) ∧
      compareByStrategy o b a = .ok (strategyOrder o b a) := by
  unfold compareByStrategy at h ⊢
  unfold strategyOrder
  generalize o.structStrategy = strategy at h ⊢
  cases strategy with
  | byType => exact ⟨compareTypes_plain hplain a b, compareTypes_plain hplain b a⟩
  | bySize =>
    obtain ⟨⟨m, hm⟩, ⟨n, hn⟩⟩ := (compareSizes_answers hplain).mp h
    exact ⟨compareSizes_plain hplain hm hn, compareSizes_plain hplain hn hm⟩
  | alphabetical => exact ⟨compareMembers_plain hplain a b, compareMembers_plain hplain b a⟩
  | preserveTags => exact ⟨compareMembers_plain hplain a b, compareMembers_plain hplain b a⟩

omit hplain in
/-- Groups in front of a comparison that answers with an order make a lexicographic one. -/
theorem within_answers {group order : MemberInfo → MemberInfo → Ordering} [TransCmp group]
    {cmp : Comparison} {a b : MemberInfo}
    (hcmp : Answers cmp a b → cmp a b = .ok (order a b) ∧ cmp b a = .ok (order b a))
    (h : Answers (within group cmp) a b) :
    within group cmp a b = .ok (compareLex group order a b) ∧
      within group cmp b a = .ok (compareLex group order b a) := by
  have hswap : group b a = (group a b).swap := OrientedCmp.eq_swap
  unfold within compareLex
  rw [hswap]
  cases hgroup : group a b with
  | lt => exact ⟨rfl, rfl⟩
  | gt => exact ⟨rfl, rfl⟩
  | eq =>
    rw [Answers, within_of_eq hgroup] at h
    exact hcmp h

theorem compareFields_answers {a b : MemberInfo} (h : Answers (compareFields o) a b) :
    compareFields o a b = .ok (fieldOrder o a b) ∧ compareFields o b a = .ok (fieldOrder o b a) := by
  have hembedded : TransCmp (embeddedOrder o) := by
    unfold embeddedOrder byTest
    infer_instance
  have hvisibility : TransCmp (visibilityOrder o) := by
    unfold visibilityOrder byTest
    infer_instance
  exact within_answers (within_answers (within_answers (compareByStrategy_answers hplain))) h

/-- Where the comparison answers on any two of some fields, sorting by it puts them in order. -/
theorem stableSort_before_pairwise {items : List α}
    (h : items.Pairwise fun a b => Answers (compareFields o) (view a).info (view b).info) :
    (stableSort (before (compareFields o) view) items).Pairwise fun a b =>
      ∃ r, compareFields o (view a).info (view b).info = .ok r ∧ r.isLE = true := by
  have hsame : stableSort (before (compareFields o) view) items =
      stableSort (fun a b => (fieldOrder o (view a).info (view b).info).isLE) items := by
    refine stableSort_congr_pairwise (h.imp fun {a b} hab => ?_)
    rw [before, (compareFields_answers hplain hab).1, allows_ok]
  have hanswers : (stableSort (before (compareFields o) view) items).Pairwise fun a b =>
      Answers (compareFields o) (view a).info (view b).info := by
    refine ((stableSort_perm _ items).pairwise_iff fun {a b} hab => ?_).mpr h
    exact ⟨_, (compareFields_answers hplain hab).2⟩
  have hsorted : (stableSort (before (compareFields o) view) items).Pairwise fun a b =>
      (fieldOrder o (view a).info (view b).info).isLE = true := by
    rw [hsame]
    exact stableSort_isLE (fun x => (view x).info) items
  refine (hanswers.and hsorted).imp fun {a b} hab => ?_
  exact ⟨_, (compareFields_answers hplain hab.1).1, hab.2⟩

end Arranging

end MemberOrder.Order

namespace MemberOrder.Sorter

open MemberOrder.Order

/-- Without natural sorting, the fields of a struct are sorted once, by the comparison that puts embedded
fields first, then goes by tag pattern, puts exported fields first and goes by the strategy. The
arrangement is a result exactly if the comparison answers on any two of the fields; it does unless sizes
are compared and one of the two cannot be told. -/
theorem arrange_struct_sorts (o : Options) (hplain : o.naturalSort = false) (context : Option EntityKind)
    (α : Type) (view : α → Member) (items : List α) :
    ((∃ r, Sorter.struct.arrange o context view items = .ok r) ↔
      items.Pairwise fun a b => Answers (compareFields o) (view a).info (view b).info) ∧
    ∀ r, Sorter.struct.arrange o context view items = .ok r →
      r = stableSort (before (compareFields o) view) items ∧
      r.Pairwise fun a b => ∃ c, compareFields o (view a).info (view b).info = .ok c ∧ c.isLE = true := by
  have hsorts : SortsAs (compareFields o) view items (arrangeFields o view items) :=
    arrangeFields_sortsAs hplain items
  refine ⟨hsorts.answers, fun r hr => ?_⟩
  have hanswers := hsorts.answers.mp ⟨r, hr⟩
  obtain rfl := hsorts.eq r hr
  exact ⟨rfl, stableSort_before_pairwise hplain hanswers⟩

/-- An embedded field, and fields of which two have one size. -/
def sizedFields : List MemberInfo :=
  [{ name := "b", value := .text "[2]int16" }, { name := "Z", value := .text "string" },
    { name := "Y", value := .text "int8" }, { name := "A", value := .text "bool" },
    { name := "io.Reader", value := .text "io.Reader", isEmbedded := true }]

/-- By size, the embedded field comes before the exported ones and those before the other one; of two
fields of one size the name decides. -/
theorem arrange_struct_sorts_bySize :
    let o : Options := { fileType := .go, structStrategy := .bySize }
    o.naturalSort = false ∧
      (Sorter.struct.arrange o none Member.leaf sizedFields).toOption.map (·.map (·.name)) =
        some ["io.Reader", "A", "Y", "Z", "b"] ∧
      ∃ r, Sorter.struct.arrange o none Member.leaf sizedFields = .ok r ∧
        r = stableSort (before (compareFields o) Member.leaf) sizedFields := by
  intro o
  have hnames : (Sorter.struct.arrange o none Member.leaf sizedFields).toOption.map (·.map (·.name)) =
      some ["io.Reader", "A", "Y", "Z", "b"] := by
    decide
  obtain ⟨-, hsorts⟩ := arrange_struct_sorts o rfl none MemberInfo Member.leaf sizedFields
  refine ⟨rfl, hnames, ?_⟩
  cases h : Sorter.struct.arrange o none Member.leaf sizedFields with
  | error fault =>
    rw [h] at hnames
    cases hnames
  | ok r => exact ⟨r, rfl, (hsorts r h).1⟩

end MemberOrder.Sorter
