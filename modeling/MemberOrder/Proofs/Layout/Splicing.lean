/-
  What splicing writes where.

  Entities that follow each other are written over their spans in one go: the result is the text with
  each span replaced and everything between the spans kept (`splice_eq_overwrite`). What is written
  over the span of an entity is the rendering of the last sorted entity that has its key, so an entity
  is written over by its own sorted twin exactly when no later one has the same lines and the same
  name (`processWith_overwrites`).
-/
import MemberOrder.Proofs.Order.Sorters
import MemberOrder.Proofs.Placement.Reading

namespace MemberOrder.Layout

variable {ε : Type}

/-- The text from `lo` on with spans replaced, which come one after the other. -/
def overwrite (text : List Char) : (lo : Nat) → List (Span × String) → List Char
  | lo, [] => text.drop lo
  | lo, (span, written) :: rest =>
    (text.drop lo).take (span.start - lo) ++ written.toList ++ overwrite text span.stop rest

/-- Entities with their spans, in the order in which they are listed. -/
def located (entities : List Entity) : List (Entity × Span) :=
  entities.filterMap fun e => e.span.map (e, ·)

/-- An entity with a span goes from the start of the span to its end. -/
def SpanAt (x : Entity × Span) (a b : Nat) : Prop := x.2.start = a ∧ x.2.stop = b ∧ a < b

theorem SpanAt.le {x : Entity × Span} {a b : Nat} (h : SpanAt x a b) : a ≤ b :=
  Nat.le_of_lt h.2.2

/-! ## Spans taken backwards -/

theorem insertSorted_of_none {α : Type} {le : α → α → Bool} {x : α} {ys : List α}
    (h : ∀ y ∈ ys, le x y = false) : Order.insertSorted le x ys = ys ++ [x] := by
  induction ys with
  | nil => rfl
  | cons y rest ih =>
    rw [Order.insertSorted, h y List.mem_cons_self, ih fun z hz => h z (List.mem_cons_of_mem y hz)]
    rfl

/-- Entities that follow each other are taken in reverse. -/
theorem stableSort_chain {xs : List (Entity × Span)} {a b : Nat} (h : Chain SpanAt a b xs) :
    Order.stableSort (fun x y => y.2.start ≤ x.2.start) xs = xs.reverse := by
  induction h with
  | nil => rfl
  | cons ha hx hrest ih =>
    rename_i a i j b x rest
    rw [Order.stableSort, ih, List.reverse_cons]
    refine insertSorted_of_none fun y hy => ?_
    obtain ⟨k, l, hyat, hk, -⟩ := hrest.of_mem (fun _ _ _ h => h.le) (List.mem_reverse.mp hy)
    obtain ⟨rfl, rfl, hlt⟩ := hx
    obtain ⟨rfl, -, -⟩ := hyat
    simp only [decide_eq_false_iff_not]
    omega

/-! ## Writing over the spans -/

/-- The text that is written over the span of an entity whose twin is known. -/
def replacement (render : Entity → Except ε String) (failure : Entity → ε → String)
    (e twin : Entity) : String :=
  match render twin with
  | .ok s => s
  | .error err => failure e err

/-- Splicing backwards over spans that follow each other from `a` on leaves what is before `a` as
it was. -/
theorem spliceFrom_reverse {sorted : List Entity} {render : Entity → Except ε String}
    {failure : Entity → ε → String} {twin : Entity → Entity} {text : List Char} {a b : Nat}
    {xs : List (Entity × Span)} (h : Chain SpanAt a b xs) (hb : b ≤ text.length)
    (htwin : ∀ x ∈ xs, twin? sorted x.1.key = some (twin x.1)) {floor : Nat} (hfloor : b ≤ floor)
    (more : List (Entity × Span)) :
    ∃ floor', a ≤ floor' ∧ spliceFrom sorted render failure floor text (xs.reverse ++ more) =
      spliceFrom sorted render failure floor' (text.take a ++ overwrite text a
        (xs.map fun x => (x.2, replacement render failure x.1 (twin x.1)))) more := by
  induction h generalizing more with
  | nil h =>
    rename_i a b
    refine ⟨floor, by omega, ?_⟩
    simp [overwrite]
  | cons ha hx hrest ih =>
    rename_i a i j b x rest
    obtain ⟨rfl, rfl, hlt⟩ := hx
    have hle : x.2.stop ≤ b := hrest.le fun _ _ _ h => h.le
    obtain ⟨floor', h1, h2⟩ := ih hb (fun y hy => htwin y (List.mem_cons_of_mem x hy)) hfloor
      (x :: more)
    refine ⟨x.2.start, ha, ?_⟩
    rw [List.reverse_cons, List.append_assoc, List.singleton_append, h2, spliceFrom]
    rw [if_neg (by omega), htwin x List.mem_cons_self]
    simp only [List.map_cons, overwrite]
    -- the text before the span is still the one that was given
    have hlen : (text.take x.2.stop).length = x.2.stop := by
      rw [List.length_take]
      omega
    congr 1
    rw [List.take_append_of_le_length (by omega), List.take_take, Nat.min_eq_left (by omega),
      List.drop_append_of_le_length (by omega), List.drop_eq_nil_of_le (by omega), List.nil_append]
    have hsplit : text.take x.2.start = text.take a ++ (text.drop a).take (x.2.start - a) := by
      rw [← List.take_add, Nat.add_sub_cancel' ha]
    rw [hsplit]
    simp only [List.append_assoc]
    rfl

/-- Splicing replaces the span of every entity and keeps everything else. -/
theorem splice_eq_overwrite {entities sorted : List Entity} {render : Entity → Except ε String}
    {failure : Entity → ε → String} {text : List Char} (twin : Entity → Entity)
    (h : Chain SpanAt 0 text.length (located entities))
    (htwin : ∀ e ∈ entities, twin? sorted e.key = some (twin e)) :
    splice text entities sorted render failure = overwrite text 0
      ((located entities).map fun x => (x.2, replacement render failure x.1 (twin x.1))) := by
  have htwin' : ∀ x ∈ located entities, twin? sorted x.1.key = some (twin x.1) := by
    intro x hx
    obtain ⟨e, he, hx⟩ := List.mem_filterMap.mp hx
    obtain ⟨span, -, rfl⟩ := Option.map_eq_some_iff.mp hx
    exact htwin e he
  obtain ⟨floor, -, heq⟩ := spliceFrom_reverse h (Nat.le_refl _) htwin'
    (Nat.le_succ text.length) []
  have hbackwards : backwards entities = (located entities).reverse := stableSort_chain h
  unfold splice
  rw [hbackwards, ← List.append_nil (located entities).reverse, heq]
  rfl

theorem located_chain {P : MemberInfo → Prop} {t : Text} {entities : List Entity} {a b : Nat}
    (h : Chain (Entity.LaidOut P t) a b entities) : Chain SpanAt a b (located entities) := by
  induction h with
  | nil h => exact .nil h
  | cons ha he _ ih =>
    obtain ⟨span, hspan, hstart, hstop⟩ := he.span_eq
    simp only [located, List.filterMap_cons, hspan, Option.map_some]
    exact .cons ha ⟨hstart, hstop, he.nonempty⟩ ih

end MemberOrder.Layout

namespace MemberOrder

open Layout

/-! ## Sorted entities -/

/-- An entity with its members sorted; one that cannot be sorted stays as it is. -/
def sortedTwin (o : Options) (e : Entity) : Entity :=
  match (Sorter.ofLanguage o.language).sortEntity o e with
  | .ok e' => e'
  | .error _ => e

theorem sortEntities_eq_map (o : Options) (es : List Entity) :
    (sortEntities o es).1 = es.map (sortedTwin o) := by
  induction es with
  | nil => rfl
  | cons e rest ih =>
    simp only [sortEntities, List.map_cons, sortedTwin]
    split <;> simp [*]

/-- Sorting an entity changes nothing but its members. -/
theorem sortedTwin_eq (o : Options) (e : Entity) :
    sortedTwin o e = { e with members := (sortedTwin o e).members } := by
  unfold sortedTwin
  split
  · exact (Sorter.sortEntity_rearranged ‹_›).1
  · rfl

theorem sortedTwin_rearranged (o : Options) (e : Entity) :
    Rearranged e.members (sortedTwin o e).members := by
  unfold sortedTwin
  split
  · exact (Sorter.sortEntity_rearranged ‹_›).2
  · exact .refl _

theorem sortedTwin_key (o : Options) (e : Entity) : (sortedTwin o e).key = e.key := by
  rw [sortedTwin_eq]
  rfl

/-- The last sorted entity with a key comes from the last entity with that key. -/
theorem twin?_map_sortedTwin (o : Options) (es : List Entity) (key : EntityKey) :
    twin? (es.map (sortedTwin o)) key = (twin? es key).map (sortedTwin o) := by
  unfold twin?
  rw [← List.map_reverse, List.find?_map]
  congr 2
  funext e
  simp only [Function.comp, sortedTwin_key]

/-- The last entity with the key of an entity that is listed. -/
def lastNamesake (es : List Entity) (e : Entity) : Entity := (twin? es e.key).getD e

theorem twin?_of_mem {es : List Entity} {e : Entity} (h : e ∈ es) :
    twin? es e.key = some (lastNamesake es e) := by
  unfold lastNamesake
  cases hfind : twin? es e.key with
  | some e' => rfl
  | none =>
    have := List.find?_eq_none.mp hfind e (List.mem_reverse.mpr h)
    simp at this

theorem lastNamesake_key (es : List Entity) (e : Entity) : (lastNamesake es e).key = e.key := by
  unfold lastNamesake
  cases hfind : twin? es e.key with
  | none => rfl
  | some e' => simpa using List.find?_some hfind

theorem lastNamesake_mem {es : List Entity} {e : Entity} (h : e ∈ es) : lastNamesake es e ∈ es :=
  List.mem_reverse.mp (List.mem_of_find?_eq_some (twin?_of_mem h))

/-- Among entities that differ from each other, one is its own last namesake when none that comes
later has its key. -/
theorem lastNamesake_eq_self_iff {before after : List Entity} {e : Entity}
    (h : ∀ e' ∈ after, e' ≠ e) :
    lastNamesake (before ++ e :: after) e = e ↔ ∀ e' ∈ after, e'.key ≠ e.key := by
  have hsplit : twin? (before ++ e :: after) e.key = (twin? after e.key).or (some e) := by
    simp [twin?, List.find?_append]
  unfold lastNamesake
  rw [hsplit]
  cases hfind : twin? after e.key with
  | none =>
    simp only [Option.none_or, Option.getD_some, true_iff]
    intro e' he'
    simpa using List.find?_eq_none.mp hfind e' (List.mem_reverse.mpr he')
  | some e' =>
    have hmem : e' ∈ after := List.mem_reverse.mp (List.mem_of_find?_eq_some hfind)
    simp only [Option.some_or, Option.getD_some]
    constructor
    · intro heq
      exact absurd heq (h e' hmem)
    · intro hall
      exact absurd (by simpa using List.find?_some hfind) (hall e' hmem)

/-! ## Runs that write -/

mutual

theorem NameTree.same_refl (t : NameTree) : t.same t = true := by
  cases t with
  | node name children => simp [NameTree.same, sameTrees_refl children]

theorem sameTrees_refl (ts : List NameTree) : sameTrees ts ts = true := by
  cases ts with
  | nil => rfl
  | cons t rest => simp [sameTrees, NameTree.same_refl t, sameTrees_refl rest]

end

/-- Without members there is nothing to sort. -/
theorem sortedTwin_of_no_members (o : Options) {e : Entity} (h : e.members.isEmpty = true) :
    sortedTwin o e = e := by
  have hnil : e.members = [] := by simpa using h
  simp only [sortedTwin, Sorter.sortEntity, Sorter.sortMembers, h, if_true]
  cases e
  simp_all [bind, Except.bind, pure, Except.pure]

theorem not_hasChanges_self (es : List Entity) : hasChanges es es = false := by
  rw [hasChanges, bne_self_eq_false, Bool.false_or]
  induction es with
  | nil => rfl
  | cons e rest ih =>
    rw [List.zip_cons_cons, List.any_cons, ih]
    simp [sameNames, sameTrees_refl]

/-- A run that finds something to change has found members. -/
theorem members_of_hasChanges {o : Options} {es : List Entity}
    (h : hasChanges es (sortEntities o es).1 = true) : es.all (·.members.isEmpty) = false := by
  refine Bool.eq_false_iff.mpr fun hall => ?_
  have hsame : (sortEntities o es).1 = es := by
    calc (sortEntities o es).1 = es.map (sortedTwin o) := sortEntities_eq_map o es
      _ = es.map id := List.map_congr_left fun e he =>
        sortedTwin_of_no_members o (List.all_eq_true.mp hall e he)
      _ = es := List.map_id es
  rw [hsame, not_hasChanges_self] at h
  cases h

/-- A run that finds something to change writes it back. -/
theorem processedText_of_hasChanges {o : Options} {source : String} {es : List Entity}
    (hes : (readSource o.fileType (Text.ofString source)).entities = es)
    (h : hasChanges es (sortEntities o es).1 = true) :
    (processWith o source).processedText = some (writeBack o source es (sortEntities o es).1) := by
  have hall := members_of_hasChanges h
  have hne : es.isEmpty = false := by
    cases es with
    | nil => cases hall
    | cons e rest => rfl
  simp only [processWith, hes, hne, hall, h, Bool.false_eq_true, if_false, if_true]

/-- The text of an entity, or the remark that it cannot be written. -/
def rendering (o : Options) (e : Entity) : String :=
  match writeEntity o e with
  | .ok s => s
  | .error err => (Rules.ofFileType o.fileType).failure e.name err.message

/-- What is written over the span of an entity is the rendering of the sorted twin of the last entity
with its key. That is its own twin exactly when no later entity has the same lines and name. -/
theorem processWith_overwrites (o : Options) (hyaml : o.fileType.language ≠ .yaml) (source : String)
    (h : hasChanges (readSource o.fileType (Text.ofString source)).entities
      (sortEntities o (readSource o.fileType (Text.ofString source)).entities).1 = true) :
    let es := (readSource o.fileType (Text.ofString source)).entities
    (processWith o source).processedText = some (String.ofList (overwrite source.toList 0
      ((located es).map fun x => (x.2, rendering o (sortedTwin o (lastNamesake es x.1)))))) ∧
    ∀ before e after, es = before ++ e :: after →
      (lastNamesake es e = e ↔ ∀ e' ∈ after, e'.key ≠ e.key) := by
  intro es
  have hchain := readSource_chain hyaml (Text.ofString source)
  constructor
  · have hsize : (Text.ofString source).size = source.toList.length := by simp [Text.ofString]
    have htwin : ∀ e ∈ es, twin? (sortEntities o es).1 e.key =
        some (sortedTwin o (lastNamesake es e)) := by
      intro e he
      rw [sortEntities_eq_map, twin?_map_sortedTwin, twin?_of_mem he]
      rfl
    rw [processedText_of_hasChanges rfl h, writeBack,
      splice_eq_overwrite _ (hsize ▸ located_chain hchain) htwin]
    congr 4
    funext x
    have hname : (sortedTwin o (lastNamesake es x.1)).name = x.1.name :=
      congrArg EntityKey.name ((sortedTwin_key o _).trans (lastNamesake_key es x.1))
    simp only [replacement, rendering, hname]
    cases writeEntity o (sortedTwin o (lastNamesake es x.1)) <;> rfl
  · intro before e after hes
    rw [hes]
    refine lastNamesake_eq_self_iff fun e' he' heq => ?_
    -- the span of a later entity starts where that of an earlier one has ended
    have hpair := (hchain.pairwise fun _ _ _ he => he.le)
    have hes' : (readSource o.fileType (Text.ofString source)).entities = before ++ e :: after := hes
    rw [hes'] at hpair
    obtain ⟨-, htail, -⟩ := List.pairwise_append.mp hpair
    obtain ⟨i, j, k, l, he, hlater, hjk⟩ := (List.pairwise_cons.mp htail).1 e' he'
    rw [heq] at hlater
    obtain ⟨s, hs, rfl, rfl⟩ := he.span_eq
    obtain ⟨s', hs', rfl, rfl⟩ := hlater.span_eq
    obtain rfl : s = s' := by
      rw [hs] at hs'
      exact Option.some.inj hs'
    have := he.nonempty
    omega

/-- Two rules on one line with one selector. -/
def namesakes : String := "a\x7bz:1\x7da\x7bc:2;b:3\x7d"

/-- Both of the two rules are written over by the second one. -/
theorem processWith_overwrites_namesakes :
    hasChanges (readSource .css (Text.ofString namesakes)).entities
      (sortEntities { fileType := .css } (readSource .css (Text.ofString namesakes)).entities).1 = true ∧
    (processWith { fileType := .css } namesakes).processedText =
      some "a\x7bb:3;c:2\x7da\x7bb:3;c:2\x7d" := by
  have h : hasChanges (readSource .css (Text.ofString namesakes)).entities
      (sortEntities { fileType := .css }
        (readSource .css (Text.ofString namesakes)).entities).1 = true := by
    decide +kernel
  refine ⟨h, ?_⟩
  rw [(processWith_overwrites { fileType := .css } (by decide) namesakes h).1]
  decide +kernel

/-- The first of the two rules is not written over by its own twin: its declaration is lost, and those
of the second rule are there twice. -/
theorem processWith_loses_namesake :
    (readSource .css (Text.ofString namesakes)).entities.map
        (fun e => rendering { fileType := .css } (sortedTwin { fileType := .css } e)) =
      ["a\x7bz:1\x7d", "a\x7bb:3;c:2\x7d"] ∧
    (processWith { fileType := .css } namesakes).processedText ≠
      some "a\x7bz:1\x7da\x7bb:3;c:2\x7d" := by
  decide +kernel

end MemberOrder
