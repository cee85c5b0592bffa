/-
  Splicing is simultaneous substitution.

  The text is edited in place, from its end backwards, below a floor that sinks to the start of each
  span that is written. Entities may be listed in any order and their spans may overlap. Those that are
  written over (`overwritten`) have spans that lie apart (`overwritten_chain`), since each ends below the
  floor that the one before it left. The entities that are passed over leave no trace
  (`spliceFrom_overwrittenFrom`), so the result is the text with the written spans replaced all at once
  (`splice_substitutes`). An entity with a sorted namesake is passed over only where its span overlaps
  one that is written; this is where the order in which the spans are taken counts.
-/
import Mathlib.Data.List.Pairwise
import MemberOrder.Proofs.Layout.Splicing

namespace MemberOrder.Layout

variable {ε : Type}

/-! ## What is written over -/

/-- Of entities taken one after the other, those that are written over: the span ends at or below the
floor, and there is a sorted entity with the key. -/
def overwrittenFrom (sorted : List Entity) : (floor : Nat) → List (Entity × Span) → List (Entity × Span)
  | _, [] => []
  | floor, x :: rest =>
    if x.2.stop ≤ floor ∧ (twin? sorted x.1.key).isSome then x :: overwrittenFrom sorted x.2.start rest
    else overwrittenFrom sorted floor rest

/-- The entities that are written over in a text of some size, in the order of their places. -/
def overwritten (size : Nat) (entities sorted : List Entity) : List (Entity × Span) :=
  (overwrittenFrom sorted (size + 1) (backwards entities)).reverse

theorem isSome_twin? {sorted : List Entity} {key : EntityKey} :
    (twin? sorted key).isSome ↔ ∃ e ∈ sorted, e.key = key := by
  unfold twin?
  rw [List.find?_isSome]
  simp only [List.mem_reverse, beq_iff_eq]

theorem mem_overwrittenFrom {sorted : List Entity} {floor : Nat} {xs : List (Entity × Span)}
    {x : Entity × Span} (h : x ∈ overwrittenFrom sorted floor xs) :
    x ∈ xs ∧ (twin? sorted x.1.key).isSome := by
  induction xs generalizing floor with
  | nil => exact absurd h List.not_mem_nil
  | cons y rest ih =>
    unfold overwrittenFrom at h
    split at h
    · rename_i hy
      rcases List.mem_cons.mp h with rfl | h
      · exact ⟨List.mem_cons_self, hy.2⟩
      · exact ⟨List.mem_cons_of_mem y (ih h).1, (ih h).2⟩
    · exact ⟨List.mem_cons_of_mem y (ih h).1, (ih h).2⟩

/-- Entities that are passed over leave the text and the floor as they are. -/
theorem spliceFrom_overwrittenFrom (sorted : List Entity) (render : Entity → Except ε String)
    (failure : Entity → ε → String) (floor : Nat) (text : List Char) (xs : List (Entity × Span)) :
    spliceFrom sorted render failure floor text xs =
      spliceFrom sorted render failure floor text (overwrittenFrom sorted floor xs) := by
  induction xs generalizing floor text with
  | nil => rfl
  | cons x rest ih =>
    obtain ⟨e, span⟩ := x
    unfold overwrittenFrom
    by_cases hfloor : span.stop ≤ floor
    · cases htwin : twin? sorted e.key with
      | none =>
        rw [if_neg (by simp), ← ih, spliceFrom, if_neg (by omega), htwin]
      | some twin =>
        rw [if_pos ⟨hfloor, rfl⟩, spliceFrom, spliceFrom, if_neg (by omega), if_neg (by omega), htwin]
        exact ih _ _
    · rw [if_neg (by simp [hfloor]), ← ih, spliceFrom, if_pos (by omega)]

/-! ## The spans that are written over lie apart -/

theorem overwrittenFrom_chain {sorted : List Entity} {xs : List (Entity × Span)} {floor top : Nat}
    (hfull : ∀ x ∈ xs, x.2.start < x.2.stop)
    (htop : ∀ x ∈ xs, x.2.stop ≤ floor → x.2.stop ≤ top) :
    Chain SpanAt 0 top (overwrittenFrom sorted floor xs).reverse := by
  induction xs generalizing floor top with
  | nil => exact .nil (Nat.zero_le top)
  | cons x rest ih =>
    have hrest : ∀ y ∈ rest, y.2.start < y.2.stop := fun y hy => hfull y (List.mem_cons_of_mem x hy)
    unfold overwrittenFrom
    split
    · rename_i hx
      rw [List.reverse_cons]
      have hbelow : Chain SpanAt 0 x.2.start (overwrittenFrom sorted x.2.start rest).reverse :=
        ih hrest fun _ _ h => h
      have hspan : SpanAt x x.2.start x.2.stop := ⟨rfl, rfl, hfull x List.mem_cons_self⟩
      exact (hbelow.snoc (Nat.le_refl _) hspan).weaken (Nat.le_refl 0)
        (htop x List.mem_cons_self hx.1)
    · exact ih hrest fun y hy => htop y (List.mem_cons_of_mem x hy)

theorem backwards_perm (entities : List Entity) : (backwards entities).Perm (located entities) :=
  Order.stableSort_perm _ _

theorem overwritten_chain {text : List Char} {entities : List Entity}
    (hspans : ∀ x ∈ located entities, x.2.start < x.2.stop ∧ x.2.stop ≤ text.length)
    (sorted : List Entity) :
    Chain SpanAt 0 text.length (overwritten text.length entities sorted) := by
  have hmem : ∀ x ∈ backwards entities, x ∈ located entities :=
    fun x hx => (backwards_perm entities).mem_iff.mp hx
  unfold overwritten
  apply overwrittenFrom_chain
  · intro x hx
    exact (hspans x (hmem x hx)).1
  · intro x hx _
    exact (hspans x (hmem x hx)).2

/-! ## What is passed over -/

theorem backwards_pairwise (entities : List Entity) :
    (backwards entities).Pairwise fun x y => y.2.start ≤ x.2.start := by
  have htotal (x y : Entity × Span) :
      decide (y.2.start ≤ x.2.start) = true ∨ decide (x.2.start ≤ y.2.start) = true := by
    simp only [decide_eq_true_eq]
    omega
  have htrans (x y z : Entity × Span) (hxy : decide (y.2.start ≤ x.2.start) = true)
      (hyz : decide (z.2.start ≤ y.2.start) = true) : decide (z.2.start ≤ x.2.start) = true := by
    simp only [decide_eq_true_eq] at hxy hyz ⊢
    omega
  exact (Order.stableSort_pairwise htotal htrans (located entities)).imp of_decide_eq_true

/-- Taken by falling starts, an entity with a sorted namesake is written over unless its span reaches
over the floor, or over the start of one that is written. -/
theorem overwrittenFrom_complete {sorted : List Entity} {xs : List (Entity × Span)} (floor : Nat)
    (hfalling : xs.Pairwise fun x y => y.2.start ≤ x.2.start) {x : Entity × Span} (hx : x ∈ xs)
    (htwin : (twin? sorted x.1.key).isSome) :
    x ∈ overwrittenFrom sorted floor xs ∨ floor < x.2.stop ∨
      ∃ y ∈ overwrittenFrom sorted floor xs, x.2.start ≤ y.2.start ∧ y.2.start < x.2.stop := by
  induction xs generalizing floor with
  | nil => exact absurd hx List.not_mem_nil
  | cons y rest ih =>
    obtain ⟨hy, hrest⟩ := List.pairwise_cons.mp hfalling
    unfold overwrittenFrom
    split
    · rcases List.mem_cons.mp hx with rfl | hx
      · exact .inl List.mem_cons_self
      · rcases ih y.2.start hrest hx with h | h | ⟨z, hz, h⟩
        · exact .inl (List.mem_cons_of_mem y h)
        · exact .inr (.inr ⟨y, List.mem_cons_self, hy x hx, h⟩)
        · exact .inr (.inr ⟨z, List.mem_cons_of_mem y hz, h⟩)
    · rename_i hskip
      rcases List.mem_cons.mp hx with rfl | hx
      · refine .inr (.inl ?_)
        by_contra hle
        exact hskip ⟨by omega, htwin⟩
      · exact ih floor hrest hx

theorem overwritten_complete {text : List Char} {entities sorted : List Entity}
    (hspans : ∀ x ∈ located entities, x.2.start < x.2.stop ∧ x.2.stop ≤ text.length)
    {x : Entity × Span} (hx : x ∈ located entities) (htwin : (twin? sorted x.1.key).isSome) :
    x ∈ overwritten text.length entities sorted ∨
      ∃ y ∈ overwritten text.length entities sorted, x.2.overlaps y.2 = true := by
  have hmem := backwards_perm entities
  have hstop := (hspans x hx).2
  unfold overwritten
  simp only [List.mem_reverse]
  rcases overwrittenFrom_complete (text.length + 1) (backwards_pairwise entities)
    (hmem.mem_iff.mpr hx) htwin with h | h | ⟨y, hy, h1, h2⟩
  · exact .inl h
  · omega
  · refine .inr ⟨y, hy, ?_⟩
    have hfull := (hspans y (hmem.mem_iff.mp (mem_overwrittenFrom hy).1)).1
    simp only [Span.overlaps, Bool.and_eq_true, decide_eq_true_eq]
    omega

/-! ## Substitution -/

/-- Where every span is replaced by what it covers, the text stays as it is. -/
theorem overwrite_self {text : List Char} {a b : Nat} {xs : List (Entity × Span)}
    (h : Chain SpanAt a b xs) :
    overwrite text a (xs.map fun x =>
      (x.2, String.ofList ((text.drop x.2.start).take (x.2.stop - x.2.start)))) = text.drop a := by
  induction h with
  | nil => rfl
  | cons ha hx hrest ih =>
    rename_i a i j b x rest
    obtain ⟨rfl, rfl, hlt⟩ := hx
    rw [List.map_cons, overwrite, ih, String.toList_ofList]
    have hinner : (text.drop x.2.start).take (x.2.stop - x.2.start) ++ text.drop x.2.stop =
        text.drop x.2.start := by
      have h := List.take_append_drop (x.2.stop - x.2.start) (text.drop x.2.start)
      rwa [List.drop_drop, Nat.add_sub_cancel' (Nat.le_of_lt hlt)] at h
    have houter : (text.drop a).take (x.2.start - a) ++ text.drop x.2.start = text.drop a := by
      have h := List.take_append_drop (x.2.start - a) (text.drop a)
      rwa [List.drop_drop, Nat.add_sub_cancel' ha] at h
    rw [List.append_assoc, hinner, houter]

/-- Whatever the entities, their order and what is written for them: the spans that are written over
lie apart, in the order in which they are listed, each of an entity with a sorted namesake. The result
is the text with all of them replaced at once, by the rendering of the namesake or by the remark on why
there is none; the rest of the text is kept. An entity with a sorted namesake is passed over only where
its span overlaps one that is written, so of spans that lie apart exactly those are written over that
have a sorted namesake. -/
theorem splice_substitutes (text : List Char) (entities sorted : List Entity)
    (hspans : ∀ x ∈ located entities, x.2.start < x.2.stop ∧ x.2.stop ≤ text.length) :
    let ws := overwritten text.length entities sorted
    ws.Pairwise (fun x y => x.2.stop ≤ y.2.start) ∧
    (∀ x ∈ ws, x ∈ located entities ∧ ∃ e ∈ sorted, e.key = x.1.key) ∧
    (∀ (ε : Type) (render : Entity → Except ε String) (failure : Entity → ε → String),
      splice text entities sorted render failure = overwrite text 0 (ws.map fun x =>
        (x.2, replacement render failure x.1 (lastNamesake sorted x.1)))) ∧
    overwrite text 0 (ws.map fun x =>
      (x.2, String.ofList ((text.drop x.2.start).take (x.2.stop - x.2.start)))) = text ∧
    (∀ x ∈ located entities, (∃ e ∈ sorted, e.key = x.1.key) →
      x ∈ ws ∨ ∃ y ∈ ws, x.2.overlaps y.2 = true) ∧
    ((located entities).Pairwise (fun x y => x.2.overlaps y.2 = false) →
      ∀ x ∈ located entities, x ∈ ws ↔ ∃ e ∈ sorted, e.key = x.1.key) := by
  intro ws
  have hchain : Chain SpanAt 0 text.length ws := overwritten_chain hspans sorted
  have hwritten : ∀ x ∈ ws, x ∈ located entities ∧ (twin? sorted x.1.key).isSome := by
    intro x hx
    obtain ⟨hmem, htwin⟩ := mem_overwrittenFrom (List.mem_reverse.mp hx)
    exact ⟨(backwards_perm entities).mem_iff.mp hmem, htwin⟩
  have hcomplete : ∀ x ∈ located entities, (∃ e ∈ sorted, e.key = x.1.key) →
      x ∈ ws ∨ ∃ y ∈ ws, x.2.overlaps y.2 = true :=
    fun x hx htwin => overwritten_complete hspans hx (isSome_twin?.mpr htwin)
  refine ⟨?_, fun x hx => ⟨(hwritten x hx).1, isSome_twin?.mp (hwritten x hx).2⟩, ?_, ?_, hcomplete, ?_⟩
  · apply (hchain.pairwise fun _ _ _ h => h.le).imp
    rintro x y ⟨i, j, k, l, ⟨-, rfl, -⟩, ⟨rfl, -, -⟩, hjk⟩
    exact hjk
  · intro ε render failure
    have htwin : ∀ x ∈ ws, twin? sorted x.1.key = some (lastNamesake sorted x.1) := by
      intro x hx
      obtain ⟨e, he⟩ := Option.isSome_iff_exists.mp (hwritten x hx).2
      rw [lastNamesake, he, Option.getD_some]
    have hback : ∃ floor, 0 ≤ floor ∧
        spliceFrom sorted render failure (text.length + 1) text (ws.reverse ++ []) = _ :=
      spliceFrom_reverse hchain (Nat.le_refl _) htwin (Nat.le_succ text.length) []
    obtain ⟨floor, -, heq⟩ := hback
    unfold splice
    rw [spliceFrom_overwrittenFrom]
    rw [List.append_nil, show ws.reverse = overwrittenFrom sorted (text.length + 1) (backwards entities) from
      List.reverse_reverse _] at heq
    rw [heq]
    rfl
  · rw [overwrite_self hchain, List.drop_zero]
  · intro hapart x hx
    refine ⟨fun hw => isSome_twin?.mp (hwritten x hw).2, fun htwin => ?_⟩
    rcases hcomplete x hx htwin with hw | ⟨y, hy, hover⟩
    · exact hw
    · by_contra hw
      have hne : x ≠ y := by
        rintro rfl
        exact hw hy
      have hsymm : Std.Symm fun x y : Entity × Span => x.2.overlaps y.2 = false := by
        constructor
        intro a b h
        unfold Span.overlaps at h ⊢
        rw [Bool.and_comm]
        exact h
      have := hapart.forall hx (hwritten y hy).1 hne
      rw [hover] at this
      cases this

/-- Three entities, not in the order of their places, of which two overlap. -/
def crossing : List Entity :=
  [{ kind := .object, name := "b", span := some ⟨2, 5, 1, 1⟩ },
    { kind := .object, name := "a", span := some ⟨0, 3, 1, 1⟩ },
    { kind := .object, name := "c", span := some ⟨6, 8, 1, 1⟩ }]

/-- The entity that starts first overlaps the next one and is passed over; the last one cannot be
written, so the remark stands in its place. -/
theorem splice_substitutes_crossing :
    (∀ x ∈ located crossing, x.2.start < x.2.stop ∧ x.2.stop ≤ "0123456789".toList.length) ∧
    splice "0123456789".toList crossing crossing
        (fun e => if e.name == "c" then .error "none" else .ok ("<" ++ e.name ++ ">"))
        (fun e err => e.name ++ ":" ++ err) =
      "01<b>5c:none89".toList := by
  have hspans : ∀ x ∈ located crossing,
      x.2.start < x.2.stop ∧ x.2.stop ≤ "0123456789".toList.length := by
    decide
  refine ⟨hspans, ?_⟩
  rw [(splice_substitutes "0123456789".toList crossing crossing hspans).2.2.1]
  decide

end MemberOrder.Layout
