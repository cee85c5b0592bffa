/-
  What handing out comments takes from the pool.

  A pool is `Orderly` when its comments are disjoint, in order and white space in the masked
  text, as those of a scan are (`orderly_scan`). Every way of taking comments leaves a part of the
  pool that still holds everything from some offset on (`Drawn`). Leading comments lie between
  their floor and their target (`takeLeading_spec`); trailing comments reach from the end of a
  declaration to the last of them over white space and skipped characters only, no comment in
  between is left, and none that follows on the line is left out (`takeTrailing_spec`).
-/
import MemberOrder.Proofs.Source.Tiling
import MemberOrder.Source.Attachment

namespace MemberOrder.Attachment

/-! ## Pools -/

/-- Comments as a scan finds them: disjoint, in order, and white space in the masked text. -/
structure Orderly (s : Scanned) (pool : List Comment) : Prop where
  ordered : pool.Pairwise fun a b => a.stop ≤ b.offset
  nonempty : ∀ c ∈ pool, c.offset < c.stop
  inside : ∀ c ∈ pool, c.stop ≤ s.masked.size
  space : ∀ c ∈ pool, ∀ i, c.offset ≤ i → i < c.stop → s.masked.testAt i Text.isSpace = true
  line : ∀ c ∈ pool, c.line = s.lineAt c.offset

theorem orderly_scan (p : Profile) (t : Text) :
    Orderly (Scanned.scan p t) (Scanned.scan p t).comments where
  ordered := Scanned.comments_ordered p t
  nonempty _ hc := (Scanned.comment_bounds hc).1
  inside _ hc := by
    rw [Scanned.size_masked]
    exact (Scanned.comment_bounds hc).2
  space _ hc _ h1 h2 := Scanned.masked_in_comment hc h1 h2
  line _ hc := Scanned.line_of_comment hc

theorem Orderly.sublist {s : Scanned} {pool left : List Comment} (h : Orderly s pool)
    (hsub : left.Sublist pool) : Orderly s left where
  ordered := h.ordered.sublist hsub
  nonempty c hc := h.nonempty c (hsub.mem hc)
  inside c hc := h.inside c (hsub.mem hc)
  space c hc := h.space c (hsub.mem hc)
  line c hc := h.line c (hsub.mem hc)

/-- Two comments of a pool are one, or one of them comes first. -/
theorem Orderly.apart {s : Scanned} {pool : List Comment} (h : Orderly s pool) {c d : Comment}
    (hc : c ∈ pool) (hd : d ∈ pool) : c = d ∨ c.stop ≤ d.offset ∨ d.stop ≤ c.offset := by
  obtain ⟨before, after, rfl⟩ := List.append_of_mem hc
  obtain ⟨-, hrest, hfirst⟩ := List.pairwise_append.mp h.ordered
  rcases List.mem_append.mp hd with hd | hd
  · exact Or.inr (Or.inr (hfirst d hd c List.mem_cons_self))
  · rcases List.mem_cons.mp hd with rfl | hd
    · exact Or.inl rfl
    · exact Or.inr (Or.inl ((List.pairwise_cons.mp hrest).1 d hd))

/-- Comments of a pool that meet are one. -/
theorem Orderly.eq_of_meet {s : Scanned} {pool : List Comment} (h : Orderly s pool)
    {c d : Comment} (hc : c ∈ pool) (hd : d ∈ pool) (hcd : c.offset < d.stop) (hdc : d.offset < c.stop) :
    c = d := by
  rcases h.apart hc hd with heq | hlt | hlt
  · exact heq
  · omega
  · omega

theorem Orderly.eq_of_offset {s : Scanned} {pool : List Comment} (h : Orderly s pool)
    {c d : Comment} (hc : c ∈ pool) (hd : d ∈ pool) (heq : c.offset = d.offset) : c = d := by
  have h1 := h.nonempty c hc
  have h2 := h.nonempty d hd
  exact h.eq_of_meet hc hd (by omega) (by omega)

/-- No comment stands in a pool twice. -/
theorem Orderly.nodup {s : Scanned} {pool : List Comment} (h : Orderly s pool) : pool.Nodup := by
  refine h.ordered.imp_of_mem fun ha _ hab heq => ?_
  have := h.nonempty _ ha
  subst heq
  omega

/-- What is left of a pool when comments before `bound` were taken out of it. -/
structure Drawn (bound : Nat) (pool left : List Comment) : Prop where
  sublist : left.Sublist pool
  kept : ∀ c ∈ pool, bound ≤ c.offset → c ∈ left

theorem Drawn.refl (bound : Nat) (pool : List Comment) : Drawn bound pool pool :=
  ⟨List.Sublist.refl pool, fun _ h _ => h⟩

theorem Drawn.trans {a b : Nat} {pool mid left : List Comment} (h : Drawn a pool mid)
    (h' : Drawn b mid left) (hab : a ≤ b) : Drawn b pool left where
  sublist := h'.sublist.trans h.sublist
  kept c hc hb := h'.kept c (h.kept c hc (Nat.le_trans hab hb)) hb

theorem Drawn.mono {a b : Nat} {pool left : List Comment} (h : Drawn a pool left) (hab : a ≤ b) :
    Drawn b pool left :=
  h.trans (Drawn.refl b left) hab

/-! ## Claiming -/

section Claiming

variable {α β : Type}

theorem bind_apply (x : Claiming α) (f : α → Claiming β) (pool : List Comment) :
    (x >>= f) pool = f (x pool).1 (x pool).2 := rfl

theorem pure_apply (a : α) (pool : List Comment) : (pure a : Claiming α) pool = (a, pool) := rfl

end Claiming

variable {s : Scanned} {pool : List Comment}

theorem without_sublist (taken pool : List Comment) : (without taken pool).Sublist pool :=
  List.filter_sublist

theorem mem_without (h : Orderly s pool) {taken : List Comment} (htaken : ∀ c ∈ taken, c ∈ pool)
    {c : Comment} : c ∈ without taken pool ↔ c ∈ pool ∧ c ∉ taken := by
  unfold without
  rw [List.mem_filter, Bool.not_eq_true', List.any_eq_false]
  constructor
  · rintro ⟨hc, hany⟩
    exact ⟨hc, fun hin => hany c hin (by simp)⟩
  · rintro ⟨hc, hnot⟩
    refine ⟨hc, fun d hd heq => hnot ?_⟩
    rw [h.eq_of_offset hc (htaken d hd) (by simpa using (beq_iff_eq.mp heq).symm)]
    exact hd

/-- Taking comments that start before `bound` leaves the rest. -/
theorem claim_drawn (h : Orderly s pool) {taken : List Comment} {bound : Nat}
    (htaken : ∀ c ∈ taken, c ∈ pool ∧ c.offset < bound) :
    Drawn bound pool (claim taken pool).2 where
  sublist := without_sublist taken pool
  kept c hc hb := by
    refine (mem_without h fun d hd => (htaken d hd).1).mpr ⟨hc, fun hin => ?_⟩
    have := (htaken c hin).2
    omega

theorem liesBetween_iff {a b : Nat} {c : Comment} :
    liesBetween a b c = true ↔ a ≤ c.offset ∧ c.stop ≤ b := by
  simp [liesBetween]

/-- Taking everything between two offsets. -/
theorem takeInside_spec (h : Orderly s pool) (a b : Nat) :
    (∀ c, c ∈ (takeInside a b pool).1 ↔ c ∈ pool ∧ a ≤ c.offset ∧ c.stop ≤ b) ∧
      Drawn b pool (takeInside a b pool).2 := by
  have hmem : ∀ c, c ∈ (takeInside a b pool).1 ↔ c ∈ pool ∧ a ≤ c.offset ∧ c.stop ≤ b := by
    intro c
    rw [← liesBetween_iff]
    exact List.mem_filter
  refine ⟨hmem, claim_drawn h fun c hc => ?_⟩
  obtain ⟨h1, h2, h3⟩ := (hmem c).mp hc
  have := h.nonempty c h1
  exact ⟨h1, by omega⟩

/-! ## Leading comments -/

theorem mem_leadingOf {line anchorLine anchorOffset : Nat} {candidates picked : List Comment}
    {c : Comment} (h : c ∈ leadingOf s line candidates anchorLine anchorOffset picked) :
    c ∈ candidates ∨ c ∈ picked := by
  induction candidates generalizing anchorLine anchorOffset picked with
  | nil => exact Or.inr h
  | cons d above ih =>
    simp only [leadingOf] at h
    split at h
    · exact Or.inr h
    · split at h
      · exact Or.inr h
      · split at h
        · exact Or.inr h
        · rcases ih h with h | h
          · exact Or.inl (List.mem_cons_of_mem d h)
          · rcases List.mem_cons.mp h with rfl | h
            · exact Or.inl List.mem_cons_self
            · exact Or.inr h

/-- Leading comments lie between the floor and the target. -/
theorem takeLeading_spec (h : Orderly s pool) (target floor : Nat) :
    (∀ c ∈ (takeLeading s target floor pool).1, c ∈ pool ∧ floor ≤ c.offset ∧ c.stop ≤ target) ∧
      Drawn target pool (takeLeading s target floor pool).2 := by
  have hmem : ∀ c ∈ (takeLeading s target floor pool).1,
      c ∈ pool ∧ floor ≤ c.offset ∧ c.stop ≤ target := by
    intro c hc
    rcases mem_leadingOf hc with hc | hc
    · rw [← liesBetween_iff]
      exact List.mem_filter.mp (List.mem_reverse.mp hc)
    · cases hc
  refine ⟨hmem, claim_drawn h fun c hc => ?_⟩
  obtain ⟨h1, -, h3⟩ := hmem c hc
  have := h.nonempty c h1
  exact ⟨h1, by omega⟩

/-- A declaration starts no later with its leading comments than without. -/
theorem startOf_bounds {cs : List Comment} {floor target : Nat} (hfloor : floor ≤ target)
    (h : ∀ c ∈ cs, floor ≤ c.offset ∧ c.offset ≤ target) :
    floor ≤ startOf cs target ∧ startOf cs target ≤ target := by
  cases cs with
  | nil => exact ⟨hfloor, Nat.le_refl target⟩
  | cons c rest => exact h c List.mem_cons_self

theorem startOf_takeLeading (h : Orderly s pool) {target floor : Nat} (hfloor : floor ≤ target) :
    floor ≤ startOf (takeLeading s target floor pool).1 target ∧
      startOf (takeLeading s target floor pool).1 target ≤ target := by
  refine startOf_bounds hfloor fun c hc => ?_
  obtain ⟨h1, h2, h3⟩ := (takeLeading_spec h target floor).1 c hc
  have := h.nonempty c h1
  exact ⟨h2, by omega⟩

/-! ## Trailing comments -/

theorem trailingOf_prefix (s : Scanned) (line : Nat) (skip : List Char) (candidates : List Comment)
    (cursor : Nat) : trailingOf s line skip candidates cursor <+: candidates := by
  induction candidates generalizing cursor with
  | nil => exact List.prefix_refl []
  | cons c rest ih =>
    simp only [trailingOf]
    split
    · exact List.nil_prefix
    · split
      · exact List.nil_prefix
      · exact List.cons_prefix_cons.mpr ⟨rfl, ih c.stop⟩

theorem le_endOf (cs : List Comment) (least : Nat) : least ≤ endOf cs least := by
  unfold endOf
  induction cs generalizing least with
  | nil => exact Nat.le_refl least
  | cons c rest ih => exact Nat.le_trans (Nat.le_max_left least c.stop) (ih _)

theorem endOf_cons (c : Comment) (rest : List Comment) (least : Nat) :
    endOf (c :: rest) least = endOf rest (max least c.stop) := rfl

theorem endOf_le {cs : List Comment} {least limit : Nat} (hl : least ≤ limit)
    (h : ∀ c ∈ cs, c.stop ≤ limit) : endOf cs least ≤ limit := by
  induction cs generalizing least with
  | nil => exact hl
  | cons c rest ih =>
    rw [endOf_cons]
    have := h c List.mem_cons_self
    exact ih (by omega) fun d hd => h d (List.mem_cons_of_mem c hd)

theorem stop_le_endOf {cs : List Comment} {least : Nat} {c : Comment} (h : c ∈ cs) :
    c.stop ≤ endOf cs least := by
  induction cs generalizing least with
  | nil => cases h
  | cons d rest ih =>
    rw [endOf_cons]
    rcases List.mem_cons.mp h with rfl | h
    · exact Nat.le_trans (Nat.le_max_right least c.stop) (le_endOf rest _)
    · exact ih h

/-- Comments that end before `least` do not move the end. -/
theorem endOf_append_of_le {early cs : List Comment} {least : Nat} (h : ∀ c ∈ early, c.stop ≤ least) :
    endOf (early ++ cs) least = endOf cs least := by
  induction early with
  | nil => rfl
  | cons c rest ih =>
    rw [List.cons_append, endOf_cons, Nat.max_eq_left (h c List.mem_cons_self)]
    exact ih fun d hd => h d (List.mem_cons_of_mem c hd)

/-- Whether an offset holds white space or a character that may be skipped. -/
def passes (s : Scanned) (skip : List Char) (i : Nat) : Prop :=
  s.masked.testAt i (fun d => Text.isSpace d || skip.contains d) = true

theorem passes_of_space {skip : List Char} {i : Nat} (h : s.masked.testAt i Text.isSpace = true) :
    passes s skip i := by
  obtain ⟨c, hc, hs⟩ := Text.testAt_iff.mp h
  exact Text.testAt_iff.mpr ⟨c, hc, by rw [hs, Bool.true_or]⟩

/-- From the cursor through the last trailing comment there is white space and what may be
skipped. -/
theorem trailingOf_passes {line : Nat} {skip : List Char} {candidates : List Comment} {cursor : Nat}
    (h : Orderly s candidates) (hcursor : ∀ c ∈ candidates, cursor ≤ c.offset) {i : Nat}
    (hi : cursor ≤ i) (hlt : i < endOf (trailingOf s line skip candidates cursor) cursor) : passes s skip i := by
  induction candidates generalizing cursor with
  | nil => exact absurd hlt (by simp [trailingOf, endOf]; omega)
  | cons c rest ih =>
    simp only [trailingOf] at hlt
    split at hlt
    · exact absurd hlt (by simp [endOf]; omega)
    · split at hlt
      · exact absurd hlt (by simp [endOf]; omega)
      · rename_i hany
        have hne := h.nonempty c List.mem_cons_self
        have hle := hcursor c List.mem_cons_self
        have hsize := h.inside c List.mem_cons_self
        by_cases hbefore : i < c.offset
        · -- the gap before the comment was tested
          rw [Bool.not_eq_true, List.any_eq_false] at hany
          have hget : s.masked[i]? = some (s.masked[i]) := Array.getElem?_eq_getElem (by omega)
          have := hany _ (Text.mem_slice.mpr ⟨i, hi, hbefore, hget⟩)
          refine Text.testAt_iff.mpr ⟨_, hget, ?_⟩
          simpa [Classical.or_iff_not_imp_left] using this
        · by_cases hin : i < c.stop
          · exact passes_of_space (h.space c List.mem_cons_self i (by omega) hin)
          · rw [endOf_cons, Nat.max_eq_right (by omega)] at hlt
            exact ih (h.sublist (List.sublist_cons_self c rest))
              (List.pairwise_cons.mp h.ordered).1 (by omega) hlt

theorem lineAt_mono (s : Scanned) {a b : Nat} (h : a ≤ b) : s.lineAt a ≤ s.lineAt b := by
  unfold Scanned.lineAt Lines.lineAt
  refine List.countP_mono_left fun x _ hx => ?_
  simp only [decide_eq_true_eq] at hx ⊢
  omega

/-- A comment comes after an offset on the same line, with nothing but white space, comments and what
may be skipped in between. -/
structure Trails (s : Scanned) (skip : List Char) (after : Nat) (c : Comment) : Prop where
  after_le : after ≤ c.offset
  line : c.line = s.lineAt (after - 1)
  gap : ∀ i, after ≤ i → i < c.offset → passes s skip i

/-- A candidate that trails the cursor is picked, since all candidates before it lie on its line. -/
theorem mem_trailingOf {line : Nat} {skip : List Char} {candidates : List Comment} {cursor : Nat}
    (h : Orderly s candidates) (hcursor : ∀ d ∈ candidates, cursor ≤ d.offset)
    (hline : ∀ d ∈ candidates, line ≤ d.line) {c : Comment} (hc : c ∈ candidates)
    (hcline : c.line = line) (hgap : ∀ i, cursor ≤ i → i < c.offset → passes s skip i) :
    c ∈ trailingOf s line skip candidates cursor := by
  induction candidates generalizing cursor with
  | nil => cases hc
  | cons d rest ih =>
    have hle : d.offset ≤ c.offset := by
      rcases List.mem_cons.mp hc with rfl | hc
      · exact Nat.le_refl _
      · have := h.nonempty d List.mem_cons_self
        have := (List.pairwise_cons.mp h.ordered).1 c hc
        omega
    have hdline : d.line = line := by
      refine Nat.le_antisymm ?_ (hline d List.mem_cons_self)
      rw [← hcline, h.line d List.mem_cons_self, h.line c hc]
      exact lineAt_mono s hle
    have hblank : ((s.masked.slice cursor d.offset).any fun x =>
        !Text.isSpace x && !skip.contains x) = false := by
      refine List.any_eq_false.mpr fun x hx => ?_
      obtain ⟨i, h1, h2, hi⟩ := Text.mem_slice.mp hx
      have := hgap i h1 (by omega)
      rw [passes, Text.testAt_of_getElem? hi, Bool.or_eq_true] at this
      simpa [Classical.or_iff_not_imp_left] using this
    rw [trailingOf, if_neg (by simp [hdline]), hblank]
    rcases List.mem_cons.mp hc with rfl | hc
    · exact List.mem_cons_self
    · have hnext := List.pairwise_cons.mp h.ordered
      have := h.nonempty d List.mem_cons_self
      have := hcursor d List.mem_cons_self
      exact List.mem_cons_of_mem d (ih (h.sublist (List.sublist_cons_self d rest)) hnext.1
        (fun e he => hline e (List.mem_cons_of_mem d he)) hc fun i h1 h2 => hgap i (by omega) h2)

/-- What trailing comments cover and leave. -/
structure Trailed (s : Scanned) (skip : List Char) (after limit : Nat) (pool : List Comment)
    (taken left : List Comment) : Prop where
  taken_inside : ∀ c ∈ taken, c ∈ pool ∧ after ≤ c.offset ∧ c.stop ≤ limit
  drawn : Drawn (endOf taken after) pool left
  /-- No comment is left between the declaration and the last trailing comment. -/
  swept : ∀ c ∈ left, after ≤ c.offset → endOf taken after ≤ c.offset
  gap : ∀ i, after ≤ i → i < endOf taken after → passes s skip i
  /-- Every comment that comes after the declaration on its line is taken, up to the limit. -/
  held : ∀ c ∈ pool, Trails s skip after c → c.stop ≤ limit → c ∈ taken

theorem takeTrailing_spec (h : Orderly s pool) (after limit : Nat) (skip : List Char) :
    Trailed s skip after limit pool (takeTrailing s after limit skip pool).1
      (takeTrailing s after limit skip pool).2 := by
  let candidates := pool.filter (liesBetween after limit)
  let taken := trailingOf s (s.lineAt (after - 1)) skip candidates after
  have hsub : candidates.Sublist pool := List.filter_sublist
  have hlead : taken <+: candidates := trailingOf_prefix s _ skip candidates after
  have hcand : ∀ c ∈ candidates, c ∈ pool ∧ after ≤ c.offset ∧ c.stop ≤ limit := by
    intro c hc
    rw [← liesBetween_iff]
    exact List.mem_filter.mp hc
  have hin : ∀ c ∈ taken, c ∈ pool ∧ after ≤ c.offset ∧ c.stop ≤ limit :=
    fun c hc => hcand c (hlead.subset hc)
  refine ⟨hin, claim_drawn h ?_, ?_, fun i h1 h2 =>
    trailingOf_passes (h.sublist hsub) (fun c hc => (hcand c hc).2.1) h1 h2, fun c hc htrails hstop => ?_⟩
  · intro c hc
    have h1 := h.nonempty c (hin c hc).1
    have h2 : c.stop ≤ endOf taken after := stop_le_endOf hc
    exact ⟨(hin c hc).1, Nat.lt_of_lt_of_le h1 h2⟩
  · -- a comment that is left comes after all that were taken: those are the first candidates
    intro c hc hafter
    obtain ⟨hpool, hnot⟩ := (mem_without h fun d hd => (hin d hd).1).mp hc
    refine endOf_le hafter fun d hd => ?_
    obtain ⟨rest, hrest⟩ := hlead
    by_cases hlim : c.stop ≤ limit
    · have hcc : c ∈ candidates := List.mem_filter.mpr ⟨hpool, liesBetween_iff.mpr ⟨hafter, hlim⟩⟩
      rw [← hrest] at hcc
      have hcrest : c ∈ rest := (List.mem_append.mp hcc).resolve_left hnot
      have hord := (h.sublist hsub).ordered
      rw [← hrest] at hord
      exact (List.pairwise_append.mp hord).2.2 d hd c hcrest
    · -- one that reaches past the limit cannot start before one that does not
      obtain ⟨hdp, -, hdl⟩ := hin d hd
      have hd1 := h.nonempty d hdp
      have hc1 := h.nonempty c hpool
      rcases h.apart hdp hpool with rfl | h3 | h3
      · exact absurd hdl hlim
      · exact h3
      · omega
  · refine mem_trailingOf (h.sublist hsub) (fun d hd => (hcand d hd).2.1) (fun d hd => ?_)
      (List.mem_filter.mpr ⟨hc, liesBetween_iff.mpr ⟨htrails.after_le, hstop⟩⟩) htrails.line htrails.gap
    rw [h.line d (hcand d hd).1]
    exact lineAt_mono s (Nat.le_trans (Nat.sub_le after 1) (hcand d hd).2.1)

end MemberOrder.Attachment
