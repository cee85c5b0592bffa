/-
  What a run returns is its source with patches at the spans of entities.

  Patches that come one after the other are put into a list all at once (`patched`). What is before all
  of them stays in front (`take_patched`), and what is behind all of them stays at the end
  (`patched_eq_append_drop`). A text is encoded character by character, so that the bytes of a patched
  text are the bytes of the text, patched where the characters of a patch begin and end in bytes
  (`encode_patched`).

  Splicing needs of the spans that none is turned around and that they are in the text; empty spans and
  spans that overlap are allowed. Each entity that is written over is a patch below the floor that the one
  before it left, so the patches come one after the other (`spliceFrom_patched`). This holds of every run
  that returns a text, also of one that has nothing to change (`processWith_patches`). The spans that are
  read from languages other than YAML are as needed (`span_of_readSource`).
-/
import MemberOrder.Proofs.Layout.Splicing
import MemberOrder.Proofs.Placement.Basic
import MemberOrder.Proofs.Text.Bytes

namespace MemberOrder

/-- A range of a list, and what is put in its place. -/
structure Patch (α : Type) where
  start : Nat
  stop : Nat
  written : List α
  deriving Repr, DecidableEq

variable {α : Type}

/-- A patch goes from its start to its end. -/
def Patch.At (p : Patch α) (a b : Nat) : Prop := p.start = a ∧ p.stop = b ∧ a ≤ b

theorem Patch.At.le {p : Patch α} {a b : Nat} (h : p.At a b) : a ≤ b := h.2.2

/-- A patch for the same list with more items in front. -/
def Patch.shift (k : Nat) (p : Patch α) : Patch α := ⟨k + p.start, k + p.stop, p.written⟩

/-- The list from `lo` on with patches put in, which come one after the other. -/
def patched (xs : List α) : (lo : Nat) → List (Patch α) → List α
  | lo, [] => xs.drop lo
  | lo, p :: rest => (xs.drop lo).take (p.start - lo) ++ p.written ++ patched xs p.stop rest

section Patched

variable {xs front : List α} {a b k : Nat} {ps : List (Patch α)}

/-- What is before all patches stays as it is. -/
theorem patched_eq_take_append (h : Chain Patch.At k b ps) (ha : a ≤ k) :
    patched xs a ps = (xs.drop a).take (k - a) ++ patched xs k ps := by
  have hdrop : (xs.drop a).drop (k - a) = xs.drop k := by rw [List.drop_drop, Nat.add_sub_cancel' ha]
  cases h with
  | nil => rw [patched, patched, ← hdrop, List.take_append_drop]
  | cons hk hp hrest =>
    rename_i i j p rest
    obtain ⟨rfl, -, -⟩ := hp
    have hsplit : (xs.drop a).take (p.start - a) =
        (xs.drop a).take (k - a) ++ (xs.drop k).take (p.start - k) := by
      rw [← hdrop, ← List.take_add]
      congr 1
      omega
    rw [patched, patched, hsplit]
    simp only [List.append_assoc]

/-- What is behind all patches stays as it is. -/
theorem patched_eq_append_drop (h : Chain Patch.At a k ps) (hk : k ≤ xs.length) :
    patched xs a ps = patched (xs.take k) a ps ++ xs.drop k := by
  induction h with
  | nil ha =>
    rename_i a b
    rw [patched, patched]
    calc xs.drop a = (xs.take b ++ xs.drop b).drop a := by rw [List.take_append_drop]
      _ = _ := List.drop_append_of_le_length (by rw [List.length_take]; omega)
  | cons ha hp hrest ih =>
    rename_i a i j b p rest
    obtain ⟨rfl, rfl, hle⟩ := hp
    have hstop := hrest.le fun _ _ _ h => h.le
    have hinner : ((xs.take b).drop a).take (p.start - a) = (xs.drop a).take (p.start - a) := by
      rw [List.drop_take, List.take_take, Nat.min_eq_left (by omega)]
    rw [patched, patched, ih hk, hinner]
    simp only [List.append_assoc]

/-- A list with more items in front. -/
theorem patched_append (h : Chain Patch.At a b ps) (front xs : List α) :
    patched (front ++ xs) (front.length + a) (ps.map (Patch.shift front.length)) = patched xs a ps := by
  induction h with
  | nil => rw [List.map_nil, patched, patched, List.drop_append, List.drop_eq_nil_of_le (Nat.le_add_right ..),
      List.nil_append, Nat.add_sub_cancel_left]
  | cons ha hp hrest ih =>
    rename_i a i j b p rest
    obtain ⟨-, rfl, -⟩ := hp
    have hstart : front.length + p.start - (front.length + a) = p.start - a := by omega
    rw [List.map_cons, patched, patched]
    show ((front ++ xs).drop (front.length + a)).take (front.length + p.start - (front.length + a)) ++
      p.written ++ patched (front ++ xs) (front.length + p.stop) _ = _
    rw [ih, hstart, List.drop_append, List.drop_eq_nil_of_le (Nat.le_add_right ..), List.nil_append,
      Nat.add_sub_cancel_left]

/-- Patches with items in front that none of them touches. -/
theorem patched_zero_append (h : Chain Patch.At 0 b ps) (front xs : List α) :
    patched (front ++ xs) 0 (ps.map (Patch.shift front.length)) = front ++ patched xs 0 ps := by
  have hshifted : Chain Patch.At front.length (front.length + b) (ps.map (Patch.shift front.length)) :=
    h.map (g := fun i => front.length + i) (fun hij => Nat.add_le_add_left hij _)
      fun p i j ⟨hi, hj, hij⟩ =>
        ⟨congrArg (front.length + ·) hi, congrArg (front.length + ·) hj, Nat.add_le_add_left hij _⟩
  rw [patched_eq_take_append hshifted (Nat.zero_le _), List.drop_zero, Nat.sub_zero, List.take_left]
  exact congrArg (front ++ ·) (patched_append h front xs)

/-- The last of some patches. -/
theorem patched_snoc {p : Patch α} (h : Chain Patch.At a p.start ps) (xs : List α) :
    patched xs a (ps ++ [p]) =
      patched (xs.take p.start) a ps ++ p.written ++ xs.drop p.stop := by
  induction ps generalizing a with
  | nil =>
    rw [List.nil_append, patched, patched, patched, List.drop_take]
  | cons q rest ih =>
    cases h with
    | cons ha hq hrest =>
      rename_i i j
      obtain ⟨rfl, rfl, hle⟩ := hq
      have hle' := hrest.le fun _ _ _ h => h.le
      have hinner : ((xs.take p.start).drop a).take (q.start - a) = (xs.drop a).take (q.start - a) := by
        rw [List.drop_take, List.take_take, Nat.min_eq_left (by omega)]
      rw [List.cons_append, patched, patched, ih hrest, hinner]
      simp only [List.append_assoc]

end Patched

/-! ## Encoded texts -/

namespace Utf8

/-- How many bytes are in front of a character. -/
def byteOffset (cs : List Char) (k : Nat) : Nat := (encode (cs.take k)).length

/-- A patch of a text as one of its bytes. -/
def encodedPatch (cs : List Char) (p : Patch Char) : Patch UInt8 :=
  ⟨byteOffset cs p.start, byteOffset cs p.stop, encode p.written⟩

variable {cs : List Char} {a b : Nat}

theorem encode_take (cs : List Char) (k : Nat) : (encode cs).take (byteOffset cs k) = encode (cs.take k) := by
  calc (encode cs).take (byteOffset cs k)
      = (encode (cs.take k) ++ encode (cs.drop k)).take (byteOffset cs k) := by
        rw [← encode_append, List.take_append_drop]
    _ = _ := List.take_left

theorem encode_drop (cs : List Char) (k : Nat) : (encode cs).drop (byteOffset cs k) = encode (cs.drop k) := by
  calc (encode cs).drop (byteOffset cs k)
      = (encode (cs.take k) ++ encode (cs.drop k)).drop (byteOffset cs k) := by
        rw [← encode_append, List.take_append_drop]
    _ = _ := List.drop_left

theorem byteOffset_mono (cs : List Char) (hab : a ≤ b) : byteOffset cs a ≤ byteOffset cs b := by
  obtain ⟨n, rfl⟩ := Nat.exists_eq_add_of_le hab
  rw [byteOffset, byteOffset, List.take_add, encode_append, List.length_append]
  exact Nat.le_add_right _ _

theorem byteOffset_length (cs : List Char) : byteOffset cs cs.length = (encode cs).length := by
  rw [byteOffset, List.take_length]

theorem encode_slice (cs : List Char) (hab : a ≤ b) :
    ((encode cs).drop (byteOffset cs a)).take (byteOffset cs b - byteOffset cs a) =
      encode ((cs.drop a).take (b - a)) := by
  obtain ⟨n, rfl⟩ := Nat.exists_eq_add_of_le hab
  have hlength : byteOffset cs (a + n) - byteOffset cs a = byteOffset (cs.drop a) n := by
    rw [byteOffset, byteOffset, List.take_add, encode_append, List.length_append, Nat.add_sub_cancel_left]
    rfl
  rw [encode_drop, hlength, encode_take, Nat.add_sub_cancel_left]

theorem Chain.encoded {ps : List (Patch Char)} (h : Chain Patch.At a b ps) (cs : List Char) :
    Chain Patch.At (byteOffset cs a) (byteOffset cs b) (ps.map (encodedPatch cs)) :=
  h.map (byteOffset_mono cs) fun _ _ _ ⟨hi, hj, hij⟩ =>
    ⟨congrArg (byteOffset cs) hi, congrArg (byteOffset cs) hj, byteOffset_mono cs hij⟩

/-- A patched text is written as the bytes of the text, patched at the same places. -/
theorem encode_patched {ps : List (Patch Char)} (h : Chain Patch.At a b ps) (cs : List Char) :
    encode (patched cs a ps) = patched (encode cs) (byteOffset cs a) (ps.map (encodedPatch cs)) := by
  induction h with
  | nil => rw [patched, List.map_nil, patched, encode_drop]
  | cons ha hp hrest ih =>
    rename_i a i j b p rest
    obtain ⟨rfl, rfl, -⟩ := hp
    rw [patched, encode_append, encode_append, ih, ← encode_slice cs ha]
    rfl

end Utf8

end MemberOrder

namespace MemberOrder.Layout

variable {ε : Type}

/-- Whether a patch is at the span of one of some entities. -/
def Patch.OfEntity (es : List Entity) (p : Patch Char) : Prop :=
  ∃ e ∈ es, ∃ s, e.span = some s ∧ p.start = s.start ∧ p.stop = s.stop

theorem mem_located {es : List Entity} {x : Entity × Span} (h : x ∈ located es) :
    x.1 ∈ es ∧ x.1.span = some x.2 := by
  obtain ⟨e, he, hx⟩ := List.mem_filterMap.mp h
  obtain ⟨s, hs, rfl⟩ := Option.map_eq_some_iff.mp hx
  exact ⟨he, hs⟩

/-- Splicing below a floor puts patches into the text up to the floor, and keeps what is behind it. -/
theorem spliceFrom_patched (sorted : List Entity) (render : Entity → Except ε String)
    (failure : Entity → ε → String) (text : List Char) {xs : List (Entity × Span)}
    (hforward : ∀ x ∈ xs, x.2.start ≤ x.2.stop) {floor : Nat} (hfloor : floor ≤ text.length)
    (tail : List Char) :
    ∃ ps : List (Patch Char), Chain Patch.At 0 floor ps ∧
      (∀ p ∈ ps, ∃ x ∈ xs, p.start = x.2.start ∧ p.stop = x.2.stop) ∧
      spliceFrom sorted render failure floor (text.take floor ++ tail) xs =
        patched (text.take floor) 0 ps ++ tail := by
  induction xs generalizing floor tail with
  | nil => exact ⟨[], .nil (Nat.zero_le _), fun p hp => absurd hp List.not_mem_nil, rfl⟩
  | cons x rest ih =>
    obtain ⟨e, span⟩ := x
    have hrest := fun y hy => hforward y (List.mem_cons_of_mem _ hy)
    have hpassed : ∃ ps : List (Patch Char), Chain Patch.At 0 floor ps ∧
        (∀ p ∈ ps, ∃ x ∈ (e, span) :: rest, p.start = x.2.start ∧ p.stop = x.2.stop) ∧
        spliceFrom sorted render failure floor (text.take floor ++ tail) rest =
          patched (text.take floor) 0 ps ++ tail := by
      obtain ⟨ps, hchain, hfrom, heq⟩ := ih hrest hfloor tail
      refine ⟨ps, hchain, fun p hp => ?_, heq⟩
      obtain ⟨x, hx, hplace⟩ := hfrom p hp
      exact ⟨x, List.mem_cons_of_mem _ hx, hplace⟩
    rw [spliceFrom]
    split
    · exact hpassed
    · split
      · exact hpassed
      · rename_i hstop _ twin _
        have hle : span.start ≤ span.stop := hforward (e, span) List.mem_cons_self
        let written := (replacement render failure e twin).toList
        have hfront : (text.take floor ++ tail).take span.start = text.take span.start := by
          rw [List.take_append_of_le_length (by rw [List.length_take]; omega), List.take_take,
            Nat.min_eq_left (by omega)]
        have hback : (text.take floor ++ tail).drop span.stop = (text.take floor).drop span.stop ++ tail :=
          List.drop_append_of_le_length (by rw [List.length_take]; omega)
        have hfit : span.start ≤ text.length := by omega
        obtain ⟨ps, hchain, hfrom, heq⟩ := ih hrest hfit
          (written ++ ((text.take floor).drop span.stop ++ tail))
        have hlast : Chain Patch.At 0 floor (ps ++ [⟨span.start, span.stop, written⟩]) :=
          (hchain.snoc (Nat.le_refl _) ⟨rfl, rfl, hle⟩).weaken (Nat.le_refl 0) (Nat.not_lt.mp hstop)
        refine ⟨_, hlast, fun p hp => ?_, ?_⟩
        · rcases List.mem_append.mp hp with hp | hp
          · obtain ⟨x, hx, hplace⟩ := hfrom p hp
            exact ⟨x, List.mem_cons_of_mem _ hx, hplace⟩
          · obtain rfl := List.mem_singleton.mp hp
            exact ⟨(e, span), List.mem_cons_self, rfl, rfl⟩
        · have hbelow : (text.take floor).take span.start = text.take span.start := by
            rw [List.take_take, Nat.min_eq_left (by omega)]
          rw [patched_snoc (p := ⟨span.start, span.stop, written⟩) hchain, hbelow, hfront, hback]
          calc spliceFrom sorted render failure span.start
                (text.take span.start ++ written ++ ((text.take floor).drop span.stop ++ tail)) rest
              = patched (text.take span.start) 0 ps ++
                  (written ++ ((text.take floor).drop span.stop ++ tail)) := by
                rw [List.append_assoc, heq]
            _ = _ := by simp only [List.append_assoc]

/-- A floor one above the end of the text is as good as one at its end. -/
theorem spliceFrom_floor {sorted : List Entity} {render : Entity → Except ε String}
    {failure : Entity → ε → String} {n : Nat} {text : List Char} {xs : List (Entity × Span)}
    (hstop : ∀ x ∈ xs, x.2.stop ≤ n) :
    spliceFrom sorted render failure (n + 1) text xs = spliceFrom sorted render failure n text xs := by
  induction xs with
  | nil => rfl
  | cons x rest ih =>
    obtain ⟨e, span⟩ := x
    have hle : span.stop ≤ n := hstop (e, span) List.mem_cons_self
    rw [spliceFrom, spliceFrom, if_neg (by omega), if_neg (by omega),
      ih fun y hy => hstop y (List.mem_cons_of_mem _ hy)]

/-- Splicing puts patches into a text at the spans of entities. -/
theorem splice_patched {entities : List Entity} (sorted : List Entity) (render : Entity → Except ε String)
    (failure : Entity → ε → String) {text : List Char}
    (hspans : ∀ e ∈ entities, ∀ s, e.span = some s → s.start ≤ s.stop ∧ s.stop ≤ text.length) :
    ∃ ps, Chain Patch.At 0 text.length ps ∧ (∀ p ∈ ps, Patch.OfEntity entities p) ∧
      splice text entities sorted render failure = patched text 0 ps := by
  have hmem : ∀ x ∈ backwards entities, x.1 ∈ entities ∧ x.1.span = some x.2 := fun x hx =>
    mem_located ((Order.stableSort_perm _ _).mem_iff.mp hx)
  have hplaced : ∀ x ∈ backwards entities, x.2.start ≤ x.2.stop ∧ x.2.stop ≤ text.length := fun x hx =>
    hspans x.1 (hmem x hx).1 x.2 (hmem x hx).2
  obtain ⟨ps, hchain, hfrom, heq⟩ := spliceFrom_patched sorted render failure text
    (fun x hx => (hplaced x hx).1) (Nat.le_refl _) []
  refine ⟨ps, hchain, fun p hp => ?_, ?_⟩
  · obtain ⟨x, hx, hstart, hstop⟩ := hfrom p hp
    exact ⟨x.1, (hmem x hx).1, x.2, (hmem x hx).2, hstart, hstop⟩
  · rw [List.take_length, List.append_nil, List.append_nil] at heq
    rw [splice, spliceFrom_floor fun x hx => (hplaced x hx).2, heq]

/-- The spans of entities that are read from a language that is lexed are in the text, and none is turned
around. -/
theorem span_of_readSource {fileType : FileType} (hyaml : fileType.language ≠ .yaml) (t : Text) {e : Entity}
    (he : e ∈ (readSource fileType t).entities) {s : Span} (hs : e.span = some s) :
    s.start ≤ s.stop ∧ s.stop ≤ t.size := by
  obtain ⟨i, j, hlaid, -, hj⟩ := (readSource_chain hyaml t).of_mem (fun _ _ _ h => h.le) he
  obtain ⟨s', hs', rfl, rfl⟩ := hlaid.span_eq
  obtain rfl : s = s' := Option.some.inj (hs.symm.trans hs')
  exact ⟨Nat.le_of_lt hlaid.nonempty, hj⟩

end MemberOrder.Layout

namespace MemberOrder

open Layout

/-- A run that returns a text returns its source with patches at the spans of entities, if these are in
the text and none is turned around. -/
theorem processWith_patches (o : Options) (source : String)
    (hspans : ∀ e ∈ (readSource o.fileType (Text.ofString source)).entities, ∀ s, e.span = some s →
      s.start ≤ s.stop ∧ s.stop ≤ source.toList.length) {out : String}
    (h : (processWith o source).processedText = some out) :
    ∃ ps, Chain Patch.At 0 source.toList.length ps ∧
      (∀ p ∈ ps, Patch.OfEntity (readSource o.fileType (Text.ofString source)).entities p) ∧
      out.toList = patched source.toList 0 ps := by
  have hsame : ∃ ps, Chain Patch.At 0 source.toList.length ps ∧
      (∀ p ∈ ps, Patch.OfEntity (readSource o.fileType (Text.ofString source)).entities p) ∧
      source.toList = patched source.toList 0 ps :=
    ⟨[], .nil (Nat.zero_le _), fun p hp => absurd hp List.not_mem_nil, rfl⟩
  unfold processWith at h
  dsimp only at h
  split at h
  · split at h
    · cases h
      exact hsame
    · cases h
  · split at h
    · split at h
      · cases h
        exact hsame
      · cases h
    · split at h
      · cases h
        obtain ⟨ps, hchain, hfrom, heq⟩ := splice_patched
          (sortEntities o (readSource o.fileType (Text.ofString source)).entities).1 (writeEntity o)
          (fun e err => (Rules.ofFileType o.fileType).failure e.name err.message) hspans
        exact ⟨ps, hchain, hfrom, by rw [writeBack, String.toList_ofList, heq]⟩
      · cases h
        exact hsame

end MemberOrder
