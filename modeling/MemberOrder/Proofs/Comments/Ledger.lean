/-
  A ledger of the comments that are handed out.

  `attached` lists the comments of a member, an entity or a reading, at every depth. A `Ledger` says
  what became of a pool: no comment is attached or left more often than the pool had it (`once`), and
  each comment of the pool is attached, left or `lost`, that is in a place where it is written back
  as part of something else. Each way of taking comments has its ledger, and ledgers compose
  (`Ledger.trans`), so every reader has one. An entity is `Accounted` when what is lost lies inside
  one of its members or outside of its body, and nothing inside its body is left; read from a pool
  that is complete from its body on, it keeps every comment of its body (`Accounted.keeps`).
-/
import Mathlib.Data.List.Nodup
import MemberOrder.Proofs.Placement.Basic

namespace MemberOrder

open Attachment

/-! ## Attached comments -/

mutual

/-- The comments of a member and of its children. -/
def Member.attached : Member → List Comment
  | .leaf i => i.comments ++ i.trailingComments ++ i.dangling
  | .group i children => i.comments ++ i.trailingComments ++ i.dangling ++ attachedIn children

/-- The comments of members and of their children. -/
def attachedIn : List Member → List Comment
  | [] => []
  | m :: rest => m.attached ++ attachedIn rest

end

/-- The comments of an entity: those that lead it, those that dangle in it and those of its
members. -/
def Entity.attached (e : Entity) : List Comment := e.leading ++ e.dangling ++ attachedIn e.members

/-- The comments of all entities of a reading. -/
def Reading.attached (r : Reading) : List Comment := r.entities.flatMap Entity.attached

/-- A comment lies inside the text of a member. -/
def MemberInfo.Spans (i : MemberInfo) (c : Comment) : Prop :=
  ∃ span, i.span = some span ∧ span.start ≤ c.offset ∧ c.stop ≤ span.stop

/-- A comment lies inside the text of a member or of something below it. -/
inductive Member.Covers (c : Comment) : Member → Prop
  | own {m : Member} (h : m.info.Spans c) : Member.Covers c m
  | child {i : MemberInfo} {children : List Member} {m : Member} (hm : m ∈ children)
      (h : Member.Covers c m) : Member.Covers c (.group i children)

/-- What lies inside a member that is laid out somewhere below lies inside the member itself. -/
theorem Member.Covers.spans {c : Comment} {m : Member} (h : m.Covers c) {P : MemberInfo → Prop}
    {t : Text} (hm : m.LaidOut P t) : m.info.Spans c := by
  induction h with
  | own h => exact h
  | @child i children m hmem h ih =>
    obtain ⟨-, span, unit, body, hplaced, -, hstart, hstop, hlaid⟩ := hm
    obtain ⟨hm, hfirst, hlast⟩ := hlaid.of_mem hmem
    obtain ⟨-, span', unit', hplaced'⟩ := hm.placed
    obtain ⟨span'', hspan, h1, h2⟩ := ih hm
    obtain rfl : span' = span'' := Option.some.inj (hplaced'.span_eq.symm.trans hspan)
    rw [hplaced'.unitStart_eq] at hfirst
    rw [hplaced'.unitStop_eq] at hlast
    have := hplaced'.leads
    have := hplaced'.follows
    exact ⟨span, hplaced.span_eq, by omega, by omega⟩

/-- A member whose own comments are not known yet. -/
structure Member.Bare (m : Member) : Prop where
  leading : m.info.comments = []
  trailing : m.info.trailingComments = []

/-- What a bare member gets as its own comments is attached besides what is attached below it. -/
theorem Member.Bare.attached_mapInfo {m : Member} (h : m.Bare) {f : MemberInfo → MemberInfo}
    (hf : ∀ i, (f i).dangling = i.dangling) :
    ((m.mapInfo f).attached).Perm
      ((f m.info).comments ++ (m.attached ++ (f m.info).trailingComments)) := by
  obtain ⟨h1, h2⟩ := h
  cases m with
  | leaf i =>
    simp only [Member.info] at h1 h2
    simp only [mapInfo, attached, Member.info, h1, h2, hf, List.nil_append, List.append_assoc]
    exact List.perm_append_comm.append_left _
  | group i children =>
    simp only [Member.info] at h1 h2
    simp only [mapInfo, attached, Member.info, h1, h2, hf, List.nil_append, List.append_assoc]
    refine List.Perm.append_left _ ?_
    rw [← List.append_assoc i.dangling]
    exact List.perm_append_comm

theorem Member.Covers.mapInfo {c : Comment} {m : Member} (h : m.Covers c)
    {f : MemberInfo → MemberInfo} (hf : ∀ i, (f i).span = i.span) : (m.mapInfo f).Covers c := by
  cases h with
  | own h =>
    obtain ⟨span, hspan, h⟩ := h
    refine .own ⟨span, ?_, h⟩
    cases m with
    | leaf i => exact (hf i).trans hspan
    | group i children => exact (hf i).trans hspan
  | child hm h => exact .child hm h

namespace Attachment

/-! ## Ledgers -/

/-- What became of the comments of a pool: those that were attached, those that are left, and those
that were lost. -/
structure Ledger (s : Scanned) (lost : Comment → Prop) (pool attached left : List Comment) :
    Prop where
  sublist : left.Sublist pool
  once : ∀ c, attached.count c + left.count c ≤ pool.count c
  found : Orderly s pool → ∀ c ∈ pool, c ∈ attached ∨ c ∈ left ∨ lost c

namespace Ledger

variable {s : Scanned} {lost : Comment → Prop} {pool mid left attached attached' : List Comment}

theorem refl (s : Scanned) (lost : Comment → Prop) (pool : List Comment) :
    Ledger s lost pool [] pool :=
  ⟨List.Sublist.refl pool, by simp, fun _ _ h => Or.inr (Or.inl h)⟩

theorem trans (h : Ledger s lost pool attached mid) (h' : Ledger s lost mid attached' left) :
    Ledger s lost pool (attached ++ attached') left where
  sublist := h'.sublist.trans h.sublist
  once c := by
    have h1 := h.once c
    have h2 := h'.once c
    rw [List.count_append]
    omega
  found hpool c hc := by
    rcases h.found hpool c hc with h1 | h1 | h1
    · exact Or.inl (List.mem_append_left _ h1)
    · rcases h'.found (hpool.sublist h.sublist) c h1 with h2 | h2
      · exact Or.inl (List.mem_append_right _ h2)
      · exact Or.inr h2
    · exact Or.inr (Or.inr h1)

theorem perm (h : Ledger s lost pool attached left) (hp : attached'.Perm attached) :
    Ledger s lost pool attached' left where
  sublist := h.sublist
  once c := by
    rw [hp.count_eq]
    exact h.once c
  found hpool c hc := by
    rw [hp.mem_iff]
    exact h.found hpool c hc

theorem weaken {lost' : Comment → Prop} (h : Ledger s lost pool attached left)
    (hlost : ∀ c, lost c → lost' c) : Ledger s lost' pool attached left :=
  ⟨h.sublist, h.once, fun hpool c hc => (h.found hpool c hc).imp_right (Or.imp_right (hlost c))⟩

/-- Comments that nobody keeps are lost. -/
theorem lose (h : Ledger s lost pool attached left)
    (hlost : Orderly s pool → ∀ c ∈ attached, lost c) : Ledger s lost pool [] left where
  sublist := h.sublist
  once c := by
    have := h.once c
    rw [List.count_nil]
    omega
  found hpool c hc := by
    rcases h.found hpool c hc with h1 | h1
    · exact Or.inr (Or.inr (hlost hpool c h1))
    · exact Or.inr h1

/-- Out of a pool without repetitions nothing is attached twice. -/
theorem nodup (h : Ledger s lost pool attached left) (hpool : pool.Nodup) : attached.Nodup := by
  rw [List.nodup_iff_count_le_one] at hpool ⊢
  intro c
  have h1 := h.once c
  have h2 := hpool c
  omega

/-- What is attached comes out of the pool. -/
theorem mem_pool (h : Ledger s lost pool attached left) {c : Comment} (hc : c ∈ attached) :
    c ∈ pool := by
  have h1 := h.once c
  have h2 := List.count_pos_iff.mpr hc
  exact List.count_pos_iff.mp (by omega)

end Ledger

variable {s : Scanned} {pool : List Comment}

/-- Handing out comments of the pool. -/
theorem claim_ledger (s : Scanned) {taken : List Comment} (h : taken.Sublist pool) :
    Ledger s (fun _ => False) pool taken (without taken pool) where
  sublist := without_sublist taken pool
  once c := by
    by_cases hc : c ∈ taken
    · have hnot : c ∉ without taken pool := by
        intro hin
        have hany := (List.mem_filter.mp hin).2
        rw [Bool.not_eq_true', List.any_eq_false] at hany
        exact hany c hc (by simp)
      rw [List.count_eq_zero_of_not_mem hnot]
      exact h.count_le c
    · rw [List.count_eq_zero_of_not_mem hc, Nat.zero_add]
      exact (without_sublist taken pool).count_le c
  found hpool c hc := by
    by_cases hin : c ∈ taken
    · exact Or.inl hin
    · exact Or.inr (Or.inl ((mem_without hpool fun d hd => h.mem hd).mpr ⟨hc, hin⟩))

/-- What leads a declaration is picked from the nearest comments, without a gap. -/
theorem leadingOf_eq (s : Scanned) (line : Nat) (candidates : List Comment)
    (anchorLine anchorOffset : Nat) (picked : List Comment) :
    ∃ n, leadingOf s line candidates anchorLine anchorOffset picked =
      (candidates.take n).reverse ++ picked := by
  induction candidates generalizing anchorLine anchorOffset picked with
  | nil => exact ⟨0, rfl⟩
  | cons c above ih =>
    simp only [leadingOf]
    split
    · exact ⟨0, rfl⟩
    · split
      · exact ⟨0, rfl⟩
      · split
        · exact ⟨0, rfl⟩
        · obtain ⟨n, hn⟩ := ih c.line c.offset (c :: picked)
          refine ⟨n + 1, hn.trans ?_⟩
          rw [List.take_succ_cons, List.reverse_cons, List.append_assoc]
          rfl

theorem takeLeading_sublist (s : Scanned) (target floor : Nat) (pool : List Comment) :
    (takeLeading s target floor pool).1.Sublist pool := by
  let candidates := pool.filter (liesBetween floor target)
  show (leadingOf s (s.lineAt target) candidates.reverse (s.lineAt target) target []).Sublist pool
  obtain ⟨n, hn⟩ := leadingOf_eq s (s.lineAt target) candidates.reverse (s.lineAt target) target []
  rw [hn, List.append_nil]
  have := (List.take_sublist n candidates.reverse).reverse
  rw [List.reverse_reverse] at this
  exact this.trans List.filter_sublist

theorem takeLeading_ledger (s : Scanned) (lost : Comment → Prop) (target floor : Nat)
    (pool : List Comment) :
    Ledger s lost pool (takeLeading s target floor pool).1 (takeLeading s target floor pool).2 :=
  (claim_ledger s (takeLeading_sublist s target floor pool)).weaken fun _ h => h.elim

theorem takeTrailing_ledger (s : Scanned) (lost : Comment → Prop) (after limit : Nat)
    (skip : List Char) (pool : List Comment) :
    Ledger s lost pool (takeTrailing s after limit skip pool).1
      (takeTrailing s after limit skip pool).2 := by
  let candidates := pool.filter (liesBetween after limit)
  have hlead : trailingOf s (s.lineAt (after - 1)) skip candidates after <+: candidates :=
    trailingOf_prefix s _ skip candidates after
  have hsub := hlead.sublist.trans List.filter_sublist
  exact (claim_ledger s hsub).weaken fun _ h => h.elim

theorem takeInside_ledger (s : Scanned) (lost : Comment → Prop) (a b : Nat) (pool : List Comment) :
    Ledger s lost pool (takeInside a b pool).1 (takeInside a b pool).2 := by
  have hsub : (pool.filter (liesBetween a b)).Sublist pool := List.filter_sublist
  exact (claim_ledger s hsub).weaken fun _ h => h.elim

/-- Between two offsets where everything was taken nothing is left. -/
theorem takeInside_leaves (a b : Nat) {c : Comment} (hc : c ∈ (takeInside a b pool).2) :
    ¬(a ≤ c.offset ∧ c.stop ≤ b) := by
  intro hin
  obtain ⟨hpool, hany⟩ := List.mem_filter.mp hc
  rw [Bool.not_eq_true', List.any_eq_false] at hany
  exact hany c (List.mem_filter.mpr ⟨hpool, liesBetween_iff.mpr hin⟩) (by simp)

/-- Taking comments for nobody. -/
theorem takeInside_lose {lost : Comment → Prop} (a b : Nat)
    (h : ∀ c : Comment, c.offset < c.stop → a ≤ c.offset → c.stop ≤ b → lost c) :
    Ledger s lost pool [] (takeInside a b pool).2 :=
  (takeInside_ledger s lost a b pool).lose fun hpool c hc => by
    obtain ⟨h1, h2, h3⟩ := ((takeInside_spec hpool a b).1 c).mp hc
    exact h c (hpool.nonempty c h1) h2 h3

theorem takeEarly_ledger (s : Scanned) (lost : Comment → Prop) (stop : Nat) (place : Option Nat)
    (pool : List Comment) :
    Ledger s lost pool (takeEarly stop place pool).1 (takeEarly stop place pool).2 := by
  cases place with
  | none => exact .refl s lost pool
  | some p => exact takeInside_ledger s lost stop p pool

/-- A member with its comments: what leads it, what is read of its inside, what else lies inside it
and is kept by nobody, and what follows it. -/
theorem unit_ledger {m : Member} (hm : m.Bare) {f : MemberInfo → MemberInfo}
    (hf : ∀ i, (f i).span = i.span ∧ (f i).dangling = i.dangling) {start stop floor : Nat}
    (hspan : m.info.span = some (s.span start stop)) {mid left : List Comment}
    (hleading : (f m.info).comments = (takeLeading s start floor pool).1)
    (hinner : Ledger s (fun c => m.Covers c) (takeLeading s start floor pool).2 m.attached mid)
    (hfollow : ∀ lost, Ledger s lost (takeInside start stop mid).2 (f m.info).trailingComments left) :
    Ledger s (fun c => (m.mapInfo f).Covers c) pool (m.mapInfo f).attached left := by
  let lost := fun c => (m.mapInfo f).Covers c
  have hlead : Ledger s lost pool (f m.info).comments (takeLeading s start floor pool).2 := by
    rw [hleading]
    exact takeLeading_ledger s lost start floor pool
  have hinner : Ledger s lost _ m.attached mid :=
    hinner.weaken fun c hc => hc.mapInfo fun i => (hf i).1
  have hinside : Ledger s lost mid [] (takeInside start stop mid).2 :=
    takeInside_lose start stop fun c _ h1 h2 =>
      Member.Covers.mapInfo (.own ⟨_, hspan, h1, h2⟩) fun i => (hf i).1
  exact (hlead.trans (hinner.trans (hinside.trans (hfollow lost)))).perm
    (hm.attached_mapInfo fun i => (hf i).2)

/-- The ledger of a member followed by that of others. -/
theorem Ledger.cons {m : Member} {ms : List Member} {mid left : List Comment}
    (h : Ledger s (fun c => m.Covers c) pool m.attached mid)
    (h' : Ledger s (fun c => ∃ m ∈ ms, m.Covers c) mid (attachedIn ms) left) :
    Ledger s (fun c => ∃ m' ∈ m :: ms, m'.Covers c) pool (attachedIn (m :: ms)) left := by
  refine (h.weaken fun c hc => ⟨m, List.mem_cons_self, hc⟩).trans (h'.weaken ?_)
  rintro c ⟨m', hm', hc⟩
  exact ⟨m', List.mem_cons_of_mem m hm', hc⟩

end Attachment

/-! ## Entities -/

/-- A comment lies inside the body of an entity. -/
def Entity.Holds (e : Entity) (c : Comment) : Prop :=
  ∃ body, e.body = some body ∧ body.start ≤ c.offset ∧ c.stop ≤ body.stop

/-- A comment may be missing among those of an entity: it lies inside one of the members, or not in
the body. -/
def Entity.Passes (e : Entity) (c : Comment) : Prop :=
  (∃ m ∈ e.members, m.Covers c) ∨ ¬e.Holds c

/-- An entity accounts for the comments that were taken while it was read. -/
structure Entity.Accounted (s : Scanned) (e : Entity) (pool left : List Comment) : Prop where
  ledger : Ledger s e.Passes pool e.attached left
  /-- Nothing inside the body is left. -/
  swept : ∀ c ∈ left, ¬e.Holds c

/-- Each of some comments that lies inside the body of an entity is attached to it or lies inside
the text of one of its members. -/
def Entity.Keeps (comments : List Comment) (e : Entity) : Prop :=
  ∀ c ∈ comments, e.Holds c → c ∈ e.attached ∨ ∃ m ∈ e.members, m.info.Spans c

/-- An entity that is read from a pool that is complete from its start on keeps the comments of its
body. -/
theorem Entity.Accounted.keeps {s : Scanned} (hs : Orderly s s.comments) {e : Entity}
    {pool left : List Comment} (h : e.Accounted s pool left) {P : MemberInfo → Prop} {t : Text}
    {a b : Nat} (hlaid : e.LaidOut P t a b) (hpool : Drawn a s.comments pool) :
    e.Keeps s.comments := by
  intro c hc hholds
  have hin := hholds
  obtain ⟨body, hbody, h1, -⟩ := hin
  obtain ⟨ha, -, hmembers⟩ := hlaid.laidFrom hbody
  have hpooled := hpool.kept c hc (by omega)
  rcases h.ledger.found (hs.sublist hpool.sublist) c hpooled with h2 | h2 | ⟨m, hm, h2⟩ | h2
  · exact Or.inl h2
  · exact absurd hholds (h.swept c h2)
  · exact Or.inr ⟨m, hm, h2.spans (hmembers.of_mem hm).1⟩
  · exact absurd hholds h2

/-- Entities share a ledger of what is taken from a pool, and each keeps the comments of its body. -/
structure KeepComments (s : Scanned) (es : List Entity) (pool left : List Comment) : Prop where
  ledger : Ledger s (fun _ => True) pool (es.flatMap Entity.attached) left
  keep : ∀ e ∈ es, e.Keeps s.comments

theorem KeepComments.nil (s : Scanned) (pool : List Comment) : KeepComments s [] pool pool :=
  ⟨.refl s _ pool, by simp⟩

theorem KeepComments.append {s : Scanned} {es es' : List Entity} {pool mid left : List Comment}
    (h : KeepComments s es pool mid) (h' : KeepComments s es' mid left) :
    KeepComments s (es ++ es') pool left where
  ledger := by
    rw [List.flatMap_append]
    exact h.ledger.trans h'.ledger
  keep e he := (List.mem_append.mp he).elim (h.keep e) (h'.keep e)

theorem Entity.Accounted.keepComments {s : Scanned} (hs : Orderly s s.comments) {e : Entity}
    {pool left : List Comment} (h : e.Accounted s pool left) {P : MemberInfo → Prop} {t : Text}
    {a b : Nat} (hlaid : e.LaidOut P t a b) (hpool : Drawn a s.comments pool) :
    KeepComments s [e] pool left where
  ledger := by
    rw [List.flatMap_singleton]
    exact h.ledger.weaken fun _ _ => trivial
  keep e' he' := by
    rw [List.mem_singleton.mp he']
    exact h.keeps hs hlaid hpool

end MemberOrder
