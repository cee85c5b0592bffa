/-
  What is kept of the code.

  The output of a run in preserving mode has the ink of the source in another order, so its code is that
  of the source exactly when its comments are. They are when the pieces of the output fit together: when
  no comment and no literal of either text runs over a seam between two pieces, each piece has the code
  it had (`processWith_keeps_code`). A line comment that gets in front of code on its line runs over
  such a seam, and then code is lost (`processWith_buries_code`).
-/
import MemberOrder.Proofs.Layout.Provenance
import MemberOrder.Proofs.Source.Regions

namespace MemberOrder.Layout

open Lexeme Scanned

/-! ## Seams -/

/-- Whether lexing stops at both ends of a range and of its copy at `k` in another text, and gets to
their starts at one depth where it counts. -/
def keepsRange (p : Profile) (t u : Text) (a b k : Nat) : Bool :=
  match depthAt? p t a t.size 0 0, depthAt? p u k u.size 0 0 with
  | some d, some d' => (!p.parenGuard || d == d') && (depthAt? p t b t.size a d).isSome
      && (depthAt? p u (k + (b - a)) u.size k d').isSome
  | _, _ => false

/-- Whether a piece that is copied fits in at `k`: the ends of its range are no seams in either text. -/
def fits (p : Profile) (t u : Text) (k : Nat) : Piece → Bool
  | .copy a b => b ≤ a || keepsRange p t u a b k
  | .put _ => true

/-- Whether no comment and no literal of a source, or of the text that is written from it in pieces from
`k` on, runs over the ends of a piece. -/
def seamless (p : Profile) (t u : Text) : (k : Nat) → List Piece → Bool
  | _, [] => true
  | k, piece :: rest => fits p t u k piece && seamless p t u (k + (piece.text t).length) rest

variable {p : Profile} {t u : Text}

/-- A range whose ends are no seams is read in both texts. -/
theorem reads_of_keepsRange {a b k : Nat} (h : keepsRange p t u a b k = true) :
    ∃ d d' e e' before before' ls ms, Reads p t a d 0 0 before ∧ Reads p u k d' 0 0 before' ∧
      Reads p t b e a d ls ∧ Reads p u (k + (b - a)) e' k d' ms ∧ (p.parenGuard = true → d' = d) := by
  unfold keepsRange at h
  split at h
  · rename_i d d' hd hd'
    simp only [Bool.and_eq_true, Bool.or_eq_true, Bool.not_eq_true', beq_iff_eq,
      Option.isSome_iff_exists] at h
    obtain ⟨⟨hguard, e, he⟩, e', he'⟩ := h
    obtain ⟨before, hbefore⟩ := reads_of_depthAt? hd
    obtain ⟨before', hbefore'⟩ := reads_of_depthAt? hd'
    obtain ⟨ls, hls⟩ := reads_of_depthAt? he
    obtain ⟨ms, hms⟩ := reads_of_depthAt? he'
    refine ⟨d, d', e, e', before, before', ls, ms, hbefore, hbefore', hls, hms, fun hp => ?_⟩
    rw [hp] at hguard
    exact (hguard.resolve_left (by decide)).symm
  · cases h

/-- A range whose ends are no seams has the same code in both texts, and they mask the same of it. -/
theorem companions_of_keepsRange {a b k : Nat} (h : keepsRange p t u a b k = true) (hab : a ≤ b)
    (hb : b ≤ t.size) (hk : k + (b - a) ≤ u.size)
    (hslice : u.slice k (k + (b - a)) = t.slice a b) :
    (scan p u).clean.slice k (k + (b - a)) = (scan p t).clean.slice a b ∧
      (scan p u).masked.slice k (k + (b - a)) = (scan p t).masked.slice a b := by
  obtain ⟨d, d', e, e', before, before', ls, ms, hbefore, hbefore', hls, hms, hguard⟩ := reads_of_keepsRange h
  obtain ⟨n, rfl⟩ := Nat.exists_eq_add_of_le hab
  rw [Nat.add_sub_cancel_left] at hk hslice hms ⊢
  have hsame := Same.of_slice hslice hk hb
  rw [Reads.slice_clean hbefore' hms, Reads.slice_clean hbefore hls, Reads.slice_masked hbefore' hms,
    Reads.slice_masked hbefore hls]
  exact ⟨Reads.clean_eq hsame hms hls hguard, Reads.masked_eq hsame hms hls hguard⟩

theorem OnlySeparators.ink {cs : List Char} (h : OnlySeparators cs) : ink cs = [] :=
  ink_eq_nil.mpr fun c hc => Or.inr (h c hc)

/-- A piece that fits in has the code that it has in the source. -/
theorem ink_clean_piece {piece : Piece} {k : Nat} (h : fits p t u k piece = true)
    (hcopies : ∀ r ∈ copies [piece], r.1 ≤ r.2 ∧ r.2 ≤ t.size)
    (hputs : OnlySeparators piece.separator) (hk : k + (piece.text t).length ≤ u.size)
    (hslice : u.slice k (k + (piece.text t).length) = piece.text t) :
    ink ((scan p u).clean.slice k (k + (piece.text t).length)) =
      ink (shown (scan p t).clean (copies [piece])) := by
  cases piece with
  | copy a b =>
    obtain ⟨hab, hb⟩ := hcopies (a, b) (List.mem_singleton.mpr rfl)
    have hlength : ((Piece.copy a b).text t).length = b - a := Text.length_slice t hb
    have hshown : shown (scan p t).clean (copies [.copy a b]) = (scan p t).clean.slice a b :=
      List.append_nil _
    rw [hlength] at hslice hk ⊢
    rw [hshown]
    simp only [fits, Bool.or_eq_true, decide_eq_true_eq] at h
    rcases h with hempty | hkeeps
    · rw [Text.slice_self _ hempty, Text.slice_self _ (by omega)]
    · rw [(companions_of_keepsRange hkeeps hab hb hk hslice).1]
  | put s =>
    -- separators have no ink
    have hput : ink (u.slice k (k + ((Piece.put s).text t).length)) = [] := by
      rw [hslice]
      exact hputs.ink
    rw [ink_clean_eq_nil hput]
    rfl

/-- A text written in pieces that fit together has the code of its pieces. -/
theorem ink_clean_written {ps : List Piece} {k : Nat} (h : seamless p t u k ps = true)
    (hcopies : ∀ r ∈ copies ps, r.1 ≤ r.2 ∧ r.2 ≤ t.size) (hputs : OnlySeparators (puts ps))
    (hk : k + (written t ps).length = u.size) (hslice : u.slice k u.size = written t ps) :
    ink ((scan p u).clean.slice k u.size) = ink (shown (scan p t).clean (copies ps)) := by
  induction ps generalizing k with
  | nil =>
    have : u.size ≤ k := by simp [written] at hk; omega
    rw [Text.slice_self _ this]
    rfl
  | cons piece rest ih =>
    have hwritten : written t (piece :: rest) = piece.text t ++ written t rest := List.flatMap_cons
    have hcons : copies (piece :: rest) = copies [piece] ++ copies rest := copies_append [piece] rest
    have hputs' : puts (piece :: rest) = piece.separator ++ puts rest := List.flatMap_cons
    rw [hwritten] at hk hslice
    rw [List.length_append] at hk
    rw [hcons] at hcopies ⊢
    rw [hputs'] at hputs
    rw [seamless, Bool.and_eq_true] at h
    -- the text from `k` on is that of the piece and that of the rest
    have hmid : k + (piece.text t).length ≤ u.size := by omega
    have hsplit := Text.slice_append u (Nat.le_add_right k (piece.text t).length) hmid
    rw [hslice] at hsplit
    obtain ⟨hpiece, hrest⟩ := List.append_inj hsplit (by rw [Text.length_slice u hmid]; omega)
    rw [← Text.slice_append (scan p u).clean (Nat.le_add_right k (piece.text t).length) hmid,
      ink_append, shown_append, ink_append]
    rw [ink_clean_piece h.1 (fun r hr => hcopies r (List.mem_append_left _ hr))
        (fun c hc => hputs c (List.mem_append_left _ hc)) hmid hpiece,
      ih h.2 (fun r hr => hcopies r (List.mem_append_right _ hr))
        (fun c hc => hputs c (List.mem_append_right _ hc)) (by omega) hrest]

/-- Ranges without ink have none in the text without comments. -/
theorem ink_shown_clean {rs : List (Nat × Nat)} (h : ink (shown t rs) = []) :
    ink (shown (scan p t).clean rs) = [] := by
  induction rs with
  | nil => rfl
  | cons r rest ih =>
    have hshown : ∀ t : Text, shown t (r :: rest) = t.slice r.1 r.2 ++ shown t rest :=
      fun _ => List.flatMap_cons
    rw [hshown, ink_append, List.append_eq_nil_iff] at h ⊢
    exact ⟨ink_clean_eq_nil h.1, ih h.2⟩

/-! ## Ink -/

section Rewrites

variable {ps : List Piece}

/-- What is written in pieces has the ink of the source. -/
theorem Rewrites.ink_perm (h : Rewrites t 0 t.size ps) : (ink (written t ps)).Perm (ink t.toList) := by
  obtain ⟨cut, hcovers, hputs, hcut⟩ := h
  have hperm := (hcovers.written_perm (t := t)).filter isInk
  rw [Text.slice_full, List.filter_append, List.filter_append] at hperm
  -- neither what was cut nor what was put in has any
  rwa [show (shown t cut).filter isInk = [] from hcut.ink,
    show (puts ps).filter isInk = [] from hputs.ink, List.append_nil, List.append_nil] at hperm

/-- What is written in pieces that fit together has the code of the source. -/
theorem Rewrites.codeOf_perm (h : Rewrites t 0 t.size ps) (hu : u.toList = written t ps)
    (hseamless : seamless p t u 0 ps = true) : (codeOf p u).Perm (codeOf p t) := by
  obtain ⟨cut, hcovers, hputs, hcut⟩ := h
  have hcopies : ∀ r ∈ copies ps, r.1 ≤ r.2 ∧ r.2 ≤ t.size :=
    fun r hr => hcovers.mem (List.mem_append_left _ hr)
  have hcode := ink_clean_written hseamless hcopies hputs (by simp [← hu]) (by
    rw [Text.slice_full, hu])
  have hsource := (hcovers.slices_perm (t := (scan p t).clean)).filter isInk
  have hcutclean := ink_shown_clean (p := p) hcut.ink
  rw [← size_clean p u, Text.slice_full] at hcode
  rw [shown_append, ← size_clean p t, Text.slice_full] at hsource
  unfold codeOf
  rw [hcode]
  refine List.Perm.trans (.of_eq ?_) hsource
  unfold ink at hcutclean ⊢
  rw [List.filter_append, hcutclean, List.append_nil]

end Rewrites

end MemberOrder.Layout

namespace MemberOrder

open Layout

/-- The output of a run in preserving mode over entities with different keys has the ink of the source
in another order. It has the code of the source exactly when it has its comments, and it does when no
comment and no literal of the two runs over a seam between pieces. -/
theorem processWith_keeps_code (o : Options) (hyaml : o.fileType.language ≠ .yaml)
    (hlayout : o.asksForLayout = false) (hending : o.lineEnding = .auto) (source out : String)
    (hkeys : ((readSource o.fileType (Text.ofString source)).entities.map Entity.key).Nodup)
    (h : (processWith o source).processedText = some out) (p : Profile) :
    let t := Text.ofString source
    let u := Text.ofString out
    (ink out.toList).Perm (ink source.toList) ∧
      ((codeOf p u).Perm (codeOf p t) ↔ (commentsOf p u).Perm (commentsOf p t)) ∧
      (seamless p t u 0 (outputPieces o t) = true → (codeOf p u).Perm (codeOf p t)) := by
  intro t u
  obtain ⟨hwritten, hrewrites⟩ := processWith_written hyaml hlayout hending hkeys h
  have hink : (ink out.toList).Perm (ink source.toList) := by
    rw [hwritten]
    exact hrewrites.ink_perm
  refine ⟨hink, ?_, fun hseamless => hrewrites.codeOf_perm hwritten hseamless⟩
  -- code and comments together are the ink
  have hboth : (codeOf p u ++ commentsOf p u).Perm (codeOf p t ++ commentsOf p t) :=
    (MemberOrder.ink_perm p u).symm.trans (hink.trans (MemberOrder.ink_perm p t))
  constructor
  · intro hcode
    exact (List.perm_append_left_iff _).mp (hboth.trans (hcode.symm.append_right _))
  · intro hcomments
    exact (List.perm_append_right_iff _).mp (hboth.trans (hcomments.symm.append_left _))

/-- A member with a comment after it, and lines of their own for all members. -/
def noteOnLine : String := "interface A \x7b\n b: string // c\n a: number\n\x7d"

/-- What a run makes of it: no comment runs over a seam between pieces. -/
theorem noteOnLine_run :
    ((readSource .typescript (Text.ofString noteOnLine)).entities.map Entity.key).Nodup ∧
    (processWith {} noteOnLine).processedText = some "interface A \x7b\n a: number\n b: string // c\n\x7d" ∧
    seamless .typescript (Text.ofString noteOnLine)
      (Text.ofString "interface A \x7b\n a: number\n b: string // c\n\x7d") 0
      (outputPieces {} (Text.ofString noteOnLine)) = true := by
  decide +kernel

/-- The comment moves with its member and covers no code. -/
theorem processWith_keeps_code_on_line :
    (processWith {} noteOnLine).processedText = some "interface A \x7b\n a: number\n b: string // c\n\x7d" ∧
    (codeOf .typescript (Text.ofString "interface A \x7b\n a: number\n b: string // c\n\x7d")).Perm
      (codeOf .typescript (Text.ofString noteOnLine)) := by
  obtain ⟨hkeys, h, hseamless⟩ := noteOnLine_run
  exact ⟨h, (processWith_keeps_code {} (by decide) rfl rfl noteOnLine _ hkeys h .typescript).2.2 hseamless⟩

/-- A member with a comment after it, and a last member that shares its line with the closing brace. -/
def noteBeforeBrace : String := "interface A \x7b b: string // c\n a: number \x7d"

/-- The comment moves in front of the closing brace, which is no code any more. -/
theorem processWith_buries_code :
    ((readSource .typescript (Text.ofString noteBeforeBrace)).entities.map Entity.key).Nodup ∧
    (processWith {} noteBeforeBrace).processedText =
      some "interface A \x7b a: number\n b: string // c \x7d" ∧
    ¬(codeOf .typescript (Text.ofString "interface A \x7b a: number\n b: string // c \x7d")).Perm
      (codeOf .typescript (Text.ofString noteBeforeBrace)) := by
  decide +kernel

end MemberOrder
