/-
  The code of a name and a value that are typed anew.

  Between them stand a colon and blanks, whatever spacing the options ask for (`nameAndValue_spacing`). So
  if the name is sealed, the packed code is that of the name, a colon, and that of the value
  (`packedCode_nameAndValue`).
-/
import MemberOrder.Layout.Rules
import MemberOrder.Proofs.Pattern.Matches
import MemberOrder.Proofs.Source.Stops

namespace MemberOrder.Layout

open Lexeme Scanned

/-- A name and its value have a colon and blanks between them. -/
theorem nameAndValue_spacing (o : Options) (name value : String) (width : Nat) :
    ∃ m n, (nameAndValue o name value width ":").toList =
      name.toList ++ (List.replicate m ' ' ++ ':' :: List.replicate n ' ' ++ value.toList) := by
  unfold nameAndValue
  split
  · exact ⟨1, 1, by simp⟩
  · dsimp only
    split
    · exact ⟨0, 1, by simp⟩
    · refine ⟨0, width + ":".length - (name ++ ":").toList.length + 1, ?_⟩
      rw [String.toList_append, String.toList_append, String.toList_ofList, Text.padRight,
        List.replicate_succ']
      simp
  · exact ⟨0, 1, by simp⟩
  · exact ⟨0, 1, by simp⟩

/-- The code of a name with a mark and of its value is that of the name, the mark, a colon, and that of
the value. -/
theorem packedCode_nameAndValue {p : Profile} (hplain : ∀ c ∈ [' ', ':'], Plain p c) (o : Options)
    {name mark : String} (hname : ∀ ds, Seam p name.toList ds) (hmark : ∀ c ∈ mark.toList, Plain p c)
    (value : String) (width : Nat) :
    packedCode p (nameAndValue o (name ++ mark) value width ":").toList =
      packedCode p name.toList ++ (pack mark.toList ++ ':' :: packedCode p value.toList) := by
  obtain ⟨m, n, htext⟩ := nameAndValue_spacing o (name ++ mark) value width
  rw [String.toList_append, List.append_assoc, ← List.append_assoc mark.toList] at htext
  have hspacing : ∀ c ∈ mark.toList ++ (List.replicate m ' ' ++ ':' :: List.replicate n ' '), Plain p c := by
    intro c hc
    rcases List.mem_append.mp hc with hc | hc
    · exact hmark c hc
    refine hplain c ?_
    simp only [List.mem_append, List.mem_cons, List.mem_replicate] at hc ⊢
    rcases hc with ⟨-, rfl⟩ | rfl | ⟨-, rfl⟩ <;> simp
  have hpack : pack (mark.toList ++ (List.replicate m ' ' ++ ':' :: List.replicate n ' ')) =
      pack mark.toList ++ [':'] := by
    have hblanks (k : Nat) : pack (List.replicate k ' ') = [] :=
      pack_eq_nil fun c hc => by rw [(List.mem_replicate.mp hc).2]; decide
    rw [← List.singleton_append, pack_append, pack_append, pack_append, hblanks, hblanks]
    rfl
  rw [htext, packedCode_append (hname _), packedCode_append (seam_of_plain hspacing _),
    packedCode_of_plain hspacing, hpack, List.append_assoc]
  rfl

/-! ## Names and values as they were written -/

/-- White space or a colon. -/
def isColonOrSpace (c : Char) : Bool := Text.isSpace c || c == ':'

/-- A colon stands between two offsets, with nothing but white space around it. -/
def ColonBetween (u : Text) (k v : Nat) : Prop :=
  ∃ x, k ≤ x ∧ x < v ∧ u[x]? = some ':' ∧ (∀ y, k ≤ y → y < x → u.testAt y Text.isSpace = true) ∧
    ∀ y, x < y → y < v → u.testAt y Text.isSpace = true

theorem ColonBetween.shown {u : Text} {k v : Nat} (h : ColonBetween u k v) :
    ∀ y, k ≤ y → y < v → u.testAt y isColonOrSpace = true := by
  obtain ⟨x, -, -, hx, hbefore, hafter⟩ := h
  intro y h1 h2
  have hspace : ∀ c, Text.isSpace c = true → isColonOrSpace c = true := fun c hc => by
    simp [isColonOrSpace, hc]
  rcases Nat.lt_trichotomy y x with hlt | rfl | hgt
  · exact Pattern.testAt_mono hspace (hbefore y h1 hlt)
  · rw [Text.testAt_of_getElem? hx]
    decide
  · exact Pattern.testAt_mono hspace (hafter y hgt h2)

theorem ColonBetween.packed {u : Text} {k v : Nat} (h : ColonBetween u k v) : pack (u.slice k v) = [':'] := by
  obtain ⟨x, hkx, hxv, hx, hbefore, hafter⟩ := h
  rw [← Text.slice_append u hkx (Nat.le_of_lt hxv), ← Text.slice_append u (Nat.le_succ x) hxv,
    pack_append, pack_append, Text.pack_slice_eq_nil hbefore, Text.pack_slice_eq_nil hafter,
    Text.slice_one hx]
  rfl

/-- The code of a name and a value with a colon between them. -/
theorem packedCode_entry {p : Profile} {t : Text} {n k v b : Nat} {c : Char} (hstops : Scanned.Stops p t k)
    (hname : ∀ ds, Seam p (t.slice n k) ds) (hnk : n ≤ k)
    (hquotes : ∀ d ∈ p.quotes ++ ['/', '(', ')'], isColonOrSpace d = false)
    (hcolon : ColonBetween (Scanned.scan p t).masked k v) (hcode : (Scanned.scan p t).masked[v]? = some c)
    (hspace : Text.isSpace c = false) (hvb : v ≤ b) :
    packedCode p (t.slice n b) = packedCode p (t.slice n k) ++ ':' :: packedCode p (t.slice v b) := by
  have hkv : k ≤ v := by
    obtain ⟨x, hkx, hxv, -⟩ := hcolon
    omega
  obtain ⟨-, hgap⟩ := hstops.packedCode_before hkv hquotes hcolon.shown hcode hspace hvb
  rw [← Text.slice_append t hnk (show k ≤ b by omega), packedCode_append (hname _), hgap, hcolon.packed]
  rfl

end MemberOrder.Layout
