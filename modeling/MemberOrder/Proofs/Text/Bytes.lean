/-
  Bytes that are read as a text are the bytes of that text.

  A character that is read from some bytes is written as those bytes (`encodeChar_of_decodeChar`): the
  shortest form is the only one that is read, so nothing else than what is written can be read. Hence
  what is read from bytes is written as the same bytes again (`encode_of_decode`), but for a byte order
  mark, which is dropped before reading and not part of the text (`bytes_of_decodeFile`).
-/
import MemberOrder.Proofs.Fallible
import MemberOrder.Text.Utf8

namespace MemberOrder.Utf8

/-! ## Characters -/

theorem toNat_ofNat {n : Nat} (h : n < 0xD800 ∨ 0xDFFF < n ∧ n < 0x110000) : (Char.ofNat n).toNat = n := by
  have hvalid : n.isValidChar := h
  rw [Char.ofNat, dif_pos hvalid]
  rfl

theorem ofNat_eq {b : UInt8} {n : Nat} (h : n = b.toNat) : UInt8.ofNat n = b := by
  rw [h, UInt8.ofNat_toNat]

/-- A byte that goes on with a character is told by its six bits. -/
theorem toNat_of_isContinuation {b : UInt8} (h : isContinuation b = true) : b.toNat = 0x80 + bits b := by
  rw [isContinuation, beq_iff_eq] at h
  rw [bits]
  omega

theorem bits_lt (b : UInt8) : bits b < 64 := Nat.mod_lt _ (by decide)

theorem encodeChar_one {n : Nat} {a : UInt8} (hn : n = a.toNat) (h : n < 0x80) :
    encodeChar (Char.ofNat n) = [a] := by
  rw [encodeChar, toNat_ofNat (.inl (by omega)), if_pos h, ofNat_eq hn]

theorem encodeChar_two {n : Nat} {a b : UInt8} (hn : n = (a.toNat - 0xC0) * 64 + bits b)
    (ha : 0xC2 ≤ a.toNat) (ha' : a.toNat < 0xE0) (hb : isContinuation b = true) :
    encodeChar (Char.ofNat n) = [a, b] := by
  have hbits := bits_lt b
  have hb := toNat_of_isContinuation hb
  rw [encodeChar, toNat_ofNat (.inl (by omega)), if_neg (by omega), if_pos (by omega)]
  simp only [List.cons.injEq, Nat.pow_eq, Nat.pow_zero, Nat.div_one, and_true]
  exact ⟨ofNat_eq (by omega), ofNat_eq (by omega)⟩

theorem encodeChar_three {n : Nat} {a b c : UInt8}
    (hn : n = ((a.toNat - 0xE0) * 64 + bits b) * 64 + bits c) (ha : 0xE0 ≤ a.toNat) (ha' : a.toNat < 0xF0)
    (hb : isContinuation b = true) (hc : isContinuation c = true)
    (hlow : a.toNat = 0xE0 → 0xA0 ≤ b.toNat) (hhigh : a.toNat = 0xED → b.toNat < 0xA0) :
    encodeChar (Char.ofNat n) = [a, b, c] := by
  have hbits := bits_lt b
  have hbits' := bits_lt c
  have hb := toNat_of_isContinuation hb
  have hc := toNat_of_isContinuation hc
  rw [encodeChar, toNat_ofNat (by omega), if_neg (by omega), if_neg (by omega), if_pos (by omega)]
  simp only [List.cons.injEq, Nat.pow_eq, Nat.pow_zero, Nat.pow_one, Nat.div_one, and_true]
  exact ⟨ofNat_eq (by omega), ofNat_eq (by omega), ofNat_eq (by omega)⟩

theorem encodeChar_four {n : Nat} {a b c d : UInt8}
    (hn : n = (((a.toNat - 0xF0) * 64 + bits b) * 64 + bits c) * 64 + bits d) (ha : 0xF0 ≤ a.toNat)
    (ha' : a.toNat < 0xF5) (hb : isContinuation b = true) (hc : isContinuation c = true)
    (hd : isContinuation d = true) (hlow : a.toNat = 0xF0 → 0x90 ≤ b.toNat)
    (hhigh : a.toNat = 0xF4 → b.toNat < 0x90) : encodeChar (Char.ofNat n) = [a, b, c, d] := by
  have hbits := bits_lt b
  have hbits' := bits_lt c
  have hbits'' := bits_lt d
  have hb := toNat_of_isContinuation hb
  have hc := toNat_of_isContinuation hc
  have hd := toNat_of_isContinuation hd
  rw [encodeChar, toNat_ofNat (by omega), if_neg (by omega), if_neg (by omega), if_neg (by omega)]
  simp only [List.cons.injEq, Nat.pow_eq, Nat.pow_zero, Nat.pow_one, Nat.reducePow, Nat.div_one, and_true]
  exact ⟨ofNat_eq (by omega), ofNat_eq (by omega), ofNat_eq (by omega), ofNat_eq (by omega)⟩

/-- The second of three or four bytes goes on with the character, and rules out longer forms and
characters that are none. -/
theorem second_byte {b : UInt8} {lead limit low high : Nat}
    (h : ¬ (!isContinuation b || (if b.toNat < limit then lead == low else lead == high)) = true) :
    isContinuation b = true ∧ (lead = low → limit ≤ b.toNat) ∧ (lead = high → b.toNat < limit) := by
  rw [Bool.not_eq_true, Bool.or_eq_false_iff, Bool.not_eq_false'] at h
  refine ⟨h.1, fun heq => Nat.le_of_not_lt fun hlt => ?_, fun heq => Nat.lt_of_not_le fun hge => ?_⟩
  · simp [hlt, heq] at h
  · simp [Nat.not_lt.mpr hge, heq] at h

/-- A character that is read from bytes is written as these bytes. -/
theorem encodeChar_of_decodeChar {first : UInt8} {rest : List UInt8} {c : Char} {width : Nat}
    (h : decodeChar first rest = .ok (c, width)) :
    encodeChar c ++ rest.drop (width - 1) = first :: rest := by
  have hlead : first.toNat < 256 := first.toNat_lt
  unfold decodeChar at h
  dsimp only at h
  by_cases hone : first.toNat < 0x80
  · rw [if_pos hone] at h
    cases h
    rw [encodeChar_one rfl hone]
    rfl
  rw [if_neg hone] at h
  by_cases hstart : first.toNat < 0xC2
  · rw [if_pos hstart] at h
    cases h
  rw [if_neg hstart] at h
  by_cases htwo : first.toNat < 0xE0
  · rw [if_pos htwo] at h
    cases rest with
    | nil => cases h
    | cons b rest =>
      dsimp only at h
      split at h
      · cases h
        rw [encodeChar_two rfl (by omega) htwo ‹_›]
        rfl
      · cases h
  rw [if_neg htwo] at h
  by_cases hthree : first.toNat < 0xF0
  · rw [if_pos hthree] at h
    cases rest with
    | nil => cases h
    | cons b rest =>
      dsimp only at h
      by_cases hsecond : (!isContinuation b ||
          (if b.toNat < 0xA0 then first.toNat == 0xE0 else first.toNat == 0xED)) = true
      · rw [if_pos hsecond] at h
        cases h
      · rw [if_neg hsecond] at h
        obtain ⟨hb, hlow, hhigh⟩ := second_byte hsecond
        cases rest with
        | nil => cases h
        | cons d rest =>
          dsimp only at h
          split at h
          · cases h
            rw [encodeChar_three rfl (by omega) hthree hb ‹_› hlow hhigh]
            rfl
          · cases h
  rw [if_neg hthree] at h
  by_cases hfour : first.toNat < 0xF5
  · rw [if_pos hfour] at h
    cases rest with
    | nil => cases h
    | cons b rest =>
      dsimp only at h
      by_cases hsecond : (!isContinuation b ||
          (if b.toNat < 0x90 then first.toNat == 0xF0 else first.toNat == 0xF4)) = true
      · rw [if_pos hsecond] at h
        cases h
      · rw [if_neg hsecond] at h
        obtain ⟨hb, hlow, hhigh⟩ := second_byte hsecond
        cases rest with
        | nil => cases h
        | cons d rest =>
          dsimp only at h
          split at h
          · cases h
          · rename_i hthird
            rw [Bool.not_eq_true, Bool.not_eq_false'] at hthird
            cases rest with
            | nil => cases h
            | cons x rest =>
              dsimp only at h
              split at h
              · cases h
                rw [encodeChar_four rfl (by omega) hfour hb hthird ‹_› hlow hhigh]
                rfl
              · cases h
  · rw [if_neg hfour] at h
    cases h

/-! ## Texts -/

theorem encode_append (a b : List Char) : encode (a ++ b) = encode a ++ encode b := List.flatMap_append

theorem encode_of_decodeFrom {fuel offset : Nat} {bytes : List UInt8} {cs : List Char}
    (hfuel : bytes.length ≤ fuel) (h : decodeFrom fuel offset bytes = .ok cs) : encode cs = bytes := by
  induction fuel generalizing offset bytes cs with
  | zero =>
    cases h
    exact (List.length_eq_zero_iff.mp (Nat.le_zero.mp hfuel)).symm
  | succ fuel ih =>
    cases bytes with
    | nil =>
      cases h
      rfl
    | cons first rest =>
      rw [decodeFrom] at h
      split at h
      · cases h
      · rename_i c width hchar
        obtain ⟨more, hmore, heq⟩ := bind_ok h
        cases heq
        have hshort : (rest.drop (width - 1)).length ≤ fuel := by
          rw [List.length_cons] at hfuel
          rw [List.length_drop]
          omega
        show encodeChar c ++ encode more = _
        rw [ih hshort hmore, encodeChar_of_decodeChar hchar]

/-- What bytes are read as is written as these bytes. -/
theorem encode_of_decode {bytes : List UInt8} {cs : List Char} (h : decode bytes = .ok cs) :
    encode cs = bytes := encode_of_decodeFrom (Nat.le_refl _) h

/-- The bytes of a file are those of its text, after a byte order mark if there is one; or they are the
beginning of one, and the text is empty. -/
theorem bytes_of_decodeFile {bytes : List UInt8} {cs : List Char} (h : decodeFile bytes = .ok cs) :
    bytes = byteOrderMark ++ encode cs ∨ bytes = encode cs ∨ bytes <+: byteOrderMark ∧ cs = [] := by
  unfold decodeFile dropMark at h
  split at h
  · rename_i hmark
    obtain ⟨rest, rfl⟩ := List.isPrefixOf_iff_prefix.mp hmark
    refine .inl ?_
    rw [encode_of_decode h]
    rfl
  · split at h
    · rename_i hpart
      cases h
      exact .inr (.inr ⟨List.isPrefixOf_iff_prefix.mp hpart, rfl⟩)
    · exact .inr (.inl (encode_of_decode h).symm)

end MemberOrder.Utf8
