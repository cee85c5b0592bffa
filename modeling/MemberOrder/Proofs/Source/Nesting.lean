/-
  Matching brackets nest. The bracket that closes another one stands after it and is a closing
  bracket (`close?_some`). A bracket opened between two matching ones is closed no later than
  they are (`close?_le_close?`, `close?_lt_close?`), and reading goes on behind it (`closeFrom_append`).
-/
import MemberOrder.Source.Brackets

namespace MemberOrder.Brackets

variable {pairs : List (Char × Char)} {t : Text}

/-- What `closeFrom` finds lies ahead and is a closing bracket; with nothing expected, it first
has to meet an opening one. -/
theorem closeFrom_some {fuel i close : Nat} {expected : List Char}
    (h : closeFrom pairs t fuel i expected = some close) :
    i ≤ close ∧ close < t.size ∧ (∃ c, t[close]? = some c ∧ pairs.any (·.2 == c) = true) ∧
      (expected = [] → i < close) := by
  induction fuel generalizing i expected with
  | zero => simp [closeFrom] at h
  | succ fuel ih =>
    simp only [closeFrom] at h
    split at h
    · cases h
    · rename_i c hc
      have hi : i < t.size := (Array.getElem?_eq_some_iff.mp hc).1
      split at h
      · obtain ⟨h1, h2, h3, -⟩ := ih h
        exact ⟨by omega, h2, h3, fun _ => by omega⟩
      · split at h
        · rename_i hcloses
          split at h
          · cases h
          · split at h
            · cases h
            · split at h
              · cases h
                exact ⟨Nat.le_refl _, hi, ⟨c, hc, hcloses⟩, by simp⟩
              · obtain ⟨h1, h2, h3, -⟩ := ih h
                exact ⟨by omega, h2, h3, by simp⟩
        · obtain ⟨h1, h2, h3, h4⟩ := ih h
          exact ⟨by omega, h2, h3, fun he => by have := h4 he; omega⟩

theorem close?_some {start close : Nat} (h : close? pairs t start = some close) :
    start < close ∧ close < t.size ∧ ∃ c, t[close]? = some c ∧ pairs.any (·.2 == c) = true := by
  obtain ⟨-, h2, h3, h4⟩ := closeFrom_some h
  exact ⟨h4 rfl, h2, h3⟩

example : close? all (Text.ofString "f(a[0])") 1 = some 6 := by cbv

/-- The bracket that is found is the one expected last. -/
theorem closeFrom_closer {fuel i close : Nat} {expected : List Char} (hne : expected ≠ [])
    (h : closeFrom pairs t fuel i expected = some close) : t[close]? = expected.getLast? := by
  induction fuel generalizing i expected with
  | zero => cases h
  | succ fuel ih =>
    obtain ⟨want, outer, rfl⟩ := List.exists_cons_of_ne_nil hne
    simp only [closeFrom] at h
    split at h
    · cases h
    · rename_i c hc
      split at h
      · rw [ih (List.cons_ne_nil _ _) h, List.getLast?_cons_cons]
      · split at h
        · split at h
          · cases h
          · rename_i hwant
            split at h
            · rename_i hlast
              cases h
              obtain rfl : want = c := by simpa using hwant
              rw [List.isEmpty_iff.mp hlast, hc]
              rfl
            · rename_i hmore
              have hmore : outer ≠ [] := fun h => hmore (List.isEmpty_iff.mpr h)
              rw [ih hmore h, List.getLast?_cons_of_ne_nil hmore]
        · exact ih (List.cons_ne_nil _ _) h

theorem close?_closer {start close : Nat} {b closer : Char} (hb : t[start]? = some b)
    (hopen : pairs.lookup b = some closer) (h : close? pairs t start = some close) :
    t[close]? = some closer := by
  have hsize : start < t.size := (Array.getElem?_eq_some_iff.mp hb).1
  obtain ⟨n, hn⟩ : ∃ n, t.size - start = n + 1 := ⟨t.size - start - 1, by omega⟩
  rw [close?, hn] at h
  simp only [closeFrom, hb, hopen] at h
  exact closeFrom_closer (List.cons_ne_nil closer []) h

/-- Reading on from a place in between leads to the same end. -/
theorem closeFrom_resume {fuel a close : Nat} {expected : List Char}
    (h : closeFrom pairs t fuel a expected = some close) {i : Nat} (ha : a ≤ i) (hi : i ≤ close) :
    ∃ expected', (expected ≠ [] → expected' ≠ []) ∧
      closeFrom pairs t (fuel - (i - a)) i expected' = some close := by
  induction fuel generalizing a expected with
  | zero => simp [closeFrom] at h
  | succ fuel ih =>
    rcases Nat.eq_or_lt_of_le ha with rfl | ha
    · exact ⟨expected, id, by simpa using h⟩
    · have hfuel : fuel + 1 - (i - a) = fuel - (i - (a + 1)) := by omega
      rw [hfuel]
      simp only [closeFrom] at h
      split at h
      · cases h
      · split at h
        · obtain ⟨expected', hne, h'⟩ := ih h ha
          exact ⟨expected', fun _ => hne (by simp), h'⟩
        · split at h
          · split at h
            · cases h
            · split at h
              · cases h
              · split at h
                · cases h
                  omega
                · rename_i hmore
                  obtain ⟨expected', hne, h'⟩ := ih h ha
                  exact ⟨expected', fun _ => hne (by simpa [List.isEmpty_iff] using hmore), h'⟩
          · exact ih h ha

/-- More expected brackets are closed later. -/
theorem closeFrom_append_le {fuel i close far : Nat} {expected outer : List Char}
    (hne : expected ≠ []) (h : closeFrom pairs t fuel i expected = some close)
    (hfar : closeFrom pairs t fuel i (expected ++ outer) = some far) :
    close ≤ far ∧ (outer ≠ [] → close < far) := by
  induction fuel generalizing i expected with
  | zero => simp [closeFrom] at h
  | succ fuel ih =>
    obtain ⟨want, inner, rfl⟩ := List.exists_cons_of_ne_nil hne
    simp only [closeFrom] at h
    simp only [closeFrom, List.cons_append] at hfar
    split at h
    · cases h
    · rename_i c hc
      simp only [hc] at hfar
      split at h
      · rename_i closer hopen
        simp only [hopen] at hfar
        exact ih (by simp) h (by simpa using hfar)
      · rename_i hopen
        simp only [hopen] at hfar
        split at h
        · rename_i hcloses
          rw [if_pos hcloses] at hfar
          split at h
          · cases h
          · rename_i hwant
            rw [if_neg hwant] at hfar
            split at h
            · rename_i hlast
              cases h
              rw [List.isEmpty_iff] at hlast
              subst hlast
              split at hfar
              · rename_i hnone
                cases hfar
                exact ⟨Nat.le_refl _, fun hmore => absurd (by simpa using hnone) hmore⟩
              · have := (closeFrom_some hfar).1
                omega
            · rename_i hmore
              rw [List.isEmpty_iff] at hmore
              rw [if_neg (by simp [hmore])] at hfar
              exact ih hmore h hfar
        · rename_i hcloses
          rw [if_neg hcloses] at hfar
          exact ih (by simp) h (by simpa using hfar)

/-- More expected brackets are closed after the first ones, reading on from there. -/
theorem closeFrom_append {fuel i far : Nat} {expected outer : List Char} (hne : expected ≠ [])
    (houter : outer ≠ []) (h : closeFrom pairs t fuel i (expected ++ outer) = some far) :
    ∃ close, closeFrom pairs t fuel i expected = some close ∧
      closeFrom pairs t (fuel - (close + 1 - i)) (close + 1) outer = some far := by
  induction fuel generalizing i expected with
  | zero => cases h
  | succ fuel ih =>
    obtain ⟨want, inner, rfl⟩ := List.exists_cons_of_ne_nil hne
    simp only [closeFrom, List.cons_append] at h ⊢
    -- what is found further on is found from here on
    have hlater {expected : List Char} (h : ∃ close, closeFrom pairs t fuel (i + 1) expected = some close ∧
          closeFrom pairs t (fuel - (close + 1 - (i + 1))) (close + 1) outer = some far) :
        ∃ close, closeFrom pairs t fuel (i + 1) expected = some close ∧
          closeFrom pairs t (fuel + 1 - (close + 1 - i)) (close + 1) outer = some far := by
      obtain ⟨close, hclose, hrest⟩ := h
      have hle := (closeFrom_some hclose).1
      exact ⟨close, hclose, by rwa [show fuel + 1 - (close + 1 - i) = fuel - (close + 1 - (i + 1)) by omega]⟩
    split at h
    · cases h
    · split at h
      · exact hlater (ih (List.cons_ne_nil _ _) h)
      · split at h
        · split at h
          · cases h
          · rename_i hcloses hwant
            rw [if_neg (by simp [houter])] at h
            rw [if_pos hcloses, if_neg hwant]
            split
            · rename_i hlast
              rw [List.isEmpty_iff.mp hlast] at h
              exact ⟨i, rfl, by rwa [show fuel + 1 - (i + 1 - i) = fuel by omega]⟩
            · rename_i hmore
              exact hlater (ih (fun hnil => hmore (List.isEmpty_iff.mpr hnil)) h)
        · rename_i hcloses
          rw [if_neg hcloses]
          exact hlater (ih (List.cons_ne_nil _ _) h)

/-- A bracket opened between two matching ones is closed no later than they are. -/
theorem close?_le_close? {start outer i inner : Nat} {c closer : Char}
    (houter : close? pairs t start = some outer) (hs : start ≤ i) (hi : i ≤ outer)
    (hc : t[i]? = some c) (hopen : pairs.lookup c = some closer)
    (hinner : close? pairs t i = some inner) : inner ≤ outer := by
  obtain ⟨expected, -, hrest⟩ := closeFrom_resume houter hs hi
  have hsize : i < t.size := (Array.getElem?_eq_some_iff.mp hc).1
  obtain ⟨fuel, hfuel⟩ : ∃ fuel, t.size - i = fuel + 1 := ⟨t.size - i - 1, by omega⟩
  rw [show t.size - start - (i - start) = fuel + 1 by omega] at hrest
  unfold close? at hinner
  rw [hfuel] at hinner
  simp only [closeFrom, hc, hopen] at hrest hinner
  exact (closeFrom_append_le (List.cons_ne_nil closer []) hinner hrest).1

/-- A bracket opened after another one and before its end is closed before it. -/
theorem close?_lt_close? {start outer i inner : Nat} {b c opened closer : Char}
    (houter : close? pairs t start = some outer) (hb : t[start]? = some b)
    (hbopen : pairs.lookup b = some opened) (hs : start < i) (hi : i ≤ outer)
    (hc : t[i]? = some c) (hopen : pairs.lookup c = some closer)
    (hinner : close? pairs t i = some inner) : inner < outer := by
  have hsize : i < t.size := (Array.getElem?_eq_some_iff.mp hc).1
  obtain ⟨n, hn⟩ : ∃ n, t.size - start = n + 1 := ⟨t.size - start - 1, by omega⟩
  unfold close? at houter hinner
  rw [hn] at houter
  simp only [closeFrom, hb, hbopen] at houter
  obtain ⟨expected, hne, hrest⟩ := closeFrom_resume houter (Nat.succ_le_of_lt hs) hi
  obtain ⟨fuel, hfuel⟩ : ∃ fuel, t.size - i = fuel + 1 := ⟨t.size - i - 1, by omega⟩
  rw [show n - (i - (start + 1)) = fuel + 1 by omega] at hrest
  rw [hfuel] at hinner
  simp only [closeFrom, hc, hopen] at hrest hinner
  exact (closeFrom_append_le (List.cons_ne_nil closer []) hinner hrest).2 (hne (by simp))

end MemberOrder.Brackets
