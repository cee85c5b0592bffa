/-
  The items of a style block follow each other (`items_chain`).

  An item starts with a character that is neither white space, a semicolon nor a closing bracket.
  A declaration holds the colon that makes it one (`colon_of_declaration`): the pattern of a
  declaration passes over no semicolon and no bracket, so it cannot reach past the end of the
  statement.
-/
import MemberOrder.Proofs.Pattern.Matches
import MemberOrder.Proofs.Placement.Basic
import MemberOrder.Proofs.Source.Nesting
import MemberOrder.Style.Document
import MemberOrder.Style.Items

namespace MemberOrder.Style

/-- A character that starts an item. -/
def startsItem (c : Char) : Bool := !Text.isSpace c && c != ';' && c != '}'

/-- A place where a block ends: at its bracket, or at the end of the text. -/
def EndsBlock (s : Scanned) (i : Nat) : Prop := s.masked[i]? = some '}' ∨ i = s.masked.size

/-- A place where a statement ends: at a semicolon, or with its block. -/
def EndsStatement (s : Scanned) (i : Nat) : Prop := s.masked[i]? = some ';' ∨ EndsBlock s i

/-- The text of an item with its separator or its brackets. -/
def Item.WellCut (s : Scanned) : Item → Prop
  | .declaration start stop semicolon =>
    start < stop ∧ s.masked.testAt (stop - 1) Text.isSpace = false ∧
      (Style.declaration.matchAt? s.masked start s.masked.size).isSome = true ∧
      (∃ x, start ≤ x ∧ x < stop ∧ s.masked[x]? = some ':') ∧
      (semicolon = none → ∃ x, stop ≤ x ∧ EndsBlock s x ∧
        ∀ y, stop ≤ y → y < x → s.masked.testAt y Text.isSpace = true) ∧
      ∀ place, semicolon = some place → stop ≤ place ∧ s.masked[place]? = some ';' ∧
        ∀ x, stop ≤ x → x < place → s.masked.testAt x Text.isSpace = true
  | .statement start stop semicolon =>
    start < stop ∧ ∀ place, semicolon = some place → stop ≤ place
  | .block start _ openAt closeAt =>
    start ≤ openAt ∧ openAt < closeAt ∧ s.masked[openAt]? = some '{' ∧
      s.masked[closeAt]? = some '}'

/-- A block ends with the bracket that closes the one it starts with. -/
def Item.Closed (s : Scanned) : Item → Prop
  | .block _ _ openAt closeAt => Brackets.close? Brackets.curly s.masked openAt = some closeAt
  | .declaration _ _ _ | .statement _ _ _ => True

/-- An item goes from `a` to `b`. -/
structure Cut (s : Scanned) (item : Item) (a b : Nat) : Prop where
  start_eq : item.start = a
  after_eq : item.after = b
  starts : s.masked.testAt item.start startsItem = true
  wellCut : item.WellCut s
  closed : item.Closed s

theorem Cut.lt {s : Scanned} {item : Item} {a b : Nat} (h : Cut s item a b) : a < b := by
  obtain ⟨rfl, rfl, -, hcut, -⟩ := h
  cases item with
  | declaration start stop semicolon =>
    obtain ⟨h1, -, -, -, -, h4⟩ := hcut
    cases semicolon with
    | none => exact h1
    | some place =>
      have := (h4 place rfl).1
      simp only [Item.start, Item.after]
      omega
  | statement start stop semicolon =>
    obtain ⟨h1, h2⟩ := hcut
    cases semicolon with
    | none => exact h1
    | some place =>
      have := h2 place rfl
      simp only [Item.start, Item.after]
      omega
  | block start stop openAt closeAt =>
    obtain ⟨h1, h2, -⟩ := hcut
    simp only [Item.start, Item.after]
    omega

theorem Cut.le {s : Scanned} {item : Item} {a b : Nat} (h : Cut s item a b) : a ≤ b :=
  Nat.le_of_lt h.lt

/-! ## Declarations -/

/-- A character that ends no statement. -/
def goesOn (c : Char) : Bool := c != ';' && c != '}'

theorem goesOn_of {f : Char → Bool} (h1 : f ';' = false) (h2 : f '}' = false) (c : Char)
    (hc : f c = true) : goesOn c = true := by
  simp only [goesOn, bne_iff_ne, ne_eq, Bool.and_eq_true]
  constructor
  · rintro rfl
    rw [h1] at hc
    cases hc
  · rintro rfl
    rw [h2] at hc
    cases hc

theorem within_declaration : Pattern.Within goesOn declaration := by
  have hone : ∀ {f : Char → Bool}, f ';' = false → f '}' = false → Pattern.Within goesOn (.one f) :=
    fun h1 h2 => Pattern.within_one (goesOn_of h1 h2)
  have hspan : ∀ {f : Char → Bool}, f ';' = false → f '}' = false →
      Pattern.Within goesOn (.span f) := fun h1 h2 => Pattern.within_span (goesOn_of h1 h2)
  refine Pattern.within_seq (Pattern.within_mark _ (Pattern.within_either ?_ ?_))
    (Pattern.within_seq (hspan (by decide) (by decide)) (hone (by decide) (by decide)))
  · exact Pattern.within_seq
      (Pattern.within_seq (hone (by decide) (by decide)) (hone (by decide) (by decide)))
      (Pattern.within_seq (hone (by decide) (by decide)) (hspan (by decide) (by decide)))
  · exact Pattern.within_seq
      (Pattern.within_either (hone (by decide) (by decide)) Pattern.within_empty)
      (Pattern.within_seq (hone (by decide) (by decide)) (hspan (by decide) (by decide)))

theorem endsIn_declaration : Pattern.EndsIn (· == ':') declaration :=
  Pattern.endsIn_seq _ (Pattern.endsIn_seq _ (Pattern.endsIn_one _))

/-- A declaration holds its colon. -/
theorem colon_of_declaration {s : Scanned} {start i : Nat} (hi : EndsStatement s i)
    (hle : start ≤ i) (h : (declaration.matchAt? s.masked start s.masked.size).isSome = true) :
    ∃ x, start ≤ x ∧ x < s.prevCode i start ∧ s.masked[x]? = some ':' := by
  obtain ⟨m, hm⟩ := Option.isSome_iff_exists.mp h
  obtain ⟨-, hmatch⟩ := Pattern.matchAt?_matches hm
  obtain ⟨hlt, hcolon⟩ := endsIn_declaration _ _ _ _ _ hmatch
  obtain ⟨c, hc, hcc⟩ := Text.testAt_iff.mp hcolon
  rw [beq_iff_eq] at hcc
  subst hcc
  have hstop : m.stop ≤ i := by
    refine Nat.le_of_not_lt fun hin => ?_
    rcases hi with hi | hi | hi
    · have := within_declaration _ _ _ _ _ hmatch i hle hin
      rw [Text.testAt_of_getElem? hi] at this
      cases this
    · have := within_declaration _ _ _ _ _ hmatch i hle hin
      rw [Text.testAt_of_getElem? hi] at this
      cases this
    · have := (Array.getElem?_eq_some_iff.mp hc).1
      omega
  refine ⟨m.stop - 1, by omega, ?_, hc⟩
  refine Text.lt_prevCode_of_code ?_ (by omega)
  rw [Text.testAt_of_getElem? hc]
  decide

theorem code_of_starts {s : Scanned} {i : Nat} (h : s.masked.testAt i startsItem = true) :
    s.masked.testAt i Text.isSpace = false := by
  obtain ⟨c, hc, hstarts⟩ := Text.testAt_iff.mp h
  simp only [startsItem, Bool.and_eq_true, Bool.not_eq_true'] at hstarts
  rw [Text.testAt_of_getElem? hc]
  exact hstarts.1.1

/-- A statement that starts like an item and ends where statements end is well cut. -/
theorem statementItem_cut {s : Scanned} {start i : Nat} {semicolon : Option Nat}
    (hstart : s.masked.testAt start startsItem = true) (hlt : start < i)
    (hi : EndsStatement s i) (hend : semicolon = none → EndsBlock s i)
    (hsemi : ∀ place, semicolon = some place → place = i ∧ s.masked[i]? = some ';') :
    Cut s (statementItem s start (s.prevCode i start) semicolon) start
      (pastSeparator (s.prevCode i start) semicolon) := by
  have hcode := code_of_starts hstart
  have h1 : start < s.prevCode i start := Text.lt_prevCode_of_code hcode hlt
  have h2 : s.prevCode i start ≤ i := Text.prevCode_le _ _ _
  unfold statementItem
  split
  · rename_i hdecl
    refine ⟨rfl, rfl, hstart, ⟨h1, Text.code_before_prevCode h1, hdecl,
      colon_of_declaration hi (Nat.le_of_lt hlt) hdecl,
      fun hnone => ⟨i, h2, hend hnone, fun x hx hx' => Text.space_after_prevCode hx hx'⟩, ?_⟩, trivial⟩
    intro place hplace
    obtain ⟨rfl, hc⟩ := hsemi place hplace
    exact ⟨h2, hc, fun x hx hx' => Text.space_after_prevCode hx hx'⟩
  · refine ⟨rfl, rfl, hstart, ⟨h1, ?_⟩, trivial⟩
    intro place hplace
    rw [(hsemi place hplace).1]
    exact h2

/-! ## Items -/

/-- A reader of items finds a chain from where the current statement starts, or from where it
reads on. -/
def FindsChain (s : Scanned) (stop : Nat) (next : (i depth : Nat) → Option Nat → Items) : Prop :=
  ∀ i depth, i ≤ stop →
    Chain (Cut s) i stop (next i depth none).1 ∧
    ∀ start, start < i → s.masked.testAt start startsItem = true →
      Chain (Cut s) start stop (next i depth (some start)).1

theorem readItem_chain {s : Scanned} {stop : Nat} {next : (i depth : Nat) → Option Nat → Items}
    (hnext : FindsChain s stop next) {i start : Nat} (depth : Nat) {c : Char} (hi : i < stop)
    (hc : s.masked[i]? = some c) (hstart : s.masked.testAt start startsItem = true)
    (hle : start < i ∨ start = i ∧ startsItem c = true) :
    Chain (Cut s) start stop (readItem s stop next i depth start c).1 := by
  have hon : ∀ depth, Chain (Cut s) start stop (next (i + 1) depth (some start)).1 := fun depth =>
    (hnext (i + 1) depth hi).2 start (by omega) hstart
  unfold readItem
  split
  · exact hon _
  · split
    · exact hon _
    · split
      · rename_i hopen
        rw [beq_iff_eq] at hopen
        subst hopen
        split
        · exact .nil (by omega)
        · rename_i close hclose
          obtain ⟨hclose, hstop⟩ := Option.filter_eq_some_iff.mp hclose
          rw [decide_eq_true_eq] at hstop
          obtain ⟨h1, -, c', hc', hcl⟩ := Brackets.close?_some hclose
          simp only [Brackets.curly, List.any_cons, List.any_nil, Bool.or_false, beq_iff_eq] at hcl
          subst hcl
          split
          · exact .cons (Nat.le_refl start) ⟨rfl, rfl, hstart, ⟨by omega, h1, hc, hc'⟩, hclose⟩
              (hnext (close + 1) depth hstop).1
          · exact (hnext (close + 1) depth hstop).2 start (by omega) hstart
      · split
        · exact ((hnext (i + 1) depth hi).1).weaken (by omega) (Nat.le_refl stop)
        · split
          · rename_i hsemi
            rw [Bool.and_eq_true, beq_iff_eq] at hsemi
            have hc := hsemi.1 ▸ hc
            have hlt : start < i := by
              rcases hle with h | ⟨-, h⟩
              · exact h
              · rw [hsemi.1] at h
                cases h
            refine .cons (Nat.le_refl start) (statementItem_cut hstart hlt (Or.inl hc) (by simp) ?_)
              (hnext (i + 1) depth hi).1
            intro place heq
            cases heq
            exact ⟨rfl, hc⟩
          · exact hon _

theorem itemsFrom_chain {s : Scanned} {stop : Nat} (hstop : EndsBlock s stop) (fuel : Nat) :
    FindsChain s stop (itemsFrom s stop fuel) := by
  induction fuel with
  | zero => exact fun i depth hi => ⟨.nil hi, fun start hlt _ => .nil (by omega)⟩
  | succ fuel ih =>
    intro i depth hi
    by_cases hlt : i < stop
    · cases hc : s.masked[i]? with
      | none =>
        simp only [itemsFrom, if_pos hlt, hc]
        exact ⟨.nil hi, fun start hlt _ => .nil (by omega)⟩
      | some c =>
        simp only [itemsFrom, if_pos hlt, hc]
        refine ⟨?_, fun start hs hstart => readItem_chain ih depth hlt hc hstart (Or.inl hs)⟩
        split
        · exact ((ih (i + 1) depth hlt).1).weaken (Nat.le_succ i) (Nat.le_refl stop)
        · rename_i hskip
          split
          · exact ((ih (i + 1) depth hlt).1).weaken (Nat.le_succ i) (Nat.le_refl stop)
          · rename_i hclose
            have hstarts : startsItem c = true := by
              simp only [Bool.or_eq_true, not_or, Bool.not_eq_true] at hskip
              simp only [startsItem, Bool.and_eq_true, Bool.not_eq_true', bne]
              exact ⟨⟨hskip.1, hskip.2⟩, by simpa using hclose⟩
            have hstart : s.masked.testAt i startsItem = true := by
              rw [Text.testAt_of_getElem? hc]
              exact hstarts
            exact readItem_chain ih depth hlt hc hstart (Or.inr ⟨rfl, hstarts⟩)
    · simp only [itemsFrom, if_neg hlt]
      refine ⟨.nil hi, fun start hs hstart => ?_⟩
      obtain rfl : i = stop := by omega
      have h1 : start < s.prevCode i start := Text.lt_prevCode_of_code (code_of_starts hstart) hs
      rw [if_pos h1]
      exact .cons (Nat.le_refl start) (statementItem_cut hstart hs (Or.inr hstop) (fun _ => hstop) (by simp))
        (.nil (Text.prevCode_le _ _ _))

/-- The items of a block follow each other inside it. -/
theorem items_chain {s : Scanned} {lo hi : Nat} (h : lo ≤ hi) (hhi : EndsBlock s hi) :
    Chain (Cut s) lo hi (items s lo hi).1 :=
  (itemsFrom_chain hhi _ lo 0 h).1

end MemberOrder.Style

/-!
## The comments after the members of a style sheet

Comments are looked for after a member as far as a limit: the closing bracket of a block
(`Sheet.Closed`), or for a run of declarations, which has none, the end of the line of the last one
(`Sheet.Open`). A `Trail` is a member with all comments that come after it on its line and end no
later than the limit; after a member that is not the last of its list another one starts before the
limit (`TrailsTo`). What the readers of a sheet prove of their entities is `EntityTrails`.
-/

namespace MemberOrder.Style

open Attachment

/-- A declaration or a step, in offsets of the scanned text, with the comments after it up to a limit. -/
structure Sheet.Trail (d : Sheet) (limit : Nat) (i : MemberInfo) (stop : Nat) (place : Option Nat) :
    Prop where
  placed : ∃ start first last, i.span = some (d.span start stop) ∧ i.unit = some (d.span first last) ∧
    first ≤ stop ∧ last ≤ limit ∧ ∀ c ∈ i.trailingComments, stop ≤ c.offset ∧ c.stop ≤ last
  code : d.scanned.masked.testAt (stop - 1) Text.isSpace = false
  separator : i.separator = if d.isIndented || place.isNone then "" else ";"
  next : ∀ x, place = some x → stop ≤ x ∧ d.scanned.masked[x]? = some ';' ∧
    ∀ y, stop ≤ y → y < x → d.scanned.masked.testAt y Text.isSpace = true
  bare : i.hasNestedObject = false → place = none → ∃ x, stop ≤ x ∧ EndsBlock d.scanned x ∧
    ∀ y, stop ≤ y → y < x → d.scanned.masked.testAt y Text.isSpace = true
  le_limit : pastSeparator stop place ≤ limit
  early : ∀ x, place = some x → ∀ c ∈ d.scanned.comments, stop ≤ c.offset → c.stop ≤ x →
    c ∈ i.trailingComments
  held : ∀ c ∈ d.scanned.comments, Trails d.scanned d.trailingSkip (pastSeparator stop place) c →
    c.stop ≤ limit → c ∈ i.trailingComments

/-- A comment comes after a member: on the line that the member ends on, or before its separator. -/
def Sheet.ComesAfter (d : Sheet) (stop : Nat) (place : Option Nat) (c : Comment) : Prop :=
  Trails d.scanned d.trailingSkip (pastSeparator stop place) c ∨
    ∃ x, place = some x ∧ stop ≤ c.offset ∧ c.stop ≤ x

/-- A member has exactly the comments after it that end no later than the limit. -/
theorem Sheet.Trail.mem_iff {d : Sheet} {limit stop : Nat} {i : MemberInfo} {place : Option Nat}
    (h : d.Trail limit i stop place) {c : Comment} (hc : c ∈ d.scanned.comments)
    (hafter : d.ComesAfter stop place c) : c ∈ i.trailingComments ↔ c.stop ≤ limit := by
  refine ⟨fun hmem => ?_, fun hle => ?_⟩
  · obtain ⟨-, -, last, -, -, -, hlast, hinside⟩ := h.placed
    exact Nat.le_trans (hinside c hmem).2 hlast
  · rcases hafter with htrails | ⟨x, hx, h1, h2⟩
    · exact h.held c hc htrails hle
    · exact h.early x hx c hc h1 h2

/-- A comment after a member ends before the item that starts next. -/
theorem Sheet.Trail.le_of_starts {d : Sheet} {limit stop x : Nat} {i : MemberInfo} {place : Option Nat}
    (h : d.Trail limit i stop place) (hs : Orderly d.scanned d.scanned.comments) {c : Comment}
    (hc : c ∈ d.scanned.comments) (hafter : d.ComesAfter stop place c)
    (hx : pastSeparator stop place ≤ x) (hlimit : x < limit)
    (hstarts : d.scanned.masked.testAt x startsItem = true) : c.stop ≤ limit := by
  rcases hafter with htrails | ⟨y, rfl, -, hle⟩
  · have hcode := code_of_starts hstarts
    obtain ⟨e, he, hstarts⟩ := Text.testAt_iff.mp hstarts
    simp only [startsItem, Bool.and_eq_true, Bool.not_eq_true', bne_iff_ne, ne_eq] at hstarts
    by_cases hbefore : x < c.offset
    · -- the start of an item is neither white space nor a closing bracket
      have hpass := htrails.gap x hx hbefore
      rw [passes, Text.testAt_of_getElem? he, hstarts.1.1, Bool.false_or, Sheet.trailingSkip] at hpass
      split at hpass
      · exact absurd (List.mem_singleton.mp (List.contains_iff_mem.mp hpass)) hstarts.2
      · cases hpass
    · refine Nat.le_trans (Nat.le_of_not_lt fun hlt => ?_) (Nat.le_of_lt hlimit)
      have := hs.space c hc x (Nat.le_of_not_lt hbefore) hlt
      rw [hcode] at this
      cases this
  · exact Nat.le_trans hle (Nat.le_trans (Nat.le_succ y) h.le_limit)

/-- The members of a list with the comments after each; the last one ends at `base`, with its
separator, and after each other one another item starts. -/
def Sheet.TrailsTo (d : Sheet) (limit base : Nat) : List Member → Prop
  | [] => True
  | m :: rest =>
    (∃ stop place, d.Trail limit m.info stop place ∧ (rest = [] → pastSeparator stop place = base) ∧
      (rest ≠ [] → ∃ x, pastSeparator stop place ≤ x ∧ x < limit ∧
        d.scanned.masked.testAt x startsItem = true)) ∧ d.TrailsTo limit base rest

/-- Members between brackets: the limit is the closing one, where the span around them ends. -/
def Sheet.Closed (d : Sheet) (outer : Option Span) (limit : Nat) : Prop :=
  d.scanned.masked[limit]? = some '}' ∧ ∃ first, outer = some (d.span first (limit + 1))

/-- Members without brackets: the limit is the end of the line on which the last one ends, and the span
around them reaches no further. -/
structure Sheet.Open (d : Sheet) (outer : Option Span) (limit base : Nat) : Prop where
  outer_eq : ∃ first last, outer = some (d.span first last) ∧ last ≤ limit
  unbroken : ∀ x, base ≤ x → x < limit → d.scanned.source[x]? ≠ some '\n'
  ends : limit = d.scanned.source.size ∨ d.scanned.source[limit]? = some '\n'

/-- The children of a step are declarations, with the comments after each. -/
def Sheet.StepTrails (d : Sheet) (m : Member) : Prop :=
  ∀ i children, m = .group i children →
    (∃ limit base, d.Closed i.span limit ∧ d.TrailsTo limit base children) ∧
      ∀ m ∈ children, ∃ j, m = .leaf j

theorem Sheet.stepTrails_of_leaf {d : Sheet} {m : Member} (h : ∃ j, m = .leaf j) : d.StepTrails m := by
  obtain ⟨j, rfl⟩ := h
  exact fun _ _ heq => nomatch heq

/-- The members of a list have the comments after them: between brackets up to the closing one, in a
run, the entity of which has no header, up to the end of a line. -/
inductive Sheet.ListTrails (d : Sheet) (header : String) (outer : Option Span) (ms : List Member) : Prop
  | block {limit base : Nat} (hheader : d.isIndented = false → header ≠ "")
      (hclosed : d.Closed outer limit) (htrails : d.TrailsTo limit base ms)
      (hsteps : ∀ m ∈ ms, d.StepTrails m)
  | run {limit base : Nat} (hheader : header = "") (hopen : d.Open outer limit base)
      (htrails : d.TrailsTo limit base ms) (hleaf : ∀ m ∈ ms, ∃ j, m = .leaf j)

/-- The members of an entity have the comments after them. -/
abbrev Sheet.EntityTrails (d : Sheet) (e : Entity) : Prop := d.ListTrails e.header e.span e.members

/-- The first of some items starts between the bounds of their chain. -/
theorem exists_start {s : Scanned} {a b limit : Nat} {items : List Item} (h : Chain (Cut s) a b items)
    (hb : b ≤ limit) (hne : items ≠ []) :
    ∃ x, a ≤ x ∧ x < limit ∧ s.masked.testAt x startsItem = true := by
  obtain ⟨item, rest, rfl⟩ := List.exists_cons_of_ne_nil hne
  obtain ⟨i, j, hcut, hi, hj⟩ := h.of_mem (fun _ _ _ h => h.le) List.mem_cons_self
  have := hcut.lt
  have := hcut.start_eq
  exact ⟨item.start, by omega, by omega, hcut.starts⟩

/-- A member in front of others. -/
theorem Sheet.TrailsTo.cons {d : Sheet} {limit base stop : Nat} {place : Option Nat} {m : Member}
    {ms : List Member} (h : d.TrailsTo limit base ms) (hm : d.Trail limit m.info stop place)
    (hnext : ms ≠ [] → ∃ x, pastSeparator stop place ≤ x ∧ x < limit ∧
      d.scanned.masked.testAt x startsItem = true) :
    d.TrailsTo limit (if ms.isEmpty then pastSeparator stop place else base) (m :: ms) := by
  refine ⟨⟨stop, place, hm, fun hnil => by simp [hnil], hnext⟩, ?_⟩
  cases ms with
  | nil => exact trivial
  | cons next rest => exact h

/-- Each member of a list has its comments; the last one ends the list. -/
theorem Sheet.TrailsTo.of_append {d : Sheet} {limit base : Nat} {front rest : List Member} {m : Member}
    (h : d.TrailsTo limit base (front ++ m :: rest)) :
    ∃ stop place, d.Trail limit m.info stop place ∧ (rest = [] → pastSeparator stop place = base) ∧
      (rest ≠ [] → ∃ x, pastSeparator stop place ≤ x ∧ x < limit ∧
        d.scanned.masked.testAt x startsItem = true) := by
  induction front with
  | nil => exact h.1
  | cons _ _ ih => exact ih h.2

/-- Declarations start with a declaration. -/
theorem exists_declaration {items : List Item} (hne : items ≠ [])
    (h : ∀ item ∈ items, item.isDeclaration = true) :
    ∃ start stop semicolon rest, items = .declaration start stop semicolon :: rest := by
  obtain ⟨item, rest, rfl⟩ := List.exists_cons_of_ne_nil hne
  have hitem := h item List.mem_cons_self
  cases item with
  | declaration start stop semicolon => exact ⟨start, stop, semicolon, rest, rfl⟩
  | statement => cases hitem
  | block => cases hitem

/-- Blocks start with a block. -/
theorem exists_block {items : List Item} (hne : items ≠ []) (h : ∀ item ∈ items, item.isBlock = true) :
    ∃ start stop openAt closeAt rest, items = .block start stop openAt closeAt :: rest := by
  obtain ⟨item, rest, rfl⟩ := List.exists_cons_of_ne_nil hne
  have hitem := h item List.mem_cons_self
  cases item with
  | declaration => cases hitem
  | statement => cases hitem
  | block start stop openAt closeAt => exact ⟨start, stop, openAt, closeAt, rest, rfl⟩

theorem declarationsFrom_cons (d : Sheet) (limit start stop : Nat) (semicolon : Option Nat) (rest : List Item)
    (floor : Nat) (pool : List Comment) :
    let first := declarationMember d start stop semicolon floor limit pool
    (declarationsFrom d limit (.declaration start stop semicolon :: rest) floor pool).1 =
      first.1.1 :: (declarationsFrom d limit rest first.1.2 first.2).1 := rfl

theorem stepsFrom_cons (d : Sheet) (limit start stop openAt closeAt : Nat) (rest : List Item) (floor : Nat)
    (pool : List Comment) :
    let first := stepMember d start stop openAt closeAt floor limit pool
    (stepsFrom d limit (.block start stop openAt closeAt :: rest) floor pool).1 =
      first.1.1 :: (stepsFrom d limit rest first.1.2 first.2).1 := rfl

/-- The members of a list of declarations are no blocks. -/
theorem declarationsFrom_leaf (d : Sheet) (limit : Nat) (items : List Item) (floor : Nat)
    (pool : List Comment) : ∀ m ∈ (declarationsFrom d limit items floor pool).1, ∃ j, m = .leaf j := by
  induction items generalizing floor pool with
  | nil => exact fun m hm => nomatch hm
  | cons item rest ih =>
    cases item with
    | declaration start stop semicolon =>
      simp only [declarationsFrom, bind_apply, pure_apply]
      rintro m (_ | ⟨_, hm⟩)
      · cases semicolon <;> exact ⟨_, rfl⟩
      · exact ih _ _ m hm
    | statement start stop semicolon => exact ih floor pool
    | block start stop openAt closeAt => exact ih floor pool

end MemberOrder.Style
