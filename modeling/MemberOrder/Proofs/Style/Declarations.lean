/-
  The code of declarations.

  A declaration is its name, a colon and its value, with white space and comments between them. Typed
  anew it has blanks there, and so the same packed code (`retype_keeps_code`). In the indented dialect the
  name is that of the source (`bare_slice_toSource`), but between name and value the source may
  hold what the decorated text does not.
-/
import MemberOrder.Layout.Rules
import MemberOrder.Proofs.Layout.Labels
import MemberOrder.Proofs.Placement.Reading
import MemberOrder.Proofs.Source.Stops
import MemberOrder.Proofs.Style.Decoration
import MemberOrder.Proofs.Style.Filling

/-!
## The records of the members of a style sheet

Every member that is read is a declaration or a step of keyframes as its item was cut out
(`read_held`): but for comments and unit, the record of a declaration is `declarationInfo` of its item,
also where comments have been moved from the decorated text to the source.
-/

namespace MemberOrder.Style

open Attachment

/-! ## Where items start -/

/-- No literal is open at an offset, where apostrophes and double quotes start literals. -/
def Opens (s : Scanned) (x : Nat) : Prop :=
  ∀ p u, s = Scanned.scan p u → p.quotes = ['"', Profile.apostrophe] → Scanned.Boundary p u x

theorem opens_zero (s : Scanned) : Opens s 0 := fun p u _ _ => Scanned.boundary_zero p u

theorem Opens.succ {s : Scanned} {x : Nat} (h : Opens s x) (hspace : s.masked.testAt x Text.isSpace = true) :
    Opens s (x + 1) := by
  rintro p u rfl hquotes
  refine (h p u rfl hquotes).succ_of_space (fun q hq => ?_) hspace
  rw [hquotes, List.contains_iff_mem] at hq
  exact (show ∀ q ∈ ['"', Profile.apostrophe], Text.isSpace q = false by decide) q hq

/-- No literal is open after a semicolon or a bracket. -/
theorem opens_after {s : Scanned} {x : Nat} {c : Char} (hc : s.masked[x]? = some c)
    (h : c = ';' ∨ c = '{' ∨ c = '}') : Opens s (x + 1) := by
  rintro p u rfl hquotes
  refine Scanned.boundary_of_code hc ?_ ?_ ?_
  · rcases h with rfl | rfl | rfl <;> decide
  · rcases h with rfl | rfl | rfl <;> decide
  · rw [hquotes]
    rcases h with rfl | rfl | rfl <;> decide

/-- A reader of items finds them where no literal is open, if none is where it starts and where the
current statement did. -/
def FindsOpen (s : Scanned) (next : (i depth : Nat) → Option Nat → Items) : Prop :=
  ∀ i depth begun, (begun = none → Opens s i) → (∀ start, begun = some start → Opens s start) →
    ∀ item ∈ (next i depth begun).1, Opens s item.start

theorem statementItem_start (s : Scanned) (start stop : Nat) (semicolon : Option Nat) :
    (statementItem s start stop semicolon).start = start := by
  unfold statementItem
  split <;> rfl

theorem readItem_open {s : Scanned} {next : (i depth : Nat) → Option Nat → Items} (hnext : FindsOpen s next)
    (stop i depth : Nat) {start : Nat} {c : Char} (hc : s.masked[i]? = some c) (hstart : Opens s start) :
    ∀ item ∈ (readItem s stop next i depth start c).1, Opens s item.start := by
  have hon : ∀ i depth, ∀ item ∈ (next i depth (some start)).1, Opens s item.start := fun i depth =>
    hnext i depth _ nofun fun st hst => Option.some.inj hst ▸ hstart
  have hafter : ∀ {i c} depth, s.masked[i]? = some c → (c = ';' ∨ c = '{' ∨ c = '}') →
      ∀ item ∈ (next (i + 1) depth none).1, Opens s item.start := fun depth hc h =>
    hnext _ depth _ (fun _ => opens_after hc h) nofun
  unfold readItem
  split
  · exact hon _ _
  · split
    · exact hon _ _
    · split
      · split
        · exact nofun
        · rename_i close hclose
          obtain ⟨-, -, d, hd, hcurly⟩ := Brackets.close?_some (Option.filter_eq_some_iff.mp hclose).1
          split
          · simp only [Brackets.curly, List.any_cons, List.any_nil, Bool.or_false, beq_iff_eq] at hcurly
            exact List.forall_mem_cons.mpr ⟨hstart, hafter depth hd (Or.inr (Or.inr hcurly.symm))⟩
          · exact hon _ _
      · split
        · rename_i hbrace
          exact hafter depth hc (Or.inr (Or.inr (beq_iff_eq.mp hbrace)))
        · split
          · rename_i hsemicolon
            rw [Bool.and_eq_true, beq_iff_eq] at hsemicolon
            refine List.forall_mem_cons.mpr ⟨?_, hafter depth hc (Or.inl hsemicolon.1)⟩
            rw [statementItem_start]
            exact hstart
          · exact hon _ _

theorem itemsFrom_open (s : Scanned) (stop fuel : Nat) : FindsOpen s (itemsFrom s stop fuel) := by
  induction fuel with
  | zero => exact fun _ _ _ _ _ item h => absurd h List.not_mem_nil
  | succ fuel ih =>
    intro i depth begun hi hbegun
    -- without a statement there is no place where it started
    have hnone : ∀ start, none = some start → Opens s start := fun start h => by cases h
    unfold itemsFrom
    split
    · split
      · exact fun item h => absurd h List.not_mem_nil
      · rename_i c hc
        split
        · rename_i start
          exact readItem_open ih stop i depth hc (hbegun start rfl)
        · split
          · rename_i hskip
            refine ih _ _ _ (fun _ => ?_) hnone
            rw [Bool.or_eq_true, beq_iff_eq] at hskip
            rcases hskip with hspace | hsemicolon
            · exact (hi rfl).succ (by rw [Text.testAt_of_getElem? hc, hspace])
            · exact opens_after hc (Or.inl hsemicolon)
          · split
            · rename_i hbrace
              exact ih _ _ _ (fun _ => opens_after hc (Or.inr (Or.inr (beq_iff_eq.mp hbrace)))) hnone
            · exact readItem_open ih stop i depth hc (hi rfl)
    · split
      · exact fun item h => absurd h List.not_mem_nil
      · rename_i start
        dsimp only
        split
        · rw [List.forall_mem_singleton, statementItem_start]
          exact hbegun start rfl
        · exact fun item h => absurd h List.not_mem_nil

/-! ## Members -/

/-- A member is what was made of an item of a sheet, comments and unit aside. -/
inductive Sheet.Holds (d : Sheet) : Member → Prop
  | declaration {start stop a b : Nat} {semicolon : Option Nat} {i : MemberInfo}
      (hcut : Cut d.scanned (.declaration start stop semicolon) a b)
      (hinfo : i.bare = (declarationInfo d start stop semicolon).bare)
      (hopens : Opens d.scanned start) : d.Holds (.leaf i)
  | step {i : MemberInfo} {children : List Member} (hnamed : i.hasName = true)
      (hstays : i.isSpread = false) (hends : i.separator = "") : d.Holds (.group i children)

/-- A declaration takes its vendor mark from its name, is not optional and no spread, and has a name. -/
theorem declarationInfo_marked {d : Sheet} {start stop : Nat} {semicolon : Option Nat} {i : MemberInfo}
    (h : i.bare = (declarationInfo d start stop semicolon).bare) :
    i.vendorPrefix = vendorMark? i.name ∧ i.optional = false ∧ i.isSpread = false ∧ i.hasName = true := by
  show i.bare.vendorPrefix = vendorMark? i.bare.name ∧ i.bare.optional = false ∧
    i.bare.isSpread = false ∧ i.bare.hasName = true
  rw [h]
  cases hm : declaration.matchAt? d.scanned.masked start d.scanned.masked.size with
  | none =>
    simp only [MemberInfo.bare, declarationInfo, hm]
    exact ⟨by decide, trivial, trivial, trivial⟩
  | some m =>
    simp only [MemberInfo.bare, declarationInfo, hm]
    exact ⟨trivial, trivial, trivial, trivial⟩

/-- What is read from a sheet has a name and is no spread. -/
theorem Sheet.Holds.regular {d : Sheet} {m : Member} (h : d.Holds m) :
    m.info.hasName = true ∧ m.info.isSpread = false := by
  cases h with
  | declaration hcut hinfo =>
    obtain ⟨-, -, hstays, hnamed⟩ := declarationInfo_marked hinfo
    exact ⟨hnamed, hstays⟩
  | step hnamed hstays hends => exact ⟨hnamed, hstays⟩

/-- An item is cut out of a sheet where no literal is open. -/
def Stands (s : Scanned) (item : Item) : Prop := (∃ a b, Cut s item a b) ∧ Opens s item.start

/-- Items are cut out of a sheet, and so are those inside of blocks. -/
def AllCut (s : Scanned) (items : List Item) : Prop := ∀ item ∈ items, Stands s item

theorem allCut_items {s : Scanned} {lo hi : Nat} (h : lo ≤ hi) (hhi : EndsBlock s hi)
    (hlo : Opens s lo) : AllCut s (items s lo hi).1 := by
  intro item hitem
  obtain ⟨i, j, hcut, -, -⟩ := (items_chain h hhi).of_mem (fun _ _ _ h => h.le) hitem
  exact ⟨⟨i, j, hcut⟩, itemsFrom_open s hi _ lo 0 none (fun _ => hlo) nofun item hitem⟩

/-- The items inside a block are cut out. -/
theorem allCut_inside {s : Scanned} {start stop openAt closeAt a b : Nat}
    (hcut : Cut s (.block start stop openAt closeAt) a b) : AllCut s (items s (openAt + 1) closeAt).1 :=
  let ⟨_, hlt, hopen, hclose⟩ := hcut.wellCut
  allCut_items hlt (Or.inl hclose) (opens_after hopen (Or.inr (Or.inl rfl)))

/-- The items inside a block fill it. -/
theorem fills_inside {s : Scanned} {start stop openAt closeAt a b : Nat}
    (hcut : Cut s (.block start stop openAt closeAt) a b) :
    Fills s (openAt + 1) closeAt (items s (openAt + 1) closeAt).1 :=
  let ⟨_, _, hopen, _⟩ := hcut.wellCut
  items_fill hopen hcut.closed

variable {d : Sheet}

/-- Members are read from a sheet, at every depth. -/
abbrev HeldIn (d : Sheet) (ms : List Member) : Prop := EachThroughout d.Holds ms

theorem declarationsFrom_held (limit : Nat) {its : List Item} (hits : AllCut d.scanned its) (floor : Nat)
    (pool : List Comment) : HeldIn d (declarationsFrom d limit its floor pool).1 := by
  induction its generalizing floor pool with
  | nil => trivial
  | cons item rest ih =>
    obtain ⟨⟨⟨a, b, hcut⟩, hopens⟩, hrest⟩ := List.forall_mem_cons.mp hits
    cases item with
    | declaration start stop semicolon =>
      have hself : (declarationMember d start stop semicolon floor limit pool).1.1.Throughout d.Holds := by
        rw [declarationMember_eq]
        exact .declaration hcut rfl hopens
      exact ⟨hself, ih hrest _ _⟩
    | statement start stop semicolon => exact ih hrest floor pool
    | block start stop openAt closeAt => exact ih hrest floor pool

theorem stepsFrom_held (limit : Nat) {steps : List Item} (hsteps : AllCut d.scanned steps) (floor : Nat)
    (pool : List Comment) : HeldIn d (stepsFrom d limit steps floor pool).1 := by
  induction steps generalizing floor pool with
  | nil => trivial
  | cons item rest ih =>
    obtain ⟨⟨⟨a, b, hcut⟩, -⟩, hrest⟩ := List.forall_mem_cons.mp hsteps
    cases item with
    | declaration start stop semicolon => exact ih hrest floor pool
    | statement start stop semicolon => exact ih hrest floor pool
    | block start stop openAt closeAt =>
      exact ⟨⟨.step rfl rfl rfl, declarationsFrom_held closeAt (allCut_inside hcut) _ _⟩, ih hrest _ _⟩

/-! ## Pools -/

/-- What takes comments leaves a part of the pool. -/
def Shrinks {α : Type} (x : Claiming α) : Prop := ∀ pool, (x pool).2.Sublist pool

theorem Shrinks.pure {α : Type} (x : α) : Shrinks (pure x : Claiming α) := fun pool => List.Sublist.refl pool

theorem Shrinks.bind {α β : Type} {x : Claiming α} {f : α → Claiming β} (hx : Shrinks x)
    (hf : ∀ a, Shrinks (f a)) : Shrinks (x >>= f) := fun pool => (hf _ _).trans (hx pool)

theorem shrinks_takeLeading (s : Scanned) (target floor : Nat) : Shrinks (takeLeading s target floor) :=
  fun pool => without_sublist _ pool

theorem shrinks_takeInside (a b : Nat) : Shrinks (takeInside a b) := fun pool => without_sublist _ pool

theorem shrinks_takeTrailing (s : Scanned) (after limit : Nat) (skip : List Char) :
    Shrinks (takeTrailing s after limit skip) := fun pool => without_sublist _ pool

theorem shrinks_declarationMember (start stop : Nat) (semicolon : Option Nat) (floor limit : Nat) :
    Shrinks (declarationMember d start stop semicolon floor limit) := by
  refine (shrinks_takeLeading _ _ _).bind fun _ => (shrinks_takeInside _ _).bind fun _ => ?_
  cases semicolon with
  | none => exact (Shrinks.pure _).bind fun _ => (shrinks_takeTrailing _ _ _ _).bind fun _ => .pure _
  | some place => exact (shrinks_takeInside _ _).bind fun _ => (shrinks_takeTrailing _ _ _ _).bind fun _ => .pure _

theorem shrinks_declarationsFrom (limit : Nat) (its : List Item) (floor : Nat) :
    Shrinks (declarationsFrom d limit its floor) := by
  induction its generalizing floor with
  | nil => exact .pure _
  | cons item rest ih =>
    cases item with
    | declaration start stop semicolon =>
      exact (shrinks_declarationMember _ _ _ _ _).bind fun _ => (ih _).bind fun _ => .pure _
    | statement start stop semicolon => exact ih floor
    | block start stop openAt closeAt => exact ih floor

theorem shrinks_stepsFrom (limit : Nat) (steps : List Item) (floor : Nat) :
    Shrinks (stepsFrom d limit steps floor) := by
  induction steps generalizing floor with
  | nil => exact .pure _
  | cons item rest ih =>
    cases item with
    | declaration start stop semicolon => exact ih floor
    | statement start stop semicolon => exact ih floor
    | block start stop openAt closeAt =>
      refine Shrinks.bind ?_ fun _ => (ih _).bind fun _ => .pure _
      exact (shrinks_takeLeading _ _ _).bind fun _ => (shrinks_takeInside _ _).bind fun _ =>
        (shrinks_declarationsFrom _ _ _).bind fun _ => (shrinks_takeInside _ _).bind fun _ =>
          (shrinks_takeTrailing _ _ _ _).bind fun _ => .pure _

theorem shrinks_endRun (run : List Item) (runFloor : Nat) (selector : String) (media : Option String) :
    Shrinks (endRun d run runFloor selector media) := by
  unfold endRun
  split
  · exact .pure _
  · refine Shrinks.bind ?_ fun _ => .pure _
    exact (shrinks_declarationsFrom _ _ _).bind fun _ => (shrinks_takeInside _ _).bind fun _ => .pure _

/-! ## Entities -/

/-- An entity is made of a run of declarations, of a block of declarations, or of a block of steps. -/
inductive Sheet.Makes (d : Sheet) : Entity → Prop
  | run {run : List Item} (hne : run ≠ []) (hrun : AllCut d.scanned run)
      (hdecl : ∀ item ∈ run, item.isDeclaration = true) (floor : Nat) (selector : String)
      (media : Option String) {pool : List Comment} (hpool : pool.Sublist d.scanned.comments)
      (hfills : ∃ lo hi, Fills d.scanned lo hi run) : d.Makes (runEntity d run floor selector media pool).1
  | rule {start stop openAt closeAt : Nat} (hblock : Stands d.scanned (.block start stop openAt closeAt))
      {pool : List Comment} (hpool : pool.Sublist d.scanned.comments) (floor : Nat)
      (hdecl : ∀ item ∈ (items d.scanned (openAt + 1) closeAt).1, item.isDeclaration = true)
      (selector : String) (media : Option String) (left dangling : List Comment)
      (hne : (declarationsFrom d closeAt (items d.scanned (openAt + 1) closeAt).1 (openAt + 1) left).1 ≠ []) :
      d.Makes (ruleEntity d start openAt closeAt selector (takeLeading d.scanned start floor pool).1
        ((items d.scanned (openAt + 1) closeAt).1.map Item.start)
        (declarationsFrom d closeAt (items d.scanned (openAt + 1) closeAt).1 (openAt + 1) left).1 dangling media)
  | keyframes {start stop openAt closeAt : Nat}
      (hblock : Stands d.scanned (.block start stop openAt closeAt)) {pool : List Comment}
      (hpool : pool.Sublist d.scanned.comments) (floor : Nat)
      (hsteps : ∀ item ∈ (items d.scanned (openAt + 1) closeAt).1, item.isBlock = true)
      (selector : String) (media : Option String) (left : List Comment)
      (hne : (items d.scanned (openAt + 1) closeAt).1 ≠ []) :
      d.Makes (keyframesEntity d start openAt closeAt selector (takeLeading d.scanned start floor pool).1
        (items d.scanned (openAt + 1) closeAt).1 media left).1

/-- A reader leaves a part of the pool, and its entities are made from the sheet. -/
structure Sheet.Yields (d : Sheet) (x : Claiming (List Entity)) : Prop where
  shrinks : Shrinks x
  makes : ∀ pool : List Comment, pool.Sublist d.scanned.comments → ∀ e ∈ (x pool).1, d.Makes e

theorem yields_nil : d.Yields (pure []) := ⟨.pure _, fun _ _ _ he => absurd he List.not_mem_nil⟩

theorem endRun_yields {run : List Item} (hrun : AllCut d.scanned run)
    (hdecl : ∀ item ∈ run, item.isDeclaration = true) (hfills : ∃ lo hi, Fills d.scanned lo hi run.reverse)
    (runFloor : Nat) (selector : String) (media : Option String) :
    d.Yields (endRun d run runFloor selector media) := by
  refine ⟨shrinks_endRun _ _ _ _, fun pool hpool e he => ?_⟩
  unfold endRun at he
  split at he
  · exact absurd he List.not_mem_nil
  · rename_i hne
    obtain rfl := List.mem_singleton.mp he
    exact .run (by simpa using hne) (fun item hitem => hrun item (List.mem_reverse.mp hitem))
      (fun item hitem => hdecl item (List.mem_reverse.mp hitem)) _ _ _ hpool hfills

theorem mixedFrom_yields {nested : BlockReader}
    (hnested : ∀ {item : Item}, Stands d.scanned item → ∀ floor media, d.Yields (nested item floor media))
    (selector : String) (media : Option String) {rest : List Item} (hrest : AllCut d.scanned rest)
    {run : List Item} (hrun : AllCut d.scanned run) (hdecl : ∀ item ∈ run, item.isDeclaration = true)
    {from_ reach hi : Nat} (hbehind : Fills d.scanned from_ reach run.reverse)
    (hfills : Fills d.scanned reach hi rest) (runFloor floor : Nat) : d.Yields (mixedFrom d nested selector media rest run runFloor floor) := by
  induction rest generalizing run from_ reach runFloor floor with
  | nil => exact endRun_yields hrun hdecl ⟨from_, reach, hbehind⟩ runFloor selector media
  | cons child rest ih =>
    obtain ⟨hself, hrest⟩ := List.forall_mem_cons.mp hrest
    obtain ⟨hgap, htail, hahead⟩ : Idle d.scanned reach child.start ∧ Idle d.scanned child.textStop child.after ∧
        Fills d.scanned child.after hi rest := by
      cases hfills with
      | cons hgap htail hrest => exact ⟨hgap, htail, hrest⟩
    cases hchild : child.isDeclaration with
    | true =>
      have hjoined := ih hrest (List.forall_mem_cons.mpr ⟨hself, hrun⟩)
        (List.forall_mem_cons.mpr ⟨hchild, hdecl⟩) (List.reverse_cons ▸ hbehind.snoc hgap htail) hahead
        (if run.isEmpty then floor else runFloor) (max floor child.after)
      simpa only [mixedFrom, hchild, if_true] using hjoined
    | false =>
      have hbefore := endRun_yields hrun hdecl ⟨from_, reach, hbehind⟩ runFloor selector media
      have hinside : d.Yields (if child.isBlock then nested child floor media else pure []) := by
        split
        · exact hnested hself _ _
        · exact yields_nil
      have hafter := ih hrest (show AllCut d.scanned [] from fun _ h => absurd h List.not_mem_nil)
        (fun _ h => absurd h List.not_mem_nil) (.nil (idle_of_le (Nat.le_refl child.after))) hahead
        runFloor (max floor child.after)
      have heq (pool : List Comment) := mixedFrom_other d nested selector media rest run runFloor floor pool hchild
      have hpart (pool : List Comment) : (if child.isBlock then nested child floor media pool else ([], pool)) =
          (if child.isBlock then nested child floor media else pure [] : Claiming (List Entity)) pool := by
        split <;> rfl
      simp only [hpart] at heq
      refine ⟨fun pool => ?_, fun pool hpool e he => ?_⟩
      · rw [heq]
        exact (hafter.shrinks _).trans ((hinside.shrinks _).trans (hbefore.shrinks pool))
      · rw [heq] at he
        have h1 := (hbefore.shrinks pool).trans hpool
        rcases List.mem_append.mp he with he | he
        · rcases List.mem_append.mp he with he | he
          · exact hbefore.makes pool hpool e he
          · exact hinside.makes _ h1 e he
        · exact hafter.makes _ ((hinside.shrinks _).trans h1) e he

/-- The entities of a block, by induction on the depth of blocks. -/
theorem readBlock_yields (fuel : Nat) {item : Item} (hitem : Stands d.scanned item) (floor : Nat)
    (media : Option String) : d.Yields (readBlock d fuel item floor media) := by
  induction fuel generalizing item floor media with
  | zero => exact yields_nil
  | succ fuel ih =>
    cases item with
    | declaration start stop semicolon => exact yields_nil
    | statement start stop semicolon => exact yields_nil
    | block start stop openAt closeAt =>
      obtain ⟨a, b, hcut⟩ := hitem.1
      have hinner := allCut_inside hcut
      have hheader : ∀ pool, (takeInside start openAt (takeLeading d.scanned start floor pool).2).2.Sublist pool :=
        fun pool => (shrinks_takeInside _ _ _).trans (shrinks_takeLeading _ _ _ pool)
      have hmixed := mixedFrom_yields ih (Text.squeeze (d.text start stop))
        (if Text.startsWith (Text.lower (Text.squeeze (d.text start stop))) "@media" then
          some (Text.squeeze (d.text start stop)) else media) hinner
        (show AllCut d.scanned [] from fun _ h => absurd h List.not_mem_nil)
        (fun _ h => absurd h List.not_mem_nil) (.nil (idle_of_le (Nat.le_refl (openAt + 1)))) (fills_inside hcut)
        (openAt + 1) (openAt + 1)
      refine ⟨fun pool => ?_, fun pool hpool e he => ?_⟩
      · rw [readBlock_block]
        dsimp only
        split
        · exact (((shrinks_stepsFrom _ _ _).bind fun _ => (shrinks_takeInside _ _).bind fun _ => .pure _) _).trans
            (hheader pool)
        · split
          · have := (shrinks_takeInside (openAt + 1) closeAt _).trans
              ((shrinks_declarationsFrom (d := d) closeAt (items d.scanned (openAt + 1) closeAt).1 (openAt + 1)
                _).trans (hheader pool))
            split <;> exact this
          · exact (hmixed.shrinks _).trans (hheader pool)
      · rw [readBlock_block] at he
        dsimp only at he
        split at he
        · rename_i hkeyframes
          obtain rfl := List.mem_singleton.mp he
          simp only [Bool.and_eq_true] at hkeyframes
          obtain ⟨⟨-, hne⟩, hsteps⟩ := hkeyframes
          exact .keyframes hitem hpool floor (List.all_eq_true.mp hsteps) _ _ _ (by simpa using hne)
        · split at he
          · rename_i hdecl
            split at he
            · exact absurd he List.not_mem_nil
            · rename_i hne
              obtain rfl := List.mem_singleton.mp he
              exact .rule hitem hpool floor (List.all_eq_true.mp hdecl) _ _ _ _ (by simpa using hne)
          · exact hmixed.makes _ ((hheader pool).trans hpool) e he

theorem entitiesFrom_yields {top : List Item} (htop : AllCut d.scanned top) (floor : Nat) :
    d.Yields (entitiesFrom d top floor) := by
  induction top generalizing floor with
  | nil => exact yields_nil
  | cons item rest ih =>
    obtain ⟨hself, hrest⟩ := List.forall_mem_cons.mp htop
    have hafter := ih hrest item.after
    cases hblock : item.isBlock with
    | false =>
      simp only [entitiesFrom, hblock]
      exact hafter
    | true =>
      have hfound := readBlock_yields (d.scanned.source.size + 1) hself floor none
      have heq : entitiesFrom d (item :: rest) floor = (do
          let found ← readBlock d (d.scanned.source.size + 1) item floor none
          return found ++ (← entitiesFrom d rest item.after)) := by
        simp only [entitiesFrom, hblock, if_true]
      rw [heq]
      refine ⟨hfound.shrinks.bind fun _ => hafter.shrinks.bind fun _ => .pure _, fun pool hpool e he => ?_⟩
      simp only [bind_apply, pure_apply] at he
      rcases List.mem_append.mp he with he | he
      · exact hfound.makes pool hpool e he
      · exact hafter.makes _ ((hfound.shrinks _).trans hpool) e he

/-- The members of entities are read from a sheet. -/
def AllHeld (d : Sheet) (es : List Entity) : Prop := ∀ e ∈ es, HeldIn d e.members

theorem Sheet.Makes.held {e : Entity} (h : d.Makes e) : HeldIn d e.members := by
  cases h with
  | run hne hrun hdecl floor selector media hpool hfills => exact declarationsFrom_held _ hrun _ _
  | rule hblock hpool floor hdecl selector media left dangling hne =>
    obtain ⟨⟨a, b, hcut⟩, -⟩ := hblock
    exact declarationsFrom_held _ (allCut_inside hcut) _ _
  | keyframes hblock hpool floor hsteps selector media left hne =>
    obtain ⟨⟨a, b, hcut⟩, -⟩ := hblock
    exact stepsFrom_held _ (allCut_inside hcut) _ _

theorem declarationsFrom_ne {its : List Item} (hne : its ≠ []) (hdecl : ∀ item ∈ its, item.isDeclaration = true)
    (limit floor : Nat) (pool : List Comment) : (declarationsFrom d limit its floor pool).1 ≠ [] := by
  obtain ⟨start, stop, semicolon, rest, rfl⟩ := exists_declaration hne hdecl
  exact List.cons_ne_nil _ _

theorem stepsFrom_ne {its : List Item} (hne : its ≠ []) (hsteps : ∀ item ∈ its, item.isBlock = true)
    (limit floor : Nat) (pool : List Comment) : (stepsFrom d limit its floor pool).1 ≠ [] := by
  obtain ⟨start, stop, openAt, closeAt, rest, rfl⟩ := exists_block hne hsteps
  exact List.cons_ne_nil _ _

/-- An entity has members: a run has its declarations, and a block of steps its steps. -/
theorem Sheet.Makes.members_ne {e : Entity} (h : d.Makes e) : e.members ≠ [] := by
  cases h with
  | run hne hrun hdecl floor selector media hpool hfills => exact declarationsFrom_ne hne hdecl _ _ _
  | rule hblock hpool floor hdecl selector media left dangling hne => exact hne
  | keyframes hblock hpool floor hsteps selector media left hne => exact stepsFrom_ne hne hsteps _ _ _

/-! ## Reading -/

mutual

/-- Moving comments keeps what a member is but for its comments. -/
theorem held_relocateMember {toSource : Nat → Nat} {m : Member} (h : m.Throughout d.Holds) :
    (relocateMember toSource m).Throughout d.Holds := by
  cases m with
  | leaf i =>
    cases h with
    | declaration hcut hinfo hopens => exact .declaration hcut hinfo hopens
  | group i children =>
    obtain ⟨hself, hchildren⟩ := h
    cases hself with
    | step hnamed hstays hends => exact ⟨.step hnamed hstays hends, held_relocateMembers hchildren⟩

theorem held_relocateMembers {toSource : Nat → Nat} {ms : List Member} (h : HeldIn d ms) :
    HeldIn d (relocateMembers toSource ms) := by
  cases ms with
  | nil => exact h
  | cons m rest => exact ⟨held_relocateMember h.1, held_relocateMembers h.2⟩

end

/-- The entities of a style sheet are made from its scanned text; in the indented dialect their comments
are then moved to the source. -/
theorem read_makes (fileType : FileType) (t : Text) {e : Entity} (he : e ∈ (read fileType t).entities) :
    let d := sheetOf fileType t
    ∃ e', d.Makes e' ∧ e = if d.isIndented then relocateEntity d.toSource e' else e' := by
  intro d
  have htop : AllCut d.scanned (items d.scanned 0 d.scanned.masked.size).1 :=
    allCut_items (Nat.zero_le _) (Or.inr rfl) (opens_zero _)
  have hmakes := (entitiesFrom_yields htop 0).makes d.scanned.comments (List.Sublist.refl _)
  let es := (entitiesFrom d (items d.scanned 0 d.scanned.masked.size).1 0 d.scanned.comments).1
  have he : e ∈ if d.isIndented then es.map (relocateEntity d.toSource) else es := he
  split at he
  · rename_i hindented
    obtain ⟨e', he', rfl⟩ := List.mem_map.mp he
    exact ⟨e', hmakes e' he', (if_pos hindented).symm⟩
  · rename_i hplain
    exact ⟨e, hmakes e he, (if_neg hplain).symm⟩

/-- The members of a style sheet are made of the items of its scanned text. -/
theorem read_held (fileType : FileType) (t : Text) :
    AllHeld (sheetOf fileType t) (read fileType t).entities := by
  intro e he
  obtain ⟨e', hmakes, rfl⟩ := read_makes fileType t he
  split
  · exact held_relocateMembers hmakes.held
  · exact hmakes.held

/-- What was read in one of the dialects is what a sheet holds, at every depth. -/
theorem held_of_readFrom {m : Member} (h : m.ReadFrom .css) : ∃ d : Sheet, m.Throughout d.Holds := by
  obtain ⟨fileType, t, hlanguage, e, he, outer, ms, hms, hm⟩ := h
  have hentities : (readSource fileType t).entities = (read fileType t).entities := by
    rw [readSource, hlanguage]
  have hheld := hms.throughout (read_held fileType t e (hentities ▸ he))
  exact ⟨sheetOf fileType t, eachThroughout_iff.mp hheld m hm⟩

end MemberOrder.Style

/-! ## The code of declarations -/

namespace MemberOrder.Style

open Layout Lexeme Scanned Pattern

/-! ## The parts of a declaration -/

/-- The quotes of style sheets. -/
def sheetQuotes : List Char := ['"', Profile.apostrophe]

variable {p : Profile} {u : Text} {a b v limit : Nat} {m : Pattern.Found}

theorem isBare_of_isNameOrHyphen (hquotes : p.quotes = sheetQuotes) (c : Char)
    (h : isNameOrHyphen c = true) : isBare p c = true := by
  refine isBare_of_class (fun c hc => ?_) (by rw [hquotes]; decide) c h
  rw [isNameOrHyphen, Bool.or_eq_true, beq_iff_eq] at hc
  rcases hc with hc | rfl
  · exact Text.isSpace_of_isWord hc
  · decide

/-- A declaration starts with its name, of bare characters up to `k`, and a colon follows after white
space. -/
structure Parts (p : Profile) (t : Text) (a : Nat) (m : Pattern.Found) (k : Nat) : Prop where
  startOf : m.startOf "name" = a
  stopOf : m.stopOf "name" = k
  le : a ≤ k
  lt : k < m.stop
  bare : ∀ x, a ≤ x → x < k → t.testAt x (isBare p) = true
  spaces : ∀ x, k ≤ x → x < m.stop - 1 → t.testAt x Text.isSpace = true
  colon : t[m.stop - 1]? = some ':'

/-- The colon stands between the name of a declaration and its value. -/
theorem Parts.colonBetween {t : Text} {k : Nat} (h : Parts p t a m k) (limit : Nat) :
    ColonBetween t k (t.nextCode m.stop limit) := by
  have hlt := h.lt
  have hle := Text.le_nextCode t m.stop limit
  exact ⟨m.stop - 1, by omega, by omega, h.colon, h.spaces, fun y h1 h2 =>
    Text.space_before_nextCode (by omega) h2⟩

theorem declaration_parts {t : Text} (hquotes : p.quotes = sheetQuotes)
    (h : declaration.matchAt? t a limit = some m) : ∃ k, Parts p t a m k := by
  have hbare := isBare_of_isNameOrHyphen hquotes
  have hone : ∀ {f : Char → Bool}, (∀ c, f c = true → isNameOrHyphen c = true) →
      Within (isBare p) (.one f) := fun hf => within_one fun c hc => hbare c (hf c hc)
  have hspan : Within (isBare p) (.span isNameOrHyphen) := within_span hbare
  have hhyphen : ∀ c, (c == '-') = true → isNameOrHyphen c = true := fun c hc => by
    simp [isNameOrHyphen, hc]
  have hname : Within (isBare p) (.either (.seq (word "--") (some1 isNameOrHyphen))
      (all [optional (char '-'), .one isNameStart, .span isNameOrHyphen])) := by
    refine within_either (within_seq (within_seq (hone hhyphen) (hone hhyphen))
      (within_seq (hone fun _ h => h) hspan)) (within_seq (within_optional (hone hhyphen))
        (within_seq (hone fun c hc => ?_) hspan))
    rw [isNameOrHyphen, Text.isWord_of_isNameStart hc]
    rfl
  obtain ⟨-, k, marks₁, _, ⟨inner, hmatch, rfl⟩, ⟨x, marks₂, _, hspaces, hcolon, rfl⟩, hmarks⟩ :=
    matchAt?_matches h
  obtain rfl : inner = [] := hmatch.marks_eq_nil rfl
  obtain rfl : marks₂ = [] := hspaces.marks_eq_nil rfl
  obtain ⟨-, hcolon, hstop, rfl⟩ := hcolon
  obtain ⟨hkx, -, hspaces, -⟩ := hspaces
  obtain ⟨c, hc, hcc⟩ := Text.testAt_iff.mp hcolon
  rw [beq_iff_eq] at hcc
  subst hcc
  have hmarks : m.marks = [("name", a, k)] := hmarks
  refine ⟨k, ?_, ?_, hmatch.bounds.1, by omega, hname _ _ _ _ _ hmatch, ?_, ?_⟩
  · rw [Found.startOf, Found.piece?, hmarks]
    rfl
  · rw [Found.stopOf, Found.piece?, hmarks]
    rfl
  · rw [hstop, Nat.add_sub_cancel]
    exact hspaces
  · rw [hstop, Nat.add_sub_cancel]
    exact hc

/-- The code of a declaration is that of its name, a colon, and that of its value. -/
theorem packedCode_declaration (hquotes : p.quotes = sheetQuotes) (hb : Boundary p u a)
    (hcode : (scan p u).masked.testAt a Text.isSpace = false) {k : Nat}
    (h : Parts p (scan p u).masked a m k) (hv : v = (scan p u).nextCode m.stop b) (hvalue : u.slice v b ≠ []) :
    packedCode p (u.slice a b) =
      packedCode p (u.slice a k) ++ ':' :: packedCode p (u.slice v b) := by
  obtain ⟨hvb, d, hd, hspace⟩ := code_of_slice_nextCode hv hvalue
  have hstop : m.stop ≤ v := hv ▸ Text.le_nextCode _ _ _
  have hsize : v < u.size := size_masked p u ▸ Text.lt_size_of_getElem? hd
  have hak := h.le
  have hkm := h.lt
  have hname : ∀ c ∈ u.slice a k, Plain p c := fun c hc => plain_of_isBare (hb.bare h.bare c hc)
  obtain ⟨e, before, hbefore⟩ : Stops p u a := hb.stops (by omega) (Or.inl rfl) hcode
  obtain ⟨ls, hls, -⟩ := reads_of_plain hak hname (by omega) e
  exact packedCode_entry ⟨e, _, hbefore.trans hls⟩ (seam_of_plain hname) hak
    (by rw [hquotes]; decide) (hv ▸ h.colonBetween b) hd hspace (Nat.le_of_lt hvb)

/-! ## Declarations typed anew -/

/-- The lexer profile of a style sheet. -/
def profileOf (fileType : FileType) : Profile := if fileType == .css then .css else .scss

theorem quotes_profileOf (fileType : FileType) : (profileOf fileType).quotes = sheetQuotes := by
  unfold profileOf
  split <;> rfl

/-- Nothing but white space and a colon stands between the name of a member and its value. -/
def Spaced (i : MemberInfo) : Prop :=
  ∃ gap, i.fullText.toList = i.name.toList ++ (gap ++ i.value.display.toList) ∧ pack gap = [':']

theorem declarationInfo_parts {d : Sheet} {start stop : Nat} {semicolon : Option Nat} {i : MemberInfo}
    (hi : i.bare = (declarationInfo d start stop semicolon).bare)
    (hm : declaration.matchAt? d.scanned.masked start d.scanned.masked.size = some m) :
    i.name = d.text (m.startOf "name") (m.stopOf "name") ∧
      i.value = .text (d.text (d.scanned.nextCode m.stop stop) stop) ∧ i.fullText = d.text start stop := by
  simp only [declarationInfo, hm] at hi
  exact ⟨(congrArg MemberInfo.name hi :), (congrArg MemberInfo.value hi :),
    (congrArg MemberInfo.fullText hi :)⟩

/-- The code of a declaration typed anew is that of its name, a colon, and that of its value. -/
theorem packedCode_retype (fileType : FileType) {i : MemberInfo} (hvalue : i.value.isTruthy = true)
    (hname : ∀ c ∈ i.name.toList, isBare (profileOf fileType) c = true) (o : Options) (width : Nat) :
    packedCode (profileOf fileType) ((Rules.style fileType).retype o (.leaf i) width).toList =
      packedCode (profileOf fileType) i.name.toList ++
        ':' :: packedCode (profileOf fileType) i.value.display.toList := by
  have hplain : ∀ c ∈ [' ', ':'], Plain (profileOf fileType) c := fun c hc =>
    plain_of_class (f := isColonOrSpace) (by rw [quotes_profileOf]; decide)
      ((show ∀ c ∈ [' ', ':'], isColonOrSpace c = true by decide) c hc)
  have hretype : (Rules.style fileType).retype o (.leaf i) width =
      nameAndValue o (i.name ++ "") i.value.display width ":" := by
    rw [String.append_empty]
    simp [Rules.style, Member.children?, Member.info, Member.name, hvalue]
  rw [hretype, packedCode_nameAndValue hplain o (seam_of_plain fun c hc => plain_of_isBare (hname c hc))
    (by simp)]
  rfl

/-- A sheet in the indented dialect has its decorated text scanned, any other its source. -/
theorem sheetOf_cases (fileType : FileType) (t : Text) :
    (fileType = .sass ∧ sheetOf fileType t =
      { scanned := scan (profileOf fileType) (Indented.braced (Indented.decorate t.toList)).toArray
        source := t, toSource := Indented.toSource (Indented.decorate t.toList), fileType }) ∨
    fileType ≠ .sass ∧ sheetOf fileType t =
      { scanned := scan (profileOf fileType) t, source := t, toSource := id, fileType } := by
  by_cases hsass : fileType = .sass
  · subst hsass
    exact Or.inl ⟨rfl, rfl⟩
  · refine Or.inr ⟨hsass, ?_⟩
    rw [sheetOf, if_neg (by simpa using hsass)]
    rfl

/-- The name of a declaration is bare in the source as well. -/
theorem bare_slice_toSource {source : List Char} {k : Nat} (hak : a ≤ k)
    (hk : k ≤ (Indented.braced (Indented.decorate source)).length)
    (h : ∀ c ∈ Text.slice (Indented.braced (Indented.decorate source)).toArray a k, isBare p c = true) :
    ∀ c ∈ Text.slice source.toArray (Indented.toSource (Indented.decorate source) a)
      (Indented.toSource (Indented.decorate source) k), isBare p c = true := by
  intro c hc
  have hlength : (Indented.flagged (Indented.decorate source)).length =
      (Indented.braced (Indented.decorate source)).length := by
    rw [← Indented.map_fst_flagged, List.length_map]
  rw [Indented.slice_toSource hak (by omega), Indented.erase] at hc
  obtain ⟨⟨d, flag⟩, hd, rfl⟩ := List.mem_map.mp hc
  refine h d ?_
  rw [Text.slice_eq_take_drop, ← List.drop_take, ← Indented.map_fst_flagged, ← List.map_take, ← List.map_drop]
  exact List.mem_map.mpr ⟨_, (List.mem_filter.mp hd).1, rfl⟩

/-- The code of a text that is a name and a value with nothing but white space and a colon between. -/
theorem packedCode_spaced (fileType : FileType) {i : MemberInfo} (h : Spaced i)
    (hname : ∀ c ∈ i.name.toList, isBare (profileOf fileType) c = true) :
    packedCode (profileOf fileType) i.fullText.toList = packedCode (profileOf fileType) i.name.toList ++
      ':' :: packedCode (profileOf fileType) i.value.display.toList := by
  obtain ⟨gap, htext, hgap⟩ := h
  have hplain : ∀ c ∈ gap, Plain (profileOf fileType) c := by
    intro c hc
    refine plain_of_class (f := isColonOrSpace) (by rw [quotes_profileOf]; decide) ?_
    rw [isColonOrSpace, Bool.or_eq_true, beq_iff_eq, Classical.or_iff_not_imp_left]
    intro hspace
    have hmem : c ∈ pack gap := List.mem_filter.mpr ⟨hc, by simpa using hspace⟩
    rw [hgap] at hmem
    exact List.mem_singleton.mp hmem
  rw [htext, packedCode_append (seam_of_plain (fun c hc => plain_of_isBare (hname c hc)) _),
    packedCode_append (seam_of_plain hplain _), packedCode_of_plain hplain, hgap]
  rfl

/-- Typed anew, a member of a style sheet keeps its code; in the indented dialect if nothing but white
space and a colon stands between its name and its value. -/
theorem retype_keeps_code (fileType : FileType) (t : Text) {x : Member}
    (hx : (sheetOf fileType t).Holds x)
    (hspaced : fileType = .sass → x.info.value.isTruthy = true → Spaced x.info) (o : Options) (width : Nat) :
    packedCode (profileOf fileType) ((Rules.style fileType).retype o x width).toList =
      packedCode (profileOf fileType) x.info.fullText.toList := by
  cases hx with
  | step => rfl
  | declaration hcut hinfo hopens =>
    rename_i start stop a b semicolon i
    by_cases hvalue : i.value.isTruthy = true
    · obtain ⟨-, -, hsome, -⟩ := hcut.wellCut
      obtain ⟨m, hm⟩ := Option.isSome_iff_exists.mp hsome
      obtain ⟨hname, hvalue', htext⟩ := declarationInfo_parts hinfo hm
      obtain ⟨k, hparts⟩ := declaration_parts (quotes_profileOf fileType) hm
      rw [hparts.startOf, hparts.stopOf] at hname
      have hcode := code_of_starts hcut.starts
      show _ = packedCode _ i.fullText.toList
      rcases sheetOf_cases fileType t with ⟨hsass, hsheet⟩ | ⟨-, hsheet⟩
      · rw [hsheet] at hname hparts hopens
        have hbare := (hopens _ _ rfl (quotes_profileOf fileType)).bare hparts.bare
        have hk := Text.lt_size_of_getElem? hparts.colon
        have hlt := hparts.lt
        rw [size_masked, List.size_toArray] at hk
        have hname' : i.name.toList = t.slice (Indented.toSource (Indented.decorate t.toList) start)
            (Indented.toSource (Indented.decorate t.toList) k) := by
          rw [hname]
          exact String.toList_ofList
        have hbare' : ∀ c ∈ i.name.toList, isBare (profileOf fileType) c = true := by
          rw [hname']
          exact bare_slice_toSource hparts.le (by omega) hbare
        have hspaced' : Spaced i := hspaced hsass hvalue
        rw [packedCode_retype fileType hvalue hbare', packedCode_spaced fileType hspaced' hbare']
      · rw [hsheet] at hname hvalue' htext hcode hparts hopens
        have hb := hopens _ _ rfl (quotes_profileOf fileType)
        have hname' : i.name.toList = t.slice start k := by rw [hname]; exact String.toList_ofList
        have hbare : ∀ c ∈ i.name.toList, isBare (profileOf fileType) c = true := by
          rw [hname']
          exact hb.bare hparts.bare
        have hdisplay : i.value.display.toList =
            t.slice ((scan (profileOf fileType) t).nextCode m.stop stop) stop := by
          rw [hvalue']
          exact String.toList_ofList
        have hne : t.slice ((scan (profileOf fileType) t).nextCode m.stop stop) stop ≠ [] := by
          rw [← hdisplay]
          intro hnil
          rw [hvalue', Value.isTruthy, Bool.not_eq_true', String.isEmpty_eq_false_iff] at hvalue
          rw [hvalue'] at hnil
          exact hvalue (String.toList_inj.mp hnil)
        rw [packedCode_retype fileType hvalue hbare, htext, hname', hdisplay,
          ← packedCode_declaration (quotes_profileOf fileType) hb hcode hparts rfl hne]
        exact congrArg _ String.toList_ofList.symm
    · have hretype : (Rules.style fileType).retype o (.leaf i) width = i.fullText := by
        simp [Rules.style, Member.children?, Member.info, hvalue]
      rw [hretype]
      rfl

end MemberOrder.Style
