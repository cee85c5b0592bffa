/-
  The comments of a style sheet are attached once.

  Declarations, steps, runs and blocks each take their comments from the pool, so the entities of a
  sheet share a ledger in every dialect. Outside of the indented one, where the offsets of the scanned
  text are those of the source, what is lost lies inside a member or outside of the body, and each
  entity keeps the comments of its body (`Sheet.Keeping`, `readBlock_keeping`). Moving the comments of
  the indented dialect to the source keeps their number and order (`attached_relocateEntity`).
-/
import MemberOrder.Proofs.Comments.Ledger
import MemberOrder.Proofs.Placement.Style

namespace MemberOrder.Style

open Attachment

variable {d : Sheet} {p : Profile} {u : Text}

theorem Sheet.Sound.toSource_eq (hd : d.Sound p u) (h : d.isIndented = false) :
    d.toSource = id := by
  rcases hd.plain with hind | ⟨-, hid, -⟩
  · rw [h] at hind
    cases hind
  · exact hid

/-- A comment may be lost among some members: outside of the indented dialect it lies inside one. -/
def Sheet.Loses (d : Sheet) (ms : List Member) (c : Comment) : Prop :=
  d.isIndented = false → ∃ m ∈ ms, m.Covers c

/-- A comment between two scanned offsets lies inside the member that spans them. -/
theorem Sheet.Sound.loses (hd : d.Sound p u) {m : Member} {start stop : Nat}
    (hspan : m.info.span = some (d.span start stop)) {c : Comment} (h1 : start ≤ c.offset)
    (h2 : c.stop ≤ stop) : d.Loses [m] c := by
  intro hplain
  refine ⟨m, List.mem_cons_self, .own ⟨_, hspan, ?_⟩⟩
  simp only [Sheet.span, hd.toSource_eq hplain]
  exact ⟨h1, h2⟩

theorem Sheet.Loses.mono {ms ms' : List Member} {c : Comment} (h : d.Loses ms c)
    (hsub : ∀ m ∈ ms, m ∈ ms') : d.Loses ms' c := by
  intro hplain
  obtain ⟨m, hm, hc⟩ := h hplain
  exact ⟨m, hsub m hm, hc⟩

/-- The ledger of a member followed by that of others. -/
theorem ledger_cons {m : Member} {ms : List Member} {pool mid left : List Comment}
    (h : Ledger d.scanned (d.Loses [m]) pool m.attached mid)
    (h' : Ledger d.scanned (d.Loses ms) mid (attachedIn ms) left) :
    Ledger d.scanned (d.Loses (m :: ms)) pool (attachedIn (m :: ms)) left := by
  refine (h.weaken fun c hc => hc.mono ?_).trans (h'.weaken fun c hc => hc.mono ?_)
  · simp
  · exact fun m' hm' => List.mem_cons_of_mem m hm'

/-! ## Declarations and steps -/

theorem declarationMember_ledger (hd : d.Sound p u) {start stop a b : Nat} {semicolon : Option Nat}
    (hcut : Cut d.scanned (.declaration start stop semicolon) a b) (floor limit : Nat)
    (pool : List Comment) :
    let r := declarationMember d start stop semicolon floor limit pool
    Ledger d.scanned (d.Loses [r.1.1]) pool r.1.1.attached r.2 := by
  intro r
  obtain ⟨m, hmatch⟩ := Option.isSome_iff_exists.mp hcut.wellCut.2.2.1
  have hspan : r.1.1.info.span = some (d.span start stop) := by
    simp only [r, declarationMember_eq, Member.info, declarationInfo, hmatch]
  have hdangling : (declarationInfo d start stop semicolon).dangling = [] := by
    simp only [declarationInfo, hmatch]
  let lost := d.Loses [r.1.1]
  let lead := takeLeading d.scanned start floor pool
  let inside := takeInside start stop lead.2
  let early := takeEarly stop semicolon inside.2
  let trail := takeTrailing d.scanned (pastSeparator stop semicolon) limit d.trailingSkip early.2
  have hlead : Ledger d.scanned lost pool lead.1 lead.2 := takeLeading_ledger _ lost _ _ pool
  have hinside : Ledger d.scanned lost lead.2 [] inside.2 :=
    takeInside_lose _ _ fun c _ h1 h2 => hd.loses hspan h1 h2
  have hearly : Ledger d.scanned lost inside.2 early.1 early.2 := takeEarly_ledger _ lost _ _ _
  have htrail : Ledger d.scanned lost early.2 trail.1 trail.2 :=
    takeTrailing_ledger _ lost _ _ d.trailingSkip _
  have hattached : r.1.1.attached = lead.1 ++ ([] ++ (early.1 ++ trail.1)) := by
    simp only [r, declarationMember_eq, Member.attached, hdangling, List.append_nil,
      List.nil_append]
    rfl
  have hleft : r.2 = trail.2 := by
    simp only [r, declarationMember_eq]
    rfl
  rw [hattached, hleft]
  exact hlead.trans (hinside.trans (hearly.trans htrail))

theorem declarationsFrom_ledger (hd : d.Sound p u) (limit : Nat) {a b : Nat} {items : List Item}
    (hitems : Chain (Cut d.scanned) a b items) (floor : Nat) (pool : List Comment) :
    let r := declarationsFrom d limit items floor pool
    Ledger d.scanned (d.Loses r.1) pool (attachedIn r.1) r.2 := by
  induction hitems generalizing floor pool with
  | nil => exact .refl _ _ pool
  | cons _ hcut _ ih =>
    rename_i item rest _ _
    cases item with
    | declaration start stop semicolon =>
      simp only [declarationsFrom, bind_apply, pure_apply]
      exact ledger_cons (declarationMember_ledger hd hcut floor limit pool) (ih _ _)
    | statement start stop semicolon => exact ih floor pool
    | block start stop openAt closeAt => exact ih floor pool

theorem stepMember_ledger (hd : d.Sound p u) {start stop openAt closeAt a b : Nat}
    (hcut : Cut d.scanned (.block start stop openAt closeAt) a b) (floor limit : Nat)
    (pool : List Comment) :
    let r := stepMember d start stop openAt closeAt floor limit pool
    Ledger d.scanned (d.Loses [r.1.1]) pool r.1.1.attached r.2 := by
  intro r
  obtain ⟨hopen, hlt, -, hclose⟩ := hcut.wellCut
  have hspan : r.1.1.info.span = some (d.span start (closeAt + 1)) := rfl
  let inner := (items d.scanned (openAt + 1) closeAt).1
  have hinner : Chain (Cut d.scanned) (openAt + 1) closeAt inner :=
    items_chain hlt (Or.inl hclose)
  let lost := d.Loses [r.1.1]
  let lead := takeLeading d.scanned start floor pool
  let header := takeInside start openAt lead.2
  let children := declarationsFrom d closeAt inner (openAt + 1) header.2
  let dangling := takeInside (openAt + 1) closeAt children.2
  let trail := takeTrailing d.scanned (closeAt + 1) limit d.trailingSkip dangling.2
  have hlead : Ledger d.scanned lost pool lead.1 lead.2 := takeLeading_ledger _ lost _ _ pool
  have hheader : Ledger d.scanned lost lead.2 [] header.2 :=
    takeInside_lose _ _ fun c _ h1 h2 => hd.loses hspan h1 (by omega)
  have hchildren : Ledger d.scanned lost header.2 (attachedIn children.1) children.2 := by
    refine (declarationsFrom_ledger hd closeAt hinner (openAt + 1) header.2).weaken fun c hc hplain => ?_
    obtain ⟨m, hm, hcovers⟩ := hc hplain
    exact ⟨_, List.mem_cons_self, .child hm hcovers⟩
  have hdangling : Ledger d.scanned lost children.2 dangling.1 dangling.2 :=
    takeInside_ledger _ lost _ _ _
  have htrail : Ledger d.scanned lost dangling.2 trail.1 trail.2 :=
    takeTrailing_ledger _ lost _ _ d.trailingSkip _
  refine (hlead.trans (hheader.trans (hchildren.trans (hdangling.trans htrail)))).perm ?_
  show (lead.1 ++ trail.1 ++ dangling.1 ++ attachedIn children.1).Perm
    (lead.1 ++ (attachedIn children.1 ++ (dangling.1 ++ trail.1)))
  rw [List.append_assoc, List.append_assoc]
  refine List.Perm.append_left lead.1 ?_
  rw [← List.append_assoc trail.1]
  exact (List.perm_append_comm.append_right _).trans List.perm_append_comm

theorem stepsFrom_ledger (hd : d.Sound p u) {limit a b : Nat} {steps : List Item}
    (hsteps : Chain (Cut d.scanned) a b steps) (floor : Nat) (pool : List Comment) :
    let r := stepsFrom d limit steps floor pool
    Ledger d.scanned (d.Loses r.1) pool (attachedIn r.1) r.2 := by
  induction hsteps generalizing floor pool with
  | nil => exact .refl _ _ pool
  | cons _ hcut _ ih =>
    rename_i item rest _ _
    cases item with
    | block start stop openAt closeAt =>
      simp only [stepsFrom, bind_apply, pure_apply]
      exact ledger_cons (stepMember_ledger hd hcut floor limit pool) (ih _ _)
    | declaration start stop semicolon => exact ih floor pool
    | statement start stop semicolon => exact ih floor pool

/-! ## Entities -/

/-- Entities of a sheet share a ledger of what is taken from a pool, and outside of the indented
dialect each keeps the comments of its body. -/
structure Sheet.Keeping (d : Sheet) (es : List Entity) (pool left : List Comment) : Prop where
  ledger : Ledger d.scanned (fun _ => True) pool (es.flatMap Entity.attached) left
  keep : d.isIndented = false → ∀ e ∈ es, e.Keeps d.scanned.comments

theorem Sheet.Keeping.nil (d : Sheet) (pool : List Comment) : d.Keeping [] pool pool :=
  ⟨.refl _ _ pool, by simp⟩

theorem Sheet.Keeping.append {es es' : List Entity} {pool mid left : List Comment}
    (h : d.Keeping es pool mid) (h' : d.Keeping es' mid left) : d.Keeping (es ++ es') pool left where
  ledger := by
    rw [List.flatMap_append]
    exact h.ledger.trans h'.ledger
  keep hplain e he := (List.mem_append.mp he).elim (h.keep hplain e) (h'.keep hplain e)

/-- One entity that has its place and accounts for its comments. -/
theorem Sheet.Sound.keeping (hd : d.Sound p u) {e : Entity} {pool left : List Comment}
    (hledger : Ledger d.scanned (fun c => d.isIndented = false → e.Passes c) pool e.attached left)
    (hswept : d.isIndented = false → ∀ c ∈ left, ¬e.Holds c) {a b reach : Nat}
    (he : EntityAt d e a b) (hpool : Drawn reach d.scanned.comments pool) (ha : reach ≤ a) :
    d.Keeping [e] pool left where
  ledger := by
    rw [List.flatMap_singleton]
    exact hledger.weaken fun _ _ => trivial
  keep hplain e' he' := by
    rw [List.mem_singleton.mp he']
    have haccounted : e.Accounted d.scanned pool left :=
      ⟨hledger.weaken fun c hc => hc hplain, hswept hplain⟩
    have hlaid := he.2.1
    rw [hd.toSource_eq hplain] at hlaid
    exact haccounted.keeps hd.orderly hlaid (hpool.mono ha)

/-- What members lose, the entity with these members may miss. -/
theorem Sheet.Loses.passes {e : Entity} {c : Comment} (h : d.Loses e.members c)
    (hplain : d.isIndented = false) : e.Passes c :=
  Or.inl (h hplain)

/-- A run of declarations keeps its comments. -/
theorem runEntity_keeping (hd : d.Sound p u) {a b : Nat} {run : List Item} {item : Item}
    (hrun : Chain (Cut d.scanned) a b run) (hlast : run.getLast? = some item)
    (hdecl : ∀ item ∈ run, item.isDeclaration = true) (hb : b ≤ u.size) {floor reach : Nat}
    {pool : List Comment} (hreach : Reach d floor reach pool)
    (hfloor : ∀ item ∈ run, floor ≤ item.start) (selector : String) (media : Option String) :
    let r := runEntity d run floor selector media pool
    d.Keeping [r.1] pool r.2 := by
  intro r
  obtain ⟨first, last, he, hfirst, -⟩ :=
    runEntity_spec hd hrun hlast hdecl hb hreach hfloor selector media
  refine hd.keeping ?_ ?_ he hreach.drawn hfirst
  · have hmembers : Ledger d.scanned _ pool (attachedIn r.1.members) _ :=
      declarationsFrom_ledger hd _ hrun floor pool
    refine ((hmembers.weaken fun c hc => hc.passes).trans (takeInside_ledger _ _ _ _ _)).perm ?_
    exact List.perm_append_comm
  · rintro hplain c hc ⟨body, hbody, h1, h2⟩
    cases hbody
    simp only [Sheet.span, hd.toSource_eq hplain] at h1 h2
    exact takeInside_leaves _ _ hc ⟨h1, h2⟩

/-! ## Blocks -/

/-- What a reader of nested blocks does with comments. -/
def KeepsEntities (d : Sheet) (nested : BlockReader) : Prop :=
  ∀ {item : Item} {a b floor reach : Nat} {pool : List Comment} (media : Option String),
    Cut d.scanned item a b → b ≤ d.scanned.masked.size → floor ≤ item.start →
    Reach d floor reach pool →
    d.Keeping (nested item floor media pool).1 pool (nested item floor media pool).2

theorem endRun_keeping (hd : d.Sound p u) {base floor : Nat} {run : List Item}
    (hrun : Chain (Cut d.scanned) base floor run.reverse)
    (hdecl : ∀ item ∈ run, item.isDeclaration = true) (hsize : floor ≤ u.size)
    {runFloor reach : Nat} {pool : List Comment} (hbase : run ≠ [] → base = runFloor)
    (hreach : Reach d base reach pool) (selector : String) (media : Option String) :
    let r := endRun d run runFloor selector media pool
    d.Keeping r.1 pool r.2 := by
  cases run with
  | nil => exact .nil d pool
  | cons item before =>
    obtain rfl := hbase (by simp)
    have hlast : (item :: before).reverse.getLast? = some item := by simp
    exact runEntity_keeping hd hrun hlast (fun x hx => hdecl x (List.mem_reverse.mp hx)) hsize hreach
      (fun x hx => by
        obtain ⟨k, l, hx, hk, -⟩ := hrun.of_mem (fun _ _ _ h => h.le) hx
        rw [hx.start_eq]
        exact hk) selector media

/-- The entities of a mixed body keep their comments; the run read so far goes from `base` up to the
floor of the next item. -/
theorem mixedFrom_keeping (hd : d.Sound p u) {nested : BlockReader}
    (hnested : FindsEntities d nested) (hkeeps : KeepsEntities d nested) (selector : String)
    (media : Option String) {rest : List Item} {floor b : Nat}
    (hrest : Chain (Cut d.scanned) floor b rest) (hsize : b ≤ u.size) {run : List Item}
    {base runFloor reach : Nat} {pool : List Comment}
    (hrun : Chain (Cut d.scanned) base floor run.reverse)
    (hdecl : ∀ item ∈ run, item.isDeclaration = true)
    (hbase : base = if run.isEmpty then floor else runFloor) (hreach : Reach d base reach pool) :
    let r := mixedFrom d nested selector media rest run runFloor floor pool
    d.Keeping r.1 pool r.2 := by
  have hrunFloor : run ≠ [] → base = runFloor := by
    intro hne
    rw [hbase, if_neg (by simpa using hne)]
  induction hrest generalizing run base runFloor reach pool with
  | nil h => exact endRun_keeping hd hrun hdecl (Nat.le_trans h hsize) hrunFloor hreach selector media
  | cons ha hcut hrest ih =>
    rename_i floor i j b child rest
    have hjb : j ≤ b := hrest.le fun _ _ _ h => h.le
    have hij := hcut.lt
    have hnext : max floor child.after = j := by
      rw [hcut.after_eq]
      omega
    cases hchild : child.isDeclaration with
    | true =>
      have hjoined : Chain (Cut d.scanned) base j (child :: run).reverse := by
        rw [List.reverse_cons]
        exact hrun.snoc ha hcut
      simp only [mixedFrom, hchild, if_true, hnext]
      refine ih hsize hjoined ?_ ?_ hreach ?_
      · intro x hx
        rcases List.mem_cons.mp hx with rfl | hx
        · exact hchild
        · exact hdecl x hx
      · simp [hbase]
      · simp [hbase]
    | false =>
      obtain ⟨last, hlast, -⟩ :=
        endRun_found hd hrun hdecl (by omega) hrunFloor hreach selector media
      have hbefore := endRun_keeping hd hrun hdecl (by omega) hrunFloor hreach selector media
      have hsize' : j ≤ d.scanned.masked.size := by
        rw [hd.size_masked]
        omega
      rw [mixedFrom_other d nested selector media rest run runFloor floor pool hchild, hnext]
      let before := endRun d run runFloor selector media pool
      let inside := if child.isBlock then nested child floor media before.2 else ([], before.2)
      have hinside : Found d last j inside ∧ d.Keeping inside.1 before.2 inside.2 := by
        simp only [inside]
        split
        · exact ⟨hnested media hcut hsize' (hcut.start_eq ▸ ha) hlast,
            hkeeps media hcut hsize' (hcut.start_eq ▸ ha) hlast⟩
        · exact ⟨hlast.found (by omega) hsize', .nil d _⟩
      obtain ⟨⟨last', hlast', -⟩, hinside⟩ := hinside
      have hnone : Chain (Cut d.scanned) j j ([] : List Item).reverse := .nil (Nat.le_refl j)
      exact (hbefore.append hinside).append (ih hsize hnone (by simp) rfl hlast' (by simp))

/-- One entity that is found has its place after the reach. -/
theorem Found.single {reach b : Nat} {e : Entity} {left : List Comment}
    (h : Found d reach b ([e], left)) : ∃ i j, EntityAt d e i j ∧ reach ≤ i := by
  obtain ⟨last, -, hchain⟩ := h
  obtain ⟨i, j, he, hi, -⟩ := hchain.of_mem (fun _ _ _ h => h.1) List.mem_cons_self
  exact ⟨i, j, he, hi⟩

/-- What is taken in front of the body of a block is not in it. -/
theorem header_lose (hd : d.Sound p u) {e : Entity} {start openAt closeAt : Nat}
    (hbody : e.body = some (d.span (openAt + 1) closeAt)) (pool : List Comment) :
    Ledger d.scanned (fun c => d.isIndented = false → e.Passes c) pool []
      (takeInside start openAt pool).2 := by
  refine takeInside_lose _ _ fun c h1 h2 h3 hplain => Or.inr ?_
  rintro ⟨body, hbody', h4, -⟩
  obtain rfl := Option.some.inj (hbody.symm.trans hbody')
  simp only [Sheet.span, hd.toSource_eq hplain] at h4
  exact absurd (show openAt + 1 ≤ c.offset from h4) (by omega)

/-- An entity whose members and dangling comments are those of a block keeps its comments. -/
theorem block_keeping (hd : d.Sound p u) {e : Entity} {start openAt closeAt floor reach : Nat}
    {pool mid : List Comment} (hbody : e.body = some (d.span (openAt + 1) closeAt))
    (hleading : e.leading = (takeLeading d.scanned start floor pool).1)
    (hmembers : Ledger d.scanned (d.Loses e.members)
      (takeInside start openAt (takeLeading d.scanned start floor pool).2).2 (attachedIn e.members) mid)
    (hdangling : e.dangling = (takeInside (openAt + 1) closeAt mid).1) {a b : Nat}
    (he : EntityAt d e a b) (hpool : Drawn reach d.scanned.comments pool) (ha : reach ≤ a) :
    d.Keeping [e] pool (takeInside (openAt + 1) closeAt mid).2 := by
  let lost := fun c => d.isIndented = false → e.Passes c
  let lead := takeLeading d.scanned start floor pool
  have hlead : Ledger d.scanned lost pool e.leading lead.2 := by
    rw [hleading]
    exact takeLeading_ledger _ lost start floor pool
  have hheader : Ledger d.scanned lost lead.2 [] (takeInside start openAt lead.2).2 :=
    header_lose hd hbody lead.2
  have hmembers : Ledger d.scanned lost _ (attachedIn e.members) mid :=
    hmembers.weaken fun c hc => hc.passes
  have hrest : Ledger d.scanned lost mid e.dangling (takeInside (openAt + 1) closeAt mid).2 := by
    rw [hdangling]
    exact takeInside_ledger _ lost _ _ mid
  refine hd.keeping ((hlead.trans (hheader.trans (hmembers.trans hrest))).perm ?_) ?_ he hpool ha
  · show (e.leading ++ e.dangling ++ attachedIn e.members).Perm _
    rw [List.append_assoc]
    exact List.perm_append_comm.append_left e.leading
  · rintro hplain c hc ⟨body, hbody', h1, h2⟩
    obtain rfl := Option.some.inj (hbody.symm.trans hbody')
    simp only [Sheet.span, hd.toSource_eq hplain] at h1 h2
    exact takeInside_leaves _ _ hc ⟨h1, h2⟩

/-- The entities of a block keep their comments, by induction on the depth of blocks. -/
theorem readBlock_keeping (hd : d.Sound p u) (fuel : Nat) : KeepsEntities d (readBlock d fuel) := by
  have hs := hd.orderly
  induction fuel with
  | zero => exact fun _ _ _ _ _ => .nil d _
  | succ fuel ih =>
    intro item a b floor reach pool media hcut hsize hfloor hreach
    have hfound := readBlock_found hd (fuel + 1) media hcut hsize hfloor hreach
    have hlost : ∀ {attached mid left}, Ledger d.scanned (fun _ => True) mid attached left →
        d.Keeping [] mid left := fun h => ⟨h.lose fun _ _ _ => trivial, by simp⟩
    cases item with
    | declaration start stop semicolon => exact .nil d pool
    | statement start stop semicolon => exact .nil d pool
    | block start stop openAt closeAt =>
      obtain ⟨hopen, hbraces, -, hclose⟩ := hcut.wellCut
      have hinner := items_chain hbraces (Or.inl hclose)
      have hheader := (takeLeading_ledger d.scanned (fun _ => True) start floor pool).trans
        (takeInside_ledger d.scanned _ start openAt _)
      rw [readBlock_block] at hfound ⊢
      simp only at hfound ⊢
      split
      · rename_i hkeyframes
        rw [if_pos hkeyframes] at hfound
        obtain ⟨i, j, he, hi⟩ := hfound.single
        exact block_keeping hd rfl rfl (stepsFrom_ledger hd hinner _ _) rfl he hreach.drawn hi
      · rename_i hkeyframes
        rw [if_neg hkeyframes] at hfound
        split
        · rename_i hall
          rw [if_pos hall] at hfound
          split
          · have hmembers := declarationsFrom_ledger hd closeAt hinner (openAt + 1)
              (takeInside start openAt (takeLeading d.scanned start floor pool).2).2
            exact hlost (hheader.trans ((hmembers.weaken fun _ _ => trivial).trans
              (takeInside_ledger _ _ _ _ _)))
          · rename_i hmembers
            rw [if_neg hmembers] at hfound
            obtain ⟨i, j, he, hi⟩ := hfound.single
            exact block_keeping hd rfl rfl (declarationsFrom_ledger hd closeAt hinner _ _) rfl he
              hreach.drawn hi
        · have hreachstart : reach ≤ start := hreach.le_start hfloor hcut.starts
          have hpool := (hreach.header hs hreachstart hopen).mono (Nat.le_succ openAt)
          have hafter : closeAt + 1 = b := hcut.after_eq
          have hsize' : closeAt ≤ u.size := by
            rw [← hd.size_masked]
            omega
          have hbody : Reach d (openAt + 1) (openAt + 1) _ := Reach.of_drawn hpool (by omega)
          have hnone : Chain (Cut d.scanned) (openAt + 1) (openAt + 1) ([] : List Item).reverse :=
            .nil (Nat.le_refl _)
          exact (hlost hheader).append (mixedFrom_keeping hd (readBlock_found hd fuel) ih _ _ hinner
            hsize' hnone (by simp) rfl hbody)

/-- The entities of the items of a sheet keep their comments. -/
theorem entitiesFrom_keeping (hd : d.Sound p u) {top : List Item} {floor b reach : Nat}
    {pool : List Comment} (htop : Chain (Cut d.scanned) floor b top)
    (hsize : b ≤ d.scanned.masked.size) (hreach : Reach d floor reach pool) :
    d.Keeping (entitiesFrom d top floor pool).1 pool (entitiesFrom d top floor pool).2 := by
  induction htop generalizing reach pool with
  | nil => exact .nil d pool
  | cons ha hcut hrest ih =>
    rename_i floor i j b item rest
    have hij := hcut.lt
    have hjb := hrest.le fun _ _ _ h => h.le
    cases hblock : item.isBlock with
    | false =>
      simp only [entitiesFrom, hblock, hcut.after_eq]
      exact ih hsize (hreach.weaken (by omega) (by omega))
    | true =>
      simp only [entitiesFrom, hblock, hcut.after_eq]
      obtain ⟨last, hlast, -⟩ := readBlock_found hd (d.scanned.source.size + 1) none hcut (by omega)
        (hcut.start_eq ▸ ha) hreach
      have hfirst := readBlock_keeping hd (d.scanned.source.size + 1) none hcut (by omega)
        (hcut.start_eq ▸ ha) hreach
      exact hfirst.append (ih hsize hlast)

/-! ## Sheets in the indented dialect -/

mutual

theorem attached_relocateMember (toSource : Nat → Nat) (m : Member) :
    (relocateMember toSource m).attached = m.attached.map (relocate toSource) := by
  cases m with
  | leaf i => simp only [relocateMember, relocateInfo, Member.attached, List.map_append]
  | group i children =>
    simp only [relocateMember, relocateInfo, Member.attached, List.map_append,
      attachedIn_relocateMembers toSource children]

theorem attachedIn_relocateMembers (toSource : Nat → Nat) (ms : List Member) :
    attachedIn (relocateMembers toSource ms) = (attachedIn ms).map (relocate toSource) := by
  cases ms with
  | nil => rfl
  | cons m rest =>
    simp only [relocateMembers, attachedIn, List.map_append, attached_relocateMember toSource m,
      attachedIn_relocateMembers toSource rest]

end

theorem attached_relocateEntity (toSource : Nat → Nat) (e : Entity) :
    (relocateEntity toSource e).attached = e.attached.map (relocate toSource) := by
  simp only [relocateEntity, Entity.attached, List.map_append,
    attachedIn_relocateMembers toSource e.members]

/-! ## Reading -/

/-- The comments of a sheet, where they stand in the source. -/
def Sheet.comments (d : Sheet) : List Comment :=
  if d.isIndented then d.scanned.comments.map (relocate d.toSource) else d.scanned.comments

/-- No two comments of a sheet start at one place of the source. -/
theorem sheetOf_comments_ordered (fileType : FileType) (t : Text) :
    (sheetOf fileType t).comments.Pairwise fun a b => a.offset < b.offset := by
  obtain ⟨p, u, hd⟩ := sheetOf_sound fileType t
  have hordered : (sheetOf fileType t).scanned.comments.Pairwise fun a b => a.offset < b.offset :=
    hd.orderly.ordered.imp_of_mem fun ha _ hab =>
      Nat.lt_of_lt_of_le (hd.orderly.nonempty _ ha) hab
  unfold Sheet.comments
  split
  · rename_i hindented
    refine List.pairwise_map.mpr (hordered.imp_of_mem fun {a b} ha hb hab => ?_)
    have hsass : (fileType == .sass) = true := by
      unfold sheetOf at hindented
      split at hindented
      · assumption
      · exact hindented
    simp only [sheetOf, hsass, if_true] at ha hb ⊢
    -- the first comment starts with a slash, which is not inserted
    refine Indented.toSource_lt_of_char (Nat.le_refl _) hab ?_ ?_ (c := '/') (by decide)
    · have := Scanned.comment_bounds hb
      simp only [List.size_toArray] at this
      omega
    · have := Scanned.slash_of_comment ha
      simpa using this
  · exact hordered

/-- Reading a sheet attaches no comment twice, and outside of the indented dialect each entity keeps
the comments of its body. -/
theorem read_keeping (fileType : FileType) (t : Text) :
    (read fileType t).attached.Nodup ∧
      (∀ c ∈ (read fileType t).attached, c ∈ (sheetOf fileType t).comments) ∧
      ((sheetOf fileType t).isIndented = false →
        ∀ e ∈ (read fileType t).entities, e.Keeps (sheetOf fileType t).comments) := by
  obtain ⟨p, u, hd⟩ := sheetOf_sound fileType t
  let d := sheetOf fileType t
  have htop : Chain (Cut d.scanned) 0 d.scanned.masked.size
      (items d.scanned 0 d.scanned.masked.size).1 :=
    items_chain (Nat.zero_le _) (Or.inr rfl)
  have hall : Reach d 0 0 d.scanned.comments := Reach.of_drawn (Drawn.refl 0 _) (Nat.zero_le _)
  have hkeeping := entitiesFrom_keeping hd htop (Nat.le_refl _) hall
  let es := (entitiesFrom d (items d.scanned 0 d.scanned.masked.size).1 0 d.scanned.comments).1
  have hentities : (read fileType t).entities =
      if d.isIndented then es.map (relocateEntity d.toSource) else es := rfl
  have hnodup := hkeeping.ledger.nodup hd.orderly.nodup
  have hsub : ∀ c ∈ es.flatMap Entity.attached, c ∈ d.scanned.comments :=
    fun c hc => hkeeping.ledger.mem_pool hc
  have hordered := sheetOf_comments_ordered fileType t
  cases hindented : d.isIndented with
  | false =>
    have hcomments : d.comments = d.scanned.comments := by simp [Sheet.comments, hindented]
    simp only [Reading.attached, hentities, hindented, Bool.false_eq_true, if_false]
    rw [hcomments]
    exact ⟨hnodup, hsub, fun _ => hkeeping.keep hindented⟩
  | true =>
    have hcomments : d.comments = d.scanned.comments.map (relocate d.toSource) := by
      simp [Sheet.comments, hindented]
    rw [hcomments] at hordered ⊢
    have hattached : (read fileType t).attached =
        (es.flatMap Entity.attached).map (relocate d.toSource) := by
      simp only [Reading.attached, hentities, hindented, if_true, List.flatMap_map, List.map_flatMap,
        attached_relocateEntity]
    rw [hattached]
    refine ⟨hnodup.map_on fun a ha b hb heq => ?_, fun c hc => ?_, by simp⟩
    · -- two comments that are moved to one place are one
      refine List.inj_on_of_nodup_map (hordered.imp fun h heq => ?_) (hsub a ha) (hsub b hb) heq
      rw [heq] at h
      exact Nat.lt_irrefl _ h
    · obtain ⟨c', hc', rfl⟩ := List.mem_map.mp hc
      exact List.mem_map.mpr ⟨c', hsub c' hc', rfl⟩

end MemberOrder.Style
