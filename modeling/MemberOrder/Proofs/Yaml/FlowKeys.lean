/-
  Keys of a flow mapping at the root.

  Such a mapping is taken apart into names and values, and a mapping is made up again from them in their
  new order. A name is all that is left of a key, so keys that have lost their kind are not told from
  others.

  - An integer that has not too many digits and a text that is not minus signs and digits come back from
    their names, and no other text, integer, truth value, null or float does (`keyOfName_displayKey`,
    `comesBack_of_keyOfName`).
  - Entries whose keys differ are all set, in their order (`foldl_setEntry`).
  - So the mapping has the keys and values of the one that was read exactly if every key comes back
    (`collectionOf_keeps_iff`), and then it is written (`writeFlow_ok`). This is so for every text whose
    root is a flow mapping and for every order of its entries (`collectionOf_keeps_keys`). An integer and
    a text that looks like it are one key afterwards (`collectionOf_merges_keys`).
-/
import Mathlib.Data.List.Forall2
import MemberOrder.Process
import MemberOrder.Proofs.Order.Bindings
import MemberOrder.Proofs.Text.Digits
import MemberOrder.Proofs.Yaml.Spans

namespace MemberOrder.Yaml

/-! ## Names of keys -/

/-- Whether a name is taken for an integer: digits, after minus signs. -/
def looksInteger (name : String) : Bool :=
  let digits := name.toList.dropWhile (· == '-')
  !digits.isEmpty && digits.all Text.isDigit

/-- Whether a scalar as a key comes back from its name. -/
def comesBack : Scalar → Bool
  | .int n => (Nat.toDigits 10 n.natAbs).length ≤ Text.digitLimit
  | .text s => !looksInteger s
  | _ => false

/-- Whether a scalar is a text, an integer, a truth value, a float or null. -/
def isCommon : Scalar → Bool
  | .text _ | .int _ | .bool _ | .float _ | .null => true
  | _ => false

variable {name : String} {form f : Form} {key : Node}

theorem keyOfName_eq (name : String) (form : Form) :
    keyOfName name form =
      if looksInteger name then do
        let n ← (Text.readInteger name.toList).mapError .keyIsNoNumber
        return .scalar (.int n) {}
      else .ok (.scalar (.text name) form) := by
  have hlooks : ((name.toList.dropWhile (· == '-')).isEmpty ||
      !(name.toList.dropWhile (· == '-')).all Text.isDigit) = !looksInteger name := by
    rw [looksInteger, Bool.not_and, Bool.not_not]
  rw [keyOfName, hlooks]
  cases looksInteger name <;> rfl

theorem keyOfName_text (h : looksInteger name = false) :
    keyOfName name form = .ok (.scalar (.text name) form) := by
  rw [keyOfName_eq, h, if_neg Bool.false_ne_true]

theorem keyOfName_integer (h : looksInteger name = true) :
    keyOfName name form = (do
      let n ← (Text.readInteger name.toList).mapError .keyIsNoNumber
      return .scalar (.int n) {}) := by
  rw [keyOfName_eq, if_pos h]

/-- What a name gives: itself, or the integer that it looks like. -/
theorem keyOfName_ok (h : keyOfName name form = .ok key) :
    looksInteger name = false ∧ key = .scalar (.text name) form ∨
      looksInteger name = true ∧ ∃ n, Text.readInteger name.toList = .ok n ∧ key = .scalar (.int n) {} := by
  cases hlooks : looksInteger name with
  | false =>
    rw [keyOfName_text hlooks] at h
    cases h
    exact .inl ⟨rfl, rfl⟩
  | true =>
    rw [keyOfName_integer hlooks] at h
    obtain ⟨n, hn, h⟩ := bind_ok h
    cases h
    exact .inr ⟨rfl, n, mapError_ok hn, rfl⟩

/-- The name of an integer looks like one. -/
theorem looksInteger_toString (n : Int) : looksInteger (toString n) = true := by
  have hdigits : ((toString n).toList.dropWhile (· == '-')) = Nat.toDigits 10 n.natAbs := by
    have hsign : ∀ c ∈ (if n < 0 then ['-'] else []), (c == '-') = true := by
      split <;> simp
    rw [Text.toList_toString_int, List.dropWhile_append_of_pos hsign]
    cases hdigits : Nat.toDigits 10 n.natAbs with
    | nil => rfl
    | cons c rest =>
      have hc : c.isDigit = true := Text.isDigit_of_mem_digits (hdigits ▸ List.mem_cons_self)
      have hne : (c == '-') = false := beq_eq_false_iff_ne.mpr fun h => by
        rw [h] at hc
        cases hc
      rw [List.dropWhile_cons, hne, if_neg Bool.false_ne_true]
  have hall : (Nat.toDigits 10 n.natAbs).all Text.isDigit = true := List.all_eq_true.mpr fun c hc => by
    rw [Text.isDigit, Text.isDecimal_of_isDigit (Text.isDigit_of_mem_digits hc), Bool.true_or]
  rw [looksInteger, hdigits, hall, List.isEmpty_eq_false_iff.mpr Nat.toDigits_ne_nil]
  rfl

theorem comesBack_cases {v : Scalar} (h : comesBack v = true) : (∃ n, v = .int n) ∨ ∃ s, v = .text s := by
  cases v with
  | int n => exact .inl ⟨n, rfl⟩
  | text s => exact .inr ⟨s, rfl⟩
  | _ => cases h

/-- A key that comes back is what its name gives, in no form of its own. -/
theorem keyOfName_displayKey {v : Scalar} (h : comesBack v = true) (f : Form) :
    keyOfName (Node.displayKey (.scalar v f)) (keptForm (.scalar v f)) = .ok (.scalar v {}) := by
  rcases comesBack_cases h with ⟨n, rfl⟩ | ⟨s, rfl⟩
  · show keyOfName (toString n) {} = _
    rw [keyOfName_integer (looksInteger_toString n),
      (Text.readInteger_toString n).mpr (of_decide_eq_true h)]
    rfl
  · have hlooks : looksInteger s = false := by simpa [comesBack] using h
    exact keyOfName_text hlooks

/-- A key that has come back is one that does: no name gives a truth value, a float or null, nor a
text that looks like an integer, and an integer has been read from its name. -/
theorem comesBack_of_keyOfName {v : Scalar} {g : Form} (hcommon : isCommon v = true)
    (hgiven : keyOfName name form = .ok (.scalar v g))
    (hown : keyOfName (Node.displayKey (.scalar v f)) (keptForm (.scalar v f)) = .ok key) :
    comesBack v = true := by
  rcases keyOfName_ok hgiven with ⟨hlooks, heq⟩ | ⟨-, n, -, heq⟩
  · cases heq
    rw [comesBack, hlooks]
    rfl
  · cases heq
    have hown : keyOfName (toString n) (keptForm (.scalar (.int n) f)) = .ok key := hown
    rw [keyOfName_integer (looksInteger_toString n)] at hown
    obtain ⟨m, hm, -⟩ := bind_ok hown
    have hm := mapError_ok hm
    obtain rfl : n = m := by
      rw [Text.readInteger, Text.readInteger?_toString] at hm
      split at hm
      · cases hm
      · rename_i hsome _
        cases hm
        exact Option.some.inj hsome
      · cases hm
    exact decide_eq_true ((Text.readInteger_toString n).mp hm)

/-! ## Entries that are set one after the other -/

/-- Entries whose keys differ are all there, in their order. -/
theorem foldl_setEntry {done es : List (Node × Node)}
    (h : (done ++ es).Pairwise fun a b => sameKey b.1 a.1 = false) :
    es.foldl setEntry done = done ++ es := by
  induction es generalizing done with
  | nil => rw [List.foldl_nil, List.append_nil]
  | cons e rest ih =>
    have hnew : done.any (sameKey e.1 ·.1) = false := List.any_eq_false.mpr fun d hd => by
      rw [(List.pairwise_append.mp h).2.2 d hd e List.mem_cons_self]
      exact Bool.false_ne_true
    have hset : setEntry done e = done ++ [e] := by
      rw [setEntry, hnew, if_neg Bool.false_ne_true]
    rw [List.foldl_cons, hset, ih (by rwa [List.append_assoc, List.singleton_append]), List.append_assoc,
      List.singleton_append]

/-- Setting an entry adds no other key. -/
theorem mem_keys_setEntry {entries : List (Node × Node)} {e d : Node × Node} (h : d ∈ setEntry entries e) :
    d.1 = e.1 ∨ ∃ d' ∈ entries, d.1 = d'.1 := by
  rw [setEntry] at h
  split at h
  · obtain ⟨d', hd', rfl⟩ := List.mem_map.mp h
    exact .inr ⟨d', hd', by split <;> rfl⟩
  · rcases List.mem_append.mp h with h | h
    · exact .inr ⟨d, h, rfl⟩
    · exact .inl (congrArg Prod.fst (List.mem_singleton.mp h))

theorem mem_keys_foldl {es done : List (Node × Node)} {d : Node × Node}
    (h : d ∈ es.foldl setEntry done) : ∃ e ∈ done ++ es, d.1 = e.1 := by
  induction es generalizing done with
  | nil => exact ⟨d, by rwa [List.append_nil], rfl⟩
  | cons e rest ih =>
    obtain ⟨d', hd', hkey⟩ := ih h
    rcases List.mem_append.mp hd' with hd' | hd'
    · rcases mem_keys_setEntry hd' with hkey' | ⟨d'', hd'', hkey'⟩
      · exact ⟨e, List.mem_append_right done List.mem_cons_self, hkey.trans hkey'⟩
      · exact ⟨d'', List.mem_append_left _ hd'', hkey.trans hkey'⟩
    · exact ⟨d', List.mem_append_right done (List.mem_cons_of_mem e hd'), hkey⟩

/-! ## Mappings that are taken apart and made up again -/

/-- The member that an entry of a flow mapping makes. -/
def memberOf (line : Nat) (e : Node × Node) : Member :=
  .leaf { name := e.1.displayKey, keyForm := keptForm e.1, value := .node e.2, line }

/-- Whether an entry has the key and the value of another. The forms of the keys may differ, and the
remarks on the values. -/
inductive Keeps : Node × Node → Node × Node → Prop
  | entry (v : Scalar) (f g : Form) (value : Node) (r : Remarks) :
    Keeps (.scalar v f, value) (.scalar v g, value.withForm { value.form with remarks := r })

/-- Whether a key is a scalar that passes a test. -/
def isScalarKey (test : Scalar → Bool) : Node → Bool
  | .scalar v _ => test v
  | _ => false

/-- Whether the keys of entries are texts, integers, truth values, floats and null, no two of them
the same. -/
structure CommonKeys (es : List (Node × Node)) : Prop where
  common : ∀ e ∈ es, isScalarKey isCommon e.1 = true
  distinct : es.Pairwise fun a b => sameKey a.1 b.1 = false

instance (es : List (Node × Node)) : Decidable (CommonKeys es) :=
  decidable_of_iff ((∀ e ∈ es, isScalarKey isCommon e.1 = true) ∧
    es.Pairwise fun a b => sameKey a.1 b.1 = false) ⟨fun h => ⟨h.1, h.2⟩, fun h => ⟨h.1, h.2⟩⟩

/-- Whether entries that are made up have the keys and the values of entries that were read, in the
order of members. -/
def KeepsAll (es : List (Node × Node)) (ms : List Member) (made : List (Node × Node)) : Prop :=
  ∃ order, order.Perm es ∧ order.map (·.1.displayKey) = ms.map (·.name) ∧ List.Forall₂ Keeps order made

/-- Whether every key of entries comes back. -/
def KeysComeBack (es : List (Node × Node)) : Prop :=
  ∀ e ∈ es, isScalarKey comesBack e.1 = true

instance (es : List (Node × Node)) : Decidable (KeysComeBack es) :=
  inferInstanceAs (Decidable (∀ e ∈ es, isScalarKey comesBack e.1 = true))

theorem exists_of_isScalarKey {test : Scalar → Bool} (h : isScalarKey test key = true) :
    ∃ v f, key = .scalar v f ∧ test v = true := by
  cases key with
  | scalar v f => exact ⟨v, f, rfl, h⟩
  | sequence _ _ => cases h
  | mapping _ _ => cases h

/-- Keys that come back are the same exactly if they are equal. -/
theorem sameKey_eq {v w : Scalar} (hv : comesBack v = true) (hw : comesBack w = true) (f g : Form) :
    sameKey (.scalar v f) (.scalar w g) = (v == w) := by
  rcases comesBack_cases hv with ⟨m, rfl⟩ | ⟨s, rfl⟩
  · rcases comesBack_cases hw with ⟨n, rfl⟩ | ⟨s, rfl⟩
    · rw [sameKey]
      · show (m == n) = _
        rw [Bool.eq_iff_iff, beq_iff_eq, beq_iff_eq, Scalar.int.injEq]
      · simp
    · rw [sameKey]
      · rfl
      · simp
  · rcases comesBack_cases hw with ⟨n, rfl⟩ | ⟨s', rfl⟩ <;> rw [sameKey]
    · rfl
    · simp
    · rfl
    · simp

/-- What becomes of an entry whose key comes back. -/
def madeUp (e : Node × Node) : Node × Node := (e.1.withForm {}, valueNode .yamlObject (.node e.2))

variable {es order : List (Node × Node)} {line : Nat} {fileType : FileType} {t : LineTable} {root : Node}

/-- A value is itself, the remarks on it aside. -/
theorem valueNode_eq (n : Node) :
    ∃ r, valueNode .yamlObject (.node n) = n.withForm { n.form with remarks := r } := by
  rw [valueNode]
  split
  · exact ⟨n.form.remarks, by cases n <;> rfl⟩
  · exact ⟨{}, rfl⟩

theorem keeps_madeUp {e : Node × Node} (h : isScalarKey comesBack e.1 = true) : Keeps e (madeUp e) := by
  obtain ⟨key, value⟩ := e
  obtain ⟨v, f, rfl, -⟩ := exists_of_isScalarKey h
  obtain ⟨r, hr⟩ := valueNode_eq value
  rw [madeUp, hr]
  exact .entry v f {} value r

theorem collectionOf_members (order : List (Node × Node)) (line : Nat) :
    collectionOf .yamlObject (order.map (memberOf line)) = (do
      let keys ← order.mapM fun e => keyOfName e.1.displayKey (keptForm e.1)
      return .mapping ((keys.zip (order.map fun e => valueNode .yamlObject (.node e.2))).foldl setEntry [])
        { flow := true }) := by
  rw [collectionOf, List.map_map, List.mapM_map]
  rfl

/-- Keys that come back and differ are all there again, with their values. -/
theorem collectionOf_madeUp (hback : KeysComeBack order)
    (hdistinct : order.Pairwise fun a b => sameKey a.1 b.1 = false) :
    collectionOf .yamlObject (order.map (memberOf line)) =
      .ok (.mapping (order.map madeUp) { flow := true }) := by
  have hkeys : order.mapM (fun e => keyOfName e.1.displayKey (keptForm e.1)) =
      .ok (order.map fun e => e.1.withForm {}) := by
    clear hdistinct
    induction order with
    | nil => rfl
    | cons e rest ih =>
      obtain ⟨v, f, hkey, hv⟩ := exists_of_isScalarKey (hback e List.mem_cons_self)
      rw [List.mapM_cons, hkey, keyOfName_displayKey hv, ih fun d hd => hback d (List.mem_cons_of_mem e hd),
        List.map_cons, hkey]
      rfl
  have hzip : (order.map fun e => e.1.withForm {}).zip (order.map fun e => valueNode .yamlObject (.node e.2)) =
      order.map madeUp := by
    rw [List.zip_map']
    rfl
  have hmade : (order.map madeUp).Pairwise fun a b => sameKey b.1 a.1 = false := by
    rw [List.pairwise_map]
    refine hdistinct.imp_of_mem fun {a b} ha hb h => ?_
    obtain ⟨v, f, hkey, hv⟩ := exists_of_isScalarKey (hback a ha)
    obtain ⟨w, g, hkey', hw⟩ := exists_of_isScalarKey (hback b hb)
    rw [hkey, hkey', sameKey_eq hv hw] at h
    rw [madeUp, madeUp, hkey, hkey']
    show sameKey (.scalar w {}) (.scalar v {}) = false
    rw [sameKey_eq hw hv, Bool.beq_comm, h]
  rw [collectionOf_members, hkeys]
  show Except.ok (Node.mapping _ _) = _
  rw [hzip, foldl_setEntry hmade]
  rfl

/-- Keys that come back and differ still do so in another order. -/
theorem distinct_of_perm (hback : KeysComeBack es) (hdistinct : es.Pairwise fun a b => sameKey a.1 b.1 = false)
    (hperm : order.Perm es) : order.Pairwise fun a b => sameKey a.1 b.1 = false := by
  have hboth : es.Pairwise fun a b => sameKey a.1 b.1 = false ∧ sameKey b.1 a.1 = false := by
    refine hdistinct.imp_of_mem fun {a b} ha hb h => ⟨h, ?_⟩
    obtain ⟨v, f, hkey, hv⟩ := exists_of_isScalarKey (hback a ha)
    obtain ⟨w, g, hkey', hw⟩ := exists_of_isScalarKey (hback b hb)
    rw [hkey, hkey', sameKey_eq hv hw] at h
    rw [hkey, hkey', sameKey_eq hw hv, Bool.beq_comm, h]
  exact ((hperm.pairwise_iff And.symm).mpr hboth).imp And.left

theorem exists_of_forall₂ {α β : Type} {R : α → β → Prop} {xs : List α} {ys : List β}
    (h : List.Forall₂ R xs ys) {x : α} (hx : x ∈ xs) : ∃ y ∈ ys, R x y := by
  induction h with
  | nil => cases hx
  | cons hr _ ih =>
    rcases List.mem_cons.mp hx with rfl | hx
    · exact ⟨_, List.mem_cons_self, hr⟩
    · exact (ih hx).imp fun _ h => ⟨List.mem_cons_of_mem _ h.1, h.2⟩

/-- Members of entries make up a mapping of the same keys and values exactly if every key comes back. -/
theorem collectionOf_keeps_iff (hcommon : CommonKeys es) (hperm : order.Perm es) :
    (∃ made, collectionOf .yamlObject (order.map (memberOf line)) = .ok (.mapping made { flow := true }) ∧
      KeepsAll es (order.map (memberOf line)) made) ↔ KeysComeBack es := by
  constructor
  · rintro ⟨made, hmade, order', hperm', -, hkeeps⟩ e he
    obtain ⟨v, f, hkey, hv⟩ := exists_of_isScalarKey (hcommon.common e he)
    -- the entry that keeps this one has a key that the name of some member gives
    obtain ⟨d, hd, hkeep⟩ := exists_of_forall₂ hkeeps (hperm'.mem_iff.mpr he)
    rw [collectionOf_members] at hmade
    obtain ⟨keys, hkeys, hmade⟩ := bind_ok hmade
    cases hmade
    obtain ⟨pair, hpair, hsame⟩ := mem_keys_foldl hd
    have hgiven : d.1 ∈ keys := hsame ▸ (List.of_mem_zip hpair).1
    obtain ⟨source, -, hsource⟩ := mem_of_mapM hkeys hgiven
    obtain ⟨own, hown⟩ := exists_of_mapM hkeys (hperm.mem_iff.mpr he)
    cases hkeep with
    | entry w f' g value r =>
      cases hkey
      show comesBack v = true
      exact comesBack_of_keyOfName hv hsource hown
  · intro hback
    have horder : KeysComeBack order := fun e he => hback e (hperm.mem_iff.mp he)
    refine ⟨order.map madeUp, collectionOf_madeUp horder (distinct_of_perm hback hcommon.distinct hperm),
      order, hperm, ?_, ?_⟩
    · rw [List.map_map]
      rfl
    · rw [List.forall₂_map_right_iff, List.forall₂_same]
      exact fun e he => keeps_madeUp (horder e he)

/-! ## Written flow mappings -/

theorem unwritable?_madeUp (es : List (Node × Node)) (hkeys : KeysComeBack es)
    (hvalues : ∀ e ∈ es, unwritable? e.2 = none) : unwritableAmong? (es.map madeUp) = none := by
  induction es with
  | nil => rfl
  | cons e rest ih =>
    obtain ⟨v, f, hkey, -⟩ := exists_of_isScalarKey (hkeys e List.mem_cons_self)
    obtain ⟨r, hr⟩ := valueNode_eq e.2
    have hvalue : unwritable? (e.2.withForm { e.2.form with remarks := r }) = unwritable? e.2 := by
      cases e.2 <;> simp only [Node.withForm, Node.form, unwritable?]
    have hpair : unwritablePair? (madeUp e) = none := by
      rw [madeUp, hkey, hr, unwritablePair?, hvalue, hvalues e List.mem_cons_self]
      rfl
    rw [List.map_cons, unwritableAmong?, hpair, Option.none_or]
    exact ih (fun d hd => hkeys d (List.mem_cons_of_mem e hd)) fun d hd =>
      hvalues d (List.mem_cons_of_mem e hd)

/-- A mapping whose keys come back is written, if its values can be. -/
theorem writeFlow_ok (o : Options) {e : Entity} (hobject : e.kind = .yamlObject)
    (hmembers : e.members = order.map (memberOf line)) (hback : KeysComeBack order)
    (hdistinct : order.Pairwise fun a b => sameKey a.1 b.1 = false)
    (hvalues : ∀ d ∈ order, unwritable? d.2 = none) : ∃ s, writeFlow o e = .ok s := by
  have hwritable : unwritable? (.mapping (order.map madeUp) { flow := true }) = none := by
    rw [unwritable?]
    exact unwritable?_madeUp order hback hvalues
  rw [writeFlow, hobject, hmembers, collectionOf_madeUp hback hdistinct]
  dsimp only [bind, Except.bind]
  rw [hwritable]
  exact ⟨_, rfl⟩

theorem members_flowEntity (fileType : FileType) (t : LineTable) (hmap : isMapping root = true) (name : String) (first last : Nat) :
    (flowEntity fileType t root name first last).kind = .yamlObject ∧
      ∃ line, (flowEntity fileType t root name first last).members = (entriesOf root).map (memberOf line) := by
  cases root with
  | scalar v f => cases hmap
  | sequence items f => cases hmap
  | mapping entries f =>
    refine ⟨rfl, firstBusy t last (last - first) first, ?_⟩
    rw [flowEntity]
    · dsimp only
      rw [List.map_map]
      rfl
    · simp

/-- A flow mapping at the root of a document is taken apart into members. In whatever order these are
put, the mapping that is made up of them has the keys of the one that was read, of the same kinds, with
the same values, exactly if its texts are not minus signs and digits, its integers have not too many
digits, and it has no other keys. Then it is written. -/
theorem collectionOf_keeps_keys (fileType : FileType) (text : Text) {e : Entity}
    (he : e ∈ (readStream fileType text).entities) (hflow : e.inline = true)
    (hobject : e.kind = .yamlObject) :
    ∃ first last root, (first, last) ∈ documentRanges (LineTable.ofText text) ∧
      read (rangeText (LineTable.ofText text) first last) true = .ok (some root) ∧ isMapping root = true ∧
      root.form.flow = true ∧ (CommonKeys (entriesOf root) → ∀ ms, ms.Perm e.members →
        ((∃ made, collectionOf e.kind ms = .ok (.mapping made { flow := true }) ∧
          KeepsAll (entriesOf root) ms made) ↔ KeysComeBack (entriesOf root)) ∧
        ∀ o, KeysComeBack (entriesOf root) → (∀ d ∈ entriesOf root, unwritable? d.2 = none) →
          ∃ s, writeFlow o { e with members := ms } = .ok s) := by
  obtain ⟨⟨first, last⟩, hrange, name, r, hr, he⟩ := mem_readDocuments he
  obtain ⟨root, hnode, -, ⟨hroot, rfl⟩ | ⟨-, head, rest, -, rfl⟩⟩ := mem_readDocument hr he
  · have hmap : isMapping root = true := by
      by_contra hno
      have hkind : entityKind root = .yamlObject := hobject
      rw [entityKind, if_neg hno] at hkind
      cases hkind
    refine ⟨first, last, root, hrange, hnode, hmap, hroot, fun hcommon ms hms => ?_⟩
    obtain ⟨hkind, line, hmembers⟩ := members_flowEntity fileType (LineTable.ofText text) hmap name first last
    rw [hmembers] at hms
    obtain ⟨order, hperm, rfl⟩ := Sorter.exists_perm_map (memberOf line) hms
    rw [hkind]
    refine ⟨collectionOf_keeps_iff hcommon hperm, fun o hback hvalues => ?_⟩
    exact writeFlow_ok o rfl rfl (fun d hd => hback d (hperm.mem_iff.mp hd))
      (distinct_of_perm hback hcommon.distinct hperm) fun d hd => hvalues d (hperm.mem_iff.mp hd)
  · have hblock : (blockEntity fileType (LineTable.ofText text) root name first last head rest).inline =
        false := by
      unfold blockEntity
      rfl
    rw [hblock] at hflow
    cases hflow

/-- A flow mapping whose keys come back: texts, one of them quoted, and integers. -/
def plainKeys : Text := Text.ofString "\x7bb: x, 2: y, 'a': 1, -3: z\x7d"

theorem collectionOf_keeps_plain_keys :
    ∃ e ∈ (readStream .yaml plainKeys).entities, e.members.length = 4 ∧ ∀ ms, ms.Perm e.members →
      (∃ made es, collectionOf e.kind ms = .ok (.mapping made { flow := true }) ∧ KeepsAll es ms made) ∧
      ∃ s, writeFlow { fileType := .yaml } { e with members := ms } = .ok s := by
  obtain ⟨hentity, hroot⟩ : (readStream .yaml plainKeys).entities.any
        (fun e => e.inline && e.kind == .yamlObject && e.members.length == 4) = true ∧
      ∀ r ∈ documentRanges (LineTable.ofText plainKeys),
        readsAs (fun root => decide (CommonKeys (entriesOf root) ∧ KeysComeBack (entriesOf root)) &&
          (entriesOf root).all fun d => (unwritable? d.2).isNone)
          (read (rangeText (LineTable.ofText plainKeys) r.1 r.2) true) = true := by
    decide +kernel
  obtain ⟨e, he, hholds⟩ := List.any_eq_true.mp hentity
  simp only [Bool.and_eq_true, beq_iff_eq] at hholds
  obtain ⟨first, last, root, hrange, hread, -, -, hkeeps⟩ :=
    collectionOf_keeps_keys .yaml plainKeys he hholds.1.1 hholds.1.2
  obtain ⟨root', hread', htest⟩ := exists_of_readsAs (hroot _ hrange)
  rw [hread] at hread'
  cases hread'
  rw [Bool.and_eq_true, decide_eq_true_eq] at htest
  obtain ⟨⟨hcommon, hback⟩, hvalues⟩ := htest
  refine ⟨e, he, hholds.2, fun ms hms => ?_⟩
  obtain ⟨hiff, hwritten⟩ := hkeeps hcommon ms hms
  obtain ⟨made, hmade, hall⟩ := hiff.mpr hback
  exact ⟨⟨made, _, hmade, hall⟩, hwritten _ hback fun d hd =>
    Option.isNone_iff_eq_none.mp (List.all_eq_true.mp hvalues d hd)⟩

/-- A flow mapping in which an integer and a text look the same. -/
def likeKeys : Text := Text.ofString "\x7bb: x, 1: a, '1': c\x7d"

/-- How many entries a mapping that was made up has. -/
def entryCount {ε : Type} : Except ε Node → Nat
  | .ok (.mapping es _) => es.length
  | _ => 0

/-- The entry of the integer has the value of the text, and the entry of the text is gone. -/
theorem collectionOf_merges_keys :
    ∃ e ∈ (readStream .yaml likeKeys).entities, e.inline = true ∧ e.kind = .yamlObject ∧
      ∃ root, read (rangeText (LineTable.ofText likeKeys) 1 1) true = .ok (some root) ∧
        root.form.flow = true ∧ CommonKeys (entriesOf root) ∧
        writeFlow { fileType := .yaml } e = .ok "\x7bb: x, 1: c\x7d" ∧
        ¬ ∃ made, collectionOf e.kind e.members = .ok (.mapping made { flow := true }) ∧
          KeepsAll (entriesOf root) e.members made := by
  obtain ⟨hentity, htest⟩ : (readStream .yaml likeKeys).entities.any
        (fun e => e.inline && e.kind == .yamlObject && entryCount (collectionOf e.kind e.members) == 2 &&
          (writeFlow { fileType := .yaml } e).toOption == some "\x7bb: x, 1: c\x7d") = true ∧
      readsAs (fun root => root.form.flow && decide (CommonKeys (entriesOf root)) &&
        (entriesOf root).length == 3) (read (rangeText (LineTable.ofText likeKeys) 1 1) true) = true := by
    decide +kernel
  obtain ⟨e, he, hholds⟩ := List.any_eq_true.mp hentity
  simp only [Bool.and_eq_true, beq_iff_eq] at hholds
  obtain ⟨⟨⟨hinline, hkind⟩, hcount⟩, hwritten⟩ := hholds
  obtain ⟨root, hread, htest⟩ := exists_of_readsAs htest
  simp only [Bool.and_eq_true, beq_iff_eq, decide_eq_true_eq] at htest
  obtain ⟨⟨hflow, hcommon⟩, hlength⟩ := htest
  refine ⟨e, he, hinline, hkind, root, hread, hflow, hcommon, ok_of_toOption hwritten, ?_⟩
  rintro ⟨made, hmade, order, hperm, -, hkeeps⟩
  rw [hmade] at hcount
  have hmadeLength : made.length = 2 := hcount
  have horder : order.length = 3 := hperm.length_eq.trans hlength
  have hsame := hkeeps.length_eq
  omega

end MemberOrder.Yaml
