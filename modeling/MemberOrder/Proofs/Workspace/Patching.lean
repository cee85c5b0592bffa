/-
  What sorting does to the bytes of a file.

  The text of a file is what its bytes are read as, after a byte order mark if there is one, and the bytes
  of that text are the bytes of the file again (`bytes_of_load`). A run returns its source with patches at
  the spans of entities, and what is written is the encoding of what it returns. So the bytes that are
  written are those of the text, patched where the spans begin and end in bytes; all else is as it was, but
  for the byte order mark, which is not written again (`sortFile_patches`).
-/
import MemberOrder.Proofs.Layout.Patching
import MemberOrder.Proofs.Workspace.Touching
import MemberOrder.Proofs.Yaml.Spans

namespace MemberOrder.Workspace

open Layout Utf8

/-! ## Bytes that are patched -/

/-- Patches that are all between two offsets. -/
theorem chain_between {α : Type} {a b lo hi : Nat} {ps : List (Patch α)} (h : Chain Patch.At lo hi ps)
    (hab : a ≤ b) (hps : ∀ p ∈ ps, a ≤ p.start ∧ p.stop ≤ b) : Chain Patch.At a b ps := by
  induction h generalizing a with
  | nil => exact .nil hab
  | cons hi hp hrest ih =>
    rename_i p rest
    obtain ⟨rfl, rfl, hle⟩ := hp
    obtain ⟨hstart, hstop⟩ := hps p List.mem_cons_self
    refine .cons hstart ⟨rfl, rfl, hle⟩ (ih hstop fun q hq => ⟨?_, (hps q (List.mem_cons_of_mem p hq)).2⟩)
    obtain ⟨i, j, ⟨rfl, -, -⟩, hi, -⟩ := hrest.of_mem (fun _ _ _ h => h.le) hq
    exact hi

/-- Bytes that end in those of a text, with the spans of entities of the text replaced and nothing else. -/
def PatchedAtSpans (es : List Entity) (cs : List Char) (before after : List UInt8) : Prop :=
  ∃ ps : List (Patch Char), Chain Patch.At 0 cs.length ps ∧ (∀ p ∈ ps, Patch.OfEntity es p) ∧
    after = patched before 0
      ((ps.map (encodedPatch cs)).map (Patch.shift (before.length - (encode cs).length)))

/-- What is before the spans of all entities, and what is behind them, is as it was. -/
theorem PatchedAtSpans.outside {es : List Entity} {cs : List Char} {mark after : List UInt8}
    (h : PatchedAtSpans es cs (mark ++ encode cs) after) {a b : Nat} (hab : a ≤ b) (hb : b ≤ cs.length)
    (hes : ∀ e ∈ es, ∀ s, e.span = some s → a ≤ s.start ∧ s.stop ≤ b) :
    ∃ middle, after = (mark ++ encode cs).take (mark.length + byteOffset cs a) ++ middle ++
      (mark ++ encode cs).drop (mark.length + byteOffset cs b) := by
  obtain ⟨ps, hchain, hfrom, rfl⟩ := h
  have hbetween : Chain Patch.At a b ps := chain_between hchain hab fun p hp => by
    obtain ⟨e, he, s, hs, hstart, hstop⟩ := hfrom p hp
    rw [hstart, hstop]
    exact hes e he s hs
  have hencoded := Chain.encoded hbetween cs
  have hlength : (mark ++ encode cs).length - (encode cs).length = mark.length := by
    rw [List.length_append, Nat.add_sub_cancel]
  have hzero : Chain Patch.At 0 (byteOffset cs b) (ps.map (encodedPatch cs)) :=
    hencoded.weaken (Nat.zero_le _) (Nat.le_refl _)
  have hoffset : byteOffset cs b ≤ (encode cs).length := byteOffset_length cs ▸ byteOffset_mono cs hb
  refine ⟨patched ((encode cs).take (byteOffset cs b)) (byteOffset cs a) (ps.map (encodedPatch cs)), ?_⟩
  rw [hlength, patched_zero_append hzero, patched_eq_take_append hencoded (Nat.zero_le _), List.drop_zero,
    Nat.sub_zero, patched_eq_append_drop hencoded hoffset, List.take_length_add_append,
    List.drop_length_add_append]
  simp only [List.append_assoc]

/-! ## Files that are written -/

namespace Engine

variable {e : Engine} {t : FileTree} {p : Path} {relative : String} {text : String} {o : Options} {f : File}

/-- The bytes of a file that is loaded are those of its text, after a byte order mark if there is one; or
its text is empty. -/
theorem bytes_of_load (h : e.load t p = .ok (text, o)) (hf : t.file? p = some f) :
    f.bytes = encode text.toList ∨ f.bytes = byteOrderMark ++ encode text.toList ∨ text = "" := by
  unfold load at h
  rw [hf] at h
  obtain ⟨file, hfile, h⟩ := bind_ok h
  cases hfile
  obtain ⟨cs, hcs, h⟩ := bind_ok h
  obtain ⟨options, -, h⟩ := bind_ok h
  cases h
  rw [String.toList_ofList]
  rcases bytes_of_decodeFile (mapError_ok hcs) with hmark | hplain | ⟨-, rfl⟩
  · exact .inr (.inl hmark)
  · exact .inl hplain
  · exact .inr (.inr rfl)

/-- The text that is written is what the run returns. -/
theorem sortedText_of_modified (relative : String) (h : (runReport relative false text o).modified = true) :
    (processWith o text).processedText = some (sortedText relative text o) ∧
      sortedText relative text o ≠ text := by
  have hsorted : (if (processWith o text).success then (processWith o text).processedText else none).any
      (· != text) = true := h
  cases hout : (if (processWith o text).success then (processWith o text).processedText else none) with
  | none =>
    rw [hout] at hsorted
    cases hsorted
  | some out =>
    have hwritten : sortedText relative text o = out := by
      show (((if (processWith o text).success then (processWith o text).processedText else none).getD text)) =
        out
      rw [hout]
      rfl
    rw [hout, Option.any_some, bne_iff_ne] at hsorted
    rw [hwritten]
    refine ⟨?_, hsorted⟩
    split at hout
    · exact hout
    · cases hout

/-- An empty text has no entities. -/
theorem readSource_empty (fileType : FileType) :
    (readSource fileType (Text.ofString "")).entities.isEmpty = true := by
  cases fileType <;> decide +kernel

/-- An empty text stays empty. -/
theorem processedText_empty {o : Options} {out : String} (h : (processWith o "").processedText = some out) :
    out = "" := by
  unfold processWith at h
  dsimp only at h
  rw [readSource_empty, if_pos rfl] at h
  split at h
  · exact (Option.some.inj h).symm
  · cases h

/-- The file of a sort that goes on to write has the bytes of its text, after a byte order mark if there is
one. -/
theorem Rewrites.bytes (h : e.Rewrites false relative t p text o) (hf : t.file? p = some f) :
    ∃ mark, (mark = [] ∨ mark = byteOrderMark) ∧ f.bytes = mark ++ encode text.toList := by
  rcases bytes_of_load h.load hf with hplain | hmark | rfl
  · exact ⟨[], .inl rfl, hplain⟩
  · exact ⟨byteOrderMark, .inr rfl, hmark⟩
  · obtain ⟨hout, hne⟩ := sortedText_of_modified _ h.modified
    exact absurd (processedText_empty hout) hne

/-- The spans of the entities of a text are in it and none is turned around; of a YAML stream, if the keys
of its documents are at places of them. -/
theorem span_of_text {fileType : FileType} {text : String}
    (hkeys : fileType.language = .yaml → Yaml.KeysPlaced (.ofText (Text.ofString text))) :
    ∀ en ∈ (readSource fileType (Text.ofString text)).entities, ∀ s, en.span = some s →
      s.start ≤ s.stop ∧ s.stop ≤ text.toList.length := by
  intro en hen s hs
  have hsize : (Text.ofString text).size = text.toList.length := by simp [Text.ofString]
  rw [← hsize]
  by_cases hyaml : fileType.language = .yaml
  · have hread : readSource fileType (Text.ofString text) = Yaml.readStream fileType (Text.ofString text) := by
      simp only [readSource, hyaml]
    rw [hread] at hen
    exact Yaml.span_of_readStream (hkeys hyaml) hen hs
  · exact span_of_readSource hyaml _ hen hs

/-- What a sort does to the bytes of the file it writes: they were those of its text, after a byte order
mark if there was one; and what is there now, put after that mark, is what was there with the spans of
entities of the text replaced and nothing else, so that everything before the first span and behind the
last one is as it was. -/
def PatchesFile (e : Engine) (relative : String) (t : FileTree) : Prop :=
  ∃ p text o f f' mark, e.Rewrites false relative t p text o ∧ t.file? p = some f ∧
    (e.sortFile false relative t).1.file? p = some f' ∧ (mark = [] ∨ mark = byteOrderMark) ∧
    f.bytes = mark ++ encode text.toList ∧
    PatchedAtSpans (readSource o.fileType (Text.ofString text)).entities text.toList f.bytes
      (mark ++ f'.bytes) ∧
    ∀ a b, a ≤ b → b ≤ text.toList.length →
      (∀ en ∈ (readSource o.fileType (Text.ofString text)).entities, ∀ s, en.span = some s →
        a ≤ s.start ∧ s.stop ≤ b) →
      ∃ middle, mark ++ f'.bytes = f.bytes.take (mark.length + byteOffset text.toList a) ++ middle ++
        f.bytes.drop (mark.length + byteOffset text.toList b)

/-- A sort that has written a file has replaced the spans of entities of its text and nothing else, but for
a byte order mark, which it has not written again. Of a YAML stream it is asked that the keys of its
documents are at places of them. -/
theorem sortFile_patches (e : Engine) (relative : String) (t : FileTree) {report : Report}
    (hreport : (e.sortFile false relative t).2 = .ok report) (hwritten : report.written = true)
    (hkeys : ∀ p text o, e.Rewrites false relative t p text o → o.fileType.language = .yaml →
      Yaml.KeysPlaced (.ofText (Text.ofString text))) : e.PatchesFile relative t := by
  obtain ⟨p, text, o, h⟩ : ∃ p text o, e.Rewrites false relative t p text o := by
    by_contra hno
    obtain ⟨-, report', hreport', hidle⟩ := sortFile_idle fun p text o h => hno ⟨p, text, o, h⟩
    rw [hreport'] at hreport
    cases hreport
    rw [hidle] at hwritten
    cases hwritten
  obtain ⟨f, hf⟩ := h.file
  obtain ⟨mark, hmark, hbytes⟩ := h.bytes hf
  obtain ⟨t', hwrite, hsort⟩ : ∃ t', write (t.insert (freshBackup t p) f) p (sortedText relative text o) =
      .ok t' ∧ (e.sortFile false relative t).1 = t' := by
    rw [sortFile_rewrites h hf] at hreport ⊢
    split at hreport
    · cases hreport
    · split at hreport
      · rename_i t' hwrite
        exact ⟨t', hwrite, rfl⟩
      · cases hreport
        cases hwritten
  have hfile : t'.file? p = some { bytes := encode (sortedText relative text o).toList } := by
    rw [write_ok hwrite]
    exact FileTree.file?_insert_self _ _ _
  obtain ⟨hout, -⟩ := sortedText_of_modified relative h.modified
  obtain ⟨ps, hchain, hfrom, heq⟩ := processWith_patches o text (span_of_text (hkeys p text o h)) hout
  have hpatched : PatchedAtSpans (readSource o.fileType (Text.ofString text)).entities text.toList f.bytes
      (mark ++ encode (sortedText relative text o).toList) := by
    refine ⟨ps, hchain, hfrom, ?_⟩
    have hencoded : Chain Patch.At 0 _ (ps.map (encodedPatch text.toList)) := Chain.encoded hchain text.toList
    rw [hbytes, List.length_append, Nat.add_sub_cancel, patched_zero_append hencoded, heq,
      encode_patched hchain]
    rfl
  rw [← hsort] at hfile
  refine ⟨p, text, o, f, _, mark, h, hf, hfile, hmark, hbytes, hpatched, fun a b hab hb hes => ?_⟩
  rw [hbytes] at hpatched ⊢
  exact hpatched.outside hab hb hes

/-- A JSON file and a YAML file that are out of order, with characters of two bytes and lines that end in two
characters. -/
def accented : FileTree where
  root := "/w"
  files := [(["a.json"], { bytes := encode "\x7b\"\u00e9\":1,\r\n\"a\":2\x7d\r\n".toList }),
    (["b.yaml"], { bytes := encode "# \u00e9\r\n\u00e9: 1\r\na: 2\r\n".toList })]

/-- Their entities are patched, and the line breaks behind these stay. -/
theorem sortFile_patches_accented :
    (PatchesFile { workspace := [] } "a.json" accented ∧
      (sortFile { workspace := [] } false "a.json" accented).1.bytes? ["a.json"] =
        some (encode "\x7b\"a\":2,\r\n\"\u00e9\":1\x7d\r\n".toList)) ∧
    PatchesFile { workspace := [] } "b.yaml" accented ∧
      (sortFile { workspace := [] } false "b.yaml" accented).1.bytes? ["b.yaml"] =
        some (encode "# \u00e9\r\na: 2\r\n\u00e9: 1\r\n".toList) := by
  obtain ⟨hwritten, hbytes, htarget, hload⟩ :
      ((sortFile { workspace := [] } false "a.json" accented).2.toOption.map (·.written)) = some true ∧
      (sortFile { workspace := [] } false "a.json" accented).1.bytes? ["a.json"] =
        some (encode "\x7b\"a\":2,\r\n\"\u00e9\":1\x7d\r\n".toList) ∧
      target { workspace := [] } accented "a.json" = .ok ["a.json"] ∧
      ((load { workspace := [] } accented ["a.json"]).toOption.map (·.2.fileType)) = some .json := by
    decide +kernel
  obtain ⟨hwritten', hbytes', htarget', hload', hkeys⟩ :
      ((sortFile { workspace := [] } false "b.yaml" accented).2.toOption.map (·.written)) = some true ∧
      (sortFile { workspace := [] } false "b.yaml" accented).1.bytes? ["b.yaml"] =
        some (encode "# \u00e9\r\na: 2\r\n\u00e9: 1\r\n".toList) ∧
      target { workspace := [] } accented "b.yaml" = .ok ["b.yaml"] ∧
      ((load { workspace := [] } accented ["b.yaml"]).toOption.map (·.1)) =
        some "# \u00e9\r\n\u00e9: 1\r\na: 2\r\n" ∧
      Yaml.KeysPlaced (.ofText (Text.ofString "# \u00e9\r\n\u00e9: 1\r\na: 2\r\n")) := by
    decide +kernel
  have hreport {relative : String}
      (hwritten : ((sortFile { workspace := [] } false relative accented).2.toOption.map (·.written)) = some true) :
      ∃ report, (sortFile { workspace := [] } false relative accented).2 = .ok report ∧ report.written = true := by
    cases hsort : (sortFile { workspace := [] } false relative accented).2 with
    | error failure =>
      rw [hsort] at hwritten
      cases hwritten
    | ok report =>
      rw [hsort] at hwritten
      exact ⟨report, rfl, Option.some.inj hwritten⟩
  refine ⟨⟨?_, hbytes⟩, ?_, hbytes'⟩
  · obtain ⟨report, hsort, hdone⟩ := hreport hwritten
    refine sortFile_patches { workspace := [] } "a.json" accented hsort hdone fun p text o h hyaml => ?_
    obtain rfl : p = ["a.json"] := by simpa using h.target.symm.trans htarget
    rw [h.load] at hload
    have hjson : o.fileType = .json := Option.some.inj hload
    rw [hjson] at hyaml
    cases hyaml
  · obtain ⟨report, hsort, hdone⟩ := hreport hwritten'
    refine sortFile_patches { workspace := [] } "b.yaml" accented hsort hdone fun p text o h _ => ?_
    obtain rfl : p = ["b.yaml"] := by simpa using h.target.symm.trans htarget'
    rw [h.load] at hload'
    obtain rfl : text = "# \u00e9\r\n\u00e9: 1\r\na: 2\r\n" := Option.some.inj hload'
    exact hkeys

/-- A file with a byte order mark. -/
def marked : FileTree where
  root := "/w"
  files := [(["a.json"], { bytes := byteOrderMark ++ encode "\x7b\"b\":1,\"a\":2\x7d".toList })]

/-- The mark is gone after a sort, whatever entities the text is thought to have. -/
theorem sortFile_patches_marked :
    ((sortFile { workspace := [] } false "a.json" marked).2.toOption.map (·.written)) = some true ∧
    ∃ f f', marked.file? ["a.json"] = some f ∧
      (sortFile { workspace := [] } false "a.json" marked).1.file? ["a.json"] = some f' ∧
      ∀ es cs, f.bytes = byteOrderMark ++ encode cs → ¬ PatchedAtSpans es cs f.bytes f'.bytes := by
  obtain ⟨hwritten, hfile⟩ :
      ((sortFile { workspace := [] } false "a.json" marked).2.toOption.map (·.written)) = some true ∧
      (sortFile { workspace := [] } false "a.json" marked).1.file? ["a.json"] =
        some { bytes := encode "\x7b\"a\":2,\"b\":1\x7d".toList } := by
    decide +kernel
  refine ⟨hwritten, _, _, rfl, hfile, ?_⟩
  rintro es cs hbytes ⟨ps, hchain, -, hpatched⟩
  have hencoded : Chain Patch.At 0 _ (ps.map (encodedPatch cs)) := Chain.encoded hchain cs
  rw [hbytes, List.length_append, Nat.add_sub_cancel, patched_zero_append hencoded] at hpatched
  have hfirst : (encode "\x7b\"a\":2,\"b\":1\x7d".toList).head? = some 0xEF := congrArg List.head? hpatched
  exact absurd hfirst (by decide +kernel)

end Engine

end MemberOrder.Workspace
