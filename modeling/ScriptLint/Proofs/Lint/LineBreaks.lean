import ScriptLint.Proofs.Lint.FixSafety
import ScriptLint.Proofs.Lint.Report
import ScriptLint.Proofs.Text.Crlf

/-!
# Linting with another line break

Two documents that are scanned as the same text have the same scripts, and their virtual sources differ in the line
breaks only. So a document whose line feeds are replaced by pairs is reported on alike, with the fixes at the offsets
where their ends have gone.
-/
namespace ScriptLint
set_option autoImplicit false

def OffsetRange.move (f : Nat → Nat) (range : OffsetRange) : OffsetRange := ⟨f range.start, f range.stop⟩

def Fix.move (f : Nat → Nat) (fix : Fix) : Fix := { fix with range := fix.range.move f }

def Diagnostic.moveFix (f : Nat → Nat) (d : Diagnostic) : Diagnostic := { d with fix := d.fix.map (Fix.move f) }

theorem Diagnostic.moveFix_of_eq_none (f : Nat → Nat) {d : Diagnostic} (h : d.fix = none) : d.moveFix f = d := by
  cases d
  cases h
  rfl

theorem Diagnostic.sort_map_moveFix (f : Nat → Nat) (ds : List Diagnostic) :
    sort (ds.map (moveFix f)) = (sort ds).map (moveFix f) := by
  have hLe : ∀ a ∈ ds, ∀ b ∈ ds, a.le b = (a.moveFix f).le (b.moveFix f) := fun _ _ _ _ => rfl
  exact (List.map_mergeSort hLe).symm

namespace ScriptBlock

def script (block : ScriptBlock) : ScriptBlock := { block with offset := 0, length := 0, rawText := [] }

theorem map_script_number {document document' : Document} (h : document'.text = document.text) (mode : MarkupMode)
    (index : Nat) (elements : List Element) :
    (number document' mode index elements).map script = (number document mode index elements).map script := by
  induction elements generalizing index with
  | nil => rfl
  | cons element more ih =>
    rw [number, number, List.map_cons, List.map_cons, ih]
    congr 1
    simp only [script, ofElement, Document.position, Document.lines, Document.lineIndent, Document.lineText?, h]

end ScriptBlock

theorem VirtualSource.build_of_script {blocks blocks' : List ScriptBlock}
    (h : blocks'.map ScriptBlock.script = blocks.map ScriptBlock.script) (newline newline' : Newline)
    (plans : List IndentPlan) : build newline' blocks' plans = { build newline blocks plans with newline := newline' } := by
  have hScript : ∀ (newline : Newline) (blocks : List ScriptBlock),
      build newline blocks plans = build newline (blocks.map ScriptBlock.script) plans := by
    intro newline blocks
    rw [build, build, List.zip_map_left, List.foldl_map]
    rfl
  rw [hScript newline', h, hScript newline]
  rfl

namespace Prepared

/-- Documents that hold the same scripts. -/
structure SameScripts (p p' : Prepared) : Prop where
  scripts : p'.blocks.map ScriptBlock.script = p.blocks.map ScriptBlock.script
  plans : p'.plans = p.plans

namespace SameScripts

variable {p p' : Prepared} (h : p.SameScripts p')
include h

theorem length_blocks : p'.blocks.length = p.blocks.length := by
  simpa using congrArg List.length h.scripts

theorem virtualSource : p'.virtualSource = { p.virtualSource with newline := p'.document.newline } := by
  rw [Prepared.virtualSource, h.plans, VirtualSource.build_of_script h.scripts p.document.newline]
  rfl

theorem blockSource (i : Nat) : p'.blockSource i = { p.blockSource i with newline := p'.document.newline } := by
  have hBlock : (p'.blocks[i]?).toList.map ScriptBlock.script = (p.blocks[i]?).toList.map ScriptBlock.script := by
    have hGet := congrArg (·[i]?) h.scripts
    simp only [List.getElem?_map] at hGet
    rw [← Option.toList_map, ← Option.toList_map, hGet]
  rw [Prepared.blockSource, h.plans, VirtualSource.build_of_script hBlock p.document.newline]
  rfl

theorem badIndent : p'.badIndent = p.badIndent := by
  have hScript : ∀ blocks : List ScriptBlock,
      ((blocks.zip p.plans).flatMap fun entry => BadIndent.check entry.1 entry.2) =
        ((blocks.map ScriptBlock.script).zip p.plans).flatMap fun entry => BadIndent.check entry.1 entry.2 := by
    intro blocks
    rw [List.zip_map_left, List.flatMap_map]
    rfl
  rw [Prepared.badIndent, Prepared.badIndent, h.plans, hScript, h.scripts, ← hScript]

theorem sources (linter : Linter) (filename : String) :
    linter.sources p' filename = (linter.sources p filename).map fun call =>
      (call.1, { call.2 with newline := p'.document.newline }) := by
  have hEmpty : p'.blocks.isEmpty = p.blocks.isEmpty := by
    rw [Bool.eq_iff_iff, List.isEmpty_iff_length_eq_zero, List.isEmpty_iff_length_eq_zero, h.length_blocks]
  simp only [Linter.sources, hEmpty, h.length_blocks, h.virtualSource, h.blockSource]
  split
  · rfl
  · cases linter.dispatch with
    | combined => rfl
    | perBlock => simp only [List.map_map, Function.comp_def]

end SameScripts
end Prepared

namespace Linter

variable {linter : Linter} {filename : String} {source source' : Bytes}
  (h : (Document.mk source').text = (Document.mk source).text)
include h

theorem elements_of_text_eq (mode : MarkupMode) :
    (Document.mk source').elements mode = (Document.mk source).elements mode := by
  cases mode <;> simp only [Document.elements, h]

theorem prepare_eq_error_of_text_eq {d : Diagnostic} (hPrepare : linter.prepare source filename = .error d) :
    linter.prepare source' filename = .error d := by
  rw [← hPrepare]
  simp only [prepare, Document.scan, elements_of_text_eq h] at hPrepare ⊢
  cases hElements : (Document.mk source).elements (linter.scanOptions filename).mode with
  | ok elements =>
    rw [hElements] at hPrepare
    cases hPrepare
  | error error => simp only [fatal, Document.position, Document.lines, h]

theorem exists_prepare_of_text_eq {p : Prepared} (hPrepare : linter.prepare source filename = .ok p) :
    ∃ p', linter.prepare source' filename = .ok p' ∧ p'.document = ⟨source'⟩ ∧ p.SameScripts p' := by
  simp only [prepare, Document.scan, elements_of_text_eq h] at hPrepare ⊢
  cases hElements : (Document.mk source).elements (linter.scanOptions filename).mode with
  | error error =>
    rw [hElements] at hPrepare
    cases hPrepare
  | ok elements =>
    rw [hElements] at hPrepare
    cases hPrepare
    have hScripts := ScriptBlock.map_script_number h (linter.scanOptions filename).mode 0
      (elements.filter fun element => Attribute.denoteScript (linter.scanOptions filename).mode
        (linter.scanOptions filename).mediaTypes element.attributes)
    refine ⟨_, rfl, rfl, hScripts, ?_⟩
    -- a plan is made from the script alone
    have hPlans := congrArg (List.map fun block => IndentPlan.ofBlock block linter.settings.indent) hScripts
    rw [List.map_map, List.map_map] at hPlans
    exact hPlans

end Linter

namespace VirtualSource

theorem join_crlf {lines : List Bytes} (h : ∀ line ∈ lines, Byte.lineFeed ∉ line) :
    join Newline.crlf.bytes lines = Newline.toCrlf (join Newline.lf.bytes lines) := by
  induction lines with
  | nil => rfl
  | cons line more ih =>
    have hLine := Newline.toCrlf_of_notMem (h line List.mem_cons_self)
    have hMore := ih fun other hOther => h other (List.mem_cons_of_mem line hOther)
    cases more with
    | nil => exact hLine.symm
    | cons next more =>
      have hJoin : ∀ separator : Bytes, join separator (line :: next :: more) =
          line ++ separator ++ join separator (next :: more) := fun _ => rfl
      rw [hJoin, hJoin, hMore, Newline.toCrlf_append, Newline.toCrlf_append, hLine]
      rfl

theorem join_toCrlf {s : Bytes} (hPair : ¬[Byte.carriageReturn, Byte.lineFeed] <:+: s) {lines : List Bytes}
    (hLines : ∀ line ∈ lines, Byte.lineFeed ∉ line) (hOne : Byte.lineFeed ∉ s → lines.length ≤ 1) :
    join (Document.mk (Newline.toCrlf s)).newline.bytes lines =
      Newline.toCrlf (join (Document.mk s).newline.bytes lines) := by
  rw [Document.newline, Document.newline, Newline.detect_toCrlf, Newline.detect_eq_lf hPair]
  by_cases hMem : Byte.lineFeed ∈ s
  · rw [if_pos hMem]
    exact join_crlf hLines
  · rw [if_neg hMem]
    cases lines with
    | nil => rfl
    | cons line more =>
      cases more with
      | nil => exact (Newline.toCrlf_of_notMem (hLines line List.mem_cons_self)).symm
      | cons next more => exact absurd (hOne hMem) (by simp)

variable {s : Bytes} {blocks : List ScriptBlock} {indent : Indent}
  (hBlocks : ScriptBlock.Arranged (Document.mk s) blocks)
include hBlocks

theorem length_lines_le_one (newline : Newline) (h : Byte.lineFeed ∉ (Document.mk s).text) :
    (ofBlocks newline indent blocks).lines.length ≤ 1 := by
  apply length_lines_ofBlocks_le
  intro block hBlock
  have hPlaced := hBlocks.isPlaced block hBlock
  have hPlace := hPlaced.place_add (Nat.le_refl block.text.length)
  rw [Bytes.place, Position.after_of_notMem _ fun hMem => h (List.mem_of_mem_take hMem), List.take_length,
    Position.after_eq] at hPlace
  have hLine := congrArg Position.line hPlace
  have hPos : 0 < block.text.lines.length := List.length_pos_iff.mpr (Bytes.lines_ne_nil _)
  refine ⟨hPlaced.isText, ?_⟩
  rw [ScriptBlock.lines]
  simp only at hLine
  omega

/-- The virtual source has the line breaks of its document. -/
theorem text_toCrlf (hPair : ¬[Byte.carriageReturn, Byte.lineFeed] <:+: s) :
    VirtualSource.text { ofBlocks (Document.mk s).newline indent blocks with
      newline := (Document.mk (Newline.toCrlf s)).newline } =
      Newline.toCrlf (ofBlocks (Document.mk s).newline indent blocks).text := by
  refine join_toCrlf hPair (lineFeed_notMem_line hBlocks (Document.mk s).newline indent) ?_
  intro hMem
  rw [List.length_map]
  apply length_lines_le_one hBlocks
  rwa [Document.text, Newline.normalize_eq_self hPair]

end VirtualSource

namespace Remapper

open Newline (crlfOffset)

def toCrlf (r : Remapper) : Remapper :=
  let document : Document := ⟨Newline.toCrlf r.document.raw⟩
  ⟨document, { r.source with newline := document.newline }⟩

theorem rawOffset_toCrlf {r : Remapper} {line column o : Nat} (h : r.rawOffset line column = .ok o) :
    r.toCrlf.rawOffset line column = .ok (crlfOffset r.document.raw o) := by
  simp only [rawOffset, Document.rawOffset?, Document.rawLines] at h ⊢
  cases hOffset : (LineIndex.ofBytes r.document.raw).offset? ⟨line, clampWord column⟩ with
  | none =>
    rw [hOffset] at h
    cases h
  | some offset =>
    rw [hOffset] at h
    cases h
    simp only [toCrlf, Newline.offset?_toCrlf hOffset]

section Text

variable {r : Remapper} (hText : r.toCrlf.source.text = Newline.toCrlf r.source.text)
include hText

theorem place_toCrlf {o : Nat} (ho : o ≤ r.source.text.length) :
    r.toCrlf.place (crlfOffset r.source.text o) = r.place o := by
  rw [place, VirtualSource.lineIndex, hText, Newline.position_crlfOffset ho]
  rfl

theorem Accepts.toCrlf {range : OffsetRange} {first last : Segment} {start stop : Nat}
    (h : r.Accepts range first last start stop) :
    r.toCrlf.Accepts (range.move (crlfOffset r.source.text)) first last (crlfOffset r.document.raw start)
      (crlfOffset r.document.raw stop) := by
  have hStart := place_toCrlf hText (Nat.le_trans h.forward h.inside)
  have hStop := place_toCrlf hText h.inside
  refine ⟨?_, ?_, ?_, ?_, h.sameBlock, ?_, ?_, ?_⟩ <;> simp only [OffsetRange.move, hStart, hStop]
  · exact Newline.crlfOffset_le_iff.mpr h.forward
  · rw [hText]
    exact Newline.crlfOffset_le_length_iff.mpr h.inside
  · exact h.firstSegment
  · exact h.lastSegment
  · exact h.between
  · exact rawOffset_toCrlf h.startOffset
  · exact rawOffset_toCrlf h.stopOffset

end Text

variable {document : Document} {blocks : List ScriptBlock} {newline : Newline} {indent : Indent} {r : Remapper}
  (hBlocks : ScriptBlock.Arranged document blocks)
  (hr : r = ⟨document, VirtualSource.ofBlocks newline indent blocks⟩)
  (hText : r.toCrlf.source.text = Newline.toCrlf r.source.text)
include hBlocks hr hText

theorem exists_accepts_of_toCrlf {range : OffsetRange} {first last : Segment} {start stop : Nat}
    (h : r.toCrlf.Accepts (range.move (crlfOffset r.source.text)) first last start stop) :
    ∃ start stop, r.Accepts range first last start stop := by
  have hForward : range.start ≤ range.stop := Newline.crlfOffset_le_iff.mp h.forward
  have hInside : range.stop ≤ r.source.text.length := by
    have hMoved := h.inside
    rw [hText] at hMoved
    exact Newline.crlfOffset_le_length_iff.mp hMoved
  have hStart := place_toCrlf hText (Nat.le_trans hForward hInside)
  have hStop := place_toCrlf hText hInside
  have hFirst := h.firstSegment
  have hLast := h.lastSegment
  have hBetween := h.between
  simp only [OffsetRange.move, hStart, hStop] at hFirst hLast hBetween
  -- wherever a segment is found, the document has an offset for it
  subst hr
  obtain ⟨_, _, -, -, hFirstOffset⟩ := exists_edge hBlocks (place _ range.start) (place _ range.stop) hFirst
  obtain ⟨_, _, -, -, hLastOffset⟩ := exists_edge hBlocks (place _ range.start) (place _ range.stop) hLast
  exact ⟨_, _, hForward, hInside, hFirst, hLast, h.sameBlock, hBetween, hFirstOffset, hLastOffset⟩

/-- A fix is accepted in the document with pairs for line breaks exactly if it is accepted in the one with line feeds, and
its ends then move as the offsets there do. -/
theorem fix?_toCrlf (fix : Fix) :
    r.toCrlf.fix? (fix.move (crlfOffset r.source.text)) = (r.fix? fix).map (Fix.move (crlfOffset r.document.raw)) := by
  cases hRange : r.range fix.range with
  | ok mapped =>
    obtain ⟨first, last, start, stop, hAccepts, rfl⟩ := range_eq_ok_iff.mp hRange
    have hMoved := range_eq_ok_iff.mpr ⟨_, _, _, _, hAccepts.toCrlf hText, rfl⟩
    simp only [fix?, hRange, Fix.move, hMoved, Option.map_some]
    simp only [OffsetRange.move, Newline.crlfOffset_max]
  | error error =>
    cases hMoved : r.toCrlf.range (fix.range.move (crlfOffset r.source.text)) with
    | error _ => simp only [fix?, hRange, Fix.move, hMoved, Option.map_none]
    | ok mapped =>
      obtain ⟨first, last, start, stop, hAccepts, -⟩ := range_eq_ok_iff.mp hMoved
      obtain ⟨start, stop, hAccepts⟩ := exists_accepts_of_toCrlf hBlocks hr hText hAccepts
      cases hRange.symm.trans (range_eq_ok_iff.mpr ⟨_, _, _, _, hAccepts, rfl⟩)

theorem diagnostic?_toCrlf (d : Diagnostic) :
    r.toCrlf.diagnostic? (d.moveFix (crlfOffset r.source.text)) =
      (r.diagnostic? d).map (Diagnostic.moveFix (crlfOffset r.document.raw)) := by
  have hFix : (d.fix.map (Fix.move (crlfOffset r.source.text))).bind r.toCrlf.fix? =
      (d.fix.bind r.fix?).map (Fix.move (crlfOffset r.document.raw)) := by
    cases d.fix with
    | none => rfl
    | some fix => exact fix?_toCrlf hBlocks hr hText fix
  have hPosition : (d.moveFix (crlfOffset r.source.text)).position? = d.position? := rfl
  rw [diagnostic?, diagnostic?, diagnostic, diagnostic, hPosition]
  cases d.position? with
  | none => rfl
  | some p =>
    -- positions do not depend on the line breaks
    have hMoved : r.toCrlf.position p = r.position p := rfl
    simp only [hMoved]
    cases r.position p with
    | error _ => rfl
    | ok start =>
      simp only [Except.map, Except.toOption, Option.map_some, Diagnostic.moveFix, hFix]
      rfl

end Remapper

namespace Linter

open Newline (crlfOffset)

variable {linter : Linter} {analyzer analyzer' : Analyzer} {filename : String} {raw : Bytes} {p p' : Prepared}

/-- The second analyzer reports on a text with pairs for line breaks what the first does on it with line feeds. -/
def FollowsBreaks (analyzer analyzer' : Analyzer) : Prop :=
  ∀ text name, analyzer' (Newline.toCrlf text) name =
    (analyzer text name).map (Diagnostic.moveFix (crlfOffset text))

theorem followsBreaks_normalize (analyzer : Analyzer) :
    FollowsBreaks analyzer fun text name =>
      (analyzer (Newline.normalize text) name).map (Diagnostic.moveFix (crlfOffset (Newline.normalize text))) := by
  intro text name
  simp only [Newline.normalize_toCrlf]

theorem found_toCrlf {document : Document} {call : String × VirtualSource} {blocks : List ScriptBlock} {indent : Indent}
    {newline : Newline} (hBlocks : ScriptBlock.Arranged document blocks)
    (hCall : call.2 = VirtualSource.ofBlocks newline indent blocks)
    (hText : (Remapper.mk document call.2).toCrlf.source.text = Newline.toCrlf call.2.text)
    (hAnalyzers : FollowsBreaks analyzer analyzer') :
    found analyzer' (Remapper.mk document call.2).toCrlf.document (call.1, (Remapper.mk document call.2).toCrlf.source) =
      (found analyzer document call).map (Diagnostic.moveFix (crlfOffset document.raw)) := by
  have hDiagnostic := Remapper.diagnostic?_toCrlf hBlocks (congrArg (Remapper.mk document) hCall) hText
  simp only [found]
  rw [hText, hAnalyzers, List.filterMap_map, List.map_filterMap]
  exact congrArg (List.filterMap · _) (funext hDiagnostic)

theorem flatMap_found_toCrlf (hPrepare : linter.prepare raw filename = .ok p)
    (hBlocks : ScriptBlock.Arranged p.document p.blocks) (hPair : ¬[Byte.carriageReturn, Byte.lineFeed] <:+: raw)
    (hDocument : p'.document = ⟨Newline.toCrlf raw⟩) (hScripts : p.SameScripts p')
    (hAnalyzers : FollowsBreaks analyzer analyzer') :
    (linter.sources p' filename).flatMap (found analyzer' p'.document) =
      ((linter.sources p filename).flatMap (found analyzer p.document)).map (Diagnostic.moveFix (crlfOffset raw)) := by
  have hRaw : p.document = ⟨raw⟩ := by
    obtain ⟨blocks, -, rfl⟩ := prepare_eq_ok hPrepare
    rfl
  rw [hScripts.sources, List.flatMap_map, List.map_flatMap, List.flatMap_def, List.flatMap_def]
  refine congrArg List.flatten (List.map_congr_left ?_)
  intro call hCall
  obtain ⟨part, hPart, hSource⟩ := exists_ofBlocks_of_mem_sources hPrepare hCall
  rw [hDocument]
  rw [hRaw] at hBlocks hSource ⊢
  apply found_toCrlf (hBlocks.sublist hPart) hSource ?_ hAnalyzers
  rw [hSource]
  exact VirtualSource.text_toCrlf (hBlocks.sublist hPart) hPair

/-- Linting a document whose line feeds became pairs returns the same reports, with fixes moved past the carriage returns
before them. -/
theorem lint_toCrlf (linter : Linter) (analyzer analyzer' : Analyzer) (source filename : String)
    (hSize : (Utf8.encode source).length < wordLimit)
    (hPair : ¬[Byte.carriageReturn, Byte.lineFeed] <:+: Utf8.encode source)
    (hMark : (linter.scanOptions filename).mode = .xml →
      ¬Xml.byteOrderMark <+: (Document.mk (Utf8.encode source)).text)
    (hStrict : linter.strict = false) (hAnalyzers : FollowsBreaks analyzer analyzer') :
    ∃ out, linter.lint analyzer (Utf8.encode source) filename = .ok out ∧
      linter.lint analyzer' (Newline.toCrlf (Utf8.encode source)) filename =
        .ok (out.map (Diagnostic.moveFix (crlfOffset (Utf8.encode source)))) := by
  have hText : (Document.mk (Newline.toCrlf (Utf8.encode source))).text = (Document.mk (Utf8.encode source)).text := by
    rw [Document.text, Document.text, Newline.normalize_toCrlf, Newline.normalize_eq_self hPair]
  have hLenient : ¬linter.strict = true := by simp [hStrict]
  cases hPrepare : linter.prepare (Utf8.encode source) filename with
  | error fatal =>
    refine ⟨[fatal], by simp only [lint, hPrepare], ?_⟩
    rw [List.map_singleton, Diagnostic.moveFix_of_eq_none _ (fix_of_prepare_eq_error hPrepare)]
    simp only [lint, prepare_eq_error_of_text_eq hText hPrepare]
  | ok p =>
    have hBlocks := arranged_of_prepare hSize hMark hPrepare
    obtain ⟨p', hPrepare', hDocument, hScripts⟩ := exists_prepare_of_text_eq hText hPrepare
    have hBad : p.badIndent.map (Diagnostic.moveFix (crlfOffset (Utf8.encode source))) = p.badIndent :=
      (List.map_congr_left fun _ hd => Diagnostic.moveFix_of_eq_none _ (fix_of_mem_badIndent hd)).trans (List.map_id _)
    refine ⟨_, lint_eq_ok hPrepare (report_eq_ok fun hTrue => absurd hTrue hLenient), ?_⟩
    rw [lint_eq_ok hPrepare' (report_eq_ok fun hTrue => absurd hTrue hLenient), ← Diagnostic.sort_map_moveFix,
      List.map_append, flatMap_found_toCrlf hPrepare hBlocks hPair hDocument hScripts hAnalyzers, hScripts.badIndent]
    split
    · rw [hBad]
    · rfl

theorem lint_toCrlf_wholeLine :
    let report : Fix → Diagnostic := fun fix => { line := 3, column := 1, message := "", fix := some fix }
    let analyzer : Analyzer := fun _ _ => [report (Fix.delete 3 5)]
    let analyzer' : Analyzer := fun text name =>
      (analyzer (Newline.normalize text) name).map (Diagnostic.moveFix (crlfOffset (Newline.normalize text)))
    let raw := Utf8.encode "<script>\n  a\n  b\n</script>"
    Linter.lint {} analyzer raw "a.html" = .ok [{ report (Fix.delete 13 17) with column := 3 }] ∧
      Linter.lint {} analyzer' (Newline.toCrlf raw) "a.html" =
        .ok [{ report (Fix.delete 15 20) with column := 3 }] := by
  intro report analyzer analyzer' raw
  obtain ⟨p, hPrepare⟩ : ∃ p, Linter.prepare {} raw "a.html" = .ok p := ⟨_, rfl⟩
  have hReport : Linter.report {} analyzer p.document (Linter.sources {} p "a.html") =
      .ok [{ report (Fix.delete 13 17) with column := 3 }] := by
    cases hPrepare
    exact eq_ok_of_toOption (by decide +kernel)
  have hLint : Linter.lint {} analyzer raw "a.html" = .ok [{ report (Fix.delete 13 17) with column := 3 }] := by
    rw [lint_eq_ok hPrepare hReport]
    exact congrArg Except.ok (List.mergeSort_singleton _)
  obtain ⟨out, hOut, hMoved⟩ := lint_toCrlf {} analyzer analyzer' "<script>\n  a\n  b\n</script>" "a.html"
    (by decide +kernel) (by decide +kernel) nofun rfl (followsBreaks_normalize analyzer)
  cases hLint.symm.trans hOut
  refine ⟨hLint, hMoved.trans (congrArg Except.ok ?_)⟩
  decide +kernel

end Linter
end ScriptLint
