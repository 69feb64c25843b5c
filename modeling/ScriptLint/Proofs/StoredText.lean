import ScriptLint.Proofs.Location.LineTable
import ScriptLint.Proofs.ScriptBlock

/-!
# Offsets of the stored text

Both texts of a document have the same lines. An offset of the scanned text is moved by one for every line break before
it that is a pair in the stored text, never to the middle of a pair, and what stands between two moved offsets reads as
what stood between them before.
-/
namespace ScriptLint
set_option autoImplicit false

namespace Newline

/-- The line breaks of a text in their order: each line but the last has one, and a carriage return at the end of the
line belongs to it. -/
def breaks (s : Bytes) : List Newline :=
  (Bytes.lines s).dropLast.map fun line => if line.getLast? = some Byte.carriageReturn then crlf else lf

theorem breaks_lineFeed (s : Bytes) : breaks (Byte.lineFeed :: s) = lf :: breaks s := by
  rw [breaks, Bytes.lines_lineFeed_cons, List.dropLast_cons_of_ne_nil (Bytes.lines_ne_nil s)]
  rfl

theorem breaks_pair (s : Bytes) : breaks (Byte.carriageReturn :: Byte.lineFeed :: s) = crlf :: breaks s := by
  rw [breaks, Bytes.lines_cons_of_ne (by decide), Bytes.firstLine_lineFeed_cons, Bytes.lines_lineFeed_cons,
    List.tail_cons, List.dropLast_cons_of_ne_nil (Bytes.lines_ne_nil s)]
  rfl

theorem breaks_cons {b : UInt8} {s : Bytes} (hb : b ≠ Byte.lineFeed)
    (hPair : ¬(b = Byte.carriageReturn ∧ s.head? = some Byte.lineFeed)) : breaks (b :: s) = breaks s := by
  rw [breaks, breaks, Bytes.lines_cons_of_ne hb]
  rcases Bytes.firstLine_split s with ⟨-, hLines⟩ | ⟨rest, hSplit, hLines⟩
  · rw [hLines]
    rfl
  · have hNe := Bytes.lines_ne_nil rest
    rw [hLines, List.tail_cons, List.dropLast_cons_of_ne_nil hNe, List.dropLast_cons_of_ne_nil hNe, List.map_cons,
      List.map_cons]
    -- the byte ends its line only if that line has no other byte
    have hEnd : (b :: Bytes.firstLine s).getLast? = some Byte.carriageReturn ↔
        (Bytes.firstLine s).getLast? = some Byte.carriageReturn := by
      cases hFirst : Bytes.firstLine s with
      | nil =>
        rw [hFirst, List.nil_append] at hSplit
        have hReturn : b ≠ Byte.carriageReturn := fun hReturn => hPair ⟨hReturn, by rw [hSplit]; rfl⟩
        simpa using hReturn
      | cons c line => rw [List.getLast?_cons_cons]
    simp only [hEnd]

theorem length_normalize_add (s : Bytes) : (normalize s).length + (breaks s).count crlf = s.length := by
  fun_induction normalize s with
  | case1 => rfl
  | case2 a =>
    by_cases ha : a = Byte.lineFeed
    · subst ha
      rfl
    · rw [breaks_cons ha (by simp)]
      rfl
  | case3 a b s hPair ih =>
    obtain ⟨rfl, rfl⟩ := hPair
    simp only [breaks_pair, List.count_cons_self, List.length_cons]
    omega
  | case4 a b s hPair ih =>
    have hBreaks : (breaks (a :: b :: s)).count crlf = (breaks (b :: s)).count crlf := by
      by_cases ha : a = Byte.lineFeed
      · rw [ha, breaks_lineFeed, List.count_cons_of_ne (by decide)]
      · rw [breaks_cons ha (by simpa using hPair)]
    rw [hBreaks, List.length_cons, List.length_cons]
    omega

theorem breaks_take (s : Bytes) (i : Nat) : breaks (s.take i) = (breaks s).take (s.place i).line := by
  have hInside : (s.place i).line < (Bytes.lines s).length :=
    (List.getElem?_eq_some_iff.mp (Bytes.lines_getElem?_place s i)).1
  have hLines := Bytes.lines_take (s := s) (j := i) (l := (s.place i).line) (y := (s.place i).character) rfl
  rw [breaks, breaks, hLines, List.dropLast_concat, ← List.map_take, List.dropLast_eq_take, List.take_take,
    Nat.min_eq_left (by omega)]

end Newline

namespace Document

variable {d : Document}

/-- Reading both texts to their ends reaches the same line. -/
theorem lineCount_rawLines (d : Document) : d.rawLines.lineCount = d.lines.lineCount := by
  have hLast : ∀ s : Bytes, (Position.after ⟨0, 0⟩ s).line + 1 = s.lines.length := by
    intro s
    have hPos := List.length_pos_iff.mpr (Bytes.lines_ne_nil s)
    rw [Position.after_eq, Nat.zero_add]
    exact Nat.sub_add_cancel hPos
  rw [rawLines, lines, LineIndex.lineCount_ofBytes, LineIndex.lineCount_ofBytes, ← hLast, ← hLast, text,
    Newline.after_normalize]

theorem toRawOffset_eq_add (hSmall : d.IsSmall) {o : Nat} (ho : o ≤ d.text.length) :
    d.toRawOffset o =
      o + ((Newline.breaks d.raw).take ((d.text.take o).count Byte.lineFeed)).count Newline.crlf := by
  have hCut := cut_toRawOffset hSmall ho
  have hLength := Newline.length_normalize_add (d.raw.take (d.toRawOffset o))
  have hLine : (d.text.place o).line = (d.text.take o).count Byte.lineFeed := by
    rw [Bytes.place_eq, Bytes.length_lines, Nat.add_sub_cancel]
  rw [hCut.take_eq, List.length_take_of_le ho, List.length_take_of_le hCut.le_length, Newline.breaks_take,
    hCut.place_eq, hLine] at hLength
  exact hLength.symm

/-- No offset is moved between the two bytes of a pair: the first of them stands for the line feed of the scanned text,
and the next offset is past both. -/
theorem toRawOffset_ne_of_pair (hSmall : d.IsSmall) {o i : Nat} (ho : o ≤ d.text.length)
    (hReturn : d.raw[i]? = some Byte.carriageReturn) (hFeed : d.raw[i + 1]? = some Byte.lineFeed) :
    d.toRawOffset o ≠ i + 1 := by
  intro hMiddle
  have hCut := cut_toRawOffset hSmall ho
  have hi := (List.getElem?_eq_some_iff.mp hReturn).1
  obtain ⟨j, t, hTake, hDrop, ht, ⟨-, -, hAlone⟩ | ⟨hAt, -, hAfter, hText⟩⟩ := Newline.exists_cut_at d.raw hi
  · exact hAlone ⟨hReturn, hFeed⟩
  · obtain rfl : j = i := by
      rcases hAt with hAt | rfl
      · exact hAt
      · rw [hAfter] at hReturn
        exact absurd hReturn (by decide)
    have ht : t < d.text.length := ht
    have hPair : d.Cut t j := ⟨Nat.le_of_lt hi, hTake, hDrop⟩
    have hPlace : d.text.place o = (d.text.place t).step Byte.carriageReturn := by
      rw [← hCut.place_eq, hMiddle, Bytes.place_succ hReturn, hPair.place_eq]
    have hNext : d.text.place (t + 1) = (d.text.place t).step Byte.lineFeed := Bytes.place_succ hText
    have hBefore : t < o := by
      rw [← Bytes.place_lt_place_iff (Nat.le_of_lt ht) ho, hPlace]
      exact Position.lt_step _ _
    have hBehind : o < t + 1 := by
      rw [← Bytes.place_lt_place_iff ho ht, hPlace, hNext, Position.lt_iff]
      exact .inl (Nat.lt_succ_self _)
    omega

theorem slice?_ofElement (hSmall : d.IsSmall) (hText : Utf8.IsText d.text) (mode : MarkupMode) (index : Nat)
    {element : Element} (h : element.IsPlaced d.text) :
    let block := ScriptBlock.ofElement d mode index element
    Utf8.slice? d.raw block.offset block.endOffset = some block.rawText ∧
      Newline.normalize block.rawText = element.contentText d.text := by
  intro block
  have hStart : element.content.start ≤ d.text.length := Nat.le_trans h.start_le_stop h.stop_le_length
  have hLe : d.toRawOffset element.content.start ≤ d.toRawOffset element.content.stop :=
    (toRawOffset_le_iff hSmall hStart h.stop_le_length).mpr h.start_le_stop
  have hEnd : block.endOffset = d.toRawOffset element.content.stop :=
    ScriptBlock.endOffset_ofElement hSmall h mode index
  have hSlice : Utf8.slice? d.raw block.offset (d.toRawOffset element.content.stop) =
      some ((d.raw.take (d.toRawOffset element.content.stop)).drop (d.toRawOffset element.content.start)) :=
    Utf8.slice?_of_boundaries hLe (isBoundary_toRawOffset hSmall (h.isBoundary_start hText))
      (isBoundary_toRawOffset hSmall h.isBoundary_stop)
  have hRaw : block.rawText =
      (d.raw.take (d.toRawOffset element.content.stop)).drop (d.toRawOffset element.content.start) :=
    congrArg (Option.getD · []) hSlice
  rw [hEnd, hSlice, hRaw]
  exact ⟨rfl, normalize_raw_slice hSmall h.start_le_stop h.stop_le_length⟩

/-- The texts of a document correspond line by line and offset by offset, and with them the contents of its scripts. -/
theorem stored_text_corresponds (source : String) (hSize : (Utf8.encode source).length < wordLimit) :
    let d : Document := ⟨Utf8.encode source⟩
    d.rawLines.lineCount = d.lines.lineCount ∧
      (∀ o, o ≤ d.text.length →
        d.toRawOffset o =
            o + ((Newline.breaks d.raw).take ((d.text.take o).count Byte.lineFeed)).count Newline.crlf ∧
          ∀ i, d.raw[i]? = some Byte.carriageReturn → d.raw[i + 1]? = some Byte.lineFeed → d.toRawOffset o ≠ i + 1) ∧
      (∀ o o', o ≤ o' → o' ≤ d.text.length →
        d.toRawOffset o ≤ d.toRawOffset o' ∧ d.toRawOffset o' ≤ d.raw.length ∧
          Newline.normalize ((d.raw.take (d.toRawOffset o')).drop (d.toRawOffset o)) = (d.text.take o').drop o) ∧
      ∀ options blocks, options.mode = .html → d.scan options = .ok blocks → ∀ block ∈ blocks,
        Utf8.slice? d.raw block.offset block.endOffset = some block.rawText ∧
          Newline.normalize block.rawText = block.text := by
  intro d
  have hSmall : d.IsSmall := hSize
  refine ⟨d.lineCount_rawLines, ?_, ?_, ?_⟩
  · intro o ho
    exact ⟨toRawOffset_eq_add hSmall ho, fun i hReturn hFeed => toRawOffset_ne_of_pair hSmall ho hReturn hFeed⟩
  · intro o o' hLe ho'
    exact ⟨(toRawOffset_le_iff hSmall (Nat.le_trans hLe ho') ho').mpr hLe, (cut_toRawOffset hSmall ho').le_length,
      normalize_raw_slice hSmall hLe ho'⟩
  · intro options blocks hHtml hScan block hBlock
    have hPlain : d.IsPlain options.mode := isPlain_encode hSize fun hXml => nomatch hHtml.symm.trans hXml
    have hText := Newline.isText_normalize hPlain.isText
    obtain ⟨elements, hElements, rfl⟩ := scan_eq_ok hScan
    obtain ⟨element, hMem, index, -, rfl⟩ := ScriptBlock.exists_of_mem_number hBlock
    obtain ⟨hPlaced, hMasks⟩ := (elements_placed hPlain hElements).1 element (List.mem_filter.mp hMem).1
    obtain ⟨hSlice, hContent⟩ := slice?_ofElement hSmall hText options.mode index hPlaced
    refine ⟨hSlice, hContent.trans ?_⟩
    exact ((ScriptBlock.isPlaced_ofElement hSmall hText hPlaced hMasks).html hHtml).symm

theorem stored_text_corresponds_mixedBreaks :
    let d : Document := ⟨Utf8.encode "\r\r\n<script>x\r\ny\n</script>"⟩
    d.raw.length < wordLimit ∧ d.toRawOffset 1 = 1 ∧ d.toRawOffset 2 = 3 ∧ d.toRawOffset 14 = 16 ∧
      ∃ blocks, d.scan {} = .ok blocks ∧ blocks.map (·.rawText) = [Utf8.encode "x\r\ny\n"] ∧
        ∀ block ∈ blocks, Utf8.slice? d.raw block.offset block.endOffset = some block.rawText ∧
          Newline.normalize block.rawText = block.text := by
  intro d
  have hSize : d.raw.length < wordLimit := by decide +kernel
  obtain ⟨-, hOffset, -, hBlocks⟩ := stored_text_corresponds _ hSize
  refine ⟨hSize, ?_, ?_, ?_, _, rfl, by decide +kernel, hBlocks {} _ rfl rfl⟩
  · exact (hOffset 1 (by decide +kernel)).1.trans (by decide +kernel)
  · exact (hOffset 2 (by decide +kernel)).1.trans (by decide +kernel)
  · exact (hOffset 14 (by decide +kernel)).1.trans (by decide +kernel)

end Document
end ScriptLint
