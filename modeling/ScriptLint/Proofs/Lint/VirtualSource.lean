import ScriptLint.Lint.VirtualSource
import ScriptLint.Proofs.Lint.Run

/-!
# How a virtual source is laid out

A virtual line holds the contents of the runs on it, each as far from the first one as on the line of the document. The
text of the source has these lines, with a carriage return at the end of each but the last where the document has them.
-/
namespace ScriptLint
set_option autoImplicit false

namespace Run

def segment (shift : Nat) (run : Run) : Segment :=
  ⟨run.block.index, run.documentStart - shift, run.documentStart, run.lineStart, run.content.length⟩

/-- How far runs move to the left when their line is made of them alone. -/
def shift : List Run → Nat
  | [] => 0
  | run :: _ => run.documentStart

end Run

namespace VirtualLine

def appendRun (line : VirtualLine) (run : Run) : VirtualLine :=
  line.append run.block.index run.documentStart run.lineStart run.content

/-- A line that shows the contents of runs, all at the same distance from their columns in the document. -/
structure Shows (line : VirtualLine) (shift : Nat) (runs : List Run) : Prop where
  segments_eq : line.segments = runs.map (Run.segment shift)
  split : ∀ run ∈ runs, ∃ before after, line.text = before ++ (run.content ++ after) ∧
    before.length + shift = run.documentStart
  length_eq : ∀ run, runs.getLast? = some run → line.text.length + shift = run.documentStop
  noBreak : Byte.lineFeed ∉ line.text
  /-- All else on the line is space. -/
  kept : ∀ c b, line.text[c]? = some b → b ≠ Byte.space → ∃ run ∈ runs, run.documentStart ≤ c + shift ∧
    run.content[c + shift - run.documentStart]? = some b

theorem shows_singleton {run : Run} (hBreak : Byte.lineFeed ∉ run.content) :
    (appendRun {} run).Shows run.documentStart [run] := by
  refine ⟨?_, ?_, ?_, ?_, ?_⟩
  · simp [appendRun, append, gap, Run.segment]
  · intro other hOther
    rw [List.mem_singleton.mp hOther]
    exact ⟨[], [], by simp [appendRun, append, gap], Nat.zero_add _⟩
  · intro other hOther
    cases hOther
    simp [appendRun, append, gap, Run.documentStop, Nat.add_comm]
  · simpa [appendRun, append, gap] using hBreak
  · intro c b hb _
    refine ⟨run, List.mem_singleton.mpr rfl, Nat.le_add_left _ _, ?_⟩
    simpa [appendRun, append, gap] using hb

/-- Another run that begins past the end of the last one keeps its distance too. -/
theorem Shows.appendRun {line : VirtualLine} {shift : Nat} {runs : List Run} {last run : Run}
    (h : line.Shows shift runs) (hLast : runs.getLast? = some last) (hApart : last.documentStop < run.lineStart)
    (hBreak : Byte.lineFeed ∉ run.content) : (line.appendRun run).Shows shift (runs ++ [run]) := by
  have hLength := h.length_eq last hLast
  have hStart : run.lineStart ≤ run.documentStart := Nat.le_add_right _ _
  have hGap : line.gap run.documentStart = List.replicate (run.documentStart - last.documentStop) Byte.space := by
    rw [gap, h.segments_eq, List.getLast?_map, hLast, Option.map_some]
    simp only [Run.segment]
    rw [← Run.documentStop, Nat.max_eq_left (by omega)]
  have hBefore : (line.text ++ line.gap run.documentStart).length + shift = run.documentStart := by
    rw [hGap, List.length_append, List.length_replicate]
    omega
  refine ⟨?_, ?_, ?_, ?_, ?_⟩
  · have hColumn : (line.text ++ line.gap run.documentStart).length = run.documentStart - shift := by omega
    simp only [VirtualLine.appendRun, append, h.segments_eq, hColumn, List.map_append]
    rfl
  · intro other hOther
    rcases List.mem_append.mp hOther with hOther | hOther
    · obtain ⟨before, after, hSplit, hColumn⟩ := h.split other hOther
      refine ⟨before, after ++ (line.gap run.documentStart ++ run.content), ?_, hColumn⟩
      simp [VirtualLine.appendRun, append, hSplit]
    · rw [List.mem_singleton.mp hOther]
      exact ⟨_, [], by simp [VirtualLine.appendRun, append], hBefore⟩
  · intro other hOther
    rw [List.getLast?_concat, Option.some.injEq] at hOther
    subst hOther
    rw [Run.documentStop, ← hBefore, VirtualLine.appendRun, append, List.length_append]
    omega
  · intro hMem
    simp only [VirtualLine.appendRun, append, hGap, List.mem_append, List.mem_replicate] at hMem
    rcases hMem with (hMem | ⟨-, hSpace⟩) | hMem
    · exact h.noBreak hMem
    · exact absurd hSpace (by decide)
    · exact hBreak hMem
  · intro c b hb hNe
    have hText : (line.appendRun run).text = line.text ++ line.gap run.documentStart ++ run.content := rfl
    rw [hText] at hb
    by_cases hc : c < (line.text ++ line.gap run.documentStart).length
    · rw [List.getElem?_append_left hc] at hb
      by_cases hLine : c < line.text.length
      · rw [List.getElem?_append_left hLine] at hb
        obtain ⟨other, hOther, hColumn⟩ := h.kept c b hb hNe
        exact ⟨other, List.mem_append_left _ hOther, hColumn⟩
      · rw [List.getElem?_append_right (by omega), hGap] at hb
        exact absurd (List.eq_of_mem_replicate (List.mem_of_getElem? hb)) hNe
    · rw [List.getElem?_append_right (by omega)] at hb
      have hIndex : c + shift - run.documentStart = c - (line.text ++ line.gap run.documentStart).length := by omega
      exact ⟨run, List.mem_append_right _ (List.mem_singleton.mpr rfl), by omega, hIndex ▸ hb⟩

theorem Shows.foldl {line : VirtualLine} {shift : Nat} {runs more : List Run} (h : line.Shows shift runs)
    (hNe : runs ≠ []) (hSeparated : Run.Separated (runs ++ more))
    (hBreak : ∀ run ∈ more, Byte.lineFeed ∉ run.content) :
    (more.foldl VirtualLine.appendRun line).Shows shift (runs ++ more) := by
  induction more generalizing line runs with
  | nil => simpa using h
  | cons run more ih =>
    have hLast := List.getLast?_eq_some_getLast hNe
    have hApart := (List.pairwise_append.mp hSeparated).2.2 _ (List.getLast_mem hNe) run List.mem_cons_self
    have hNext := h.appendRun hLast hApart (hBreak run List.mem_cons_self)
    rw [List.append_cons] at hSeparated ⊢
    exact ih hNext (by simp) hSeparated (fun other hOther => hBreak other (List.mem_cons_of_mem _ hOther))

/-- Separated runs are shown at the distance of the first. -/
theorem shows_foldl {runs : List Run} (hSeparated : Run.Separated runs)
    (hBreak : ∀ run ∈ runs, Byte.lineFeed ∉ run.content) :
    (runs.foldl VirtualLine.appendRun {}).Shows (Run.shift runs) runs := by
  cases runs with
  | nil => exact ⟨rfl, by simp, by simp, List.not_mem_nil, by simp⟩
  | cons run more =>
    exact (shows_singleton (hBreak run List.mem_cons_self)).foldl (List.cons_ne_nil _ _) hSeparated
      (fun other hOther => hBreak other (List.mem_cons_of_mem _ hOther))

end VirtualLine

namespace VirtualSource

def shift (indent : Indent) (blocks : List ScriptBlock) (n : Nat) : Nat := Run.shift (runs indent blocks n)

/-- The source of blocks that are planned with one indentation. -/
def ofBlocks (newline : Newline) (indent : Indent) (blocks : List ScriptBlock) : VirtualSource :=
  build newline blocks (blocks.map fun block => IndentPlan.ofBlock block indent)

def line (source : VirtualSource) (n : Nat) : VirtualLine := source.lines[n]?.getD {}

theorem segments_eq (source : VirtualSource) (n : Nat) : source.segments n = (source.line n).segments := by
  rw [segments, line]
  cases source.lines[n]? <;> rfl

theorem getD_modifyLine (change : VirtualLine → VirtualLine) (n m : Nat) (lines : List VirtualLine) :
    (modifyLine change n lines)[m]?.getD {} =
      if m = n then change (lines[n]?.getD {}) else lines[m]?.getD {} := by
  fun_induction modifyLine change n lines generalizing m with
  | case1 => cases m <;> simp
  | case2 line more => cases m <;> simp
  | case3 n ih =>
    cases m with
    | zero => simp
    | succ m => simpa using ih m
  | case4 n line more ih =>
    cases m with
    | zero => simp
    | succ m => simpa using ih m

theorem length_modifyLine (change : VirtualLine → VirtualLine) (n : Nat) (lines : List VirtualLine) :
    (modifyLine change n lines).length = max lines.length (n + 1) := by
  fun_induction modifyLine change n lines with
  | case1 => rfl
  | case2 line more => simp
  | case3 n ih =>
    simp only [List.length_cons, ih, List.length_nil]
    omega
  | case4 n line more ih =>
    simp only [List.length_cons, ih]
    omega

theorem getD_placeLines (block n m : Nat) (lines : List VirtualLine) (entries : List (Bytes × LinePlan)) :
    (placeLines block n lines entries)[m]?.getD {} =
      if m < n then lines[m]?.getD {}
      else match entries[m - n]? with
        | some entry => (lines[m]?.getD {}).append block entry.2.strip 0 entry.1
        | none => lines[m]?.getD {} := by
  induction entries generalizing n lines with
  | nil => simp [placeLines]
  | cons entry more ih =>
    rw [placeLines, ih, getD_modifyLine]
    rcases Nat.lt_trichotomy m n with hLt | rfl | hLt
    · rw [if_pos (Nat.lt_succ_of_lt hLt), if_pos hLt, if_neg (Nat.ne_of_lt hLt)]
    · rw [if_pos (Nat.lt_succ_self m), if_neg (Nat.lt_irrefl m), if_pos rfl, Nat.sub_self, List.getElem?_cons_zero]
    · rw [if_neg (by omega), if_neg (by omega), if_neg (by omega), show m - n = m - (n + 1) + 1 by omega,
        List.getElem?_cons_succ]

theorem length_placeLines (block n : Nat) (lines : List VirtualLine) (entries : List (Bytes × LinePlan)) :
    (placeLines block n lines entries).length ≤ max lines.length (n + entries.length) := by
  induction entries generalizing n lines with
  | nil => exact Nat.le_max_left _ _
  | cons entry more ih =>
    have h := ih (n + 1) (modifyLine (·.append block entry.2.strip 0 entry.1) n lines)
    rw [length_modifyLine] at h
    rw [placeLines, List.length_cons]
    omega

/-- A block adds its run to every line that it has one on. -/
theorem getD_placeBlock (indent : Indent) {block : ScriptBlock} (hText : Utf8.IsText block.text) (n : Nat)
    (lines : List VirtualLine) :
    (placeBlock lines block (IndentPlan.ofBlock block indent))[n]?.getD {} =
      match Run.onLine indent n block with
      | some run => (lines[n]?.getD {}).appendRun run
      | none => lines[n]?.getD {} := by
  have hStrips : ∀ k line plan, (block.lines.zip (IndentPlan.ofBlock block indent).lines)[k]? = some (line, plan) →
      IndentPlan.Strips line plan.strip ∧ (k = 0 → plan.strip = 0) :=
    fun k line plan hEntry => IndentPlan.strips_of_getElem?_zip hEntry
  rw [placeBlock, Run.onLine, IndentPlan.zip_transformed indent hText]
  generalize (block.lines.zip (IndentPlan.ofBlock block indent).lines) = entries at hStrips
  cases entries with
  | nil => simp
  | cons entry more =>
    simp only [List.map_cons, getD_placeLines, getD_modifyLine]
    rcases Nat.lt_trichotomy n block.start.line with hLt | rfl | hLt
    · rw [if_pos (Nat.lt_succ_of_lt hLt), if_pos hLt, if_neg (Nat.ne_of_lt hLt)]
    · obtain ⟨-, hFirst⟩ := hStrips 0 entry.1 entry.2 rfl
      simp [VirtualLine.appendRun, Run.documentStart, hFirst rfl]
    · obtain ⟨k, hk⟩ := Nat.exists_eq_add_of_lt hLt
      have hIndex : n - (block.start.line + 1) = k := by omega
      have hLine : n - block.start.line = k + 1 := by omega
      rw [if_neg (by omega), if_neg (by omega), if_neg (by omega), hIndex, hLine, List.getElem?_cons_succ,
        List.getElem?_map]
      cases hEntry : more[k]? with
      | none => rfl
      | some other =>
        obtain ⟨hOther, -⟩ := hStrips (k + 1) other.1 other.2 hEntry
        have hLength : (other.1.take other.2.strip).length = other.2.strip :=
          List.length_take_of_le hOther.le_length
        simp [VirtualLine.appendRun, Run.documentStart, hLength, Nat.ne_of_gt hLt]

theorem foldl_placeBlock (indent : Indent) {blocks : List ScriptBlock}
    (hText : ∀ block ∈ blocks, Utf8.IsText block.text) (n : Nat) (lines : List VirtualLine) :
    ((blocks.map fun block => (block, IndentPlan.ofBlock block indent)).foldl
        (fun lines entry => placeBlock lines entry.1 entry.2) lines)[n]?.getD {} =
      (runs indent blocks n).foldl VirtualLine.appendRun (lines[n]?.getD {}) := by
  induction blocks generalizing lines with
  | nil => rfl
  | cons block more ih =>
    rw [List.map_cons, List.foldl_cons, ih (fun other hOther => hText other (List.mem_cons_of_mem _ hOther)),
      getD_placeBlock indent (hText block List.mem_cons_self), runs, runs, List.filterMap_cons]
    cases Run.onLine indent n block <;> rfl

/-- A line of the source is made of the runs on it. -/
theorem line_ofBlocks (newline : Newline) (indent : Indent) {blocks : List ScriptBlock}
    (hText : ∀ block ∈ blocks, Utf8.IsText block.text) (n : Nat) :
    (ofBlocks newline indent blocks).line n = (runs indent blocks n).foldl VirtualLine.appendRun {} := by
  rw [line, ofBlocks, build, ← List.map_prod_left_eq_zip]
  exact foldl_placeBlock indent hText n []

theorem length_placeBlock (indent : Indent) {block : ScriptBlock} (hText : Utf8.IsText block.text)
    (lines : List VirtualLine) :
    (placeBlock lines block (IndentPlan.ofBlock block indent)).length ≤
      max lines.length (block.start.line + block.lines.length) := by
  have hLength : (block.lines.zip (IndentPlan.ofBlock block indent).lines).length = block.lines.length := by
    rw [List.length_zip, IndentPlan.length_lines_ofBlock, Nat.min_self]
  rw [placeBlock, IndentPlan.zip_transformed indent hText, ← hLength]
  cases block.lines.zip (IndentPlan.ofBlock block indent).lines with
  | nil => exact Nat.le_max_left _ _
  | cons entry more =>
    refine Nat.le_trans (length_placeLines _ _ _ _) ?_
    rw [length_modifyLine, List.length_map, List.length_cons]
    omega

theorem length_lines_ofBlocks_le (newline : Newline) (indent : Indent) {blocks : List ScriptBlock} {limit : Nat}
    (h : ∀ block ∈ blocks, Utf8.IsText block.text ∧ block.start.line + block.lines.length ≤ limit) :
    (ofBlocks newline indent blocks).lines.length ≤ limit := by
  have hFold : ∀ lines : List VirtualLine, lines.length ≤ limit →
      ((blocks.map fun block => (block, IndentPlan.ofBlock block indent)).foldl
        (fun lines entry => placeBlock lines entry.1 entry.2) lines).length ≤ limit := by
    induction blocks with
    | nil => exact fun lines hLines => hLines
    | cons block more ih =>
      intro lines hLines
      obtain ⟨hText, hBlock⟩ := h block List.mem_cons_self
      refine ih (fun other hOther => h other (List.mem_cons_of_mem _ hOther)) _ ?_
      exact Nat.le_trans (length_placeBlock indent hText lines) (Nat.max_le.mpr ⟨hLines, hBlock⟩)
  rw [ofBlocks, build, ← List.map_prod_left_eq_zip]
  exact hFold [] (Nat.zero_le _)

def mark : Newline → Bytes
  | .lf => []
  | .crlf => [Byte.carriageReturn]

theorem bytes_eq_mark_append (newline : Newline) : newline.bytes = mark newline ++ [Byte.lineFeed] := by
  cases newline <;> rfl

theorem lines_join_cons (newline : Newline) {first next : Bytes} (hFirst : Byte.lineFeed ∉ first) (more : List Bytes) :
    Bytes.lines (join newline.bytes (first :: next :: more)) =
      (first ++ mark newline) :: Bytes.lines (join newline.bytes (next :: more)) := by
  have hBytes := bytes_eq_mark_append newline
  have hMark : Byte.lineFeed ∉ mark newline := by cases newline <;> decide
  rw [join, hBytes, ← List.append_assoc, List.append_assoc, List.singleton_append, ← hBytes]
  · exact Bytes.lines_append_lineFeed (by simp [hFirst, hMark]) _
  · exact List.cons_ne_nil _ _

theorem getElem?_lines_join (newline : Newline) {lines : List Bytes} {n : Nat} {line : Bytes}
    (hBreak : ∀ other ∈ lines, Byte.lineFeed ∉ other) (h : lines[n]? = some line) :
    (Bytes.lines (join newline.bytes lines))[n]? =
      some (line ++ if n + 1 < lines.length then mark newline else []) := by
  induction lines generalizing n with
  | nil => cases h
  | cons first rest ih =>
    have hFirst := hBreak first List.mem_cons_self
    cases rest with
    | nil =>
      obtain ⟨rfl, rfl⟩ : n = 0 ∧ first = line := by
        cases n with
        | zero => exact ⟨rfl, Option.some.inj h⟩
        | succ n => cases h
      rw [join, Bytes.lines_of_notMem hFirst, if_neg (by simp), List.append_nil]
      rfl
    | cons next more =>
      rw [lines_join_cons newline hFirst]
      cases n with
      | zero =>
        cases h
        simp
      | succ n =>
        have hRest := ih (fun other hOther => hBreak other (List.mem_cons_of_mem _ hOther)) h
        rw [List.getElem?_cons_succ, hRest, List.length_cons (a := first)]
        simp only [Nat.add_lt_add_iff_right]

theorem length_lines_join (newline : Newline) {lines : List Bytes} (hBreak : ∀ other ∈ lines, Byte.lineFeed ∉ other) :
    (Bytes.lines (join newline.bytes lines)).length = max lines.length 1 := by
  induction lines with
  | nil => rfl
  | cons first rest ih =>
    have hFirst := hBreak first List.mem_cons_self
    cases rest with
    | nil => rw [join, Bytes.lines_of_notMem hFirst]; rfl
    | cons next more =>
      rw [lines_join_cons newline hFirst, List.length_cons,
        ih (fun other hOther => hBreak other (List.mem_cons_of_mem _ hOther))]
      simp only [List.length_cons]
      omega

section Arranged

variable {document : Document} {blocks : List ScriptBlock}

theorem line_shows (hBlocks : ScriptBlock.Arranged document blocks) (newline : Newline) (indent : Indent) (n : Nat) :
    ((ofBlocks newline indent blocks).line n).Shows (shift indent blocks n) (runs indent blocks n) := by
  rw [line_ofBlocks newline indent (fun block hBlock => (hBlocks.isPlaced block hBlock).isText) n]
  exact VirtualLine.shows_foldl (separated_runs hBlocks indent n)
    (fun run hRun => (isPlaced_of_mem_runs hBlocks hRun).2.noBreak)

/-- The segments of a line are the runs on it, moved to the left together. -/
theorem segments_ofBlocks (hBlocks : ScriptBlock.Arranged document blocks) (newline : Newline) (indent : Indent)
    (n : Nat) : (ofBlocks newline indent blocks).segments n =
      (runs indent blocks n).map (Run.segment (shift indent blocks n)) := by
  rw [segments_eq, (line_shows hBlocks newline indent n).segments_eq]

theorem length_line_le (hBlocks : ScriptBlock.Arranged document blocks) (newline : Newline) (indent : Indent) (n : Nat) :
    ((ofBlocks newline indent blocks).line n).text.length ≤ document.text.length := by
  have hShows := line_shows hBlocks newline indent n
  cases hLast : (runs indent blocks n).getLast? with
  | none =>
    rw [line_ofBlocks newline indent (fun block hBlock => (hBlocks.isPlaced block hBlock).isText) n,
      List.getLast?_eq_none_iff.mp hLast]
    exact Nat.zero_le _
  | some run =>
    obtain ⟨-, hRun⟩ := isPlaced_of_mem_runs hBlocks (List.mem_of_getLast? hLast)
    exact Nat.le_trans (Nat.le_add_right _ _) (hShows.length_eq run hLast ▸ hRun.documentStop_le)

theorem lineFeed_notMem_line (hBlocks : ScriptBlock.Arranged document blocks) (newline : Newline) (indent : Indent) :
    ∀ text ∈ (ofBlocks newline indent blocks).lines.map (·.text), Byte.lineFeed ∉ text := by
  intro text hText
  obtain ⟨line, hLine, rfl⟩ := List.mem_map.mp hText
  obtain ⟨n, hn⟩ := List.mem_iff_getElem?.mp hLine
  have hShows := line_shows hBlocks newline indent n
  rw [VirtualSource.line, hn, Option.getD_some] at hShows
  exact hShows.noBreak

theorem getElem?_lines_text (hBlocks : ScriptBlock.Arranged document blocks) (newline : Newline) (indent : Indent)
    {n : Nat} (hn : n < (ofBlocks newline indent blocks).lines.length) :
    ∃ ending, (ending = [] ∨ ending = mark newline) ∧
      (Bytes.lines (ofBlocks newline indent blocks).text)[n]? =
        some (((ofBlocks newline indent blocks).line n).text ++ ending) := by
  refine ⟨_, ?_, getElem?_lines_join newline (lineFeed_notMem_line hBlocks newline indent) ?_⟩
  · split
    · exact .inr rfl
    · exact .inl rfl
  · rw [List.getElem?_map, line, List.getElem?_eq_getElem hn, Option.map_some, Option.getD_some]

theorem start_add_length_lines_le {block : ScriptBlock} (hBlock : block.IsPlaced document) :
    block.start.line + block.lines.length ≤ document.text.length + 1 := by
  have hLine := Bytes.place_line_le document.text (block.content.start + block.text.length)
  rw [hBlock.place_add (Nat.le_refl _), Bytes.after_take, Bytes.place_eq, List.take_length] at hLine
  simp only [ScriptBlock.lines] at hLine ⊢
  omega

/-- Lines and columns of the source fit 32 bits where those of the document do. -/
theorem fits_text (hBlocks : ScriptBlock.Arranged document blocks) (indent : Indent) :
    (ofBlocks document.newline indent blocks).text.Fits := by
  have hSmall := hBlocks.isSmall.text
  have hMark : document.text.length + (mark document.newline).length < wordLimit := by
    cases hNewline : document.newline with
    | lf => exact hSmall
    | crlf => exact Nat.lt_of_le_of_lt (Newline.length_normalize_lt_of_detect_crlf hNewline) hBlocks.isSmall
  have hLines : (ofBlocks document.newline indent blocks).lines.length ≤ wordLimit :=
    length_lines_ofBlocks_le _ indent fun block hBlock =>
      ⟨(hBlocks.isPlaced block hBlock).isText,
        Nat.le_trans (start_add_length_lines_le (hBlocks.isPlaced block hBlock)) hSmall⟩
  intro o
  have hCut := Bytes.lines_getElem?_place (ofBlocks document.newline indent blocks).text o
  have hColumn : ((ofBlocks document.newline indent blocks).text.place o).character =
      (Bytes.lastLine ((ofBlocks document.newline indent blocks).text.take o)).length := by rw [Bytes.place_eq]
  have hLine := (List.getElem?_eq_some_iff.mp hCut).1
  have hCount : (Bytes.lines (ofBlocks document.newline indent blocks).text).length = _ :=
    length_lines_join document.newline (lineFeed_notMem_line hBlocks document.newline indent)
  rw [hCount, List.length_map] at hLine
  have hPos : 0 < wordLimit := by decide
  refine ⟨by omega, ?_⟩
  by_cases hInside : ((ofBlocks document.newline indent blocks).text.place o).line <
      (ofBlocks document.newline indent blocks).lines.length
  · obtain ⟨ending, hEnding, hText⟩ := getElem?_lines_text hBlocks document.newline indent hInside
    have hLength := congrArg List.length (Option.some.inj (hCut.symm.trans hText))
    have hLe := length_line_le hBlocks document.newline indent
      ((ofBlocks document.newline indent blocks).text.place o).line
    rw [List.length_append, List.length_append] at hLength
    rcases hEnding with rfl | rfl
    · rw [List.length_nil] at hLength
      omega
    · omega
  · have hNil : (ofBlocks document.newline indent blocks).lines = [] := List.eq_nil_of_length_eq_zero (by omega)
    rw [hColumn, text, hNil, List.map_nil, join, List.take_nil]
    exact hPos

theorem line_getElem?_of_run (hBlocks : ScriptBlock.Arranged document blocks) {newline : Newline} {indent : Indent}
    {n c : Nat} {run : Run} {b : UInt8}
    (hRun : run ∈ runs indent blocks n) (hStart : run.documentStart ≤ c + shift indent blocks n)
    (hByte : run.content[c + shift indent blocks n - run.documentStart]? = some b) :
    ((ofBlocks newline indent blocks).line n).text[c]? = some b := by
  obtain ⟨before, after, hText, hColumn⟩ := (line_shows hBlocks newline indent n).split run hRun
  obtain ⟨hInside, -⟩ := List.getElem?_eq_some_iff.mp hByte
  have hIndex : c - before.length = c + shift indent blocks n - run.documentStart := by omega
  rw [hText, List.getElem?_append_right (by omega), hIndex, List.getElem?_append_left hInside, hByte]

theorem lt_length_of_line {source : VirtualSource} {n c : Nat} {b : UInt8} (h : (source.line n).text[c]? = some b) :
    n < source.lines.length := by
  apply Nat.lt_of_not_le
  intro hLe
  rw [line, List.getElem?_eq_none hLe] at h
  cases h

theorem text_getElem?_of_line (hBlocks : ScriptBlock.Arranged document blocks) {newline : Newline} {indent : Indent}
    {o n c : Nat} {b : UInt8} (hPlace : (ofBlocks newline indent blocks).text.place o = ⟨n, c⟩)
    (h : ((ofBlocks newline indent blocks).line n).text[c]? = some b) :
    (ofBlocks newline indent blocks).text[o]? = some b := by
  obtain ⟨hc, -⟩ := List.getElem?_eq_some_iff.mp h
  obtain ⟨ending, -, hText⟩ := getElem?_lines_text hBlocks newline indent (lt_length_of_line h)
  have hb : b ≠ Byte.lineFeed := fun hb =>
    (line_shows hBlocks newline indent n).noBreak (List.mem_of_getElem? (hb ▸ h))
  refine (Bytes.getElem?_eq_some_iff_of_place hText hPlace hb).mpr ?_
  rw [List.getElem?_append_left hc, h]

end Arranged
end VirtualSource
end ScriptLint
