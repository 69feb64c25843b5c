import ScriptLint.Proofs.Lint.Range

/-!
# What a remapped range contains

In HTML the stored text of a remapped range is the virtual text of the range, line by line, with the lost indentation
back in its place. A range that covers whole lines has the indentation of these lines, and every other one that of the
lines after its first.
-/
namespace ScriptLint
set_option autoImplicit false

/-- What line `n` of the document loses to the plan of a block; it loses nothing where the block begins. -/
def IndentPlan.lost (plan : IndentPlan) (block : ScriptBlock) (n : Nat) : Bytes :=
  if block.start.line < n then
    match block.lines[n - block.start.line]?, plan.lines[n - block.start.line]? with
    | some line, some planned => line.take planned.strip
    | _, _ => []
  else []

namespace VirtualSource

def lostIndent (blocks : List ScriptBlock) (plans : List IndentPlan) (n : Nat) : Bytes :=
  (blocks.zip plans).flatMap fun entry => entry.2.lost entry.1 n

/-- What a range from `p` to `q` has of line `n`: the piece of the virtual line and, where it is due, the indentation that
the line lost. -/
def restored (source : VirtualSource) (blocks : List ScriptBlock) (plans : List IndentPlan) (p q : Position) (n : Nat) :
    Bytes :=
  (if (if p.character = 0 ∧ q.character = 0 then n < q.line else p.line < n) then lostIndent blocks plans n else []) ++
    Bytes.piece (fun k => (source.line k).text) p q n

theorem join_lines (s : Bytes) : join [Byte.lineFeed] (Bytes.lines s) = s := by
  induction s with
  | nil => rfl
  | cons b s ih =>
    obtain ⟨first, more, hLines⟩ := List.exists_cons_of_ne_nil (Bytes.lines_ne_nil s)
    by_cases hb : b = Byte.lineFeed
    · subst hb
      rw [Bytes.lines_lineFeed_cons, hLines, join, ← hLines, ih]
      · rfl
      · simp
    · rw [Bytes.lines_cons_of_ne hb, Bytes.firstLine, hLines, List.headD_cons, List.tail_cons]
      rw [hLines] at ih
      cases more with
      | nil => exact congrArg (b :: ·) ih
      | cons next more => exact congrArg (b :: ·) ih

variable {document : Document} {blocks : List ScriptBlock} {indent : Indent} {n : Nat} {run : Run}

theorem lost_ofBlock {block : ScriptBlock} (hBlock : block.IsPlaced document) (indent : Indent) (n : Nat) :
    (IndentPlan.ofBlock block indent).lost block n = ((Run.onLine indent n block).map (·.lost)).getD [] := by
  cases hRun : Run.onLine indent n block with
  | none =>
    rw [IndentPlan.lost]
    split
    · rename_i hLater
      rw [Run.onLine, if_neg (by omega), Option.map_eq_none_iff, List.getElem?_eq_none_iff, List.length_zip,
        IndentPlan.length_lines_ofBlock, Nat.min_self] at hRun
      rw [List.getElem?_eq_none hRun]
      rfl
    · rfl
  | some run =>
    obtain ⟨rfl, hPlaced⟩ := Run.isPlaced_of_onLine hBlock hRun
    rw [IndentPlan.lost, Option.map_some, Option.getD_some]
    split
    · rename_i hLater
      obtain ⟨plan, hPlan, -, -⟩ := IndentPlan.getElem?_lines_ofBlock indent hPlaced.text
      simp only [hPlaced.text, hPlan, ← Run.length_lost_of_onLine hRun hPlan, List.take_left]
    · exact (hPlaced.lost_eq_nil (by have := hPlaced.start_le; omega)).symm

theorem lostIndent_eq (hBlocks : ScriptBlock.Arranged document blocks) (indent : Indent) (n : Nat) :
    lostIndent blocks (blocks.map fun block => IndentPlan.ofBlock block indent) n =
      (runs indent blocks n).flatMap (·.lost) := by
  have hPlaced := hBlocks.isPlaced
  rw [lostIndent, runs, ← List.map_prod_left_eq_zip]
  clear hBlocks
  induction blocks with
  | nil => rfl
  | cons block more ih =>
    rw [List.map_cons, List.flatMap_cons, ih (fun other hOther => hPlaced other (List.mem_cons_of_mem _ hOther)),
      lost_ofBlock (hPlaced block List.mem_cons_self), List.filterMap_cons]
    cases Run.onLine indent n block <;> rfl

theorem exists_runs_eq_cons (hBlocks : ScriptBlock.Arranged document blocks) (hRun : run ∈ runs indent blocks n)
    (hStart : run.lineStart ≤ shift indent blocks n) : ∃ more, runs indent blocks n = run :: more := by
  have hSeparated := separated_runs hBlocks indent n
  rw [shift] at hStart
  cases hRuns : runs indent blocks n with
  | nil =>
    rw [hRuns] at hRun
    cases hRun
  | cons first more =>
    rw [hRuns] at hRun hStart hSeparated
    rcases List.mem_cons.mp hRun with rfl | hMore
    · exact ⟨more, rfl⟩
    · have hApart := (List.pairwise_cons.mp hSeparated).1 run hMore
      rw [Run.documentStop] at hApart
      simp only [Run.shift] at hStart
      omega

/-- Only the first run of a line can have lost something. -/
theorem lostIndent_of_first (hBlocks : ScriptBlock.Arranged document blocks) {more : List Run}
    (hRuns : runs indent blocks n = run :: more) :
    lostIndent blocks (blocks.map fun block => IndentPlan.ofBlock block indent) n = run.lost := by
  have hSeparated := separated_runs hBlocks indent n
  rw [hRuns] at hSeparated
  rw [lostIndent_eq hBlocks, hRuns, List.flatMap_cons, List.flatMap_eq_nil_iff.mpr, List.append_nil]
  intro other hOther
  obtain ⟨-, hPlaced⟩ := isPlaced_of_mem_runs hBlocks (hRuns ▸ List.mem_cons_of_mem run hOther)
  have hApart := (List.pairwise_cons.mp hSeparated).1 other hOther
  have hLineStart := hPlaced.lineStart_eq
  apply hPlaced.lost_eq_nil
  split at hLineStart
  · assumption
  · omega

theorem eq_of_block (hBlocks : ScriptBlock.Arranged document blocks) {other : Run} (hRun : run ∈ runs indent blocks n)
    (hOther : other ∈ runs indent blocks n) (hBlock : run.block = other.block) : run = other := by
  have hLineStart : run.lineStart = other.lineStart := by
    rw [(isPlaced_of_mem_runs hBlocks hRun).2.lineStart_eq, (isPlaced_of_mem_runs hBlocks hOther).2.lineStart_eq, hBlock]
  have hStop := run.lineStart_le_documentStop
  have hOtherStop := other.lineStart_le_documentStop
  rcases eq_or_rel_of_pairwise (separated_runs hBlocks indent n) hRun hOther with hEq | hApart | hApart
  · exact hEq
  · omega
  · omega

theorem getLast?_runs (hBlocks : ScriptBlock.Arranged document blocks) (hRun : run ∈ runs indent blocks n) {o : Nat}
    (ho : o ≤ run.block.text.length) (hLater : n < (document.text.place (run.block.content.start + o)).line) :
    (runs indent blocks n).getLast? = some run := by
  obtain ⟨last, hLast⟩ : ∃ last, (runs indent blocks n).getLast? = some last :=
    Option.ne_none_iff_exists'.mp (fun hNone => List.ne_nil_of_mem hRun (List.getLast?_eq_none_iff.mp hNone))
  obtain ⟨hBlock, hPlaced⟩ := isPlaced_of_mem_runs hBlocks hRun
  obtain ⟨hBlock', hPlaced'⟩ := isPlaced_of_mem_runs hBlocks (List.mem_of_getLast? hLast)
  rcases eq_or_rel_of_pairwise hBlocks.inOrder hBlock hBlock' with hSame | ⟨hBefore, -⟩ | ⟨hAfter, -⟩
  · rw [eq_of_block hBlocks hRun (List.mem_of_getLast? hLast) hSame]
    exact hLast
  · obtain ⟨i, hi, -, hPlace⟩ := hPlaced'.exists_offset (Nat.le_refl _) last.lineStart_le_documentStop
    have hLength := hPlaced.block.content_start_add_length
    have hLt := Bytes.place_lt_place (s := document.text) (i := run.block.content.start + o)
      (j := last.block.content.start + i) (by omega) (hPlaced'.block.start_add_le_length hi)
    rw [hPlace, Position.lt_iff] at hLt
    simp only at hLt
    omega
  · obtain ⟨before, hRuns⟩ := List.getLast?_eq_some_iff.mp hLast
    have hSeparated := separated_runs hBlocks indent n
    have hApart := hPlaced'.documentStop_lt hPlaced hAfter
    have hStop := last.lineStart_le_documentStop
    have hStop' := run.lineStart_le_documentStop
    rw [hRuns] at hRun hSeparated
    rcases List.mem_append.mp hRun with hMem | hMem
    · have hOrder := (List.pairwise_append.mp hSeparated).2.2 run hMem last (List.mem_singleton.mpr rfl)
      omega
    · rw [List.mem_singleton.mp hMem] at hApart
      omega

theorem text_slice_of_run (hBlocks : ScriptBlock.Arranged document blocks) (newline : Newline)
    (hRun : run ∈ runs indent blocks n) {c d : Nat} (hStart : run.documentStart ≤ c + shift indent blocks n)
    (hStop : d + shift indent blocks n ≤ run.documentStop) :
    (((ofBlocks newline indent blocks).line n).text.take d).drop c =
      (run.content.take (d + shift indent blocks n - run.documentStart)).drop
        (c + shift indent blocks n - run.documentStart) := by
  obtain ⟨before, after, hText, hColumn⟩ := (line_shows hBlocks newline indent n).split run hRun
  rw [Run.documentStop] at hStop
  have hDrop : c - before.length = c + shift indent blocks n - run.documentStart := by omega
  have hTake : d + shift indent blocks n - run.documentStart - (c + shift indent blocks n - run.documentStart) = d - c := by
    omega
  rw [List.drop_take, List.drop_take, hText, List.drop_append, List.drop_of_length_le (by omega), List.nil_append, hDrop,
    hTake, List.drop_append, List.take_append_of_le_length (by rw [List.length_drop]; omega)]

theorem text_drop_of_last (hBlocks : ScriptBlock.Arranged document blocks) (newline : Newline)
    (hLast : (runs indent blocks n).getLast? = some run) {c : Nat}
    (hStart : run.documentStart ≤ c + shift indent blocks n) :
    ((ofBlocks newline indent blocks).line n).text.drop c =
      run.content.drop (c + shift indent blocks n - run.documentStart) := by
  have hShows := line_shows hBlocks newline indent n
  obtain ⟨before, after, hText, hColumn⟩ := hShows.split run (List.mem_of_getLast? hLast)
  have hLength := hShows.length_eq run hLast
  rw [hText, List.length_append, List.length_append, Run.documentStop] at hLength
  have hDrop : c - before.length = c + shift indent blocks n - run.documentStart := by omega
  rw [hText, List.eq_nil_of_length_eq_zero (l := after) (by omega), List.append_nil, List.drop_append,
    List.drop_of_length_le (by omega), List.nil_append, hDrop]

theorem shift_eq_of_first {more : List Run} (hRuns : runs indent blocks n = run :: more) :
    shift indent blocks n = run.documentStart := by
  rw [shift, hRuns, Run.shift]

/-- Past its first line a block has lost what its line has, and that is how far the columns of the line move. -/
theorem lostIndent_of_later (hBlocks : ScriptBlock.Arranged document blocks) (hRun : run ∈ runs indent blocks n)
    (hLater : run.block.start.line < n) :
    lostIndent blocks (blocks.map fun block => IndentPlan.ofBlock block indent) n = run.lost ∧
      shift indent blocks n = run.lost.length := by
  have hLineStart := (isPlaced_of_mem_runs hBlocks hRun).2.lineStart_eq
  rw [if_neg (Nat.ne_of_gt hLater)] at hLineStart
  obtain ⟨more, hRuns⟩ := exists_runs_eq_cons hBlocks hRun (hLineStart ▸ Nat.zero_le _)
  refine ⟨lostIndent_of_first hBlocks hRuns, ?_⟩
  rw [shift_eq_of_first hRuns, Run.documentStart, hLineStart, Nat.zero_add]

theorem exists_later_of_lostIndent (hBlocks : ScriptBlock.Arranged document blocks)
    (h : lostIndent blocks (blocks.map fun block => IndentPlan.ofBlock block indent) n ≠ []) :
    ∃ run ∈ runs indent blocks n, run.block.start.line < n := by
  rw [lostIndent_eq hBlocks, ne_eq, List.flatMap_eq_nil_iff] at h
  obtain ⟨run, hRun, hLost⟩ : ∃ run ∈ runs indent blocks n, run.lost ≠ [] := by
    simpa using h
  obtain ⟨-, hPlaced⟩ := isPlaced_of_mem_runs hBlocks hRun
  exact ⟨run, hRun, Nat.lt_of_le_of_ne hPlaced.start_le (fun hFirst => hLost (hPlaced.lost_eq_nil hFirst.symm))⟩

theorem text_eq_content (hBlocks : ScriptBlock.Arranged document blocks) (newline : Newline) {more : List Run}
    (hFirst : runs indent blocks n = run :: more) (hLast : (runs indent blocks n).getLast? = some run) :
    ((ofBlocks newline indent blocks).line n).text = run.content := by
  have hShift := shift_eq_of_first hFirst
  have hDrop := text_drop_of_last hBlocks newline hLast (c := 0) (by omega)
  rwa [List.drop_zero, Nat.zero_add, hShift, Nat.sub_self, List.drop_zero] at hDrop

section Stretch

variable {p q : Position} {first last : Run} {i j : Nat}

/-- The run, on line `n`, of the block that holds a range from a position in `first` to one in `last`. -/
structure Within (indent : Indent) (blocks : List ScriptBlock) (p q : Position) (first last : Run) (n : Nat)
    (run : Run) : Prop where
  mem : run ∈ runs indent blocks n
  block : run.block = first.block
  eq_first : n = p.line → run = first
  eq_last : n = q.line → run = last
  /-- The block does not begin on a later line, so its run does. -/
  head : p.line < n → ∃ more, runs indent blocks n = run :: more
  /-- The block goes on after an earlier line, so its run ends that line. -/
  tail : n < q.line → (runs indent blocks n).getLast? = some run

theorem exists_within (hBlocks : ScriptBlock.Arranged document blocks) (hBlock : last.block = first.block)
    (hEdge : first.Edge document indent blocks p q p i) (hEdge' : last.Edge document indent blocks p q q j)
    (hpn : p.line ≤ n) (hnq : n ≤ q.line) : ∃ run, Within indent blocks p q first last n run := by
  obtain ⟨hMem, hPlaced⟩ := isPlaced_of_mem_runs hBlocks hEdge.mem
  have hStart := hPlaced.start_le
  have hLastLine := Bytes.lines_getElem?_place last.block.text j
  rw [hEdge'.script, hBlock] at hLastLine
  have hInside : n - first.block.start.line < (Bytes.lines first.block.text).length := by
    have hLt := (List.getElem?_eq_some_iff.mp hLastLine).1
    simp only at hLt
    omega
  obtain ⟨plan, run, -, hRun, -, -⟩ := Run.exists_onLine indent (List.getElem?_eq_getElem hInside)
  rw [Nat.add_sub_cancel' (Nat.le_trans hStart hpn)] at hRun
  obtain ⟨hRunBlock, hRunPlaced⟩ := Run.isPlaced_of_onLine hPlaced.block hRun
  have hRunMem := mem_runs_of_onLine hMem hRun
  refine ⟨run, hRunMem, hRunBlock, ?_, ?_, ?_, ?_⟩
  · intro hEq
    exact eq_of_block hBlocks hRunMem (hEq ▸ hEdge.mem) hRunBlock
  · intro hEq
    exact eq_of_block hBlocks hRunMem (hEq ▸ hEdge'.mem) (hRunBlock.trans hBlock.symm)
  · intro hLater
    refine exists_runs_eq_cons hBlocks hRunMem ?_
    rw [hRunPlaced.lineStart_eq, if_neg (by rw [hRunBlock]; omega)]
    exact Nat.zero_le _
  · intro hEarlier
    refine getLast?_runs hBlocks hRunMem (o := j) ?_ ?_
    · rw [hRunBlock, ← hBlock]
      exact hEdge'.le_length
    · rw [hRunBlock, ← hBlock, hEdge'.document]
      exact hEarlier

/-- Whole lines are restored with their indentation, and nothing is taken from the line of the end. -/
theorem Within.piece_of_whole (hRun : Within indent blocks p q first last n run)
    (hBlocks : ScriptBlock.Arranged document blocks) (newline : Newline) (hpn : p.line ≤ n) (hnq : n ≤ q.line)
    (hEdge : first.Edge document indent blocks p q p i) (hWhole : p.character = 0 ∧ q.character = 0) :
    Bytes.piece (fun _ => run.lost ++ run.content) ⟨p.line, first.edgeColumn indent blocks p q p - first.lineStart⟩
        ⟨q.line, last.edgeColumn indent blocks p q q - last.lineStart⟩ n =
      restored (ofBlocks newline indent blocks) blocks (blocks.map fun block => IndentPlan.ofBlock block indent) p q n := by
  rw [Bytes.piece, restored, Bytes.piece, Run.edgeColumn_sub_of_whole hWhole, Run.edgeColumn_sub_of_whole hWhole]
  simp only [hWhole, and_self, if_true, ite_self, List.drop_zero, List.take_zero]
  by_cases hq : n = q.line
  · rw [if_pos hq, if_pos hq, if_neg (by omega), List.append_nil]
  · have hEarlier : n < q.line := by omega
    rw [if_neg hq, if_neg hq, if_pos hEarlier]
    obtain ⟨more, hRuns⟩ : ∃ more, runs indent blocks n = run :: more := by
      by_cases hp : n = p.line
      · have hColumn := hEdge.start_le
        rw [hWhole.1, Nat.zero_add, ← hRun.eq_first hp, ← hp] at hColumn
        exact exists_runs_eq_cons hBlocks hRun.mem (Nat.le_trans (Nat.le_add_right _ _) hColumn)
      · exact hRun.head (by omega)
    rw [lostIndent_of_first hBlocks hRuns, text_eq_content hBlocks newline hRuns (hRun.tail hEarlier)]

/-- Other lines are restored with their indentation after the line of the start. -/
theorem Within.piece_of_not_whole (hRun : Within indent blocks p q first last n run)
    (hBlocks : ScriptBlock.Arranged document blocks) (newline : Newline) (hpn : p.line ≤ n) (hnq : n ≤ q.line)
    (hEdge : first.Edge document indent blocks p q p i) (hEdge' : last.Edge document indent blocks p q q j)
    (hWhole : ¬(p.character = 0 ∧ q.character = 0)) :
    Bytes.piece (fun _ => run.lost ++ run.content) ⟨p.line, first.edgeColumn indent blocks p q p - first.lineStart⟩
        ⟨q.line, last.edgeColumn indent blocks p q q - last.lineStart⟩ n =
      restored (ofBlocks newline indent blocks) blocks (blocks.map fun block => IndentPlan.ofBlock block indent) p q n := by
  have hStart : n = p.line → run.documentStart ≤ p.character + shift indent blocks n := by
    intro hp
    rw [hp, hRun.eq_first hp]
    exact hEdge.start_le
  have hStop : n = q.line → q.character + shift indent blocks n ≤ run.documentStop := by
    intro hq
    rw [hq, hRun.eq_last hq]
    exact hEdge'.le_stop
  rw [Bytes.piece, restored, Bytes.piece, Run.edgeColumn_sub hWhole hEdge.start_le,
    Run.edgeColumn_sub hWhole hEdge'.start_le]
  simp only [hWhole, if_false]
  by_cases hp : n = p.line <;> by_cases hq : n = q.line
  · rw [if_pos hp, if_pos hq, if_neg (by omega), if_pos hp, if_pos hq, ← hRun.eq_first hp, ← hRun.eq_last hq, ← hp, ← hq,
      List.take_length_add_append, List.drop_length_add_append, List.nil_append,
      text_slice_of_run hBlocks newline hRun.mem (hStart hp) (hStop hq)]
  · rw [if_pos hp, if_neg hq, if_neg (by omega), if_pos hp, if_neg hq, ← hRun.eq_first hp, ← hp,
      List.drop_length_add_append, List.nil_append,
      text_drop_of_last hBlocks newline (hRun.tail (by omega)) (hStart hp)]
  · obtain ⟨more, hRuns⟩ := hRun.head (by omega)
    have hShift := shift_eq_of_first hRuns
    have hSlice := text_slice_of_run hBlocks newline hRun.mem (c := 0) (by omega) (hStop hq)
    rw [List.drop_zero, Nat.zero_add, hShift, Nat.sub_self, List.drop_zero] at hSlice
    rw [if_neg hp, if_pos hq, if_pos (by omega), if_neg hp, if_pos hq, ← hRun.eq_last hq, ← hq, hShift, List.drop_zero,
      List.drop_zero, List.take_length_add_append, lostIndent_of_first hBlocks hRuns, hSlice]
  · obtain ⟨more, hRuns⟩ := hRun.head (by omega)
    rw [if_neg hp, if_neg hq, if_pos (by omega), if_neg hp, if_neg hq, List.drop_zero, List.drop_zero,
      lostIndent_of_first hBlocks hRuns, text_eq_content hBlocks newline hRuns (hRun.tail (by omega))]

/-- What the script has of a line between the ends of a range is the restored piece of the virtual line. -/
theorem piece_eq_restored (hBlocks : ScriptBlock.Arranged document blocks) (newline : Newline)
    (hBlock : last.block = first.block) (hEdge : first.Edge document indent blocks p q p i)
    (hEdge' : last.Edge document indent blocks p q q j) (hpn : p.line ≤ n) (hnq : n ≤ q.line) :
    Bytes.piece (fun k => first.block.lines[k]?.getD []) (first.block.text.place i) (first.block.text.place j)
        (n - first.block.start.line) =
      restored (ofBlocks newline indent blocks) blocks (blocks.map fun block => IndentPlan.ofBlock block indent) p q n := by
  obtain ⟨run, hRun⟩ := exists_within hBlocks hBlock hEdge hEdge' hpn hnq
  have hStart := (isPlaced_of_mem_runs hBlocks hEdge.mem).2.start_le
  have hText := (isPlaced_of_mem_runs hBlocks hRun.mem).2.text
  have hScript := hEdge'.script
  rw [hBlock] at hScript
  rw [hRun.block] at hText
  have hFirstLine : n - first.block.start.line = p.line - first.block.start.line ↔ n = p.line := by omega
  have hLastLine : n - first.block.start.line = q.line - first.block.start.line ↔ n = q.line := by omega
  rw [Bytes.piece, hEdge.script, hScript]
  simp only [hFirstLine, hLastLine, hText, Option.getD_some]
  by_cases hWhole : p.character = 0 ∧ q.character = 0
  · exact hRun.piece_of_whole hBlocks newline hpn hnq hEdge hWhole
  · exact hRun.piece_of_not_whole hBlocks newline hpn hnq hEdge hEdge' hWhole

theorem script_slice_eq (hBlocks : ScriptBlock.Arranged document blocks) (newline : Newline)
    (hBlock : last.block = first.block) (hij : i ≤ j) (hEdge : first.Edge document indent blocks p q p i)
    (hEdge' : last.Edge document indent blocks p q q j) :
    (first.block.text.take j).drop i = join [Byte.lineFeed] ((List.range' p.line (q.line + 1 - p.line)).map
      (restored (ofBlocks newline indent blocks) blocks (blocks.map fun block => IndentPlan.ofBlock block indent) p q)) := by
  have hStart := (isPlaced_of_mem_runs hBlocks hEdge.mem).2.start_le
  have hStop := (isPlaced_of_mem_runs hBlocks hEdge'.mem).2.start_le
  have hScript := hEdge'.script
  rw [hBlock] at hScript hStop
  have hFirstLine : (first.block.text.place i).line = p.line - first.block.start.line := by rw [hEdge.script]
  have hLastLine : (first.block.text.place j).line = q.line - first.block.start.line := by rw [hScript]
  have hLines : List.range' p.line (q.line + 1 - p.line) =
      (List.range' (p.line - first.block.start.line) (q.line - first.block.start.line + 1 -
        (p.line - first.block.start.line))).map (first.block.start.line + ·) := by
    rw [List.map_add_range', Nat.add_sub_cancel' hStart]
    congr 1
    omega
  rw [← join_lines ((first.block.text.take j).drop i), Bytes.lines_slice hij, hFirstLine, hLastLine, hLines, List.map_map]
  refine congrArg _ (List.map_congr_left ?_)
  intro k hk
  obtain ⟨hLower, hUpper⟩ := List.mem_range'_1.mp hk
  have hPiece := piece_eq_restored hBlocks newline hBlock hEdge hEdge' (n := first.block.start.line + k) (by omega) (by omega)
  rw [Nat.add_sub_cancel_left] at hPiece
  exact hPiece

end Stretch
end VirtualSource

namespace Document

/-- In HTML a remapped range holds the virtual text of the range with the lost indentation put back. -/
theorem normalize_mapped_range (source : String) (options : ScanOptions) (indent : Indent) {blocks : List ScriptBlock}
    {range mapped : OffsetRange} (hSize : (Utf8.encode source).length < wordLimit) (hHtml : options.mode = .html)
    (hScan : (Document.mk (Utf8.encode source)).scan options = .ok blocks)
    (hRange : (Remapper.mk ⟨Utf8.encode source⟩ (VirtualSource.build (Document.mk (Utf8.encode source)).newline blocks
      (blocks.map fun block => IndentPlan.ofBlock block indent))).range range = .ok mapped) :
    let document : Document := ⟨Utf8.encode source⟩
    let plans := blocks.map fun block => IndentPlan.ofBlock block indent
    let virtual := VirtualSource.build document.newline blocks plans
    let p := virtual.lineIndex.position range.start
    let q := virtual.lineIndex.position range.stop
    mapped.start ≤ mapped.stop ∧ mapped.stop ≤ document.raw.length ∧
      Newline.normalize ((document.raw.take mapped.stop).drop mapped.start) =
        VirtualSource.join [Byte.lineFeed]
          ((List.range' p.line (q.line + 1 - p.line)).map (virtual.restored blocks plans p q)) := by
  intro document plans virtual p q
  obtain ⟨hBlocks, hMode⟩ := scan_arranged (isPlain_encode hSize (fun hXml => nomatch hHtml.symm.trans hXml)) hScan
  obtain ⟨first, last, i, j, hBlock, hij, hEdge, hEdge', rfl⟩ := Remapper.range_ofBlocks hBlocks hRange rfl rfl
  obtain ⟨hMem, hPlaced⟩ := VirtualSource.isPlaced_of_mem_runs hBlocks hEdge.mem
  have hj : j ≤ first.block.text.length := hBlock ▸ hEdge'.le_length
  have hLe : first.block.content.start + i ≤ first.block.content.start + j := Nat.add_le_add_left hij _
  have hStop := hPlaced.block.start_add_le_length hj
  have hLength := hPlaced.block.content_start_add_length
  refine ⟨?_, (cut_toRawOffset hBlocks.isSmall hStop).le_length, ?_⟩
  · exact (toRawOffset_le_iff hBlocks.isSmall (Nat.le_trans hLe hStop) hStop).mpr hLe
  · rw [normalize_raw_slice hBlocks.isSmall hLe hStop]
    refine Eq.trans ?_ (VirtualSource.script_slice_eq hBlocks document.newline hBlock hij hEdge hEdge')
    rw [hPlaced.block.html ((hMode _ hMem).trans hHtml), List.take_drop, List.take_take, List.drop_drop,
      Nat.min_eq_left (by omega)]

theorem normalize_mapped_range_twoLines :
    let document : Document := ⟨Utf8.encode "<p><script>\r\n  a();\r\n    b()</script><script>é</script>"⟩
    ∃ blocks, document.scan {} = .ok blocks ∧
      let plans := blocks.map fun block => IndentPlan.ofBlock block .auto
      let virtual := VirtualSource.build document.newline blocks plans
      (Remapper.mk document virtual).range ⟨3, 10⟩ = .ok ⟨16, 25⟩ ∧
        virtual.lineIndex.position 3 = ⟨1, 1⟩ ∧ virtual.lineIndex.position 10 = ⟨2, 2⟩ ∧
        Newline.normalize ((document.raw.take 25).drop 16) =
          VirtualSource.join [Byte.lineFeed] ((List.range' 1 2).map (virtual.restored blocks plans ⟨1, 1⟩ ⟨2, 2⟩)) := by
  intro document
  have hSize : document.raw.length < wordLimit := by decide +kernel
  refine ⟨_, rfl, ?_⟩
  intro plans virtual
  have hRange : (Remapper.mk document virtual).range ⟨3, 10⟩ = .ok ⟨16, 25⟩ := eq_ok_of_toOption (by decide +kernel)
  have hStart : virtual.lineIndex.position 3 = ⟨1, 1⟩ := by decide +kernel
  have hStop : virtual.lineIndex.position 10 = ⟨2, 2⟩ := by decide +kernel
  have h := (normalize_mapped_range _ {} .auto hSize rfl rfl hRange).2.2
  simp only at h
  rw [hStart, hStop] at h
  exact ⟨hRange, hStart, hStop, h⟩

end Document
end ScriptLint
