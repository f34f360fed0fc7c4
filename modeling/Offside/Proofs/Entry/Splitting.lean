import Offside.Entry
import Mathlib.Data.List.Induction
import Mathlib.Tactic.Common

/-!
# How the answers of a session split into entries

The answers of a session split, in exactly one way, into portions: blank lines between entries, the
lines of the entries, lines that are dropped by an abort, and what is pending when the answers run
out. `Splits` says what each portion has to be like, in terms of `needsMore` only; reading the
answers gives the entries of the portions and shows the prompts that belong to them.
-/

set_option autoImplicit false

namespace Offside

namespace Entry

/-- A part of the answers of a session. -/
inductive Portion where
  /-- A blank line while no entry is in progress. -/
  | blank (t : Text)
  /-- The lines of an entry. -/
  | entry (lines : List Text)
  /-- The lines of an entry that is dropped, and the wish to drop it. -/
  | aborted (lines : List Text)
  /-- The lines of an entry during which the answers run out. -/
  | pending (lines : List Text)
  deriving DecidableEq, Repr

/-- The prompts for the lines of an entry, the first of which starts it. -/
def promptsFor : (count : Nat) → List Prompt
  | 0 => []
  | count + 1 => .fresh :: List.replicate count .continuation

namespace Portion

/-- The answers that a portion consists of. -/
def answers : Portion → List Answer
  | blank t => [.line t]
  | entry lines | pending lines => lines.map .line
  | aborted lines => lines.map .line ++ [.abort]

/-- The text that is returned for a portion. -/
def result? : Portion → Option Text
  | blank _ => none
  | entry lines | pending lines => some (join lines)
  | aborted _ => some []

/-- The prompts that are shown for a portion. An abort and the end of the answers are prompted for,
too. -/
def prompts : Portion → List Prompt
  | blank _ => promptsFor 1
  | entry lines => promptsFor lines.length
  | aborted lines | pending lines => promptsFor (lines.length + 1)

/-- The lines of an entry that is returned. -/
def entry? : Portion → Option (List Text)
  | entry lines | pending lines => some lines
  | blank _ | aborted _ => none

end Portion

/-- Lines of an entry that goes on: the first one is not blank, and more lines are wanted after each
of them. -/
structure InProgress (lines : List Text) : Prop where
  first : ∀ t ∈ lines.head?, t.isBlankLine = false
  more : ∀ run, run <+: lines → run ≠ [] → needsMore run = true

/-- The lines of an entry: the first one is not blank, and they are the shortest run of lines after
which no more are wanted. -/
structure Complete (lines : List Text) : Prop where
  nonempty : lines ≠ []
  first : ∀ t ∈ lines.head?, t.isBlankLine = false
  enough : needsMore lines = false
  shortest : ∀ run, run <+: lines → run ≠ [] → needsMore run = false → run = lines

/-- The answers split into the portions. -/
inductive Splits : List Answer → List Portion → Prop where
  | done : Splits [] []
  | pending {lines : List Text} (hlines : lines ≠ []) (h : InProgress lines) :
      Splits (lines.map .line) [.pending lines]
  | blank {t : Text} {answers : List Answer} {portions : List Portion} (h : t.isBlankLine = true)
      (hrest : Splits answers portions) : Splits (.line t :: answers) (.blank t :: portions)
  | entry {lines : List Text} {answers : List Answer} {portions : List Portion}
      (h : Complete lines) (hrest : Splits answers portions) :
      Splits (lines.map .line ++ answers) (.entry lines :: portions)
  | aborted {lines : List Text} {answers : List Answer} {portions : List Portion}
      (h : InProgress lines) (hrest : Splits answers portions) :
      Splits (lines.map .line ++ .abort :: answers) (.aborted lines :: portions)

/-! ## One line more -/

variable {lines : List Text} {t : Text}

/-- The line can be the next one of an entry. -/
def Joins (lines : List Text) (t : Text) : Prop := lines = [] → t.isBlankLine = false

/-- The first line is not blank when another line has joined. -/
theorem first_append (h : ∀ s ∈ lines.head?, s.isBlankLine = false) (ht : Joins lines t) :
    ∀ s ∈ (lines ++ [t]).head?, s.isBlankLine = false := by
  cases lines with
  | nil => simpa using ht rfl
  | cons s rest => simpa using h

/-- Before the first line an entry is in progress. -/
theorem inProgress_nil : InProgress [] := ⟨by simp, by simp⟩

/-- An entry stays in progress if the line that joins it leaves it in need of more. -/
theorem inProgress_append : InProgress (lines ++ [t]) ↔
    InProgress lines ∧ Joins lines t ∧ needsMore (lines ++ [t]) = true := by
  constructor
  · intro h
    refine ⟨⟨?_, ?_⟩, ?_, h.more _ List.prefix_rfl (by simp)⟩
    · intro s hs
      apply h.first
      cases lines <;> simp_all
    · intro run hrun
      exact h.more run (hrun.trans (List.prefix_append ..))
    · rintro rfl
      exact h.first t (by simp)
  · rintro ⟨h, ht, hmore⟩
    refine ⟨first_append h.first ht, ?_⟩
    intro run hrun hne
    rcases List.prefix_concat_iff.mp hrun with rfl | hshort
    · exact hmore
    · exact h.more run hshort hne

/-- An entry is complete with the line that leaves it in need of nothing more. -/
theorem complete_append : Complete (lines ++ [t]) ↔
    InProgress lines ∧ Joins lines t ∧ needsMore (lines ++ [t]) = false := by
  constructor
  · intro h
    refine ⟨⟨?_, ?_⟩, ?_, h.enough⟩
    · intro s hs
      apply h.first
      cases lines <;> simp_all
    · intro run hrun hne
      -- a shorter run after which nothing is wanted would be the entry
      by_contra hnot
      have hwhole := h.shortest run (hrun.trans (List.prefix_append ..)) hne (by simpa using hnot)
      have hlength := hrun.length_le
      rw [hwhole, List.length_append, List.length_singleton] at hlength
      omega
    · rintro rfl
      exact h.first t (by simp)
  · rintro ⟨h, ht, hmore⟩
    refine ⟨by simp, first_append h.first ht, hmore, ?_⟩
    intro run hrun hne henough
    rcases List.prefix_concat_iff.mp hrun with rfl | hshort
    · rfl
    · have := h.more run hshort hne
      simp [henough] at this

/-! ## The portions of a session -/

/-- The portions of the answers that follow the given lines. -/
def portions : (lines : List Text) → List Answer → List Portion
  | [], [] => []
  | lines, [] => [.pending lines]
  | lines, .abort :: rest => .aborted lines :: portions [] rest
  | lines, .line t :: rest =>
      if lines.isEmpty && t.isBlankLine then .blank t :: portions [] rest
      else if needsMore (lines ++ [t]) then portions (lines ++ [t]) rest
      else .entry (lines ++ [t]) :: portions [] rest

/-- Every line joins an entry but a blank one in front of it. -/
theorem joins_iff : Joins lines t ↔ (lines.isEmpty && t.isBlankLine) = false := by
  cases lines <;> simp [Joins]

/-- The portions of a session split its answers. -/
theorem splits_portions (h : InProgress lines) (answers : List Answer) :
    Splits (lines.map .line ++ answers) (portions lines answers) := by
  induction answers generalizing lines with
  | nil =>
    cases lines with
    | nil => exact .done
    | cons s rest => simpa [portions] using Splits.pending (by simp) h
  | cons a answers ih =>
    have hfresh : Splits answers (portions [] answers) := ih inProgress_nil
    cases a with
    | abort =>
      simp only [portions]
      exact .aborted h hfresh
    | line t =>
      by_cases hblank : (lines.isEmpty && t.isBlankLine) = true
      · simp only [portions, hblank, if_true]
        simp only [Bool.and_eq_true, List.isEmpty_iff] at hblank
        simpa [hblank.1] using Splits.blank hblank.2 hfresh
      · have hjoins : Joins lines t := joins_iff.mpr (by simpa using hblank)
        have hlist : lines.map Answer.line ++ .line t :: answers =
            (lines ++ [t]).map Answer.line ++ answers := by simp
        simp only [portions, hblank, hlist]
        by_cases hmore : needsMore (lines ++ [t]) = true
        · simpa [hmore] using ih (inProgress_append.mpr ⟨h, hjoins, hmore⟩)
        · have henough : needsMore (lines ++ [t]) = false := by simpa using hmore
          simpa [henough] using
            Splits.entry (complete_append.mpr ⟨h, hjoins, henough⟩) hfresh

/-- The lines of an entry in progress are gathered one by one. -/
theorem portions_of_inProgress (h : InProgress lines) (answers : List Answer) :
    portions [] (lines.map .line ++ answers) = portions lines answers := by
  induction lines using List.reverseRecOn generalizing answers with
  | nil => simp
  | append_singleton lines t ih =>
    obtain ⟨hlines, hjoins, hmore⟩ := inProgress_append.mp h
    have hnot := joins_iff.mp hjoins
    have hstep := ih hlines (.line t :: answers)
    simpa [portions, hnot, hmore] using hstep

/-- There is only one way to split answers. -/
theorem portions_of_splits {answers : List Answer} {ps : List Portion} (h : Splits answers ps) :
    portions [] answers = ps := by
  induction h with
  | done => rfl
  | @pending lines hlines h =>
    have hrun := portions_of_inProgress h []
    rw [List.append_nil] at hrun
    rw [hrun]
    cases lines with
    | nil => exact absurd rfl hlines
    | cons s rest => rfl
  | blank h _ ih => simp [portions, h, ih]
  | @entry lines answers ps h _ ih =>
    obtain ⟨init, last, rfl⟩ : ∃ init last, lines = init ++ [last] :=
      ⟨_, _, (List.dropLast_concat_getLast h.nonempty).symm⟩
    obtain ⟨hinit, hjoins, henough⟩ := complete_append.mp h
    have hnot := joins_iff.mp hjoins
    have hrun := portions_of_inProgress hinit (.line last :: answers)
    simpa [portions, hnot, henough, ih] using hrun
  | @aborted lines answers ps h _ ih =>
    rw [portions_of_inProgress h, portions, ih]

/-- The portions hold all answers, in their order. -/
theorem answers_of_splits {answers : List Answer} {ps : List Portion} (h : Splits answers ps) :
    answers = ps.flatMap Portion.answers := by
  induction h with
  | done => rfl
  | pending hlines h => simp [Portion.answers]
  | blank h _ ih => simp [Portion.answers, ← ih]
  | entry h _ ih => simp [Portion.answers, ← ih]
  | aborted h _ ih => simp [Portion.answers, ← ih]

/-! ## Reading the answers -/

/-- One line more is asked for with one prompt more. -/
theorem promptsFor_succ (lines : List Text) :
    promptsFor (lines.length + 1) = promptsFor lines.length ++ [promptFor lines] := by
  cases lines with
  | nil => rfl
  | cons t rest => simp [promptsFor, promptFor, List.replicate_succ']

/-- The lines of an entry that goes on are taken one by one, each with its prompt. -/
theorem read_of_inProgress (h : InProgress lines) (answers : List Answer) :
    read false [] (lines.map .line ++ answers) =
      { read false lines answers with
        prompts := promptsFor lines.length ++ (read false lines answers).prompts } := by
  induction lines using List.reverseRecOn generalizing answers with
  | nil => simp [promptsFor]
  | append_singleton lines t ih =>
    obtain ⟨hlines, hjoins, hmore⟩ := inProgress_append.mp h
    have hnot := joins_iff.mp hjoins
    have hstep : read false lines (.line t :: answers) =
        { read false (lines ++ [t]) answers with
          prompts := promptFor lines :: (read false (lines ++ [t]) answers).prompts } := by
      simp only [read, hnot, hmore, Bool.false_eq_true, if_false, if_true]
    have hrun := ih hlines (.line t :: answers)
    rw [hstep] at hrun
    simpa [promptsFor_succ] using hrun

/-- An entry is read from its lines, and nothing more is taken for it. -/
theorem read_of_complete (h : Complete lines) (answers : List Answer) :
    read false [] (lines.map .line ++ answers) =
      ⟨some (join lines), promptsFor lines.length, answers⟩ := by
  obtain ⟨init, last, rfl⟩ : ∃ init last, lines = init ++ [last] :=
    ⟨_, _, (List.dropLast_concat_getLast h.nonempty).symm⟩
  obtain ⟨hinit, hjoins, henough⟩ := complete_append.mp h
  have hnot := joins_iff.mp hjoins
  have hrun := read_of_inProgress hinit (.line last :: answers)
  simpa [read, hnot, henough, promptsFor_succ] using hrun

/-- Where there are no answers, one is asked for. -/
theorem readAll_nil : readAll false [] = ⟨[], [.fresh]⟩ := by
  rw [readAll.eq_def]
  rfl

/-- All answers are read by reading one entry after the other. -/
theorem readAll_cons (a : Answer) (answers : List Answer) :
    readAll false (a :: answers) = match read false [] (a :: answers) with
      | ⟨none, prompts, _⟩ => ⟨[], prompts⟩
      | ⟨some text, prompts, rest⟩ =>
          ⟨text :: (readAll false rest).entries, prompts ++ (readAll false rest).prompts⟩ := by
  rw [readAll.eq_def]
  cases h : read false [] (a :: answers) with
  | mk entry prompts rest => cases entry <;> simp [h]

/-- What is read first stands in front of what is read after it. -/
theorem readAll_of_read {answers rest : List Answer} {text : Text} {prompts : List Prompt}
    (hanswers : answers ≠ []) (h : read false [] answers = ⟨some text, prompts, rest⟩) :
    readAll false answers =
      ⟨text :: (readAll false rest).entries, prompts ++ (readAll false rest).prompts⟩ := by
  cases answers with
  | nil => exact absurd rfl hanswers
  | cons a answers => rw [readAll_cons, h]

/-- A blank line in front of an entry is asked for and dropped. -/
theorem readAll_blank {answers : List Answer} (h : t.isBlankLine = true) :
    readAll false (.line t :: answers) =
      ⟨(readAll false answers).entries, .fresh :: (readAll false answers).prompts⟩ := by
  have hread : read false [] (.line t :: answers) =
      { read false [] answers with prompts := .fresh :: (read false [] answers).prompts } := by
    simp [read, h, promptFor]
  rw [readAll_cons, hread]
  cases answers with
  | nil => simp [readAll_nil, read, promptFor]
  | cons a answers =>
    rw [readAll_cons]
    obtain ⟨entry, prompts, rest⟩ := read false [] (a :: answers)
    cases entry <;> rfl

/-- A session returns the texts of its portions and shows their prompts, and one more to learn that
there are no more answers. -/
theorem readAll_of_splits {answers : List Answer} {ps : List Portion} (h : Splits answers ps) :
    readAll false answers =
      ⟨ps.filterMap Portion.result?, ps.flatMap Portion.prompts ++ [.fresh]⟩ := by
  induction h with
  | done => simp [readAll_nil]
  | @pending lines hlines h =>
    have hread : read false [] (lines.map .line) =
        ⟨some (join lines), promptsFor (lines.length + 1), []⟩ := by
      have hrun := read_of_inProgress h []
      simpa [read, hlines, promptsFor_succ] using hrun
    rw [readAll_of_read (by simpa using hlines) hread, readAll_nil]
    simp [Portion.result?, Portion.prompts]
  | blank h _ ih =>
    rw [readAll_blank h, ih, List.filterMap_cons_none rfl]
    simp [Portion.prompts, promptsFor]
  | entry h _ ih =>
    rw [readAll_of_read (by simp [h.nonempty]) (read_of_complete h _), ih]
    simp [Portion.result?, Portion.prompts]
  | @aborted lines answers ps h _ ih =>
    have hread : read false [] (lines.map .line ++ .abort :: answers) =
        ⟨some [], promptsFor (lines.length + 1), answers⟩ := by
      have hrun := read_of_inProgress h (.abort :: answers)
      simpa [read, promptsFor_succ] using hrun
    rw [readAll_of_read (by simp) hread, ih]
    simp [Portion.result?, Portion.prompts]

/-! ## The text of an entry -/

/-- The lines of an entry are joined by line feeds. -/
theorem join_eq_intercalate (lines : List Text) : join lines = [lineFeed].intercalate lines := by
  induction lines with
  | nil => rfl
  | cons t rest ih =>
    cases rest with
    | nil => simp [join, List.intercalate]
    | cons s rest => simp_all [join, List.intercalate]

/-- The text of an entry is not empty. -/
theorem join_ne_nil (hlines : lines ≠ []) (h : ∀ t ∈ lines.head?, t.isBlankLine = false) :
    join lines ≠ [] := by
  cases lines with
  | nil => exact absurd rfl hlines
  | cons s rest =>
    have hs : s ≠ [] := by
      rintro rfl
      exact absurd (h [] (by simp)) (by decide)
    cases rest <;> simp [join, hs]

/-- The entries of a session are made of lines that were answered, the first of which is not
blank. -/
theorem entries_of_splits {answers : List Answer} {ps : List Portion} (h : Splits answers ps) :
    ∀ lines ∈ ps.filterMap Portion.entry?, lines ≠ [] ∧
      (∀ t ∈ lines.head?, t.isBlankLine = false) ∧ ∀ t ∈ lines, .line t ∈ answers := by
  induction h with
  | done => simp
  | pending hlines h =>
    intro lines hmem
    obtain rfl : lines = _ := by simpa [Portion.entry?] using hmem
    exact ⟨hlines, h.first, fun t ht => by simp [ht]⟩
  | blank h _ ih =>
    intro lines hmem
    rw [List.filterMap_cons_none rfl] at hmem
    obtain ⟨hlines, hfirst, hanswers⟩ := ih lines hmem
    exact ⟨hlines, hfirst, fun t ht => List.mem_cons_of_mem _ (hanswers t ht)⟩
  | entry h _ ih =>
    intro lines hmem
    rw [List.filterMap_cons_some (f := Portion.entry?) rfl, List.mem_cons] at hmem
    rcases hmem with rfl | hmem
    · exact ⟨h.nonempty, h.first, fun t ht => by simp [ht]⟩
    · obtain ⟨hlines, hfirst, hanswers⟩ := ih lines hmem
      exact ⟨hlines, hfirst, fun t ht => List.mem_append_right _ (hanswers t ht)⟩
  | aborted h _ ih =>
    intro lines hmem
    rw [List.filterMap_cons_none rfl] at hmem
    obtain ⟨hlines, hfirst, hanswers⟩ := ih lines hmem
    exact ⟨hlines, hfirst, fun t ht => by simp [hanswers t ht]⟩

end Entry

open Entry

/-- The answers of a session split in exactly one way into blank lines, entries, aborted entries and
what is pending at the end; the session returns the texts of these entries and shows the prompts
that belong to them, and the lines of an entry can be told from its text. -/
theorem session_splits_into_entries (answers : List Answer)
    (hlines : ∀ t, .line t ∈ answers → lineFeed ∉ t) :
    ∃! ps, Splits answers ps ∧ answers = ps.flatMap Portion.answers ∧
      readAll false answers =
        ⟨ps.filterMap Portion.result?, ps.flatMap Portion.prompts ++ [.fresh]⟩ ∧
      ∀ lines ∈ ps.filterMap Portion.entry?,
        join lines ≠ [] ∧ List.splitOn lineFeed (join lines) = lines := by
  have hsplits : Splits answers (portions [] answers) := splits_portions inProgress_nil answers
  refine ⟨portions [] answers, ⟨hsplits, answers_of_splits hsplits, readAll_of_splits hsplits, ?_⟩,
    fun ps h => (portions_of_splits h.1).symm⟩
  intro lines hmem
  obtain ⟨hne, hfirst, hanswered⟩ := entries_of_splits hsplits lines hmem
  refine ⟨join_ne_nil hne hfirst, ?_⟩
  rw [join_eq_intercalate]
  exact List.splitOn_intercalate _ (fun t ht => hlines t (hanswered t ht)) hne

/-- A session with a blank line, an entry that is aborted and one that is pending at the end. -/
theorem session_splits_into_entries_mixed :
    ∃ ps, Splits [.line (Text.ofString " "), .line (Text.ofString "f(1,"), .abort,
        .line (Text.ofString "g(2,")] ps ∧
      readAll false [.line (Text.ofString " "), .line (Text.ofString "f(1,"), .abort,
        .line (Text.ofString "g(2,")] =
        ⟨ps.filterMap Portion.result?, ps.flatMap Portion.prompts ++ [.fresh]⟩ := by
  have hlines : ∀ t, Answer.line t ∈ [Answer.line (Text.ofString " "), .line (Text.ofString "f(1,"),
      .abort, .line (Text.ofString "g(2,")] → lineFeed ∉ t := by
    simp only [List.mem_cons, Answer.line.injEq, reduceCtorEq, false_or, List.not_mem_nil, or_false]
    rintro t (rfl | rfl | rfl) <;> decide
  obtain ⟨ps, ⟨hsplits, -, hread, -⟩, -⟩ := session_splits_into_entries _ hlines
  exact ⟨ps, hsplits, hread⟩

end Offside
