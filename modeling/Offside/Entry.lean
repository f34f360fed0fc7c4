import Offside.Eval.Line
import Offside.Text.Blank
import Offside.Tree.Grammar

/-!
# Entries of an interactive session

Lines that are typed one by one are grouped into entries. An entry that opens a block goes on up
to a blank line; any other entry goes on as long as the grammar misses something at its end.
Blank lines before an entry are passed over, and an aborted entry is dropped.
-/

set_option autoImplicit false

namespace Offside

/-- An answer to a prompt. -/
inductive Answer where
  /-- A line without its line feed. -/
  | line (t : Text)
  /-- The wish to drop the entry. -/
  | abort
  deriving DecidableEq, Repr, Inhabited

/-- Which prompt is shown. -/
inductive Prompt where
  /-- The prompt for a new entry. -/
  | fresh
  /-- The prompt for a further line of an entry. -/
  | continuation
  deriving DecidableEq, Repr, Inhabited

namespace Entry

/-- Lines with a line feed between each two. -/
def join : List Text → Text
  | [] => []
  | [line] => line
  | line :: rest => line ++ lineFeed :: join rest

/-- Whether a colon stands before a line break or before the end. -/
def hasOpening : List Token → Bool
  | first :: second :: rest =>
      (first.kind == .colon && second.isOneOf [.newline, .endOfInput]) ||
        hasOpening (second :: rest)
  | _ => false

/-- Whether a source opens a block; one that cannot be cut into tokens does not. -/
def opensBlock (source : Text) : Bool :=
  let stream := TokenStream.ofText source
  stream.halt?.isNone && hasOpening stream.toList

/-- Whether a source misses something at its end. -/
def isUnfinished (source : Text) : Bool :=
  match (Parse.ofText source).outcome with
  | .error (.fault (.unexpected got ..)) => got == .endOfInput
  | _ => false

/-- Whether lines are an entry that further lines are wanted for. -/
def needsMore (lines : List Text) : Bool :=
  match lines.getLast? with
  | none => false
  | some last =>
      let source := join lines
      if opensBlock source then !Text.isBlankLine last else isUnfinished source

/-- The prompt that is shown while the given lines are pending. -/
def promptFor (pending : List Text) : Prompt :=
  if pending.isEmpty then .fresh else .continuation

/-- What came of asking for an entry. -/
structure Reading where
  /-- The entry, empty if it was aborted; nothing if there are no more answers. -/
  entry : Option Text
  /-- The prompts that were shown. -/
  prompts : List Prompt
  /-- The answers that were not needed. -/
  rest : List Answer
  deriving DecidableEq, Repr, Inhabited

/-- Asks for lines until they are an entry. When the answers run out, what is pending is an entry,
unless the answers broke off. -/
def read (broken : Bool) : (pending : List Text) → List Answer → Reading
  | pending, [] =>
      let entry := if pending.isEmpty || broken then none else some (join pending)
      ⟨entry, [promptFor pending], []⟩
  | pending, .abort :: rest => ⟨some [], [promptFor pending], rest⟩
  | pending, .line t :: rest =>
      let lines := pending ++ [t]
      if pending.isEmpty && Text.isBlankLine t then
        let more := read broken [] rest
        { more with prompts := promptFor pending :: more.prompts }
      else if needsMore lines then
        let more := read broken lines rest
        { more with prompts := promptFor pending :: more.prompts }
      else ⟨some (join lines), [promptFor pending], rest⟩

/-- Reading an entry leaves at most the answers there were. -/
theorem length_read_rest_le (broken : Bool) (pending : List Text) (answers : List Answer) :
    (read broken pending answers).rest.length ≤ answers.length := by
  induction answers generalizing pending with
  | nil => simp [read]
  | cons a rest ih =>
    cases a with
    | abort => simp [read]
    | line t =>
      have h₁ := ih []
      have h₂ := ih (pending ++ [t])
      simp only [read]
      (repeat' split) <;> simp <;> omega

/-- An answer is used up by every reading that has one. -/
theorem length_read_rest_lt (broken : Bool) (pending : List Text) (a : Answer)
    (answers : List Answer) :
    (read broken pending (a :: answers)).rest.length < (a :: answers).length := by
  cases a with
  | abort => simp [read]
  | line t =>
    have h₁ := length_read_rest_le broken [] answers
    have h₂ := length_read_rest_le broken (pending ++ [t]) answers
    simp only [read]
    (repeat' split) <;> simp <;> omega

/-- The entries of a whole session, with all prompts that were shown. -/
structure Transcript where
  /-- The entries in order. -/
  entries : List Text
  /-- The prompts in order. -/
  prompts : List Prompt
  deriving DecidableEq, Repr, Inhabited

/-- Asks for entries until the answers run out. -/
def readAll (broken : Bool) (answers : List Answer) : Transcript :=
  let reading := read broken [] answers
  match answers, reading.entry with
  | [], _ | _, none => ⟨[], reading.prompts⟩
  | a :: rest, some entry =>
      let more := readAll broken (read broken [] (a :: rest)).rest
      ⟨entry :: more.entries, reading.prompts ++ more.prompts⟩
termination_by answers.length
decreasing_by exact length_read_rest_lt broken [] a rest

/-- The lines of a text, each with its line feed. -/
def linesOf (t : Text) : List Text :=
  match t with
  | [] => []
  | b :: rest =>
      match linesOf rest with
      | [] => [[b]]
      | line :: more => if b = lineFeed then [b] :: line :: more else (b :: line) :: more

/-- The answers that a text gives line by line. A last line without a line feed is an answer only
if the text ends there and does not break off. -/
def answersOf (broken : Bool) (t : Text) : List Answer :=
  ((linesOf t).filter fun line => line.endsLine || !broken).map fun line => .line line.trimLineEnd

end Entry

end Offside
