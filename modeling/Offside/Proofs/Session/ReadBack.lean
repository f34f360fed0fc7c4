import Offside.Proofs.Session.Steps
import Offside.Proofs.Tree.Rendering

/-!
# Reading back what was printed

Each value that is printed gives a line. A line of input stands for a value that is decided by its
text alone, so not every value comes back: digits come back as numbers, and carriage returns at the
end of a line count as a part of the line end. Whole numbers that are not negative and all other
texts on one line (`Value.ReadsBack`) come back as they were, in the order in which they were
printed.
-/

set_option autoImplicit false

namespace Offside

/-! ## Lines of text -/

namespace Text

/-- A text that is a line of its own and neither digits nor digits with one point among them. -/
structure IsPlainLine (t : Text) : Prop where
  oneLine : lineFeed ∉ t
  noReturn : t.getLast? ≠ some carriageReturn
  notDigits : Value.isDigits t = false
  notPointed : ¬ ∃ whole fraction, t = whole ++ Value.pointByte :: fraction ∧
    Value.isDigits (whole ++ fraction) = true

variable {t : Text}

/-- The first line of a text ends with its first line feed. -/
theorem splitLine_line (ht : lineFeed ∉ t) (rest : Text) :
    splitLine (t ++ lineFeed :: rest) = (t ++ [lineFeed], rest) := by
  induction t with
  | nil => rfl
  | cons b t ih =>
    rw [List.mem_cons, not_or] at ht
    rw [List.cons_append, splitLine, if_neg (Ne.symm ht.1), ih ht.2]
    rfl

/-- A text with a line feed at its end ends a line. -/
theorem endsLine_line (t : Text) : endsLine (t ++ [lineFeed]) = true := by
  simp [endsLine]

/-- A line without its end is the text in front of the line feed. -/
theorem trimLineEnd_line (ht : lineFeed ∉ t) (hreturn : t.getLast? ≠ some carriageReturn) :
    trimLineEnd (t ++ [lineFeed]) = t := by
  have hlast : t.reverse.dropWhile (fun b => b == lineFeed || b == carriageReturn) = t.reverse := by
    cases hrev : t.reverse with
    | nil => rfl
    | cons b rest =>
      have hb : t.getLast? = some b := by rw [← List.head?_reverse, hrev]; rfl
      have hfeed : b ≠ lineFeed := fun h => ht (h ▸ List.mem_of_getLast? hb)
      have hcarriage : b ≠ carriageReturn := fun h => hreturn (h ▸ hb)
      rw [List.dropWhile_cons_of_neg (by simp [hfeed, hcarriage])]
  unfold trimLineEnd
  rw [List.reverse_append, List.reverse_singleton, List.singleton_append,
    List.dropWhile_cons_of_pos (by simp), hlast, List.reverse_reverse]

end Text

/-! ## What a line stands for -/

namespace Value

/-- A text is digits with one point among them if it has one point and is digits without it. -/
theorem exists_pointed_iff {t : Text} :
    (∃ whole fraction, t = whole ++ pointByte :: fraction ∧
        isDigits (whole ++ fraction) = true) ↔
      (t.count pointByte == 1 && isDigits (t.erase pointByte)) = true := by
  rw [Bool.and_eq_true, beq_iff_eq]
  constructor
  · rintro ⟨whole, fraction, rfl, hdigits⟩
    have hnone : pointByte ∉ whole ++ fraction := by
      intro hmem
      rw [isDigits, Bool.and_eq_true, List.all_eq_true] at hdigits
      exact absurd (hdigits.2 _ hmem) (by decide)
    rw [List.mem_append, not_or] at hnone
    rw [List.count_append, List.count_cons_self, List.count_eq_zero.mpr hnone.1,
      List.count_eq_zero.mpr hnone.2, List.erase_append_right _ hnone.1, List.erase_cons_head]
    exact ⟨rfl, hdigits⟩
  · rintro ⟨hcount, hdigits⟩
    have hmem : pointByte ∈ t := List.count_pos_iff.mp (by omega)
    obtain ⟨whole, fraction, -, htext, herase⟩ := List.exists_erase_eq hmem
    exact ⟨whole, fraction, htext, herase ▸ hdigits⟩

/-- A plain line stands for the string it spells. -/
theorem ofLine_of_isPlainLine {t : Text} (h : t.IsPlainLine) : ofLine t = .string t := by
  have hpointed := h.notPointed
  rw [exists_pointed_iff, Bool.not_eq_true] at hpointed
  unfold ofLine
  simp only [h.notDigits, hpointed, Bool.false_and, Bool.or_self, Bool.false_eq_true, if_false]

instance (t : Text) : Decidable t.IsPlainLine :=
  decidable_of_iff
    (lineFeed ∉ t ∧ t.getLast? ≠ some carriageReturn ∧ isDigits t = false ∧
      ¬ (t.count pointByte == 1 && isDigits (t.erase pointByte)) = true)
    (by
      rw [← exists_pointed_iff]
      constructor
      · rintro ⟨hfeed, hreturn, hdigits, hpointed⟩
        exact ⟨hfeed, hreturn, hdigits, hpointed⟩
      · intro h
        exact ⟨h.oneLine, h.noReturn, h.notDigits, h.notPointed⟩)

/-- A digit is spelled by one byte, from which it is read again. -/
theorem exists_byte_of_isDigit {c : Char} (h : Numeral.isDigit c = true) :
    ∃ b, String.utf8EncodeChar c = [b] ∧ isDigitByte b = true ∧ Char.ofNat b.toNat = c := by
  rw [Numeral.isDigit, Bool.and_eq_true, decide_eq_true_eq, decide_eq_true_eq] at h
  have hlow : 48 ≤ c.toNat := h.1
  have hhigh : c.toNat ≤ 57 := h.2
  have hall : ∀ k ∈ List.range' 48 10, String.utf8EncodeChar (Char.ofNat k) = [UInt8.ofNat k] ∧
      isDigitByte (UInt8.ofNat k) = true ∧ Char.ofNat (UInt8.ofNat k).toNat = Char.ofNat k := by
    decide
  have hc := hall c.toNat (List.mem_range'_1.mpr ⟨hlow, by omega⟩)
  rw [Char.ofNat_toNat] at hc
  exact ⟨_, hc⟩

/-- The bytes of digits are the bytes that numbers are written with. -/
theorem isDigitByte_of_mem_ofChars {ds : List Char} (h : ∀ d ∈ ds, Numeral.isDigit d = true) :
    ∀ b ∈ Text.ofChars ds, isDigitByte b = true := by
  intro b hb
  obtain ⟨d, hd, hbyte⟩ := List.mem_flatMap.mp hb
  obtain ⟨b', hunit, hdigit, -⟩ := exists_byte_of_isDigit (h d hd)
  rw [hunit, List.mem_singleton] at hbyte
  rw [hbyte]
  exact hdigit

/-- Digits are encoded as one byte each, which stands for the digit. -/
theorem asciiChars_ofChars {ds : List Char} (h : ∀ d ∈ ds, Numeral.isDigit d = true) :
    asciiChars (Text.ofChars ds) = ds := by
  induction ds with
  | nil => rfl
  | cons d ds ih =>
    obtain ⟨b, hunit, -, hback⟩ := exists_byte_of_isDigit (h d List.mem_cons_self)
    have hrest := ih fun d' hd' => h d' (List.mem_cons_of_mem d hd')
    unfold Text.ofChars asciiChars at hrest ⊢
    rw [List.flatMap_cons, hunit, List.singleton_append, List.map_cons, hrest, hback]

/-- The text of a whole number that is not negative: its digits, from which it is read again. -/
theorem text_int {n : Int64} (hn : 0 ≤ n) :
    isDigits (Value.int n).text = true ∧
      Numeral.ofDigits (asciiChars (Value.int n).text) = n.toNatClampNeg := by
  have htext : (Value.int n).text = Text.ofChars n.toNatClampNeg.repr.toList := by
    show Text.ofString (toString n.toInt) = _
    rw [toString_toInt hn]
    rfl
  have hwhole := isWhole_repr n.toNatClampNeg
  rw [Numeral.isWhole, Bool.and_eq_true, List.all_eq_true] at hwhole
  obtain ⟨hsome, hdigits⟩ := hwhole
  have hback := asciiChars_ofChars hdigits
  rw [htext, hback, ofDigits_repr]
  refine ⟨?_, rfl⟩
  rw [isDigits, Bool.and_eq_true, List.all_eq_true]
  refine ⟨?_, isDigitByte_of_mem_ofChars hdigits⟩
  cases hbytes : Text.ofChars n.toNatClampNeg.repr.toList with
  | cons b rest => rfl
  | nil =>
    rw [hbytes] at hback
    rw [← hback] at hsome
    exact absurd hsome (by decide)

/-- The text of a number that is not negative stands for that number. -/
theorem ofLine_int {n : Int64} (hn : 0 ≤ n) : ofLine (Value.int n).text = .int n := by
  obtain ⟨hdigits, hback⟩ := text_int hn
  unfold ofLine
  simp only [hdigits, hback, toNatClampNeg_lt n, Bool.true_and, decide_true, if_true,
    Int64.ofNat_toNatClampNeg n hn]

/-- The line that a value gives when it is printed. -/
def printed (v : Value) : Text := v.text ++ [lineFeed]

/-- The value is a whole number that is not negative, or a text that stands for itself on a line. -/
def ReadsBack : Value → Prop
  | .int n => 0 ≤ n
  | .string t => t.IsPlainLine
  | _ => False

/-- The text of such a value does not hide the end of its line, and stands for the value. -/
theorem ReadsBack.line {v : Value} (h : v.ReadsBack) :
    lineFeed ∉ v.text ∧ v.text.getLast? ≠ some carriageReturn ∧ ofLine v.text = v := by
  cases v with
  | int n =>
    obtain ⟨hdigits, -⟩ := text_int h
    rw [isDigits, Bool.and_eq_true, List.all_eq_true] at hdigits
    refine ⟨fun hmem => ?_, fun hlast => ?_, ofLine_int h⟩
    · exact absurd (hdigits.2 _ hmem) (by decide)
    · exact absurd (hdigits.2 _ (List.mem_of_getLast? hlast)) (by decide)
  | string t => exact ⟨h.oneLine, h.noReturn, ofLine_of_isPlainLine h⟩
  | _ => exact h.elim

end Value

/-! ## One call -/

namespace Builtin

/-- What was printed on a line of its own is read from that line. -/
theorem readLine_printed {v : Value} (hv : v.ReadsBack) {m : Machine} {rest : Text}
    (hinput : m.input = v.printed ++ rest) : readLine m = .ok v { m with input := rest } := by
  obtain ⟨hfeed, hreturn, hback⟩ := hv.line
  rw [Value.printed, List.append_assoc, List.singleton_append] at hinput
  simp only [readLine, hinput, Text.splitLine_line hfeed, Text.endsLine_line, if_true,
    Text.trimLineEnd_line hfeed hreturn, hback]

/-- At the end of an input that works, nil is read. -/
theorem readLine_end {m : Machine} (hinput : m.input = []) (hbroken : m.inputBroken = false) :
    readLine m = .ok .nil { m with input := [] } := by
  simp [readLine, hinput, hbroken, Text.splitLine, Text.endsLine]

end Builtin

/-- A call of a builtin runs it on the values of its arguments. -/
theorem eval_call_builtin {maxDepth : Int} {fuel slot id : Nat} {m m₁ : Machine}
    {name builtin : String} (hchecks : m.checksLeft = none)
    (hname : m.scopes.get slot name = .ok (.builtin id builtin)) {args : List Node}
    {vs : List Value} (hargs : Eval.runArgs (eval maxDepth fuel slot) args m = .ok vs m₁)
    (tok : Token) :
    eval maxDepth (fuel + 1) slot (.call tok name args) m = Builtin.run builtin vs m₁ := by
  show Eval.call maxDepth (eval maxDepth fuel) slot tok name args m = _
  simp only [Eval.call, bind, EStateM.bind, Run.check, hchecks, Run.lookup, hname, hargs]

/-! ## Printing -/

namespace Session

/-- The literal of a whole number or a text. -/
def literal : Value → Node
  | .int n => .integer .origin n
  | .string t => .string .origin t
  | _ => .nil .origin

/-- The program that prints the values one after the other. -/
def printing (vs : List Value) : Node :=
  .block .origin (vs.map fun v => .call .origin "print" [literal v])

/-- The root is that of a new session, output is taken, and the run is not going to be cancelled. -/
structure Prints (m : Machine) : Prop where
  scopes : m.scopes = initialScopes
  checks : m.checksLeft = none
  writes : m.writesLeft = none

/-- To print a value writes its line, and leaves a machine that can print another one. -/
theorem Prints.eval {m : Machine} (hm : Prints m) {v : Value} (hv : v.ReadsBack) (maxDepth : Int)
    (fuel : Nat) :
    ∃ m', Offside.eval maxDepth (fuel + 2) 0 (.call .origin "print" [literal v]) m = .ok .nil m' ∧
      Prints m' ∧ m'.output = v.printed :: m.output := by
  have hargs : Eval.runArgs (Offside.eval maxDepth (fuel + 1) 0) [literal v] m = .ok [v] m := by
    cases v with
    | int | string => rfl
    | _ => exact hv.elim
  have hname : m.scopes.get 0 "print" = .ok (.builtin 0 "print") := by
    rw [hm.scopes]
    rfl
  have hprint : Builtin.print [v] m =
      .ok .nil { m with output := v.printed :: m.output } := by
    simp [Builtin.print, Value.printed, bind, EStateM.bind, Run.write, hm.writes, pure,
      EStateM.pure]
  rw [eval_call_builtin hm.checks hname hargs]
  exact ⟨_, hprint, ⟨hm.scopes, hm.checks, hm.writes⟩, rfl⟩

/-- The statements write the lines of the values, one after the other. -/
theorem Prints.runStatements {m : Machine} (hm : Prints m) {vs : List Value}
    (hvs : ∀ v ∈ vs, v.ReadsBack) (echo : Bool) (maxDepth : Int) (fuel : Nat) :
    ∃ m', Session.runStatements echo (Offside.eval maxDepth (fuel + 2) 0) .nil
        (vs.map fun v => .call .origin "print" [literal v]) m = .ok .nil m' ∧
      m'.output = (vs.map Value.printed).reverse ++ m.output := by
  induction vs generalizing m with
  | nil => exact ⟨_, rfl, rfl⟩
  | cons v vs ih =>
    have hrest : ∀ v' ∈ vs, v'.ReadsBack := fun v' h => hvs v' (List.mem_cons_of_mem v h)
    obtain ⟨m₁, hfirst, hm₁, hline⟩ := hm.eval (hvs v List.mem_cons_self) maxDepth fuel
    obtain ⟨m₂, hlater, hlines⟩ := ih hm₁ hrest
    refine ⟨m₂, ?_, ?_⟩
    · simp only [List.map_cons, Session.runStatements, bind, EStateM.bind, hfirst,
        Node.isExpression, Bool.and_true, ite_self]
      exact hlater
    · rw [hlines, hline, List.map_cons, List.reverse_cons, List.append_assoc]
      rfl

/-- The run of a tree whose program gives a value gives that value. -/
theorem runTree_of_ok {s : Session} {fuel : Nat} {checks : Option Nat} {tree : Node} {v : Value}
    {m : Machine} (h : runProgram s.options fuel (statementsOf tree)
      { s.machine with checksLeft := checks } = .ok v m) :
    s.runTree fuel checks tree = (.ok v, { s with machine := m }) := by
  simp only [runTree, h]

/-- The program that prints values writes their lines. -/
theorem runTree_printing {vs : List Value} (hvs : ∀ v ∈ vs, v.ReadsBack) (options : Options)
    (input : Text) (broken : Bool) {fuel : Nat} (hfuel : 2 ≤ fuel) :
    ∃ s, (start options input broken none).runTree fuel none (printing vs) = (.ok .nil, s) ∧
      s.machine.written = (vs.map Value.printed).flatten := by
  obtain ⟨fuel, rfl⟩ := Nat.exists_eq_add_of_le' hfuel
  have hstart (journal : List JournalEntry) :
      Prints { (start options input broken none).machine with journal } := ⟨rfl, rfl, rfl⟩
  obtain ⟨m, hrun, houtput⟩ :=
    (hstart [.started (statementsOf (printing vs)).length]).runStatements hvs options.echo
      options.maxDepth fuel
  refine ⟨_, runTree_of_ok hrun, ?_⟩
  unfold Machine.written
  rw [houtput]
  simp [start]

/-! ## Reading -/

/-- The step that returns what `input()` gives. -/
def asking (fuel : Nat) : Step := ⟨.source (Text.ofString "return input()"), fuel, none⟩

/-- What comes of several steps, one after the other. -/
def answers (s : Session) : List Step → List (Except Halt Value)
  | [] => []
  | step :: rest => (s.perform step).1 :: (s.perform step).2.answers rest

/-- The source that asks for a line is read as the call of `input` under a `return`. -/
theorem outcome_asking : ∃ tok tok', (Parse.ofText (Text.ofString "return input()")).outcome =
    .ok (.block .origin [.ret tok (.call tok' "input" [])]) := by
  have hhalt : (TokenStream.ofText (Text.ofString "return input()")).halt? = none := by
    decide +kernel
  have htokens : (TokenStream.ofText (Text.ofString "return input()")).toList =
      [⟨.returnWord, "return", ⟨0, 0⟩⟩, ⟨.identifier, "input", ⟨0, 7⟩⟩, ⟨.leftParen, "(", ⟨0, 12⟩⟩,
        ⟨.rightParen, ")", ⟨0, 13⟩⟩] ++ [⟨.endOfInput, "", ⟨0, 14⟩⟩] := by
    decide +kernel
  unfold Parse.ofText
  generalize TokenStream.ofText (Text.ofString "return input()") = stream at hhalt htokens
  obtain ⟨front, final⟩ := stream
  cases final with
  | error h => simp [TokenStream.halt?] at hhalt
  | ok t =>
    obtain ⟨rfl, ht⟩ := List.append_inj' htokens rfl
    obtain rfl := List.singleton_inj.mp ht
    exact ⟨_, _, rfl⟩

/-- The root is that of a new session, and the given input can be read. -/
structure Reads (m : Machine) (input : Text) : Prop where
  scopes : m.scopes = initialScopes
  sound : m.inputBroken = false
  input : m.input = input

/-- Asking gives what the next line of the input gives, and the rest of the input is left. -/
theorem perform_asking {s : Session} {fuel : Nat} (hfuel : 1 ≤ fuel) {input rest : Text} {v : Value}
    (hs : Reads s.machine input)
    (hline : ∀ m, Reads m input → Builtin.readLine m = .ok v { m with input := rest }) :
    ∃ s', s.perform (asking fuel) = (.ok v, s') ∧ Reads s'.machine rest := by
  obtain ⟨fuel, rfl⟩ := Nat.exists_eq_add_of_le' hfuel
  obtain ⟨tok, tok', houtcome⟩ := outcome_asking
  have heval : ∀ m, Reads m input → m.checksLeft = none →
      eval s.options.maxDepth (fuel + 1) 0 (.call tok' "input" []) m =
        .ok v { m with input := rest } := by
    intro m hm hchecks
    have hname : m.scopes.get 0 "input" = .ok (.builtin 1 "input") := by
      rw [hm.scopes]
      rfl
    rw [eval_call_builtin hchecks hname rfl]
    exact hline m hm
  -- the session after reading the source differs in its journal only
  let read : Session :=
    { s with machine.journal := journalOf (.ofText (.ofString "return input()")) ++
        s.machine.journal }
  have hrun := heval { read.machine with
    checksLeft := none, journal := .started 1 :: read.machine.journal }
    ⟨hs.scopes, hs.sound, hs.input⟩ rfl
  have hread : s.perform (asking (fuel + 1)) =
      read.runTree (fuel + 1) none (.block .origin [.ret tok (.call tok' "input" [])]) := by
    show s.runText (fuel + 1) none _ = _
    simp only [runText, houtcome]
    rfl
  exact ⟨_, hread.trans (runTree_of_ok hrun), hs.scopes, hs.sound, rfl⟩

/-- One question after the other gives the values whose lines the input consists of, and a question
after them gives nil. -/
theorem answers_asking {vs : List Value} (hvs : ∀ v ∈ vs, v.ReadsBack) {fuel : Nat}
    (hfuel : 1 ≤ fuel) {s : Session}
    (hs : Reads s.machine (vs.map Value.printed).flatten) :
    s.answers (List.replicate (vs.length + 1) (asking fuel)) = vs.map .ok ++ [.ok .nil] := by
  induction vs generalizing s with
  | nil =>
    obtain ⟨s', hanswer, -⟩ := perform_asking hfuel hs fun m hm =>
      Builtin.readLine_end hm.input hm.sound
    simp [answers, hanswer]
  | cons v vs ih =>
    obtain ⟨s', hanswer, hs'⟩ := perform_asking hfuel hs fun m hm =>
      Builtin.readLine_printed (hvs v List.mem_cons_self) (hm.input.trans List.flatten_cons)
    have hrest := ih (fun v' h => hvs v' (List.mem_cons_of_mem v h)) hs'
    rw [List.length_cons, List.replicate_succ, answers, hanswer]
    simp [hrest]

end Session

/-- Whole numbers that are not negative, and texts of one line that neither end in a carriage return
nor are digits, with or without one point among them, come back. A program that prints any of them
one after the other writes a text; a session that has this text as its input, and asks for input
once for each of them, is given the same values in the same order, and nil if it asks once more. -/
theorem input_reads_back_printed {vs : List Value} (hvs : ∀ v ∈ vs, v.ReadsBack)
    (options options' : Options) (input : Text) (broken : Bool) (writes : Option Nat) {fuel : Nat}
    (hfuel : 2 ≤ fuel) :
    ∃ s, (Session.start options input broken none).runTree fuel none (Session.printing vs) =
        (.ok .nil, s) ∧
      (Session.start options' s.machine.written false writes).answers
        (List.replicate (vs.length + 1) (Session.asking fuel)) = vs.map .ok ++ [.ok .nil] := by
  obtain ⟨s, hprinted, hwritten⟩ := Session.runTree_printing hvs options input broken hfuel
  refine ⟨s, hprinted, Session.answers_asking hvs (by omega) ?_⟩
  exact ⟨rfl, rfl, hwritten⟩

/-- The greatest whole number, the empty text, a text with a carriage return inside, several points,
a sign, a single point, an Arabic digit, and a stray byte before a digit all come back. -/
theorem input_reads_back_printed_mixed :
    let vs := [Value.int 9223372036854775807, .string [], .string (.ofString "1\r2"),
      .string (.ofString "1.2.3"), .string (.ofString "-5"), .string (.ofString "."),
      .string [0xD9, 0xA1], .string [0xFF, 0x30], .int 0]
    let options : Options := ⟨false, 0⟩
    (∀ v ∈ vs, v.ReadsBack) ∧
      ∃ s, (Session.start options [] true none).runTree 2 none (Session.printing vs) =
          (.ok .nil, s) ∧
        (Session.start options s.machine.written false (some 0)).answers
          (List.replicate 10 (Session.asking 2)) = vs.map .ok ++ [.ok .nil] := by
  intro vs options
  have hvs : ∀ v ∈ vs, v.ReadsBack := by
    simp only [vs, List.forall_mem_cons, Value.ReadsBack, List.not_mem_nil, false_implies,
      implies_true]
    decide
  exact ⟨hvs, input_reads_back_printed hvs options options [] true (some 0) (Nat.le_refl 2)⟩

end Offside
