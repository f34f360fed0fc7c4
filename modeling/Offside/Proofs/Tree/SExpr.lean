import Offside.Proofs.Tree.Datum
import Offside.Proofs.Tree.Rendering
import Offside.Proofs.Tree.StatementSound
import Offside.Tree.SExpr

/-!
# S-expressions determine trees

What is written for a tree is what is written for its datum (`Node.spell_eq`), and a datum is
determined by what is written for it. So it remains to read trees back from data (`Datum.node`).
Leaves are told apart by their words, lists by the kind of their first word, since no name is an
operator or a reserved word. How many items follow tells an operator before its operand from one
between two.

Statement lists start with `do`, which is no reserved word, so a call of a function with that name
looks the same. But they stand only where nothing else does: at the root, last in a definition or a
loop, and by turns with the conditions of a conditional. The star of a wildcard is no expression.

Two kinds of leaves cannot be told from others and are left out. A value that is left out is written
as a variable named `nil` would be, and a number with a point may be written without it.
-/

set_option autoImplicit false

namespace Offside

open SExpr (Datum)

/-! ## Trees as data -/

mutual

/-- A tree as a datum. -/
def Node.datum : Node → Datum
  | .missing => .word ""
  | .block _ statements => .form "do" (Node.data statements)
  | .declaration _ name value => .form "let" [.word name, value.datum]
  | .assignment _ name value => .form "=" [.word name, value.datum]
  | .reference _ name => .word name
  | .integer _ value => .word (toString value.toInt)
  | .float _ value => .word (Layout.plain.render value)
  | .string _ value => .quoted value
  | .boolean _ value => .word (if value then "true" else "false")
  | .nil _ => .word "nil"
  | .unary _ operator operand => .form operator.symbol [operand.datum]
  | .binary _ operator left right => .form operator.symbol [left.datum, right.datum]
  | .definition _ name params _ body =>
      .form "fn" [.word name, .list (params.map .word), .form "do" (Node.data body)]
  | .call _ name args => .form name (Node.data args)
  | .conditional _ branches => .form "if" branches.data
  | .loop _ condition _ body => .form "while" [condition.datum, .form "do" (Node.data body)]
  | .ret _ value => .form "return" [value.datum]
  | .select _ subject arms => .form "match" (subject.datum :: arms.data)

/-- Trees as data. -/
def Node.data : List Node → List Datum
  | [] => []
  | n :: rest => n.datum :: Node.data rest

/-- Branches as data: conditions and bodies by turns. -/
def Branches.data : Branches → List Datum
  | .done => []
  | .otherwise _ body => [.form "else" (Node.data body)]
  | .guarded condition _ body rest =>
      condition.datum :: .form "do" (Node.data body) :: rest.data

/-- Arms as data: lists of a pattern and a result. -/
def Arms.data : Arms → List Datum
  | .done => []
  | .pattern _ pattern result rest => .list [pattern.datum, result.datum] :: rest.data
  | .wildcard _ result rest => .form "*" [result.datum] :: rest.data

end

/-- Names with spaces between them, in parentheses, are a list of words. -/
theorem SExpr.spell_names (names : List String) (k : List Char) :
    (Datum.list (names.map .word)).spell k = '(' :: (spaced names ++ ')' :: k) := by
  cases names with
  | nil => rfl
  | cons name rest =>
    have heach : name.toList ++ Datum.spellEach (rest.map .word) (')' :: k) =
        spaced (name :: rest) ++ ')' :: k := by
      induction rest generalizing name with
      | nil => rfl
      | cons next rest ih =>
        rw [spaced, List.append_assoc, List.cons_append, ← ih]
        · rfl
        · simp
    rw [← heach]
    rfl

mutual

/-- The s-expression of a tree is that of its datum. -/
theorem Node.spell_eq (n : Node) (k : List Char) : n.spell k = n.datum.spell k := by
  cases n with
  | missing | reference | integer | float | string | nil => rfl
  | boolean tok value => cases value <;> rfl
  | block tok statements => exact congrArg ("(do".toList ++ ·) (Node.spellEach_eq statements _)
  | declaration tok name value =>
    exact congrArg (fun cs => "(let ".toList ++ (name.toList ++ ' ' :: cs)) (Node.spell_eq value _)
  | assignment tok name value =>
    exact congrArg (fun cs => "(= ".toList ++ (name.toList ++ ' ' :: cs)) (Node.spell_eq value _)
  | unary tok operator operand =>
    exact congrArg (fun cs => '(' :: (operator.symbol.toList ++ ' ' :: cs))
      (Node.spell_eq operand _)
  | binary tok operator left right =>
    show '(' :: (operator.symbol.toList ++ ' ' :: left.spell (' ' :: right.spell (')' :: k))) = _
    rw [Node.spell_eq right, Node.spell_eq left]
    rfl
  | definition tok name params bodyTok body =>
    show "(fn ".toList ++ (name.toList ++ [' ', '('] ++ (SExpr.spaced params ++
      ')' :: (" (do".toList ++ Node.spellEach body (')' :: ')' :: k)))) = _
    rw [Node.spellEach_eq body, List.append_assoc, List.cons_append, List.singleton_append,
      ← SExpr.spell_names]
    rfl
  | call tok name args =>
    exact congrArg (fun cs => '(' :: (name.toList ++ cs)) (Node.spellEach_eq args _)
  | conditional tok branches => exact congrArg ("(if".toList ++ ·) (Branches.spell_eq branches _)
  | loop tok condition bodyTok body =>
    show "(while ".toList ++ condition.spell
      (" (do".toList ++ Node.spellEach body (')' :: ')' :: k)) = _
    rw [Node.spellEach_eq body, Node.spell_eq condition]
    rfl
  | ret tok value => exact congrArg ("(return ".toList ++ ·) (Node.spell_eq value _)
  | select tok subject arms =>
    show "(match ".toList ++ subject.spell (arms.spell (')' :: k)) = _
    rw [Arms.spell_eq arms, Node.spell_eq subject]
    rfl

/-- Nodes are spelled like their data. -/
theorem Node.spellEach_eq (ns : List Node) (k : List Char) :
    Node.spellEach ns k = Datum.spellEach (Node.data ns) k := by
  cases ns with
  | nil => rfl
  | cons n rest =>
    show ' ' :: n.spell (Node.spellEach rest k) = _
    rw [Node.spellEach_eq rest, Node.spell_eq n]
    rfl

/-- Branches are spelled like their data. -/
theorem Branches.spell_eq (bs : Branches) (k : List Char) :
    bs.spell k = Datum.spellEach bs.data k := by
  cases bs with
  | done => rfl
  | otherwise bodyTok body => exact congrArg (" (else".toList ++ ·) (Node.spellEach_eq body _)
  | guarded condition bodyTok body rest =>
    show ' ' :: condition.spell
      (" (do".toList ++ Node.spellEach body (')' :: rest.spell k)) = _
    rw [Branches.spell_eq rest, Node.spellEach_eq body, Node.spell_eq condition]
    rfl

/-- Arms are spelled like their data. -/
theorem Arms.spell_eq (arms : Arms) (k : List Char) :
    arms.spell k = Datum.spellEach arms.data k := by
  cases arms with
  | done => rfl
  | pattern tok pattern result rest =>
    show ' ' :: '(' :: pattern.spell (' ' :: result.spell (')' :: rest.spell k)) = _
    rw [Arms.spell_eq rest, Node.spell_eq result, Node.spell_eq pattern]
    rfl
  | wildcard tok result rest =>
    show " (* ".toList ++ result.spell (')' :: rest.spell k) = _
    rw [Arms.spell_eq rest, Node.spell_eq result]
    rfl

end

/-! ## Reading data -/

namespace SExpr

/-- What stands first in a list, if it is no name, and the kind that it stands for. -/
def heads : List (String × Kind) :=
  ("=", .assign) :: (Grammar.binaryOperators.map fun k => (k.symbol, k)) ++ Kind.keywords

/-- The kind that the first word of a list stands for. -/
def headKind (w : String) : Kind := (heads.lookup w).getD .identifier

/-- The leaf that a word stands for. -/
def leaf (w : String) : Node :=
  if w = "nil" then .nil .origin
  else if Numeral.isWhole w.toList then .integer .origin (.ofNat (Numeral.ofDigits w.toList))
  else if Kind.ofWord w = .boolean then .boolean .origin (w == "true")
  else .reference .origin w

namespace Datum

/-- Whether a datum is the word for any subject. -/
def isWildcard : Datum → Bool
  | word w => w == "*"
  | _ => false

/-- The word that a datum is. -/
def name : Datum → String
  | word w => w
  | _ => ""

mutual

/-- The tree that a datum stands for. -/
def node : Datum → Node
  | word w => leaf w
  | quoted t => .string .origin t
  | form head items =>
      -- The head of a body is not looked at.
      match headKind head, items with
      | .letWord, [name, value] => .declaration .origin name.name value.node
      | .assign, [name, value] => .assignment .origin name.name value.node
      | .fnWord, [name, list params, list (_ :: body)] =>
          .definition .origin name.name (params.map Datum.name) .origin (nodes body)
      | .ifWord, items => .conditional .origin (branches items)
      | .whileWord, [condition, list (_ :: body)] =>
          .loop .origin condition.node .origin (nodes body)
      | .returnWord, [value] => .ret .origin value.node
      | .matchWord, subject :: items => .select .origin subject.node (arms items)
      | .identifier, items => .call .origin head (nodes items)
      | operator, [operand] => .unary .origin operator operand.node
      | operator, [left, right] => .binary .origin operator left.node right.node
      | _, _ => .missing
  | list _ => .missing

/-- The trees that data stand for. -/
def nodes : List Datum → List Node
  | [] => []
  | d :: rest => d.node :: nodes rest

/-- The branches that data stand for. -/
def branches : List Datum → Branches
  | condition :: list (_ :: body) :: rest =>
      .guarded condition.node .origin (nodes body) (branches rest)
  | [list (_ :: body)] => .otherwise .origin (nodes body)
  | _ => .done

/-- The arms that data stand for. -/
def arms : List Datum → Arms
  | list [pattern, result] :: rest =>
      if pattern.isWildcard then .wildcard .origin result.node (arms rest)
      else .pattern .origin pattern.node result.node (arms rest)
  | _ => .done

end

end Datum

/-- No name is the head of a form of its own. -/
theorem headKind_of_isName {name : String} (h : isName name = true) :
    headKind name = .identifier := by
  have hheads : heads.all (fun p => !isName p.1) = true := by decide +kernel
  have hlookup : heads.lookup name = none := by
    rw [List.lookup_eq_none_iff]
    intro p hp
    have hp' := List.all_eq_true.mp hheads p hp
    rw [bne_iff_ne]
    rintro rfl
    simp [h] at hp'
  rw [headKind, hlookup]
  rfl

/-- A form with a name for its head is read as a call. -/
theorem node_call {name : String} (h : isName name = true) (items : List Datum) :
    (Datum.form name items).node = .call .origin name (Datum.nodes items) := by
  unfold Datum.node
  rw [headKind_of_isName h]

/-- A form with an operator for its head and one item is read as an operation. -/
theorem node_unary {op : Kind} (h : op ∈ Grammar.unaryOperators) (d : Datum) :
    (Datum.form op.symbol [d]).node = .unary .origin op d.node := by
  simp only [Grammar.unaryOperators, List.mem_cons, List.not_mem_nil, or_false] at h
  rcases h with rfl | rfl | rfl <;> rfl

/-- A form with an operator for its head and two items is read as an operation. -/
theorem node_binary {op : Kind} (h : op ∈ Grammar.binaryOperators) (d e : Datum) :
    (Datum.form op.symbol [d, e]).node = .binary .origin op d.node e.node := by
  simp only [Grammar.binaryOperators, Grammar.levels, List.flatten_cons, List.flatten_nil,
    List.append_nil, List.cons_append, List.nil_append, List.mem_cons, List.not_mem_nil,
    or_false] at h
  rcases h with rfl | rfl | rfl | rfl | rfl | rfl | rfl | rfl | rfl | rfl | rfl | rfl | rfl <;> rfl

/-- The symbol of an operator is a proper word. -/
theorem isProper_symbol {op : Kind}
    (h : op ∈ Grammar.unaryOperators ++ Grammar.binaryOperators) :
    (Datum.word op.symbol).isProper = true := by
  have hall : (Grammar.unaryOperators ++ Grammar.binaryOperators).all
      (fun k => (Datum.word k.symbol).isProper) = true := by decide +kernel
  exact List.all_eq_true.mp hall op h

/-- The parts of a name. -/
theorem isName_iff {name : String} : isName name = true ↔ ∃ c cs, name.toList = c :: cs ∧
    Scan.startsName c = true ∧ cs.all Scan.continuesName = true ∧
    Kind.ofWord name = .identifier := by
  unfold isName
  cases name.toList with
  | nil => simp
  | cons c cs => simp [and_assoc]

/-- A name is a proper word. -/
theorem isProper_name {name : String} (h : isName name = true) :
    (Datum.word name).isProper = true := by
  obtain ⟨c, cs, hname, hc, hcs, -⟩ := isName_iff.mp h
  have hfirst : Scan.continuesName c = true := by rw [Scan.continuesName, hc, Bool.true_or]
  refine Datum.isProper_word (p := Scan.continuesName) (by decide) ?_ ?_
  · simp [hname]
  · rw [hname, List.all_cons, hfirst, hcs, Bool.true_and]

/-- A name other than nil is read as a reference. -/
theorem leaf_name {name : String} (h : isName name = true) (hnil : name ≠ "nil") :
    leaf name = .reference .origin name := by
  obtain ⟨c, cs, hname, hc, -, hkind⟩ := isName_iff.mp h
  have hwhole : Numeral.isWhole name.toList = false := by
    have hdigit : Numeral.isDigit c = false := by
      rw [← Bool.not_eq_true]
      intro hdigit
      simp only [Numeral.isDigit, Bool.and_eq_true, decide_eq_true_eq] at hdigit
      have hlt : c.toNat < 0x41 := Nat.lt_of_le_of_lt hdigit.2 (by decide)
      rw [Scan.not_startsName_of_lt hlt] at hc
      exact Bool.noConfusion hc
    rw [hname, Numeral.isWhole, List.all_cons, hdigit, Bool.false_and, Bool.and_false]
  rw [leaf, if_neg hnil, hwhole, hkind]
  rfl

/-- A whole number that is not negative is a proper word. -/
theorem isProper_integer {n : Int64} (h : 0 ≤ n) :
    (Datum.word (toString n.toInt)).isProper = true := by
  have hwhole := isWhole_repr n.toNatClampNeg
  rw [Numeral.isWhole, Bool.and_eq_true, Bool.not_eq_true', List.isEmpty_eq_false_iff] at hwhole
  rw [toString_toInt h]
  exact Datum.isProper_word (by decide) hwhole.1 hwhole.2

/-- A whole number that is not negative is read as that number. -/
theorem leaf_integer {n : Int64} (h : 0 ≤ n) : leaf (toString n.toInt) = .integer .origin n := by
  have hwhole := isWhole_repr n.toNatClampNeg
  have hnil : n.toNatClampNeg.repr ≠ "nil" := by
    intro hnil
    rw [hnil] at hwhole
    exact absurd hwhole (by decide)
  rw [toString_toInt h, leaf, if_neg hnil, if_pos hwhole, ofDigits_repr,
    Int64.ofNat_toNatClampNeg n h]

end SExpr

/-! ## Trees are read back -/

mutual

/-- Whether no variable of a tree is called `nil`, which is also how a missing value is written. -/
def Node.avoidsNil : Node → Bool
  | .reference _ name => name != "nil"
  | .missing | .integer .. | .float .. | .string .. | .boolean .. | .nil .. => true
  | .block _ statements => Node.allAvoidNil statements
  | .declaration _ _ value | .assignment _ _ value | .ret _ value => value.avoidsNil
  | .unary _ _ operand => operand.avoidsNil
  | .binary _ _ left right => left.avoidsNil && right.avoidsNil
  | .definition _ _ _ _ body => Node.allAvoidNil body
  | .call _ _ args => Node.allAvoidNil args
  | .conditional _ branches => branches.avoidNil
  | .loop _ condition _ body => condition.avoidsNil && Node.allAvoidNil body
  | .select _ subject arms => subject.avoidsNil && arms.avoidNil

/-- Whether no variable of several trees is called `nil`. -/
def Node.allAvoidNil : List Node → Bool
  | [] => true
  | n :: rest => n.avoidsNil && Node.allAvoidNil rest

/-- Whether no variable of the branches is called `nil`. -/
def Branches.avoidNil : Branches → Bool
  | .done => true
  | .otherwise _ body => Node.allAvoidNil body
  | .guarded condition _ body rest =>
      condition.avoidsNil && Node.allAvoidNil body && rest.avoidNil

/-- Whether no variable of the arms is called `nil`. -/
def Arms.avoidNil : Arms → Bool
  | .done => true
  | .pattern _ pattern result rest => pattern.avoidsNil && result.avoidsNil && rest.avoidNil
  | .wildcard _ result rest => result.avoidsNil && rest.avoidNil

end

/-- A tree has no gaps, is written with proper words, and is read back from what is written. -/
structure Node.Recovered (n : Node) : Prop where
  whole : n.isWhole = true
  proper : n.datum.isProper = true
  read : n.datum.node = n.bare

/-- Trees have no gaps, are written with proper words, and are read back from what is written. -/
structure Node.AllRecovered (ns : List Node) : Prop where
  whole : Node.allWhole ns = true
  proper : Datum.areProper (Node.data ns) = true
  read : Datum.nodes (Node.data ns) = Node.allBare ns

/-- The same for branches, which are read by turns. -/
structure Branches.Recovered (bs : Branches) : Prop where
  whole : bs.isWhole = true
  proper : Datum.areProper bs.data = true
  read : Datum.branches bs.data = bs.bare

/-- The same for arms. -/
structure Arms.Recovered (arms : Arms) : Prop where
  whole : arms.isWhole = true
  proper : Datum.areProper arms.data = true
  read : Datum.arms arms.data = arms.bare

/-- No nodes are recovered as no nodes. -/
theorem Node.AllRecovered.nil : Node.AllRecovered [] where
  whole := rfl
  proper := rfl
  read := rfl

/-- Nodes are recovered one by one. -/
theorem Node.AllRecovered.cons {n : Node} {ns : List Node} (hn : n.Recovered)
    (hns : Node.AllRecovered ns) : Node.AllRecovered (n :: ns) where
  whole := by rw [Node.allWhole, hn.whole, hns.whole, Bool.true_and]
  proper := by rw [Node.data, Datum.areProper, hn.proper, hns.proper, Bool.true_and]
  read := by rw [Node.data, Datum.nodes, hn.read, hns.read, Node.allBare]

/-- The body of nodes that are recovered is proper. -/
theorem Node.AllRecovered.isProper_body {ns : List Node} (h : Node.AllRecovered ns) :
    (Datum.form "do" (Node.data ns)).isProper = true :=
  Datum.isProper_form (by decide) h.proper

/-- A tree that is written as a list is read back if the list is. -/
theorem Node.Recovered.of_form {n : Node} {head : String} {items : List Datum}
    (hdatum : n.datum = .form head items) (hhead : (Datum.word head).isProper = true)
    (hwhole : n.isWhole = true) (hitems : Datum.areProper items = true)
    (hread : (Datum.form head items).node = n.bare) : n.Recovered where
  whole := hwhole
  proper := by rw [hdatum, Datum.isProper_form hhead hitems]
  read := by rw [hdatum, hread]

/-- No pattern is taken for a wildcard: the only leaf that is written as a star is no expression. -/
theorem Node.Recovered.isWildcard_datum {e : Node} (h : e.Recovered) (he : e.isExpr = true) :
    e.datum.isWildcard = false := by
  rw [← Bool.not_eq_true]
  intro hwild
  have hread := h.read
  cases hd : e.datum with
  | word w =>
    rw [hd, Datum.isWildcard, beq_iff_eq] at hwild
    have hleaf : SExpr.leaf "*" = .reference .origin "*" := rfl
    rw [hd, hwild] at hread
    have hbare : e.bare = .reference .origin "*" := hread.symm.trans hleaf
    cases e <;> simp [Node.bare] at hbare
    rw [Node.isExpr, hbare] at he
    exact absurd he (by decide)
  | quoted | list => simp [hd, Datum.isWildcard] at hwild

mutual

/-- Expressions are read back. -/
theorem Node.recovered_of_isExpr (e : Node) (h : e.isExpr = true) (hf : e.isFloatFree = true)
    (hn : e.avoidsNil = true) : e.Recovered := by
  cases e with
  -- a reference to `nil` would be written like the value, and read back as it
  | reference tok name =>
    rw [Node.isExpr] at h
    rw [Node.avoidsNil, bne_iff_ne] at hn
    exact ⟨rfl, SExpr.isProper_name h, SExpr.leaf_name h hn⟩
  | integer tok value =>
    rw [Node.isExpr, decide_eq_true_eq] at h
    exact ⟨rfl, SExpr.isProper_integer h, SExpr.leaf_integer h⟩
  | float tok value => simp [Node.isFloatFree] at hf
  | string tok value => exact ⟨rfl, h, rfl⟩
  | boolean tok value =>
    refine ⟨rfl, ?_, ?_⟩
    · cases value <;> rfl
    · cases value <;> rfl
  | unary tok operator operand =>
    simp only [Node.isExpr, Bool.and_eq_true, List.contains_iff_mem] at h
    rw [Node.isFloatFree] at hf
    rw [Node.avoidsNil] at hn
    have ih := Node.recovered_of_isExpr operand h.2 hf hn
    have hop := List.mem_append_left Grammar.binaryOperators h.1
    refine .of_form rfl (SExpr.isProper_symbol hop) ih.whole ?_ ?_
    · rw [Datum.areProper, Datum.areProper, ih.proper, Bool.and_self]
    · rw [SExpr.node_unary h.1, ih.read, Node.bare]
  | binary tok operator left right =>
    simp only [Node.isExpr, Bool.and_eq_true, List.contains_iff_mem] at h
    rw [Node.isFloatFree, Bool.and_eq_true] at hf
    rw [Node.avoidsNil, Bool.and_eq_true] at hn
    have hl := Node.recovered_of_isExpr left h.1.2 hf.1 hn.1
    have hr := Node.recovered_of_isExpr right h.2 hf.2 hn.2
    have hop := List.mem_append_right Grammar.unaryOperators h.1.1
    refine .of_form rfl (SExpr.isProper_symbol hop) ?_ ?_ ?_
    · rw [Node.isWhole, hl.whole, hr.whole, Bool.true_and]
    · simp only [Datum.areProper, hl.proper, hr.proper, Bool.and_self]
    · rw [SExpr.node_binary h.1.1, hl.read, hr.read, Node.bare]
  | call tok name args =>
    rw [Node.isExpr, Bool.and_eq_true] at h
    rw [Node.isFloatFree] at hf
    rw [Node.avoidsNil] at hn
    have ih := Node.allRecovered_of_areExprs args h.2 hf hn
    refine .of_form rfl (SExpr.isProper_name h.1) ih.whole ih.proper ?_
    rw [SExpr.node_call h.1, ih.read, Node.bare]
  | select tok subject arms =>
    simp only [Node.isExpr, Bool.and_eq_true] at h
    rw [Node.isFloatFree, Bool.and_eq_true] at hf
    rw [Node.avoidsNil, Bool.and_eq_true] at hn
    have hs := Node.recovered_of_isExpr subject h.1.1 hf.1 hn.1
    have ha := Arms.recovered arms h.2 hf.2 hn.2
    refine .of_form rfl (by decide) ?_ ?_ ?_
    · rw [Node.isWhole, hs.whole, ha.whole, Bool.true_and]
    · rw [Datum.areProper, hs.proper, ha.proper, Bool.true_and]
    · show Node.select .origin subject.datum.node (Datum.arms arms.data) = _
      rw [hs.read, ha.read, Node.bare]
  | missing | block | declaration | assignment | nil | definition | conditional | loop | ret =>
    simp [Node.isExpr] at h

/-- Expressions without doubles that do not refer to nil are recovered. -/
theorem Node.allRecovered_of_areExprs (es : List Node) (h : Node.areExprs es = true)
    (hf : Node.areFloatFree es = true) (hn : Node.allAvoidNil es = true) :
    Node.AllRecovered es := by
  cases es with
  | nil => exact .nil
  | cons e rest =>
    rw [Node.areExprs, Bool.and_eq_true] at h
    rw [Node.areFloatFree, Bool.and_eq_true] at hf
    rw [Node.allAvoidNil, Bool.and_eq_true] at hn
    exact .cons (Node.recovered_of_isExpr e h.1 hf.1 hn.1)
      (Node.allRecovered_of_areExprs rest h.2 hf.2 hn.2)

/-- Arms without doubles that do not refer to nil are recovered. -/
theorem Arms.recovered (arms : Arms) (h : arms.areWellFormed = true)
    (hf : arms.isFloatFree = true) (hn : arms.avoidNil = true) : arms.Recovered := by
  cases arms with
  | done => exact ⟨rfl, rfl, rfl⟩
  | pattern tok pattern result rest =>
    simp only [Arms.areWellFormed, Bool.and_eq_true] at h
    simp only [Arms.isFloatFree, Bool.and_eq_true] at hf
    simp only [Arms.avoidNil, Bool.and_eq_true] at hn
    have hp := Node.recovered_of_isExpr pattern h.1.1 hf.1.1 hn.1.1
    have hr := Node.recovered_of_isExpr result h.1.2 hf.1.2 hn.1.2
    have ih := Arms.recovered rest h.2 hf.2 hn.2
    refine ⟨?_, ?_, ?_⟩
    · rw [Arms.isWhole, hp.whole, hr.whole, ih.whole, Bool.true_and, Bool.true_and]
    · simp only [Arms.data, Datum.areProper, Datum.isProper, hp.proper, hr.proper, ih.proper,
        Bool.and_self]
    · rw [Arms.data, Datum.arms, hp.isWildcard_datum h.1.1, hp.read, hr.read, ih.read, Arms.bare]
      rfl
  | wildcard tok result rest =>
    rw [Arms.areWellFormed, Bool.and_eq_true] at h
    rw [Arms.isFloatFree, Bool.and_eq_true] at hf
    rw [Arms.avoidNil, Bool.and_eq_true] at hn
    have hr := Node.recovered_of_isExpr result h.1 hf.1 hn.1
    have ih := Arms.recovered rest h.2 hf.2 hn.2
    refine ⟨?_, ?_, ?_⟩
    · rw [Arms.isWhole, hr.whole, ih.whole, Bool.true_and]
    · have hresult : Datum.areProper [result.datum] = true := by
        rw [Datum.areProper, Datum.areProper, hr.proper, Bool.and_self]
      rw [Arms.data, Datum.areProper, Datum.isProper_form (by decide) hresult, ih.proper,
        Bool.true_and]
    · rw [Arms.data, Datum.arms, hr.read, ih.read, Arms.bare]
      rfl

end

/-- An expression, or nil where a value is left out, is read back. -/
theorem Node.recovered_of_optional {n : Node} (h : (n.isNil || n.isExpr) = true)
    (hf : n.isFloatFree = true) (hn : n.avoidsNil = true) : n.Recovered := by
  rw [Bool.or_eq_true] at h
  rcases h with h | h
  · cases n with
    | nil tok => exact ⟨rfl, rfl, rfl⟩
    | _ => simp [Node.isNil] at h
  · exact Node.recovered_of_isExpr n h hf hn

/-- Names are proper words. -/
theorem SExpr.areProper_names {names : List String} (h : names.all isName = true) :
    Datum.areProper (names.map .word) = true := by
  induction names with
  | nil => rfl
  | cons name rest ih =>
    rw [List.all_cons, Bool.and_eq_true] at h
    rw [List.map_cons, Datum.areProper, SExpr.isProper_name h.1, ih h.2, Bool.true_and]

mutual

/-- Statements are read back. -/
theorem Node.recovered_of_isStatement (n : Node) (h : n.isStatement = true)
    (hf : n.isFloatFree = true) (hn : n.avoidsNil = true) : n.Recovered := by
  cases n with
  | declaration tok name value =>
    rw [Node.isStatement, Bool.and_eq_true] at h
    rw [Node.isFloatFree] at hf
    rw [Node.avoidsNil] at hn
    have ih := Node.recovered_of_optional h.2 hf hn
    refine .of_form rfl (by decide) ih.whole ?_ ?_
    · simp only [Datum.areProper, SExpr.isProper_name h.1, ih.proper, Bool.and_self]
    · show Node.declaration .origin name value.datum.node = _
      rw [ih.read, Node.bare]
  | assignment tok name value =>
    rw [Node.isStatement, Bool.and_eq_true] at h
    rw [Node.isFloatFree] at hf
    rw [Node.avoidsNil] at hn
    have ih := Node.recovered_of_isExpr value h.2 hf hn
    refine .of_form rfl (by decide) ih.whole ?_ ?_
    · simp only [Datum.areProper, SExpr.isProper_name h.1, ih.proper, Bool.and_self]
    · show Node.assignment .origin name value.datum.node = _
      rw [ih.read, Node.bare]
  | ret tok value =>
    rw [Node.isStatement] at h
    rw [Node.isFloatFree] at hf
    rw [Node.avoidsNil] at hn
    have ih := Node.recovered_of_optional h hf hn
    refine .of_form rfl (by decide) ih.whole ?_ ?_
    · simp only [Datum.areProper, ih.proper, Bool.and_self]
    · show Node.ret .origin value.datum.node = _
      rw [ih.read, Node.bare]
  | definition tok name params bodyTok body =>
    simp only [Node.isStatement, Bool.and_eq_true] at h
    rw [Node.isFloatFree] at hf
    rw [Node.avoidsNil] at hn
    have ih := Node.allRecovered_of_areStatements body h.2 hf hn
    have hparams : (params.map Datum.word).map Datum.name = params := by
      rw [List.map_map]
      exact List.map_id params
    have hlist : (Datum.list (params.map .word)).isProper = true := SExpr.areProper_names h.1.1.2
    refine .of_form rfl (by decide) ih.whole ?_ ?_
    · simp only [Datum.areProper, SExpr.isProper_name h.1.1.1, hlist, ih.isProper_body,
        Bool.and_self]
    · show Node.definition .origin name ((params.map Datum.word).map Datum.name) .origin
        (Datum.nodes (Node.data body)) = _
      rw [hparams, ih.read, Node.bare]
  | conditional tok branches =>
    rw [Node.isStatement, Bool.and_eq_true] at h
    rw [Node.isFloatFree] at hf
    rw [Node.avoidsNil] at hn
    have ih := Branches.recovered branches h.2 hf hn
    refine .of_form rfl (by decide) ih.whole ih.proper ?_
    show Node.conditional .origin (Datum.branches branches.data) = _
    rw [ih.read, Node.bare]
  | loop tok condition bodyTok body =>
    simp only [Node.isStatement, Bool.and_eq_true] at h
    rw [Node.isFloatFree, Bool.and_eq_true] at hf
    rw [Node.avoidsNil, Bool.and_eq_true] at hn
    have hc := Node.recovered_of_isExpr condition h.1.1 hf.1 hn.1
    have hb := Node.allRecovered_of_areStatements body h.2 hf.2 hn.2
    refine .of_form rfl (by decide) ?_ ?_ ?_
    · rw [Node.isWhole, hc.whole, hb.whole, Bool.true_and]
    · simp only [Datum.areProper, hc.proper, hb.isProper_body, Bool.and_self]
    · show Node.loop .origin condition.datum.node .origin (Datum.nodes (Node.data body)) = _
      rw [hc.read, hb.read, Node.bare]
  | missing | block | nil => simp [Node.isStatement, Node.isExpr] at h
  | reference | integer | float | string | boolean | unary | binary | call | select =>
    exact Node.recovered_of_isExpr _ (by simpa only [Node.isStatement] using h) hf hn

/-- Statements without doubles that do not refer to nil are recovered. -/
theorem Node.allRecovered_of_areStatements (ns : List Node) (h : Node.areStatements ns = true)
    (hf : Node.areFloatFree ns = true) (hn : Node.allAvoidNil ns = true) :
    Node.AllRecovered ns := by
  cases ns with
  | nil => exact .nil
  | cons n rest =>
    rw [Node.areStatements, Bool.and_eq_true] at h
    rw [Node.areFloatFree, Bool.and_eq_true] at hf
    rw [Node.allAvoidNil, Bool.and_eq_true] at hn
    exact .cons (Node.recovered_of_isStatement n h.1 hf.1 hn.1)
      (Node.allRecovered_of_areStatements rest h.2 hf.2 hn.2)

/-- Branches without doubles that do not refer to nil are recovered. -/
theorem Branches.recovered (bs : Branches) (h : bs.areWellFormed = true)
    (hf : bs.isFloatFree = true) (hn : bs.avoidNil = true) : bs.Recovered := by
  cases bs with
  | done => exact ⟨rfl, rfl, rfl⟩
  | otherwise bodyTok body =>
    rw [Branches.areWellFormed, Bool.and_eq_true] at h
    rw [Branches.isFloatFree] at hf
    rw [Branches.avoidNil] at hn
    have ih := Node.allRecovered_of_areStatements body h.2 hf hn
    refine ⟨ih.whole, ?_, ?_⟩
    · rw [Branches.data, Datum.areProper, Datum.areProper, Bool.and_true]
      exact Datum.isProper_form (by decide) ih.proper
    · rw [Branches.data, Datum.branches, ih.read, Branches.bare]
  | guarded condition bodyTok body rest =>
    simp only [Branches.areWellFormed, Bool.and_eq_true] at h
    simp only [Branches.isFloatFree, Bool.and_eq_true] at hf
    simp only [Branches.avoidNil, Bool.and_eq_true] at hn
    have hc := Node.recovered_of_isExpr condition h.1.1.1.1 hf.1.1 hn.1.1
    have hb := Node.allRecovered_of_areStatements body h.1.1.2 hf.1.2 hn.1.2
    have ih := Branches.recovered rest h.2 hf.2 hn.2
    refine ⟨?_, ?_, ?_⟩
    · rw [Branches.isWhole, hc.whole, hb.whole, ih.whole, Bool.true_and, Bool.true_and]
    · simp only [Branches.data, Datum.areProper, hc.proper, hb.isProper_body, ih.proper,
        Bool.and_self]
    · rw [Branches.data, Datum.branches, hc.read, hb.read, ih.read, Branches.bare]

end

/-! ## What is written determines the tree -/

mutual

/-- What is written does not depend on the places of the tokens. -/
theorem Node.datum_bare (n : Node) : n.bare.datum = n.datum := by
  cases n with
  | missing | reference | integer | float | string | boolean | nil => rfl
  | block tok statements => rw [Node.bare, Node.datum, Node.datum, Node.data_allBare]
  | declaration tok name value => rw [Node.bare, Node.datum, Node.datum, Node.datum_bare value]
  | assignment tok name value => rw [Node.bare, Node.datum, Node.datum, Node.datum_bare value]
  | unary tok operator operand => rw [Node.bare, Node.datum, Node.datum, Node.datum_bare operand]
  | binary tok operator left right =>
    rw [Node.bare, Node.datum, Node.datum, Node.datum_bare left, Node.datum_bare right]
  | definition tok name params bodyTok body =>
    rw [Node.bare, Node.datum, Node.datum, Node.data_allBare]
  | call tok name args => rw [Node.bare, Node.datum, Node.datum, Node.data_allBare]
  | conditional tok branches => rw [Node.bare, Node.datum, Node.datum, Branches.data_bare]
  | loop tok condition bodyTok body =>
    rw [Node.bare, Node.datum, Node.datum, Node.datum_bare condition, Node.data_allBare]
  | ret tok value => rw [Node.bare, Node.datum, Node.datum, Node.datum_bare value]
  | select tok subject arms =>
    rw [Node.bare, Node.datum, Node.datum, Node.datum_bare subject, Arms.data_bare]

/-- The data of nodes do not depend on their tokens. -/
theorem Node.data_allBare (ns : List Node) : Node.data (Node.allBare ns) = Node.data ns := by
  cases ns with
  | nil => rfl
  | cons n rest =>
    rw [Node.allBare, Node.data, Node.data, Node.datum_bare n, Node.data_allBare rest]

/-- The data of branches do not depend on their tokens. -/
theorem Branches.data_bare (bs : Branches) : bs.bare.data = bs.data := by
  cases bs with
  | done => rfl
  | otherwise bodyTok body => rw [Branches.bare, Branches.data, Branches.data, Node.data_allBare]
  | guarded condition bodyTok body rest =>
    rw [Branches.bare, Branches.data, Branches.data, Node.datum_bare condition,
      Node.data_allBare, Branches.data_bare rest]

/-- The data of arms do not depend on their tokens. -/
theorem Arms.data_bare (arms : Arms) : arms.bare.data = arms.data := by
  cases arms with
  | done => rfl
  | pattern tok pattern result rest =>
    rw [Arms.bare, Arms.data, Arms.data, Node.datum_bare pattern, Node.datum_bare result,
      Arms.data_bare rest]
  | wildcard tok result rest =>
    rw [Arms.bare, Arms.data, Arms.data, Node.datum_bare result, Arms.data_bare rest]

end

/-- The program that a datum stands for. Its head is not looked at, since a function may have the
same name. -/
def SExpr.Datum.program : Datum → Node
  | .list (_ :: items) => .block .origin (Datum.nodes items)
  | _ => .missing

/-- A program is written as its datum, which is proper, and read back from it. -/
theorem Node.sexpr?_program {tree : Node} (h : tree.isProgram = true)
    (hf : tree.isFloatFree = true) (hn : tree.avoidsNil = true) :
    tree.sexpr? = some (String.ofList (tree.datum.spell [])) ∧ tree.datum.isProper = true ∧
      tree.datum.program = tree.bare := by
  cases tree with
  | block tok statements =>
    rw [Node.isProgram] at h
    rw [Node.isFloatFree] at hf
    rw [Node.avoidsNil] at hn
    have ih := Node.allRecovered_of_areStatements statements h hf hn
    have hwhole : (Node.block tok statements).isWhole = true := ih.whole
    refine ⟨?_, ih.isProper_body, ?_⟩
    · rw [Node.sexpr?, if_pos hwhole, Node.spell_eq]
    · rw [Node.datum, Datum.program, ih.read, Node.bare]
  | _ => simp [Node.isProgram] at h

/-- The s-expression of a source determines its tree up to the places of its tokens, if no number
has a point and no variable is called `nil`: every such tree has an s-expression, and two of them
have the same one exactly if they are equal without their places. -/
theorem sexpr_determines_tree {text text' : Text} {tree tree' : Node}
    (h : (Parse.ofText text).outcome = .ok tree) (h' : (Parse.ofText text').outcome = .ok tree')
    (hf : tree.isFloatFree = true) (hf' : tree'.isFloatFree = true)
    (hn : tree.avoidsNil = true) (hn' : tree'.avoidsNil = true) :
    (∃ s, tree.sexpr? = some s) ∧ (tree.sexpr? = tree'.sexpr? ↔ tree.bare = tree'.bare) := by
  have hprogram := Parse.ofText_sound text
  have hprogram' := Parse.ofText_sound text'
  rw [h] at hprogram
  rw [h'] at hprogram'
  obtain ⟨hsexpr, hproper, hread⟩ := Node.sexpr?_program hprogram hf hn
  obtain ⟨hsexpr', hproper', hread'⟩ := Node.sexpr?_program hprogram' hf' hn'
  refine ⟨⟨_, hsexpr⟩, ?_, ?_⟩
  · intro heq
    rw [hsexpr, hsexpr', Option.some.injEq, String.ofList_inj] at heq
    have hdatum := (Datum.spell_inj _ _ hproper hproper' SExpr.ends_nil SExpr.ends_nil heq).1
    rw [← hread, ← hread', hdatum]
  · intro hbare
    rw [hsexpr, hsexpr', ← Node.datum_bare tree, ← Node.datum_bare tree', hbare]

/-- Two layouts of a program whose function and variable are both called `do`, and which has both
signs of minus and a text that looks like a call. -/
theorem sexpr_determines_tree_layouts :
    ∃ tree tree',
      (Parse.ofText (.ofString "if do:\n  do(\"(do do)\", -1 - do)\nelse:\n  do")).outcome =
        .ok tree ∧
      (Parse.ofText (.ofString
        "if (do): // again\n    do(\"(do do)\",(-1)-(do))\n\nelse:\n do\n")).outcome = .ok tree' ∧
      tree.sexpr? = some "(do (if do (do (do \"(do do)\" (- (- 1) do))) (else do)))" ∧
      tree.bare = tree'.bare := by
  have hread : ∀ (text : Text) (s : String), ((Parse.ofText text).outcome.toOption.any fun tree =>
      tree.isFloatFree && tree.avoidsNil && tree.sexpr? == some s) = true →
      ∃ tree, (Parse.ofText text).outcome = .ok tree ∧ tree.isFloatFree = true ∧
        tree.avoidsNil = true ∧ tree.sexpr? = some s := by
    intro text s h
    cases hparse : (Parse.ofText text).outcome with
    | error e => simp [hparse, Except.toOption] at h
    | ok tree =>
      simp only [hparse, Except.toOption, Option.any_some, Bool.and_eq_true, beq_iff_eq] at h
      exact ⟨tree, rfl, h.1.1, h.1.2, h.2⟩
  obtain ⟨tree, h, hf, hn, hs⟩ := hread
    (.ofString "if do:\n  do(\"(do do)\", -1 - do)\nelse:\n  do")
    "(do (if do (do (do \"(do do)\" (- (- 1) do))) (else do)))" (by decide +kernel)
  obtain ⟨tree', h', hf', hn', hs'⟩ := hread
    (.ofString "if (do): // again\n    do(\"(do do)\",(-1)-(do))\n\nelse:\n do\n")
    "(do (if do (do (do \"(do do)\" (- (- 1) do))) (else do)))" (by decide +kernel)
  exact ⟨tree, tree', h, h', hs,
    (sexpr_determines_tree h h' hf hf' hn hn').2.mp (hs.trans hs'.symm)⟩

end Offside
