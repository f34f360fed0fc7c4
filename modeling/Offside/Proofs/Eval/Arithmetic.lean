import Offside.Eval.Step
import Offside.Proofs.Scope.Handles
import Mathlib.Data.Rat.Floor

/-!
# Arithmetic on whole numbers

Sums, differences, products and signs wrap around at every node of an expression. Wrapping around is
reduction modulo the number of words, which commutes with these operations, so the result is the
exact value of the whole expression, reduced once (`Arithmetic.settles`).

The remainder wraps around nowhere. It starts as the remainder of the division that truncates, and
where that lies on the wrong side of zero the divisor is added to it: a number of the opposite sign,
so that the sum is no greater in size than the divisor. What comes out has the three properties of
the remainder of a division that rounds down (`IsFlooredRemainder`), and only one number has them.
-/

set_option autoImplicit false

namespace Offside

/-! ## Expressions that change nothing -/

/-- With enough fuel, and whatever the limit for calls is, the expression has the value and leaves
the machine as it is. -/
def Settles (m : Machine) (slot : Nat) (e : Node) (v : Value) : Prop :=
  ∃ enough, ∀ maxDepth fuel, enough ≤ fuel → eval maxDepth fuel slot e m = .ok v m

/-- An operator in front of an operand that has a value is applied to that value. -/
theorem eval_unary {maxDepth : Int} {fuel slot : Nat} {m m₁ : Machine} {operand : Node} {v : Value}
    (h : eval maxDepth fuel slot operand m = .ok v m₁) (tok : Token) (op : Kind) :
    eval maxDepth (fuel + 1) slot (.unary tok op operand) m =
      Eval.lift (Operator.unary op tok.pos v) m₁ := by
  show (eval maxDepth fuel slot operand >>= fun v => Eval.lift (Operator.unary op tok.pos v)) m = _
  simp only [bind, EStateM.bind, h]

/-- An operator between operands that have values is applied to those values. -/
theorem eval_binary {maxDepth : Int} {fuel slot : Nat} {m m₁ m₂ : Machine} {left right : Node}
    {l r : Value} (hl : eval maxDepth fuel slot left m = .ok l m₁)
    (hr : eval maxDepth fuel slot right m₁ = .ok r m₂) (tok : Token) (op : Kind) :
    eval maxDepth (fuel + 1) slot (.binary tok op left right) m =
      Eval.lift (Operator.binary op tok.pos l r) m₂ := by
  show (eval maxDepth fuel slot left >>= fun l => eval maxDepth fuel slot right >>= fun r =>
    Eval.lift (Operator.binary op tok.pos l r)) m = _
  simp only [bind, EStateM.bind, hl, hr]

namespace Settles

variable {m : Machine} {slot : Nat} {v l r : Value}

/-- A literal settles to its number. -/
theorem integer (tok : Token) (n : Int64) : Settles m slot (.integer tok n) (.int n) := by
  refine ⟨1, fun maxDepth fuel hfuel => ?_⟩
  obtain ⟨k, rfl⟩ := Nat.exists_eq_add_of_le' hfuel
  rfl

/-- The value of a name is the one that a walk along the parents finds. -/
theorem reference {name : String} {i : Nat} (h : m.scopes.Walks name (some slot) (.found i v))
    (tok : Token) : Settles m slot (.reference tok name) v := by
  refine ⟨1, fun maxDepth fuel hfuel => ?_⟩
  obtain ⟨k, rfl⟩ := Nat.exists_eq_add_of_le' hfuel
  show Run.lookup slot name m = _
  simp only [Run.lookup, Scopes.get, h.find_eq]

/-- An operator that gives a result for the value of its operand settles to that result. -/
theorem unary {operand : Node} (h : Settles m slot operand v) {op : Kind} {tok : Token}
    {result : Value} (hop : Operator.unary op tok.pos v = .ok result) :
    Settles m slot (.unary tok op operand) result := by
  obtain ⟨enough, heval⟩ := h
  refine ⟨enough + 1, fun maxDepth fuel hfuel => ?_⟩
  obtain ⟨k, rfl⟩ := Nat.exists_eq_add_of_le' hfuel
  rw [← Nat.add_assoc, eval_unary (heval maxDepth (k + enough) (by omega)), hop]
  rfl

/-- An operator that gives a result for the values of its operands settles to that result. -/
theorem binary {left right : Node} (hl : Settles m slot left l) (hr : Settles m slot right r)
    {op : Kind} {tok : Token} {result : Value} (hop : Operator.binary op tok.pos l r = .ok result) :
    Settles m slot (.binary tok op left right) result := by
  obtain ⟨enoughLeft, hleft⟩ := hl
  obtain ⟨enoughRight, hright⟩ := hr
  refine ⟨enoughLeft + enoughRight + 1, fun maxDepth fuel hfuel => ?_⟩
  obtain ⟨k, rfl⟩ := Nat.exists_eq_add_of_le' hfuel
  have hl := hleft maxDepth (k + (enoughLeft + enoughRight)) (by omega)
  have hr := hright maxDepth (k + (enoughLeft + enoughRight)) (by omega)
  rw [← Nat.add_assoc, eval_binary hl hr, hop]
  rfl

end Settles

/-! ## Sums, differences, products and signs -/

/-- The expression is built from whole numbers, names that stand for whole numbers as seen from the
slot, signs, sums, differences and products, and `x` is its exact value. -/
inductive Arithmetic (s : Scopes) (slot : Nat) : Node → (x : Int) → Prop
  | integer (tok : Token) (n : Int64) : Arithmetic s slot (.integer tok n) n.toInt
  | reference (tok : Token) {name : String} {i : Nat} {n : Int64}
      (h : s.Walks name (some slot) (.found i (.int n))) :
      Arithmetic s slot (.reference tok name) n.toInt
  | positive (tok : Token) {e : Node} {x : Int} (h : Arithmetic s slot e x) :
      Arithmetic s slot (.unary tok .plus e) x
  | negative (tok : Token) {e : Node} {x : Int} (h : Arithmetic s slot e x) :
      Arithmetic s slot (.unary tok .minus e) (-x)
  | sum (tok : Token) {left right : Node} {x y : Int} (hl : Arithmetic s slot left x)
      (hr : Arithmetic s slot right y) : Arithmetic s slot (.binary tok .plus left right) (x + y)
  | difference (tok : Token) {left right : Node} {x y : Int} (hl : Arithmetic s slot left x)
      (hr : Arithmetic s slot right y) : Arithmetic s slot (.binary tok .minus left right) (x - y)
  | product (tok : Token) {left right : Node} {x y : Int} (hl : Arithmetic s slot left x)
      (hr : Arithmetic s slot right y) : Arithmetic s slot (.binary tok .times left right) (x * y)

/-- The value of an arithmetic expression is its exact value, reduced to a word. -/
theorem Arithmetic.settles {m : Machine} {slot : Nat} {e : Node} {x : Int}
    (h : Arithmetic m.scopes slot e x) : Settles m slot e (.int (.ofInt x)) := by
  induction h with
  | integer tok n =>
    rw [Int64.ofInt_toInt]
    exact .integer tok n
  | reference tok hname =>
    rw [Int64.ofInt_toInt]
    exact .reference hname tok
  | positive tok _ ih => exact ih.unary rfl
  | negative tok _ ih =>
    rw [Int64.ofInt_neg]
    exact ih.unary rfl
  | sum tok _ _ ihl ihr =>
    rw [Int64.ofInt_add]
    exact ihl.binary ihr rfl
  | difference tok _ _ ihl ihr =>
    rw [Int64.ofInt_sub]
    exact ihl.binary ihr rfl
  | product tok _ _ ihl ihr =>
    rw [Int64.ofInt_mul]
    exact ihl.binary ihr rfl

/-- An expression of whole numbers, names that stand for whole numbers, signs, sums, differences and
products has a value in every state and changes nothing. The value is the whole number that the
exact value is when it is reduced to the range of words, so it is exact if the exact value lies in
that range, whatever happened on the way. -/
theorem integer_arithmetic_reduces_exact_value {m : Machine} {slot : Nat} {e : Node} {x : Int}
    (h : Arithmetic m.scopes slot e x) :
    ∃ n : Int64, Settles m slot e (.int n) ∧ n.toInt = x.bmod Int64.size ∧
      (Int64.minValue.toInt ≤ x → x ≤ Int64.maxValue.toInt → n.toInt = x) := by
  refine ⟨.ofInt x, h.settles, Int64.toInt_ofInt, fun hmin hmax => ?_⟩
  exact Int64.toInt_ofInt_of_le hmin (Int.lt_of_le_of_lt hmax (by decide))

/-- From a frame whose parent binds `a` to a quarter of the number of words, the negation of the
smallest number less `a` is `a`: both the negation and the difference wrap around, and the exact
value lies in the range again. -/
theorem integer_arithmetic_reduces_exact_value_twice_wrapped :
    let root : Frame := ⟨[("a", .int 4611686018427387904)], none⟩
    let inner : Frame := ⟨[("b", .string [])], some 0⟩
    let m : Machine := ⟨⟨#[root, inner]⟩, 0, [], false, [], none, none, 0, []⟩
    let smallest := Node.integer .origin Int64.minValue
    let e := Node.binary .origin .minus (.unary .origin .minus smallest) (.reference .origin "a")
    Arithmetic m.scopes 1 e (9223372036854775808 - 4611686018427387904) ∧
      Settles m 1 e (.int 4611686018427387904) := by
  intro root inner m smallest e
  have ha : m.scopes.Walks "a" (some 1) (.found 0 (.int 4611686018427387904)) :=
    .outward (f := inner) rfl rfl (.found (f := root) rfl rfl)
  have hsmallest : Arithmetic m.scopes 1 smallest (-9223372036854775808) :=
    .integer .origin Int64.minValue
  have he : Arithmetic m.scopes 1 e (9223372036854775808 - 4611686018427387904) :=
    .difference .origin (.negative .origin hsmallest) (.reference .origin ha)
  obtain ⟨n, hn, -, hexact⟩ := integer_arithmetic_reduces_exact_value he
  have hvalue : n = 4611686018427387904 := Int64.toInt_inj.mp (hexact (by decide) (by decide))
  exact ⟨he, hvalue ▸ hn⟩

/-! ## Remainders -/

/-- `z` is the remainder of `l` in a division by `r` that rounds down. -/
structure IsFlooredRemainder (l r z : Int) : Prop where
  dvd : r ∣ l - z
  side : z = 0 ∨ z.sign = r.sign
  small : |z| < |r|

/-- The last two properties say that the remainder lies between zero, which it may be, and the
divisor, which it is not. -/
theorem isFlooredRemainder_iff {l r z : Int} :
    IsFlooredRemainder l r z ↔ r ∣ l - z ∧ (0 ≤ z ∧ z < r ∨ r < z ∧ z ≤ 0) := by
  have hsign : z.sign = r.sign ↔ (0 < z ∧ 0 < r) ∨ (z = 0 ∧ r = 0) ∨ (z < 0 ∧ r < 0) := by
    rcases lt_trichotomy z 0 with hz | rfl | hz <;> rcases lt_trichotomy r 0 with hr | rfl | hr <;>
      simp [Int.sign_eq_neg_one_of_neg, Int.sign_eq_one_of_pos, *] <;> omega
  constructor
  · rintro ⟨hdvd, hside, hsmall⟩
    rw [Int.abs_eq_natAbs, Int.abs_eq_natAbs] at hsmall
    rw [hsign] at hside
    exact ⟨hdvd, by omega⟩
  · rintro ⟨hdvd, hbetween⟩
    refine ⟨hdvd, ?_, ?_⟩
    · rw [hsign]
      omega
    · rw [Int.abs_eq_natAbs, Int.abs_eq_natAbs]
      omega

/-- A floored remainder is what the quotient, rounded down, leaves. -/
theorem IsFlooredRemainder.eq_sub_floor {l r z : Int} (h : IsFlooredRemainder l r z) :
    z = l - r * ⌊(l : ℚ) / r⌋ := by
  obtain ⟨⟨q, hq⟩, hbetween⟩ := isFlooredRemainder_iff.mp h
  have hr : (r : ℚ) ≠ 0 := Int.cast_ne_zero.mpr (by omega)
  have hsplit : (l : ℚ) / r = (q : ℚ) + (z : ℚ) / r := by
    have hl : (l : ℚ) = r * q + z := by
      rw [← Int.cast_mul, ← Int.cast_add, ← hq, sub_add_cancel]
    rw [hl, add_div, mul_div_cancel_left₀ _ hr]
  have hpart : 0 ≤ (z : ℚ) / r ∧ (z : ℚ) / r < 1 := by
    rcases hbetween with ⟨hz, hlt⟩ | ⟨hlt, hz⟩
    · have hpos : (0 : ℚ) < r := Int.cast_pos.mpr (by omega)
      exact ⟨div_nonneg (Int.cast_nonneg hz) hpos.le, (div_lt_one hpos).mpr (Int.cast_lt.mpr hlt)⟩
    · have hneg : (r : ℚ) < 0 := Int.cast_lt_zero.mpr (by omega)
      exact ⟨div_nonneg_of_nonpos (Int.cast_nonpos.mpr hz) hneg.le,
        (div_lt_one_of_neg hneg).mpr (Int.cast_lt.mpr hlt)⟩
  have hfloor : ⌊(l : ℚ) / r⌋ = q := by
    rw [hsplit, Int.floor_intCast_add, Int.floor_eq_zero_iff.mpr hpart, add_zero]
  rw [hfloor, ← hq, sub_sub_cancel]

namespace Operator

variable {l r : Int64}

/-- The remainder of the truncating division is kept if it lies between zero and the divisor.
Otherwise it lies between zero and the opposite of the divisor, and the divisor is added, which does
not wrap around. -/
theorem flooredMod_cases (hr : r ≠ 0) :
    let t := (l % r).toInt
    (flooredMod l r = l % r ∧ (0 ≤ t ∧ t < r.toInt ∨ r.toInt < t ∧ t ≤ 0)) ∨
      flooredMod l r = l % r + r ∧ (l % r + r).toInt = t + r.toInt ∧
        (0 < t ∧ t < -r.toInt ∨ -r.toInt < t ∧ t < 0) := by
  have hdivisor : r.toInt ≠ 0 := fun h => hr (Int64.toInt_inj.mp h)
  have hsize : (l % r).toInt.natAbs < r.toInt.natAbs := by
    rw [Int64.toInt_mod, Int.natAbs_tmod]
    exact Nat.mod_lt _ (Int.natAbs_pos.mpr hdivisor)
  have hzero : l % r ≠ 0 ↔ (l % r).toInt ≠ 0 := Int64.toInt_inj.not.symm
  have hmin := r.le_toInt
  have hmax := r.toInt_lt
  unfold flooredMod
  simp only [Bool.and_eq_true, bne_iff_ne, ne_eq, decide_eq_decide, Int64.lt_iff_toInt_lt,
    Int64.toInt_zero, hzero]
  split
  · rename_i hwrong
    obtain ⟨hne, hsides⟩ := hwrong
    refine .inr ⟨rfl, ?_, by omega⟩
    rw [Int64.toInt_add]
    exact Int.bmod_eq_of_le (by omega) (by omega)
  · exact .inl ⟨rfl, by omega⟩

/-- The remainder that `%` gives has the sign of the divisor and is smaller than it. -/
theorem isFlooredRemainder_flooredMod (hr : r ≠ 0) :
    IsFlooredRemainder l.toInt r.toInt (flooredMod l r).toInt := by
  have hdvd : r.toInt ∣ l.toInt - (l % r).toInt := by
    rw [Int64.toInt_mod]
    exact Int.dvd_self_sub_tmod
  rw [isFlooredRemainder_iff]
  rcases flooredMod_cases hr with ⟨heq, hbetween⟩ | ⟨heq, hexact, hopposite⟩
  · rw [heq]
    exact ⟨hdvd, hbetween⟩
  · rw [heq, hexact, ← sub_sub]
    exact ⟨Int.dvd_sub hdvd (Int.dvd_refl _), by omega⟩

end Operator

/-- The remainder of two operands with the values `l` and `r`, for all whole numbers `l` and `r`. If
`r` is not zero, it is `l` less `r` times the quotient rounded down, which is the only number that
differs from `l` by a multiple of `r`, is zero or has the sign of `r`, and is smaller in size than
`r`. It is found without wrapping around: as the remainder of the division that truncates, to which
`r` is added if need be. If `r` is zero, the evaluation stops with a fault at the place of the
operator. -/
theorem integer_remainder_is_floored {maxDepth : Int} {fuel slot : Nat} {left right : Node}
    {m m₁ m₂ : Machine} {l r : Int64} (hl : eval maxDepth fuel slot left m = .ok (.int l) m₁)
    (hr : eval maxDepth fuel slot right m₁ = .ok (.int r) m₂) (tok : Token) :
    (r ≠ 0 → ∃ k : Int64,
      eval maxDepth (fuel + 1) slot (.binary tok .modulo left right) m = .ok (.int k) m₂ ∧
      k.toInt = l.toInt - r.toInt * ⌊(l.toInt : ℚ) / r.toInt⌋ ∧
      (∀ z, IsFlooredRemainder l.toInt r.toInt z ↔ z = k.toInt) ∧
      (l % r).toInt = l.toInt.tmod r.toInt ∧
      (k = l % r ∨ k = l % r + r ∧ (l % r + r).toInt = (l % r).toInt + r.toInt)) ∧
    (r = 0 → eval maxDepth (fuel + 1) slot (.binary tok .modulo left right) m =
      .error (.fault (.divisionByZero tok.pos)) m₂) := by
  have heval := eval_binary hl hr tok .modulo
  constructor
  · intro hne
    have hfloored := Operator.isFlooredRemainder_flooredMod (l := l) hne
    refine ⟨Operator.flooredMod l r, ?_, hfloored.eq_sub_floor, fun z => ⟨?_, ?_⟩,
      Int64.toInt_mod l r, ?_⟩
    · rw [heval]
      show Eval.lift (if r = 0 then _ else _) m₂ = _
      rw [if_neg hne]
      rfl
    · intro hz
      exact hz.eq_sub_floor.trans hfloored.eq_sub_floor.symm
    · rintro rfl
      exact hfloored
    · rcases Operator.flooredMod_cases (l := l) hne with ⟨heq, -⟩ | ⟨heq, hexact, -⟩
      · exact .inl heq
      · exact .inr ⟨heq, hexact⟩
  · rintro rfl
    exact heval

/-- At the ends of the range: one modulo the smallest number is the negation of the greatest one,
the smallest number modulo minus one is zero, and modulo zero it has no remainder. -/
theorem integer_remainder_is_floored_extremes :
    let remainder (l r : Int64) :=
      eval 0 2 0 (.binary .origin .modulo (.integer .origin l) (.integer .origin r)) default
    remainder 1 Int64.minValue = .ok (.int (-9223372036854775807)) default ∧
      remainder Int64.minValue (-1) = .ok (.int 0) default ∧
      remainder Int64.minValue 0 = .error (.fault (.divisionByZero .start)) default := by
  intro remainder
  have hliteral (n : Int64) : eval 0 1 0 (.integer .origin n) default = .ok (.int n) default := rfl
  have hall (l r : Int64) := integer_remainder_is_floored (hliteral l) (hliteral r) .origin
  have hgives : ∀ l r k : Int64, r ≠ 0 → IsFlooredRemainder l.toInt r.toInt k.toInt →
      remainder l r = .ok (.int k) default := by
    intro l r k hr hk
    obtain ⟨k', heval, -, hunique, -⟩ := (hall l r).1 hr
    rw [Int64.toInt_inj.mp ((hunique k.toInt).mp hk)]
    exact heval
  refine ⟨hgives _ _ _ (by decide) ?_, hgives _ _ _ (by decide) ?_, (hall _ 0).2 rfl⟩
  · exact isFlooredRemainder_iff.mpr (by decide)
  · exact isFlooredRemainder_iff.mpr (by decide)

end Offside
