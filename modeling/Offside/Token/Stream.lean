import Offside.Token.Scan

/-!
# The tokens of a whole source

Repeated scans of a source give its tokens up to the end or up to the first stop. Every scan that
gives a token other than the end leaves a shorter source, so the list is finite.
-/

set_option autoImplicit false

namespace Offside

namespace Scan

/-- Passing over a gap leaves no more spots than there were. -/
theorem length_afterGap_le (inComment : Bool) (spots : List Spot) :
    (afterGap inComment spots).length ≤ spots.length := by
  induction spots generalizing inComment with
  | nil => cases inComment <;> simp [afterGap]
  | cons s rest ih =>
    have h₁ := ih true
    have h₂ := ih false
    cases inComment <;> simp only [afterGap] <;> (repeat' split) <;> simp <;> omega

/-- A number's tail leaves no more spots than there were. -/
theorem length_numberTail_rest_le (broken hasPoint : Bool) (spots : List Spot) :
    (numberTail broken hasPoint spots).rest.length ≤ spots.length := by
  induction spots generalizing hasPoint with
  | nil => simp [numberTail]
  | cons s rest ih =>
    have h₁ := ih hasPoint
    have h₂ := ih true
    simp only [numberTail]
    (repeat' split) <;> simp <;> omega

/-- A string's tail leaves no more spots than there were. -/
theorem length_stringTail_rest_le (broken : Bool) (spots : List Spot) :
    (stringTail broken spots).rest.length ≤ spots.length := by
  fun_induction stringTail broken spots <;> simp +zetaDelta <;> omega

/-- A lexeme leaves no more spots than follow its first one. -/
theorem length_lexemeAt_le (broken : Bool) (s : Spot) (rest : List Spot) :
    (lexemeAt broken s rest).2.length ≤ rest.length := by
  have h₁ := length_numberTail_rest_le broken false rest
  have h₂ := length_stringTail_rest_le broken rest
  have h₃ := (List.dropWhile_sublist (l := rest) fun r => continuesName r.char).length_le
  simp only [lexemeAt, extensibleSign, plainSign, string, number, word, invalid, lexeme]
  (repeat' split) <;> simp_all

end Scan

namespace Source

/-- A scan that gives a token other than the end leaves a shorter source. -/
theorem scan_shortens {s left : Source} {t : Token} (h : s.scan = (.ok t, left))
    (ht : t.kind ≠ .endOfInput) : left.rest.length < s.rest.length := by
  have hgap := Scan.length_afterGap_le false s.rest
  unfold scan at h
  split at h
  · simp only [final] at h
    split at h
    · simp at h
    · simp only [Prod.mk.injEq, Except.ok.injEq] at h
      exact absurd (by rw [← h.1]) ht
  · rename_i first rest heq
    have hlex := Scan.length_lexemeAt_le s.broken first rest
    rw [heq] at hgap
    simp only [Prod.mk.injEq] at h
    rw [← h.2]
    simp at hgap ⊢
    omega

end Source

/-- The tokens of a source: those before its end, and then the token of the end, or the reason why
reading stops, which stays in force from there on. -/
structure TokenStream where
  /-- The tokens before the end. -/
  front : List Token
  /-- What every look beyond them gives. -/
  final : Except Halt Token

namespace Source

/-- The tokens of a source up to its end or up to the first stop. -/
def stream (s : Source) : TokenStream :=
  match h : s.scan with
  | (.error e, _) => ⟨[], .error e⟩
  | (.ok t, left) =>
      if ht : t.kind = .endOfInput then ⟨[], .ok t⟩
      else
        have : left.rest.length < s.rest.length := scan_shortens h ht
        let more := stream left
        { more with front := t :: more.front }
termination_by s.rest.length

end Source

namespace TokenStream

/-- The tokens of a text. -/
def ofText (t : Text) : TokenStream := (Source.ofText t false).stream

/-- All tokens that were read, the end included. -/
def toList (s : TokenStream) : List Token :=
  match s.final with
  | .ok t => s.front ++ [t]
  | .error _ => s.front

/-- The reason why reading stopped before the end of the source. -/
def halt? (s : TokenStream) : Option Halt :=
  match s.final with
  | .ok _ => none
  | .error h => some h

end TokenStream

end Offside
