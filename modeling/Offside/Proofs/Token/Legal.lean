import Offside.Token.Stream
import Mathlib.Tactic.Common

/-!
# The tokens of a text are legal

No token in front of the end of a stream is itself an end, and the value of an identifier is a name.
A text is never refused, so its stream ends with the end of the source or with a fault.
-/

set_option autoImplicit false

namespace Offside

/-- Whether a string is an identifier and no reserved word. -/
def isName (s : String) : Bool :=
  match s.toList with
  | [] => false
  | c :: rest =>
      Scan.startsName c && rest.all Scan.continuesName && Kind.ofWord s == .identifier

/-- The token can stand in front of the end of a stream. -/
structure Token.Legal (t : Token) : Prop where
  notEnd : t.kind ≠ .endOfInput
  named : t.kind = .identifier → isName t.value = true

/-- The stop is a fault of the script. -/
def Halt.IsFault (h : Halt) : Prop := ∃ f, h = .fault f

namespace Scan

/-- What a scan gives is a legal token or a fault. -/
def Gives (outcome : Except Halt Token) : Prop :=
  match outcome with
  | .ok t => t.Legal
  | .error h => h.IsFault

variable {s : Spot} {rest : List Spot}

/-- A token that is neither the end of the input nor an identifier is legal. -/
theorem gives_lexeme {kind : Kind} {chars : List Char} (hend : kind ≠ .endOfInput)
    (hname : kind ≠ .identifier) : Gives (lexeme kind chars s.pos rest).1 :=
  ⟨hend, fun h => absurd h hname⟩

/-- A character that starts no token is a fault. -/
theorem gives_invalid : Gives (invalid s rest).1 := ⟨_, rfl⟩

/-- A sign is a legal token. -/
theorem gives_plainSign {c : Char} {kind : Kind} (h : sign? c = some kind) :
    Gives (plainSign false kind s rest).1 := by
  unfold plainSign
  simp only [Bool.and_false, Bool.false_and, Bool.false_eq_true, if_false]
  apply gives_lexeme
  · rintro rfl
    unfold sign? at h
    split at h <;> simp at h
  · rintro rfl
    unfold sign? at h
    split at h <;> simp at h

/-- A sign that may be extended is a legal token or a fault. -/
theorem gives_extensibleSign {c : Char} {e : Extensible} (h : extensible? c = some e) :
    Gives (extensibleSign false e s rest).1 := by
  have hkinds : (e.extended ≠ .endOfInput ∧ e.extended ≠ .identifier) ∧
      ∀ k, e.alone = some k → k ≠ .endOfInput ∧ k ≠ .identifier := by
    unfold extensible? at h
    split at h <;> simp only [Option.some.injEq, reduceCtorEq] at h <;> subst h <;> simp
  obtain ⟨hextended, halone⟩ := hkinds
  unfold extensibleSign
  simp only [Bool.false_and, Bool.false_eq_true, if_false]
  split
  · exact gives_lexeme hextended.1 hextended.2
  · cases ha : e.alone with
    | none => exact gives_invalid
    | some k => exact gives_lexeme (halone k ha).1 (halone k ha).2

/-- A tail of a string that is read from a text is not refused. -/
theorem stringTail_not_refused (spots : List Spot) :
    (stringTail false spots).ending ≠ .refused := by
  fun_induction stringTail false spots <;> simp_all +zetaDelta [exhausted]

/-- A string is a legal token or a fault. -/
theorem gives_string : Gives (string false s rest).1 := by
  have h := stringTail_not_refused rest
  unfold string
  cases hend : (stringTail false rest).ending with
  | closed =>
    simp only [hend]
    exact gives_lexeme (by decide) (by decide)
  | unclosed =>
    simp only [hend]
    exact ⟨_, rfl⟩
  | refused => exact absurd hend h

/-- A source that is not broken refuses no look behind a number. -/
theorem numberTail_not_refused (hasPoint : Bool) (spots : List Spot) :
    (numberTail false hasPoint spots).refused = false := by
  fun_induction numberTail false hasPoint spots <;> simp_all +zetaDelta

/-- A number is a legal token or a fault. -/
theorem gives_number : Gives (number false s rest).1 := by
  unfold number
  simp only [numberTail_not_refused, Bool.false_eq_true, if_false]
  split
  · exact gives_lexeme (by decide) (by decide)
  · exact gives_lexeme (by decide) (by decide)

/-- No word stands for the end of the input. -/
theorem ofWord_ne_endOfInput (word : String) : Kind.ofWord word ≠ .endOfInput := by
  unfold Kind.ofWord
  cases hl : Kind.keywords.lookup word with
  | none => simp
  | some k =>
    rintro rfl
    obtain ⟨before, after, hsplit, -⟩ := List.lookup_eq_some_iff.mp hl
    have hmem : (word, Kind.endOfInput) ∈ Kind.keywords := by
      rw [hsplit]
      simp
    simp [Kind.keywords] at hmem

/-- A word is a reserved word or a name: it starts with a letter or an underscore and goes on with
characters that can go on a name. -/
theorem gives_word (hs : startsName s.char = true) : Gives (word false s rest).1 := by
  unfold word
  simp only [Bool.false_and, Bool.false_eq_true, if_false]
  refine ⟨ofWord_ne_endOfInput _, fun hk => ?_⟩
  change Kind.ofWord _ = .identifier at hk
  unfold isName
  rw [String.toList_ofList]
  dsimp only
  rw [hs, hk, List.all_map, Bool.true_and, beq_self_eq_true, Bool.and_true]
  exact List.all_takeWhile

/-- What starts with a character outside a gap is a legal token or a fault. -/
theorem gives_lexemeAt (s : Spot) (rest : List Spot) : Gives (lexemeAt false s rest).1 := by
  unfold lexemeAt
  split
  · exact gives_lexeme (by decide) (by decide)
  · split
    · rename_i h
      exact gives_extensibleSign h
    · rename_i h
      exact gives_plainSign h
    · split
      · exact gives_string
      · split
        · exact gives_number
        · split
          · rename_i hs
            exact gives_word hs
          · exact gives_invalid

end Scan

namespace TokenStream

/-- A stream of legal tokens that ends with the end of the source or with a fault. -/
structure Legal (s : TokenStream) : Prop where
  front : ∀ t ∈ s.front, t.Legal
  final : match s.final with
    | .ok t => t.kind = .endOfInput
    | .error h => h.IsFault

end TokenStream

namespace Source

/-- What a whole scan gives: the end of the source, a legal token, or a fault. -/
def Gives (outcome : Except Halt Token) : Prop :=
  match outcome with
  | .ok t => t.kind = .endOfInput ∨ t.Legal
  | .error e => e.IsFault

/-- A scan gives a legal token, the end of the input or a fault, if the source is not broken. -/
theorem scan_gives {s : Source} (hb : s.broken = false) :
    Gives s.scan.1 ∧ s.scan.2.broken = false := by
  unfold scan
  split
  · refine ⟨?_, hb⟩
    unfold final
    rw [hb]
    exact Or.inl rfl
  · rename_i first rest hgap
    refine ⟨?_, hb⟩
    have hgives := Scan.gives_lexemeAt first rest
    rw [hb]
    cases hlex : Scan.lexemeAt false first rest with
    | mk outcome left =>
      rw [hlex] at hgives
      cases outcome with
      | ok t => exact Or.inr hgives
      | error e => exact hgives

/-- A source that is not broken has a legal stream. -/
theorem stream_legal (s : Source) (hb : s.broken = false) : s.stream.Legal := by
  fun_induction stream s with
  | case1 s e left h =>
    obtain ⟨hfault, -⟩ := scan_gives hb
    rw [h] at hfault
    exact ⟨by simp, hfault⟩
  | case2 s t left h hend => exact ⟨by simp, hend⟩
  | case3 s t left h hend hlt more ih =>
    obtain ⟨htok, hleft⟩ := scan_gives hb
    rw [h] at htok hleft
    have hmore := ih hleft
    refine ⟨?_, hmore.final⟩
    intro u hu
    rcases List.mem_cons.mp hu with rfl | hu
    · exact htok.resolve_left hend
    · exact hmore.front u hu

end Source

/-- The tokens of a text are legal. -/
theorem TokenStream.ofText_legal (t : Text) : (TokenStream.ofText t).Legal :=
  Source.stream_legal _ rfl

end Offside
