import Offside.Proofs.Token.Spelling

/-!
# Sources that are cut and continued

What a scan takes depends on the spots it takes and on whether the next one goes on the lexeme. So a
source can be cut behind any of its tokens and continued with anything that starts with a blank or a
line break: the tokens in front of the cut stay as they are, each at its place (`Source.stream_cut`).
A whole source that is continued with a line break keeps all its tokens (`Source.stream_continued`),
and one that is not made of tokens is not mended by white space (`Source.stream_unmended`).
-/

set_option autoImplicit false

namespace Offside

namespace Scan

/-- The spots do not go on a lexeme in front of them: there are none, or they start with a blank or
a line break. -/
def Separated (zs : List Spot) : Prop := ∀ s ∈ zs.head?, s.char = ' ' ∨ s.char = '\n'

variable {xs ys zs left : List Spot} {s : Spot} {t : Token}

/-- What is separated does not go on with a character that is neither a blank nor a line break. -/
theorem Separated.head_ne {p : Char → Bool} (hz : Separated zs) (hblank : p ' ' = false)
    (hbreak : p '\n' = false) : ∀ z ∈ zs.head?, p z.char = false := by
  intro z hmem
  rcases hz z hmem with h | h <;> simp [h, hblank, hbreak]

/-- What is separated does not start with a character other than a blank or a line break. -/
theorem Separated.startsWith_eq {c : Char} (hz : Separated zs) (hblank : c ≠ ' ')
    (hbreak : c ≠ '\n') : startsWith c zs = false := by
  cases zs with
  | nil => rfl
  | cons z zs =>
    have h := hz.head_ne (p := (· == c)) (by simpa using hblank.symm) (by simpa using hbreak.symm)
    simpa [startsWith] using h

/-! ## What is left is the end of what there was -/

/-- What is left behind a gap is an end of what there was. -/
theorem afterGap_suffix (inComment : Bool) (spots : List Spot) :
    afterGap inComment spots <:+ spots := by
  induction spots generalizing inComment with
  | nil => cases inComment <;> simp [afterGap]
  | cons s rest ih =>
    have hcons : ∀ b, afterGap b rest <:+ s :: rest := fun b => (ih b).trans (List.suffix_cons _ _)
    cases inComment <;> simp only [afterGap] <;> (repeat' split) <;> simp [hcons]

/-- What is left behind a number is an end of what there was. -/
theorem numberTail_suffix (hasPoint : Bool) (spots : List Spot) :
    (numberTail false hasPoint spots).rest <:+ spots := by
  induction spots generalizing hasPoint with
  | nil => simp [numberTail]
  | cons s rest ih =>
    have hcons : ∀ b, (numberTail false b rest).rest <:+ s :: rest :=
      fun b => (ih b).trans (List.suffix_cons _ _)
    simp only [numberTail]
    (repeat' split) <;> simp [hcons]

/-- What is left behind a string is an end of what there was. -/
theorem stringTail_suffix (spots : List Spot) : (stringTail false spots).rest <:+ spots := by
  fun_induction stringTail false spots with
  | case1 => simp
  | case2 s rest => simp
  | case3 s rest => simp
  | case4 s => simp
  | case5 s _ _ _ e rest tail ih =>
    exact ih.trans ((List.suffix_cons e rest).trans (List.suffix_cons s _))
  | case6 s rest _ _ _ tail ih => exact ih.trans (List.suffix_cons s rest)

/-- What is left behind a token is an end of what there was. -/
theorem lexemeAt_suffix (s : Spot) (rest : List Spot) : (lexemeAt false s rest).2 <:+ rest := by
  have hnumber := numberTail_suffix false rest
  have hstring := stringTail_suffix rest
  have hword := List.dropWhile_suffix (fun r : Spot => continuesName r.char) (l := rest)
  simp only [lexemeAt, extensibleSign, plainSign, string, number, word, invalid, lexeme]
  (repeat' split) <;> simp_all [List.tail_suffix]

/-! ## Another continuation -/

/-- Two beginnings of a list with the same end are the same. -/
theorem eq_of_append_eq {x : Spot} (h : x :: (xs ++ ys) = left ++ ys) : left = x :: xs :=
  List.append_cancel_right (h.symm.trans (List.cons_append ..).symm)

/-- Nothing can be put in front of a list so that it is an end of itself. -/
theorem eq_nil_of_suffix (h : left ++ ys <:+ ys) : left = [] := by
  have hlength := h.length_le
  rw [List.length_append] at hlength
  exact List.length_eq_zero_iff.mp (by omega)

/-- A gap that ends in front of the cut ends there under every separated continuation. -/
theorem afterGap_append {inComment : Bool} (hz : Separated zs)
    (h : afterGap inComment (xs ++ ys) = s :: (left ++ ys)) :
    afterGap inComment (xs ++ zs) = s :: (left ++ zs) := by
  have hshort : ∀ b, afterGap b ys ≠ s :: (left ++ ys) := by
    intro b heq
    have hsuffix := afterGap_suffix b ys
    rw [heq, ← List.cons_append] at hsuffix
    simpa using eq_nil_of_suffix hsuffix
  induction xs generalizing inComment with
  | nil => exact absurd h (hshort inComment)
  | cons x xs ih =>
    cases inComment with
    | true =>
      simp only [List.cons_append, afterGap] at h ⊢
      split_ifs at h ⊢
      · simp_all
      · exact ih h
    | false =>
      -- only a slash at the very end of the first part has its successor in the second one
      have hslash : (x.char == '/' && startsWith '/' (xs ++ zs)) =
          (x.char == '/' && startsWith '/' (xs ++ ys)) := by
        cases xs with
        | cons x' xs => rfl
        | nil =>
          rw [List.nil_append, List.nil_append, hz.startsWith_eq (by decide) (by decide)]
          cases hcomment : x.char == '/' && startsWith '/' ys with
          | false => simp
          | true =>
            simp only [List.cons_append, List.nil_append, afterGap, hcomment, if_true] at h
            exact absurd h (hshort true)
      simp only [List.cons_append, afterGap, hslash] at h ⊢
      split_ifs at h ⊢
      · exact ih h
      · exact ih h
      · simp_all

/-- A run of characters that ends in front of the cut ends there if the continuation does not go on
with it. -/
theorem while_append {p : Spot → Bool} (hz : ∀ z ∈ zs.head?, p z = false)
    (h : (xs ++ ys).dropWhile p = left ++ ys) :
    (xs ++ zs).takeWhile p = (xs ++ ys).takeWhile p ∧ (xs ++ zs).dropWhile p = left ++ zs := by
  induction xs with
  | nil =>
    rw [List.nil_append] at h
    have hsuffix : left ++ ys <:+ ys := h ▸ List.dropWhile_suffix p
    have hleft := eq_nil_of_suffix hsuffix
    have hnone : ys.takeWhile p = [] := by
      have htotal := List.takeWhile_append_dropWhile (p := p) (l := ys)
      simpa [h, hleft] using htotal
    cases zs with
    | nil => simp [hnone, hleft]
    | cons z zs =>
      have hfirst : p z = false := by simpa using hz
      simp [hnone, hleft, hfirst]
  | cons x xs ih =>
    cases hx : p x with
    | true =>
      rw [List.cons_append, List.dropWhile_cons_of_pos hx] at h
      simp [hx, ih h]
    | false =>
      rw [List.cons_append, List.dropWhile_cons_of_neg (by simp [hx])] at h
      simp [hx, eq_of_append_eq h]

/-- A number ends in front of what is neither a digit nor a point. -/
theorem numberTail_stop {hasPoint : Bool} (hdigit : ∀ z ∈ zs.head?, isDigit z.char = false)
    (hpoint : ∀ z ∈ zs.head?, z.char ≠ '.') :
    numberTail false hasPoint zs = ⟨[], hasPoint, false, zs⟩ := by
  cases zs with
  | nil => simp [numberTail]
  | cons z zs => simp_all [numberTail]

/-- What is left behind a number is no longer than what there was. -/
theorem numberTail_rest_ne (hasPoint : Bool) (y : Spot) (ys : List Spot) :
    (numberTail false hasPoint ys).rest ≠ left ++ y :: ys := by
  intro heq
  have hlength := (numberTail_suffix hasPoint ys).length_le
  simp [heq] at hlength
  omega

/-- A number that leaves all spots has taken none. -/
theorem numberTail_of_rest {hasPoint : Bool} (h : (numberTail false hasPoint ys).rest = left ++ ys) :
    left = [] ∧ numberTail false hasPoint ys = ⟨[], hasPoint, false, ys⟩ := by
  refine ⟨eq_nil_of_suffix (h ▸ numberTail_suffix hasPoint ys), ?_⟩
  cases ys with
  | nil => simp [numberTail]
  | cons y ys =>
    simp only [numberTail, Bool.false_and, Bool.false_eq_true, if_false] at h ⊢
    split_ifs at h ⊢
    · exact absurd h (numberTail_rest_ne _ y ys)
    · exact absurd h (numberTail_rest_ne _ y ys)
    · rfl

/-- A point that ends the first part would be taken with a digit of the second one. -/
theorem takesPoint_append {hasPoint : Bool} {x : Spot}
    (hdigit : ∀ z ∈ zs.head?, isDigit z.char = false) (hx : ¬ isDigit x.char = true)
    (h : (numberTail false hasPoint (x :: xs ++ ys)).rest = left ++ ys) :
    (x.char == '.' && !hasPoint && (xs ++ zs).head?.any fun d => isDigit d.char) =
      (x.char == '.' && !hasPoint && (xs ++ ys).head?.any fun d => isDigit d.char) := by
  cases xs with
  | cons x' xs => rfl
  | nil =>
    have hnone : (zs.head?.any fun d => isDigit d.char) = false := by
      cases zs with
      | nil => rfl
      | cons z zs => simpa using hdigit
    cases hsome : x.char == '.' && !hasPoint && ys.head?.any fun d => isDigit d.char with
    | false => simp [hnone, hsome]
    | true =>
      cases ys with
      | nil => simp at hsome
      | cons y ys =>
        have hy : isDigit y.char = true := by simp_all
        simp only [List.cons_append, List.nil_append, numberTail, hx, hsome, hy, Bool.false_and,
          Bool.false_eq_true, if_false, if_true] at h
        exact absurd h (numberTail_rest_ne _ y ys)

/-- A number that ends in front of the cut is the same under every separated continuation. -/
theorem numberTail_append {hasPoint : Bool} (hz : Separated zs)
    (h : (numberTail false hasPoint (xs ++ ys)).rest = left ++ ys) :
    numberTail false hasPoint (xs ++ zs) =
      { numberTail false hasPoint (xs ++ ys) with rest := left ++ zs } := by
  have hdigit := hz.head_ne (p := isDigit) (by decide) (by decide)
  have hpoint := hz.head_ne (p := (· == '.')) (by decide) (by decide)
  induction xs generalizing hasPoint with
  | nil =>
    rw [List.nil_append] at h ⊢
    obtain ⟨rfl, hnone⟩ := numberTail_of_rest h
    rw [List.nil_append, hnone, numberTail_stop hdigit (by simpa using hpoint)]
    rfl
  | cons x xs ih =>
    by_cases hx : isDigit x.char = true
    · simp only [List.cons_append, numberTail, hx, Bool.false_and, Bool.false_eq_true, if_false,
        if_true] at h ⊢
      rw [ih h]
    · have hhead := takesPoint_append hdigit hx h
      simp only [List.cons_append, numberTail, hx, Bool.false_and, Bool.false_eq_true, if_false,
        hhead] at h ⊢
      split_ifs at h ⊢
      · rw [ih h]
      · simp [eq_of_append_eq h]

/-- A character that stands in front of more than the continuation stands in front of the cut. -/
theorem exists_cons_of_append {rest : List Spot} (h : s :: rest = xs ++ ys)
    (hlength : ys.length ≤ rest.length) : ∃ xs', xs = s :: xs' ∧ rest = xs' ++ ys := by
  cases xs with
  | nil =>
    rw [List.nil_append] at h
    rw [← h, List.length_cons] at hlength
    omega
  | cons x xs => simp_all

/-- A string that is closed in front of the cut is the same under every continuation. -/
theorem stringTail_append {spots : List Spot} (hspots : spots = xs ++ ys)
    (hclosed : (stringTail false spots).ending = .closed)
    (h : (stringTail false spots).rest = left ++ ys) :
    stringTail false (xs ++ zs) = { stringTail false spots with rest := left ++ zs } := by
  -- what is left has the second part at its end, so the spots that were taken are in the first one
  have hlong : ∀ rest, left ++ ys <:+ rest → ys.length ≤ rest.length := by
    intro rest hsuffix
    have hlength := hsuffix.length_le
    rw [List.length_append] at hlength
    omega
  fun_induction stringTail false spots generalizing xs with
  | case1 => simp [exhausted] at hclosed
  | case2 s rest hbreak => simp at hclosed
  | case3 s rest hbreak hquote =>
    obtain ⟨xs, rfl, rfl⟩ := exists_cons_of_append hspots (hlong rest (by simp [← h]))
    have hleft : left = xs := (List.append_cancel_right h).symm
    rw [List.cons_append, stringTail.eq_def]
    simp [hbreak, hquote, hleft]
  | case4 s hbreak hquote hslash => simp [exhausted] at hclosed
  | case5 s hbreak hquote hslash e rest tail =>
    rename_i ih
    have hrest := hlong rest (by rw [← h]; exact stringTail_suffix rest)
    obtain ⟨xs, rfl, hcons⟩ := exists_cons_of_append hspots (by rw [List.length_cons]; omega)
    obtain ⟨xs, rfl, rfl⟩ := exists_cons_of_append hcons hrest
    rw [List.cons_append, List.cons_append, stringTail.eq_def]
    simp [hbreak, hquote, hslash, ih rfl hclosed h, tail]
  | case6 s rest hbreak hquote hslash tail =>
    rename_i ih
    obtain ⟨xs, rfl, rfl⟩ := exists_cons_of_append hspots
      (hlong rest (by rw [← h]; exact stringTail_suffix rest))
    rw [List.cons_append, stringTail.eq_def]
    simp [hbreak, hquote, hslash, ih rfl hclosed h, tail]

/-- No sign is extended by a blank or by a line break. -/
theorem second_ne_blank {c : Char} {e : Extensible} (h : extensible? c = some e) :
    e.second ≠ ' ' ∧ e.second ≠ '\n' := by
  unfold extensible? at h
  split at h
  all_goals cases h
  all_goals exact ⟨by decide, by decide⟩

/-- A sign that ends in front of the cut is the same under every separated continuation. -/
theorem extensibleSign_append {c : Char} {e : Extensible} (hz : Separated zs)
    (hext : extensible? c = some e)
    (h : extensibleSign false e s (xs ++ ys) = (.ok t, left ++ ys)) :
    extensibleSign false e s (xs ++ zs) = (.ok t, left ++ zs) := by
  have hsecond := second_ne_blank hext
  simp only [extensibleSign, Bool.false_and, Bool.false_eq_true, if_false] at h ⊢
  cases xs with
  | cons x xs =>
    have hsame : startsWith e.second (x :: xs ++ zs) = startsWith e.second (x :: xs ++ ys) := rfl
    rw [hsame]
    split_ifs at h ⊢
    · simp_all [lexeme]
    · cases ha : e.alone with
      | none => simp [ha, invalid] at h
      | some kind =>
        simp only [ha, lexeme, Prod.mk.injEq] at h ⊢
        rw [eq_of_append_eq h.2]
        exact ⟨h.1, rfl⟩
  | nil =>
    rw [List.nil_append] at h ⊢
    rw [hz.startsWith_eq hsecond.1 hsecond.2, if_neg Bool.false_ne_true]
    split_ifs at h
    · -- the second character of the sign would be left over
      have hlength := congrArg List.length (Prod.mk.inj h).2
      cases ys with
      | nil => simp_all [startsWith]
      | cons y ys =>
        simp at hlength
        omega
    · cases ha : e.alone <;> simp_all [lexeme, invalid]

/-- A string that is closed in front of the cut is the same token under every continuation. -/
theorem string_append (h : string false s (xs ++ ys) = (.ok t, left ++ ys)) :
    string false s (xs ++ zs) = (.ok t, left ++ zs) := by
  unfold string at h ⊢
  cases hend : (stringTail false (xs ++ ys)).ending with
  | closed =>
    simp only [hend, lexeme, Prod.mk.injEq] at h
    rw [stringTail_append rfl hend h.2]
    simp [hend, lexeme, h.1]
  | unclosed => simp [hend] at h
  | refused => simp [hend] at h

/-- A number in front of the cut is the same token under every separated continuation. -/
theorem number_append (hz : Separated zs)
    (h : number false s (xs ++ ys) = (.ok t, left ++ ys)) :
    number false s (xs ++ zs) = (.ok t, left ++ zs) := by
  simp only [number, numberTail_not_refused, Bool.false_eq_true, if_false, lexeme,
    Prod.mk.injEq] at h ⊢
  rw [numberTail_append hz h.2]
  exact ⟨h.1, rfl⟩

/-- A word in front of the cut is the same token under every separated continuation. -/
theorem word_append (hz : Separated zs) (h : word false s (xs ++ ys) = (.ok t, left ++ ys)) :
    word false s (xs ++ zs) = (.ok t, left ++ zs) := by
  simp only [word, Bool.false_and, Bool.false_eq_true, if_false, lexeme, Prod.mk.injEq] at h ⊢
  obtain ⟨htaken, hleft⟩ := while_append
    (hz.head_ne (p := continuesName) (by decide) (by decide)) h.2
  rw [htaken, hleft]
  exact ⟨h.1, rfl⟩

/-- A token in front of the cut is the same under every separated continuation. -/
theorem lexemeAt_append (hz : Separated zs)
    (h : lexemeAt false s (xs ++ ys) = (.ok t, left ++ ys)) :
    lexemeAt false s (xs ++ zs) = (.ok t, left ++ zs) := by
  unfold lexemeAt at h ⊢
  by_cases hbreak : s.char == '\n'
  · simp_all [lexeme]
  · simp only [hbreak, Bool.false_eq_true, if_false] at h ⊢
    cases hext : extensible? s.char with
    | some e =>
      simp only [hext] at h ⊢
      exact extensibleSign_append hz hext h
    | none =>
      cases hsign : sign? s.char with
      | some kind => simp_all [plainSign, lexeme]
      | none =>
        simp only [hext, hsign] at h ⊢
        split_ifs at h ⊢
        · exact string_append h
        · exact number_append hz h
        · exact word_append hz h
        · simp [invalid] at h

/-! ## A line break behind a source -/

/-- What starts with a line break is separated. -/
theorem separated_break {b : Spot} (hb : b.char = '\n') : Separated (b :: zs) := by
  simp [Separated, hb]

/-- A gap ends in front of a line break, also in a comment. -/
theorem afterGap_of_break {b : Spot} (hb : b.char = '\n') (inComment : Bool) :
    afterGap inComment (b :: zs) = b :: zs := by
  cases inComment <;> simp [afterGap, endsComment, hb]

/-- Where a gap goes on to the end of a source, it ends at a line break behind it. -/
theorem afterGap_end {b : Spot} (hb : b.char = '\n') {inComment : Bool}
    (h : afterGap inComment xs = []) : afterGap inComment (xs ++ b :: zs) = b :: zs := by
  induction xs generalizing inComment with
  | nil => exact afterGap_of_break hb inComment
  | cons x xs ih =>
    cases inComment with
    | true =>
      simp only [List.cons_append, afterGap] at h ⊢
      split_ifs at h ⊢
      exact ih h
    | false =>
      have hslash : startsWith '/' (xs ++ b :: zs) = startsWith '/' xs := by
        cases xs with
        | nil => simp [startsWith, hb]
        | cons x' xs => rfl
      simp only [List.cons_append, afterGap, hslash] at h ⊢
      split_ifs at h ⊢
      · exact ih h
      · exact ih h

/-- A string that is not closed stays so if there is no quote in what follows. -/
theorem stringTail_open (hzs : ∀ z ∈ zs, z.char ≠ '"') (h : (stringTail false xs).ending ≠ .closed) :
    (stringTail false (xs ++ zs)).ending ≠ .closed := by
  have hopen : ∀ spots : List Spot, (∀ z ∈ spots, z.char ≠ '"') →
      (stringTail false spots).ending ≠ .closed := by
    intro spots hspots
    fun_induction stringTail false spots <;> simp_all +zetaDelta [exhausted]
  fun_induction stringTail false xs with
  | case1 => exact hopen zs hzs
  | case2 s rest hbreak =>
    rw [List.cons_append, stringTail.eq_def]
    simp [hbreak]
  | case3 s rest hbreak hquote => simp at h
  | case4 s hbreak hquote hslash =>
    rw [List.cons_append, List.nil_append, stringTail.eq_def]
    cases zs with
    | nil => simp_all [exhausted]
    | cons z zs =>
      have hrest := hopen zs fun z' hz' => hzs z' (List.mem_cons_of_mem z hz')
      simpa [hbreak, hquote, hslash] using hrest
  | case5 s hbreak hquote hslash e rest tail ih =>
    rw [List.cons_append, List.cons_append, stringTail.eq_def]
    simpa [hbreak, hquote, hslash] using ih h
  | case6 s rest hbreak hquote hslash tail ih =>
    rw [List.cons_append, stringTail.eq_def]
    simpa [hbreak, hquote, hslash] using ih h

/-- What starts no token, or starts a string that is not closed, still does so when white space
follows. -/
theorem lexemeAt_unmended {b : Spot} (hb : b.char = '\n') (hzs : ∀ z ∈ zs, z.char ≠ '"') {e : Halt}
    (h : (lexemeAt false s xs).1 = .error e) :
    ∃ e', (lexemeAt false s (xs ++ b :: zs)).1 = .error e' := by
  unfold lexemeAt at h ⊢
  by_cases hbreak : s.char == '\n'
  · simp_all [lexeme]
  · simp only [hbreak, Bool.false_eq_true, if_false] at h ⊢
    cases hext : extensible? s.char with
    | some ext =>
      have hsecond := second_ne_blank hext
      have hsame : startsWith ext.second (xs ++ b :: zs) = startsWith ext.second xs := by
        cases xs with
        | nil => simp [startsWith, hb, hsecond.2.symm]
        | cons x xs => rfl
      simp only [hext, extensibleSign, Bool.false_and, Bool.false_eq_true, if_false, hsame] at h ⊢
      split_ifs at h ⊢
      · simp [lexeme] at h
      · cases ha : ext.alone <;> simp_all [lexeme, invalid]
    | none =>
      cases hsign : sign? s.char with
      | some kind => simp_all [plainSign, lexeme]
      | none =>
        simp only [hext, hsign] at h ⊢
        split_ifs at h ⊢
        · -- a string that is not closed; there is no quote in what follows either
          have hopen : (stringTail false (xs ++ b :: zs)).ending ≠ .closed := by
            apply stringTail_open
            · simpa [hb] using hzs
            · intro hclosed
              simp [string, hclosed, lexeme] at h
          unfold string
          cases hend : (stringTail false (xs ++ b :: zs)).ending <;> simp_all
        · simp [number, numberTail_not_refused, lexeme] at h
        · simp [word, lexeme] at h
        · simp [invalid]

end Scan

namespace Source

open Scan

variable {xs ys zs left : List Spot} {finish finish' : Position} {t : Token}

/-- A scan that takes its token from the first part takes it whatever the second part is, as long as
that does not go on the token. -/
theorem scan_append (hz : Separated zs)
    (h : (⟨xs ++ ys, finish, false⟩ : Source).scan = (.ok t, ⟨left ++ ys, finish, false⟩))
    (ht : t.kind ≠ .endOfInput) :
    (⟨xs ++ zs, finish', false⟩ : Source).scan = (.ok t, ⟨left ++ zs, finish', false⟩) := by
  unfold scan at h ⊢
  dsimp only at h ⊢
  cases hgap : afterGap false (xs ++ ys) with
  | nil =>
    simp only [hgap, final, Bool.false_eq_true, if_false, Prod.mk.injEq, Except.ok.injEq] at h
    exact absurd (by rw [← h.1]) ht
  | cons first rest =>
    simp only [hgap, Prod.mk.injEq, mk.injEq, and_true] at h
    -- the lexeme starts in the first part, since it ends there
    have hmid : ∃ mid, rest = mid ++ ys := by
      have hrest : rest <:+ xs ++ ys :=
        (List.suffix_cons first rest).trans (hgap ▸ afterGap_suffix false (xs ++ ys))
      have hleft : left ++ ys <:+ rest := h.2 ▸ lexemeAt_suffix first rest
      obtain ⟨mid, hmid⟩ := (List.suffix_append left ys).trans hleft
      exact ⟨mid, hmid.symm⟩
    obtain ⟨mid, rfl⟩ := hmid
    rw [afterGap_append hz hgap]
    have hlexeme : lexemeAt false first (mid ++ ys) = (.ok t, left ++ ys) := Prod.ext h.1 h.2
    simp [lexemeAt_append hz hlexeme]

/-- A scan takes characters from the front of the source. -/
theorem scan_left (s : Source) (hb : s.broken = false) :
    ∃ taken left, s.rest = taken ++ left ∧ s.scan.2 = ⟨left, s.finish, false⟩ := by
  unfold scan
  cases hgap : afterGap false s.rest with
  | nil => exact ⟨s.rest, [], by simp, by simp [hb]⟩
  | cons first rest =>
    have hrest : rest <:+ s.rest :=
      (List.suffix_cons first rest).trans (hgap ▸ afterGap_suffix false s.rest)
    obtain ⟨taken, htaken⟩ := (lexemeAt_suffix first rest).trans hrest
    exact ⟨taken, _, htaken.symm, by simp [hb]⟩

/-- A stream starts with what the scan gives: a stop, the end of the input or another token. -/
theorem stream_cases (s : Source) :
    (∃ e left, s.scan = (.error e, left) ∧ s.stream = ⟨[], .error e⟩) ∨
    (∃ t left, s.scan = (.ok t, left) ∧ t.kind = .endOfInput ∧ s.stream = ⟨[], .ok t⟩) ∨
    ∃ t left, s.scan = (.ok t, left) ∧ t.kind ≠ .endOfInput ∧
      s.stream = ⟨t :: left.stream.front, left.stream.final⟩ := by
  cases hscan : s.scan with
  | mk outcome left =>
    cases outcome with
    | error e => exact Or.inl ⟨e, left, rfl, stream_of_error hscan⟩
    | ok t =>
      by_cases ht : t.kind = .endOfInput
      · exact Or.inr (Or.inl ⟨t, left, rfl, ht, stream_of_end hscan ht⟩)
      · exact Or.inr (Or.inr ⟨t, left, rfl, ht, stream_of_token hscan ht⟩)

/-- A source can be cut behind any of its tokens and continued with what does not go on the last of
them. -/
theorem stream_cut {s : Source} (hb : s.broken = false) {before : List Token}
    (hbefore : before <+: s.stream.front) :
    ∃ xs ys, s.rest = xs ++ ys ∧ ∀ zs finish, Separated zs →
      (⟨xs ++ zs, finish, false⟩ : Source).stream =
        ⟨before ++ (⟨zs, finish, false⟩ : Source).stream.front,
          (⟨zs, finish, false⟩ : Source).stream.final⟩ := by
  induction before generalizing s with
  | nil => exact ⟨[], s.rest, rfl, fun _ _ _ => rfl⟩
  | cons t before ih =>
    obtain ⟨e, left, -, hstream⟩ | ⟨u, left, -, -, hstream⟩ | ⟨u, left, hscan, hu, hstream⟩ :=
      s.stream_cases
    · simp [hstream] at hbefore
    · simp [hstream] at hbefore
    · rw [hstream] at hbefore
      obtain ⟨rfl, hmore⟩ := List.cons_prefix_cons.mp hbefore
      obtain ⟨taken, rest, hrest, hleft⟩ := s.scan_left hb
      rw [hscan] at hleft
      dsimp only at hleft
      subst hleft
      obtain ⟨xs, ys, hsplit, hcut⟩ := ih rfl hmore
      dsimp only at hsplit
      subst hsplit
      refine ⟨taken ++ xs, ys, by rw [hrest, List.append_assoc], ?_⟩
      intro zs finish hz
      -- the first token ends in front of the cut, so what comes behind the cut does not matter to
      -- it
      have hfirst : (⟨(taken ++ xs) ++ ys, s.finish, false⟩ : Source).scan =
          (.ok t, ⟨xs ++ ys, s.finish, false⟩) := by
        rw [← hscan, List.append_assoc, ← hrest, ← hb]
      rw [stream_of_token (scan_append hz hfirst hu) hu, hcut zs finish hz]
      simp

/-- Where the scan comes to the end of the input, only a gap is left. -/
theorem afterGap_of_end {s left : Source} (hb : s.broken = false) (h : s.scan = (.ok t, left))
    (ht : t.kind = .endOfInput) : afterGap false s.rest = [] := by
  cases hgap : afterGap false s.rest with
  | nil => rfl
  | cons first rest =>
    have hgives := gives_lexemeAt first rest
    simp only [scan, hgap, hb, Prod.mk.injEq] at h
    rw [h.1] at hgives
    exact absurd ht hgives.notEnd

/-- A line break behind a gap is the next token. -/
theorem scan_break {b : Spot} (hb : b.char = '\n') {spots : List Spot}
    (h : afterGap false spots = b :: ys) :
    (⟨spots, finish, false⟩ : Source).scan = (.ok ⟨.newline, "", b.pos⟩, ⟨ys, finish, false⟩) := by
  simp [scan, h, lexemeAt, hb, lexeme]

/-- Behind its last token a source has a rest without tokens, and what the source is continued with
meets that rest only. -/
theorem stream_rest (xs : List Spot) (finish : Position) :
    ∃ rest, (⟨rest, finish, false⟩ : Source).stream =
        ⟨[], (⟨xs, finish, false⟩ : Source).stream.final⟩ ∧
      ∀ zs finish', Separated zs → (⟨xs ++ zs, finish', false⟩ : Source).stream =
        ⟨(⟨xs, finish, false⟩ : Source).stream.front ++
            (⟨rest ++ zs, finish', false⟩ : Source).stream.front,
          (⟨rest ++ zs, finish', false⟩ : Source).stream.final⟩ := by
  induction hfront : (⟨xs, finish, false⟩ : Source).stream.front generalizing xs with
  | nil =>
    refine ⟨xs, ?_, fun _ _ _ => rfl⟩
    rw [← hfront]
  | cons t front ih =>
    obtain ⟨e, left, -, hstream⟩ | ⟨u, left, -, -, hstream⟩ | ⟨u, left, hscan, hu, hstream⟩ :=
      stream_cases ⟨xs, finish, false⟩
    · simp [hstream] at hfront
    · simp [hstream] at hfront
    · obtain ⟨taken, rest, -, hleft⟩ := scan_left ⟨xs, finish, false⟩ rfl
      rw [hscan] at hleft
      dsimp only at hleft
      subst hleft
      simp only [hstream, List.cons.injEq] at hfront ⊢
      obtain ⟨rfl, hfront⟩ := hfront
      obtain ⟨rest', hrest, hcontinued⟩ := ih rest hfront
      refine ⟨rest', hrest, ?_⟩
      intro zs finish' hz
      have hfirst : (⟨xs ++ [], finish, false⟩ : Source).scan =
          (.ok u, ⟨rest ++ [], finish, false⟩) := by simpa using hscan
      rw [stream_of_token (scan_append hz hfirst hu) hu, hcontinued zs finish' hz]
      simp

/-- A source that is continued with a line break keeps its tokens, and the line break is the next
one. -/
theorem stream_continued {b : Spot} (hb : b.char = '\n') {e : Token}
    (h : (⟨xs, finish, false⟩ : Source).stream.final = .ok e) :
    (⟨xs ++ b :: zs, finish', false⟩ : Source).stream =
      ⟨(⟨xs, finish, false⟩ : Source).stream.front ++
          ⟨.newline, "", b.pos⟩ :: (⟨zs, finish', false⟩ : Source).stream.front,
        (⟨zs, finish', false⟩ : Source).stream.final⟩ := by
  obtain ⟨rest, hrest, hcontinued⟩ := stream_rest xs finish
  rw [h] at hrest
  obtain ⟨e', left, -, hstream⟩ | ⟨u, left, hscan, hu, -⟩ | ⟨u, left, -, -, hstream⟩ :=
    stream_cases ⟨rest, finish, false⟩
  · simp [hstream] at hrest
  · have hgap : afterGap false (rest ++ b :: zs) = b :: zs :=
      afterGap_end hb (afterGap_of_end rfl hscan hu)
    rw [hcontinued _ finish' (separated_break hb), stream_of_token (scan_break hb hgap) (by simp)]
  · simp [hstream] at hrest

/-- White space does not mend a source that is not made of tokens. -/
theorem stream_unmended {b : Spot} (hb : b.char = '\n') (hzs : ∀ z ∈ zs, z.char ≠ '"') {e : Halt}
    (h : (⟨xs, finish, false⟩ : Source).stream.final = .error e) :
    ∃ e', (⟨xs ++ b :: zs, finish', false⟩ : Source).stream.final = .error e' := by
  obtain ⟨rest, hrest, hcontinued⟩ := stream_rest xs finish
  rw [h] at hrest
  rw [hcontinued _ finish' (separated_break hb)]
  obtain ⟨e', left, hscan, -⟩ | ⟨u, left, -, -, hstream⟩ | ⟨u, left, -, -, hstream⟩ :=
    stream_cases ⟨rest, finish, false⟩
  · cases hgap : afterGap false rest with
    | nil => simp [scan, hgap, final] at hscan
    | cons first more =>
      simp only [scan, hgap, Prod.mk.injEq] at hscan
      obtain ⟨e'', he⟩ := lexemeAt_unmended hb hzs hscan.1
      have hgap' : afterGap false (rest ++ b :: zs) = first :: (more ++ b :: zs) :=
        afterGap_append (separated_break hb) (by rwa [List.append_nil, List.append_nil])
      have hscan' : (⟨rest ++ b :: zs, finish', false⟩ : Source).scan.1 = .error e'' := by
        simp only [scan, hgap', he]
      exact ⟨e'', by rw [stream_of_error (Prod.ext hscan' rfl)]⟩
  · simp [hstream] at hrest
  · simp [hstream] at hrest

/-- White space has no tokens but line breaks. -/
theorem stream_blank {spots : List Spot} (hblank : ∀ z ∈ spots, Text.isBlank z.char = true) :
    (∀ t ∈ (⟨spots, finish, false⟩ : Source).stream.front, t.kind = .newline) ∧
      (⟨spots, finish, false⟩ : Source).stream.final = .ok ⟨.endOfInput, "", finish⟩ := by
  induction spots with
  | nil =>
    rw [stream_of_end (t := ⟨.endOfInput, "", finish⟩) rfl rfl]
    simp
  | cons z spots ih =>
    obtain ⟨hz, hspots⟩ := List.forall_mem_cons.mp hblank
    by_cases hbreak : z.char = '\n'
    · rw [stream_of_token (scan_break hbreak (afterGap_of_break hbreak false)) (by simp)]
      simpa using ih hspots
    · have hslash : z.char ≠ '/' := by
        intro h
        rw [h] at hz
        exact absurd hz (by decide)
      have hgap : afterGap false (z :: spots) = afterGap false spots := by
        simp [afterGap, hslash, hbreak, hz]
      have hscan : (⟨z :: spots, finish, false⟩ : Source).scan =
          (⟨spots, finish, false⟩ : Source).scan := by simp only [scan, hgap, final]
      rw [stream_congr hscan]
      exact ih hspots

end Source

end Offside
