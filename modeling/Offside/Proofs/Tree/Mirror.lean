import Offside.Proofs.Tree.Comparison
import Offside.Proofs.Tree.Moved

/-!
# The grammar on tokens that stand elsewhere

Two runs of the grammar are compared: one on a list of tokens, and one on the same tokens at other
places, with further line breaks behind some of the line breaks. If equal columns stay equal and
different ones different, the second run does what the first one does, and gives the same tree or
the same fault at the other places.

The grammar compares no columns but those of tokens that start a line. So it is enough that columns
stay equal or different at the places `P` where they count, if all tokens that start a line stand at
such places (`Reading.Lined`).

Between tokens the two readings are alike (`Reading.Alike`). Behind a single line break they need
not be, since only one of them may have another line break to come; but they are alike behind all
line breaks, and nothing is looked at before these are skipped. The runs may have different amounts
of fuel, and where one is out of it that is an excuse, if excuses are admitted at all (`lax`).
-/

set_option autoImplicit false

namespace Offside

/-- Equal columns stay equal and different ones different. -/
def Position.KeepsColumns (f : Position → Position) : Prop :=
  ∀ p q, (f p).column = (f q).column ↔ p.column = q.column

/-- Equal columns stay equal and different ones different, at the places where they count. -/
def Position.KeepsColumnsOn (P : Position → Prop) (f : Position → Position) : Prop :=
  ∀ p q, P p → P q → ((f p).column = (f q).column ↔ p.column = q.column)

/-- What keeps columns apart everywhere does so at some places. -/
theorem Position.KeepsColumns.on {f : Position → Position} (hf : KeepsColumns f)
    (P : Position → Prop) : KeepsColumnsOn P f :=
  fun p q _ _ => hf p q

section Tokens

variable {f : Position → Position} {t : Token}

/-- A token keeps its kind when it is moved. -/
@[simp] theorem Token.kind_moved : (t.moved f).kind = t.kind := rfl

/-- A token keeps its value when it is moved. -/
@[simp] theorem Token.value_moved : (t.moved f).value = t.value := rfl

/-- A token that is moved is at the moved place. -/
@[simp] theorem Token.pos_moved : (t.moved f).pos = f t.pos := rfl

/-- A token that is moved is a line break if it was one. -/
@[simp] theorem Token.isBreak_moved : (t.moved f).isBreak = t.isBreak := rfl

/-- The second list has the tokens of the first one at other places, and further line breaks behind
some of its line breaks. -/
inductive Token.Respaced (f : Position → Position) : List Token → List Token → Prop
  | nil : Respaced f [] []
  | token {t : Token} {ts ts' : List Token} (ht : t.isBreak = false) (more : Respaced f ts ts') :
      Respaced f (t :: ts) (t.moved f :: ts')
  | line {t : Token} {us ts ts' : List Token} (ht : t.isBreak = true)
      (hus : ∀ u ∈ us, u.isBreak = true) (more : Respaced f ts ts') :
      Respaced f (t :: ts) (t.moved f :: (us ++ ts'))

namespace Token.Respaced

/-- Tokens that are moved are respaced, without further line breaks. -/
theorem map_moved (f : Position → Position) (ts : List Token) :
    Respaced f ts (ts.map (Token.moved f)) := by
  induction ts with
  | nil => exact .nil
  | cons t ts ih =>
    cases ht : t.isBreak with
    | false => exact .token ht ih
    | true => exact @line f t [] ts _ ht (by simp) ih

/-- Lists that are respaced part by part are respaced. -/
theorem append {ts ts' us us' : List Token} (h : Respaced f ts ts') (h' : Respaced f us us') :
    Respaced f (ts ++ us) (ts' ++ us') := by
  induction h with
  | nil => exact h'
  | token ht _ ih => exact .token ht ih
  | line ht hus _ ih =>
    rw [List.cons_append, List.cons_append, List.append_assoc]
    exact .line ht hus ih

/-- Lists that are respaced still are when the line breaks in front are taken away. -/
theorem dropWhile_isBreak {ts ts' : List Token} (h : Respaced f ts ts') :
    Respaced f (ts.dropWhile Token.isBreak) (ts'.dropWhile Token.isBreak) := by
  induction h with
  | nil => exact .nil
  | token ht more _ =>
    rw [List.dropWhile_cons_of_neg (by simp [ht]), List.dropWhile_cons_of_neg (by simp [ht])]
    exact .token ht more
  | line ht hus _ ih =>
    rwa [List.dropWhile_cons_of_pos ht, List.dropWhile_cons_of_pos (by simp [ht]),
      List.dropWhile_append_of_pos hus]

/-- The first token of a list that is respaced is moved. -/
theorem head?_eq {ts ts' : List Token} (h : Respaced f ts ts') :
    ts'.head? = ts.head?.map (Token.moved f) := by
  cases h <;> rfl

end Token.Respaced

end Tokens

/-- The tokens that come directly behind a line break, and are none, stand where columns count. The
flag says whether the list itself comes behind a line break. -/
def Token.Lined (P : Position → Prop) : (afterBreak : Bool) → List Token → Prop
  | _, [] => True
  | afterBreak, t :: ts =>
      (afterBreak = true → t.isBreak = false → P t.pos) ∧ Lined P t.isBreak ts

/-- Lines may start anywhere if all places will do. -/
theorem Token.lined_everywhere (afterBreak : Bool) (ts : List Token) :
    Lined (fun _ => True) afterBreak ts := by
  induction ts generalizing afterBreak with
  | nil => trivial
  | cons t ts ih => exact ⟨fun _ _ => trivial, ih t.isBreak⟩

/-- Lines start where they do when the line breaks in front are taken away. -/
theorem Token.Lined.dropWhile_isBreak {P : Position → Prop} {afterBreak : Bool} {ts : List Token}
    (h : Lined P afterBreak ts) :
    Lined P (afterBreak || ts.head?.any Token.isBreak) (ts.dropWhile Token.isBreak) := by
  induction ts generalizing afterBreak with
  | nil => trivial
  | cons t ts ih =>
    cases ht : t.isBreak with
    | false =>
      rw [List.dropWhile_cons_of_neg (by simp [ht])]
      simpa [ht] using h
    | true =>
      have hrest := ih h.2
      rw [ht, Bool.true_or] at hrest
      rw [List.dropWhile_cons_of_pos ht]
      simpa [ht] using hrest

namespace Reading

/-- Where a line starts in what is still to be read, columns count. -/
structure Lined (P : Position → Prop) (r : Reading) : Prop where
  front : Token.Lined P r.afterBreak r.front
  final : ∀ t, r.final = .ok t → t.kind = .endOfInput ∨ P t.pos

/-- The next token ends the source or stands where columns count. -/
def Fresh (P : Position → Prop) (r : Reading) : Prop :=
  ∀ t, r.next? = some t → t.kind = .endOfInput ∨ P t.pos

/-- The second reading has the tokens of the first one at other places, and perhaps further line
breaks. -/
structure Alike (P : Position → Prop) (f : Position → Position) (r r' : Reading) : Prop where
  front : Token.Respaced f r.front r'.front
  final : r'.final = Scan.moved f r.final
  line : r'.afterBreak = r.afterBreak
  lined : r.Lined P

/-- The readings are alike when all line breaks are skipped, and a line starts there. -/
structure AlikeBehind (P : Position → Prop) (f : Position → Position) (r r' : Reading) : Prop where
  alike : r.pastBreaks.Alike P f r'.pastBreaks
  fresh : r.pastBreaks.Fresh P

variable {P : Position → Prop} {f : Position → Position} {r r' : Reading}

/-- The lines of a reading may start anywhere if all places will do. -/
theorem lined_everywhere (r : Reading) : r.Lined fun _ => True :=
  ⟨Token.lined_everywhere r.afterBreak r.front, fun _ _ => .inr trivial⟩

/-- Lines start where they do past the line breaks. -/
theorem Lined.pastBreaks (h : r.Lined P) : r.pastBreaks.Lined P :=
  ⟨h.front.dropWhile_isBreak, h.final⟩

/-- Behind line breaks a line starts. -/
theorem Lined.fresh_pastBreaks (h : r.Lined P) (hline : r.pastBreaks.afterBreak = true) :
    r.pastBreaks.Fresh P := by
  intro t ht
  have hlined := h.pastBreaks.front
  have hhead := List.head?_dropWhile_not Token.isBreak r.front
  rw [hline] at hlined
  unfold next? at ht
  split at ht
  · rename_i u us hfront
    obtain rfl : u = t := Option.some.inj ht
    rw [hfront] at hlined
    rw [show r.front.dropWhile Token.isBreak = u :: us from hfront] at hhead
    exact .inr (hlined.1 rfl hhead)
  · rename_i u _ hfinal
    obtain rfl : u = t := Option.some.inj ht
    exact h.final u hfinal
  · simp at ht

/-- If there are no line breaks to skip, the next token stays the next one. -/
theorem Fresh.pastBreaks (h : r.Fresh P) (hlined : r.Lined P) : r.pastBreaks.Fresh P := by
  cases hhead : r.front.head?.any Token.isBreak with
  | false =>
    rw [pastBreaks_of_head hhead]
    exact h
  | true =>
    refine hlined.fresh_pastBreaks ?_
    show (r.afterBreak || r.front.head?.any Token.isBreak) = true
    rw [hhead, Bool.or_true]

/-- Readings that are alike still are past the line breaks. -/
theorem Alike.pastBreaks (h : r.Alike P f r') : r.pastBreaks.Alike P f r'.pastBreaks where
  front := h.front.dropWhile_isBreak
  final := h.final
  line := by
    have hhead : r'.front.head?.any Token.isBreak = r.front.head?.any Token.isBreak := by
      rw [h.front.head?_eq]
      cases r.front.head? <;> rfl
    show (r'.afterBreak || _) = (r.afterBreak || _)
    rw [h.line, hhead]
  lined := h.lined.pastBreaks

/-- Readings that are alike are so past the line breaks, and fresh if they were. -/
theorem Alike.behind (h : r.Alike P f r') (hfresh : r.Fresh P) : r.AlikeBehind P f r' :=
  ⟨h.pastBreaks, hfresh.pastBreaks h.lined⟩

end Reading

namespace Grammar

open Reading

/-- A token of a plain kind is no line break. -/
theorem Plain.isBreak_eq_false {kinds : List Kind} {t : Token} (h : Plain kinds)
    (ht : t.kind ∈ kinds) : t.isBreak = false := by
  rw [Token.isBreak, beq_eq_false_iff_ne]
  intro hnewline
  exact h.2 (hnewline ▸ ht)

/-- The outcomes of two runs fit together: the second one is the first one at other places. -/
def Mirror {α : Type} (lax : Prop) (f : Position → Position)
    (K : α → α → Reading → Reading → Prop) :
    EStateM.Result Halt Reading α → EStateM.Result Halt Reading α → Prop
  | .ok a s, .ok a' s' => K a a' s s'
  | .ok _ _, .error h' _ => lax ∧ h' = .outOfFuel
  | .error h _, .ok _ _ => lax ∧ h = .outOfFuel
  | .error h _, .error h' _ => h' = h.moved f ∨ lax ∧ (h = .outOfFuel ∨ h' = .outOfFuel)

/-- Two runs do the same, the second one at other places, and leave readings with the property. -/
def Mirrors {α : Type} (lax : Prop) (f : Position → Position) (g g' : Grammar α) (r r' : Reading)
    (K : α → α → Reading → Reading → Prop) : Prop :=
  Mirror lax f K (g r) (g' r')

variable {lax : Prop} {P : Position → Prop} {f : Position → Position} {r r' : Reading}

section Rules

variable {α β : Type} {g g' q q' : Grammar α} {k k' : α → Grammar β}
  {K L : α → α → Reading → Reading → Prop} {M : β → β → Reading → Reading → Prop}

/-- Results with the property mirror each other. -/
theorem mirrors_pure {a a' : α} (h : K a a' r r') : Mirrors lax f (pure a) (pure a') r r' K := h

/-- A fault mirrors the same fault at another place. -/
theorem mirrors_fail {x : Fault} : Mirrors lax f (fail x) (fail (x.moved f)) r r' K := .inl rfl

/-- Runs that are both out of fuel mirror each other. -/
theorem mirrors_starved_both :
    Mirrors lax f (throw .outOfFuel : Grammar α) (throw .outOfFuel) r r' K := .inl rfl

/-- Where fuel may differ, a first run that is out of it mirrors anything. -/
theorem mirrors_starved (h : lax) : Mirrors lax f (throw .outOfFuel) g' r r' K := by
  unfold Mirrors
  cases g' r' with
  | ok a s => exact ⟨h, rfl⟩
  | error e s => exact .inr ⟨h, .inl rfl⟩

/-- Where fuel may differ, a second run that is out of it mirrors anything. -/
theorem mirrors_starving (h : lax) : Mirrors lax f g (throw .outOfFuel) r r' K := by
  unfold Mirrors
  cases g r with
  | ok a s => exact ⟨h, rfl⟩
  | error e s => exact .inr ⟨h, .inr rfl⟩

/-- Sequences mirror each other if their first parts do, and what follows them does. -/
theorem mirrors_bind (hg : Mirrors lax f g g' r r' K)
    (hk : ∀ a a' s s', K a a' s s' → Mirrors lax f (k a) (k' a') s s' M) :
    Mirrors lax f (g >>= k) (g' >>= k') r r' M := by
  unfold Mirrors at hg hk ⊢
  show Mirror lax f M (EStateM.bind g k r) (EStateM.bind g' k' r')
  unfold EStateM.bind
  cases hr : g r with
  | ok a s =>
    cases hr' : g' r' with
    | ok a' s' =>
      rw [hr, hr'] at hg
      exact hk a a' s s' hg
    | error h' s' =>
      rw [hr, hr'] at hg
      -- the second run is out of fuel, whatever becomes of the first
      obtain ⟨hlax, rfl⟩ := hg
      cases hka : k a s with
      | ok b t => simp [Mirror, hka, hlax]
      | error h t => simp [Mirror, hka, hlax]
  | error h s =>
    cases hr' : g' r' with
    | ok a' s' =>
      rw [hr, hr'] at hg
      obtain ⟨hlax, rfl⟩ := hg
      cases hka : k' a' s' with
      | ok b t => simp [Mirror, hka, hlax]
      | error h t => simp [Mirror, hka, hlax]
    | error h' s' =>
      rw [hr, hr'] at hg
      exact hg

/-- What mirrors with a stronger property mirrors with a weaker one. -/
theorem mirrors_mono (hg : Mirrors lax f g g' r r' K)
    (h : ∀ a a' s s', K a a' s s' → L a a' s s') : Mirrors lax f g g' r r' L := by
  have hbind : Mirrors lax f (g >>= pure) (g' >>= pure) r r' L :=
    mirrors_bind hg fun a a' s s' hK => mirrors_pure (h a a' s s' hK)
  rwa [bind_pure, bind_pure] at hbind

/-- Choices by equivalent conditions mirror each other if both cases do. -/
theorem mirrors_ite {c c' : Prop} [Decidable c] [Decidable c'] (hc : c' ↔ c)
    (hg : c → Mirrors lax f g g' r r' K) (hq : ¬ c → Mirrors lax f q q' r r' K) :
    Mirrors lax f (if c then g else q) (if c' then g' else q') r r' K := by
  by_cases h : c
  · rw [if_pos h, if_pos (hc.mpr h)]
    exact hg h
  · rw [if_neg h, if_neg fun h' => h (hc.mp h')]
    exact hq h

end Rules

/-! ## Looking at tokens and taking them -/

section Tokens

variable {α : Type} {k k' : Token → Grammar α} {q q' : Grammar α} {kinds : List Kind}
  {K : α → α → Reading → Reading → Prop} (hr : r.Alike P f r')
include hr

/-- A look at the next token shows the same token at another place. -/
theorem mirrors_peek :
    Mirrors lax f peek peek r r' fun t t' s s' =>
      t' = t.moved f ∧ s = r ∧ s' = r' ∧ r.next? = some t := by
  obtain ⟨front, final, line, notes⟩ := r
  obtain ⟨front', final', line', notes'⟩ := r'
  obtain ⟨hfront, hfinal, hline⟩ := hr
  dsimp only at hfront hfinal
  subst hfinal
  cases hfront with
  | nil =>
    cases final with
    | ok t => exact ⟨rfl, rfl, rfl, rfl⟩
    | error h => exact .inl rfl
  | token ht more => exact ⟨rfl, rfl, rfl, rfl⟩
  | line ht hus more => exact ⟨rfl, rfl, rfl, rfl⟩

/-- Behind a token that is no line break the readings are alike, and behind a line break they are
so when all line breaks are skipped. -/
theorem mirrors_next :
    Mirrors lax f next next r r' fun t t' s s' =>
      t' = t.moved f ∧ r.next? = some t ∧ (t.isBreak = true → s.AlikeBehind P f s') ∧
        (t.isBreak = false → s.Alike P f s') := by
  obtain ⟨front, final, line, notes⟩ := r
  obtain ⟨front', final', line', notes'⟩ := r'
  obtain ⟨hfront, hfinal, hline, hlined, hlast⟩ := hr
  dsimp only at hfront hfinal
  subst hfinal
  cases hfront with
  | nil =>
    cases final with
    | ok t =>
      have hsame : (⟨[], .ok t, t.isBreak, notes⟩ : Reading).Alike P f
          ⟨[], .ok (t.moved f), t.isBreak, notes'⟩ := ⟨.nil, rfl, rfl, trivial, hlast⟩
      have hfresh : (⟨[], .ok t, t.isBreak, notes⟩ : Reading).Fresh P := by
        intro u hu
        exact hlast u (congrArg Except.ok (Option.some.inj hu))
      exact ⟨rfl, rfl, fun _ => hsame.behind hfresh, fun _ => hsame⟩
    | error h => exact .inl rfl
  | @token t ts ts' ht more =>
    have hsame : (⟨ts, final, t.isBreak, notes⟩ : Reading).Alike P f
        ⟨ts', Scan.moved f final, t.isBreak, notes'⟩ := ⟨more, rfl, rfl, hlined.2, hlast⟩
    exact ⟨rfl, rfl, fun h => absurd (ht.symm.trans h) Bool.false_ne_true, fun _ => hsame⟩
  | @line t us ts ts' ht hus more =>
    have hleft : (⟨ts, final, t.isBreak, notes⟩ : Reading).Lined P := ⟨hlined.2, hlast⟩
    have hline : (t.isBreak || ts.head?.any Token.isBreak) = true := by rw [ht, Bool.true_or]
    refine ⟨rfl, rfl, fun _ => ⟨⟨?_, rfl, ?_, hleft.pastBreaks⟩, hleft.fresh_pastBreaks hline⟩,
      fun h => absurd (h.symm.trans ht) Bool.false_ne_true⟩
    · show Token.Respaced f (ts.dropWhile Token.isBreak) ((us ++ ts').dropWhile Token.isBreak)
      rw [List.dropWhile_append_of_pos hus]
      exact more.dropWhile_isBreak
    · show (t.isBreak || _) = (t.isBreak || _)
      rw [ht, Bool.true_or, Bool.true_or]

/-- A look at the kind of the next token shows the same. -/
theorem mirrors_peekIs :
    Mirrors lax f (peekIs kinds) (peekIs kinds) r r' fun b b' s s' =>
      b' = b ∧ s = r ∧ s' = r' ∧ ∃ t, r.next? = some t ∧ b = t.isOneOf kinds := by
  refine mirrors_bind (mirrors_peek hr) ?_
  rintro t _ s s' ⟨rfl, rfl, rfl, ht⟩
  exact mirrors_pure ⟨rfl, rfl, rfl, t, ht, rfl⟩

/-- A choice whose first branch takes the token that was looked at. -/
theorem mirrors_if_peekIs (hplain : Plain kinds)
    (hk : ∀ t s s', t.kind ∈ kinds → s.Alike P f s' → Mirrors lax f (k t) (k' (t.moved f)) s s' K)
    (hq : Mirrors lax f q q' r r' K) :
    Mirrors lax f (do if ← peekIs kinds then let t ← next; k t else q)
      (do if ← peekIs kinds then let t ← next; k' t else q') r r' K := by
  refine mirrors_bind (mirrors_peekIs hr) ?_
  rintro b _ s s' ⟨rfl, rfl, rfl, t, ht, rfl⟩
  refine mirrors_ite Iff.rfl (fun hone => ?_) fun _ => hq
  refine mirrors_bind (mirrors_next hr) ?_
  rintro u _ s₁ s₁' ⟨rfl, hu, -, halike⟩
  obtain rfl : t = u := Option.some.inj (ht.symm.trans hu)
  have hkind := isOneOf_iff.mp hone
  exact hk t s₁ s₁' hkind (halike (hplain.isBreak_eq_false hkind))

/-- A choice whose first branch takes the token that continues the line. -/
theorem mirrors_if_continuesWith (hplain : Plain kinds)
    (hk : ∀ t s s', t.kind ∈ kinds → s.Alike P f s' → Mirrors lax f (k t) (k' (t.moved f)) s s' K)
    (hq : Mirrors lax f q q' r r' K) :
    Mirrors lax f (do if ← continuesWith kinds then let t ← next; k t else q)
      (do if ← continuesWith kinds then let t ← next; k' t else q') r r' K := by
  show Mirrors lax f ((if r.afterBreak then pure false else peekIs kinds) >>= _)
    ((if r'.afterBreak then pure false else peekIs kinds) >>= _) r r' K
  rw [hr.line]
  split
  · exact hq
  · exact mirrors_if_peekIs hr hplain hk hq

/-- Both runs take a token of the kinds or blame the same one; behind a line break there may be more
of them. -/
theorem mirrors_expect_any :
    Mirrors lax f (expect kinds) (expect kinds) r r' fun t t' s s' =>
      t' = t.moved f ∧ t.kind ∈ kinds ∧ (t.isBreak = true → s.AlikeBehind P f s') ∧
        (t.isBreak = false → s.Alike P f s') := by
  refine mirrors_bind (mirrors_next hr) ?_
  rintro t _ s s' ⟨rfl, -, hbehind, halike⟩
  refine mirrors_ite Iff.rfl (fun hone => ?_) fun _ => mirrors_fail
  exact mirrors_pure ⟨rfl, isOneOf_iff.mp hone, hbehind, halike⟩

/-- Both runs take a token of plain kinds or blame the same one. -/
theorem mirrors_expect (hplain : Plain kinds) :
    Mirrors lax f (expect kinds) (expect kinds) r r' fun t t' s s' =>
      t' = t.moved f ∧ t.kind ∈ kinds ∧ s.Alike P f s' := by
  refine mirrors_mono (mirrors_expect_any hr) ?_
  rintro t _ s s' ⟨rfl, hkind, -, halike⟩
  exact ⟨rfl, hkind, halike (hplain.isBreak_eq_false hkind)⟩

/-- Both runs take a line break or blame the same token. -/
theorem mirrors_newline :
    Mirrors lax f (expect [.newline]) (expect [.newline]) r r' fun _ _ s s' =>
      s.AlikeBehind P f s' := by
  refine mirrors_mono (mirrors_expect_any hr) ?_
  rintro t _ s s' ⟨-, hkind, hbehind, -⟩
  exact hbehind (by simpa [Token.isBreak] using hkind)

/-- Both runs end a line or blame the same token. -/
theorem mirrors_endLine :
    Mirrors lax f endLine endLine r r' fun _ _ s s' => s.AlikeBehind P f s' := by
  show Mirrors lax f (if r.afterBreak then pure () else _) (if r'.afterBreak then pure () else _)
    r r' _
  rw [hr.line]
  refine mirrors_ite Iff.rfl (fun hline => ?_) fun _ => ?_
  · have hover : r.pastBreaks.afterBreak = true := by
      show (r.afterBreak || _) = true
      rw [hline, Bool.true_or]
    exact mirrors_pure ⟨hr.pastBreaks, hr.lined.fresh_pastBreaks hover⟩
  · refine mirrors_bind (mirrors_peekIs hr) ?_
    rintro b _ s s' ⟨rfl, rfl, rfl, t, ht, rfl⟩
    refine mirrors_ite Iff.rfl (fun hend => ?_) fun _ => ?_
    · have hfresh : s.Fresh P := by
        intro u hu
        obtain rfl : t = u := Option.some.inj (ht.symm.trans hu)
        exact .inl (isOneOf_singleton.mp hend)
      exact mirrors_pure (hr.behind hfresh)
    · refine mirrors_bind (mirrors_newline hr) ?_
      intro _ _ s₁ s₁' hbehind
      exact mirrors_pure hbehind

/-- Both runs take a closing parenthesis or blame the same token. -/
theorem mirrors_close (a a' : α) :
    Mirrors lax f (do let _ ← expect [.rightParen]; pure a)
      (do let _ ← expect [.rightParen]; pure a') r r' fun b b' s s' =>
        b = a ∧ b' = a' ∧ s.Alike P f s' := by
  refine mirrors_bind (mirrors_expect hr (by decide)) ?_
  rintro paren _ s s' ⟨-, -, hs⟩
  exact mirrors_pure ⟨rfl, rfl, hs⟩

/-- A note leaves readings that are alike. -/
theorem mirrors_note (pos pos' : Position) (count count' : Nat) :
    Mirrors lax f (note pos count) (note pos' count') r r' fun _ _ s s' =>
      s.Alike P f s' ∧ (r.Fresh P → s.Fresh P) :=
  ⟨⟨hr.front, hr.final, hr.line, hr.lined.front, hr.lined.final⟩, id⟩

end Tokens

/-- Both runs skip line breaks, however many each of them has. -/
theorem mirrors_skipBreaks (hr : r.pastBreaks.Alike P f r'.pastBreaks) :
    Mirrors lax f skipBreaks skipBreaks r r' fun _ _ s s' =>
      s = r.pastBreaks ∧ s' = r'.pastBreaks := by
  unfold skipBreaks
  refine mirrors_bind (K := fun _ _ s s' => s = r.pastBreaks ∧ s' = r'.pastBreaks) ⟨rfl, rfl⟩ ?_
  rintro _ _ s s' ⟨rfl, rfl⟩
  refine mirrors_bind (mirrors_peek hr) ?_
  rintro t _ s s' ⟨-, hs, hs', -⟩
  exact mirrors_pure ⟨hs, hs'⟩

/-- Both runs take the colon and the line breaks that open arms or a block. -/
theorem mirrors_opening (hr : r.Alike P f r') :
    Mirrors lax f opening opening r r' fun _ _ s s' => s.Alike P f s' ∧ s.Fresh P := by
  refine mirrors_bind (mirrors_expect hr (by decide)) ?_
  rintro colon _ s s' ⟨-, -, hs⟩
  refine mirrors_bind (mirrors_newline hs) ?_
  intro _ _ s₁ s₁' hbehind
  refine mirrors_mono (mirrors_skipBreaks hbehind.alike) ?_
  rintro _ _ s₂ s₂' ⟨rfl, rfl⟩
  exact ⟨hbehind.alike, hbehind.fresh⟩

/-- Induction on the fuel of two runs, which is the same if no excuses are admitted. -/
theorem fuels_induction {P : Nat → Nat → Prop} (hboth : P 0 0) (hfirst : lax → ∀ n, P 0 (n + 1))
    (hsecond : lax → ∀ m, P (m + 1) 0)
    (hstep : ∀ m n, (m = n ∨ lax) → P m n → P (m + 1) (n + 1)) (m n : Nat)
    (hfuel : m = n ∨ lax) : P m n := by
  induction m generalizing n with
  | zero =>
    cases n with
    | zero => exact hboth
    | succ n => exact hfirst (hfuel.resolve_left (by omega)) n
  | succ m ih =>
    cases n with
    | zero => exact hsecond (hfuel.resolve_left (by omega)) m
    | succ n =>
      have hless : m = n ∨ lax := hfuel.imp_left Nat.succ.inj
      exact hstep m n hless (ih n hless)

/-- Two runs of a piece of the grammar on readings that are alike give results of which the second
one is the first one moved, and leave readings that are alike. -/
abbrev Mirrored {α : Type} (lax : Prop) (P : Position → Prop) (f : Position → Position)
    (moved : α → α) (g g' : Grammar α) : Prop :=
  ∀ {r r'}, r.Alike P f r' → Mirrors lax f g g' r r' fun a a' s s' => a' = moved a ∧ s.Alike P f s'

/-- The same of a piece that skips line breaks before anything else and starts a line. -/
abbrev MirroredBehind {α : Type} (lax : Prop) (P : Position → Prop) (f : Position → Position)
    (moved : α → α) (g g' : Grammar α) : Prop :=
  ∀ {r r'}, r.AlikeBehind P f r' →
    Mirrors lax f g g' r r' fun a a' s s' => a' = moved a ∧ s.Alike P f s'

/-! ## Expressions -/

variable {m n : Nat}

/-- The literal of a whole number is mirrored at another place. -/
theorem mirrored_integerLiteral (tok : Token) :
    Mirrored lax P f (Node.moved f) (integerLiteral tok) (integerLiteral (tok.moved f)) := by
  intro r r' hr
  unfold integerLiteral
  exact mirrors_ite Iff.rfl (fun _ => mirrors_pure ⟨rfl, hr⟩) fun _ => mirrors_fail

/-- The literal of a double is mirrored at another place. -/
theorem mirrored_floatLiteral (tok : Token) :
    Mirrored lax P f (Node.moved f) (floatLiteral tok) (floatLiteral (tok.moved f)) := by
  intro r r' hr
  unfold floatLiteral
  rw [Token.value_moved]
  cases Numeral.finite? tok.value.toList with
  | some x => exact mirrors_pure ⟨rfl, hr⟩
  | none => exact mirrors_fail

/-- What holds of the pieces of the grammar for expressions with the given amounts of fuel. -/
structure ExpressionsMirror (lax : Prop) (P : Position → Prop) (f : Position → Position)
    (m n : Nat) : Prop where
  expression : ∀ lv, (∀ level ∈ lv, Plain level) →
    Mirrored lax P f (Node.moved f) (expression m lv) (expression n lv)
  operations : ∀ level tighter left, (∀ l ∈ level :: tighter, Plain l) →
    Mirrored lax P f (Node.moved f) (operations m level tighter left)
      (operations n level tighter (left.moved f))
  unary : Mirrored lax P f (Node.moved f) (unary m) (unary n)
  atom : Mirrored lax P f (Node.moved f) (atom m) (atom n)
  arguments : Mirrored lax P f (Node.allMoved f) (arguments m) (arguments n)
  moreArguments : Mirrored lax P f (Node.allMoved f) (moreArguments m) (moreArguments n)
  arms : ∀ pos : Position, P pos →
    MirroredBehind lax P f (Arms.moved f) (arms m pos.column) (arms n (f pos).column)

section Expressions

variable (ih : ExpressionsMirror lax P f m n)
include ih

/-- Expressions of all levels are mirrored. -/
theorem ExpressionsMirror.whole : Mirrored lax P f (Node.moved f) (Grammar.expression m levels)
    (Grammar.expression n levels) :=
  ih.expression levels (by decide)

/-- Expressions of some levels are mirrored if their parts are. -/
theorem mirrored_expression {lv : List (List Kind)} (hlv : ∀ level ∈ lv, Plain level) :
    Mirrored lax P f (Node.moved f) (expression (m + 1) lv) (expression (n + 1) lv) := by
  intro r r' hr
  cases lv with
  | nil =>
    rw [expression, expression]
    exact ih.unary hr
  | cons level tighter =>
    rw [expression, expression]
    have htighter : ∀ l ∈ tighter, Plain l := fun l hl => hlv l (List.mem_cons_of_mem _ hl)
    refine mirrors_bind (ih.expression tighter htighter hr) ?_
    rintro left _ r₁ r₁' ⟨rfl, hr₁⟩
    exact ih.operations level tighter left hlv hr₁

/-- Operations are mirrored if their operands are. -/
theorem mirrored_operations {level : List Kind} {tighter : List (List Kind)} (left : Node)
    (hlv : ∀ l ∈ level :: tighter, Plain l) :
    Mirrored lax P f (Node.moved f) (operations (m + 1) level tighter left)
      (operations (n + 1) level tighter (left.moved f)) := by
  intro r r' hr
  rw [operations, operations]
  refine mirrors_if_continuesWith hr (hlv level List.mem_cons_self) ?_ (mirrors_pure ⟨rfl, hr⟩)
  intro tok r₁ r₁' _ hr₁
  have htighter : ∀ l ∈ tighter, Plain l := fun l hl => hlv l (List.mem_cons_of_mem _ hl)
  refine mirrors_bind (ih.expression tighter htighter hr₁) ?_
  rintro right _ r₂ r₂' ⟨rfl, hr₂⟩
  exact ih.operations level tighter (.binary tok tok.kind left right) hlv hr₂

/-- Operands with their signs are mirrored if their parts are. -/
theorem mirrored_unary : Mirrored lax P f (Node.moved f) (unary (m + 1)) (unary (n + 1)) := by
  intro r r' hr
  rw [unary, unary]
  refine mirrors_if_peekIs hr (by decide) ?_ (ih.atom hr)
  intro tok r₁ r₁' _ hr₁
  refine mirrors_bind (ih.unary hr₁) ?_
  rintro operand _ r₂ r₂' ⟨rfl, hr₂⟩
  exact mirrors_pure ⟨rfl, hr₂⟩

/-- Arguments are mirrored if their expressions are. -/
theorem mirrored_arguments :
    Mirrored lax P f (Node.allMoved f) (arguments (m + 1)) (arguments (n + 1)) := by
  intro r r' hr
  rw [arguments, arguments]
  refine mirrors_bind (mirrors_peekIs hr) ?_
  rintro b _ r₁ r₁' ⟨rfl, rfl, rfl, -⟩
  refine mirrors_ite Iff.rfl (fun _ => ?_) fun _ => ?_
  · refine mirrors_mono (mirrors_close hr [] []) ?_
    rintro _ _ r₂ r₂' ⟨rfl, rfl, hr₂⟩
    exact ⟨rfl, hr₂⟩
  · refine mirrors_bind (ih.whole hr) ?_
    rintro arg _ r₂ r₂' ⟨rfl, hr₂⟩
    refine mirrors_bind (ih.moreArguments hr₂) ?_
    rintro rest _ r₃ r₃' ⟨rfl, hr₃⟩
    refine mirrors_mono (mirrors_close hr₃ _ _) ?_
    rintro _ _ r₄ r₄' ⟨rfl, rfl, hr₄⟩
    exact ⟨rfl, hr₄⟩

/-- Further arguments are mirrored if their expressions are. -/
theorem mirrored_moreArguments :
    Mirrored lax P f (Node.allMoved f) (moreArguments (m + 1)) (moreArguments (n + 1)) := by
  intro r r' hr
  rw [moreArguments, moreArguments]
  refine mirrors_if_peekIs hr (by decide) ?_ (mirrors_pure ⟨rfl, hr⟩)
  intro comma r₁ r₁' _ hr₁
  refine mirrors_bind (ih.whole hr₁) ?_
  rintro arg _ r₂ r₂' ⟨rfl, hr₂⟩
  refine mirrors_bind (ih.moreArguments hr₂) ?_
  rintro rest _ r₃ r₃' ⟨rfl, hr₃⟩
  exact mirrors_pure ⟨rfl, hr₃⟩

/-- The result of an arm and the arms after it. -/
theorem mirrored_armResult {pos : Position} (hpos : P pos) (c c' : Node → Arms → Arms)
    (hc : ∀ result rest, c' (result.moved f) (rest.moved f) = (c result rest).moved f) :
    Mirrored lax P f (Arms.moved f) (do
      let _ ← expect [.arrow]
      let result ← expression m levels
      endLine
      let rest ← Grammar.arms m pos.column
      pure (c result rest)) (do
      let _ ← expect [.arrow]
      let result ← expression n levels
      endLine
      let rest ← Grammar.arms n (f pos).column
      pure (c' result rest)) := by
  intro r r' hr
  refine mirrors_bind (mirrors_expect hr (by decide)) ?_
  rintro arrow _ r₁ r₁' ⟨-, -, hr₁⟩
  refine mirrors_bind (ih.whole hr₁) ?_
  rintro result _ r₂ r₂' ⟨rfl, hr₂⟩
  refine mirrors_bind (mirrors_endLine hr₂) ?_
  intro _ _ r₃ r₃' hbehind
  refine mirrors_bind (ih.arms pos hpos hbehind) ?_
  rintro rest _ r₄ r₄' ⟨rfl, hr₄⟩
  exact mirrors_pure ⟨hc result rest, hr₄⟩

/-- Arms are mirrored if their parts are, since columns are kept apart. -/
theorem mirrored_arms (hf : Position.KeepsColumnsOn P f) {pos : Position} (hpos : P pos) :
    MirroredBehind lax P f (Arms.moved f) (arms (m + 1) pos.column)
      (arms (n + 1) (f pos).column) := by
  intro r r' hr
  rw [arms, arms]
  refine mirrors_bind (mirrors_skipBreaks hr.alike) ?_
  rintro _ _ r₁ r₁' ⟨rfl, rfl⟩
  have hr₁ := hr.alike
  refine mirrors_bind (mirrors_peek hr₁) ?_
  rintro tok _ r₂ r₂' ⟨rfl, rfl, rfl, htok⟩
  have hsame : ((tok.moved f).kind = .bar ∧ (tok.moved f).pos.column = (f pos).column) ↔
      (tok.kind = .bar ∧ tok.pos.column = pos.column) := by
    rw [Token.kind_moved, Token.pos_moved]
    refine and_congr_right fun hkind => hf tok.pos pos ?_ hpos
    exact (hr.fresh tok htok).resolve_left (by simp [hkind])
  refine mirrors_ite hsame (fun hbar => ?_) fun _ => mirrors_pure ⟨rfl, hr₁⟩
  refine mirrors_bind (mirrors_next hr₁) ?_
  rintro u _ r₃ r₃' ⟨-, hu, -, halike⟩
  obtain rfl : tok = u := Option.some.inj (htok.symm.trans hu)
  have hr₃ : r₃.Alike P f r₃' := halike (by simp [Token.isBreak, hbar.1])
  refine mirrors_if_peekIs hr₃ (by decide) ?_ ?_
  · intro times r₄ r₄' _ hr₄
    exact mirrored_armResult ih hpos (.wildcard tok) (.wildcard (tok.moved f)) (fun _ _ => rfl) hr₄
  · refine mirrors_bind (ih.whole hr₃) ?_
    rintro pattern _ r₄ r₄' ⟨rfl, hr₄⟩
    exact mirrored_armResult ih hpos (.pattern tok pattern)
      (.pattern (tok.moved f) (pattern.moved f)) (fun _ _ => rfl) hr₄

/-- A selection after its first word. -/
theorem mirrored_select (tok : Token) :
    Mirrored lax P f (Node.moved f) (do
      let subject ← Grammar.expression m levels
      opening
      let first ← peek
      if first.kind = .bar then
        let arms ← Grammar.arms m first.pos.column
        pure (Node.select tok subject arms)
      else fail (.unexpected first.kind [.bar] "" first.pos)) (do
      let subject ← Grammar.expression n levels
      opening
      let first ← peek
      if first.kind = .bar then
        let arms ← Grammar.arms n first.pos.column
        pure (Node.select (tok.moved f) subject arms)
      else fail (.unexpected first.kind [.bar] "" first.pos)) := by
  intro r r' hr
  refine mirrors_bind (ih.whole hr) ?_
  rintro subject _ r₁ r₁' ⟨rfl, hr₁⟩
  refine mirrors_bind (mirrors_opening hr₁) ?_
  rintro _ _ r₂ r₂' ⟨hr₂, hfresh⟩
  refine mirrors_bind (mirrors_peek hr₂) ?_
  rintro first _ r₃ r₃' ⟨rfl, rfl, rfl, hfirst⟩
  refine mirrors_ite Iff.rfl (fun hkind => ?_) fun _ => mirrors_fail
  have hpos : P first.pos := (hfresh first hfirst).resolve_left (by simp [hkind])
  refine mirrors_bind (ih.arms first.pos hpos (hr₂.behind hfresh)) ?_
  rintro arms _ r₄ r₄' ⟨rfl, hr₄⟩
  exact mirrors_pure ⟨rfl, hr₄⟩

/-- Atoms are mirrored if their parts are. -/
theorem mirrored_atom : Mirrored lax P f (Node.moved f) (atom (m + 1)) (atom (n + 1)) := by
  intro r r' hr
  rw [atom, atom]
  refine mirrors_bind (mirrors_expect hr (by decide)) ?_
  rintro tok _ r₁ r₁' ⟨rfl, hkind, hr₁⟩
  simp only [atomKinds, List.mem_cons, List.not_mem_nil, or_false] at hkind
  rcases hkind with hk | hk | hk | hk | hk | hk | hk <;> simp only [Token.kind_moved, hk]
  · exact mirrored_integerLiteral tok hr₁
  · exact mirrored_floatLiteral tok hr₁
  · exact mirrors_pure ⟨rfl, hr₁⟩
  · exact mirrors_pure ⟨rfl, hr₁⟩
  · refine mirrors_bind (ih.whole hr₁) ?_
    rintro inner _ r₂ r₂' ⟨rfl, hr₂⟩
    refine mirrors_mono (mirrors_close hr₂ _ _) ?_
    rintro _ _ r₃ r₃' ⟨rfl, rfl, hr₃⟩
    exact ⟨rfl, hr₃⟩
  · refine mirrors_if_peekIs hr₁ (by decide) ?_ (mirrors_pure ⟨rfl, hr₁⟩)
    intro paren r₂ r₂' _ hr₂
    refine mirrors_bind (ih.arguments hr₂) ?_
    rintro args _ r₃ r₃' ⟨rfl, hr₃⟩
    exact mirrors_pure ⟨rfl, hr₃⟩
  · exact mirrored_select ih tok hr₁

end Expressions

/-- With the same fuel, or where fuel may differ, expressions are mirrored. -/
theorem expressionsMirror (hf : Position.KeepsColumnsOn P f) (m n : Nat) (hfuel : m = n ∨ lax) :
    ExpressionsMirror lax P f m n := by
  refine fuels_induction ?_ ?_ ?_ ?_ m n hfuel
  · constructor <;> intros <;> exact fun _ => mirrors_starved_both
  · intro hlax n
    constructor <;> intros <;> exact fun _ => mirrors_starved hlax
  · intro hlax m
    constructor <;> intros <;> exact fun _ => mirrors_starving hlax
  · intro m n _ ih
    exact {
      expression := fun _ hlv => mirrored_expression ih hlv
      operations := fun _ _ left hlv => mirrored_operations ih left hlv
      unary := mirrored_unary ih
      atom := mirrored_atom ih
      arguments := mirrored_arguments ih
      moreArguments := mirrored_moreArguments ih
      arms := fun _ hpos => mirrored_arms ih hf hpos }

/-! ## Statements of one line -/

/-- Further parameters are mirrored. -/
theorem mirrored_moreParams (m n : Nat) (hfuel : m = n ∨ lax) :
    Mirrored lax P f id (moreParams m) (moreParams n) := by
  refine @fuels_induction lax (fun m n => Mirrored lax P f id (moreParams m) (moreParams n))
    ?_ ?_ ?_ ?_ m n hfuel
  · exact fun _ => mirrors_starved_both
  · exact fun hlax _ _ _ _ => mirrors_starved hlax
  · exact fun hlax _ _ _ _ => mirrors_starving hlax
  · intro m n _ ih r r' hr
    rw [moreParams, moreParams]
    refine mirrors_if_peekIs hr (by decide) ?_ (mirrors_pure ⟨rfl, hr⟩)
    intro comma r₁ r₁' _ hr₁
    refine mirrors_bind (mirrors_expect hr₁ (by decide)) ?_
    rintro param _ r₂ r₂' ⟨rfl, -, hr₂⟩
    refine mirrors_bind (ih hr₂) ?_
    rintro rest _ r₃ r₃' ⟨rfl, hr₃⟩
    exact mirrors_pure ⟨rfl, hr₃⟩

/-- Parameters are mirrored. -/
theorem mirrored_params (hfuel : m = n ∨ lax) : Mirrored lax P f id (params m) (params n) := by
  intro r r' hr
  unfold params
  refine mirrors_bind (mirrors_expect hr (by decide)) ?_
  rintro paren _ r₁ r₁' ⟨-, -, hr₁⟩
  refine mirrors_bind (mirrors_peekIs hr₁) ?_
  rintro b _ r₂ r₂' ⟨rfl, rfl, rfl, -⟩
  refine mirrors_ite Iff.rfl (fun _ => ?_) fun _ => ?_
  · refine mirrors_mono (mirrors_close hr₁ [] []) ?_
    rintro _ _ r₃ r₃' ⟨rfl, rfl, hr₃⟩
    exact ⟨rfl, hr₃⟩
  · refine mirrors_bind (mirrors_expect hr₁ (by decide)) ?_
    rintro param _ r₃ r₃' ⟨rfl, -, hr₃⟩
    refine mirrors_bind (mirrored_moreParams m n hfuel hr₃) ?_
    rintro rest _ r₄ r₄' ⟨rfl, hr₄⟩
    refine mirrors_mono (mirrors_close hr₄ _ _) ?_
    rintro _ _ r₅ r₅' ⟨rfl, rfl, hr₅⟩
    exact ⟨rfl, hr₅⟩

section Lines

variable (hx : ExpressionsMirror lax P f m n)
include hx

/-- Declarations are mirrored if expressions are. -/
theorem mirrored_declaration :
    Mirrored lax P f (Node.moved f) (declaration m) (declaration n) := by
  intro r r' hr
  unfold declaration
  refine mirrors_bind (mirrors_expect hr (by decide)) ?_
  rintro tok _ r₁ r₁' ⟨rfl, -, hr₁⟩
  refine mirrors_bind (mirrors_expect hr₁ (by decide)) ?_
  rintro name _ r₂ r₂' ⟨rfl, -, hr₂⟩
  refine mirrors_if_peekIs hr₂ (by decide) ?_ (mirrors_pure ⟨rfl, hr₂⟩)
  intro sign r₃ r₃' _ hr₃
  refine mirrors_bind (hx.whole hr₃) ?_
  rintro value _ r₄ r₄' ⟨rfl, hr₄⟩
  exact mirrors_pure ⟨rfl, hr₄⟩

/-- A `return` is mirrored if expressions are. -/
theorem mirrors_ret (hr : r.Alike P f r') {first : Token} (hfirst : r.next? = some first)
    (hkind : first.kind = .returnWord) :
    Mirrors lax f (ret m) (ret n) r r' fun a a' s s' => a' = a.moved f ∧ s.Alike P f s' := by
  unfold ret
  refine mirrors_bind (mirrors_next hr) ?_
  rintro tok _ r₁ r₁' ⟨rfl, htok, -, halike⟩
  obtain rfl : first = tok := Option.some.inj (hfirst.symm.trans htok)
  have hr₁ : r₁.Alike P f r₁' := halike (by simp [Token.isBreak, hkind])
  refine mirrors_bind (mirrors_peekIs hr₁) ?_
  rintro b _ r₂ r₂' ⟨rfl, rfl, rfl, -⟩
  refine mirrors_ite Iff.rfl (fun _ => mirrors_pure ⟨rfl, hr₁⟩) fun _ => ?_
  refine mirrors_bind (hx.whole hr₁) ?_
  rintro value _ r₃ r₃' ⟨rfl, hr₃⟩
  exact mirrors_pure ⟨rfl, hr₃⟩

/-- Expressions that are statements are mirrored. -/
theorem mirrored_expressionStatement :
    Mirrored lax P f (Node.moved f) (expressionStatement m) (expressionStatement n) := by
  intro r r' hr
  unfold expressionStatement
  refine mirrors_bind (hx.whole hr) ?_
  rintro target _ r₁ r₁' ⟨rfl, hr₁⟩
  refine mirrors_if_continuesWith hr₁ (by decide) ?_ (mirrors_pure ⟨rfl, hr₁⟩)
  intro sign r₂ r₂' _ hr₂
  cases target with
  | reference tok name =>
    refine mirrors_bind (hx.whole hr₂) ?_
    rintro value _ r₃ r₃' ⟨rfl, hr₃⟩
    exact mirrors_pure ⟨rfl, hr₃⟩
  | _ => exact mirrors_fail

/-- Behind the end of a line the readings are alike when all line breaks are skipped, and a line
starts there. -/
theorem mirrors_simpleStatement (hr : r.Alike P f r') {first : Token}
    (hfirst : r.next? = some first) :
    Mirrors lax f (simpleStatement m first.kind) (simpleStatement n first.kind) r r'
      fun a a' s s' => a' = a.moved f ∧ s.AlikeBehind P f s' := by
  have hend : ∀ {g g' : Grammar Node},
      Mirrors lax f g g' r r' (fun a a' s s' => a' = a.moved f ∧ s.Alike P f s') →
      Mirrors lax f (do let node ← g; endLine; pure node) (do let node ← g'; endLine; pure node)
        r r' fun a a' s s' => a' = a.moved f ∧ s.AlikeBehind P f s' := by
    intro g g' hg
    refine mirrors_bind hg ?_
    rintro node _ r₁ r₁' ⟨rfl, hr₁⟩
    refine mirrors_bind (mirrors_endLine hr₁) ?_
    intro _ _ r₂ r₂' hbehind
    exact mirrors_pure ⟨rfl, hbehind⟩
  unfold simpleStatement
  by_cases hlet : first.kind = .letWord
  · simp only [hlet, if_true]
    exact hend (mirrored_declaration hx hr)
  · by_cases hret : first.kind = .returnWord
    · simp only [hret, reduceCtorEq, if_true, if_false]
      exact hend (mirrors_ret hx hr hfirst hret)
    · simp only [hlet, hret, if_false]
      exact hend (mirrored_expressionStatement hx hr)

end Lines

/-! ## Blocks and branches -/

/-- A block with every token at another place. -/
def movedBlock (f : Position → Position) (b : Token × List Node) : Token × List Node :=
  (b.1.moved f, Node.allMoved f b.2)

/-- What holds of the pieces of the grammar for statements with the given amounts of fuel: behind
each of them a line starts. -/
structure StatementsMirror (lax : Prop) (P : Position → Prop) (f : Position → Position)
    (m n : Nat) : Prop where
  statement : ∀ {r r'}, r.Alike P f r' → Mirrors lax f (statement m) (statement n) r r'
    fun a a' s s' => a' = a.moved f ∧ s.AlikeBehind P f s'
  block : ∀ {r r'}, r.Alike P f r' → Mirrors lax f (block m) (block n) r r'
    fun b b' s s' => b' = movedBlock f b ∧ s.Alike P f s' ∧ s.Fresh P
  statements : ∀ {pos r r'}, P pos → r.AlikeBehind P f r' →
    Mirrors lax f (statements m pos.column) (statements n (f pos).column) r r'
      fun a a' s s' => a' = Node.allMoved f a ∧ s.Alike P f s' ∧ s.Fresh P
  branches : ∀ {r r'}, r.Alike P f r' → r.Fresh P → Mirrors lax f (branches m) (branches n) r r'
    fun a a' s s' => a' = a.moved f ∧ s.Alike P f s' ∧ s.Fresh P

section Statements

variable (hx : ExpressionsMirror lax P f m n) (ih : StatementsMirror lax P f m n)
include ih

section Blocks

include hx

/-- A condition and its body. -/
theorem mirrors_guarded {β : Type} {K : β → β → Reading → Reading → Prop}
    {k k' : Node → Token × List Node → Grammar β} (hr : r.Alike P f r')
    (h : ∀ condition b s s', s.Alike P f s' → s.Fresh P →
      Mirrors lax f (k condition b) (k' (condition.moved f) (movedBlock f b)) s s' K) :
    Mirrors lax f (do
      let condition ← expression m levels
      let b ← Grammar.block m
      k condition b) (do
      let condition ← expression n levels
      let b ← Grammar.block n
      k' condition b) r r' K := by
  refine mirrors_bind (hx.whole hr) ?_
  rintro condition _ r₁ r₁' ⟨rfl, hr₁⟩
  refine mirrors_bind (ih.block hr₁) ?_
  rintro b _ r₂ r₂' ⟨rfl, hr₂, hfresh⟩
  exact h condition b r₂ r₂' hr₂ hfresh

/-- A statement is mirrored if its parts are. -/
theorem mirrors_statement (hfuel : m = n ∨ lax) (hr : r.Alike P f r') :
    Mirrors lax f (statement (m + 1)) (statement (n + 1)) r r' fun a a' s s' =>
      a' = a.moved f ∧ s.AlikeBehind P f s' := by
  rw [statement, statement]
  refine mirrors_bind (mirrors_peek hr) ?_
  rintro first _ r₁ r₁' ⟨rfl, rfl, rfl, hfirst⟩
  rw [Token.kind_moved]
  by_cases hfn : first.kind = .fnWord
  · simp only [hfn]
    refine mirrors_bind (mirrors_expect hr (by decide)) ?_
    rintro tok _ r₂ r₂' ⟨rfl, -, hr₂⟩
    refine mirrors_bind (mirrors_expect hr₂ (by decide)) ?_
    rintro name _ r₃ r₃' ⟨rfl, -, hr₃⟩
    refine mirrors_bind (mirrored_params hfuel hr₃) ?_
    rintro names _ r₄ r₄' ⟨rfl, hr₄⟩
    refine mirrors_bind (ih.block hr₄) ?_
    rintro b _ r₅ r₅' ⟨rfl, hr₅, hfresh⟩
    exact mirrors_pure ⟨rfl, hr₅.behind hfresh⟩
  by_cases hif : first.kind = .ifWord
  · simp only [hif]
    refine mirrors_bind (mirrors_expect hr (by decide)) ?_
    rintro tok _ r₂ r₂' ⟨rfl, -, hr₂⟩
    refine mirrors_guarded hx ih hr₂ ?_
    intro condition b r₃ r₃' hr₃ hfresh
    refine mirrors_bind (ih.branches hr₃ hfresh) ?_
    rintro rest _ r₄ r₄' ⟨rfl, hr₄, hfresh₄⟩
    exact mirrors_pure ⟨rfl, hr₄.behind hfresh₄⟩
  by_cases hwhile : first.kind = .whileWord
  · simp only [hwhile]
    refine mirrors_bind (mirrors_expect hr (by decide)) ?_
    rintro tok _ r₂ r₂' ⟨rfl, -, hr₂⟩
    refine mirrors_guarded hx ih hr₂ ?_
    intro condition b r₃ r₃' hr₃ hfresh
    exact mirrors_pure ⟨rfl, hr₃.behind hfresh⟩
  · -- none of the words that open blocks: a statement of one line
    split
    · exact absurd ‹_› hfn
    · exact absurd ‹_› hif
    · exact absurd ‹_› hwhile
    · exact mirrors_simpleStatement hx hr hfirst

/-- Branches are mirrored if their parts are. -/
theorem mirrors_branches (hr : r.Alike P f r') (hfresh : r.Fresh P) :
    Mirrors lax f (branches (m + 1)) (branches (n + 1)) r r' fun a a' s s' =>
      a' = a.moved f ∧ s.Alike P f s' ∧ s.Fresh P := by
  rw [branches, branches]
  refine mirrors_if_peekIs hr (by decide) ?_ ?_
  · intro word r₁ r₁' _ hr₁
    refine mirrors_guarded hx ih hr₁ ?_
    intro condition b r₂ r₂' hr₂ hfresh₂
    refine mirrors_bind (ih.branches hr₂ hfresh₂) ?_
    rintro rest _ r₃ r₃' ⟨rfl, hr₃, hfresh₃⟩
    exact mirrors_pure ⟨rfl, hr₃, hfresh₃⟩
  · refine mirrors_if_peekIs hr (by decide) ?_ (mirrors_pure ⟨rfl, hr, hfresh⟩)
    intro word r₁ r₁' _ hr₁
    refine mirrors_bind (ih.block hr₁) ?_
    rintro b _ r₂ r₂' ⟨rfl, hr₂, hfresh₂⟩
    exact mirrors_pure ⟨rfl, hr₂, hfresh₂⟩

end Blocks

/-- A block is mirrored if its statements are. -/
theorem mirrors_block (hr : r.Alike P f r') :
    Mirrors lax f (block (m + 1)) (block (n + 1)) r r' fun b b' s s' =>
      b' = movedBlock f b ∧ s.Alike P f s' ∧ s.Fresh P := by
  rw [block, block]
  refine mirrors_bind (mirrors_opening hr) ?_
  rintro _ _ r₁ r₁' ⟨hr₁, hfresh⟩
  refine mirrors_bind (mirrors_peek hr₁) ?_
  rintro first _ r₂ r₂' ⟨rfl, rfl, rfl, hfirst⟩
  refine mirrors_ite Iff.rfl (fun _ => mirrors_fail) fun hend => ?_
  have hpos : P first.pos := (hfresh first hfirst).resolve_left hend
  refine mirrors_bind (ih.statements hpos (hr₁.behind hfresh)) ?_
  rintro body _ r₃ r₃' ⟨rfl, hr₃, hfresh₃⟩
  refine mirrors_bind (mirrors_note hr₃ _ _ _ _) ?_
  rintro _ _ r₄ r₄' ⟨hr₄, hfresh₄⟩
  exact mirrors_pure ⟨rfl, hr₄, hfresh₄ hfresh₃⟩

/-- Statements in a column are mirrored if each of them is, since columns are kept apart. -/
theorem mirrors_statements (hf : Position.KeepsColumnsOn P f) {pos : Position} (hpos : P pos)
    (hr : r.AlikeBehind P f r') :
    Mirrors lax f (statements (m + 1) pos.column) (statements (n + 1) (f pos).column) r r'
      fun a a' s s' => a' = Node.allMoved f a ∧ s.Alike P f s' ∧ s.Fresh P := by
  rw [statements, statements]
  refine mirrors_bind (mirrors_skipBreaks hr.alike) ?_
  rintro _ _ r₁ r₁' ⟨rfl, rfl⟩
  have hr₁ := hr.alike
  refine mirrors_bind (mirrors_peek hr₁) ?_
  rintro tok _ r₂ r₂' ⟨rfl, rfl, rfl, htok⟩
  have hsame : ((tok.moved f).kind = .endOfInput ∨ (tok.moved f).pos.column ≠ (f pos).column) ↔
      (tok.kind = .endOfInput ∨ tok.pos.column ≠ pos.column) := by
    rw [Token.kind_moved, Token.pos_moved]
    rcases hr.fresh tok htok with hend | hcounts
    · simp [hend]
    · rw [ne_eq, ne_eq, hf tok.pos pos hcounts hpos]
  refine mirrors_ite hsame (fun _ => mirrors_pure ⟨rfl, hr₁, hr.fresh⟩) fun _ => ?_
  refine mirrors_bind (ih.statement hr₁) ?_
  rintro first _ r₃ r₃' ⟨rfl, hbehind⟩
  refine mirrors_bind (ih.statements hpos hbehind) ?_
  rintro rest _ r₄ r₄' ⟨rfl, hr₄, hfresh₄⟩
  exact mirrors_pure ⟨rfl, hr₄, hfresh₄⟩

end Statements

/-- With the same fuel, or where fuel may differ, statements are mirrored. -/
theorem statementsMirror (hf : Position.KeepsColumnsOn P f) (m n : Nat) (hfuel : m = n ∨ lax) :
    StatementsMirror lax P f m n := by
  refine fuels_induction ?_ ?_ ?_ ?_ m n hfuel
  · constructor <;> intros <;> exact mirrors_starved_both
  · intro hlax n
    constructor <;> intros <;> exact mirrors_starved hlax
  · intro hlax m
    constructor <;> intros <;> exact mirrors_starving hlax
  · intro m n hless ih
    have hx := expressionsMirror hf m n hless
    exact {
      statement := mirrors_statement hx ih hless
      block := mirrors_block ih
      statements := mirrors_statements ih hf
      branches := mirrors_branches hx ih }

/-- The statements of a source may stand in any columns. -/
theorem mirrors_program (hf : Position.KeepsColumnsOn P f) (m n : Nat) (hfuel : m = n ∨ lax)
    (hr : r.pastBreaks.Alike P f r'.pastBreaks) :
    Mirrors lax f (program m) (program n) r r' fun a a' s s' =>
      a' = Node.allMoved f a ∧ s.Alike P f s' := by
  refine @fuels_induction lax (fun m n => ∀ {r r'}, r.pastBreaks.Alike P f r'.pastBreaks →
    Mirrors lax f (program m) (program n) r r' fun a a' s s' =>
      a' = Node.allMoved f a ∧ s.Alike P f s') ?_ ?_ ?_ ?_ m n hfuel r r' hr
  · exact fun _ => mirrors_starved_both
  · exact fun hlax _ _ _ _ => mirrors_starved hlax
  · exact fun hlax _ _ _ _ => mirrors_starving hlax
  · intro m n hless ih r r' hr
    rw [program, program]
    refine mirrors_bind (mirrors_skipBreaks hr) ?_
    rintro _ _ r₁ r₁' ⟨rfl, rfl⟩
    refine mirrors_bind (mirrors_peekIs hr) ?_
    rintro b _ r₂ r₂' ⟨rfl, rfl, rfl, -⟩
    refine mirrors_ite Iff.rfl (fun _ => mirrors_pure ⟨rfl, hr⟩) fun _ => ?_
    refine mirrors_bind ((statementsMirror hf m n hless).statement hr) ?_
    rintro first _ r₃ r₃' ⟨rfl, hbehind⟩
    refine mirrors_bind (ih hbehind.alike) ?_
    rintro rest _ r₄ r₄' ⟨rfl, hr₄⟩
    exact mirrors_pure ⟨rfl, hr₄⟩

end Grammar

/-! ## Whole sources -/

/-- The tree with the tokens of its statements at other places. Its root stands for no token, and
stays. -/
def Node.movedInside (f : Position → Position) : Node → Node
  | .block tok statements => .block tok (Node.allMoved f statements)
  | n => n.moved f

/-- What came of reading a source, with the tokens of the source at other places. -/
def Parse.movedInside (f : Position → Position) : Except Halt Node → Except Halt Node
  | .ok tree => .ok (tree.movedInside f)
  | .error h => .error (h.moved f)

/-- If the readings of two sources are alike, what comes of the second one is what comes of the
first one at other places. The amounts of fuel may differ if both are enough. -/
theorem Parse.outcome_of_alike {P : Position → Prop} {f : Position → Position}
    {s s' : TokenStream} (hf : Position.KeepsColumnsOn P f)
    (hs : (Reading.ofStream s).Alike P f (Reading.ofStream s'))
    (hfuel : s.front.length = s'.front.length ∨
      (ofStream s).outcome ≠ .error .outOfFuel ∧ (ofStream s').outcome ≠ .error .outOfFuel) :
    (ofStream s').outcome = Parse.movedInside f (ofStream s).outcome := by
  have hamounts := hfuel.imp_left (congrArg fuelFor)
  have hmirror := Grammar.mirrors_program hf _ _ hamounts hs.pastBreaks
  have hstop : ∀ {s : TokenStream} {h left},
      Grammar.program (fuelFor s.front.length) (.ofStream s) = .error h left →
        (ofStream s).outcome = .error h := by
    intro s h left hrun
    unfold ofStream
    rw [hrun]
  unfold Grammar.Mirrors at hmirror
  -- a run that is out of fuel would contradict `hfuel`, so both give trees or both stop
  cases hrun : Grammar.program (fuelFor s.front.length) (.ofStream s) with
  | ok ns left =>
    cases hrun' : Grammar.program (fuelFor s'.front.length) (.ofStream s') with
    | ok ns' left' =>
      rw [hrun, hrun'] at hmirror
      obtain ⟨rfl, -⟩ := hmirror
      unfold ofStream
      rw [hrun, hrun']
      rfl
    | error h' left' =>
      rw [hrun, hrun'] at hmirror
      obtain ⟨henough, rfl⟩ := hmirror
      exact absurd (hstop hrun') henough.2
  | error h left =>
    cases hrun' : Grammar.program (fuelFor s'.front.length) (.ofStream s') with
    | ok ns' left' =>
      rw [hrun, hrun'] at hmirror
      obtain ⟨henough, rfl⟩ := hmirror
      exact absurd (hstop hrun) henough.1
    | error h' left' =>
      rw [hrun, hrun'] at hmirror
      rcases hmirror with rfl | ⟨henough, rfl | rfl⟩
      · rw [hstop hrun, hstop hrun']
        rfl
      · exact absurd (hstop hrun) henough.1
      · exact absurd (hstop hrun') henough.2

end Offside
