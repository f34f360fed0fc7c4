import Offside.Proofs.Token.Legal
import Offside.Token.Lookahead
import Mathlib.Logic.Function.Iterate

/-!
# The token read ahead cannot be seen from outside

Whatever is asked of a text with a token of lookahead, in whatever order, the replies are those of a
cursor over the outcomes that taking tokens alone would give, one after the other. A request that
looks leaves the cursor where it is, as long as it stands at a token; every other request, and every
request that meets a stop, moves it on by one. The stops of a text are faults of its characters and
strings. Each of them is met once, and behind the last token there is the end for ever.

`Stands` says where a source with lookahead stands among the outcomes, and `stands_answer` is the
one step from which the replies to all requests follow.
-/

set_option autoImplicit false

namespace Offside

/-! ## What scans of a source come to -/

/-- Whether a stop is a fault of a character or of a string. -/
def Halt.isLexical : Halt → Bool
  | .fault (.invalidCharacter ..) | .fault (.unterminatedString ..) => true
  | _ => false

namespace Scan

/-- The only faults at a token are invalid characters and open strings. -/
theorem isLexical_of_lexemeAt {s : Spot} {rest : List Spot} {h : Halt}
    (hlex : (lexemeAt false s rest).1 = .error h) : h.isLexical = true := by
  have hstring := stringTail_not_refused rest
  have hnumber := numberTail_not_refused false rest
  simp only [lexemeAt, extensibleSign, plainSign, string, number, word, invalid, lexeme] at hlex
  repeat' split at hlex
  all_goals simp_all
  all_goals
    subst hlex
    rfl

end Scan

namespace Source

/-- What is left of a source after the given number of scans. -/
def afterScans (s : Source) (count : Nat) : Source := (fun s => s.scan.2)^[count] s

/-- What the scan after the given number of scans gives. -/
def outcome (s : Source) (count : Nat) : Except Halt Token := (s.afterScans count).scan.1

variable {s : Source}

/-- One scan more is made of the source that the earlier ones left. -/
theorem afterScans_succ (s : Source) (count : Nat) :
    s.afterScans (count + 1) = (s.afterScans count).scan.2 :=
  Function.iterate_succ_apply' _ count s

/-- The scan after the first one is the first of what the first one left. -/
theorem outcome_succ (s : Source) (count : Nat) :
    s.outcome (count + 1) = s.scan.2.outcome count := rfl

/-- A source that has nothing but a gap gives its end and is empty; any other one gets shorter and
does not give an end. -/
theorem scan_ends_or_shortens (hb : s.broken = false) :
    s.scan = (.ok ⟨.endOfInput, "", s.finish⟩, { s with rest := [] }) ∨
    s.scan.2.rest.length < s.rest.length ∧ s.scan.2.finish = s.finish ∧
      ∀ t, s.scan.1 = .ok t → t.kind ≠ .endOfInput := by
  have hlength := Scan.length_afterGap_le false s.rest
  unfold scan
  cases hgap : Scan.afterGap false s.rest with
  | nil =>
    left
    simp [final, hb]
  | cons first rest =>
    right
    have hleft := Scan.length_lexemeAt_le s.broken first rest
    have hgives := Scan.gives_lexemeAt first rest
    rw [hgap, List.length_cons] at hlength
    refine ⟨by dsimp only; omega, rfl, ?_⟩
    intro t ht
    rw [hb] at ht
    unfold Scan.Gives at hgives
    rw [ht] at hgives
    exact hgives.notEnd

/-- An empty source gives its end again and again. -/
theorem outcome_of_nil (hb : s.broken = false) (hrest : s.rest = []) (count : Nat) :
    s.outcome count = .ok ⟨.endOfInput, "", s.finish⟩ := by
  have hscan : s.scan = (.ok ⟨.endOfInput, "", s.finish⟩, s) := by
    unfold scan
    rw [hrest]
    simp only [Scan.afterGap, final, hb, Bool.false_eq_true, if_false, Prod.mk.injEq, true_and]
    rw [← hrest, ← hb]
  induction count with
  | zero => exact congrArg Prod.fst hscan
  | succ count ih =>
    rw [outcome_succ, hscan]
    exact ih

/-- From some scan on a source gives its end, and before it gives none. -/
theorem exists_last (s : Source) (hb : s.broken = false) :
    ∃ last, (∀ count, last ≤ count → s.outcome count = .ok ⟨.endOfInput, "", s.finish⟩) ∧
      ∀ count t, count < last → s.outcome count = .ok t → t.kind ≠ .endOfInput := by
  induction hlength : s.rest.length using Nat.strongRecOn generalizing s with
  | _ length ih =>
  rcases scan_ends_or_shortens hb with hscan | ⟨hshorter, hfinish, hne⟩
  · refine ⟨0, ?_, fun _ _ h => absurd h (Nat.not_lt_zero _)⟩
    intro count _
    cases count with
    | zero => exact congrArg Prod.fst hscan
    | succ count =>
      rw [outcome_succ, hscan]
      exact outcome_of_nil (s := { s with rest := [] }) hb rfl count
  · obtain ⟨last, hafter, hbefore⟩ :=
      ih _ (hlength ▸ hshorter) s.scan.2 (scan_gives hb).2 rfl
    rw [hfinish] at hafter
    refine ⟨last + 1, ?_, ?_⟩
    · intro count hle
      obtain ⟨n, rfl⟩ : ∃ n, count = n + 1 := ⟨count - 1, by omega⟩
      exact hafter n (by omega)
    · intro count t hlt ht
      cases count with
      | zero => exact hne t ht
      | succ n => exact hbefore n t (by omega) ht

/-- The stops of a source that is not broken are faults of its characters and strings. -/
theorem isLexical_of_outcome (hb : s.broken = false) {count : Nat} {h : Halt}
    (hout : s.outcome count = .error h) : h.isLexical = true := by
  induction count generalizing s with
  | zero =>
    change s.scan.1 = _ at hout
    unfold scan at hout
    cases hgap : Scan.afterGap false s.rest with
    | nil => simp [hgap, final, hb] at hout
    | cons first rest =>
      simp only [hgap, hb] at hout
      exact Scan.isLexical_of_lexemeAt hout
  | succ count ih => exact ih (scan_gives hb).2 hout

end Source

namespace Lookahead

/-! ## Requests and replies -/

/-- Something that is asked of a source with lookahead. -/
inductive Request where
  /-- The next token, which is taken. -/
  | take
  /-- The next token, which is taken; a stop is told and interrupts nobody. -/
  | next
  /-- The next token, which is kept. -/
  | peek
  /-- Whether the next token, which is kept, is of one of the kinds. -/
  | peekIs (kinds : List Kind)
  /-- The next token, which is taken and has to be of one of the kinds. -/
  | expect (kinds : List Kind)
  deriving DecidableEq, Repr

/-- What a request gets. -/
inductive Reply where
  /-- A token. -/
  | token (t : Token)
  /-- A verdict about the kind of a token. -/
  | verdict (holds : Bool)
  /-- A stop that interrupts. -/
  | stopped (h : Halt)
  /-- A stop that is told. -/
  | told (h : Halt)
  deriving DecidableEq, Repr

/-- The reply that shows an outcome, where a stop interrupts. -/
def Reply.ofOutcome : Except Halt Token → Reply
  | .ok t => .token t
  | .error h => .stopped h

/-- The reply to a request, and the source with lookahead after it. -/
def answer (l : Lookahead) : Request → Reply × Lookahead
  | .take => (.ofOutcome l.take.1, l.take.2)
  | .next =>
      match l.take with
      | (.ok t, left) => (.token t, left)
      | (.error h, left) => (.told h, left)
  | .peek => (.ofOutcome l.peek.1, l.peek.2)
  | .peekIs kinds =>
      match l.peekIs kinds with
      | (.ok holds, left) => (.verdict holds, left)
      | (.error h, left) => (.stopped h, left)
  | .expect kinds => (.ofOutcome (l.expect kinds).1, (l.expect kinds).2)

/-- The replies to requests that are made one after the other. -/
def replies (l : Lookahead) : List Request → List Reply
  | [] => []
  | r :: rs => (l.answer r).1 :: (l.answer r).2.replies rs

/-- What taking a token gives, after the given number of tokens or stops was taken. -/
def outcome (l : Lookahead) (count : Nat) : Except Halt Token :=
  ((fun l => l.take.2)^[count] l).take.1

/-! ## The cursor -/

namespace Request

/-- The reply to a request that meets the given outcome. -/
def reply : Request → Except Halt Token → Reply
  | .take, .ok t | .next, .ok t | .peek, .ok t => .token t
  | .peekIs kinds, .ok t => .verdict (decide (t.kind ∈ kinds))
  | .expect kinds, .ok t =>
      if t.kind ∈ kinds then .token t
      else .stopped (.fault (.unexpected t.kind kinds "" t.pos))
  | .next, .error h => .told h
  | .take, .error h | .peek, .error h | .peekIs _, .error h | .expect _, .error h => .stopped h

/-- Whether a request looks at the next token and does not take it. -/
def looks : Request → Bool
  | .peek | .peekIs _ => true
  | .take | .next | .expect _ => false

/-- How far a request that meets the given outcome moves the cursor. -/
def advance (r : Request) : Except Halt Token → Nat
  | .ok _ => if r.looks then 0 else 1
  | .error _ => 1

variable {r : Request}

/-- No request goes forward by more than one scan. -/
theorem advance_le_one (r : Request) (outcome : Except Halt Token) : r.advance outcome ≤ 1 := by
  cases outcome with
  | error h => exact Nat.le_refl 1
  | ok t => cases hr : r.looks <;> simp [advance, hr]

/-- A request that takes the token goes forward by one scan. -/
theorem advance_of_takes (hr : r.looks = false) (outcome : Except Halt Token) :
    r.advance outcome = 1 := by
  cases outcome with
  | error h => rfl
  | ok t => simp [advance, hr]

/-- All requests that only look go forward alike. -/
theorem advance_of_looks (hr : r.looks = true) (outcome : Except Halt Token) :
    r.advance outcome = Request.peek.advance outcome := by
  cases outcome with
  | error h => rfl
  | ok t =>
    have hpeek : looks .peek = true := rfl
    simp [advance, hr, hpeek]

end Request

section Cursor

variable (outcomes : Nat → Except Halt Token)

/-- The places of the cursor at which requests are answered, the first of them at the given
place. -/
def places : (place : Nat) → List Request → List Nat
  | _, [] => []
  | place, r :: rs => place :: places (place + r.advance (outcomes place)) rs

/-- The place of the cursor after requests, the first of which was answered at the given place. -/
def placeAfter : (place : Nat) → List Request → Nat
  | place, [] => place
  | place, r :: rs => placeAfter (place + r.advance (outcomes place)) rs

/-- The replies to requests of which each meets the outcome at its place. -/
def cursorReplies (requests : List Request) : List Reply :=
  List.zipWith (fun r place => r.reply (outcomes place)) requests (places outcomes 0 requests)

variable {outcomes}

/-- Requests never go back. -/
theorem le_placeAfter (place : Nat) (requests : List Request) :
    place ≤ placeAfter outcomes place requests := by
  induction requests generalizing place with
  | nil => exact Nat.le_refl place
  | cons r rs ih => exact Nat.le_trans (Nat.le_add_right place _) (ih _)

/-- No request is answered from a place that is left behind. -/
theorem not_mem_places_of_lt {place n : Nat} (h : n < place) (requests : List Request) :
    n ∉ places outcomes place requests := by
  induction requests generalizing place with
  | nil => exact List.not_mem_nil
  | cons r rs ih =>
    rw [places, List.mem_cons, not_or]
    exact ⟨Nat.ne_of_lt h, ih (by omega)⟩

/-- A stop is met by one request if the cursor goes past it, and by none if it does not. -/
theorem count_places_of_error {n : Nat} {h : Halt} (hn : outcomes n = .error h) {place : Nat}
    (hle : place ≤ n) (requests : List Request) :
    (places outcomes place requests).count n =
      if n < placeAfter outcomes place requests then 1 else 0 := by
  induction requests generalizing place with
  | nil =>
    rw [placeAfter, if_neg (by omega)]
    rfl
  | cons r rs ih =>
    rw [places, placeAfter, List.count_cons]
    by_cases hplace : place = n
    · -- whatever is asked here meets the stop and moves the cursor behind it
      have hadvance : r.advance (outcomes place) = 1 := by
        rw [hplace, hn]
        rfl
      have hafter : place + 1 ≤ placeAfter outcomes (place + 1) rs := le_placeAfter (place + 1) rs
      have hnone : (places outcomes (place + 1) rs).count place = 0 :=
        List.count_eq_zero_of_not_mem (not_mem_places_of_lt (Nat.lt_succ_self place) rs)
      subst hplace
      rw [hadvance, hnone, if_pos (Nat.lt_of_succ_le hafter)]
      simp
    · have hmove := r.advance_le_one (outcomes place)
      rw [ih (by omega)]
      simp [hplace]

end Cursor

/-! ## Where a source with lookahead stands -/

/-- After the given number of outcomes of a source the next one is due: it is still in the source,
or it is a token that was read ahead. -/
def Stands (s : Source) (place : Nat) (l : Lookahead) : Prop :=
  match l.ahead with
  | none => l.source = s.afterScans place
  | some t => s.outcome place = .ok t ∧ l.source = s.afterScans (place + 1)

variable {s : Source} {place : Nat} {l : Lookahead}

/-- Taking gives the outcome that is due, and the next one becomes due. -/
theorem stands_take (h : Stands s place l) :
    l.take.1 = s.outcome place ∧ Stands s (place + 1) l.take.2 := by
  unfold take
  cases ha : l.ahead with
  | some t =>
    simp only [Stands, ha] at h
    exact ⟨h.1.symm, h.2⟩
  | none =>
    simp only [Stands, ha] at h
    simp only [h]
    exact ⟨rfl, (s.afterScans_succ place).symm⟩

/-- Looking gives the outcome that is due, and a token stays due, where a stop does not. -/
theorem stands_peek (h : Stands s place l) :
    l.peek.1 = s.outcome place ∧
      Stands s (place + Request.peek.advance (s.outcome place)) l.peek.2 := by
  unfold peek
  cases ha : l.ahead with
  | some t =>
    have hdue := h
    simp only [Stands, ha] at hdue
    rw [hdue.1]
    exact ⟨rfl, h⟩
  | none =>
    simp only [Stands, ha] at h
    simp only [h]
    refine ⟨rfl, ?_⟩
    cases hout : s.outcome place with
    | ok t =>
      have hscan : (s.afterScans place).scan.1 = .ok t := hout
      simp only [Stands, hscan, Except.toOption]
      exact ⟨hout, (s.afterScans_succ place).symm⟩
    | error e =>
      have hscan : (s.afterScans place).scan.1 = .error e := hout
      simp only [Stands, hscan, Except.toOption]
      exact (s.afterScans_succ place).symm

/-- A request that takes replies to what taking gives. -/
theorem answer_of_takes (l : Lookahead) {r : Request} (hr : r.looks = false) :
    l.answer r = (r.reply l.take.1, l.take.2) := by
  cases htake : l.take with
  | mk outcome left =>
  cases r with
  | peek => exact absurd hr (by decide)
  | peekIs kinds => exact absurd hr (by simp [Request.looks])
  | take => cases outcome <;> simp [answer, htake, Reply.ofOutcome, Request.reply]
  | next => cases outcome <;> simp [answer, htake, Request.reply]
  | expect kinds =>
    simp only [answer, expect, htake]
    cases outcome with
    | error h => rfl
    | ok t =>
      by_cases hmem : t.kind ∈ kinds
      · have hone : t.isOneOf kinds = true := by simpa [Token.isOneOf] using hmem
        simp only [bind, Except.bind, hone, Request.reply, if_pos hmem]
        rfl
      · have hone : t.isOneOf kinds = false := by simpa [Token.isOneOf] using hmem
        simp only [bind, Except.bind, hone, Request.reply, if_neg hmem]
        rfl

/-- A request that looks replies to what looking gives. -/
theorem answer_of_looks (l : Lookahead) {r : Request} (hr : r.looks = true) :
    l.answer r = (r.reply l.peek.1, l.peek.2) := by
  cases hpeek : l.peek with
  | mk outcome left =>
  cases r with
  | take | next => exact absurd hr (by decide)
  | expect kinds => exact absurd hr (by simp [Request.looks])
  | peek => cases outcome <;> simp [answer, hpeek, Reply.ofOutcome, Request.reply]
  | peekIs kinds =>
    cases outcome <;>
      simp [answer, peekIs, hpeek, Except.map, Request.reply, Token.isOneOf]

/-- A request gets the reply to the outcome that is due, and the cursor moves as it should. -/
theorem stands_answer (h : Stands s place l) (r : Request) :
    (l.answer r).1 = r.reply (s.outcome place) ∧
      Stands s (place + r.advance (s.outcome place)) (l.answer r).2 := by
  cases hr : r.looks with
  | false =>
    obtain ⟨htake, htaken⟩ := stands_take h
    rw [answer_of_takes l hr, htake, Request.advance_of_takes hr]
    exact ⟨rfl, htaken⟩
  | true =>
    obtain ⟨hpeek, hpeeked⟩ := stands_peek h
    rw [answer_of_looks l hr, hpeek, Request.advance_of_looks hr]
    exact ⟨rfl, hpeeked⟩

/-- The replies to requests from a place on are those of the cursor. -/
theorem replies_of_stands (h : Stands s place l) (requests : List Request) :
    l.replies requests =
      List.zipWith (fun r place => r.reply (s.outcome place)) requests
        (places s.outcome place requests) := by
  induction requests generalizing place l with
  | nil => rfl
  | cons r rs ih =>
    obtain ⟨hreply, hnext⟩ := stands_answer h r
    rw [replies, places, List.zipWith_cons_cons, hreply, ih hnext]

/-- With nothing read ahead, taking alone gives the outcomes of the source. -/
theorem outcome_eq (s : Source) : Lookahead.outcome ⟨s, none⟩ = s.outcome := by
  funext count
  have hstands : Stands s count ((fun l => l.take.2)^[count] ⟨s, none⟩) := by
    induction count with
    | zero => rfl
    | succ count ih =>
      rw [Function.iterate_succ_apply']
      exact (stands_take ih).2
  exact (stands_take hstands).1

end Lookahead

/-- The token read ahead cannot be seen from outside. To any requests that are made of a text, one
after the other, the replies are those of a cursor over the outcomes that taking alone gives. A stop
among the outcomes is a fault of a character or of a string, and one request meets it if the cursor
goes past it, and none otherwise. From some place on the outcome is the end of the text, always the
same one, and no outcome before is an end. -/
theorem requests_follow_cursor (text : Text) :
    let l := Lookahead.ofText text false
    (∀ requests, l.replies requests = Lookahead.cursorReplies l.outcome requests) ∧
    (∀ n h, l.outcome n = .error h → h.isLexical = true ∧
      ∀ requests, (Lookahead.places l.outcome 0 requests).count n =
        if n < Lookahead.placeAfter l.outcome 0 requests then 1 else 0) ∧
    ∃ last, (∀ n, last ≤ n →
        l.outcome n = .ok ⟨.endOfInput, "", text.chars.foldl Position.advance .start⟩) ∧
      ∀ n t, n < last → l.outcome n = .ok t → t.kind ≠ .endOfInput := by
  intro l
  have houtcome : l.outcome = (Source.ofText text false).outcome := Lookahead.outcome_eq _
  have hstart : Lookahead.Stands (Source.ofText text false) 0 l := rfl
  rw [houtcome]
  refine ⟨Lookahead.replies_of_stands hstart, ?_, Source.exists_last _ rfl⟩
  intro n h hn
  exact ⟨Source.isLexical_of_outcome rfl hn,
    fun requests => Lookahead.count_places_of_error hn (Nat.zero_le n) requests⟩

end Offside
