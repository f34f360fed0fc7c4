import Offside.Proofs.Eval.Cutoff

/-!
# Runs that come to an end

A run whose questions are limited comes to an end, whatever loops and calls it makes: every round of
a loop and every call asks a question, so the questions that are left go down, and between two
questions only parts of one tree are evaluated. A run whose questions are not limited comes to an
end if it meets no loop: then the depth that is left goes down with every call. Both are one
argument, by induction on what is left of the questions or of the depth, and then on the size of the
tree.

The functions that a run calls are those that live frames bind, so the machine is held to binding no
function with a loop in its body where loops are not permitted (`Held`).
-/

set_option autoImplicit false

namespace Offside

/-! ## Searches that end -/

namespace Scopes

/-- The parents of a slot lead to a frame without one, each of them to a slot further down. -/
inductive Rooted (s : Scopes) : (slot : Nat) → Prop
  | root {slot : Nat} (h : s.parent? slot = some none) : Rooted s slot
  | under {slot parent : Nat} (h : s.parent? slot = some (some parent)) (hlt : parent < slot)
      (hparent : Rooted s parent) : Rooted s slot

namespace Rooted

variable {s s' : Scopes} {slot : Nat}

/-- Where a slot is rooted there is a frame. -/
theorem exists_frame (h : s.Rooted slot) : ∃ f, s.frames[slot]? = some f := by
  cases h with
  | root h | under h =>
    obtain ⟨f, hf, -⟩ := Option.map_eq_some_iff.mp h
    exact ⟨f, hf⟩

/-- A rooted slot is one of those that are in use. -/
theorem lt_count (h : s.Rooted slot) : slot < s.count := by
  obtain ⟨f, hf⟩ := h.exists_frame
  obtain ⟨hlt, -⟩ := Array.getElem?_eq_some_iff.mp hf
  exact hlt

/-- Where a slot is rooted at least one frame is in use. -/
theorem count_pos (h : s.Rooted slot) : 0 < s.count :=
  Nat.lt_of_le_of_lt (Nat.zero_le slot) h.lt_count

/-- A slot stays rooted if no parent at it or below changes. -/
theorem congr (h : s.Rooted slot) (heq : ∀ i, i ≤ slot → s'.parent? i = s.parent? i) :
    s'.Rooted slot := by
  induction h with
  | @root slot h => exact root ((heq slot (Nat.le_refl slot)).trans h)
  | @under slot parent h hlt _ ih =>
    exact under ((heq slot (Nat.le_refl slot)).trans h) hlt (ih fun i hi => heq i (by omega))

/-- A new frame under a rooted slot is rooted. -/
theorem child (h : s.Rooted slot) : (s.child slot).1.Rooted s.count := by
  have hlt := h.lt_count
  have hold : (s.child slot).1.Rooted slot := by
    apply h.congr
    intro i hi
    unfold parent?
    rw [getElem?_child, if_neg (by omega)]
  refine under ?_ hlt hold
  unfold parent?
  rw [getElem?_child, if_pos rfl]
  rfl

/-- A search has more steps than there are slots below the one it starts from. -/
theorem search_ne_endless (h : s.Rooted slot) (name : String) {steps : Nat}
    (hsteps : slot < steps) : s.search name steps (some slot) ≠ .endless := by
  induction h generalizing steps with
  | @root slot h =>
    obtain ⟨n, rfl⟩ : ∃ n, steps = n + 1 := ⟨steps - 1, by omega⟩
    obtain ⟨f, hf, hparent⟩ := Option.map_eq_some_iff.mp h
    unfold search
    simp only [hf, hparent]
    cases f.get? name with
    | some v => simp
    | none => cases n <;> simp [search]
  | @under slot parent h hlt _ ih =>
    obtain ⟨n, rfl⟩ : ∃ n, steps = n + 1 := ⟨steps - 1, by omega⟩
    obtain ⟨f, hf, hparent⟩ := Option.map_eq_some_iff.mp h
    unfold search
    simp only [hf, hparent]
    cases f.get? name with
    | some v => simp
    | none => exact ih (by omega)

/-- A search from a rooted slot comes to an end. -/
theorem find_ne_endless (h : s.Rooted slot) (name : String) : s.find slot name ≠ .endless := by
  have hlt := h.lt_count
  unfold count at hlt
  exact h.search_ne_endless name (by omega)

end Rooted

end Scopes

/-! ## Trees without loops -/

mutual

/-- Whether a tree has no loop. -/
def Node.isLoopFree : Node → Bool
  | .loop .. => false
  | .missing | .reference .. | .integer .. | .float .. | .string .. | .boolean .. | .nil .. => true
  | .block _ statements => Node.areLoopFree statements
  | .declaration _ _ value | .assignment _ _ value | .ret _ value => value.isLoopFree
  | .unary _ _ operand => operand.isLoopFree
  | .binary _ _ left right => left.isLoopFree && right.isLoopFree
  | .definition _ _ _ _ body => Node.areLoopFree body
  | .call _ _ args => Node.areLoopFree args
  | .conditional _ branches => branches.isLoopFree
  | .select _ subject arms => subject.isLoopFree && arms.isLoopFree

/-- Whether several trees have no loop. -/
def Node.areLoopFree : List Node → Bool
  | [] => true
  | n :: rest => n.isLoopFree && Node.areLoopFree rest

/-- Whether branches have no loop. -/
def Branches.isLoopFree : Branches → Bool
  | .done => true
  | .otherwise _ body => Node.areLoopFree body
  | .guarded condition _ body rest =>
      condition.isLoopFree && Node.areLoopFree body && rest.isLoopFree

/-- Whether arms have no loop. -/
def Arms.isLoopFree : Arms → Bool
  | .done => true
  | .pattern _ pattern result rest =>
      pattern.isLoopFree && result.isLoopFree && rest.isLoopFree
  | .wildcard _ result rest => result.isLoopFree && rest.isLoopFree

end

/-- Whether a value is no function with a loop in its body. -/
def Value.isLoopFree : Value → Bool
  | .function f => Node.areLoopFree f.body
  | _ => true

/-- The value is no function with a loop in its body, unless the questions are limited. -/
def Value.Fits (limited : Bool) (v : Value) : Prop := (limited || v.isLoopFree) = true

/-- A value without loops may be held in any case. -/
theorem Value.fits_of_isLoopFree {limited : Bool} {v : Value} (h : v.isLoopFree = true) :
    v.Fits limited := by
  unfold Fits
  rw [h, Bool.or_true]

/-- What is made of a line of input holds no loop. -/
theorem Value.isLoopFree_ofLine (line : Text) : (Value.ofLine line).isLoopFree = true := by
  unfold Value.ofLine
  dsimp only
  split
  · rfl
  · split
    · split <;> rfl
    · rfl

/-! ## Computations that end -/

/-- Whether a stop is the end of a run: fuel is not the reason, and only a run whose questions are
limited is cancelled. -/
def Halt.isEnd (limited : Bool) : Halt → Bool
  | .outOfFuel => false
  | .cancelled => limited
  | _ => true

namespace Run

/-- With any fuel from some amount on, the computation comes to one and the same end: a result with
the property, or a stop that is the end of a run. -/
def Ends {α : Type} (limited : Bool) (x : Nat → Run α) (m : Machine)
    (Q : α → Machine → Prop) : Prop :=
  ∃ enough r, (∀ fuel, enough ≤ fuel → x fuel m = r) ∧
    match r with
    | .ok a m' => Q a m'
    | .error h _ => h.isEnd limited = true

namespace Ends

variable {α β : Type} {limited : Bool} {m : Machine}

/-- A computation that does not depend on fuel. -/
theorem of_run {x : Run α} {Q : α → Machine → Prop}
    (h : match x m with
      | .ok a m' => Q a m'
      | .error e _ => e.isEnd limited = true) : Ends limited (fun _ => x) m Q :=
  ⟨0, x m, fun _ _ => rfl, h⟩

/-- A value that has the property ends a computation. -/
theorem pure {a : α} {Q : α → Machine → Prop} (h : Q a m) :
    Ends limited (fun _ => (Pure.pure a : Run α)) m Q := of_run h

/-- A stop that is an end ends a computation. -/
theorem throw {e : Halt} {Q : α → Machine → Prop} (h : e.isEnd limited = true) :
    Ends limited (fun _ => (MonadExcept.throw e : Run α)) m Q := of_run h

/-- Sequences come to an end if their first part does, and what follows it does. -/
theorem bind {x : Nat → Run α} {f : Nat → α → Run β} {P : α → Machine → Prop}
    {Q : β → Machine → Prop} (hx : Ends limited x m P)
    (hf : ∀ a m', P a m' → Ends limited (fun fuel => f fuel a) m' Q) :
    Ends limited (fun fuel => x fuel >>= f fuel) m Q := by
  obtain ⟨enough, r, hr, hP⟩ := hx
  cases r with
  | error e m₁ =>
    refine ⟨enough, .error e m₁, fun fuel hle => ?_, hP⟩
    show EStateM.bind (x fuel) (f fuel) m = _
    unfold EStateM.bind
    rw [hr fuel hle]
  | ok a m₁ =>
    obtain ⟨enough', r', hr', hQ⟩ := hf a m₁ hP
    refine ⟨max enough enough', r', fun fuel hle => ?_, hQ⟩
    show EStateM.bind (x fuel) (f fuel) m = _
    unfold EStateM.bind
    rw [hr fuel (by omega)]
    exact hr' fuel (by omega)

/-- What ends with a stronger property ends with a weaker one. -/
theorem mono {x : Nat → Run α} {P Q : α → Machine → Prop} (h : Ends limited x m P)
    (hPQ : ∀ a m', P a m' → Q a m') : Ends limited x m Q := by
  obtain ⟨enough, r, hr, hP⟩ := h
  refine ⟨enough, r, hr, ?_⟩
  cases r with
  | ok a m' => exact hPQ a m' hP
  | error e m' => exact hP

/-- What the computation keeps with any fuel holds where it ends. -/
theorem keeping {R : Machine → Machine → Prop} {x : Nat → Run α} {Q : α → Machine → Prop}
    (h : Ends limited x m Q) (hx : ∀ fuel, Run.Keeps R (x fuel)) :
    Ends limited x m fun a m' => Q a m' ∧ R m m' := by
  obtain ⟨enough, r, hr, hQ⟩ := h
  refine ⟨enough, r, hr, ?_⟩
  have hkept := hx enough m
  unfold Run.final at hkept
  rw [hr enough (Nat.le_refl enough)] at hkept
  cases r with
  | ok a m' => exact ⟨hQ, hkept⟩
  | error e m' => exact hQ

end Ends

end Run

/-! ## Machines that hold no more than they may -/

/-- What is left of the questions, if they are limited, and otherwise of the depth. -/
def Machine.budget (maxDepth : Int) (m : Machine) : Nat :=
  match m.checksLeft with
  | some n => n
  | none => (maxDepth - m.depth).toNat

/-- Every search from the slot ends, every value that a live frame binds fits, and no more than the
budget is left. -/
structure Held (limited : Bool) (maxDepth : Int) (budget slot : Nat) (m : Machine) : Prop where
  rooted : m.scopes.Rooted slot
  bound : ∀ (i : Nat) (f : Frame) (name : String) (v : Value), m.scopes.frames[i]? = some f →
    f.get? name = some v → v.Fits limited
  questions : m.checksLeft.isSome = limited
  within : m.budget maxDepth ≤ budget

namespace Held

variable {limited : Bool} {maxDepth : Int} {budget slot : Nat} {m m' : Machine}

/-- Only scopes, depth and questions matter to what a machine holds. -/
theorem of_eq (h : Held limited maxDepth budget slot m) (hs : m'.scopes = m.scopes)
    (hd : m'.depth = m.depth) (hc : m'.checksLeft = m.checksLeft) :
    Held limited maxDepth budget slot m' where
  rooted := by rw [hs]; exact h.rooted
  bound := by rw [hs]; exact h.bound
  questions := by rw [hc]; exact h.questions
  within := by
    have hwithin := h.within
    unfold Machine.budget at hwithin ⊢
    rw [hc, hd]
    exact hwithin

/-- A machine that keeps within a budget keeps within a larger one. -/
theorem mono (h : Held limited maxDepth budget slot m) {budget' : Nat} (hle : budget ≤ budget') :
    Held limited maxDepth budget' slot m :=
  { h with within := Nat.le_trans h.within hle }

/-- A change to one frame that keeps its parent and binds only values that fit. -/
theorem modify (h : Held limited maxDepth budget slot m) (i : Nat) (g : Frame → Frame)
    (hparent : ∀ f, (g f).parent = f.parent)
    (hbound : ∀ f name v, (g f).get? name = some v → f.get? name = some v ∨ v.Fits limited) :
    Held limited maxDepth budget slot { m with scopes := ⟨m.scopes.frames.modify i g⟩ } where
  rooted := h.rooted.congr fun k _ => Scopes.parent?_modify m.scopes i k g hparent
  bound := by
    intro k f name v hf hv
    rw [Array.getElem?_modify] at hf
    split at hf
    · obtain ⟨f₀, hf₀, rfl⟩ := Option.map_eq_some_iff.mp hf
      rcases hbound f₀ name v hv with hold | hfits
      · exact h.bound k f₀ name v hf₀ hold
      · exact hfits
    · exact h.bound k f name v hf hv
  questions := h.questions
  within := h.within

open Run (Ends)

/-- A question that is answered leaves less of the budget, if the questions are limited. -/
theorem check (h : Held limited maxDepth budget slot m) :
    Ends limited (fun _ => Run.check) m fun _ m' =>
      ∃ budget', budget' ≤ budget ∧ (limited = true → budget' < budget) ∧
        Held limited maxDepth budget' slot m' := by
  apply Ends.of_run
  have hquestions := h.questions
  have hwithin := h.within
  unfold Machine.budget at hwithin
  unfold Run.check
  cases hc : m.checksLeft with
  | none =>
    rw [hc] at hquestions
    exact ⟨budget, Nat.le_refl budget, by simp [← hquestions], h⟩
  | some n =>
    rw [hc] at hquestions hwithin
    cases n with
    | zero => exact hquestions.symm
    | succ n =>
      dsimp only at hwithin ⊢
      refine ⟨n, by omega, fun _ => by omega, ?_⟩
      exact ⟨h.rooted, h.bound, hquestions, Nat.le_refl n⟩

/-- A call is entered with no more than the caller had, and with less if the questions are not
limited: then it is the depth that is left. -/
theorem entered (h : Held limited maxDepth budget slot m) (hdepth : ¬ maxDepth ≤ m.depth) :
    ∃ budget', budget' ≤ budget ∧ (limited = false → budget' < budget) ∧
      Held limited maxDepth budget' m.scopes.count (Run.entered m slot) := by
  have hquestions := h.questions
  have hwithin := h.within
  unfold Machine.budget at hwithin
  have hbound : ∀ (i : Nat) (f : Frame) (name : String) (v : Value),
      (m.scopes.child slot).1.frames[i]? = some f → f.get? name = some v → v.Fits limited := by
    intro i f name v hf hv
    rw [Scopes.getElem?_child] at hf
    split at hf
    · injection hf with hf
      subst hf
      simp [Frame.get?] at hv
    · exact h.bound i f name v hf hv
  cases hc : m.checksLeft with
  -- no limit to the questions: the budget is the depth that is left, and one call less fits into it
  | none =>
    rw [hc] at hquestions hwithin
    dsimp only at hwithin
    refine ⟨budget - 1, by omega, fun _ => by omega, h.rooted.child, hbound, h.questions, ?_⟩
    unfold Machine.budget Run.entered
    simp only [hc]
    omega
  | some n =>
    rw [hc] at hquestions hwithin
    refine ⟨budget, Nat.le_refl budget, ?_, h.rooted.child, hbound, h.questions, ?_⟩
    · intro hlimited
      rw [hlimited] at hquestions
      exact absurd hquestions (by simp)
    · unfold Machine.budget Run.entered
      simp only [hc]
      exact hwithin

/-- When a call is left, the depth that is left is the caller's again, and the questions that are
left are no more than they were. -/
theorem exited {budget' : Nat} (h : Held limited maxDepth budget slot m)
    (hbody : Held limited maxDepth budget' m.scopes.count m') (hle : budget' ≤ budget)
    (hrestored : Restores m.scopes.count (Run.entered m slot) m') :
    Held limited maxDepth budget slot (Run.exited m') := by
  have hpos := h.rooted.count_pos
  have hcaller : Restores slot m (Run.exited m') := by
    have hleft := hrestored.leave slot hpos
    unfold Run.final at hleft
    rw [hrestored.leave_eq hpos] at hleft
    exact hleft
  constructor
  · exact h.rooted.congr fun i _ => hcaller.parent i
  · intro i f name v hf hv
    have hlive : i < m'.scopes.frames.pop.size := (Array.getElem?_eq_some_iff.mp hf).1
    rw [Array.size_pop] at hlive
    have hsame : m'.scopes.frames.pop[i]? = m'.scopes.frames[i]? :=
      Scopes.getElem?_pop_of_lt (by unfold Scopes.count; omega)
    exact hbody.bound i f name v (hsame.symm.trans hf) hv
  · exact hbody.questions
  · have hquestions : m'.checksLeft.isSome = m.checksLeft.isSome :=
      hbody.questions.trans h.questions.symm
    have hwithin := h.within
    have hwithin' := hbody.within
    have hdepth := hcaller.depth
    unfold Machine.budget at hwithin hwithin' ⊢
    change (match m'.checksLeft with
      | some n => n
      | none => (maxDepth - (Run.exited m').depth).toNat) ≤ budget
    cases hc' : m'.checksLeft with
    | some n =>
      rw [hc'] at hwithin'
      exact Nat.le_trans hwithin' hle
    -- the depth is the caller's again, so the budget is what it was before the call
    | none =>
      cases hc : m.checksLeft with
      | some n => simp [hc, hc'] at hquestions
      | none =>
        rw [hc] at hwithin
        dsimp only
        rw [hdepth]
        exact hwithin

end Held

/-! ## Operators -/

namespace Operator

/-- The operator gives a value that is no function, or stops for good. -/
def Settles (limited : Bool) (o : Outcome) : Prop :=
  match o with
  | .ok v => v.isLoopFree = true
  | .error h => h.isEnd limited = true

/-- An operator in front of an operand gives a value without loops or a stop that is an end. -/
theorem settles_unary (limited : Bool) (op : Kind) (pos : Position) (v : Value) :
    Settles limited (unary op pos v) := by
  unfold unary
  split <;> rfl

/-- An operator on whole numbers gives a value without loops or a stop that is an end. -/
theorem settles_onInts (limited : Bool) (op : Kind) (pos : Position) (l r : Int64) :
    Settles limited (onInts op pos l r) := by
  unfold onInts
  split
  all_goals first
    | rfl
    | (split <;> rfl)

/-- An operator on doubles gives a value without loops or a stop that is an end. -/
theorem settles_onFloats (limited : Bool) (op : Kind) (pos : Position) (l r : Float) :
    Settles limited (onFloats op pos l r) := by
  unfold onFloats
  split
  all_goals first
    | rfl
    | (split <;> rfl)

/-- An operator on numbers gives a value without loops or a stop that is an end. -/
theorem settles_onNumbers (limited : Bool) (op : Kind) (pos : Position) (left right : Value) :
    Settles limited (onNumbers op pos left right) := by
  unfold onNumbers
  split
  · exact settles_onInts limited op pos _ _
  · unfold asFloat
    cases left.toFloat? with
    | none => rfl
    | some l =>
      cases right.toFloat? with
      | none => rfl
      | some r => exact settles_onFloats limited op pos l r

/-- An operator between operands gives a value without loops or a stop that is an end. -/
theorem settles_binary (limited : Bool) (op : Kind) (pos : Position) (left right : Value) :
    Settles limited (binary op pos left right) := by
  unfold binary
  split
  · rfl
  · rfl
  · rfl
  · rfl
  · split
    · exact settles_onNumbers limited op pos left right
    · rfl

end Operator

open Run (Ends)

/-- From every machine that is held to the budget the computation ends, with a result that has the
property and a machine that is held to the same budget. -/
def Serves {α : Type} (limited : Bool) (maxDepth : Int) (budget slot : Nat) (P : α → Prop)
    (x : Nat → Run α) : Prop :=
  ∀ m, Held limited maxDepth budget slot m →
    Ends limited x m fun a m' => P a ∧ Held limited maxDepth budget slot m'

namespace Serves

variable {α β : Type} {limited : Bool} {maxDepth : Int} {budget slot : Nat}

/-- A value that has the property is given on every machine. -/
theorem pure {P : α → Prop} {a : α} (h : P a) :
    Serves limited maxDepth budget slot P fun _ => (Pure.pure a : Run α) :=
  fun _ hm => Ends.pure ⟨h, hm⟩

/-- A stop that is an end is made on every machine. -/
theorem throw {P : α → Prop} {e : Halt} (h : e.isEnd limited = true) :
    Serves limited maxDepth budget slot P fun _ => (MonadExcept.throw e : Run α) :=
  fun _ _ => Ends.throw h

/-- Sequences serve if their first part does, and what follows it does for every value it can give.
-/
theorem bind {P : α → Prop} {Q : β → Prop} {x : Nat → Run α} {f : Nat → α → Run β}
    (hx : Serves limited maxDepth budget slot P x)
    (hf : ∀ a, P a → Serves limited maxDepth budget slot Q fun fuel => f fuel a) :
    Serves limited maxDepth budget slot Q fun fuel => x fuel >>= f fuel :=
  fun m hm => (hx m hm).bind fun a m' h => hf a h.1 m' h.2

/-! ### Single actions -/

/-- A line of the journal can always be written. -/
theorem log (entry : JournalEntry) :
    Serves limited maxDepth budget slot (fun _ => True) fun _ => Run.log entry :=
  fun _ hm => Ends.of_run ⟨trivial, hm.of_eq rfl rfl rfl⟩

/-- A new identity can always be given out. -/
theorem freshId : Serves limited maxDepth budget slot (fun _ => True) fun _ => Run.freshId :=
  fun _ hm => Ends.of_run ⟨trivial, hm.of_eq rfl rfl rfl⟩

/-- The lookup of a name ends, since the slot is rooted, and gives a value that may be held. -/
theorem lookup (name : String) :
    Serves limited maxDepth budget slot (Value.Fits limited) fun _ => Run.lookup slot name := by
  intro m hm
  apply Ends.of_run
  have hends := hm.rooted.find_ne_endless name
  unfold Run.lookup Scopes.get
  cases hfind : m.scopes.find slot name with
  | found i v =>
    obtain ⟨f, hf, hv⟩ := Scopes.search_found hfind
    exact ⟨hm.bound i f name v hf hv, hm⟩
  | nowhere => rfl
  | offEnd i => rfl
  | endless => exact absurd hfind hends

/-- A name can be declared with a value that may be held. -/
theorem declare (name : String) {v : Value} (hv : v.Fits limited) :
    Serves limited maxDepth budget slot (fun _ => True) fun _ => Run.declare slot name v := by
  intro m hm
  apply Ends.of_run
  obtain ⟨f, hf⟩ := hm.rooted.exists_frame
  unfold Run.declare
  cases hd : m.scopes.declare slot name v with
  | error e =>
    unfold Scopes.declare at hd
    rw [hf] at hd
    dsimp only at hd
    split at hd
    · injection hd with hd
      rw [← hd]
      rfl
    · simp at hd
  | ok scopes =>
    obtain ⟨-, -, -, rfl⟩ := Scopes.declare_eq_ok_iff.mp hd
    refine ⟨trivial, hm.modify slot (fun f => f.insert name v) (fun _ => rfl) ?_⟩
    intro f n w hw
    rw [Frame.get?_insert] at hw
    split at hw
    · injection hw with hw
      rw [← hw]
      exact Or.inr hv
    · exact Or.inl hw

/-- A name can be given a value that may be held. -/
theorem assign (name : String) {v : Value} (hv : v.Fits limited) :
    Serves limited maxDepth budget slot (fun _ => True) fun _ => Run.assign slot name v := by
  intro m hm
  apply Ends.of_run
  have hends := hm.rooted.find_ne_endless name
  unfold Run.assign Scopes.set
  cases hfind : m.scopes.find slot name with
  | found i old =>
    refine ⟨trivial, hm.modify i (fun f => f.update name v) (fun _ => rfl) ?_⟩
    intro f n w hw
    rw [Frame.get?_update] at hw
    split at hw
    · obtain ⟨_, -, rfl⟩ := Option.map_eq_some_iff.mp hw
      exact Or.inr hv
    · exact Or.inl hw
  | nowhere => rfl
  | offEnd i => rfl
  | endless => exact absurd hfind hends

/-- A write ends, whether it succeeds or not. -/
theorem write (piece : Text) :
    Serves limited maxDepth budget slot (fun _ => True) fun _ => Run.write piece := by
  intro m hm
  apply Ends.of_run
  unfold Run.write
  rcases m.writesLeft with _ | _ | n
  · exact ⟨trivial, hm.of_eq rfl rfl rfl⟩
  · rfl
  · exact ⟨trivial, hm.of_eq rfl rfl rfl⟩

/-- Reading a line ends and gives a value without loops. -/
theorem readLine :
    Serves limited maxDepth budget slot (Value.Fits limited) fun _ => Builtin.readLine := by
  intro m hm
  apply Ends.of_run
  have hleft : Held limited maxDepth budget slot { m with input := m.input.splitLine.2 } :=
    hm.of_eq rfl rfl rfl
  have hline : (Value.ofLine m.input.splitLine.1.trimLineEnd).Fits limited :=
    Value.fits_of_isLoopFree (Value.isLoopFree_ofLine _)
  unfold Builtin.readLine
  dsimp only
  by_cases h₁ : m.input.splitLine.1.endsLine
  · rw [if_pos h₁]
    exact ⟨hline, hleft⟩
  · rw [if_neg h₁]
    by_cases h₂ : m.inputBroken
    · rw [if_pos h₂]
      rfl
    · rw [if_neg h₂]
      by_cases h₃ : m.input.splitLine.1.isEmpty
      · rw [if_pos h₃]
        exact ⟨Value.fits_of_isLoopFree rfl, hleft⟩
      · rw [if_neg h₃]
        exact ⟨hline, hleft⟩

/-- Every builtin ends and gives a value without loops. -/
theorem builtin (name : String) (args : List Value) :
    Serves limited maxDepth budget slot (Value.Fits limited) fun _ => Builtin.run name args := by
  have hnil : Value.Fits limited .nil := Value.fits_of_isLoopFree rfl
  unfold Builtin.run
  split
  · exact bind (write _) fun _ _ => pure hnil
  · split
    · cases args with
      | nil => exact readLine
      | cons prompt rest => exact bind (write _) fun _ _ => readLine
    · exact pure hnil

/-- Parameters can be declared with values that may be held. -/
theorem declareAll {args : List Value} (hargs : ∀ v ∈ args, v.Fits limited) (index : Nat)
    (names : List String) :
    Serves limited maxDepth budget slot (fun _ => True) fun _ =>
      Run.declareAll slot args index names := by
  induction names generalizing index with
  | nil => exact pure trivial
  | cons name names ih =>
    unfold Run.declareAll
    cases hv : args[index]? with
    | none => exact throw rfl
    | some v =>
      have hfits := hargs v (List.mem_of_getElem? hv)
      exact bind (declare name hfits) fun _ _ => ih (index + 1)

/-- The outcome of an operator is given on every machine. -/
theorem lift {o : Operator.Outcome} (ho : Operator.Settles limited o) :
    Serves limited maxDepth budget slot (Value.Fits limited) fun _ => Eval.lift o := by
  intro m hm
  apply Ends.of_run
  cases o with
  | ok v => exact ⟨Value.fits_of_isLoopFree ho, hm⟩
  | error e => exact ho

/-! ### The forms of nodes -/

section Forms

variable {ev : Nat → Node → Run Value}

/-- A statement list serves if every smaller node does. -/
theorem runBlock (statements : List Node) (hfit : (limited || Node.areLoopFree statements) = true)
    (hev : ∀ n : Node, sizeOf n < sizeOf statements → (limited || n.isLoopFree) = true →
      Serves limited maxDepth budget slot (Value.Fits limited) fun fuel => ev fuel n) :
    Serves limited maxDepth budget slot (fun v => (v.getD .nil).Fits limited) fun fuel =>
      Eval.runBlock (ev fuel) statements := by
  induction statements with
  | nil => exact pure (Value.fits_of_isLoopFree rfl)
  | cons statement rest ih =>
    rw [Node.areLoopFree, Bool.or_and_distrib_left, Bool.and_eq_true] at hfit
    have hrest := ih hfit.2 fun n hn => hev n (by simp; omega)
    by_cases hret : ∃ tok value, statement = .ret tok value
    · obtain ⟨tok, value, rfl⟩ := hret
      have hvalue := hev value (by simp +arith) hfit.1
      exact bind hvalue fun v hv => pure hv
    · have hstep : (fun fuel => Eval.runBlock (ev fuel) (statement :: rest)) =
          fun fuel => ev fuel statement >>= fun _ => Eval.runBlock (ev fuel) rest := by
        funext fuel
        rw [Eval.runBlock]
        intro tok value h
        exact hret ⟨tok, value, h⟩
      have hfirst := hev statement (by simp +arith) hfit.1
      rw [hstep]
      exact bind hfirst fun _ _ => hrest

/-- An argument list serves if every smaller node does. -/
theorem runArgs (args : List Node) (hfit : (limited || Node.areLoopFree args) = true)
    (hev : ∀ n : Node, sizeOf n < sizeOf args → (limited || n.isLoopFree) = true →
      Serves limited maxDepth budget slot (Value.Fits limited) fun fuel => ev fuel n) :
    Serves limited maxDepth budget slot (fun vs => ∀ v ∈ vs, v.Fits limited) fun fuel =>
      Eval.runArgs (ev fuel) args := by
  induction args with
  | nil => exact pure (fun v hv => absurd hv List.not_mem_nil)
  | cons arg rest ih =>
    rw [Node.areLoopFree, Bool.or_and_distrib_left, Bool.and_eq_true] at hfit
    have hfirst := hev arg (by simp +arith) hfit.1
    have hrest := ih hfit.2 fun n hn => hev n (by simp; omega)
    apply bind hfirst
    intro v hv
    apply bind hrest
    intro vs hvs
    exact pure (List.forall_mem_cons.mpr ⟨hv, hvs⟩)

/-- Branches serve if every smaller node does. -/
theorem runBranches (branches : Branches) (hfit : (limited || branches.isLoopFree) = true)
    (hev : ∀ n : Node, sizeOf n < sizeOf branches → (limited || n.isLoopFree) = true →
      Serves limited maxDepth budget slot (Value.Fits limited) fun fuel => ev fuel n) :
    Serves limited maxDepth budget slot (Value.Fits limited) fun fuel =>
      Eval.runBranches (ev fuel) branches := by
  have hnil : Value.Fits limited .nil := Value.fits_of_isLoopFree rfl
  match branches with
  | .done => exact pure hnil
  | .otherwise tok body =>
    have hbody := runBlock body hfit fun n hn => hev n (by simp; omega)
    exact bind hbody fun _ _ => pure hnil
  | .guarded condition tok body rest =>
    simp only [Branches.isLoopFree, Bool.or_and_distrib_left, Bool.and_eq_true] at hfit
    have hcondition := hev condition (by simp +arith) hfit.1.1
    have hbody := runBlock body hfit.1.2 fun n hn => hev n (by simp; omega)
    have hrest := runBranches rest hfit.2 fun n hn => hev n (by simp; omega)
    apply bind hcondition
    intro v _
    split
    · exact bind hbody fun _ _ => pure hnil
    · exact hrest

/-- Arms serve if every smaller node does. -/
theorem runArms (subject : Value) (arms : Arms) (hfit : (limited || arms.isLoopFree) = true)
    (hev : ∀ n : Node, sizeOf n < sizeOf arms → (limited || n.isLoopFree) = true →
      Serves limited maxDepth budget slot (Value.Fits limited) fun fuel => ev fuel n) :
    Serves limited maxDepth budget slot (Value.Fits limited) fun fuel =>
      Eval.runArms (ev fuel) subject arms := by
  match arms with
  | .done => exact pure (Value.fits_of_isLoopFree rfl)
  | .wildcard tok result rest =>
    rw [Arms.isLoopFree, Bool.or_and_distrib_left, Bool.and_eq_true] at hfit
    exact hev result (by simp +arith) hfit.1
  | .pattern tok pattern result rest =>
    simp only [Arms.isLoopFree, Bool.or_and_distrib_left, Bool.and_eq_true] at hfit
    have hpattern := hev pattern (by simp +arith) hfit.1.1
    have hresult := hev result (by simp +arith) hfit.1.2
    have hrest := runArms subject rest hfit.2 fun n hn => hev n (by simp; omega)
    apply bind hpattern
    intro v _
    split
    · exact hresult
    · exact hrest

/-- A program serves if its statements do. -/
theorem runStatements (echo : Bool) (result : Value) (program : List Node)
    (hfit : (limited || Node.areLoopFree program) = true)
    (hev : ∀ n : Node, (limited || n.isLoopFree) = true →
      Serves limited maxDepth budget slot (Value.Fits limited) fun fuel => ev fuel n) :
    Serves limited maxDepth budget slot (fun _ => True) fun fuel =>
      Session.runStatements echo (ev fuel) result program := by
  induction program generalizing result with
  | nil => exact bind (log _) fun _ _ => pure trivial
  | cons statement rest ih =>
    rw [Node.areLoopFree, Bool.or_and_distrib_left, Bool.and_eq_true] at hfit
    by_cases hret : ∃ tok value, statement = .ret tok value
    · obtain ⟨tok, value, rfl⟩ := hret
      have hvalue := hev value hfit.1
      exact fun m hm => (hvalue m hm).mono fun _ _ h => ⟨trivial, h.2⟩
    · have hstep : (fun fuel => Session.runStatements echo (ev fuel) result (statement :: rest)) =
          fun fuel => ev fuel statement >>= fun v => Session.runStatements echo (ev fuel)
            (if echo && statement.isExpression then v else .nil) rest := by
        funext fuel
        rw [Session.runStatements]
        intro tok value h
        exact hret ⟨tok, value, h⟩
      rw [hstep]
      exact bind (hev statement hfit.1) fun v _ => ih _ hfit.2

end Forms

/-! ### Calls and loops -/

section Calls

variable {ev : Nat → Evaluator} {m : Machine}

/-- A body that ends in its new frame ends as a call. -/
theorem inNewFrame {body : Nat → Nat → Run α} {budget' : Nat} {P : α → Prop}
    (hm : Held limited maxDepth budget slot m) (hle : budget' ≤ budget)
    (hentered : Held limited maxDepth budget' m.scopes.count (Run.entered m slot))
    (hrestores : ∀ fuel, Run.Keeps (Restores m.scopes.count) (body fuel m.scopes.count))
    (hbody : Serves limited maxDepth budget' m.scopes.count P fun fuel =>
      body fuel m.scopes.count) :
    Ends limited (fun fuel => Run.inNewFrame slot (body fuel)) m fun a m' =>
      P a ∧ Held limited maxDepth budget slot m' := by
  have hpos := hm.rooted.count_pos
  obtain ⟨enough, r, hr, hend⟩ := (hbody _ hentered).keeping hrestores
  cases r with
  | ok a m₁ =>
    refine ⟨enough, .ok a (Run.exited m₁), ?_, hend.1.1, hm.exited hend.1.2 hle hend.2⟩
    intro fuel hfuel
    have hrun : Run.inNewFrame slot (body fuel) m = _ :=
      Run.inNewFrame_eq hpos (hrestores fuel)
    rw [show body fuel m.scopes.count (Run.entered m slot) = _ from hr fuel hfuel] at hrun
    exact hrun
  | error e m₁ =>
    refine ⟨enough, .error e (Run.exited m₁), ?_, hend⟩
    intro fuel hfuel
    have hrun : Run.inNewFrame slot (body fuel) m = _ :=
      Run.inNewFrame_eq hpos (hrestores fuel)
    rw [show body fuel m.scopes.count (Run.entered m slot) = _ from hr fuel hfuel] at hrun
    exact hrun

variable (hrestores : ∀ fuel slot node, Run.Keeps (Restores slot) (ev fuel slot node))
include hrestores

/-- A call is entered with a smaller budget, unless questions are what is counted. -/
theorem enter (tok : Token) (name : String) {f : Function} {vs : List Value}
    (hm : Held limited maxDepth budget slot m) (hvs : ∀ v ∈ vs, v.Fits limited)
    (hf : Value.Fits limited (.function f))
    (hev : ∀ budget', budget' ≤ budget → (limited = false → budget' < budget) → ∀ slot n,
      (limited || n.isLoopFree) = true →
      Serves limited maxDepth budget' slot (Value.Fits limited) fun fuel => ev fuel slot n) :
    Ends limited (fun fuel => Eval.enter maxDepth (ev fuel) slot tok name f vs) m fun v m' =>
      v.Fits limited ∧ Held limited maxDepth budget slot m' := by
  have hget : Ends limited (fun _ => (get : Run Machine)) m fun a m' => a = m ∧ m' = m :=
    Ends.of_run ⟨rfl, rfl⟩
  apply hget.bind
  rintro _ m ⟨rfl, rfl⟩
  by_cases hdepth : maxDepth ≤ m.depth
  · simp only [if_pos hdepth]
    exact Ends.throw rfl
  · simp only [if_neg hdepth]
    obtain ⟨budget', hle, hless, hentered⟩ := hm.entered hdepth
    apply inNewFrame hm hle hentered
    · intro fuel
      exact Restores.kept.keeps_callBody (hrestores fuel) name f vs m.scopes.count
    · apply bind (declareAll hvs 0 f.params)
      intro _ _
      apply bind (log _)
      intro _ _
      apply bind (runBlock f.body hf fun n _ hn => hev budget' hle hless m.scopes.count n hn)
      intro v hv
      exact pure hv

/-- A call asks a question, and what it evaluates then has less to go on than the call had: the
arguments are parts of it, and the body has less of the budget. -/
theorem call (tok : Token) (name : String) (args : List Node)
    (hfit : (limited || Node.areLoopFree args) = true)
    (hev : ∀ budget' n, (budget' < budget ∨ budget' = budget ∧ sizeOf n < sizeOf args) →
      (limited || n.isLoopFree) = true → ∀ slot,
      Serves limited maxDepth budget' slot (Value.Fits limited) fun fuel => ev fuel slot n) :
    Serves limited maxDepth budget slot (Value.Fits limited) fun fuel =>
      Eval.call maxDepth (ev fuel) slot tok name args := by
  intro m hm
  apply hm.check.bind
  rintro _ m₁ ⟨budget', hle, hless, hm₁⟩
  have hargs : Serves limited maxDepth budget' slot (fun vs => ∀ v ∈ vs, v.Fits limited)
      fun fuel => Eval.runArgs (ev fuel slot) args := by
    apply runArgs args hfit
    intro n hn hfits
    exact hev budget' n (by omega) hfits slot
  have hbody : ∀ budget'', budget'' ≤ budget' → (limited = false → budget'' < budget') →
      ∀ slot n, (limited || n.isLoopFree) = true →
      Serves limited maxDepth budget'' slot (Value.Fits limited) fun fuel => ev fuel slot n := by
    intro budget'' hle' hless' slot' n hfits
    refine hev budget'' n (Or.inl ?_) hfits slot'
    cases limited with
    | true => have := hless rfl; omega
    | false => have := hless' rfl; omega
  -- everything below keeps within what was left after the question, which is no more than the
  -- budget
  apply Ends.mono (P := fun v m' => v.Fits limited ∧ Held limited maxDepth budget' slot m')
  · apply (lookup name m₁ hm₁).bind
    rintro callee m₂ ⟨hcallee, hm₂⟩
    cases callee with
    | builtin id builtinName => exact bind hargs (fun vs _ => builtin builtinName vs) m₂ hm₂
    | function f =>
      dsimp only
      split
      · exact Ends.throw rfl
      · apply (hargs m₂ hm₂).bind
        rintro vs m₃ ⟨hvs, hm₃⟩
        exact enter hrestores tok name hm₃ hvs hcallee hbody
    | _ => exact Ends.throw rfl
  · rintro v m' ⟨hv, hm'⟩
    exact ⟨hv, hm'.mono hle⟩

/-- One step ends if everything does that has less of the budget, or as much of it and a smaller
node. -/
theorem step (node : Node) (hfit : (limited || node.isLoopFree) = true)
    (hev : ∀ budget' n, (budget' < budget ∨ budget' = budget ∧ sizeOf n < sizeOf node) →
      (limited || n.isLoopFree) = true → ∀ slot,
      Serves limited maxDepth budget' slot (Value.Fits limited) fun fuel => ev fuel slot n) :
    Serves limited maxDepth budget slot (Value.Fits limited) fun fuel =>
      Eval.step maxDepth (ev fuel) slot node := by
  have hnil : Value.Fits limited .nil := Value.fits_of_isLoopFree rfl
  have hpart : ∀ n : Node, sizeOf n < sizeOf node → (limited || n.isLoopFree) = true →
      Serves limited maxDepth budget slot (Value.Fits limited) fun fuel => ev fuel slot n :=
    fun n hn hfits => hev budget n (Or.inr ⟨rfl, hn⟩) hfits slot
  cases node with
  | missing => exact throw rfl
  | block tok statements =>
    have hblock := runBlock statements hfit fun n hn => hpart n (by simp; omega)
    exact bind hblock fun v hv => pure hv
  | declaration tok name value =>
    apply bind (hpart value (by simp +arith) hfit)
    intro v hv
    exact bind (declare name hv) fun _ _ => pure hnil
  | assignment tok name value =>
    apply bind (hpart value (by simp +arith) hfit)
    intro v hv
    exact bind (assign name hv) fun _ _ => pure hnil
  | reference tok name => exact lookup name
  | integer | float | string | boolean | nil => exact pure (Value.fits_of_isLoopFree rfl)
  | unary tok op operand =>
    apply bind (hpart operand (by simp +arith) hfit)
    intro v _
    exact lift (Operator.settles_unary limited op tok.pos v)
  | binary tok op left right =>
    rw [Node.isLoopFree, Bool.or_and_distrib_left, Bool.and_eq_true] at hfit
    apply bind (hpart left (by simp +arith) hfit.1)
    intro l _
    apply bind (hpart right (by simp +arith) hfit.2)
    intro r _
    exact lift (Operator.settles_binary limited op tok.pos l r)
  | definition tok name params bodyTok body =>
    apply bind freshId
    intro id _
    exact bind (declare name hfit) fun _ _ => pure hnil
  | call tok name args =>
    apply call hrestores tok name args hfit
    intro budget' n hless
    apply hev budget' n
    rcases hless with hless | ⟨heq, hn⟩
    · exact Or.inl hless
    · exact Or.inr ⟨heq, by simp; omega⟩
  | conditional tok branches =>
    exact runBranches branches hfit fun n hn => hpart n (by simp; omega)
  | loop tok condition bodyTok body =>
    -- only a run whose questions are limited meets a loop, and each round takes one of them
    have hlimited : limited = true := by
      rw [Node.isLoopFree, Bool.or_false] at hfit
      exact hfit
    subst hlimited
    intro m hm
    apply hm.check.bind
    rintro _ m₁ ⟨budget', -, hless, hm₁⟩
    have hbudget : budget' < budget := hless rfl
    have hround : ∀ n : Node, Serves true maxDepth budget' slot (Value.Fits true)
        fun fuel => ev fuel slot n :=
      fun n => hev budget' n (Or.inl hbudget) rfl slot
    apply Ends.mono (P := fun v m' => v.Fits true ∧ Held true maxDepth budget' slot m')
    · refine bind (hround condition) (fun v _ => ?_) m₁ hm₁
      split
      · exact bind (runBlock body rfl fun n _ _ => hround n) fun _ _ => hround _
      · exact pure hnil
    · rintro v m' ⟨hv, hm'⟩
      exact ⟨hv, hm'.mono (Nat.le_of_lt hbudget)⟩
  | ret tok value => exact hpart value (by simp +arith) hfit
  | select tok subject arms =>
    rw [Node.isLoopFree, Bool.or_and_distrib_left, Bool.and_eq_true] at hfit
    apply bind (hpart subject (by simp +arith) hfit.1)
    intro v _
    exact runArms v arms hfit.2 fun n hn => hpart n (by simp; omega)

end Calls

/-- Evaluation ends: by induction on the budget, and on the node where the budget stays the same. -/
theorem eval (budget : Nat) (node : Node) (hfit : (limited || node.isLoopFree) = true)
    (slot : Nat) :
    Serves limited maxDepth budget slot (Value.Fits limited) fun fuel =>
      Offside.eval maxDepth fuel slot node := by
  have hstep : Serves limited maxDepth budget slot (Value.Fits limited) fun fuel =>
      Eval.step maxDepth (Offside.eval maxDepth fuel) slot node :=
    step (Restores.kept.eval maxDepth) node hfit fun budget' n hless hfits slot' =>
      eval budget' n hfits slot'
  intro m hm
  obtain ⟨enough, r, hr, hend⟩ := hstep m hm
  refine ⟨enough + 1, r, fun fuel hfuel => ?_, hend⟩
  obtain ⟨k, rfl⟩ : ∃ k, fuel = k + 1 := ⟨fuel - 1, by omega⟩
  exact hr k (by omega)
termination_by (budget, sizeOf node)
decreasing_by
  rcases hless with hless | ⟨rfl, hn⟩
  · exact Prod.Lex.left _ _ hless
  · exact Prod.Lex.right _ hn

/-- Every program serves within every budget, if it may hold its loops. -/
theorem runProgram (options : Options) (program : List Node)
    (hfit : (limited || Node.areLoopFree program) = true) :
    Serves limited options.maxDepth budget 0 (fun _ => True) fun fuel =>
      Session.runProgram options fuel program := by
  apply bind (log _)
  intro _ _
  exact runStatements options.echo .nil program hfit fun n hn => eval budget n hn 0

end Serves

/-! ## Sessions -/

namespace Session

/-- The first frame is the root: it has no parent. So it is in a new session and after any steps
(`grounded_after`). -/
def Grounded (s : Session) : Prop := s.machine.scopes.parent? 0 = some none

/-- The outermost frame of a session stays there and has no parent. -/
theorem grounded_after (options : Options) (input : Text) (broken : Bool) (writes : Option Nat)
    (steps : List Step) : ((start options input broken writes).after steps).Grounded := by
  have hrestored := (start options input broken writes).after_restores steps
  exact hrestored.parent 0

/-- No live frame binds a function with a loop in its body. -/
def BindsNoLoop (s : Session) : Prop :=
  ∀ frame ∈ s.machine.scopes.frames, ∀ name f, frame.get? name = some (.function f) →
    Node.areLoopFree f.body = true

/-- The statements of a tree without loops have none. -/
theorem areLoopFree_statementsOf {tree : Node} (h : tree.isLoopFree = true) :
    Node.areLoopFree (statementsOf tree) = true := by
  cases tree with
  | block tok statements => exact h
  | _ =>
    simp only [statementsOf, Node.areLoopFree, Bool.and_true]
    exact h

/-- A run comes to an end from every session whose machine is held to some budget. -/
theorem exists_runsTo {s : Session} {limited : Bool} {budget : Nat} {checks : Option Nat}
    (tree : Node) (hfit : (limited || Node.areLoopFree (statementsOf tree)) = true)
    (hm : Held limited s.options.maxDepth budget 0 (s.machine.withChecks checks)) :
    ∃ outcome, s.RunsTo checks tree outcome ∧
      ∀ e, outcome.1 = .error e → e.isEnd limited = true := by
  obtain ⟨enough, r, hr, hend⟩ := Serves.runProgram s.options (statementsOf tree) hfit _ hm
  have hrun : ∀ fuel, enough ≤ fuel → s.runTree fuel checks tree =
      match r with
      | .ok v m => (.ok v, { s with machine := m })
      | .error e m => (.error e, { s with machine := m }) := by
    intro fuel hfuel
    unfold runTree
    dsimp only
    rw [show runProgram s.options fuel (statementsOf tree) { s.machine with checksLeft := checks } =
      r from hr fuel hfuel]
    cases r <;> rfl
  cases r with
  | ok v m => exact ⟨_, ⟨by simp, enough, hrun⟩, fun e he => absurd he (by simp)⟩
  | error e m =>
    refine ⟨_, ⟨?_, enough, hrun⟩, ?_⟩
    · intro he
      injection he with he
      subst he
      exact absurd hend (by simp [Halt.isEnd])
    · intro e' he'
      injection he' with he'
      subst he'
      exact hend

end Session

/-- Cancelling always stops a run: whatever the tree, with whatever loops and calls, and from
whatever session, a run that is cancelled after some number of questions comes to an end. -/
theorem cancelled_run_ends (s : Session) (hs : s.Grounded) (checks : Nat) (tree : Node) :
    ∃ outcome, s.RunsTo (some checks) tree outcome := by
  have hm : Held true s.options.maxDepth checks 0 (s.machine.withChecks (some checks)) :=
    ⟨.root hs, fun _ _ _ _ _ _ => rfl, rfl, Nat.le_refl checks⟩
  obtain ⟨outcome, hrun, -⟩ := Session.exists_runsTo tree rfl hm
  exact ⟨outcome, hrun⟩

/-- A loop without end, in a session that has defined a function without end, comes to an end when
it is cancelled. -/
theorem cancelled_run_ends_endless :
    let define := Node.definition .origin "f" [] .origin [.call .origin "f" []]
    let s := (Session.start ⟨false, 10⟩ [] false none).after [⟨.tree define, 2, none⟩]
    let tree := Node.loop .origin (.boolean .origin true) .origin [.call .origin "f" []]
    s.Grounded ∧ ∃ outcome, s.RunsTo (some 7) tree outcome := by
  intro define s tree
  have hs : s.Grounded := Session.grounded_after _ _ _ _ _
  exact ⟨hs, cancelled_run_ends s hs 7 tree⟩

/-- The limit to the depth of calls makes programs without loops end: whatever the limit, a tree
without loops comes to an end, and not by being cancelled, from every session in which no live frame
binds a function with a loop in its body. -/
theorem loopFree_run_ends (s : Session) (hs : s.Grounded) (hbound : s.BindsNoLoop) (tree : Node)
    (htree : tree.isLoopFree = true) :
    ∃ outcome, s.RunsTo none tree outcome ∧ outcome.1 ≠ .error .cancelled := by
  have hfits : ∀ (i : Nat) (frame : Frame) (name : String) (v : Value),
      s.machine.scopes.frames[i]? = some frame → frame.get? name = some v →
        v.Fits false := by
    intro i frame name v hframe hv
    cases v with
    | function f =>
      have hmem := Array.mem_of_getElem? hframe
      exact hbound frame hmem name f hv
    | _ => rfl
  have hm : Held false s.options.maxDepth ((s.machine.withChecks none).budget s.options.maxDepth) 0
      (s.machine.withChecks none) := ⟨.root hs, hfits, rfl, Nat.le_refl _⟩
  have hfit : (false || Node.areLoopFree (Session.statementsOf tree)) = true :=
    Session.areLoopFree_statementsOf htree
  obtain ⟨outcome, hrun, hend⟩ := Session.exists_runsTo tree hfit hm
  refine ⟨outcome, hrun, fun hcancelled => ?_⟩
  exact absurd (hend _ hcancelled) (by simp [Halt.isEnd])

/-- A function that calls itself without end, under a limit to the depth of calls. -/
theorem loopFree_run_ends_recursive :
    let s := Session.start ⟨false, 10000⟩ [] false none
    let tree := Node.block .origin
      [.definition .origin "f" [] .origin [.call .origin "f" [], .call .origin "f" []],
        .call .origin "f" []]
    (s.Grounded ∧ s.BindsNoLoop ∧ tree.isLoopFree = true) ∧
      ∃ outcome, s.RunsTo none tree outcome ∧ outcome.1 ≠ .error .cancelled := by
  intro s tree
  have hbound : s.BindsNoLoop := by
    intro frame hframe name f hf
    simp only [s, Session.start, Session.initialScopes, List.mem_toArray,
      List.mem_singleton] at hframe
    subst hframe
    -- the root of a new session binds builtins only
    obtain ⟨before, after, hsplit, -⟩ := List.lookup_eq_some_iff.mp hf
    have hmem : (name, Value.function f) ∈ before ++ (name, .function f) :: after := by simp
    rw [← hsplit] at hmem
    simp at hmem
  exact ⟨⟨rfl, hbound, rfl⟩, loopFree_run_ends s rfl hbound tree rfl⟩

end Offside
