import Offside.Proofs.Eval.Cutoff

/-!
# A higher limit to the depth of calls

The limit to the depth of calls is looked at in one place only, where a function is entered, and
nothing that a script can do takes note of the stop that is made there. So a run that the limit does
not stop is the same under every higher limit, and a run that it stops is a beginning of the run
under a higher one (`higher_limit_goes_further`). Both are cases of what is known of runs that are
cut short: here the fuel and the questions are the same on both sides, and only the limits differ.
-/

set_option autoImplicit false

namespace Offside

/-- Calls were nested more deeply than is permitted. -/
def Halt.IsTooDeep (h : Halt) : Prop := ∃ name limit pos, h = .fault (.tooDeep name limit pos)

/-- Where a run may not stop for having no questions left, both results are the same, or the first
run was stopped. -/
theorem Paired.eq_or_stopped {α : Type} {stop : Halt → Prop} (hstop : ¬ stop .cancelled)
    {r r' : EStateM.Result Halt Machine α} (h : Paired stop r r') :
    r' = r ∨ ∃ e m, r = .error e m ∧ stop e ∧ Onward m (Run.machineOf r') := by
  have hsame : ∀ {m m' : Machine}, Ahead stop m m' → m' = m := by
    rintro m m' ⟨checks, rfl, hchecks | ⟨hcancelled, -⟩⟩
    · rw [hchecks]
      rfl
    · exact absurd hcancelled hstop
  cases r with
  | ok a m =>
    obtain ⟨m', rfl, hm⟩ := h
    rw [hsame hm]
    exact Or.inl rfl
  | error e m =>
    rcases h with ⟨m', rfl, hm⟩ | ⟨he, honward⟩
    · rw [hsame hm]
      exact Or.inl rfl
    · exact Or.inr ⟨e, m, rfl, he, honward⟩

namespace Eval

/-- The evaluation of a node as seen from a slot comes to an end with the given result: any fuel
from some amount on gives it. -/
def ComesTo (maxDepth : Int) (slot : Nat) (node : Node) (m : Machine)
    (r : EStateM.Result Halt Machine Value) : Prop :=
  (∀ left, r ≠ .error .outOfFuel left) ∧
    ∃ enough, ∀ fuel, enough ≤ fuel → eval maxDepth fuel slot node m = r

/-- Under a higher limit the evaluation of a node is the same, or the lower limit stopped it. -/
theorem eval_higher {d d' : Int} (hle : d ≤ d') (fuel slot : Nat) (node : Node) (m : Machine) :
    eval d' fuel slot node m = eval d fuel slot node m ∨
      ∃ e left, eval d fuel slot node m = .error e left ∧ e.IsTooDeep ∧
        Onward left (Run.machineOf (eval d' fuel slot node m)) := by
  have hbegins : Begins Halt.IsTooDeep slot (eval d fuel slot node) (eval d' fuel slot node) :=
    Begins.eval hle (Or.inr fun name pos => ⟨name, d, pos, rfl⟩) (Nat.le_refl fuel) (Or.inl rfl)
      slot node
  have hpaired := hbegins.paired m m ⟨m.checksLeft, rfl, Or.inl rfl⟩
  exact hpaired.eq_or_stopped (by simp [Halt.IsTooDeep])

end Eval

namespace Session

/-- Why a run stopped, if it did. -/
def stop? (outcome : Except Halt Value × Session) : Option Halt :=
  match outcome.1 with
  | .ok _ => none
  | .error h => some h

/-- The stop of an outcome is the one that its answer reports. -/
theorem stop?_eq_some_iff {outcome : Except Halt Value × Session} {h : Halt} :
    stop? outcome = some h ↔ outcome.1 = .error h := by
  unfold stop?
  cases outcome.1 <;> simp

/-- An outcome without a stop has a value for its answer. -/
theorem ne_error_of_stop?_eq_none {outcome : Except Halt Value × Session}
    (h : stop? outcome = none) (e : Halt) : outcome.1 ≠ .error e := by
  intro he
  rw [stop?_eq_some_iff.mpr he] at h
  exact absurd h (by simp)

/-- The session with another limit to the depth of calls. -/
def limitedTo (s : Session) (d : Int) : Session := { s with options.maxDepth := d }

/-- Under a higher limit the run of a tree is the same, or the lower limit stopped it. -/
theorem runTree_higher {d d' : Int} (hle : d ≤ d') (s : Session) (fuel : Nat) (checks : Option Nat)
    (tree : Node) :
    (s.limitedTo d').runTree fuel checks tree =
        (((s.limitedTo d).runTree fuel checks tree).1,
          ((s.limitedTo d).runTree fuel checks tree).2.limitedTo d') ∨
      ∃ e, ((s.limitedTo d).runTree fuel checks tree).1 = .error e ∧ e.IsTooDeep ∧
        Onward ((s.limitedTo d).runTree fuel checks tree).2.machine
          ((s.limitedTo d').runTree fuel checks tree).2.machine := by
  have hecho : (s.limitedTo d').options.echo = (s.limitedTo d).options.echo := rfl
  have hbegins : Begins Halt.IsTooDeep 0
      (runProgram (s.limitedTo d).options fuel (statementsOf tree))
      (runProgram (s.limitedTo d').options fuel (statementsOf tree)) := by
    refine Begins.runProgram hecho hle (Or.inr ?_) (Nat.le_refl fuel) (Or.inl rfl) _
    intro name pos
    exact ⟨name, d, pos, rfl⟩
  have hpaired := hbegins.paired { s.machine with checksLeft := checks }
    { s.machine with checksLeft := checks } ⟨checks, rfl, Or.inl rfl⟩
  rcases hpaired.eq_or_stopped (by simp [Halt.IsTooDeep]) with hsame | ⟨e, left, hleft, he, honward⟩
  · refine Or.inl ?_
    simp only [runTree, show ∀ x, (s.limitedTo x).machine = s.machine from fun _ => rfl, hsame]
    cases runProgram (s.limitedTo d).options fuel (statementsOf tree)
      { s.machine with checksLeft := checks } <;> rfl
  · refine Or.inr ⟨e, ?_, he, ?_⟩
    · simp only [runTree, show (s.limitedTo d).machine = s.machine from rfl, hleft]
    · simp only [runTree, show ∀ x, (s.limitedTo x).machine = s.machine from fun _ => rfl, hleft]
      cases hr : runProgram (s.limitedTo d').options fuel (statementsOf tree)
        { s.machine with checksLeft := checks } <;> (rw [hr] at honward; exact honward)

end Session

/-- A higher limit to the depth of calls never changes a run that the lower one did not stop.
Whatever the evaluation of a node comes to, from any slot and on any machine, it comes to the same
under a higher limit, unless calls were nested too deeply; and so does the run of a tree in a
session. In any case all that was written under the lower limit is a beginning of what is written
under the higher one, and the input that is left under the higher limit is an end of what was left
under the lower one, whether the run under the higher limit comes to an end or not. -/
theorem higher_limit_goes_further {d d' : Int} (hle : d ≤ d') :
    (∀ (slot : Nat) (node : Node) (m : Machine) (r : EStateM.Result Halt Machine Value),
      Eval.ComesTo d slot node m r →
        ((∀ h left, r = .error h left → ¬ h.IsTooDeep) → Eval.ComesTo d' slot node m r) ∧
        ∃ enough, ∀ fuel, enough ≤ fuel →
          (Run.machineOf r).written <+: (Run.machineOf (eval d' fuel slot node m)).written ∧
          (Run.machineOf (eval d' fuel slot node m)).input <:+ (Run.machineOf r).input) ∧
    ∀ (s : Session) (checks : Option Nat) (tree : Node) (outcome : Except Halt Value × Session),
      (s.limitedTo d).RunsTo checks tree outcome →
        ((∀ h, outcome.1 = .error h → ¬ h.IsTooDeep) →
          (s.limitedTo d').RunsTo checks tree (outcome.1, outcome.2.limitedTo d')) ∧
        ∃ enough, ∀ fuel, enough ≤ fuel →
          outcome.2.machine.written <+:
            ((s.limitedTo d').runTree fuel checks tree).2.machine.written ∧
          ((s.limitedTo d').runTree fuel checks tree).2.machine.input <:+
            outcome.2.machine.input := by
  constructor
  · rintro slot node m r ⟨hfuel, enough, henough⟩
    -- once there is fuel enough, a run under the lower limit is either untouched by it or stopped
    -- by it
    have hhigher : ∀ fuel, enough ≤ fuel → eval d' fuel slot node m = r ∨
        ∃ e left, r = .error e left ∧ e.IsTooDeep ∧
          Onward left (Run.machineOf (eval d' fuel slot node m)) := by
      intro fuel hge
      have h := Eval.eval_higher hle fuel slot node m
      rwa [henough fuel hge] at h
    refine ⟨fun hended => ⟨hfuel, enough, fun fuel hge => ?_⟩, enough, fun fuel hge => ?_⟩
    · rcases hhigher fuel hge with hsame | ⟨e, left, hr, he, -⟩
      · exact hsame
      · exact absurd he (hended e left hr)
    · have honward : Onward (Run.machineOf r) (Run.machineOf (eval d' fuel slot node m)) := by
        rcases hhigher fuel hge with hsame | ⟨e, left, rfl, -, honward⟩
        · rw [hsame]
          exact .of_eq rfl rfl
        · exact honward
      exact ⟨honward.written_prefix, honward.input⟩
  · rintro s checks tree outcome ⟨hfuel, enough, henough⟩
    have hhigher : ∀ fuel, enough ≤ fuel →
        (s.limitedTo d').runTree fuel checks tree = (outcome.1, outcome.2.limitedTo d') ∨
        ∃ e, outcome.1 = .error e ∧ e.IsTooDeep ∧
          Onward outcome.2.machine ((s.limitedTo d').runTree fuel checks tree).2.machine := by
      intro fuel hge
      have h := Session.runTree_higher hle s fuel checks tree
      rwa [henough fuel hge] at h
    refine ⟨fun hended => ⟨hfuel, enough, fun fuel hge => ?_⟩, enough, fun fuel hge => ?_⟩
    · rcases hhigher fuel hge with hsame | ⟨e, he, hdeep, -⟩
      · exact hsame
      · exact absurd hdeep (hended e he)
    · have honward : Onward outcome.2.machine
          ((s.limitedTo d').runTree fuel checks tree).2.machine := by
        rcases hhigher fuel hge with hsame | ⟨e, -, -, honward⟩
        · rw [hsame]
          exact .of_eq rfl rfl
        · exact honward
      exact ⟨honward.written_prefix, honward.input⟩

/-- A function prints and calls itself once more. Where one call may be in progress, the second call
is refused after one line was printed; where two may be, both lines are printed, and a still higher
limit changes nothing. -/
theorem higher_limit_goes_further_twice :
    let f := Node.definition .origin "f" ["more"] .origin
      [.call .origin "print" [.string .origin [97]],
        .conditional .origin (.guarded (.reference .origin "more") .origin
          [.call .origin "f" [.boolean .origin false]] .done)]
    let tree := Node.block .origin [f, .call .origin "f" [.boolean .origin true]]
    let s := Session.start ⟨false, 0⟩ [] false none
    (∃ outcome, (s.limitedTo 1).RunsTo none tree outcome ∧
      outcome.1 = .error (.fault (.tooDeep "f" 1 .start)) ∧ outcome.2.machine.written = [97, 10] ∧
      ∃ enough, ∀ fuel, enough ≤ fuel →
        outcome.2.machine.written <+: ((s.limitedTo 2).runTree fuel none tree).2.machine.written) ∧
    ∃ outcome, (s.limitedTo 2).RunsTo none tree outcome ∧
      outcome.2.machine.written = [97, 10, 97, 10] ∧
      (s.limitedTo 3).RunsTo none tree (outcome.1, outcome.2.limitedTo 3) := by
  intro f tree s
  have hstopped : ((s.limitedTo 1).runTree 9 none tree).1 =
      .error (.fault (.tooDeep "f" 1 .start)) :=
    Session.stop?_eq_some_iff.mp (by decide +kernel)
  have hended : ∀ h, ((s.limitedTo 2).runTree 9 none tree).1 ≠ .error h := by
    intro h hh
    have hnone : Session.stop? ((s.limitedTo 2).runTree 9 none tree) = none := by decide +kernel
    rw [Session.stop?_eq_some_iff.mpr hh] at hnone
    exact absurd hnone (by simp)
  have hrun₁ : (s.limitedTo 1).RunsTo none tree ((s.limitedTo 1).runTree 9 none tree) :=
    Session.runsTo_of_fuel rfl (by rw [hstopped]; simp)
  have hrun₂ : (s.limitedTo 2).RunsTo none tree ((s.limitedTo 2).runTree 9 none tree) :=
    Session.runsTo_of_fuel rfl (hended _)
  obtain ⟨enough, hfurther⟩ :=
    ((higher_limit_goes_further (by decide : (1 : Int) ≤ 2)).2 s none tree _ hrun₁).2
  constructor
  · exact ⟨_, hrun₁, hstopped, by decide +kernel, enough, fun fuel hge => (hfurther fuel hge).1⟩
  · refine ⟨_, hrun₂, by decide +kernel, ?_⟩
    apply ((higher_limit_goes_further (by decide : (2 : Int) ≤ 3)).2 s none tree _ hrun₂).1
    intro h he
    exact absurd he (hended h)

end Offside
