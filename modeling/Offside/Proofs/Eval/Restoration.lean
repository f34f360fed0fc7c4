import Offside.Proofs.Eval.Invariance
import Offside.Proofs.Session.Steps

/-!
# Evaluation restores the frames

However the evaluation of a node ends, the machine has as many frames as before under the same
parents, and as many calls in progress. Only the frame that is looked from can have got new names;
the others have the names they had. The relation is `Restores`, and every action keeps it
(`kept_restores`). A session therefore rests, after any steps, on its root frame alone, and the root
never loses a name.
-/

set_option autoImplicit false

namespace Offside

namespace Scopes

/-- The parent of the frame in a slot, if the slot holds one. -/
def parent? (s : Scopes) (slot : Nat) : Option (Option Nat) := s.frames[slot]?.map Frame.parent

/-- Whether a frame has a name depends on the frame and on the number of frames. -/
theorem has_congr {s s' : Scopes} {i : Nat} {name : String} (hc : s'.count = s.count)
    (hi : (s'.frames[i]?).map (fun f => (f.get? name).isSome) =
      (s.frames[i]?).map fun f => (f.get? name).isSome) :
    s'.has i name = s.has i name := by
  unfold count at hc
  unfold has
  cases h' : s'.frames[i]? with
  | none =>
    cases h : s.frames[i]? with
    | none => simp [hc]
    | some f => simp [h, h'] at hi
  | some f' =>
    cases h : s.frames[i]? with
    | none => simp [h, h'] at hi
    | some f =>
      rw [h, h', Option.map_some, Option.map_some, Option.some.injEq] at hi
      simp [hi]

/-- A change to one frame that keeps its parent keeps all parents. -/
theorem parent?_modify (s : Scopes) (i slot : Nat) (g : Frame → Frame)
    (hg : ∀ f, (g f).parent = f.parent) :
    parent? ⟨s.frames.modify i g⟩ slot = s.parent? slot := by
  simp only [parent?, Array.getElem?_modify]
  split
  · cases s.frames[slot]? <;> simp [hg]
  · rfl

/-- The frame that is not changed has the names it had. -/
theorem has_modify_of_ne (s : Scopes) {i slot : Nat} (name : String) (g : Frame → Frame)
    (h : slot ≠ i) : has ⟨s.frames.modify i g⟩ slot name = s.has slot name := by
  apply has_congr
  · simp [count]
  · simp only [Array.getElem?_modify, if_neg h.symm]

end Scopes

/-- The frames, their parents and the calls in progress are the same; the frame in the given slot
has kept its names, and all other frames have exactly the names they had. -/
structure Restores (slot : Nat) (m m' : Machine) : Prop where
  depth : m'.depth = m.depth
  count : m'.scopes.count = m.scopes.count
  parent : ∀ i, m'.scopes.parent? i = m.scopes.parent? i
  names : ∀ i, i ≠ slot → ∀ name, m'.scopes.has i name = m.scopes.has i name
  grows : ∀ name, m.scopes.has slot name = .ok true → m'.scopes.has slot name = .ok true

namespace Restores

variable {slot : Nat} {m m' m'' : Machine}

/-- A machine with the same frames and calls in progress is restored. -/
theorem of_eq (hd : m'.depth = m.depth) (hs : m'.scopes = m.scopes) : Restores slot m m' where
  depth := hd
  count := by rw [hs]
  parent _ := by rw [hs]
  names _ _ _ := by rw [hs]
  grows _ h := by rw [hs]; exact h

/-- Restoring twice restores. -/
theorem trans (h₁ : Restores slot m m') (h₂ : Restores slot m' m'') : Restores slot m m'' where
  depth := h₂.depth.trans h₁.depth
  count := h₂.count.trans h₁.count
  parent i := (h₂.parent i).trans (h₁.parent i)
  names i hi name := (h₂.names i hi name).trans (h₁.names i hi name)
  grows name h := h₂.grows name (h₁.grows name h)

/-- A declaration adds a name to the frame it is made in. -/
theorem declare (slot : Nat) (name : String) (v : Value) :
    Run.Keeps (Restores slot) (Run.declare slot name v) := by
  intro m
  unfold Run.final Run.declare
  cases hd : m.scopes.declare slot name v with
  | error h => exact of_eq rfl rfl
  | ok s =>
    obtain ⟨f, hf, -, rfl⟩ := Scopes.declare_eq_ok_iff.mp hd
    exact {
      depth := rfl
      count := by simp [Scopes.count]
      parent := fun i => Scopes.parent?_modify m.scopes slot i _ fun _ => rfl
      names := fun i hi n => Scopes.has_modify_of_ne m.scopes n _ hi
      grows := fun n hn => by
        unfold Scopes.has at hn ⊢
        simp only [hf, Except.ok.injEq] at hn
        simp only [Array.getElem?_modify, if_pos, hf, Option.map_some, Except.ok.injEq]
        rw [Frame.get?_insert]
        split
        · rfl
        · exact hn }

/-- An assignment adds no name anywhere. -/
theorem assign (slot : Nat) (name : String) (v : Value) :
    Run.Keeps (Restores slot) (Run.assign slot name v) := by
  intro m
  unfold Run.final Run.assign
  cases hs : m.scopes.set slot name v with
  | error h => exact of_eq rfl rfl
  | ok s =>
    obtain ⟨i, rfl⟩ := Scopes.set_eq_ok hs
    have hcount : Scopes.count ⟨m.scopes.frames.modify i fun f => f.update name v⟩ =
        m.scopes.count := by simp [Scopes.count]
    have hnames : ∀ k n, Scopes.has ⟨m.scopes.frames.modify i fun f => f.update name v⟩ k n =
        m.scopes.has k n := by
      intro k n
      apply Scopes.has_congr hcount
      simp only [Array.getElem?_modify]
      split
      · cases m.scopes.frames[k]? <;> simp [Frame.isSome_get?_update]
      · rfl
    exact {
      depth := rfl
      count := hcount
      parent := fun k => Scopes.parent?_modify m.scopes i k _ fun _ => rfl
      names := fun k _ n => hnames k n
      grows := fun n hn => (hnames slot n).trans hn }

/-- What is restored inside a call is restored for the caller once the frame is left: the last
frame is the call's own, so it can be released, and its names go with it. -/
theorem leave (slot : Nat) (hm : 0 < m.scopes.count)
    (h : Restores m.scopes.count (Run.entered m slot) m') :
    Restores slot m ((Run.leave m.scopes.count).final m') := by
  have hcount : m'.scopes.count = m.scopes.count + 1 :=
    h.count.trans (Scopes.count_child m.scopes slot)
  have hrelease := Scopes.release_last m'.scopes (by omega)
  rw [hcount, Nat.add_sub_cancel] at hrelease
  -- the released frame was the last one: popping it leaves the frames that were there before
  have hsize : Scopes.count ⟨m'.scopes.frames.pop⟩ = m.scopes.count := by
    unfold Scopes.count at hcount ⊢
    rw [Array.size_pop]
    exact Nat.sub_eq_of_eq_add hcount
  have hbeyond : ∀ i, m.scopes.count ≤ i → m'.scopes.frames.pop[i]? = m.scopes.frames[i]? := by
    intro i hi
    have hi' : m'.scopes.frames.pop.size ≤ i := Nat.le_trans (Nat.le_of_eq hsize) hi
    rw [Array.getElem?_eq_none hi', Array.getElem?_eq_none hi]
  have hbelow : ∀ i, i < m.scopes.count → (Run.entered m slot).scopes.frames[i]? =
      m.scopes.frames[i]? := by
    intro i hi
    unfold Run.entered
    rw [Scopes.getElem?_child, if_neg (by omega)]
  have hparent : ∀ i, Scopes.parent? ⟨m'.scopes.frames.pop⟩ i = m.scopes.parent? i := by
    intro i
    rcases Nat.lt_or_ge i m.scopes.count with hi | hi
    · have hp := h.parent i
      unfold Scopes.parent? at hp ⊢
      rw [Scopes.getElem?_pop_of_lt (by omega), hp, hbelow i hi]
    · unfold Scopes.parent?
      rw [hbeyond i hi]
  have hnames : ∀ i name, Scopes.has ⟨m'.scopes.frames.pop⟩ i name = m.scopes.has i name := by
    intro i name
    apply Scopes.has_congr hsize
    rcases Nat.lt_or_ge i m.scopes.count with hi | hi
    · have hn := h.names i (by omega) name
      have hlive : i < (Run.entered m slot).scopes.count := by
        rw [← h.count]
        omega
      obtain ⟨f, hf⟩ : ∃ f, (Run.entered m slot).scopes.frames[i]? = some f :=
        ⟨_, Array.getElem?_eq_getElem hlive⟩
      obtain ⟨f', hf'⟩ : ∃ f', m'.scopes.frames[i]? = some f' :=
        ⟨_, Array.getElem?_eq_getElem (by rw [← h.count] at hlive; exact hlive)⟩
      unfold Scopes.has at hn
      simp only [hf, hf', Except.ok.injEq] at hn
      rw [Scopes.getElem?_pop_of_lt (by omega), ← hbelow i hi, hf, hf', Option.map_some, Option.map_some,
        hn]
    · rw [hbeyond i hi]
  have hdepth : m'.depth - 1 = m.depth := by
    rw [h.depth]
    rfl
  unfold Run.final Run.leave
  rw [hrelease]
  exact ⟨hdepth, hsize, hparent, fun i _ => hnames i, fun name hn => (hnames slot name).trans hn⟩

/-- Every action keeps the frames. -/
theorem kept : Eval.Kept Restores where
  refl _ _ := of_eq rfl rfl
  trans _ _ _ _ := trans
  count _ _ _ h := h.count
  check _ m := by
    unfold Run.final Run.check
    rcases m.checksLeft with _ | _ | n <;> exact of_eq rfl rfl
  log _ _ _ := of_eq rfl rfl
  freshId _ _ := of_eq rfl rfl
  write _ piece m := by
    unfold Run.final Run.write
    rcases m.writesLeft with _ | _ | n <;> exact of_eq rfl rfl
  readLine _ m := by
    rw [Run.final_readLine]
    exact of_eq rfl rfl
  declare := declare
  assign := assign
  leave slot _ _ := leave slot

end Restores

namespace Session

/-- Running a tree in a session restores the frames. -/
theorem runTree_restores (s : Session) (fuel : Nat) (checks : Option Nat) (tree : Node) :
    Restores 0 s.machine (s.runTree fuel checks tree).2.machine := by
  have h := Restores.kept.runProgram s.options fuel (statementsOf tree)
    { s.machine with checksLeft := checks }
  unfold Run.final at h
  unfold runTree
  cases hr : runProgram s.options fuel (statementsOf tree)
      { s.machine with checksLeft := checks } with
  | ok v m =>
    simp only [hr] at h ⊢
    refine Restores.trans ?_ h
    exact Restores.of_eq rfl rfl
  | error e m =>
    simp only [hr] at h ⊢
    refine Restores.trans ?_ h
    exact Restores.of_eq rfl rfl

/-- Every step of a session restores the frames. -/
theorem perform_restores (s : Session) (step : Step) :
    Restores 0 s.machine (s.perform step).2.machine := by
  unfold perform
  cases step.task with
  | tree node => exact s.runTree_restores step.fuel step.checks node
  | source text =>
    unfold runText
    cases hp : (Parse.ofText text).outcome with
    | error h =>
      simp only [hp]
      exact Restores.of_eq rfl rfl
    | ok tree =>
      simp only [hp]
      refine Restores.trans ?_ (runTree_restores _ step.fuel step.checks tree)
      exact Restores.of_eq rfl rfl

/-- Any steps of a session restore the frames. -/
theorem after_restores (s : Session) (steps : List Step) :
    Restores 0 s.machine (s.after steps).machine :=
  after_induction (P := fun s' => Restores 0 s.machine s'.machine) (Restores.of_eq rfl rfl)
    (fun s' step h => h.trans (s'.perform_restores step)) steps

end Session

/-- The evaluation of any node from any slot of any machine, with any fuel and however it ends,
restores the frames; and after any steps of any session the root is the only frame, no call is in
progress, and every name the root had after earlier steps is still there. -/
theorem evaluation_restores_frames :
    (∀ (maxDepth : Int) (fuel slot : Nat) (node : Node) (m : Machine),
      Restores slot m ((eval maxDepth fuel slot node).final m)) ∧
    ∀ (options : Options) (input : Text) (broken : Bool) (writes : Option Nat)
      (steps more : List Session.Step) (name : String),
      let s := (Session.start options input broken writes).after steps
      s.frameCount = 1 ∧ s.machine.depth = 0 ∧
        (s.machine.scopes.has 0 name = .ok true →
          (s.after more).machine.scopes.has 0 name = .ok true) := by
  refine ⟨fun maxDepth fuel slot node => Restores.kept.eval maxDepth fuel slot node, ?_⟩
  intro options input broken writes steps more name s
  have hstart := (Session.start options input broken writes).after_restores steps
  have hmore := s.after_restores more
  exact ⟨hstart.count, hstart.depth, hmore.grows name⟩

end Offside
