import Offside.Proofs.Eval.Termination
import Offside.Proofs.Scope.Chain
import Mathlib.Data.List.Perm.Subperm

/-!
# Calls on handles, and where a search for a name ends

An arena is scopes together with the slots of all handles that were given out. Calls are made on
handles, in any order, and a handle may be used after its frame was released.

The parent of a frame lies in a slot further down as long as frames are only added under slots that
hold one (`ordered_child_iff`), and then every search for a name is a walk that ends. Nothing keeps
a caller from adding a frame under a handle whose slot is empty, and such a frame can become its own
parent.
-/

set_option autoImplicit false

namespace Offside

/-- Scopes, and the slots of all handles that were given out, in this order. -/
structure Arena where
  /-- The live frames. -/
  scopes : Scopes
  /-- The slot of each handle. -/
  slots : List Nat

namespace Arena

/-- A call on a handle, which is named by its number. -/
inductive Call where
  /-- Adds a frame under that of the handle and gives out a handle on it. -/
  | child (handle : Nat)
  /-- Removes the frame of the handle. -/
  | release (handle : Nat)
  /-- Declares a name in the frame of the handle. -/
  | declare (handle : Nat) (name : String) (value : Value)
  /-- Gives a name a new value as seen from the handle. -/
  | set (handle : Nat) (name : String) (value : Value)
  /-- Asks for the value of a name as seen from the handle. -/
  | get (handle : Nat) (name : String)
  /-- Asks whether the frame of the handle declares a name. -/
  | has (handle : Nat) (name : String)

namespace Call

/-- The number of the handle that a call is made on. -/
def handle : Call → Nat
  | child h | release h | declare h _ _ | set h _ _ | get h _ | has h _ => h

/-- Whether a call adds a frame. -/
def isChild : Call → Bool
  | child _ => true
  | _ => false

end Call

/-- What a call gives back. -/
inductive Answer where
  /-- The number of a new handle. -/
  | handle (number : Nat)
  /-- Nothing but that it was done. -/
  | done
  /-- A value. -/
  | value (v : Value)
  /-- Whether a name is declared. -/
  | verdict (holds : Bool)
  /-- The reason why it was not done. -/
  | failed (h : Halt)

/-- The scopes of which one handle was given out, on the root. -/
def start (s : Scopes) : Arena := ⟨s, [0]⟩

/-- The slot of a handle; a number that was not given out stands for the root. -/
def slotOf (a : Arena) (handle : Nat) : Nat := a.slots.getD handle 0

/-- The answer of a change to the scopes, and the arena after it. -/
def changed (a : Arena) : Except Halt Scopes → Answer × Arena
  | .ok s => (.done, { a with scopes := s })
  | .error h => (.failed h, a)

/-- The answer to a call, and the arena after it. -/
def perform (a : Arena) (c : Call) : Answer × Arena :=
  match c with
  | .child h =>
      let (scopes, slot) := a.scopes.child (a.slotOf h)
      (.handle a.slots.length, ⟨scopes, a.slots ++ [slot]⟩)
  | .release h => a.changed (a.scopes.release (a.slotOf h))
  | .declare h name v => a.changed (a.scopes.declare (a.slotOf h) name v)
  | .set h name v => a.changed (a.scopes.set (a.slotOf h) name v)
  | .get h name =>
      match a.scopes.get (a.slotOf h) name with
      | .ok v => (.value v, a)
      | .error e => (.failed e, a)
  | .has h name =>
      match a.scopes.has (a.slotOf h) name with
      | .ok holds => (.verdict holds, a)
      | .error e => (.failed e, a)

/-- The answers to calls that are made one after the other. -/
def answers (a : Arena) : List Call → List Answer
  | [] => []
  | c :: cs => (a.perform c).1 :: (a.perform c).2.answers cs

/-- The arena after calls that are made one after the other. -/
def after (a : Arena) (calls : List Call) : Arena := calls.foldl (fun a c => (a.perform c).2) a

/-- Whether a frame is only added under a handle whose slot holds a frame. -/
def buildsOnFrames (a : Arena) : List Call → Bool
  | [] => true
  | c :: cs =>
      (!c.isChild || decide (a.slotOf c.handle < a.scopes.count)) &&
        (a.perform c).2.buildsOnFrames cs

end Arena

namespace Scopes

/-! ## Parents further down -/

/-- The parent of every frame, if it has one, lies in a slot further down. -/
def Ordered (s : Scopes) : Prop :=
  ∀ (i : Nat) (f : Frame), s.frames[i]? = some f →
    f.parent = none ∨ ∃ p, f.parent = some p ∧ p < i

variable {s s' : Scopes} {slot : Nat} {name : String} {value : Value}

/-- A new frame has its parent further down exactly if it is added under a slot that holds one. -/
theorem ordered_child_iff : (s.child slot).1.Ordered ↔ s.Ordered ∧ slot < s.count := by
  constructor
  · intro h
    constructor
    · intro i f hf
      have hlt : i < s.count := (Array.getElem?_eq_some_iff.mp hf).1
      exact h i f (by rw [getElem?_child, if_neg (Nat.ne_of_lt hlt)]; exact hf)
    · have hnew := h s.count ⟨[], some slot⟩ (by rw [getElem?_child, if_pos rfl])
      simpa using hnew
  · rintro ⟨hs, hslot⟩ i f hf
    rw [getElem?_child] at hf
    split at hf
    · rename_i hi
      injection hf with hf
      subst hf hi
      exact Or.inr ⟨slot, rfl, hslot⟩
    · exact hs i f hf

/-- Parents stay further down when the last frame is released. -/
theorem Ordered.pop (hs : s.Ordered) : Ordered ⟨s.frames.pop⟩ := by
  intro i f hf
  rw [Array.getElem?_pop] at hf
  split at hf
  · exact hs i f hf
  · simp at hf

/-- Parents stay further down under a change that keeps them. -/
theorem Ordered.modify (hs : s.Ordered) (i : Nat) (g : Frame → Frame)
    (hg : ∀ f, (g f).parent = f.parent) : Ordered ⟨s.frames.modify i g⟩ := by
  intro k f hf
  rw [Array.getElem?_modify] at hf
  split at hf
  · obtain ⟨f₀, hf₀, rfl⟩ := Option.map_eq_some_iff.mp hf
    rw [hg]
    exact hs k f₀ hf₀
  · exact hs k f hf

/-- Parents stay further down when a name is declared. -/
theorem Ordered.declare (hs : s.Ordered) (h : s.declare slot name value = .ok s') :
    s'.Ordered := by
  obtain ⟨f, -, -, rfl⟩ := declare_eq_ok_iff.mp h
  exact hs.modify slot _ fun _ => rfl

/-- Parents stay further down when a name is given a new value. -/
theorem Ordered.set (hs : s.Ordered) (h : s.set slot name value = .ok s') : s'.Ordered := by
  obtain ⟨i, rfl⟩ := set_eq_ok h
  exact hs.modify i _ fun _ => rfl

/-- A release that succeeds removes the last frame. -/
theorem release_eq_ok (h : s.release slot = .ok s') : s' = ⟨s.frames.pop⟩ := by
  unfold release at h
  dsimp only at h
  split at h
  · injection h with h
    exact h.symm
  · simp at h

/-- A single frame without a parent is in order. -/
theorem ordered_single {f : Frame} (hparent : f.parent = none) : Ordered ⟨#[f]⟩ := by
  intro i g hg
  obtain ⟨hi, rfl⟩ := Array.getElem?_eq_some_iff.mp hg
  have hzero : i = 0 := Nat.lt_one_iff.mp hi
  subst hzero
  exact Or.inl hparent

/-- The names of a root that declares the given builtins. -/
def builtinBindings (names : List String) : Dynamic.Bindings :=
  names.zipIdx.foldl (fun b p => b.bind p.1 (.builtin p.2 p.1)) .empty

/-- Scopes that declare builtins are a root with their names. -/
theorem exists_root_of_withBuiltins {names : List String} (h : withBuiltins names = .ok s) :
    ∃ f : Frame, s = ⟨#[f]⟩ ∧ f.parent = none ∧ f.get? = builtinBindings names := by
  have hfold : ∀ (builtins : List (String × Nat)) (f : Frame), f.parent = none →
      builtins.foldlM (fun (s : Scopes) p => s.declare 0 p.1 (.builtin p.2 p.1)) ⟨#[f]⟩ = .ok s →
      ∃ f' : Frame, s = ⟨#[f']⟩ ∧ f'.parent = none ∧ f'.get? =
        builtins.foldl (fun b p => Dynamic.Bindings.bind b p.1 (.builtin p.2 p.1)) f.get? := by
    intro builtins
    induction builtins with
    | nil =>
      intro f hf h
      injection h with h
      exact ⟨f, h.symm, hf, rfl⟩
    | cons p rest ih =>
      intro f hf h
      rw [List.foldlM_cons] at h
      cases hd : declare ⟨#[f]⟩ 0 p.1 (.builtin p.2 p.1) with
      | error e =>
        rw [hd] at h
        exact absurd h (by simp [bind, Except.bind])
      | ok s₁ =>
        obtain ⟨-, -, -, rfl⟩ := declare_eq_ok_iff.mp hd
        rw [hd] at h
        obtain ⟨f', hs, hparent, hget⟩ := ih (f.insert p.1 (.builtin p.2 p.1)) hf h
        refine ⟨f', hs, hparent, ?_⟩
        rw [hget, get?_insert_eq_bind]
        rfl
  exact hfold names.zipIdx ⟨[], none⟩ rfl h

/-! ## Walks -/

/-- The walk from a slot, if there is one, along the parents ends where the name is declared, above
the root, or at a slot without a frame. -/
inductive Walks (s : Scopes) (name : String) : (slot : Option Nat) → Search → Prop
  | nowhere : Walks s name none .nowhere
  | offEnd {slot : Nat} (h : s.frames[slot]? = none) : Walks s name (some slot) (.offEnd slot)
  | found {slot : Nat} {f : Frame} {v : Value} (h : s.frames[slot]? = some f)
      (hv : f.get? name = some v) : Walks s name (some slot) (.found slot v)
  | outward {slot : Nat} {f : Frame} {r : Search} (h : s.frames[slot]? = some f)
      (hv : f.get? name = none) (hr : Walks s name f.parent r) : Walks s name (some slot) r

/-- A walk comes to an end. -/
theorem Walks.ne_endless {start : Option Nat} {r : Search} (h : s.Walks name start r) :
    r ≠ .endless := by
  induction h with
  | outward h hv hr ih => exact ih
  | nowhere | offEnd | found => simp

/-- A search that does not run out of steps is a walk. -/
theorem walks_of_search {steps : Nat} {start : Option Nat}
    (h : s.search name steps start ≠ .endless) :
    s.Walks name start (s.search name steps start) := by
  induction steps generalizing start with
  | zero =>
    cases start with
    | none => exact .nowhere
    | some slot => exact absurd rfl h
  | succ steps ih =>
    cases start with
    | none => exact .nowhere
    | some slot =>
      unfold search at h ⊢
      cases hf : s.frames[slot]? with
      | none => exact .offEnd hf
      | some f =>
        simp only [hf] at h
        dsimp only
        cases hv : f.get? name with
        | some v => exact .found hf hv
        | none =>
          simp only [hv] at h
          exact .outward hf hv (ih h)

/-- A search stops at a frame that declares the name. -/
theorem search_succ_of_some {f : Frame} {v : Value} (hf : s.frames[slot]? = some f) (steps : Nat)
    (hv : f.get? name = some v) : s.search name (steps + 1) (some slot) = .found slot v := by
  simp only [search, hf, hv]

/-- A search goes on to the parent of a frame that does not declare the name. -/
theorem search_succ_of_none {f : Frame} (hf : s.frames[slot]? = some f) (steps : Nat)
    (hv : f.get? name = none) :
    s.search name (steps + 1) (some slot) = s.search name steps f.parent := by
  simp only [search, hf, hv]

/-- The slots that a walk to a declared name passes. From each of them another number of steps is
left, so no slot comes twice. -/
theorem Walks.exists_path {start : Option Nat} {r : Search} (h : s.Walks name start r)
    (hr : ∃ i v, r = .found i v) :
    ∃ path : List Nat, path.Nodup ∧ (∀ p ∈ path, p < s.count) ∧
      (∀ p ∈ path, ∃ steps ≤ path.length, s.search name steps (some p) = r) ∧
      (∀ steps, path.length ≤ steps → s.search name steps start = r) ∧
      ∀ steps < path.length, s.search name steps start = .endless := by
  induction h with
  | nowhere | offEnd => simp at hr
  | @found slot f v hf hv =>
    have hfound : ∀ steps, 1 ≤ steps → s.search name steps (some slot) = .found slot v := by
      intro steps hsteps
      obtain ⟨k, rfl⟩ := Nat.exists_eq_add_of_le' hsteps
      exact search_succ_of_some hf k hv
    refine ⟨[slot], by simp, ?_, ?_, hfound, ?_⟩
    · intro p hp
      rw [List.mem_singleton.mp hp]
      exact (Array.getElem?_eq_some_iff.mp hf).1
    · intro p hp
      rw [List.mem_singleton.mp hp]
      exact ⟨1, Nat.le_refl 1, hfound 1 (Nat.le_refl 1)⟩
    · intro steps hsteps
      obtain rfl : steps = 0 := by simpa using hsteps
      rfl
  | @outward slot f r hf hnone hwalk ih =>
    obtain ⟨path, hnodup, hlive, hleft, hfound, hshort⟩ := ih hr
    have hlater : ∀ steps, path.length + 1 ≤ steps → s.search name steps (some slot) = r := by
      intro steps hsteps
      obtain ⟨k, rfl⟩ := Nat.exists_eq_add_of_le' hsteps
      rw [← Nat.add_assoc, search_succ_of_none hf _ hnone]
      exact hfound _ (Nat.le_add_left _ _)
    have hsooner : ∀ steps < path.length + 1, s.search name steps (some slot) = .endless := by
      intro steps hsteps
      cases steps with
      | zero => rfl
      | succ k =>
        rw [search_succ_of_none hf _ hnone]
        exact hshort k (by omega)
    -- the way from here is longer than from any slot further on, so it does not lead back here
    have hnew : slot ∉ path := by
      intro hmem
      obtain ⟨steps, hsteps, hagain⟩ := hleft slot hmem
      rw [hsooner steps (by omega)] at hagain
      exact hwalk.ne_endless hagain.symm
    refine ⟨slot :: path, List.nodup_cons.mpr ⟨hnew, hnodup⟩, ?_, ?_, hlater, hsooner⟩
    · intro p hp
      rcases List.mem_cons.mp hp with rfl | hp
      · exact (Array.getElem?_eq_some_iff.mp hf).1
      · exact hlive p hp
    · intro p hp
      rcases List.mem_cons.mp hp with rfl | hp
      · exact ⟨_, Nat.le_refl _, hlater _ (Nat.le_refl _)⟩
      · obtain ⟨steps, hsteps, hsearch⟩ := hleft p hp
        exact ⟨steps, Nat.le_succ_of_le hsteps, hsearch⟩

/-- Where a walk finds a name, the search finds it: it takes no more steps than there are frames. -/
theorem Walks.find_eq {i : Nat} {v : Value} (h : s.Walks name (some slot) (.found i v)) :
    s.find slot name = .found i v := by
  obtain ⟨path, hnodup, hlive, -, hfound, -⟩ := h.exists_path ⟨i, v, rfl⟩
  have hslots : path ⊆ List.range s.count := fun p hp => List.mem_range.mpr (hlive p hp)
  have hlength : path.length ≤ s.count := by
    have := (List.subperm_of_subset hnodup hslots).length_le
    rwa [List.length_range] at this
  exact hfound _ (Nat.le_succ_of_le hlength)

/-- Where parents lie further down, every frame has the root above it. -/
theorem Ordered.rooted (hs : s.Ordered) (hslot : slot < s.count) : s.Rooted slot := by
  induction slot using Nat.strongRecOn with
  | _ slot ih =>
  obtain ⟨f, hf⟩ : ∃ f, s.frames[slot]? = some f := ⟨_, Array.getElem?_eq_getElem hslot⟩
  have hparent : s.parent? slot = some f.parent := by
    unfold parent?
    rw [hf]
    rfl
  rcases hs slot f hf with hnone | ⟨p, hp, hlt⟩
  · exact .root (hparent.trans (congrArg some hnone))
  · exact .under (hparent.trans (congrArg some hp)) hlt (ih p hlt (Nat.lt_trans hlt hslot))

/-- Where parents lie further down, the search for a name from any slot is a walk. -/
theorem Ordered.walks (hs : s.Ordered) (slot : Nat) (name : String) :
    s.Walks name (some slot) (s.find slot name) := by
  apply walks_of_search
  rcases Nat.lt_or_ge slot s.count with hslot | hslot
  · exact (hs.rooted hslot).find_ne_endless name
  · unfold count at hslot
    unfold search
    rw [Array.getElem?_eq_none hslot]
    simp

/-- A walk that would have to pass its own start does not end. -/
theorem not_walks_of_own_parent {f : Frame} (hf : s.frames[slot]? = some f)
    (hname : f.get? name = none) (hparent : f.parent = some slot) (r : Search) :
    ¬ s.Walks name (some slot) r := by
  intro h
  generalize hstart : some slot = start at h
  induction h with
  | nowhere => simp at hstart
  | offEnd h =>
    injection hstart with hstart
    subst hstart
    simp [hf] at h
  | found h hv =>
    injection hstart with hstart
    subst hstart
    rw [hf] at h
    injection h with h
    subst h
    simp [hname] at hv
  | outward h hv hr ih =>
    injection hstart with hstart
    subst hstart
    rw [hf] at h
    injection h with h
    subst h
    exact ih hparent.symm

end Scopes

namespace Arena

variable {a : Arena}

/-- A call keeps parents further down, unless it adds a frame under an empty slot. -/
theorem ordered_perform (ha : a.scopes.Ordered) (c : Call)
    (hc : c.isChild = true → a.slotOf c.handle < a.scopes.count) :
    (a.perform c).2.scopes.Ordered := by
  have hchanged : ∀ r : Except Halt Scopes, (∀ s, r = .ok s → s.Ordered) →
      (a.changed r).2.scopes.Ordered := by
    intro r hr
    cases r with
    | ok s => exact hr s rfl
    | error h => exact ha
  cases c with
  | child h => exact Scopes.ordered_child_iff.mpr ⟨ha, hc rfl⟩
  | release h =>
    apply hchanged
    intro s hs
    rw [Scopes.release_eq_ok hs]
    exact ha.pop
  | declare h name v => exact hchanged _ fun _ hs => ha.declare hs
  | set h name v => exact hchanged _ fun _ hs => ha.set hs
  | get h name =>
    unfold perform
    dsimp only
    cases a.scopes.get (a.slotOf h) name <;> exact ha
  | has h name =>
    unfold perform
    dsimp only
    cases a.scopes.has (a.slotOf h) name <;> exact ha

/-- Calls keep parents further down, unless they add a frame under an empty slot. -/
theorem ordered_after (ha : a.scopes.Ordered) {calls : List Call}
    (hcalls : a.buildsOnFrames calls = true) : (a.after calls).scopes.Ordered := by
  induction calls generalizing a with
  | nil => exact ha
  | cons c cs ih =>
    rw [buildsOnFrames, Bool.and_eq_true] at hcalls
    obtain ⟨hc, hcs⟩ := hcalls
    exact ih (ordered_perform ha c fun hchild => by simpa [hchild] using hc) hcs

end Arena

/-- Let calls be made on handles, whether their frames are still live or not, and let frames only be
added under handles whose slots hold a frame. Then the parent of every live frame lies in a slot
further down, and every search for a name, from whatever slot, is a walk along the parents that
ends, so that neither a lookup nor an assignment goes on for ever. -/
theorem searches_end_in_ordered_scopes (names : List String) (s : Scopes)
    (hs : Scopes.withBuiltins names = .ok s) (calls : List Arena.Call)
    (hframes : (Arena.start s).buildsOnFrames calls = true) :
    let scopes := ((Arena.start s).after calls).scopes
    scopes.Ordered ∧ ∀ slot name,
      scopes.Walks name (some slot) (scopes.find slot name) ∧
      scopes.get slot name ≠ .error .outOfFuel ∧
      ∀ value, scopes.set slot name value ≠ .error .outOfFuel := by
  intro scopes
  obtain ⟨f, rfl, hparent, -⟩ := Scopes.exists_root_of_withBuiltins hs
  have hordered : scopes.Ordered :=
    Arena.ordered_after (a := Arena.start ⟨#[f]⟩) (Scopes.ordered_single hparent) hframes
  refine ⟨hordered, fun slot name => ?_⟩
  have hwalk := hordered.walks slot name
  have hends := hwalk.ne_endless
  refine ⟨hwalk, ?_, fun value => ?_⟩
  · unfold Scopes.get
    cases hfind : scopes.find slot name with
    | endless => exact absurd hfind hends
    | found | nowhere | offEnd => simp
  · unfold Scopes.set
    cases hfind : scopes.find slot name with
    | endless => exact absurd hfind hends
    | found | nowhere | offEnd => simp

/-- Two frames are released and their slots used again, the second one under a handle on the first
frame; the old handles still lead to walks that end. -/
theorem searches_end_in_ordered_scopes_reused :
    let calls : List Arena.Call := [.child 0, .child 1, .declare 2 "x" (.int 1), .release 2,
      .release 1, .child 0, .child 1, .get 2 "x"]
    ∃ s, Scopes.withBuiltins ["print"] = .ok s ∧ (Arena.start s).buildsOnFrames calls = true ∧
      ((Arena.start s).after calls).scopes.Ordered ∧
      ((Arena.start s).after calls).scopes.Walks "x" (some 2)
        (((Arena.start s).after calls).scopes.find 2 "x") := by
  intro calls
  have hframes : (Arena.start ⟨#[⟨[("print", .builtin 0 "print")], none⟩]⟩).buildsOnFrames calls =
      true := by decide
  have h := searches_end_in_ordered_scopes ["print"] _ rfl calls hframes
  exact ⟨_, rfl, hframes, h.1, (h.2 2 "x").1⟩

/-- A frame that is added under a handle on a released frame can take that frame's slot. It is then
its own parent, and no walk that starts there ends, unless the frame declares the name itself. Or it
takes a slot further down than its parent's, and sees what a later frame declares there. -/
theorem frame_under_released_handle :
    let own := ((Arena.start .root).after [.child 0, .release 1, .child 1]).scopes
    let calls : List Arena.Call := [.child 0, .child 1, .release 2, .release 1, .child 2, .child 0,
      .declare 4 "x" (.int 1), .get 3 "x"]
    own.parent? 1 = some (some 1) ∧ (∀ name r, ¬ own.Walks name (some 1) r) ∧
      ((Arena.start .root).after calls).scopes.parent? 1 = some (some 2) ∧
      (Arena.start .root).answers calls = [.handle 1, .handle 2, .done, .done, .handle 3, .handle 4,
        .done, .value (.int 1)] := by
  refine ⟨rfl, ?_, rfl, rfl⟩
  intro name r
  exact Scopes.not_walks_of_own_parent (f := ⟨[], some 1⟩) rfl rfl rfl r

end Offside
