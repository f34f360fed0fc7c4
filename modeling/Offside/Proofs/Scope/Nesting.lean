import Offside.Proofs.Scope.Handles

/-!
# Frames in slots are scopes in a tree

A tree of scopes knows no slots. Scopes are numbered as they are made and keep their numbers, each
of them lies in an older one, and the one that was made last among those alive can be taken away.
Calls that are made on handles of live frames get the answers that the tree gives
(`Represents.perform`): a scope that is alive has its frame in the slot that counts the older scopes
alive (`rank`).
-/

set_option autoImplicit false

namespace Offside

open Arena (Call)

/-- A scope of a tree. -/
structure Scope where
  /-- The number of the scope around it; the root has none. -/
  parent : Option Nat
  /-- The declared names with their values. -/
  bindings : Dynamic.Bindings

/-- Scopes by their numbers. Every scope but the root lies in an older one that is alive. -/
structure ScopeTree where
  /-- How many scopes were made; the next one gets this number. -/
  made : Nat
  /-- The scopes that are alive. -/
  scope : Nat → Option Scope
  unmade : ∀ i, made ≤ i → scope i = none
  rooted : (scope 0).isSome = true
  nested : ∀ i s, scope i = some s →
    match s.parent with
    | none => i = 0
    | some p => p < i ∧ (scope p).isSome = true

namespace ScopeTree

/-- Whether a scope is alive. -/
def isAlive (t : ScopeTree) (i : Nat) : Bool := (t.scope i).isSome

/-- The value that a scope itself binds a name to. -/
def binding (t : ScopeTree) (i : Nat) (name : String) : Option Value :=
  (t.scope i).bind fun s => s.bindings name

/-- The number of a scope that lies in another one is the greater one. -/
theorem parent_lt (t : ScopeTree) {i p : Nat} (h : (t.scope i).bind Scope.parent = some p) :
    p < i := by
  obtain ⟨s, hs, hp⟩ := Option.bind_eq_some_iff.mp h
  have hnested := t.nested i s hs
  rw [hp] at hnested
  exact hnested.1

/-- The scopes from one outwards to the root. -/
@[semireducible] def path (t : ScopeTree) (i : Nat) : List Nat :=
  match h : (t.scope i).bind Scope.parent with
  | none => [i]
  | some p =>
      have : p < i := t.parent_lt h
      i :: t.path p
termination_by i

/-- The nearest scope, from one outwards to the root, that declares a name. -/
def nearest (t : ScopeTree) (i : Nat) (name : String) : Option Nat :=
  (t.path i).find? fun j => (t.binding j name).isSome

/-- How many scopes that are alive are older than the given number. -/
def rank (t : ScopeTree) (i : Nat) : Nat := (List.range i).countP t.isAlive

/-- Whether no scope that is alive is younger. -/
def isLast (t : ScopeTree) (i : Nat) : Bool :=
  (List.range t.made).all fun j => decide (j ≤ i) || !t.isAlive j

variable {t : ScopeTree} {i j : Nat} {name : String}

/-- A scope that is alive was made. -/
theorem lt_made (h : t.isAlive i = true) : i < t.made := by
  by_contra hle
  unfold isAlive at h
  rw [t.unmade i (Nat.le_of_not_lt hle)] at h
  simp at h

/-- No scope that was made after the last one is alive. -/
theorem not_alive_of_isLast (hlast : t.isLast i = true) (hlt : i < j) : t.isAlive j = false := by
  by_contra hj
  rw [Bool.not_eq_false] at hj
  unfold isLast at hlast
  rw [List.all_eq_true] at hlast
  have h := hlast j (List.mem_range.mpr (lt_made hj))
  simp only [hj, Bool.not_true, Bool.or_false, decide_eq_true_eq] at h
  omega

/-! ## The tree after a call -/

/-- A scope that keeps its parent is nested among any scopes with which no older one is lost. -/
theorem nested_of_kept (t : ScopeTree) {scope : Nat → Option Scope} {s s' : Scope}
    (hs : t.scope i = some s) (hparent : s'.parent = s.parent)
    (hkept : ∀ p, p < i → (t.scope p).isSome = true → (scope p).isSome = true) :
    match s'.parent with
    | none => i = 0
    | some p => p < i ∧ (scope p).isSome = true := by
  have hnested := t.nested i s hs
  rw [hparent]
  cases hp : s.parent with
  | none =>
    rw [hp] at hnested
    exact hnested
  | some p =>
    rw [hp] at hnested
    exact ⟨hnested.1, hkept p hnested.1 hnested.2⟩

/-- The tree with a new scope, without names, in the given one. -/
def child (t : ScopeTree) (i : Nat) (hi : t.isAlive i = true) : ScopeTree where
  made := t.made + 1
  scope j := if j = t.made then some ⟨some i, .empty⟩ else t.scope j
  unmade j hj := by
    rw [if_neg (by omega)]
    exact t.unmade j (by omega)
  rooted := by
    have hpos : 0 < t.made := lt_made t.rooted
    rw [if_neg (by omega)]
    exact t.rooted
  nested j s hs := by
    have hkept : ∀ p, (t.scope p).isSome = true →
        (if p = t.made then some ⟨some i, .empty⟩ else t.scope p).isSome = true := by
      intro p hp
      split
      · rfl
      · exact hp
    split at hs
    · rename_i hj
      injection hs with hs
      subst hs hj
      exact ⟨lt_made hi, hkept i hi⟩
    · exact t.nested_of_kept hs rfl fun p _ => hkept p

/-- The tree without its youngest scope. -/
def release (t : ScopeTree) (i : Nat) (hlast : t.isLast i = true) (hi : i ≠ 0) : ScopeTree where
  made := t.made
  scope j := if j = i then none else t.scope j
  unmade j hj := by
    split
    · rfl
    · exact t.unmade j hj
  rooted := by
    rw [if_neg hi.symm]
    exact t.rooted
  nested j s hs := by
    split at hs
    · simp at hs
    · apply t.nested_of_kept hs rfl
      intro p hlt hp
      have hne : p ≠ i := by
        -- a scope inside the youngest one would be younger still
        rintro rfl
        have hdead := not_alive_of_isLast hlast hlt
        unfold isAlive at hdead
        simp [hs] at hdead
      rw [if_neg hne]
      exact hp

/-- The tree in which one scope binds a name to a value, whether or not it did before. -/
def bind (t : ScopeTree) (i : Nat) (name : String) (value : Value) : ScopeTree where
  made := t.made
  scope j := (t.scope j).map fun s =>
    if j = i then { s with bindings := s.bindings.bind name value } else s
  unmade j hj := by
    rw [t.unmade j hj]
    rfl
  rooted := by
    rw [Option.isSome_map]
    exact t.rooted
  nested j s hs := by
    obtain ⟨s₀, hs₀, rfl⟩ := Option.map_eq_some_iff.mp hs
    have hparent : (if j = i then { s₀ with bindings := s₀.bindings.bind name value }
        else s₀).parent = s₀.parent := by
      split <;> rfl
    apply t.nested_of_kept hs₀ hparent
    intro p _ hp
    rw [Option.isSome_map]
    exact hp

/-- The answer to a call on a scope that is alive, and the tree after it. A failed call changes
nothing. -/
def perform (t : ScopeTree) (c : Call) (hc : t.isAlive c.handle = true) :
    Arena.Answer × ScopeTree :=
  match c with
  | .child i => (.handle t.made, t.child i hc)
  | .release i =>
      if h : t.isLast i = true ∧ i ≠ 0 then (.done, t.release i h.1 h.2)
      else (.failed (.defect (.releaseOrder (t.rank i) (t.rank t.made - 1))), t)
  | .declare i name value =>
      if (t.binding i name).isSome then (.failed (.fault (.duplicateDeclaration name)), t)
      else (.done, t.bind i name value)
  | .set i name value =>
      match t.nearest i name with
      | some j => (.done, t.bind j name value)
      | none => (.failed (.fault (.undeclaredVariable name)), t)
  | .get i name =>
      match (t.nearest i name).bind fun j => t.binding j name with
      | some v => (.value v, t)
      | none => (.failed (.fault (.undeclaredVariable name)), t)
  | .has i name => (.verdict (t.binding i name).isSome, t)

/-- The calls are all made on scopes that are alive; they get the answers and lead to the last
tree. -/
inductive Answers : ScopeTree → List Call → List Arena.Answer → ScopeTree → Prop
  | nil (t : ScopeTree) : Answers t [] [] t
  | cons {t t₁ t' : ScopeTree} {c : Call} {answer : Arena.Answer} {calls : List Call}
      {answers : List Arena.Answer} (hc : t.isAlive c.handle = true)
      (hcall : t.perform c hc = (answer, t₁))
      (hcalls : Answers t₁ calls answers t') : Answers t (c :: calls) (answer :: answers) t'

/-- The tree of a root with the given names. -/
def root (bindings : Dynamic.Bindings) : ScopeTree where
  made := 1
  scope i := if i = 0 then some ⟨none, bindings⟩ else none
  unmade i hi := if_neg (by omega)
  rooted := rfl
  nested i s hs := by
    split at hs
    · rename_i hi
      injection hs with hs
      subst hs
      exact hi
    · simp at hs

/-! ## Ranks -/

/-- Ranks go up by one at each scope that is alive. -/
theorem rank_succ (t : ScopeTree) (i : Nat) :
    t.rank (i + 1) = t.rank i + if t.isAlive i then 1 else 0 := by
  unfold rank
  rw [List.range_succ, List.countP_append, List.countP_singleton]

/-- Ranks go up with the numbers of scopes. -/
theorem rank_mono (t : ScopeTree) (h : i ≤ j) : t.rank i ≤ t.rank j := by
  induction h with
  | refl => exact Nat.le_refl _
  | step _ ih =>
    rw [rank_succ]
    exact Nat.le_add_right_of_le ih

/-- A scope that is alive has a lower rank than those after it. -/
theorem rank_lt (hi : t.isAlive i = true) (h : i < j) : t.rank i < t.rank j := by
  have hsucc := t.rank_mono (Nat.succ_le_of_lt h)
  rw [rank_succ, if_pos hi] at hsucc
  exact hsucc

/-- Scopes that are alive are told apart by their ranks. -/
theorem rank_inj (hi : t.isAlive i = true) (hj : t.isAlive j = true) (h : t.rank i = t.rank j) :
    i = j := by
  rcases Nat.lt_trichotomy i j with hlt | heq | hgt
  · exact absurd h (Nat.ne_of_lt (rank_lt hi hlt))
  · exact heq
  · exact absurd h.symm (Nat.ne_of_lt (rank_lt hj hgt))

/-- The rank of a scope depends on which scopes before it are alive. -/
theorem rank_congr {t' : ScopeTree} (h : ∀ j, j < i → t'.isAlive j = t.isAlive j) :
    t'.rank i = t.rank i := by
  induction i with
  | zero => rfl
  | succ i ih =>
    rw [rank_succ, rank_succ, h i (Nat.lt_succ_self i), ih fun j hj => h j (Nat.lt_succ_of_lt hj)]

/-- Scopes that are not alive do not count towards a rank. -/
theorem rank_eq_of_dead (h : i ≤ j) (hdead : ∀ k, i ≤ k → k < j → t.isAlive k = false) :
    t.rank j = t.rank i := by
  induction h with
  | refl => rfl
  | @step j hij ih =>
    rw [rank_succ, hdead j hij (Nat.lt_succ_self j), ih fun k hk hkj =>
      hdead k hk (Nat.lt_succ_of_lt hkj)]
    rfl

/-- A scope that is alive is the youngest one exactly if its rank is the last one. -/
theorem isLast_iff (hi : t.isAlive i = true) :
    t.isLast i = true ↔ t.rank i = t.rank t.made - 1 := by
  have hnext : t.rank (i + 1) = t.rank i + 1 := by rw [rank_succ, if_pos hi]
  constructor
  · intro hlast
    have hdead : t.rank t.made = t.rank (i + 1) :=
      rank_eq_of_dead (lt_made hi) fun k hk _ => not_alive_of_isLast hlast hk
    omega
  · intro hrank
    unfold isLast
    rw [List.all_eq_true]
    intro j hj
    by_contra halive
    simp only [Bool.or_eq_true, decide_eq_true_eq, Bool.not_eq_true', not_or, Nat.not_le,
      Bool.not_eq_false] at halive
    have hij : t.rank (i + 1) ≤ t.rank j := t.rank_mono halive.1
    have hjmade := rank_lt halive.2 (List.mem_range.mp hj)
    omega

/-- Only the root has rank zero. -/
theorem rank_eq_zero_iff (hi : t.isAlive i = true) : t.rank i = 0 ↔ i = 0 := by
  constructor
  · intro hrank
    by_contra hne
    have hroot := rank_lt (t := t) (i := 0) t.rooted (Nat.pos_of_ne_zero hne)
    omega
  · rintro rfl
    rfl

/-! ## Paths -/

/-- Where a number is alive there is a scope. -/
theorem exists_scope (hi : t.isAlive i = true) : ∃ s, t.scope i = some s :=
  Option.isSome_iff_exists.mp hi

/-- The scope around one that is alive was made earlier and is alive. -/
theorem parent_alive {s : Scope} {p : Nat} (hs : t.scope i = some s) (hp : s.parent = some p) :
    p < i ∧ t.isAlive p = true := by
  have h := t.nested i s hs
  rw [hp] at h
  exact h

/-- The rank of a parent is the same where the ranks of all older scopes are. -/
theorem parent_rank_congr {t' : ScopeTree} {s : Scope} (hs : t.scope i = some s)
    (hrank : ∀ p, p < i → t'.rank p = t.rank p) :
    s.parent.map t'.rank = s.parent.map t.rank := by
  cases hp : s.parent with
  | none => rfl
  | some p =>
    have hlt := (parent_alive hs hp).1
    rw [Option.map_some, Option.map_some, hrank p hlt]

/-- The nearest scope that declares a name is the scope itself or the nearest one from its
parent. -/
theorem nearest_eq {s : Scope} (hs : t.scope i = some s) (name : String) :
    t.nearest i name =
      if (s.bindings name).isSome then some i
      else s.parent.bind fun p => t.nearest p name := by
  have hbinding : t.binding i name = s.bindings name := by
    unfold binding
    rw [hs]
    rfl
  unfold nearest
  rw [path]
  split
  · rename_i hnone
    rw [hs, Option.bind_some] at hnone
    rw [List.find?_cons, hbinding, hnone]
    cases (s.bindings name).isSome <;> rfl
  · rename_i p hsome
    rw [hs, Option.bind_some] at hsome
    rw [List.find?_cons, hbinding, hsome]
    cases (s.bindings name).isSome <;> rfl

end ScopeTree

/-! ## Slots and ranks -/

namespace Arena

/-- Every scope that is alive has its frame in the slot of its rank, with the same names and the
same parent, and its handle has that slot. -/
structure Represents (a : Arena) (t : ScopeTree) : Prop where
  made : a.slots.length = t.made
  count : a.scopes.count = t.rank t.made
  slot : ∀ i, t.isAlive i = true → a.slots[i]? = some (t.rank i)
  frame : ∀ i s, t.scope i = some s →
    ∃ f, a.scopes.frames[t.rank i]? = some f ∧ f.get? = s.bindings ∧
      f.parent = s.parent.map t.rank

namespace Represents

open ScopeTree

variable {a : Arena} {t : ScopeTree} {i : Nat} (h : a.Represents t)
include h

/-- The slot of a handle is the rank of its scope. -/
theorem slotOf_eq (hi : t.isAlive i = true) : a.slotOf i = t.rank i := by
  unfold Arena.slotOf
  rw [List.getD_eq_getElem?_getD, h.slot i hi]
  rfl

/-- A scope that is alive has a frame at its rank, with the same bindings. -/
theorem exists_frame (hi : t.isAlive i = true) :
    ∃ f, a.scopes.frames[t.rank i]? = some f ∧ f.get? = t.binding i := by
  obtain ⟨s, hs⟩ := exists_scope hi
  obtain ⟨f, hf, hget, -⟩ := h.frame i s hs
  refine ⟨f, hf, ?_⟩
  rw [hget]
  unfold binding
  rw [hs]
  rfl

/-! ### Searches -/

/-- The search for a name from the slot of a scope ends in the slot of the nearest scope that
declares it. -/
theorem search_eq (hi : t.isAlive i = true) (name : String) {steps : Nat}
    (hsteps : t.rank i < steps) :
    match t.nearest i name with
    | some j => t.isAlive j = true ∧ ∃ v, t.binding j name = some v ∧
        a.scopes.search name steps (some (t.rank i)) = .found (t.rank j) v
    | none => a.scopes.search name steps (some (t.rank i)) = .nowhere := by
  induction i using Nat.strongRecOn generalizing steps with
  | _ i ih =>
  obtain ⟨n, rfl⟩ : ∃ n, steps = n + 1 := ⟨steps - 1, by omega⟩
  obtain ⟨s, hs⟩ := exists_scope hi
  obtain ⟨f, hf, hget, hparent⟩ := h.frame i s hs
  rw [nearest_eq hs name]
  unfold Scopes.search
  simp only [hf, hget, hparent]
  cases hv : s.bindings name with
  | some v => exact ⟨hi, v, by simp [binding, hs, hv], rfl⟩
  | none =>
    cases hp : s.parent with
    | none => cases n <;> rfl
    | some p =>
      obtain ⟨hlt, halive⟩ := parent_alive hs hp
      have hrank := rank_lt halive hlt
      exact ih p hlt halive (by omega)

/-- A search from a slot finds the frame of the nearest scope that binds the name, or nothing. -/
theorem find_eq (hi : t.isAlive i = true) (name : String) :
    match t.nearest i name with
    | some j => t.isAlive j = true ∧ ∃ v, t.binding j name = some v ∧
        a.scopes.find (t.rank i) name = .found (t.rank j) v
    | none => a.scopes.find (t.rank i) name = .nowhere := by
  have hrank := rank_lt hi (lt_made hi)
  rw [← h.count] at hrank
  exact h.search_eq hi name (Nat.lt_succ_of_lt hrank)

/-! ### New and released frames -/

/-- A new frame represents a new scope, with its own handle. -/
theorem of_child (hi : t.isAlive i = true) :
    Represents ⟨(a.scopes.child (t.rank i)).1, a.slots ++ [(a.scopes.child (t.rank i)).2]⟩
      (t.child i hi) := by
  -- the new scope has the highest number, so no rank up to it changes
  have hrank : ∀ j, j ≤ t.made → (t.child i hi).rank j = t.rank j := by
    intro j hj
    apply rank_congr
    intro k hk
    unfold isAlive ScopeTree.child
    dsimp only
    rw [if_neg (by omega)]
  have hnew : (t.child i hi).isAlive t.made = true := by simp [isAlive, ScopeTree.child]
  constructor
  · simp [ScopeTree.child, h.made]
  · have hmade : (t.child i hi).made = t.made + 1 := rfl
    rw [Scopes.count_child, hmade, rank_succ, if_pos hnew, hrank _ (Nat.le_refl _), h.count]
  · intro j hj
    rw [hrank j (Nat.le_of_lt_succ (lt_made hj))]
    -- the handle of the new scope is the last one, those of the others are where they were
    by_cases hjmade : j = t.made
    · subst hjmade
      rw [← h.made, List.getElem?_append_right (Nat.le_refl _), Nat.sub_self, h.made, ← h.count]
      rfl
    · have hold : t.isAlive j = true := by
        simpa [isAlive, ScopeTree.child, hjmade] using hj
      have hslot := h.slot j hold
      rw [List.getElem?_append_left (by rw [h.made]; exact lt_made hold)]
      exact hslot
  · intro j s hs
    change (if j = t.made then some ⟨some i, .empty⟩ else t.scope j) = some s at hs
    split at hs
    · rename_i hj
      injection hs with hs
      subst hs hj
      refine ⟨⟨[], some (t.rank i)⟩, ?_, rfl, ?_⟩
      · rw [hrank _ (Nat.le_refl _), Scopes.getElem?_child, if_pos h.count.symm]
      · rw [Option.map_some, hrank i (Nat.le_of_lt (lt_made hi))]
    · rename_i hj
      obtain ⟨f, hf, hget, hparent⟩ := h.frame j s hs
      have halive : t.isAlive j = true := by simp [isAlive, hs]
      have hmade := lt_made halive
      have hlt := rank_lt halive hmade
      refine ⟨f, ?_, hget, ?_⟩
      · rw [hrank j (Nat.le_of_lt hmade), Scopes.getElem?_child, if_neg (by rw [h.count]; omega)]
        exact hf
      · rw [hparent]
        exact (parent_rank_congr hs fun p _ => hrank p (by omega)).symm

/-- The release of the last frame represents that of the last scope. -/
theorem of_release (hi : t.isAlive i = true) (hlast : t.isLast i = true) (hne : i ≠ 0) :
    Represents { a with scopes := ⟨a.scopes.frames.pop⟩ } (t.release i hlast hne) := by
  have hrank : ∀ j, j ≤ i → (t.release i hlast hne).rank j = t.rank j := by
    intro j hj
    apply rank_congr
    intro k hk
    unfold isAlive ScopeTree.release
    dsimp only
    rw [if_neg (by omega)]
  -- the scopes that stay alive are older than the one that goes
  have hstays : ∀ j, (t.release i hlast hne).isAlive j = true → t.isAlive j = true ∧ j < i := by
    intro j hj
    have hji : j ≠ i := by
      rintro rfl
      simp [isAlive, ScopeTree.release] at hj
    have halive : t.isAlive j = true := by simpa [isAlive, ScopeTree.release, hji] using hj
    refine ⟨halive, ?_⟩
    by_contra hle
    have hdead := not_alive_of_isLast hlast (j := j) (by omega)
    simp [halive] at hdead
  have hcount : a.scopes.count = t.rank i + 1 := by
    have hnext := (isLast_iff hi).mp hlast
    have hlt := rank_lt hi (lt_made hi)
    rw [h.count]
    omega
  constructor
  · exact h.made
  · have hdead : (t.release i hlast hne).rank t.made = (t.release i hlast hne).rank i := by
      apply rank_eq_of_dead (Nat.le_of_lt (lt_made hi))
      intro k hk _
      by_contra halive
      have hlt := (hstays k (by simpa using halive)).2
      omega
    have hmade : (t.release i hlast hne).made = t.made := rfl
    rw [hmade, hdead, hrank i (Nat.le_refl i)]
    unfold Scopes.count at hcount ⊢
    simp [hcount]
  · intro j hj
    obtain ⟨halive, hlt⟩ := hstays j hj
    rw [hrank j (Nat.le_of_lt hlt)]
    exact h.slot j halive
  · intro j s hs
    have hj : (t.release i hlast hne).isAlive j = true := by simp [isAlive, hs]
    obtain ⟨halive, hlt⟩ := hstays j hj
    change (if j = i then none else t.scope j) = some s at hs
    rw [if_neg (by omega)] at hs
    obtain ⟨f, hf, hget, hparent⟩ := h.frame j s hs
    have hbelow := rank_lt halive hlt
    refine ⟨f, ?_, hget, ?_⟩
    · rw [hrank j (Nat.le_of_lt hlt), Scopes.getElem?_pop_of_lt (by omega)]
      exact hf
    · rw [hparent]
      exact (parent_rank_congr hs fun p _ => hrank p (by omega)).symm

/-! ### Changes to one frame -/

/-- A change to the frame of one scope that gives it one more name, or one name another value. -/
theorem of_bind (hi : t.isAlive i = true) (name : String) (value : Value) (g : Frame → Frame)
    (hg : ∀ f, a.scopes.frames[t.rank i]? = some f →
      (g f).parent = f.parent ∧ (g f).get? = Dynamic.Bindings.bind f.get? name value) :
    Represents { a with scopes := ⟨a.scopes.frames.modify (t.rank i) g⟩ }
      (t.bind i name value) := by
  have halive : ∀ j, (t.bind i name value).isAlive j = t.isAlive j := by
    intro j
    simp [isAlive, ScopeTree.bind]
  have hrank : ∀ j, (t.bind i name value).rank j = t.rank j := fun j =>
    rank_congr fun k _ => halive k
  constructor
  · exact h.made
  · rw [hrank, ← show t.made = (t.bind i name value).made from rfl, ← h.count]
    simp [Scopes.count]
  · intro j hj
    rw [halive] at hj
    rw [hrank]
    exact h.slot j hj
  · intro j s hs
    obtain ⟨s₀, hs₀, rfl⟩ := Option.map_eq_some_iff.mp hs
    obtain ⟨f, hf, hget, hparent⟩ := h.frame j s₀ hs₀
    have hmap : s₀.parent.map (t.bind i name value).rank = s₀.parent.map t.rank :=
      parent_rank_congr hs₀ fun p _ => hrank p
    rw [hrank, Array.getElem?_modify]
    by_cases hj : j = i
    · subst hj
      obtain ⟨hkept, hbound⟩ := hg f hf
      refine ⟨g f, by rw [if_pos rfl, hf]; rfl, ?_, ?_⟩
      · rw [hbound, hget, if_pos rfl]
      · rw [hkept, hparent, if_pos rfl, hmap]
    · have hne : t.rank i ≠ t.rank j := by
        intro heq
        have hjalive : t.isAlive j = true := by simp [isAlive, hs₀]
        exact hj (rank_inj hi hjalive heq).symm
      refine ⟨f, by rw [if_neg hne]; exact hf, ?_, ?_⟩
      · rw [hget, if_neg hj]
      · rw [hparent, if_neg hj, hmap]

/-! ### Calls -/

/-- A frame declares the names that its scope binds. -/
theorem has_eq (hi : t.isAlive i = true) (name : String) :
    a.scopes.has (t.rank i) name = .ok (t.binding i name).isSome := by
  obtain ⟨f, hf, hget⟩ := h.exists_frame hi
  unfold Scopes.has
  simp only [hf, hget]

/-- The value of a name is the one that the nearest scope binds it to. -/
theorem get_eq (hi : t.isAlive i = true) (name : String) :
    a.scopes.get (t.rank i) name =
      match (t.nearest i name).bind fun j => t.binding j name with
      | some v => .ok v
      | none => .error (.fault (.undeclaredVariable name)) := by
  have hfind := h.find_eq hi name
  unfold Scopes.get
  cases hn : t.nearest i name with
  | none =>
    rw [hn] at hfind
    rw [hfind]
    rfl
  | some j =>
    rw [hn] at hfind
    obtain ⟨-, v, hv, hfound⟩ := hfind
    rw [hfound, Option.bind_some, hv]

/-- A name is given its new value in the nearest scope that binds it, or it is undeclared. -/
theorem set_eq (hi : t.isAlive i = true) (name : String) (value : Value) :
    match t.nearest i name with
    | some j => ∃ s, a.scopes.set (t.rank i) name value = .ok s ∧
        Represents { a with scopes := s } (t.bind j name value)
    | none => a.scopes.set (t.rank i) name value = .error (.fault (.undeclaredVariable name)) := by
  have hfind := h.find_eq hi name
  unfold Scopes.set
  cases hn : t.nearest i name with
  | none =>
    rw [hn] at hfind
    simp only [hfind]
  | some j =>
    rw [hn] at hfind
    obtain ⟨hj, v, hv, hfound⟩ := hfind
    simp only [hfound]
    refine ⟨_, rfl, h.of_bind hj name value _ fun f hf => ⟨rfl, ?_⟩⟩
    obtain ⟨f', hf', hget⟩ := h.exists_frame hj
    rw [hf] at hf'
    injection hf' with hf'
    subst hf'
    have hold : f.get? name = some v := by rw [hget, hv]
    exact Scopes.get?_update_eq_bind hold value

/-- A name is bound in the scope of the handle, unless that scope binds it already. -/
theorem declare_eq (hi : t.isAlive i = true) (name : String) (value : Value) :
    if (t.binding i name).isSome then
      a.scopes.declare (t.rank i) name value = .error (.fault (.duplicateDeclaration name))
    else ∃ s, a.scopes.declare (t.rank i) name value = .ok s ∧
      Represents { a with scopes := s } (t.bind i name value) := by
  obtain ⟨f, hf, hget⟩ := h.exists_frame hi
  unfold Scopes.declare
  simp only [hf, hget]
  split
  · rfl
  · refine ⟨_, rfl, h.of_bind hi name value _ fun f' _ => ⟨rfl, ?_⟩⟩
    exact Scopes.get?_insert_eq_bind f' name value

/-- A scope can be released if it is the last one and not the root. -/
theorem release_eq (hi : t.isAlive i = true) :
    a.scopes.release (t.rank i) =
      if t.isLast i = true ∧ i ≠ 0 then .ok ⟨a.scopes.frames.pop⟩
      else .error (.defect (.releaseOrder (t.rank i) (t.rank t.made - 1))) := by
  have hsize : a.scopes.frames.size = t.rank t.made := h.count
  have hiff : (t.rank i = t.rank t.made - 1 ∧ t.rank i ≠ 0) ↔ t.isLast i = true ∧ i ≠ 0 :=
    and_congr (isLast_iff hi).symm (not_congr (rank_eq_zero_iff hi))
  unfold Scopes.release
  simp only [hsize, hiff]

/-- A call on a live handle gets the answer of the tree, and leaves frames that represent the tree
after it. -/
theorem perform (c : Call) (hc : t.isAlive c.handle = true) :
    (a.perform c).1 = (t.perform c hc).1 ∧ (a.perform c).2.Represents (t.perform c hc).2 := by
  cases c with
  | child i =>
    have hi : t.isAlive i = true := hc
    simp only [Arena.perform, ScopeTree.perform, h.slotOf_eq hi]
    exact ⟨congrArg Arena.Answer.handle h.made, h.of_child hi⟩
  | release i =>
    have hi : t.isAlive i = true := hc
    simp only [Arena.perform, ScopeTree.perform, h.slotOf_eq hi, h.release_eq hi]
    by_cases hlast : t.isLast i = true ∧ i ≠ 0
    · rw [if_pos hlast, dif_pos hlast]
      exact ⟨rfl, h.of_release hi hlast.1 hlast.2⟩
    · rw [if_neg hlast, dif_neg hlast]
      exact ⟨rfl, h⟩
  | declare i name value =>
    have hi : t.isAlive i = true := hc
    have hdeclare := h.declare_eq hi name value
    simp only [Arena.perform, ScopeTree.perform, h.slotOf_eq hi]
    by_cases hbound : (t.binding i name).isSome
    · rw [if_pos hbound] at hdeclare
      rw [hdeclare, if_pos hbound]
      exact ⟨rfl, h⟩
    · rw [if_neg hbound] at hdeclare
      obtain ⟨s, hs, hrep⟩ := hdeclare
      rw [hs, if_neg hbound]
      exact ⟨rfl, hrep⟩
  | set i name value =>
    have hi : t.isAlive i = true := hc
    have hset := h.set_eq hi name value
    simp only [Arena.perform, ScopeTree.perform, h.slotOf_eq hi]
    cases hn : t.nearest i name with
    | none =>
      rw [hn] at hset
      rw [hset]
      exact ⟨rfl, h⟩
    | some j =>
      rw [hn] at hset
      obtain ⟨s, hs, hrep⟩ := hset
      rw [hs]
      exact ⟨rfl, hrep⟩
  | get i name =>
    have hi : t.isAlive i = true := hc
    simp only [Arena.perform, ScopeTree.perform, h.slotOf_eq hi, h.get_eq hi]
    cases (t.nearest i name).bind fun j => t.binding j name <;> exact ⟨rfl, h⟩
  | has i name =>
    have hi : t.isAlive i = true := hc
    have hperform : a.perform (.has i name) = (.verdict (t.binding i name).isSome, a) := by
      simp only [Arena.perform, h.slotOf_eq hi, h.has_eq hi]
    rw [hperform]
    exact ⟨rfl, h⟩

omit h in
/-- Calls on live handles get the answers of the tree. -/
theorem answers {t' : ScopeTree} {calls : List Call} {answers : List Arena.Answer}
    (h : a.Represents t) (hcalls : t.Answers calls answers t') :
    a.answers calls = answers ∧ (a.after calls).Represents t' := by
  induction hcalls generalizing a with
  | nil t => exact ⟨rfl, h⟩
  | @cons t t₁ t' c answer calls answers hc hcall _ ih =>
    obtain ⟨hanswer, hnext⟩ := h.perform c hc
    rw [hcall] at hanswer hnext
    obtain ⟨hanswers, hafter⟩ := ih hnext
    exact ⟨by rw [Arena.answers, hanswer, hanswers], hafter⟩

end Represents

/-- A single frame without a parent represents a tree that is only a root. -/
theorem represents_root {f : Frame} (hparent : f.parent = none) :
    (Arena.start ⟨#[f]⟩).Represents (.root f.get?) where
  made := rfl
  count := rfl
  slot i hi := by
    have hzero : i = 0 := Nat.lt_one_iff.mp (ScopeTree.lt_made hi)
    subst hzero
    rfl
  frame i s hs := by
    change (if i = 0 then some ⟨none, f.get?⟩ else none) = some s at hs
    split at hs
    · rename_i hi
      injection hs with hs
      subst hs hi
      exact ⟨f, rfl, rfl, hparent⟩
    · simp at hs

end Arena

/-- Frames in slots answer as nested scopes do. Let calls be made on handles, one after the other,
and each on a handle whose scope is alive in a tree of scopes that follows the calls. Then the
frames give the answers of the tree, and as many frames are live as scopes are alive. -/
theorem frames_answer_as_nested_scopes (names : List String) (s : Scopes)
    (hs : Scopes.withBuiltins names = .ok s) (calls : List Call) (answers : List Arena.Answer)
    (t : ScopeTree)
    (hcalls : (ScopeTree.root (Scopes.builtinBindings names)).Answers calls answers t) :
    (Arena.start s).answers calls = answers ∧
      ((Arena.start s).after calls).scopes.count = t.rank t.made := by
  obtain ⟨f, rfl, hparent, hget⟩ := Scopes.exists_root_of_withBuiltins hs
  have hstart := Arena.represents_root hparent
  rw [hget] at hstart
  obtain ⟨hanswers, hafter⟩ := hstart.answers hcalls
  exact ⟨hanswers, hafter.count⟩

/-- Two scopes side by side in the root: the second one does not see what the first one declares,
the first one cannot be released before the second one, and a new scope in the slot of the first one
does not see what was declared there. -/
theorem frames_answer_as_nested_scopes_siblings :
    let calls : List Call := [.child 0, .declare 1 "x" (.int 1), .child 0, .get 2 "x", .release 1,
      .release 2, .get 1 "x", .release 1, .child 0, .get 3 "x", .has 3 "x"]
    let answers : List Arena.Answer := [.handle 1, .done, .handle 2,
      .failed (.fault (.undeclaredVariable "x")), .failed (.defect (.releaseOrder 1 2)), .done,
      .value (.int 1), .done, .handle 3, .failed (.fault (.undeclaredVariable "x")), .verdict false]
    ∃ s t, Scopes.withBuiltins ["print"] = .ok s ∧
      (ScopeTree.root (Scopes.builtinBindings ["print"])).Answers calls answers t ∧
      (Arena.start s).answers calls = answers ∧
      ((Arena.start s).after calls).scopes.count = t.rank t.made := by
  intro calls answers
  have hcalls : ∃ t, (ScopeTree.root (Scopes.builtinBindings ["print"])).Answers calls answers t :=
    ⟨_, .cons rfl rfl <| .cons rfl rfl <| .cons rfl rfl <| .cons rfl rfl <| .cons rfl rfl <|
      .cons rfl rfl <| .cons rfl rfl <| .cons rfl rfl <| .cons rfl rfl <| .cons rfl rfl <|
      .cons rfl rfl <| .nil _⟩
  obtain ⟨t, hcalls⟩ := hcalls
  exact ⟨_, t, rfl, hcalls, frames_answer_as_nested_scopes ["print"] _ rfl calls answers t hcalls⟩

end Offside
