import Offside.Proofs.Eval.Dynamic
import Offside.Proofs.Scope.Frames

/-!
# Frames in a chain are a stack of maps

In a chain the parent of every frame is the frame in the slot before it. Seen from the last slot, a
chain of frames does what a stack of maps does: the search for a name ends at the innermost map that
has it, a declaration goes to the innermost map, and an assignment changes the map where the search
ends. `mapsBelow` reads the stack off the frames.
-/

set_option autoImplicit false

namespace Offside

namespace Scopes

/-- The parent of the frame in the given slot of a chain. -/
def slotBefore : (slot : Nat) → Option Nat
  | 0 => none
  | slot + 1 => some slot

/-- The parent of every frame is the frame before it. -/
def Chained (s : Scopes) : Prop :=
  ∀ i f, s.frames[i]? = some f → f.parent = slotBefore i

/-- The map of the frame in a slot. -/
def mapAt (s : Scopes) (slot : Nat) : Dynamic.Bindings :=
  fun name => s.frames[slot]?.bind fun f => f.get? name

/-- The maps of the first frames, the last of them first. -/
def mapsBelow (s : Scopes) : Nat → List Dynamic.Bindings
  | 0 => []
  | k + 1 => s.mapAt k :: s.mapsBelow k

/-- The maps of all frames, the last one first. -/
def maps (s : Scopes) : List Dynamic.Bindings := s.mapsBelow s.count

variable {s s' : Scopes} {slot k : Nat} {name : String} {value : Value}

/-- There is one map for each slot below the given one. -/
theorem length_mapsBelow (s : Scopes) (k : Nat) : (s.mapsBelow k).length = k := by
  induction k with
  | zero => rfl
  | succ k ih => simp [mapsBelow, ih]

/-- The map at a slot is that of its frame. -/
theorem mapAt_eq {f : Frame} (h : s.frames[slot]? = some f) : s.mapAt slot = f.get? := by
  funext name
  simp [mapAt, h]

/-- Only the first frames count for their maps. -/
theorem mapsBelow_congr (h : ∀ i, i < k → s'.frames[i]? = s.frames[i]?) :
    s'.mapsBelow k = s.mapsBelow k := by
  induction k with
  | zero => rfl
  | succ k ih =>
    have htop : s'.mapAt k = s.mapAt k := by
      unfold mapAt
      rw [h k (Nat.lt_succ_self k)]
    have hbelow := ih fun i hi => h i (Nat.lt_succ_of_lt hi)
    unfold mapsBelow
    rw [htop, hbelow]

/-! ## New and released frames -/

/-- A new frame on top of the chain leaves a chain. -/
theorem chained_child (hs : s.Chained) (hslot : slot + 1 = s.count) :
    (s.child slot).1.Chained := by
  intro i f hf
  rw [getElem?_child] at hf
  split at hf
  · rename_i hi
    injection hf with hf
    rw [← hf, hi, ← hslot]
    rfl
  · exact hs i f hf

/-- A new frame adds an empty map. -/
theorem maps_child (s : Scopes) (slot : Nat) : (s.child slot).1.maps = .empty :: s.maps := by
  have htop : (s.child slot).1.mapAt s.count = .empty := by
    rw [mapAt_eq (f := ⟨[], some slot⟩) (by rw [getElem?_child, if_pos rfl])]
    rfl
  have hbelow : (s.child slot).1.mapsBelow s.count = s.mapsBelow s.count := by
    apply mapsBelow_congr
    intro i hi
    rw [getElem?_child, if_neg (Nat.ne_of_lt hi)]
  unfold maps
  rw [count_child, mapsBelow, htop, hbelow]

/-- A chain stays one when its last frame is released. -/
theorem chained_pop (hs : s.Chained) : Chained ⟨s.frames.pop⟩ := by
  intro i f hf
  rw [Array.getElem?_pop] at hf
  split at hf
  · exact hs i f hf
  · simp at hf

/-- The release of the last frame removes the innermost map. -/
theorem maps_pop (s : Scopes) : maps ⟨s.frames.pop⟩ = s.maps.tail := by
  have hcount : count ⟨s.frames.pop⟩ = s.count - 1 := by simp [count]
  have hbelow : mapsBelow ⟨s.frames.pop⟩ (s.count - 1) = s.mapsBelow (s.count - 1) := by
    apply mapsBelow_congr
    intro i hi
    exact getElem?_pop_of_lt (by omega)
  unfold maps
  rw [hcount, hbelow]
  cases s.count <;> rfl

/-! ## Changes to one frame -/

/-- A change that keeps the parents of frames leaves a chain. -/
theorem chained_modify (hs : s.Chained) (i : Nat) (g : Frame → Frame)
    (hg : ∀ f, (g f).parent = f.parent) : Chained ⟨s.frames.modify i g⟩ := by
  intro k f hf
  rw [Array.getElem?_modify] at hf
  split at hf
  · obtain ⟨f₀, hf₀, rfl⟩ := Option.map_eq_some_iff.mp hf
    rw [hg]
    exact hs k f₀ hf₀
  · exact hs k f hf

/-- A change to a frame does not show in the maps below it. -/
theorem mapsBelow_modify_of_le {i : Nat} (h : k ≤ i) (g : Frame → Frame) :
    mapsBelow ⟨s.frames.modify i g⟩ k = s.mapsBelow k := by
  apply mapsBelow_congr
  intro j hj
  rw [Array.getElem?_modify, if_neg (by omega)]

/-- A change to a frame does not show in the map of another one. -/
theorem mapAt_modify_of_ne {i : Nat} (h : i ≠ k) (g : Frame → Frame) :
    mapAt ⟨s.frames.modify i g⟩ k = s.mapAt k := by
  unfold mapAt
  rw [Array.getElem?_modify, if_neg h]

/-- A change to a frame shows in its own map. -/
theorem mapAt_modify_self {f : Frame} (hf : s.frames[k]? = some f) (g : Frame → Frame) :
    mapAt ⟨s.frames.modify k g⟩ k = (g f).get? := by
  apply mapAt_eq
  rw [Array.getElem?_modify, if_pos rfl, hf]
  rfl

/-- To add a name to a frame is to bind it in the map of the frame. -/
theorem get?_insert_eq_bind (f : Frame) (name : String) (value : Value) :
    (f.insert name value).get? = Dynamic.Bindings.bind f.get? name value := by
  funext n
  exact Frame.get?_insert f name n value

/-- To update a name of a frame is to bind it in the map of the frame. -/
theorem get?_update_eq_bind {f : Frame} {old : Value} (h : f.get? name = some old)
    (value : Value) : (f.update name value).get? = Dynamic.Bindings.bind f.get? name value := by
  funext n
  rw [Frame.get?_update]
  unfold Dynamic.Bindings.bind
  by_cases hn : n = name
  · rw [if_pos hn, if_pos hn, hn, h]
    rfl
  · rw [if_neg hn, if_neg hn]

/-- In a chain a declaration in the last frame goes to the innermost map. -/
theorem declare_of_chained (hslot : slot + 1 = s.count) (name : String) (value : Value) :
    ∃ b outer, s.maps = b :: outer ∧
      if (b name).isSome then s.declare slot name value = .error (.fault (.duplicateDeclaration name))
      else ∃ g, s.declare slot name value = .ok ⟨s.frames.modify slot g⟩ ∧
        (∀ f, (g f).parent = f.parent) ∧
        maps ⟨s.frames.modify slot g⟩ = b.bind name value :: outer := by
  have hlive : slot < s.frames.size := by
    unfold count at hslot
    omega
  obtain ⟨f, hf⟩ : ∃ f, s.frames[slot]? = some f := ⟨_, Array.getElem?_eq_getElem hlive⟩
  refine ⟨f.get?, s.mapsBelow slot, ?_, ?_⟩
  · unfold maps
    rw [← hslot, mapsBelow, mapAt_eq hf]
  · split
    · rename_i hsome
      unfold declare
      simp only [hf, hsome, if_true]
    · rename_i hnone
      refine ⟨fun f => f.insert name value, ?_, fun _ => rfl, ?_⟩
      · unfold declare
        simp only [hf, hnone, if_false, Bool.false_eq_true]
      · have hcount : count ⟨s.frames.modify slot fun f => f.insert name value⟩ = slot + 1 := by
          rw [hslot]
          simp [count]
        unfold maps
        rw [hcount, mapsBelow, mapAt_modify_self hf, mapsBelow_modify_of_le (Nat.le_refl slot),
          get?_insert_eq_bind]

/-! ## Search -/

/-- What the search for a name through the first frames of a chain finds is what the stack of their
maps holds, and a new value given there is the new value in the stack. -/
def SearchAgrees (s : Scopes) (name : String) (k : Nat) : Search → Prop
  | .found i v =>
      i < k ∧ ((s.mapsBelow k).findSome? fun b => b name) = some v ∧
        ∀ value, Dynamic.reassigned name value (s.mapsBelow k) =
          some (mapsBelow ⟨s.frames.modify i fun f => f.update name value⟩ k)
  | .nowhere =>
      ((s.mapsBelow k).findSome? fun b => b name) = none ∧
        ∀ value, Dynamic.reassigned name value (s.mapsBelow k) = none
  | .offEnd _ => False
  | .endless => False

/-- In a chain the search for a name goes through the frames one by one towards the root. -/
theorem search_of_chained (hs : s.Chained) (name : String) (steps : Nat) (hk : k ≤ s.count)
    (hsteps : k < steps) : s.SearchAgrees name k (s.search name steps (slotBefore k)) := by
  induction k generalizing steps with
  | zero =>
    have hsearch : s.search name steps (slotBefore 0) = .nowhere := by
      cases steps <;> rfl
    rw [hsearch]
    exact ⟨rfl, fun _ => rfl⟩
  | succ k ih =>
    obtain ⟨n, rfl⟩ : ∃ n, steps = n + 1 := ⟨steps - 1, by omega⟩
    obtain ⟨f, hf⟩ : ∃ f, s.frames[k]? = some f := ⟨_, Array.getElem?_eq_getElem hk⟩
    have hmap : s.mapAt k = f.get? := mapAt_eq hf
    have hbelow : s.mapsBelow (k + 1) = f.get? :: s.mapsBelow k := by
      rw [mapsBelow, hmap]
    unfold search slotBefore
    simp only [hf]
    cases hv : f.get? name with
    | some v =>
      refine ⟨Nat.lt_succ_self k, ?_, fun value => ?_⟩
      · simp [hbelow, hv]
      · rw [hbelow, Dynamic.reassigned, if_pos (by simp [hv]), mapsBelow, mapAt_modify_self hf,
          mapsBelow_modify_of_le (Nat.le_refl k), get?_update_eq_bind hv]
    | none =>
      -- the frame does not have the name, so the search goes on one slot below
      rw [hs k f hf]
      have hrest := ih n (by omega) (by omega)
      cases hsearch : s.search name n (slotBefore k) with
      | found i v =>
        rw [hsearch] at hrest
        obtain ⟨hi, hfind, hset⟩ := hrest
        refine ⟨Nat.lt_succ_of_lt hi, ?_, fun value => ?_⟩
        · simp [hbelow, hv, hfind]
        · rw [hbelow, Dynamic.reassigned, if_neg (by simp [hv]), hset, mapsBelow,
            mapAt_modify_of_ne (Nat.ne_of_lt hi), hmap]
          rfl
      | nowhere =>
        rw [hsearch] at hrest
        obtain ⟨hfind, hset⟩ := hrest
        refine ⟨?_, fun value => ?_⟩
        · simp [hbelow, hv, hfind]
        · rw [hbelow, Dynamic.reassigned, if_neg (by simp [hv]), hset]
          rfl
      | offEnd i =>
        rw [hsearch] at hrest
        exact hrest
      | endless =>
        rw [hsearch] at hrest
        exact hrest

/-- From the end of a chain, a search goes through the maps one by one. -/
theorem find_of_chained (hs : s.Chained) (hslot : slot + 1 = s.count) (name : String) :
    s.SearchAgrees name s.count (s.find slot name) := by
  have h := search_of_chained hs name (s.frames.size + 1) (Nat.le_refl s.count)
    (Nat.lt_succ_self s.count)
  rw [← hslot] at h ⊢
  exact h

/-- In a chain a lookup from the last slot gives what the innermost map that has the name holds. -/
theorem get_of_chained (hs : s.Chained) (hslot : slot + 1 = s.count) (name : String) :
    s.get slot name =
      match s.maps.findSome? fun b => b name with
      | some v => .ok v
      | none => .error (.fault (.undeclaredVariable name)) := by
  have h := find_of_chained hs hslot name
  unfold get maps
  cases hfind : s.find slot name with
  | found i v =>
    rw [hfind] at h
    rw [h.2.1]
  | nowhere =>
    rw [hfind] at h
    rw [h.1]
  | offEnd i =>
    rw [hfind] at h
    exact h.elim
  | endless =>
    rw [hfind] at h
    exact h.elim

/-- In a chain an assignment from the last slot changes the innermost map that has the name. -/
theorem set_of_chained (hs : s.Chained) (hslot : slot + 1 = s.count) (name : String)
    (value : Value) :
    match Dynamic.reassigned name value s.maps with
    | some stack => ∃ i g, s.set slot name value = .ok ⟨s.frames.modify i g⟩ ∧
        (∀ f, (g f).parent = f.parent) ∧ maps ⟨s.frames.modify i g⟩ = stack
    | none => s.set slot name value = .error (.fault (.undeclaredVariable name)) := by
  have h := find_of_chained hs hslot name
  unfold set maps
  cases hfind : s.find slot name with
  | found i v =>
    rw [hfind] at h
    rw [h.2.2 value]
    refine ⟨i, fun f => f.update name value, rfl, fun _ => rfl, ?_⟩
    simp [count]
  | nowhere =>
    rw [hfind] at h
    rw [h.2 value]
  | offEnd i =>
    rw [hfind] at h
    exact h.elim
  | endless =>
    rw [hfind] at h
    exact h.elim

end Scopes

end Offside
