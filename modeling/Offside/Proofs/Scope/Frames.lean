import Offside.Scope
import Mathlib.Tactic.Common

/-!
# What the operations on scopes do to single frames

Each operation on scopes is described by the frames it leaves: a new frame comes last, a release
takes the last one away, a declaration changes the frame it is made in, and an assignment changes
the frame where the search for the name ends. A declaration adds one name to its frame, and an
assignment adds no name to any frame.
-/

set_option autoImplicit false

namespace Offside

namespace Frame

/-- A new value for a name leaves all other names of a frame alone, and is found under its name if
the name was bound. -/
theorem lookup_replaced (name n : String) (value : Value) (bs : List (String × Value)) :
    (replaced name value bs).lookup n =
      if n = name then (bs.lookup n).map fun _ => value else bs.lookup n := by
  induction bs with
  | nil => simp [replaced]
  | cons b rest ih =>
    obtain ⟨k, v⟩ := b
    unfold replaced
    by_cases hk : k = name
    · subst hk
      by_cases hn : n = k
      · simp [hn]
      · have hb : (n == k) = false := by simpa using hn
        simp only [if_pos, if_neg hn, List.lookup_cons, hb]
    · by_cases hn : n = k
      · subst hn
        simp [hk]
      · have hb : (n == k) = false := by simpa using hn
        simp only [if_neg hk, List.lookup_cons, hb]
        exact ih

/-- An inserted name is found with its value, and other names are found as before. -/
theorem get?_insert (f : Frame) (name n : String) (value : Value) :
    (f.insert name value).get? n = if n = name then some value else f.get? n := by
  unfold get? insert
  by_cases hn : n = name
  · simp [hn]
  · have hb : (n == name) = false := by simpa using hn
    simp only [List.lookup_cons, hb, if_neg hn]

/-- An updated name is found with its new value if it was bound, and other names are found as
before. -/
theorem get?_update (f : Frame) (name n : String) (value : Value) :
    (f.update name value).get? n =
      if n = name then (f.get? n).map fun _ => value else f.get? n :=
  lookup_replaced name n value f.bindings

/-- An update binds the same names. -/
theorem isSome_get?_update (f : Frame) (name n : String) (value : Value) :
    ((f.update name value).get? n).isSome = (f.get? n).isSome := by
  rw [get?_update]
  split <;> simp

end Frame

namespace Scopes

variable {s s' : Scopes} {slot i : Nat} {name n : String} {value : Value}

/-- The frames under a new child are the old ones, and the child's own frame is empty. -/
theorem getElem?_child (s : Scopes) (slot i : Nat) :
    (s.child slot).1.frames[i]? =
      if i = s.count then some ⟨[], some slot⟩ else s.frames[i]? := by
  simp only [child, count]
  exact Array.getElem?_push

/-- A new child is the last frame. -/
theorem count_child (s : Scopes) (slot : Nat) : (s.child slot).1.count = s.count + 1 := by
  simp [child, count]

/-- The last frame can be released unless it is the root, and the others stay as they are. -/
theorem release_last (s : Scopes) (hs : 1 < s.count) :
    s.release (s.count - 1) = .ok ⟨s.frames.pop⟩ := by
  unfold release
  rw [if_pos]
  exact ⟨rfl, by omega⟩

/-- The release of the last frame leaves the other frames where they are. -/
theorem getElem?_pop_of_lt (h : i + 1 < s.count) : s.frames.pop[i]? = s.frames[i]? := by
  unfold count at h
  rw [Array.getElem?_pop, if_pos (by omega)]

/-- A declaration that succeeds is made in a live frame that does not have the name yet. -/
theorem declare_eq_ok_iff : s.declare slot name value = .ok s' ↔
    ∃ f, s.frames[slot]? = some f ∧ f.get? name = none ∧
      s' = ⟨s.frames.modify slot fun f => f.insert name value⟩ := by
  unfold declare
  cases hf : s.frames[slot]? with
  | none => simp
  | some f =>
    cases hn : f.get? name with
    | none => simp [hn, eq_comm]
    | some v => simp [hn]

/-- Where a search finds a name, a live frame binds it. -/
theorem search_found {steps : Nat} {start : Option Nat}
    (h : s.search name steps start = .found i value) :
    ∃ f, s.frames[i]? = some f ∧ f.get? name = some value := by
  induction steps generalizing start with
  | zero => cases start <;> simp [search] at h
  | succ steps ih =>
    cases start with
    | none => simp [search] at h
    | some k =>
      unfold search at h
      cases hf : s.frames[k]? with
      | none => simp [hf] at h
      | some f =>
        cases hv : f.get? name with
        | none =>
          simp only [hf, hv] at h
          exact ih h
        | some v =>
          simp only [hf, hv, Search.found.injEq] at h
          obtain ⟨rfl, rfl⟩ := h
          exact ⟨f, hf, hv⟩

/-- An assignment that succeeds is made in a live frame. -/
theorem set_eq_ok (h : s.set slot name value = .ok s') :
    ∃ i, s' = ⟨s.frames.modify i fun f => f.update name value⟩ := by
  unfold set at h
  split at h
  · rename_i i v hfind
    simp only [Except.ok.injEq] at h
    exact ⟨i, h.symm⟩
  all_goals simp at h

/-- A name is found only where there is a frame. -/
theorem count_pos_of_get (h : s.get slot name = .ok value) : 0 < s.count := by
  unfold get at h
  split at h
  · rename_i i v hfind
    obtain ⟨f, hf, -⟩ := search_found hfind
    obtain ⟨hi, -⟩ := Array.getElem?_eq_some_iff.mp hf
    exact Nat.zero_lt_of_lt hi
  all_goals simp at h

end Scopes

end Offside
