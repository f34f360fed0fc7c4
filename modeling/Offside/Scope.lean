import Offside.Halt
import Offside.Value

/-!
# Scopes

The live scopes are frames in an array. A frame holds bindings and the slot of its parent; the
first frame is the root and has none. Frames come and go at the end of the array only, so a slot
is used again by a later frame. A handle is a slot number, and it may outlive its frame.
-/

set_option autoImplicit false

namespace Offside

/-- The bindings of one scope and the slot of the scope around it. -/
structure Frame where
  /-- The declared names with their values. -/
  bindings : List (String × Value)
  /-- The slot of the parent; the root has none. -/
  parent : Option Nat
  deriving Inhabited

namespace Frame

/-- The value of a name in this frame. -/
def get? (f : Frame) (name : String) : Option Value := f.bindings.lookup name

/-- Adds a binding. -/
def insert (f : Frame) (name : String) (value : Value) : Frame :=
  { f with bindings := (name, value) :: f.bindings }

/-- Bindings with a new value for one name. -/
def replaced (name : String) (value : Value) : List (String × Value) → List (String × Value)
  | [] => []
  | (n, v) :: rest => if n = name then (n, value) :: rest else (n, v) :: replaced name value rest

/-- Gives a bound name a new value. -/
def update (f : Frame) (name : String) (value : Value) : Frame :=
  { f with bindings := replaced name value f.bindings }

end Frame

/-- The live frames. -/
structure Scopes where
  /-- The frames by slot. -/
  frames : Array Frame
  deriving Inhabited

namespace Scopes

/-- A root without bindings, and no other frame. -/
def root : Scopes := ⟨#[⟨[], none⟩]⟩

/-- The number of live frames. -/
def count (s : Scopes) : Nat := s.frames.size

/-- Adds a frame under the given slot, which need not be live: the scopes and the new slot. -/
def child (s : Scopes) (slot : Nat) : Scopes × Nat :=
  (⟨s.frames.push ⟨[], some slot⟩⟩, s.frames.size)

/-- Removes a frame, which has to be the topmost one and not the root. -/
def release (s : Scopes) (slot : Nat) : Except Halt Scopes :=
  let top := s.frames.size - 1
  if slot = top ∧ slot ≠ 0 then .ok ⟨s.frames.pop⟩
  else .error (.defect (.releaseOrder slot top))

/-- Whether a frame itself declares a name. -/
def has (s : Scopes) (slot : Nat) (name : String) : Except Halt Bool :=
  match s.frames[slot]? with
  | none => .error (.defect (.noFrame slot s.frames.size))
  | some f => .ok (f.get? name).isSome

/-- Declares a name in a frame that does not declare it yet. -/
def declare (s : Scopes) (slot : Nat) (name : String) (value : Value) : Except Halt Scopes :=
  match s.frames[slot]? with
  | none => .error (.defect (.noFrame slot s.frames.size))
  | some f =>
      if (f.get? name).isSome then .error (.fault (.duplicateDeclaration name))
      else .ok ⟨s.frames.modify slot fun f => f.insert name value⟩

/-- Where the search for a name ends. -/
inductive Search where
  /-- At the frame that declares it. -/
  | found (slot : Nat) (value : Value)
  /-- Above the root. -/
  | nowhere
  /-- At a slot without a frame. -/
  | offEnd (slot : Nat)
  /-- Never: the parents lead round in a circle. -/
  | endless

/-- Searches a name from a slot upwards. More steps than there are frames mean a circle. -/
def search (s : Scopes) (name : String) : (steps : Nat) → (slot : Option Nat) → Search
  | _, none => .nowhere
  | 0, some _ => .endless
  | steps + 1, some slot =>
      match s.frames[slot]? with
      | none => .offEnd slot
      | some f =>
          match f.get? name with
          | some v => .found slot v
          | none => s.search name steps f.parent

/-- Searches a name from the given slot upwards. -/
def find (s : Scopes) (slot : Nat) (name : String) : Search :=
  s.search name (s.frames.size + 1) (some slot)

/-- The value of a name in the nearest frame that declares it. -/
def get (s : Scopes) (slot : Nat) (name : String) : Except Halt Value :=
  match s.find slot name with
  | .found _ v => .ok v
  | .nowhere => .error (.fault (.undeclaredVariable name))
  | .offEnd i => .error (.defect (.noFrame i s.frames.size))
  | .endless => .error .outOfFuel

/-- Gives a name a new value in the nearest frame that declares it. -/
def set (s : Scopes) (slot : Nat) (name : String) (value : Value) : Except Halt Scopes :=
  match s.find slot name with
  | .found i _ => .ok ⟨s.frames.modify i fun f => f.update name value⟩
  | .nowhere => .error (.fault (.undeclaredVariable name))
  | .offEnd i => .error (.defect (.noFrame i s.frames.size))
  | .endless => .error .outOfFuel

/-- A root that declares the given builtins, which take the identities from zero on. -/
def withBuiltins (names : List String) : Except Halt Scopes :=
  names.zipIdx.foldlM (fun s (name, id) => s.declare 0 name (.builtin id name)) root

end Scopes

end Offside
