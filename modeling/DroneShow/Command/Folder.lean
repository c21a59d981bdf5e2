-- Files as the commands see them, and a folder of them held in memory. A path
-- that a command is given is followed step by step from there, and the first
-- step that fails decides the fault.
import DroneShow.Record.Word

namespace DroneShow

/-- How the file at a path is read, and how one is written there. -/
structure Files (m : Type → Type) where
  read : String → m (Except FileFault Bytes)
  write : String → Bytes → m (Except FileFault Unit)

/-! ## Routes -/

/-- A path as it is followed. -/
structure Route where
  /-- Whether it sets out from the root and not from the folder at hand. -/
  fromRoot : Bool
  /-- The names between the slashes. -/
  steps : List String
  /-- Whether a slash behind the last step asks for a folder. -/
  asFolder : Bool
deriving DecidableEq

namespace Route

/-- The least number of bytes that is too much for a path. -/
def pathLimit : Nat := 4096

/-- The greatest number of bytes of one name. -/
def nameLimit : Nat := 255

def isTooLong (name : String) : Bool := nameLimit < name.utf8ByteSize

/-- The route of a path. The empty path leads nowhere. -/
def ofPath (path : String) : Except FileFault Route :=
  if path.isEmpty then .error .notFound
  else if pathLimit ≤ path.utf8ByteSize then .error .nameTooLong
  else
    .ok
      { fromRoot := path.toList.head? == some '/'
        steps := (path.splitOn "/").filter fun step => !step.isEmpty
        asFolder := path.toList.getLast? == some '/' }

end Route

/-- A folder on a route: the one at hand, or any other. Nothing is known to lie
in the others. -/
inductive Place where
  | here | elsewhere
deriving DecidableEq, Repr

/-- What a route leads to: a folder, or a name in one. -/
inductive Goal where
  | folder
  | entry (place : Place) (name : String)
deriving DecidableEq, Repr

/-! ## The folder -/

/-- A folder without subfolders: names with contents, in the order of first writing. -/
structure Folder where
  entries : List (String × Bytes)

namespace Folder

def find? (f : Folder) (name : String) : Option Bytes :=
  (f.entries.find? fun e => e.1 == name).map (·.2)

/-- Replaces the contents under a name, or adds it. -/
def put (f : Folder) (name : String) (contents : Bytes) : Folder :=
  if (f.find? name).isSome then
    ⟨f.entries.map fun e => if e.1 == name then (name, contents) else e⟩
  else ⟨f.entries ++ [(name, contents)]⟩

/-- A step that is not the last one has to lead to a folder. -/
def pass (f : Folder) (place : Place) (step : String) : Except FileFault Place :=
  if step == "." then .ok place
  else if step == ".." then .ok .elsewhere
  else if Route.isTooLong step then .error .nameTooLong
  else if place = .here ∧ (f.find? step).isSome then .error .notADirectory
  else .error .notFound

/-- Follows the steps from a folder on. -/
def follow (f : Folder) : Place → List String → Except FileFault Goal
  | _, [] => .ok .folder
  | place, [last] => .ok (if last == "." || last == ".." then .folder else .entry place last)
  | place, step :: rest =>
    match f.pass place step with
    | .error e => .error e
    | .ok next => follow f next rest

/-- What a route leads to. -/
def goal (f : Folder) (route : Route) : Except FileFault Goal :=
  f.follow (if route.fromRoot then .elsewhere else .here) route.steps

/-- The contents at the end of a path. A file cannot be read as a folder. -/
def read (f : Folder) (path : String) : Except FileFault Bytes := do
  let route ← Route.ofPath path
  match ← f.goal route with
  | .folder => .error .isADirectory
  | .entry place name =>
    if Route.isTooLong name then .error .nameTooLong
    else
      match place, f.find? name with
      | .here, some contents => if route.asFolder then .error .notADirectory else .ok contents
      | _, _ => .error .notFound

/-- The folder after contents were written to the end of a path. What is
written elsewhere leaves it as it is. -/
def write (f : Folder) (path : String) (contents : Bytes) : Except FileFault Folder := do
  let route ← Route.ofPath path
  match ← f.goal route with
  | .folder => .error .isADirectory
  | .entry place name =>
    if route.asFolder then .error .isADirectory
    else if Route.isTooLong name then .error .nameTooLong
    else .ok (if place = .here then f.put name contents else f)

/-- Reading and writing in a folder that is carried along. -/
def files : Files (StateM Folder) where
  read path := do
    let f ← get
    pure (f.read path)
  write path contents := do
    let f ← get
    match f.write path contents with
    | .error e => pure (.error e)
    | .ok f =>
      set f
      pure (.ok ())

end Folder

end DroneShow
