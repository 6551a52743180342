import ConsoleScript.Bytes.Basic

/-!
# Storage of files

A build reads one file and writes one. Where files are kept is left open; a
directory that holds plain files only is one such place.
-/

namespace ConsoleScript

/-- Effects that read and write whole files by their paths. -/
class Storage (m : Type → Type) where
  /-- The content of a file, if it can be read. -/
  read? : String → m (Option Bytes)
  /-- Gives a file its content and tells whether that was possible. A write that
  was not possible changes nothing. -/
  write : String → Bytes → m Bool

/-- Plain files by name. -/
structure Directory where
  files : List (String × Bytes)
deriving DecidableEq, Repr

namespace Directory

/-- The content of a file. -/
def find? (d : Directory) (name : String) : Option Bytes :=
  (d.files.find? (·.1 == name)).map (·.2)

/-- Gives a file its content, in place of what it may have held. -/
def insert (d : Directory) (name : String) (content : Bytes) : Directory :=
  ⟨(name, content) :: d.files.filter (·.1 != name)⟩

/-- The file of the directory that a path leads to. There are no subdirectories,
so a path is a name, perhaps behind steps that stay where they are. -/
def fileName? (path : String) : Option String :=
  match (path.splitOn "/").reverse with
  | [] => none
  | name :: steps =>
    if name ∈ ["", ".", ".."] ∨ 255 < name.utf8ByteSize ∨ path.contains '\x00' then none
    else if steps.getLast? = some "" ∨ steps.any (· ∉ ["", "."]) then none
    else some name

theorem find?_insert_self (d : Directory) (name : String) (content : Bytes) :
    (d.insert name content).find? name = some content := by
  simp [find?, insert]

theorem find?_insert_of_ne (d : Directory) {name other : String} (content : Bytes)
    (h : other ≠ name) : (d.insert name content).find? other = d.find? other := by
  have hfilter : (d.files.filter (·.1 != name)).find? (·.1 == other) =
      d.files.find? (·.1 == other) := by
    rw [List.find?_filter]
    congr 1
    funext file
    by_cases hfile : file.1 = other <;> simp_all
  simp [find?, insert, h.symm, hfilter]

end Directory

instance : Storage (StateM Directory) where
  read? path := fun d => ((Directory.fileName? path).bind d.find?, d)
  write path content := fun d =>
    match Directory.fileName? path with
    | none => (false, d)
    | some name => (true, d.insert name content)

end ConsoleScript
