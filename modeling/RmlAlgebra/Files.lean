import RmlAlgebra.FileSystem
import RmlAlgebra.Text.Split

/-! # A tree of files

Files are kept by their path from the root. A directory exists if a file lies below it or if it leads
to the working directory, where paths start that have no slash in front. One name under the devices
stands for the standard output.
-/

namespace RmlAlgebra

abbrev Path := List String

structure Files where
  /-- The working directory. -/
  directory : Path := []
  entries : List (Path × ByteArray) := []

namespace Files

def get? (files : Files) (path : Path) : Option ByteArray :=
  files.entries.lookup path

def putEntry (path : Path) (content : ByteArray) :
    List (Path × ByteArray) → List (Path × ByteArray)
  | [] => [(path, content)]
  | entry :: others =>
      if entry.1 = path then (path, content) :: others
      else entry :: putEntry path content others

def put (files : Files) (path : Path) (content : ByteArray) : Files :=
  { files with entries := putEntry path content files.entries }

theorem lookup_putEntry_self (path : Path) (content : ByteArray)
    (entries : List (Path × ByteArray)) :
    (putEntry path content entries).lookup path = some content := by
  induction entries with
  | nil => simp [putEntry]
  | cons entry others ih =>
      unfold putEntry
      split
      · simp
      · next differs =>
          have other : (path == entry.1) = false := by simpa using fun h => differs h.symm
          obtain ⟨name, bytes⟩ := entry
          simpa [List.lookup_cons, other] using ih

theorem lookup_putEntry_of_ne {path other : Path} (content : ByteArray)
    (entries : List (Path × ByteArray)) (h : other ≠ path) :
    (putEntry path content entries).lookup other = entries.lookup other := by
  have differs : (other == path) = false := by simpa using h
  induction entries with
  | nil => simp [putEntry, List.lookup_cons, differs]
  | cons entry others ih =>
      obtain ⟨name, bytes⟩ := entry
      unfold putEntry
      split
      · next same =>
          simp only at same
          subst same
          simp [List.lookup_cons, differs]
      · simp only [List.lookup_cons, ih]

def output : Path :=
  ["dev", "stdout"]

def isDirectory (files : Files) (path : Path) : Bool :=
  path.isPrefixOf files.directory || path.isPrefixOf output ||
    files.entries.any fun entry => path.isPrefixOf entry.1 && path.length < entry.1.length

inductive Place where
  | directory (path : Path)
  | file (path : Path)
  | output
  /-- A file, where the path is written as one of a directory. -/
  | fileDirectory
  /-- There is nothing yet, in a directory that exists. -/
  | free (path : Path)
  /-- There is nothing yet, and the path is written as one of a directory. -/
  | freeDirectory
  | broken (error : FileError)
  deriving DecidableEq, Repr

/-- Follow one component of a path. Nothing lies above the root. -/
def follow (files : Files) (place : Place) (name : String) : Place :=
  match place with
  | .directory path =>
      if name = "" ∨ name = "." then .directory path
      else if name = ".." then .directory path.dropLast
      else if path ++ [name] = output then .output
      else if (files.get? (path ++ [name])).isSome then .file (path ++ [name])
      else if files.isDirectory (path ++ [name]) then .directory (path ++ [name])
      else .free (path ++ [name])
  | .file _ | .output | .fileDirectory => if name = "" then .fileDirectory else .broken .notDirectory
  | .free _ | .freeDirectory => if name = "" then .freeDirectory else .broken .missing
  | .broken error => .broken error

/-- Where a path leads. A slash in front means the root. -/
def place (files : Files) (path : String) : Place :=
  match (Text.pieces ['/'] path.toList).map String.ofList with
  | [""] => .broken .missing
  | "" :: names => names.foldl files.follow (.directory [])
  | names => names.foldl files.follow (.directory files.directory)

def locate? (files : Files) (path : String) : Option Path :=
  match files.place path with
  | .file path | .free path => some path
  | _ => none

def readText (files : Files) (path : String) : Except FileError String :=
  match files.place path with
  | .file path =>
      match (files.get? path).bind String.fromUTF8? with
      | some text => .ok text
      | none => .error .notText
  | .output => .error (.system "Permission denied" 13)
  | .directory _ => .error .isDirectory
  | .fileDirectory => .error .notDirectory
  | .free _ | .freeDirectory => .error .missing
  | .broken error => .error error

/-- Write a text to a file, which is made if it does not exist. A path that is written as one of a
directory is never written to. -/
def writeText (files : Files) (path text : String) : Except FileError Files :=
  match files.place path with
  | .file path | .free path => .ok (files.put path text.toUTF8)
  | .output => .ok files
  | .directory _ | .fileDirectory | .freeDirectory => .error .isDirectory
  | .broken error => .error error

theorem writeText_of_output {files : Files} {path : String} (hplace : files.place path = .output)
    (text : String) : files.writeText path text = .ok files := by
  simp only [writeText, hplace]

def add (files : Files) (name : String) (content : ByteArray) : Files :=
  let names := (Text.pieces ['/'] name.toList).map String.ofList
  files.put (files.directory ++ names.filter fun part => part ≠ "" ∧ part ≠ ".") content

abbrev system : FileSystem where
  State := Files
  File := Path
  content? := get?
  locate? := locate?
  isOutput files path := files.place path = .output
  readText := readText
  writeText := writeText
  read_of_ok := by
    intro files path text h
    rw [readText] at h
    split at h
    · next target hplace =>
        split at h
        · next found =>
            cases h
            exact ⟨target, by rw [locate?, hplace], found⟩
        · cases h
    all_goals cases h
  printed_of_ok := by
    intro files next path text hplace h
    rw [writeText_of_output (of_decide_eq_true hplace)] at h
    cases h
    rfl
  written_of_ok := by
    intro files next path text houtput h
    have hput (target : Path) : (files.put target text.toUTF8).get? target = some text.toUTF8 ∧
        ∀ other, other ≠ target →
          (files.put target text.toUTF8).get? other = files.get? other :=
      ⟨lookup_putEntry_self target _ _, fun _ hother => lookup_putEntry_of_ne _ _ hother⟩
    rw [writeText] at h
    split at h
    · next target hplace =>
        cases h
        exact ⟨target, by rw [locate?, hplace], hput target⟩
    · next target hplace =>
        cases h
        exact ⟨target, by rw [locate?, hplace], hput target⟩
    · next hplace => exact absurd hplace (of_decide_eq_false houtput)
    all_goals cases h

end Files

end RmlAlgebra
