/-!
# Files and their names

A command is given a way to look up files, so that it is a function of its
arguments and of what the files hold. This module says how the contents of a
file are understood and how the parts of a path are told apart.
-/

namespace MatrixLang

/-- What is found where a path points. -/
inductive FileContent where
  | missing
  | notText
  | forbidden
  /-- Any other failure, in the words of the system. -/
  | unreadable (reason : String)
  | text (source : String)
deriving Repr, DecidableEq

def FileContent.ofBytes (bytes : ByteArray) : FileContent :=
  match String.fromUTF8? bytes with
  | some s => .text s
  | none => .notText

namespace Path

def cutAt (c : Char) : List Char → List (List Char)
  | [] => [[]]
  | d :: ds =>
      if d = c then [] :: cutAt c ds
      else
        match cutAt c ds with
        | [] => [[d]]
        | part :: parts => (d :: part) :: parts

/-- The parts of a path between slashes. Empty parts and single points lead
nowhere. -/
def parts (path : String) : List (List Char) :=
  (cutAt '/' path.toList).filter fun part => part ≠ [] ∧ part ≠ ['.']

/-- The last part of a path, unless it leads upwards. -/
def fileName? (path : String) : Option (List Char) :=
  match (parts path).getLast? with
  | some part => if part = ['.', '.'] then none else some part
  | none => none

/-- What follows the last point of a file name. A name has none when its only
point comes first. -/
def extension? (path : String) : Option (List Char) :=
  match fileName? path with
  | none => none
  | some name =>
      let tail := (name.reverse.takeWhile (· ≠ '.')).reverse
      if name.length ≤ tail.length + 1 then none else some tail

/-- Whether a path names a program: its extension is `m`, in either case. -/
def isProgram (path : String) : Bool :=
  match extension? path with
  | some [c] => c.toLower = 'm'
  | _ => false

end Path

/-- Files of one directory, by name. -/
structure Directory where
  files : List (String × ByteArray)

/-- What a path leads to from the directory. A path that begins with a slash
leads away from it. -/
def Directory.read (d : Directory) (path : String) : FileContent :=
  if path.startsWith "/" then .missing
  else
    match d.files.find? fun f => Path.parts f.1 = Path.parts path with
    | some f => .ofBytes f.2
    | none => .missing

end MatrixLang
