import CampaignControl.CommandLine

/-!
# A directory

The command line on a tree of files that is a value: the contents of files by their places, and the
text that has been printed. The program runs in the root of the tree, so that a path means the same
whether it starts at the root or not, and a step back from the root leads to the root. Files are
made only where there is a directory for them.
-/

namespace CampaignControl
namespace CommandLine

structure Directory where
  /-- The contents of each file, by its place: the directories that it is in, and its name. -/
  files : List (List String × ByteArray)
  /-- The places of directories, apart from those that files and other directories are in. -/
  folders : List (List String) := []
  /-- What has been printed. -/
  printed : String := ""

namespace Directory

/-- Whether there is a directory in this place. -/
def hasDirectory (d : Directory) (place : List String) : Bool :=
  place.isEmpty || d.folders.any (fun folder => folder.take place.length == place) ||
    d.files.any fun (file, _) => place.length < file.length && file.take place.length == place

/-- The parts of a path, unless it cannot name a file. -/
def parts? (path : String) : Option (List String) :=
  let parts := (path.toList.splitOn '/').map String.ofList
  if ["", ".", ".."].contains (parts.getLast?.getD "") then none
  else some (parts.filter fun part => part != "" && part != ".")

/-- The place that parts lead to from another place. A step back is taken only out of a directory
that there is. -/
def follow? (d : Directory) : List String → List String → Option (List String)
  | place, [] => some place
  | place, part :: parts =>
    if part = ".." then if d.hasDirectory place then d.follow? place.dropLast parts else none
    else d.follow? (place ++ [part]) parts

/-- The place of the file of this path. -/
def locate? (path : String) (d : Directory) : Option (List String) := do
  d.follow? [] (← parts? path)

/-- The text of a file that holds one. -/
def readFile (path : String) (d : Directory) : Option String := do
  String.fromUTF8? (← Keyed.find? (← d.locate? path) d.files)

/-- Sets the text of a file, where there is a directory for it. -/
def writeFile (path text : String) (d : Directory) : Bool × Directory :=
  match d.locate? path with
  | none => (false, d)
  | some file =>
    if d.hasDirectory file.dropLast && !d.hasDirectory file then
      if Keyed.contains file d.files then
        (true, { d with files := Keyed.adjust file (fun _ => text.toUTF8) d.files })
      else (true, { d with files := d.files ++ [(file, text.toUTF8)] })
    else (false, d)

/-- The directory as the surroundings of the program. -/
def host : Host (StateM Directory) where
  readFile path d := (d.readFile path, d)
  writeFile := writeFile
  print text d := ((), { d with printed := d.printed ++ text })

end Directory
end CommandLine
end CampaignControl
