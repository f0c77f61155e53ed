import SchemaEvolution.Document.Reading

/-!
# Files

Commands read and write files through an access that they are given. A path is written as names with
slashes between them. A *folder* gives access to texts that are held in memory under paths, and
finds or refuses a path by the rules of a file system: every part but the last has to be a folder, a
single dot leads nowhere and two dots lead up.

## Main definitions

* `FilePath.parts`: what stands between the slashes of a path
* `FilePath.fileName?`, `FilePath.ending?`: the name of the file that a path leads to, and its end
* `DocumentFormat.ofPath`: the notation of a file, by the ending of its name
* `FileFault`: why a file cannot be read or written
* `FileAccess`: how files are read and written
* `Folder`, `Folder.find`: texts under paths, and what a path leads to there
* `Folder.read?`, `Folder.write?`: reading and writing a file
* `Folder.access`: access to a folder that changes as files are written
-/

namespace SchemaEvolution

/-! ## Paths -/

namespace FilePath

/-- What stands between the slashes of a path; two slashes in a row have nothing between
them. -/
def parts (path : String) : List String := path.splitOn "/"

/-- Whether a part of a path leads nowhere: nothing, or the dot for the same folder. -/
def staysHere (part : String) : Bool := part == "" || part == "."

/-- **The name of the file that a path leads to**; none if it leads to a folder above or to
where it begins. -/
def fileName? (path : String) : Option String :=
  match (parts path).reverse.dropWhile staysHere with
  | [] => none
  | name :: _ => if name == ".." then none else some name

/-- What stands behind the last dot of a text; none if no dot has a character before it. -/
def afterLastDot? (name : String) : Option String :=
  let reversed := name.toList.reverse
  match reversed.dropWhile (· != '.') with
  | _ :: _ :: _ => some (String.ofList (reversed.takeWhile (· != '.')).reverse)
  | _ => none

/-- **The ending of the name of the file** that a path leads to. -/
def ending? (path : String) : Option String := (fileName? path).bind afterLastDot?

end FilePath

/-- **The notation of a file**: TOML if the ending of its name says so, in letters of either case,
and JSON otherwise. -/
def DocumentFormat.ofPath (path : String) : DocumentFormat :=
  match FilePath.ending? path with
  | some ending => if ending.toLower == "toml" then .toml else .json
  | none => .json

/-! ## Access -/

/-- **Why a file cannot be read or written**: what the system says, and its number for it. -/
structure FileFault where
  detail : String
  code : Nat
  deriving DecidableEq, Repr

namespace FileFault

/-- What messages say of a fault. -/
def text (fault : FileFault) : String := s!"{fault.detail} (os error {fault.code})"

/-- There is no file or folder of this name. -/
def notFound : FileFault := ⟨"No such file or directory", 2⟩

/-- A file stands where a folder should be. -/
def notFolder : FileFault := ⟨"Not a directory", 20⟩

/-- A folder stands where a file should be. -/
def isFolder : FileFault := ⟨"Is a directory", 21⟩

/-- A name has more than 255 bytes. -/
def nameTooLong : FileFault := ⟨"File name too long", 36⟩

/-- The fault of a number, in the words that the system has for it. Some calls give numbers
below zero as words of 32 bits, and words without a capital. -/
def ofSystem (code : UInt32) (detail : String) : FileFault :=
  let code := if code < 0x80000000 then code.toNat else (0 - code).toNat
  match [notFound, notFolder, isFolder, nameTooLong].find? fun fault => fault.code == code with
  | some fault => fault
  | none => ⟨detail.capitalize, code⟩

end FileFault

/-- **How files are read and written.** -/
structure FileAccess (m : Type → Type) where
  read : (path : String) → m (Except FileFault String)
  write : (path text : String) → m (Except FileFault Unit)

/-! ## Folders -/

/-- **Texts under paths**, each path as the names on it. There is a folder wherever a path
leads through; those above the first one, and the outermost, are there too. -/
structure Folder where
  files : List (List String × String)
  deriving Repr

namespace Folder

/-- What a path leads to. -/
inductive Place where
  | folder (names : List String)
  | file (names : List String) (text : String)
  /-- Nothing yet, within a folder. -/
  | free (names : List String)
  deriving Repr

/-- A folder with texts under paths. -/
def ofList (files : List (String × String)) : Folder where
  files := files.map fun (path, text) =>
    ((FilePath.parts path).filter fun part => !FilePath.staysHere part, text)

/-- Whether names lead to the outermost folder, which has nothing above it. -/
def isOutermost (names : List String) : Bool := names == ["/"]

/-- Whether names lead only upwards. -/
def isAbove (names : List String) : Bool := names.all (· == "..")

/-- What names lead to. -/
def placeOf (folder : Folder) (names : List String) : Place :=
  match folder.files.lookup names with
  | some text => .file names text
  | none => if folder.files.any (names.isPrefixOf ·.1) then .folder names else .free names

/-- The names of the folder above. -/
def above (names : List String) : List String :=
  if isOutermost names then names
  else if isAbove names then names ++ [".."]
  else names.dropLast

/-- What one more name leads to, from a place. -/
def enter (folder : Folder) (place : Place) (name : String) : Except FileFault Place :=
  match place with
  | .file .. => .error .notFolder
  | .free _ => .error .notFound
  | .folder names =>
    if FilePath.staysHere name then .ok (.folder names)
    else if 255 < name.utf8ByteSize then .error .nameTooLong
    else if name == ".." then .ok (.folder (above names))
    else .ok (folder.placeOf (names ++ [name]))

/-- **What a path leads to.** A path with a slash in front begins in the outermost folder. -/
def find (folder : Folder) (path : String) : Except FileFault Place :=
  (FilePath.parts path).foldlM folder.enter (.folder (if path.startsWith "/" then ["/"] else []))

/-- **The text of a file.** -/
def read? (folder : Folder) (path : String) : Except FileFault String :=
  match folder.find path with
  | .error fault => .error fault
  | .ok (.file _ text) => .ok text
  | .ok (.folder _) => .error .isFolder
  | .ok (.free _) => .error .notFound

/-- **The folder with a text written to a file**, which is new or gets a new text. A path that
ends with a slash names no file. -/
def write? (folder : Folder) (path text : String) : Except FileFault Folder :=
  if path.endsWith "/" then
    match folder.find (path.dropEndWhile (· == '/')).toString with
    | .error fault => .error fault
    | .ok _ => .error .isFolder
  else
    match folder.find path with
    | .error fault => .error fault
    | .ok (.folder _) => .error .isFolder
    | .ok (.file names _) | .ok (.free names) =>
      .ok ⟨(names, text) :: folder.files.filter (·.1 ≠ names)⟩

/-- **Access to a folder** that changes as files are written. -/
def access : FileAccess (StateM Folder) where
  read path := do return (← get).read? path
  write path text := do
    match (← get).write? path text with
    | .error fault => return .error fault
    | .ok folder => do
      set folder
      return .ok ()

end Folder

end SchemaEvolution
