import Orbis.Numeral
/-!
# Files

Reading files by path from a folder without subfolders, and the texts of what can go wrong.
-/
namespace Orbis

inductive FileError where
  /-- The operating system refuses, with a description and a number. -/
  | system (description : String) (code : Nat)
  | notText
  | zeroByte
  deriving DecidableEq

namespace FileError

def notFound : FileError := system "No such file or directory" 2

def notDirectory : FileError := system "Not a directory" 20

def isDirectory : FileError := system "Is a directory" 21

/-- A name in the path has more bytes than names can have. -/
def nameTooLong : FileError := system "File name too long" 36

def text : FileError → String
  | system description code => description ++ " (os error " ++ Numeral.decimal code ++ ")"
  | notText => "stream did not contain valid UTF-8"
  | zeroByte => "file name contained an unexpected NUL byte"

end FileError

def decodeText (content : ByteArray) : Except FileError String :=
  (String.fromUTF8? content).elim (.error .notText) .ok

/-- A folder that holds files by name. -/
structure Folder where
  files : List (String × ByteArray)

namespace Folder

def file? (f : Folder) (name : String) : Option ByteArray :=
  (f.files.find? (·.1 == name)).map (·.2)

/-- Reads the file at a path relative to the folder. -/
def read (f : Folder) (path : String) : Except FileError ByteArray :=
  let segments := path.splitOn "/"
  let names := segments.filter fun s => s ≠ "" ∧ s ≠ "."
  if path.contains '\x00' then .error .zeroByte
  else if path = "" then .error .notFound
  else if names.all (· == "..") then .error .isDirectory
  else if path.startsWith "/" then .error .notFound
  else match f.file? (names.headD ""), names.tail with
    | some content, [] =>
      if segments.getLast? = names.head? then .ok content else .error .notDirectory
    | some _, _ => .error .notDirectory
    | none, _ =>
      if 255 < (names.headD "").utf8ByteSize then .error .nameTooLong else .error .notFound

end Folder

/-!
## Images

An image is a flat sequence of bytes in memory order. It is refused when it is no whole number of
words, when it does not fit, or when its file cannot be read.
-/

/-- Reasons for which an image is not loaded. -/
inductive ImageError where
  | tooLarge (offset : BitVec 32) (length capacity : Nat)
  | unaligned (length : Nat)
  | unreadable (path : String) (reason : FileError)
  deriving DecidableEq

/-- The message that reports why an image was refused. -/
def ImageError.message : ImageError → String
  | tooLarge offset length capacity =>
    "image of " ++ Numeral.decimal length ++ " bytes at offset " ++ Numeral.hex offset.toNat ++
      " does not fit in " ++ Numeral.decimal capacity ++ " bytes of RAM"
  | unaligned length =>
    "image length " ++ Numeral.decimal length ++ " is not a multiple of 4 bytes"
  | unreadable path reason => "could not read image '" ++ path ++ "': " ++ reason.text

end Orbis
