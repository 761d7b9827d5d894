/-!
# Files

What a path may lead to, as far as reading goes.

* `FileNode.text` is the text of a file, or the reason why there is none.
* `Listing.entries` are the entries of a directory, or the reason why there are none.
-/

namespace NestedRecord

/-- What stands at a path. -/
inductive FileNode where
  | absent
  | directory
  /-- a file of UTF-8 text -/
  | readable (content : String)
  /-- a file whose bytes are not UTF-8 -/
  | unreadable

namespace FileNode

/-- A file with the given bytes. -/
def ofBytes (bytes : ByteArray) : FileNode :=
  match String.fromUTF8? bytes with
  | some content => .readable content
  | none => .unreadable

/-- The text of a file. -/
def text : FileNode → Except String String
  | .absent => .error "No such file or directory (os error 2)"
  | .directory => .error "Is a directory (os error 21)"
  | .readable content => .ok content
  | .unreadable => .error "stream did not contain valid UTF-8"

/-- Whether it is a file. -/
def isFile : FileNode → Bool
  | .readable _ | .unreadable => true
  | _ => false

end FileNode

/-- What stands at a path that should be a directory. -/
inductive Listing where
  | absent
  /-- a file, or a way on behind one -/
  | file
  /-- a name on the way or the path is longer than may be -/
  | nameTooLong
  /-- the path holds the character that ends paths -/
  | zeroCharacter
  | directory (entries : List (String × FileNode))

/-- The names in a directory with what stands under them. -/
def Listing.entries : Listing → Except String (List (String × FileNode))
  | .absent => .error "No such file or directory (os error 2)"
  | .file => .error "Not a directory (os error 20)"
  | .nameTooLong => .error "File name too long (os error 36)"
  | .zeroCharacter => .error "file name contained an unexpected NUL byte"
  | .directory entries => .ok entries

end NestedRecord
