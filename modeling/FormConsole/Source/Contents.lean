/-!
# What a file holds

A file that the console reads may be absent, may be there and not be readable, or holds bytes.
-/

namespace FormConsole

/-- What is found where a file is looked for. -/
inductive Contents where
  | absent
  | unreadable
  | bytes (bytes : ByteArray)

namespace Contents

/-- The contents of a file that holds a text. -/
def ofText (s : String) : Contents :=
  .bytes s.toUTF8

/-- The text of bytes, which have to be UTF-8. -/
def decode? (bytes : ByteArray) : Option String :=
  String.fromUTF8? bytes

end Contents

end FormConsole
