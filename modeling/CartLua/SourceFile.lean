import CartLua.Source

/-!
# Source files

A source file holds UTF-8.  Line ends of one or two characters are read as line
feeds; a byte order mark is kept as a character.
-/

namespace CartLua.SourceFile

/-- A text with a line feed for every carriage return, and for every carriage
return that a line feed follows. -/
def unifyLineEnds : List Char → List Char
  | [] => []
  | '\r' :: '\n' :: rest => '\n' :: unifyLineEnds rest
  | '\r' :: rest => '\n' :: unifyLineEnds rest
  | c :: rest => c :: unifyLineEnds rest

/-- The source that the bytes of a file hold, unless they are not UTF-8. -/
def read? (bytes : ByteArray) (filename : String) : Option Source :=
  (String.fromUTF8? bytes).map fun text => .ofChars (unifyLineEnds text.toList) filename

theorem not_mem_unifyLineEnds (cs : List Char) : '\r' ∉ unifyLineEnds cs := by
  fun_induction unifyLineEnds cs with
  | case1 => simp
  | case2 rest ih => simp [ih]
  | case3 rest _ ih => simp [ih]
  | case4 c rest _ hne ih =>
      intro hmem
      rcases List.mem_cons.mp hmem with heq | hrest
      · exact hne heq.symm
      · exact ih hrest

end CartLua.SourceFile
