/-
  Comma-separated text as records.

  A record is a line of fields separated by commas; a line ends with a line feed, a carriage return,
  or both.  A field is bare, or it stands between quotation marks, and then it may hold commas, line
  breaks (read as line feeds) and quotation marks written twice.  Lines without any character are
  skipped.  Three things are refused: a text that ends inside quotation marks, anything between a
  closing quotation mark and the next comma or line end, and a quotation mark inside a bare field.

  The reader is one pass over the characters (`Csv.scan`), whose state `Progress` says where in a
  field it stands, what it has gathered of the record, and on which lines.  `Csv.records` is what it
  makes of a text, `Csv.table` reads the first record as a header.
-/
import Stencil.Error
import Stencil.Files
import Stencil.Table

set_option autoImplicit false

namespace Stencil.Csv

/-- A record and the lines of its first and last characters. -/
structure Record where
  /-- The values of the fields. -/
  fields : List String
  /-- The line of the first character. -/
  startLine : Nat
  /-- The line of the last character. -/
  endLine : Nat
  deriving DecidableEq, Repr

/-- Where in a field the reader stands. -/
inductive Place where
  /-- Before the field's first character. -/
  | start
  /-- In a bare field. -/
  | bare
  /-- Between quotation marks. -/
  | quoted
  /-- After a quotation mark between quotation marks: the end, or the first of two. -/
  | closed
  deriving DecidableEq, Repr

/-- What has been read of a record. -/
structure Progress where
  /-- Where in the current field the reader stands. -/
  place : Place
  /-- The fields before the current one, last first. -/
  fields : List String
  /-- The characters of the current field, last first. -/
  field : List Char
  /-- Whether the record has any character. -/
  touched : Bool
  /-- The line of the record's first character. -/
  startLine : Nat
  /-- The current line. -/
  line : Nat
  /-- The text from the record's first character on. -/
  text : List Char
  /-- How many characters of it have been read. -/
  taken : Nat

namespace Progress

/-- The beginning of a record. -/
def begin (line : Nat) (text : List Char) : Progress := ⟨.start, [], [], false, line, line, text, 0⟩

/-- The current field's value. -/
def value (p : Progress) : String := String.ofList p.field.reverse

/-- The record, with the current field as its last. -/
def record (p : Progress) : Record := ⟨(p.value :: p.fields).reverse, p.startLine, p.line⟩

/-- The records with this one, unless it has no character. -/
def close (p : Progress) (done : List Record) : List Record :=
  if p.touched then p.record :: done else done

/-- The text of the record up to the end of the line that the character at `place` stands on. -/
def excerpt (p : Progress) (place : Nat) : String :=
  String.ofList (p.text.take place ++ (p.text.drop place).takeWhile (· ≠ '\n'))

/-- The refusal of a text because of the character at `place` of the record. -/
def refuse (p : Progress) (done : List Record) (place : Nat) (what : String) : Error :=
  .of (.badRecord what (done.length + 1) p.line (p.excerpt place))

/-- Takes a character into the current field. -/
def take (p : Progress) (place : Place) (c : Char) : Progress :=
  { p with place, field := c :: p.field, touched := true, taken := p.taken + 1 }

/-- Moves on over a character that belongs to no field. -/
def move (p : Progress) (place : Place) : Progress :=
  { p with place, touched := true, taken := p.taken + 1 }

/-- Ends the current field at a comma. -/
def comma (p : Progress) : Progress :=
  { p with
    place := .start
    fields := p.value :: p.fields
    field := []
    touched := true
    taken := p.taken + 1 }

/-- Takes a line break of `width` characters into a quoted field. -/
def newline (p : Progress) (width : Nat) : Progress :=
  { p with field := '\n' :: p.field, line := p.line + 1, taken := p.taken + width }

end Progress

/-- Reads the records of a text.  `done` are the records before the current one, last first. -/
def scan (done : List Record) (p : Progress) : List Char → Except Error (List Record)
  | [] =>
    if p.place = .quoted then .error (p.refuse done 0 "unterminated quoted field")
    else .ok (p.close done).reverse
  | '\r' :: '\n' :: cs =>
    if p.place = .quoted then scan done (p.newline 2) cs
    else scan (p.close done) (.begin (p.line + 1) cs) cs
  | c :: cs =>
    if c = '\n' ∨ c = '\r' then
      if p.place = .quoted then scan done (p.newline 1) cs
      else scan (p.close done) (.begin (p.line + 1) cs) cs
    else
      match p.place with
      | .quoted => if c = '"' then scan done (p.move .closed) cs else scan done (p.take .quoted c) cs
      | .closed =>
        if c = '"' then scan done (p.take .quoted c) cs
        else if c = ',' then scan done p.comma cs
        else .error (p.refuse done p.taken "unexpected character after closing quote")
      | .bare =>
        if c = '"' then .error (p.refuse done p.taken "quote inside an unquoted field")
        else if c = ',' then scan done p.comma cs
        else scan done (p.take .bare c) cs
      | .start =>
        if c = '"' then scan done (p.move .quoted) cs
        else if c = ',' then scan done p.comma cs
        else scan done (p.take .bare c) cs

/-- The records of a text. -/
def records (text : String) : Except Error (List Record) :=
  scan [] (.begin 1 text.toList) text.toList

/-- The table of records whose first one is the header; each row stands on its last line. -/
def tableOf : List Record → Table
  | [] => .ofHeader []
  | header :: rows =>
    { Table.ofHeader header.fields with rows := rows.map fun r => ⟨r.fields, r.endLine⟩ }

/-- The table a text holds. -/
def table (text : String) : Except Error Table := (records text).map tableOf

/-- The table a file holds. -/
def load (read : FileReader) (path : String) : Except Error Table :=
  match read path with
  | .error fault => .error (.of (.unreadable path fault))
  | .ok bytes => table (Text.decodeText bytes)

end Stencil.Csv
