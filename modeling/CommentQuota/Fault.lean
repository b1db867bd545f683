/-
  CommentQuota.Fault — everything that can go wrong, and what is said about it.

  A fault is a cause with the data of its message. `message` is the one place where faults are put
  into words, and `details` is the record that goes with the message.
-/

import CommentQuota.Store.Failure
import CommentQuota.Text.Utf8
import CommentQuota.Value

namespace CommentQuota

inductive Fault where
  /-- A fault described by its message alone. -/
  | general (text : String) (record : List (String × Value))
  /-- There is no document or no cursor. -/
  | noContext (reason : String)
  /-- The cursor row lies in no function. -/
  | outsideFunction (line : Int)
  /-- A function's body has no place for comments. -/
  | malformedBody (name reason : String)
  /-- A setting has a value that cannot be used. -/
  | invalidSetting (field : String) (value : Value) (reason : String)
  /-- The grammar cannot be used. -/
  | parserUnavailable (reason : String)
  /-- An edit does not fit the document. -/
  | misplacedEdit (row column : Int) (reason : String)
  /-- A policy is named that does not exist. -/
  | unknownPolicy (kind given : String) (valid : List String)
  /-- Row counts that no function has. -/
  | inconsistentCounts (comments total : Int)
  /-- A ratio that is no decimal. -/
  | notDecimal (text : String)
  /-- A whole number with too many digits to be read. -/
  | tooManyDigits (limit count : Nat)
  /-- A path without a last component. -/
  | emptyName (path : String)
  /-- A path with a zero character. -/
  | zeroInPath
  /-- Bytes that are no text. -/
  | badEncoding (run : Utf8.Malformed)
  /-- A number past the largest floating point number. -/
  | outOfRange
  /-- There is no syntax tree to look at. -/
  | noTree
  /-- A file operation failed. -/
  | store (failure : StoreFailure)

namespace Utf8

def Cause.wording : Cause → String
  | badStart => "invalid start byte"
  | badContinuation => "invalid continuation byte"
  | unfinished => "unexpected end of data"

def Malformed.message (m : Malformed) : String :=
  let place :=
    if m.length = 1 then
      "byte 0x" ++ String.ofList (Quoted.hex 2 m.byte.toNat) ++ " in position " ++ toString m.offset
    else
      "bytes in position " ++ toString m.offset ++ "-" ++ toString (m.offset + m.length - 1)
  "'utf-8' codec can't decode " ++ place ++ ": " ++ m.cause.wording

end Utf8

namespace Fault

def message : Fault → String
  | general text _ => text
  | noContext reason => "No active context: " ++ reason
  | outsideFunction line => "Cursor line " ++ toString (line + 1) ++ " is not inside a function"
  | malformedBody name reason =>
    "Cannot locate insertion point in function '" ++ name ++ "': " ++ reason
  | invalidSetting field value reason =>
    "Invalid configuration for '" ++ field ++ "' (" ++ value.quoted ++ "): " ++ reason
  | parserUnavailable reason =>
    "C parser unavailable: " ++ reason ++ ". Install tree-sitter and tree-sitter-c."
  | misplacedEdit row column reason =>
    "Cannot apply edit at " ++ toString (row + 1) ++ ":" ++ toString column ++ ": " ++ reason
  | unknownPolicy kind given valid =>
    "Unknown " ++ kind ++ " policy '" ++ given ++ "'. Valid: " ++
      (Value.list (valid.map Value.text)).quoted
  | inconsistentCounts comments total =>
    "Inconsistent line counts: comments=" ++ toString comments ++ ", total=" ++ toString total
  | notDecimal text => "Invalid literal for Fraction: " ++ quoted text
  | tooManyDigits limit count =>
    "Exceeds the limit (" ++ toString limit ++ " digits) for integer string conversion: value has " ++
      toString count ++ " digits; use sys.set_int_max_str_digits() to increase the limit"
  | emptyName path => "PosixPath(" ++ quoted path ++ ") has an empty name"
  | zeroInPath => "embedded null byte"
  | badEncoding run => run.message
  | outOfRange => "number too large"
  | noTree => "no syntax tree"
  | store failure => failure.message

/-- The record that goes with a message. -/
def details : Fault → List (String × Value)
  | general _ record => record
  | noContext reason => [("reason", .text reason)]
  | outsideFunction line => [("line", .int line)]
  | malformedBody name reason => [("function_name", .text name), ("reason", .text reason)]
  | invalidSetting field value reason =>
    [("field", .text field), ("value", value), ("reason", .text reason)]
  | parserUnavailable reason => [("reason", .text reason)]
  | misplacedEdit row column reason =>
    [("row", .int row), ("column", .int column), ("reason", .text reason)]
  | _ => []

end Fault

end CommentQuota
