/-
  CommentQuota.Json.Writer — writing JSON documents.

  Every item of a list and every field of a record stands on a row of its own, indented by two
  spaces for each level; characters beyond ASCII stand as they are.
-/

import CommentQuota.Value

namespace CommentQuota

namespace Json

/-- One character inside quotes. -/
def escape (c : Char) : List Char :=
  if c = '"' ∨ c = '\\' then ['\\', c]
  else if c = '\n' then ['\\', 'n']
  else if c = '\r' then ['\\', 'r']
  else if c = '\t' then ['\\', 't']
  else if c.toNat = 0x08 then ['\\', 'b']
  else if c.toNat = 0x0C then ['\\', 'f']
  else if c.toNat < 0x20 then '\\' :: 'u' :: Quoted.hex 4 c.toNat
  else [c]

def writeText (s : String) : String := String.ofList ('"' :: s.toList.flatMap escape ++ ['"'])

/-- The start of a row at a level. -/
def newRow (level : Nat) : String := String.ofList ('\n' :: List.replicate (2 * level) ' ')

/-- Lines between brackets, or the bare brackets if there are none. -/
def enclose (level : Nat) (opening closing : String) (lines : List String) : String :=
  if lines.isEmpty then opening ++ closing
  else
    opening ++ newRow (level + 1) ++ ("," ++ newRow (level + 1)).intercalate lines ++ newRow level ++
      closing

mutual

/-- A value that starts on a row of a level. -/
def write (level : Nat) : Value → String
  | .null => "null"
  | .bool b => if b then "true" else "false"
  | .int n => toString n
  | .float x => Layout.exchange.write x
  | .text s => writeText s
  | .list items => enclose level "[" "]" (writeItems (level + 1) items)
  | .record fields => enclose level "\x7b" "\x7d" (writeFields (level + 1) fields)

def writeItems (level : Nat) : List Value → List String
  | [] => []
  | v :: vs => write level v :: writeItems level vs

def writeFields (level : Nat) : List (String × Value) → List String
  | [] => []
  | (k, v) :: fs => (writeText k ++ ": " ++ write level v) :: writeFields level fs

end

end Json

end CommentQuota
