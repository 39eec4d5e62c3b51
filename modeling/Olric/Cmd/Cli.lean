import Olric.Lib.Strings

namespace Olric

open Text

/-- The operations that the command line client calls. -/
inductive CliOp
  | put (dmap key value : Text)
  | putEx (dmap key value : Text) (ttl : Int64)
  | get (dmap key : Text)
  | delete (dmap key : Text)
  | destroy (dmap : Text)
  | incr (dmap key : Text) (delta : Int)
  | decr (dmap key : Text) (delta : Int)
deriving DecidableEq

/-- What a line leads to: the end of the program, a message, or an operation. -/
inductive Reaction
  | exit
  | print (msg : String)
  | call (op : CliOp)
deriving DecidableEq

namespace Cli

/-- The first text between two quotes. -/
def extractKey (str : Text) : Except String Text :=
  match (cut ['"'] str).2 with
  | none => .error "invalid command"
  | some rest =>
    match cut ['"'] rest with
    | (_, none) => .error "invalid command"
    | (key, some _) => .ok key

/-- A key, which may be in quotes. -/
def unquoted (key : Text) : Except String Text := if hasPrefix key ['"'] then extractKey key else .ok key

def quote (key : Text) : Text := '"' :: key ++ ['"']

/-- The key in quotes is kept in a variable of the inner block, so an empty one is returned, with what
stands before the quotes as the value. -/
def parseLine (tmp : Text) : Except String (Text × Text) :=
  let tmp := trimSpace tmp
  if hasPrefix tmp ['"'] then
    match extractKey tmp with
    | .error err => .error err
    | .ok key => .ok ([], trimSpace (cut (quote key) tmp).1)
  else
    match cut [' '] tmp with
    | (_, none) => .error "invalid command"
    | (key, some value) => .ok (key, value)

def invalid (err : String) (line : Text) : Reaction :=
  .print ("[ERROR] " ++ err ++ ": " ++ String.ofList line ++ "\n")

def putWord : Text := ['p', 'u', 't', ' ']
def putExWord : Text := ['p', 'u', 't', 'e', 'x', ' ']
def getWord : Text := ['g', 'e', 't', ' ']
def deleteWord : Text := ['d', 'e', 'l', 'e', 't', 'e', ' ']
def destroyWord : Text := ['d', 'e', 's', 't', 'r', 'o', 'y']
def incrWord : Text := ['i', 'n', 'c', 'r', ' ']
def decrWord : Text := ['d', 'e', 'c', 'r', ' ']
def exitWord : Text := ['e', 'x', 'i', 't']
def useWord : Text := ['u', 's', 'e']

variable (parseDuration : Text → Except String Int64) (dmap line : Text)

def putCommand : Reaction :=
  let tmp := trimSpace (trimLeft line putWord)
  match parseLine tmp with
  | .error err => invalid err line
  | .ok (key, value) => .call (.put dmap key value)

/-- The key and the rest of a `putex` line. -/
def splitPutEx (tmp : Text) : Except String (Text × Text) :=
  if hasPrefix tmp ['"'] then
    match extractKey tmp with
    | .error err => .error err
    | .ok key => .ok (key, (cut (quote key) tmp).1)
  else
    match cut [' '] tmp with
    | (_, none) => .error "invalid command"
    | (key, some tval) => .ok (key, tval)

def putExCommand : Reaction :=
  let tmp := trimSpace (trimLeft line putExWord)
  match splitPutEx tmp with
  | .error err => invalid err line
  | .ok (key, tval) =>
    match cut [' '] (trimSpace tval) with
    | (_, none) => invalid "invalid command" line
    | (tt, some value) =>
      match parseDuration tt with
      | .error err => invalid err line
      | .ok ttl => .call (.putEx dmap key value ttl)

/-- `get` and `delete`. -/
def keyCommand (word : Text) (op : Text → Text → CliOp) : Reaction :=
  match unquoted (trimLeft line word) with
  | .error err => invalid err line
  | .ok key => .call (op dmap key)

/-- `incr` and `decr`. -/
def counterCommand (word : Text) (op : Text → Text → Int → CliOp) : Reaction :=
  match parseLine (trimLeft line word) with
  | .error err => invalid err line
  | .ok (key, value) =>
    match atoi value with
    | none => .print ("[ERROR] invalid delta: " ++ String.ofList value ++ "\n")
    | some delta => .call (op dmap key delta)

def command : Reaction :=
  if hasPrefix line putWord then putCommand dmap line
  else if hasPrefix line putExWord then putExCommand parseDuration dmap line
  else if hasPrefix line getWord then keyCommand dmap line getWord .get
  else if hasPrefix line deleteWord then keyCommand dmap line deleteWord .delete
  else if hasPrefix line destroyWord then .call (.destroy dmap)
  else if hasPrefix line incrWord then counterCommand dmap line incrWord .incr
  else if hasPrefix line decrWord then counterCommand dmap line decrWord .decr
  else .print "[ERROR] Invalid command. Available commands: put, putex, get, delete, destroy and exit.\n"

/-- `use`: the name up to where `use` stands again. A name with one quote only is an error, and leaves
no name. -/
def useCommand : Text × Reaction :=
  let tmp := (cut useWord ((cut useWord line).2.getD [])).1
  let dmap := trim tmp [' ']
  if hasPrefix dmap ['"'] then
    match extractKey dmap with
    | .error err => ([], invalid err line)
    | .ok dmap => (dmap, .print ("use " ++ String.ofList dmap ++ "\n"))
  else (dmap, .print ("use " ++ String.ofList dmap ++ "\n"))

/-- One round of the loop of `Start`, with the name of the dmap that is in use. -/
def start : Text × Reaction :=
  let line := trimSpace line
  if hasPrefix line exitWord then (dmap, .exit)
  else if hasPrefix line (useWord ++ [' ']) then useCommand line
  else if dmap.length = 0 then (dmap, .print "[ERROR] Call 'use' command before accessing database.\n")
  else (dmap, command parseDuration dmap line)

end Cli

end Olric
