import Cs241.Foundation.ByteMemory
import Cs241.Foundation.Streams
import Mathlib.Data.List.AList

/-!
# The file server of `nonstop_networking`

The server of `server.c` handles one connection after the other; what it reads
and writes on it passes in pieces, and calls may be interrupted. Sockets do not
fail. A function answers `none` where the source repeats a failing call on a file
descriptor forever. The texts of `format.h` are not in the repository and are
parameters, as is what the rest of the file system decides.
-/
namespace Cs241.Net

open Foundation

/-- A C string, without its terminator. -/
abbrev Name := List UInt8

instance : LawfulBEq Name := inferInstance

inductive Verb
  | get
  | put
  | delete
  | list
deriving DecidableEq

/-- What the server runs with. -/
structure Env where
  /-- The bytes in memory from `err_bad_request` on. -/
  errBadRequest : ℕ → UInt8
  errBadFileSize : List UInt8
  errNoSuchFile : List UInt8
  /-- The byte in memory after the buffer of `get_file_name`. -/
  pastName : UInt8
  /-- The file to which a name with a slash leads, if any. -/
  outside : Name → Option Name
  /-- `st_size` for a directory, or when `stat` fails. -/
  statSize : Name → ℕ

/-! ## The directory of the server -/

structure Disk where
  present : Bool
  files : AList fun _ : Name => List UInt8

/-- The vector `files` and the directory. -/
structure Server where
  files : List Name
  disk : Disk

/-- The file that a name in the directory stands for, if it can be a regular file. -/
def Env.node (env : Env) (name : Name) : Option Name :=
  if 47 ∈ name then env.outside name
  else if name = [] ∨ name = [46] ∨ name = [46, 46] then none
  else some name

namespace Disk

variable (env : Env) (disk : Disk) (name : Name)

/-- `open` with `O_CREAT | O_TRUNC`. -/
def create : Option (Name × Disk) :=
  if disk.present then
    (env.node name).map fun node => (node, { disk with files := disk.files.insert node [] })
  else none

/-- The contents of an existing regular file. -/
def contents : Option (List UInt8) :=
  if disk.present then (env.node name).bind disk.files.lookup else none

/-- What was written to a file that was created. -/
def save (opened : Option (Name × Disk)) (written : Option (List UInt8)) : Disk :=
  match opened, written with
  | some (node, _), some bytes => { disk with files := disk.files.insert node bytes }
  | _, _ => disk

/-- `remove`: for the empty name this is the directory itself, if it has no files. -/
def remove : Disk :=
  if disk.present then
    match env.node name with
    | some node => { disk with files := disk.files.erase node }
    | none =>
      if name = [] ∧ ∀ file ∈ disk.files.keys, 47 ∈ file then { disk with present := false }
      else disk
  else disk

end Disk

/-! ## Reading and writing -/

variable (env : Env) (s : Server) (fileName : Name) (input : Source UInt8) (output : Sink UInt8)

/-- The loop of both programs: its return value, zero when the other side has sent too little, and
what was placed in the buffer. -/
abbrev readAllFromSocket (count : ℕ) : ℕ × List UInt8 × Source UInt8 := input.readAll count

/-- The loop of both programs, with its return value. -/
abbrev writeAllToSocket (bytes : List UInt8) : ℕ × Sink UInt8 := output.writeAll bytes

/-- A write whose return value is not looked at. -/
def send (bytes : List UInt8) : Sink UInt8 := (writeAllToSocket output bytes).2

/-- `"OK\n"` -/
def ok : List UInt8 := [79, 75, 10]

/-- `"ERROR\n"` -/
def error : List UInt8 := [69, 82, 82, 79, 82, 10]

/-- The string in a buffer. -/
def cstring (buf : List UInt8) : List UInt8 := buf.takeWhile (· ≠ 0)

/-- `get_message_size` of both programs. -/
def getMessageSize : ℕ × Source UInt8 :=
  let (retval, placed, input) := readAllFromSocket input 8
  if retval = 0 then (0, input) else (ofWordBytes placed, input)

/-! ## The header of a request -/

def getCmd : Option Verb × Source UInt8 :=
  let (_, buf, input) := readAllFromSocket input 3
  if buf = [80, 85, 84] then (some .put, (readAllFromSocket input 1).2.2)
  else if buf = [71, 69, 84] then (some .get, (readAllFromSocket input 1).2.2)
  else if buf = [68, 69, 76] then (some .delete, (readAllFromSocket input 4).2.2)
  else if buf = [76, 73, 83] then (some .list, input)
  else (none, input)

/-- The loop of `get_file_name` with `left` bytes of the buffer to go. The comparison with `"\n"`
also looks at the next byte, which is zero except behind the buffer. -/
def fileNameLoop : ℕ → List UInt8 → Source UInt8 → Option Name × Source UInt8
  | 0, _, input => (none, input)
  | left + 1, buf, input =>
    let (_, placed, input) := readAllFromSocket input 1
    if placed = [10] ∧ (left = 0 → env.pastName = 0) then (some (cstring buf), input)
    else fileNameLoop left (buf ++ [placed.headD 0]) input

def getFileName : Option Name × Source UInt8 := fileNameLoop env 256 [] input

structure Header where
  cmd : Verb
  fileName : Name
  fileSize : ℕ
deriving DecidableEq

def processHeader : Option Header × Source UInt8 :=
  match getCmd input with
  | (none, input) => (none, input)
  | (some cmd, input) =>
    match getFileName env input with
    | (none, input) => (none, input)
    | (some fileName, input) =>
      if cmd = .put then
        let (fileSize, input) := getMessageSize input
        (some ⟨cmd, fileName, fileSize⟩, input)
      else (some ⟨cmd, fileName, 0⟩, input)

/-! ## Requests -/

/-- The loop of `list`; `i` names follow the first one. -/
def listLoop : ℕ → List Name → Sink UInt8 → Sink UInt8
  | _, [], output => output
  | i, name :: names, output =>
    let output := send output name
    listLoop (i - 1) names (if 0 < i then send output [10] else output)

def list : Sink UInt8 :=
  let listSize := (s.files.map fun name => name.length + 1).sum - 1
  listLoop (s.files.length - 1) s.files (send (send output ok) (wordBytes listSize))

def delete : Server × Sink UInt8 :=
  let i := s.files.idxOf fileName
  if i < s.files.length then
    (⟨s.files.eraseIdx i, s.disk.remove env fileName⟩, send output ok)
  else (s, send (send output error) env.errNoSuchFile)

theorem length_readAll_le (count : ℕ) : (input.readAll count).2.1.length ≤ count := by
  rw [Source.readAll_placed]
  exact List.length_take_le ..

/-- The loop of `get` with `left` bytes of the file to go; the buffer is cleared each time. -/
def getLoop (left : ℕ) (file : Source UInt8) (output : Sink UInt8) : Sink UInt8 :=
  if _ : 0 < left then
    let n := min 1024 left
    let read := file.readAll n
    let written := writeAllToSocket output (read.2.1 ++ List.replicate (n - read.2.1.length) 0)
    getLoop (left - written.1) read.2.2 written.2
  else output
termination_by left
decreasing_by
  have hlen := length_readAll_le file (min 1024 left)
  simp only [Sink.writeAll_fst, List.length_append, List.length_replicate]
  omega

def get : Option (Sink UInt8) :=
  if fileName ∈ s.files then
    match s.disk.contents env fileName with
    | some bytes =>
      some (getLoop bytes.length ⟨bytes, []⟩ (send (send output ok) (wordBytes bytes.length)))
    | none =>
      -- Reading is tried, forever, only if the file seems to have something in it.
      let fileSize := env.statSize fileName
      if fileSize = 0 then some (send (send output ok) (wordBytes fileSize)) else none
  else some output

/-- The loop of `put` with `left` bytes to go; `written` is what was written to the file, if it
could be opened. The result tells whether all bytes have come. -/
def putLoop (left : ℕ) (written : Option (List UInt8)) (input : Source UInt8) :
    Option (Bool × Option (List UInt8) × Source UInt8) :=
  if _ : 0 < left then
    let (retval, placed, input) := readAllFromSocket input (min 1024 left)
    if _ : retval = 0 then some (false, written, input)
    else
      match written with
      | some bytes => putLoop (left - retval) (some (bytes ++ placed)) input
      | none => none
  else some (true, written, input)
termination_by left

def put (h : Header) : Option (Server × Sink UInt8) :=
  let opened := s.disk.create env h.fileName
  let disk := (opened.map Prod.snd).getD s.disk
  let refused : Server × Sink UInt8 :=
    (⟨s.files, disk.remove env h.fileName⟩, send (send output error) env.errBadFileSize)
  match putLoop h.fileSize (opened.map fun _ => []) input with
  | none => none
  | some (false, _, _) => some refused
  | some (true, written, input) =>
    let (actual, _, _) := readAllFromSocket input 1
    if actual ≠ 0 then some refused
    else some (⟨s.files ++ [h.fileName], disk.save opened written⟩, output)

/-- One round of `run_server`. -/
def serve : Option (Server × Sink UInt8) :=
  match processHeader env input with
  | (none, _) =>
    some (s, send output ((List.range env.errNoSuchFile.length).map env.errBadRequest))
  | (some h, input) =>
    match h.cmd with
    | .list => some (s, list s output)
    | .delete => some (delete env s h.fileName output)
    | .get => (get env s h.fileName output).map fun output => (s, output)
    | .put => put env s input output h

/-! ## The client -/

def message (command : Verb) (remote : Name) : List UInt8 :=
  match command with
  | .get => [71, 69, 84, 32] ++ remote ++ [10]
  | .put => [80, 85, 84, 32] ++ remote ++ [10]
  | .delete => [68, 69, 76, 69, 84, 69, 32] ++ remote ++ [10]
  | .list => [76, 73, 83, 84, 10]

/-- What the client prints in the end. -/
inductive Report
  | success
  | errorMessage (text : List UInt8)
  | invalidResponse

def checkError (buf : List UInt8) : Report :=
  let (_, placed, input) := readAllFromSocket input 3
  if buf ++ placed = error then
    -- behind a short text there is what it leaves of the word
    let text := (readAllFromSocket input 1024).2.1
    .errorMessage (cstring (text ++ error.drop text.length))
  else .invalidResponse

/-- The answer that `delete` and `put` of the client read. -/
def report : Report :=
  let (_, buf, input) := readAllFromSocket input 3
  if buf = ok then .success else checkError input buf

/-- What `get` of the client does in the end; whether too little data was received is printed. -/
inductive Download
  | saved (contents : List UInt8) (tooLittle : Bool)
  | tooMuch (tooLittle : Bool)
  | refused (report : Report)

namespace Client

/-- What `delete`, `list` and `get` send. -/
def request (command : Verb) (remote : Name) : Sink UInt8 := send output (message command remote)

/-- What `put` sends for the contents of the local file. -/
def put (remote : Name) (content : List UInt8) : Sink UInt8 :=
  send (send (send output (message .put remote)) (wordBytes content.length)) content

/-- The answer that `get` reads, and what it saves in the local file. -/
def get : Download :=
  let (_, buf, input) := readAllFromSocket input 3
  if buf = ok then
    let (size, input) := getMessageSize input
    -- as a `ssize_t` a larger size is negative
    let (actual, placed, input) :=
      if size < 2 ^ 63 then readAllFromSocket input size else (0, [], input)
    let tooLittle := actual < size
    let (actual, _, _) := readAllFromSocket input 1
    if actual ≠ 0 then .tooMuch tooLittle else .saved (cstring placed) tooLittle
  else .refused (checkError input buf)

end Client

end Cs241.Net
