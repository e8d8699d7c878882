import Cs241.Foundation.Blocks
import Cs241.Foundation.Integers
import Cs241.Net.Requests

/-!
# The buffer of the client

The client has one buffer, `buf`. It is allocated for the request, receives the first bytes of the
answer and the text of an error, and is allocated again for data of a size that the server tells.
This is the client of `Model` with all accesses to the buffer.
-/
namespace Cs241.Net.Buffers

open Foundation

/-- What the client runs on. -/
structure Machine where
  /-- Whether a block of that many bytes can be allocated. -/
  available : ℕ → Bool
  /-- What is found at an index of a block that was not written to. -/
  fresh : ℕ → UInt8
  /-- What is printed of the buffer; the function is not in the repository. -/
  printErrorMessage : Block → Checked (List UInt8)
  /-- It is given a string. -/
  printErrorMessage_string : ∀ buf, InBounds (printErrorMessage buf) ↔ (0 : UInt8) ∈ buf

variable (m : Machine) (buf : Block) (input : Source UInt8) (output : Sink UInt8)

/-- A block that cannot be allocated is `NULL`, which has no bytes. -/
def Machine.realloc (size : ℕ) : Block :=
  if m.available size then (List.range size).map fun i => buf.getD i (m.fresh i) else []

def Machine.calloc (size : ℕ) : Block := if m.available size then List.replicate size 0 else []

/-- The loop that reads to the place `start` of the buffer. It reads nothing if `count` is not
positive as a `ssize_t`. -/
def readAllFromSocket (start count : ℕ) : Checked (ℕ × Block × Source UInt8) :=
  if 0 < toSsize count then do
    let (retval, placed, input) := input.readAll count
    return (retval, ← buf.storeAll start placed, input)
  else pure (0, buf, input)

/-- What the four functions begin with: the request is sent, with a body behind it for `put`, the
buffer is cleared, and the first three bytes of the answer are read. -/
def exchange (body : List (List UInt8)) : Checked (Block × Source UInt8 × Sink UInt8) := do
  let line ← buf.loadAll 0 (← buf.strlen)
  let buf ← buf.storeAll 0 (List.replicate (← buf.strlen) 0)
  let (_, buf, input) ← readAllFromSocket buf input 0 3
  return (buf, input, body.foldl send (send output line))

/-- What is printed in the end; `list` prints nothing if it is told that there is nothing. -/
inductive Outcome
  | reported (report : Report)
  | listed (names : Option (List UInt8))
  | downloaded (contents : Download)
  | noFile

def checkError : Checked Report := do
  let (_, buf, input) ← readAllFromSocket buf input 3 3
  let _ ← buf.string
  if ← buf.equals error then
    let (_, buf, _) ← readAllFromSocket buf input 0 1024
    return .errorMessage (← m.printErrorMessage buf)
  else return .invalidResponse

/-- The four functions; they differ in the body of the request, and in what they do behind `ok`. -/
def answered (body : List (List UInt8))
    (accepted : Block → Source UInt8 → Sink UInt8 → Checked (Outcome × Sink UInt8)) :
    Checked (Outcome × Sink UInt8) := do
  let (buf, input, output) ← exchange buf input output body
  if ← buf.equals ok then accepted buf input output
  else return (.reported (← checkError m buf input), output)

/-- `print_success` -/
def success : Checked (Outcome × Sink UInt8) := return (.reported .success, output)

def delete : Checked (Outcome × Sink UInt8) :=
  answered m buf input output [] fun _ _ output => success output

/-- What `list` does behind `ok`. -/
def listed : Checked (Outcome × Sink UInt8) := do
  let (size, input) := getMessageSize input
  if size ≠ 0 then
    let (_, buf, _) ← readAllFromSocket (m.realloc buf size) input 0 size
    return (.listed (some (← buf.string)), output)
  else return (.listed none, output)

def list : Checked (Outcome × Sink UInt8) := answered m buf input output [] (listed m)

/-- What `get` does behind `ok`. -/
def downloaded : Checked (Outcome × Sink UInt8) := do
  let (size, input) := getMessageSize input
  let (actual, buf, input) ← readAllFromSocket (m.calloc ((size + 1) % 2 ^ 64)) input 0 size
  let tooLittle := decide (actual < size)
  -- `next` is a variable of its own
  let (actual, _, _) := input.readAll 1
  if actual ≠ 0 then return (.downloaded (.tooMuch tooLittle), output)
  else return (.downloaded (.saved (← buf.string) tooLittle), output)

def get : Checked (Outcome × Sink UInt8) :=
  answered m buf input output [] fun _ input output => downloaded m input output

/-- `content` is what `read_file` answers. -/
def put (content : Option (List UInt8)) : Checked (Outcome × Sink UInt8) :=
  match content with
  | some content =>
    answered m buf input output [wordBytes content.length, content] fun _ _ output => success output
  | none => pure (.noFile, output)

/-- `main` behind the connection; the request is a string of its own. -/
def main (command : Verb) (remote : Name) (content : Option (List UInt8)) :
    Checked (Outcome × Sink UInt8) :=
  let buf := message command remote ++ [0]
  match command with
  | .delete => delete m buf input output
  | .list => list m buf input output
  | .get => get m buf input output
  | .put => put m buf input output content

end Cs241.Net.Buffers
