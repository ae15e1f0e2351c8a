import CrossSafety.Chain.Change

/-!
# The journal

Changes are kept as lines of JSON. A line counts once its newline is there: what follows the last
newline was cut short and is dropped when the file is opened.
-/
namespace CrossSafety

/-- The complete lines of a journal file. -/
structure Journal where
  /-- The lines without their newlines, last line first. -/
  lines : List Bytes
deriving DecidableEq, Inhabited

namespace Journal

def empty : Journal := ⟨[]⟩

/-- Splits a text into its complete lines, after those found so far (last one first) and the
part of a line read so far (last byte first). -/
def split : List Bytes → Bytes → Bytes → List Bytes
  | lines, _, [] => lines
  | lines, part, c :: rest =>
    if c = 10 then split (part.reverse :: lines) [] rest else split lines (c :: part) rest

def ofFile (file : Bytes) : Journal := ⟨split [] [] file⟩

def bytes (journal : Journal) : Bytes :=
  journal.lines.foldl (fun later line => line ++ 10 :: later) []

def lineOf (change : Change) : Bytes := change.toJson.render

def append (journal : Journal) (change : Change) : Journal := ⟨lineOf change :: journal.lines⟩

/-- The lines that hold a change, first one first. -/
def recordLines (journal : Journal) : List Bytes :=
  journal.lines.reverse.filter fun line => !line.isEmpty

def count (journal : Journal) : Nat := journal.recordLines.length

def readLine (index : Nat) (line : Bytes) : Except StorageError Change :=
  match Json.decode? Change.shape Change.ofJson? line with
  | some change => .ok change
  | none => .error (.dataCorruption ("journal record " ++ toString index))

def readLines : Nat → List Bytes → Except StorageError (List Change)
  | _, [] => .ok []
  | index, line :: rest => do
    let change ← readLine index line
    return change :: (← readLines (index + 1) rest)

/-- The changes in the journal, first one first. -/
def changes (journal : Journal) : Except StorageError (List Change) :=
  readLines 0 journal.recordLines

def ofSnapshot (state : Ledger) : Journal := empty.append (.snapshot state)

/-- More changes than this are replaced by one snapshot when a chain is opened. -/
def compactionThreshold : Nat := 4096

end Journal

end CrossSafety
