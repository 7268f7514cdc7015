import Backlog.Log.Json
import Backlog.Log.Level

/-!
# Loggers

A logger drops lines below its threshold and numbers the others. A line that is written
becomes an entry, in text or as a JSON object; its time and the thread it came from are
known only where it is written out.
-/

namespace Backlog

structure Line where
  level : Level
  /-- The id of the job the line is about. -/
  job : Option String := none
  message : String
  fields : List (String × String) := []
  deriving DecidableEq, Repr

/-- A line as it was written: in which format, and after how many others. -/
structure Entry where
  json : Bool
  seq : Nat
  line : Line
  deriving DecidableEq, Repr

namespace Entry

/-- What a JSON entry says, in order. -/
def members (e : Entry) (time thread : String) : List (String × Json.Scalar) :=
  [("ts", .text time), ("seq", .number e.seq), ("level", .text e.line.level.label),
    ("tid", .text thread)] ++
  (e.line.job.toList.map fun id => ("job", .text id)) ++
  (e.line.fields.map fun f => (f.1, .text f.2)) ++
  [("msg", .text e.line.message)]

def bracketed (s : List Char) : List Char := '[' :: s ++ [']', ' ']

def pairs : List (String × String) → List Char
  | [] => []
  | [(k, v)] => k.toList ++ '=' :: v.toList
  | (k, v) :: f :: rest => k.toList ++ '=' :: v.toList ++ [',', ' '] ++ pairs (f :: rest)

/-- The text form. Nothing in it is escaped. -/
def text (e : Entry) (time thread : String) : List Char :=
  bracketed time.toList ++ bracketed e.line.level.label.toList ++
  bracketed ("tid=".toList ++ thread.toList) ++
  (match e.line.job with
    | some id => bracketed ("job=".toList ++ id.toList)
    | none => []) ++
  e.line.message.toList ++
  (match e.line.fields with
    | [] => []
    | fs => [' ', '{'] ++ pairs fs ++ ['}'])

/-- The entry as it goes out, with the newline that ends it. -/
def render (e : Entry) (time thread : String) : String :=
  .ofList ((if e.json then Json.object (e.members time thread) else e.text time thread) ++ ['\n'])

end Entry

/-- The threshold is a rank; it need not be the rank of a level. -/
structure Logger where
  threshold : Int := Level.info.rank
  json : Bool := false
  /-- How many entries were written. -/
  written : Nat := 0
  deriving DecidableEq, Repr, Inhabited

namespace Logger

def passes (g : Logger) (l : Line) : Bool := g.threshold ≤ l.level.rank

def log (g : Logger) (l : Line) : Logger × Option Entry :=
  if g.passes l then ({ g with written := g.written + 1 }, some ⟨g.json, g.written, l⟩)
  else (g, none)

@[simp] theorem log_of_passes {g : Logger} {l : Line} (h : g.passes l) :
    g.log l = ({ g with written := g.written + 1 }, some ⟨g.json, g.written, l⟩) := by
  simp [log, h]

@[simp] theorem log_of_not_passes {g : Logger} {l : Line} (h : g.passes l = false) :
    g.log l = (g, none) := by
  simp [log, h]

end Logger

end Backlog
