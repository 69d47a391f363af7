import ClauseForm.Error

/-! Sinks take the sections of a trace and may run out of room. -/

namespace ClauseForm

/-- What becomes of the sections of a trace. -/
inductive Sink where
  /-- Nothing is kept. -/
  | discarding
  /-- The sections are kept as they are. -/
  | recording (sections : List (Stage × List String))
  /-- The bytes of the sections are kept as far as there is room. -/
  | writing (capacity : Option Nat) (written : ByteArray)
  /-- Any other sink. The sections handed to it, the last one included, decide what it refuses. -/
  | other (refusal : List (Stage × List String) → Option AccessError)
    (handed : List (Stage × List String))

namespace Sink

/-- Text of a section: a heading, one line for each item, and an empty line. -/
def sectionText (stage : Stage) (lines : List String) : String :=
  "After " ++ stage.heading ++ ":\n" ++
    String.join (lines.map fun line => " " ++ line ++ "\n") ++ "\n"

/-- The sink after a section, and the cause of its failure where it does not take all of it. -/
def receive (stage : Stage) (lines : List String) : Sink → Sink × Option AccessError
  | .discarding => (.discarding, none)
  | .recording sections => (.recording (sections ++ [(stage, lines)]), none)
  | .writing none written =>
    (.writing none (written ++ (sectionText stage lines).toUTF8), none)
  | .writing (some capacity) written =>
    let bytes := (sectionText stage lines).toUTF8
    let room := capacity - written.size
    (.writing (some capacity) (written ++ bytes.extract 0 room),
      if bytes.size ≤ room then none else some .sinkFull)
  | .other refusal handed =>
    let handed := handed ++ [(stage, lines)]
    (.other refusal handed, refusal handed)

end Sink

end ClauseForm
