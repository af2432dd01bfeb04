/-!
# Transcripts

What a run leaves behind: the text it wrote, the text of its complaints, and its exit code.
-/

namespace ExactScript

structure Transcript where
  output : String := ""
  errors : String := ""
  exitCode : Nat := 0
  deriving DecidableEq

namespace Transcript

/-- A run that writes `text` and ends well. -/
def ofOutput (text : String) : Transcript := { output := text }

/-- A run that fails with a line of complaint. -/
def ofFailure (message : String) : Transcript := { errors := message ++ "\n", exitCode := 1 }

/-- What came before a run, put in front of it. -/
def after (t : Transcript) (output errors : String) : Transcript :=
  { t with output := output ++ t.output, errors := errors ++ t.errors }

end Transcript

end ExactScript
