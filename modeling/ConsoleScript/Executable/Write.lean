import ConsoleScript.Executable.Basic

/-!
# Writing an executable

The parts of the file are written one after the other to a sink. A sink may have
limited room; it then takes as much of a part as fits, and the write fails.
-/

namespace ConsoleScript

/-- Where bytes are written to, with the room that is left, if it is limited. -/
structure Sink where
  written : Bytes := []
  room : Option Nat := none
deriving DecidableEq, Repr

/-- Why an executable was not written in full. -/
inductive WriteError where
  /-- The sink has no room for the whole of a part. -/
  | noRoom
  /-- The length of the code section does not fit the header's field. -/
  | codeTooLong
deriving DecidableEq, Repr

/-- The text of a failed write. -/
def WriteError.message : WriteError → String
  | noRoom => "failed to write whole buffer"
  | codeTooLong => "Code section exceeds 4 GiB"

/-- Writes to a sink, which keeps what was written before a failure. -/
abbrev Writer := EStateM WriteError Sink

namespace Sink

/-- Writes a part, or as much of it as fits. -/
def write (part : Bytes) : Writer Unit := fun sink =>
  match sink.room with
  | none => .ok () { sink with written := sink.written ++ part }
  | some room =>
    let next : Sink := ⟨sink.written ++ part.take room, some (room - part.length)⟩
    if part.length ≤ room then .ok () next else .error .noRoom next

end Sink

namespace Executable

/-- Writes the header field by field, then the code section. -/
def write (x : Executable) : Writer Unit := do
  unless x.Fits do throw .codeTooLong
  Sink.write magic
  Sink.write [formatVersion]
  Sink.write [x.flags.bits]
  Sink.write (Bytes.littleEndian 4 x.code.length)
  Sink.write reserved
  Sink.write x.code

/-- What the sink holds after the executable was written to it, and whether the
write succeeded. -/
def writeTo (x : Executable) (sink : Sink) : Except WriteError Unit × Bytes :=
  match x.write sink with
  | .ok _ sink => (.ok (), sink.written)
  | .error e sink => (.error e, sink.written)

end Executable

end ConsoleScript
