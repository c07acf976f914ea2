/-
# PlainRequest.Main — the program

The program runs on its words and on the machine, writes what the outcome says and ends with its code.
-/

import PlainRequest.CommandLine.Machine

open PlainRequest

/-- Run the program. -/
def main (words : List String) : IO UInt32 := do
  let outcome ← CommandLine.run CommandLine.Machine.host (words.map String.toList)
  IO.print (String.ofList outcome.output)
  IO.eprint (String.ofList outcome.errors)
  pure (UInt32.ofNat outcome.code)
