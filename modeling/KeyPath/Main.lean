import KeyPath.CommandLine
import KeyPath.Regex.Tabled

/-!
The program: writes the report on its arguments and ends with its code.
-/
open scoped KeyPath.Tabled

def main (arguments : List String) : IO UInt32 := do
  let r := KeyPath.CommandLine.report (arguments.map String.toList)
  IO.print (String.ofList r.written)
  IO.eprint (String.ofList r.complaint)
  return UInt32.ofNat r.code
