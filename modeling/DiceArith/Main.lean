import DiceArith.Console
import DiceArith.Roller.Generator

/-! # The program

Reads an expression from the arguments or from the input, rolls its dice with a fresh
seed, and shows the answer. An error goes to the error output, with its column.
-/

namespace DiceArith

partial def readLine (input : IO.FS.Stream) (line : List UInt8) : IO (List UInt8) := do
  let bytes ← input.read 1
  match bytes.toList with
  | [] => return line.reverse
  | byte :: _ => if byte = 10 then return (byte :: line).reverse else readLine input (byte :: line)

def freshSeed : IO UInt64 := do
  let bytes ← IO.getRandomBytes 8
  return bytes.toList.foldl (fun seed byte => seed * 256 + byte.toUInt64) 0

def Console.Report.show (report : Console.Report) : IO UInt32 := do
  IO.print (String.ofList report.output)
  if let some message := report.message? then
    IO.eprintln message
    if let some column := report.column? then
      IO.eprintln ("  at 1:" ++ column.repr)
  return report.code

end DiceArith

open DiceArith in
def main (args : List String) : IO UInt32 := do
  let seed ← freshSeed
  if args.isEmpty then
    IO.print (String.ofList Console.prompt)
    (← IO.getStdout).flush
    let line ← readLine (← IO.getStdin) []
    (Console.answerLine .generator line seed).1.show
  else
    (Console.run .generator (args.map String.toList) [] seed).1.show
