import MibCorpus.Oid.Dotted
import MibCorpus.Source.File

/-!
# Outline notation

A small notation for modules with one item on a line. `MODULE name` starts a module; the lines after
it add to that module: `IMPORT source symbol`, `VALUE name component ...` and `TYPE name target`.
Words are separated by spaces, lines without words are skipped, and the first line of another form
fails the file. The span of an item is the number of its line.
-/

namespace MibCorpus.Outline

/-- A component is an arc if it is a numeral of at most 32 bits, and a name otherwise. -/
def component (word : List Char) : OidComponent :=
  match Arc.ofDigits? word with
  | some a => .arc a
  | none => .name (String.ofList word)

/-- What a line adds. -/
inductive Item where
  | module (name : String)
  | imported (source symbol : String)
  | definition (name : String) (clauses : Clauses)

/-- Reads the words of a line. -/
def item? (words : List (List Char)) : Option Item :=
  match words.map String.ofList with
  | ["MODULE", name] => some (.module name)
  | ["IMPORT", source, symbol] => some (.imported source symbol)
  | ["TYPE", name, target] => some (.definition name (.type (.named target) none .current))
  | "VALUE" :: name :: _ => some (.definition name (.value ((words.drop 2).map component)))
  | _ => none

/-- The modules with an item of line `number` added, unless it lacks a module to belong to. The
module in progress comes first. -/
def add (number : Nat) (modules : List Module) : Item → Option (List Module)
  | .module name => some (⟨name, [], [], ⟨number, number + 1⟩⟩ :: modules)
  | .imported source symbol =>
    match modules with
    | [] => none
    | m :: ms => some ({ m with imports := m.imports ++ [⟨source, symbol, .synthetic⟩] } :: ms)
  | .definition name clauses =>
    match modules with
    | [] => none
    | m :: ms =>
      let d := ⟨name, clauses, ⟨number, number + 1⟩⟩
      some ({ m with definitions := m.definitions ++ [d] } :: ms)

/-- Reads the lines from `number` on behind those of `modules`, the last of which comes first. -/
def readLines (number : Nat) (modules : List Module) :
    List (List Char) → Except ParseFailure (List Module)
  | [] => .ok modules.reverse
  | line :: lines =>
    let words := (line.splitOn ' ').filter (!·.isEmpty)
    if words.isEmpty then readLines (number + 1) modules lines
    else
      match (item? words).bind (add number modules) with
      | some modules => readLines (number + 1) modules lines
      | none => .error ⟨"bad line: " ++ String.ofList line, ⟨number, number + 1⟩⟩

/-- Reads the modules of a text. -/
def parse : FileParser := fun source => readLines 0 [] (source.text.toList.splitOn '\n')

end MibCorpus.Outline
