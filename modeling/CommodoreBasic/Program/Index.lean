import CommodoreBasic.Grammar.Tree
import Std.Data.TreeMap.Basic

/-!
# Line index

Where the line with a given label, or on a given physical line, stands in a program. Where several
lines have the same label the last one counts, and the same holds of physical lines. A line whose
label has been used before is worth a remark: its place displaces another one in the index, that of
the line that had the label last. `duplicateLabels` lists these lines.
-/

namespace CommodoreBasic

/-- Places of lines in a program, by label and by physical line. -/
structure Index where
  labels : Std.TreeMap Nat Nat
  physical : Std.TreeMap Nat Nat

namespace Index

/-- The index of no lines. -/
def empty : Index := ⟨∅, ∅⟩

/-- Enters the line at place `n`. With the index comes the place that is displaced: that of the line
with the same label that was entered last, if there is one. -/
def insert (index : Index) (n : Nat) (line : Line) : Option Nat × Index :=
  (index.labels[line.label]?,
    ⟨index.labels.insert line.label n, index.physical.insert line.position.line n⟩)

/-- Enters lines at consecutive places, the first of them at `n`. -/
def insertFrom (index : Index) : Nat → List Line → Index
  | _, [] => index
  | n, line :: lines => (index.insert n line).2.insertFrom (n + 1) lines

/-- The index of a program's lines. -/
def ofLines (lines : List Line) : Index := empty.insertFrom 0 lines

/-- The place of the line with that label. -/
def label? (index : Index) (label : Nat) : Option Nat := index.labels[label]?

/-- The place of the line that begins on that physical line, counted from 1. -/
def physical? (index : Index) (line : Nat) : Option Nat := index.physical[line]?

/-- The labels in ascending order, with the places of their lines. -/
def toList (index : Index) : List (Nat × Nat) := index.labels.toList

/-- Whether nothing has been entered. -/
def isEmpty (index : Index) : Bool := index.labels.isEmpty

end Index

/-- A label that is used again: the physical line where it was used last, and the one where it is
used now. -/
structure DuplicateLabel where
  label : Nat
  previous : Nat
  current : Nat
deriving DecidableEq, Repr

/-- The labels used again in a program, in the order of its lines from place `n` on. The line that
had the label last is the one whose place is displaced in the index. -/
def duplicateLabelsFrom (program : List Line) (index : Index) :
    Nat → List Line → List DuplicateLabel
  | _, [] => []
  | n, line :: lines =>
    let (displaced, index) := index.insert n line
    let later := duplicateLabelsFrom program index (n + 1) lines
    match displaced.bind (program[·]?) with
    | some previous => ⟨line.label, previous.position.line, line.position.line⟩ :: later
    | none => later

/-- The labels used again in a program, in the order of its lines. -/
def duplicateLabels (lines : List Line) : List DuplicateLabel :=
  duplicateLabelsFrom lines .empty 0 lines

end CommodoreBasic
