import CommandConsole.Document.Basic

/-!
# Writing documents

A document is written section by section: a heading with the values of its table. Sections come in
the order of the places of their headings, and a table that was added without a place follows the
one before it in the tree.
-/

namespace CommandConsole.Document

/-- A part of the text of a document: a heading and the values that follow it. -/
structure Section where
  /-- The place of the heading, if it has one. -/
  place : Option Nat
  text : String

/-- The text of a heading; the table of everything has none. -/
def Heading.write (h : Heading) (path : List Key) (array : Bool) : String :=
  match path.getLast? with
  | none => ""
  | some key =>
    let line := writePath path.dropLast key
    let line := if array then "[[" ++ line ++ "]]" else "[" ++ line ++ "]"
    match h with
    | .headed _ lead trail => lead ++ line ++ trail ++ "\n"
    | _ => "\n" ++ line ++ "\n"

/-- The section of a table without the tables in it. A table that was only implied has one when
it holds values. -/
def Table.section (t : Table) (path : List Key) (array : Bool) : List Section :=
  let values := String.join (t.values.map (· ++ "\n"))
  match t.heading with
  | .dotted => []
  | .implied =>
    if t.values.isEmpty then [] else [⟨none, Heading.implied.write path array ++ values⟩]
  | .headed place lead trail =>
    [⟨place, (Heading.headed place lead trail).write path array ++ values⟩]

mutual

def Item.sections (path : List Key) : Item → List Section
  | .value _ _ => []
  | .table (.mk heading entries) =>
    (Table.mk heading entries).section path false ++ entriesSections path entries
  | .array ts => tablesSections path ts

def entriesSections (path : List Key) : List (Key × Item) → List Section
  | [] => []
  | (key, item) :: rest => item.sections (path ++ [key]) ++ entriesSections path rest

def tablesSections (path : List Key) : List Table → List Section
  | [] => []
  | .mk heading entries :: rest =>
    (Table.mk heading entries).section path true ++ entriesSections path entries ++
      tablesSections path rest

end

/-- Sections with their places: one without a place has the place of the one before it. -/
def placed : Nat → List Section → List (Nat × String)
  | _, [] => []
  | last, s :: rest =>
    let place := s.place.getD last
    (place, s.text) :: placed place rest

/-- The text of a document: its sections in the order of their places. -/
def text (d : Document) : String :=
  let sections := d.root.section [] false ++ entriesSections [] d.root.entries
  let ordered := (placed 0 sections).mergeSort fun a b => a.1 ≤ b.1
  String.join (ordered.map Prod.snd) ++ d.trailing

end CommandConsole.Document
