import CommandConsole.Tree.Basic
import CommandConsole.Suggestion.Basic

/-!
# Usage lines

A usage line shows the way from a node to a place where a line may end. Full usage has one line
for every such place; short usage has one line for every child, with what follows it in brackets
when it may be left out and in parentheses when it is a choice.
-/

namespace CommandConsole

namespace CommandTree

variable {L : Language}

def redirectUsage (t : CommandTree L) (target : NodeId) : String :=
  if target = root then "..." else "-> " ++ (t.node target).kind.usageText

/-- Two parts of a usage line; an empty first part is left out. -/
def joinUsage (lead usage : String) : String :=
  if lead.isEmpty then usage else lead ++ " " ++ usage

/-! ### Full usage -/

/-- The lines of a node and of what is below it, behind what leads to it. -/
def usageBelow (t : CommandTree L) (source : L.Source) (restricted : Bool) :
    Nat → NodeId → ConsolePolicy → String → List String
  | 0, _, _, _ => []
  | steps + 1, id, above, lead =>
    let n := t.node id
    if restricted && !n.canUse source above then []
    else
      let policy := n.gates.console.resolve above
      let here := if n.command.isSome then [lead] else []
      let below :=
        match n.forward with
        | some forward =>
          let front := if lead.isEmpty then n.kind.usageText else lead
          [front ++ " " ++ t.redirectUsage forward.target]
        | none =>
          n.children.values.flatMap fun child =>
            t.usageBelow source restricted steps child policy
              (joinUsage lead (t.node child).kind.usageText)
      here ++ below

/-- Every complete usage below a node; if restricted, only what the source may use. -/
def allUsage (t : CommandTree L) (id : NodeId) (source : L.Source) (restricted : Bool) :
    List String :=
  t.usageBelow source restricted (t.size + 1) id (t.policyAbove id) ""

/-! ### Short usage -/

def bracketIf (optional : Bool) (s : String) : String :=
  if optional then "[" ++ s ++ "]" else s

/-- Several texts as a choice, in brackets if all may be left out. -/
def choice (optional : Bool) (texts : List String) : String :=
  let between := String.intercalate "|" texts
  if optional then "[" ++ between ++ "]" else "(" ++ between ++ ")"

/-- The short usage of a node, none if the source may not use it. A deep node shows only itself. -/
def shortUsage? (t : CommandTree L) (source : L.Source) :
    Nat → NodeId → Bool → Bool → ConsolePolicy → Option String
  | 0, _, _, _, _ => none
  | steps + 1, id, optional, deep, above =>
    let n := t.node id
    if !n.canUse source above then none
    else
      let policy := n.gates.console.resolve above
      let this := bracketIf optional n.kind.usageText
      if deep then some this
      else
        match n.forward with
        | some forward => some (this ++ " " ++ t.redirectUsage forward.target)
        | none =>
          let mayEnd := n.command.isSome
          let usable := n.children.values.filter fun c => (t.node c).canUse source policy
          match usable with
          | [] => some this
          | [child] =>
            match t.shortUsage? source steps child mayEnd mayEnd policy with
            | some usage => some (this ++ " " ++ usage)
            | none => some this
          | several =>
            let shown := several.filterMap fun c =>
              t.shortUsage? source steps c mayEnd true policy
            match shown.eraseDups with
            | [] => some this
            | [usage] => some (this ++ " " ++ bracketIf mayEnd usage)
            | _ => some (this ++ " " ++
                choice mayEnd (several.map fun c => (t.node c).kind.usageText))

def smartUsage (t : CommandTree L) (id : NodeId) (source : L.Source) : List (NodeId × String) :=
  let n := t.node id
  let policy := n.gates.console.resolve (t.policyAbove id)
  n.children.values.filterMap fun child =>
    (t.shortUsage? source (t.size + 1) child n.command.isSome false policy).map (child, ·)

/-! ### Options -/

/-- The usage of the options of a node that the source may use, sorted. -/
def optionUsage (t : CommandTree L) (id : NodeId) (source : L.Source) : List String :=
  let n := t.node id
  let policy := n.gates.console.resolve (t.policyAbove id)
  let usable := n.options.values.filter fun o => (t.node o).canUse source policy
  (usable.map fun o => "[" ++ (t.node o).kind.usageText ++ "]").mergeSort
    fun a b => Suggestion.compareText a b != .gt

end CommandTree

end CommandConsole
