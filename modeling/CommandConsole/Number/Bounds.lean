import CommandConsole.Line.Scan
import CommandConsole.Number.Quantity

/-!
# Bounds of a number

Bounds have a lower and an upper end, each of which may be missing, and both ends belong to them.
They are written as one number, or as two ends around two points; a missing end is left out, but
not both. Reading refuses ends in the wrong order.
-/

namespace CommandConsole

/-- Bounds with both ends included; a missing end does not bound. -/
structure Bounds (α : Type) where
  min : Option α
  max : Option α
  deriving DecidableEq

namespace Bounds

variable {α : Type}

def any : Bounds α := ⟨none, none⟩

def exactly (v : α) : Bounds α := ⟨some v, some v⟩

def between (a b : α) : Bounds α := ⟨some a, some b⟩

def atLeast (v : α) : Bounds α := ⟨some v, none⟩

def atMost (v : α) : Bounds α := ⟨none, some v⟩

def isAny (b : Bounds α) : Bool := b.min.isNone && b.max.isNone

def holds [Quantity α] (b : Bounds α) (v : α) : Bool :=
  b.min.all (Quantity.le · v) && b.max.all (Quantity.le v ·)

def text [Quantity α] (b : Bounds α) : String :=
  match b.min, b.max with
  | some lo, some hi =>
    if Quantity.same lo hi then Quantity.text lo else Quantity.text lo ++ ".." ++ Quantity.text hi
  | some lo, none => Quantity.text lo ++ ".."
  | none, some hi => ".." ++ Quantity.text hi
  | none, none => ".."

/-! ### Reading -/

/-- How one end is read: whether it may have a fraction, the fault of a wrong token, and what is
done to the number before the ends are compared. -/
structure Reading (α : Type) where
  floating : Bool
  invalid : String → Fault
  adjust : α → α

def Reading.plain [Quantity α] : Reading α := ⟨Quantity.floating α, Quantity.invalid α, id⟩

def scanEnd [Quantity α] (how : Reading α) : Scan (Option α) := do
  let start ← get
  let found ← Scan.numberToken how.floating
  if found.isEmpty then return none
  else
    match Quantity.read? found with
    | some v => return some (how.adjust v)
    | none => Scan.failBack start (how.invalid (String.ofList found))

def atPoints (r : Reader) : Bool := r.peek? == some '.' && r.peekAt? 1 == some '.'

/-- Reads the upper end behind two points; without them the lower end is the upper one. -/
def scanUpper [Quantity α] (how : Reading α) (start : Reader) (lo : Option α) :
    Scan (Option α) := do
  let behind ← get
  if atPoints behind then
    Scan.pass 2
    scanEnd how
  else if !how.floating && behind.peek? == some '.' then Scan.failBack start .boundsIntsOnly
  else return lo

def scanEnds [Quantity α] (how : Reading α) : Scan (Bounds α) := do
  let start ← get
  if !start.canRead then Scan.fail .boundsEmpty
  else
    let lo ← scanEnd how
    let hi ← scanUpper how start lo
    if lo.isNone && hi.isNone then Scan.failBack start .boundsEmpty
    else return ⟨lo, hi⟩

def isSwapped [Quantity α] (b : Bounds α) : Bool :=
  match b.min, b.max with
  | some lo, some hi => Quantity.lt hi lo
  | _, _ => false

def scanWith [Quantity α] (how : Reading α) : Scan (Bounds α) := do
  let start ← get
  let b ← scanEnds how
  if b.isSwapped then Scan.failBack start .boundsSwapped
  else return b

def scan [Quantity α] : Scan (Bounds α) := scanWith .plain

/-- The bounds that a text stands for; nothing may follow them. -/
def ofString [Quantity α] (s : String) : Except LineError (Bounds α) :=
  match Scan.start scan (.ofString s) with
  | (.error e, _) => .error e
  | (.ok b, r) =>
    if r.canRead then .error (Fault.expectedArgumentSeparator.pinned r) else .ok b

end Bounds

/-! ### Squares -/

structure SquaredBounds (α : Type) {β : Type} [Squared α β] extends Bounds α where
  minSquare : Option β := min.map Squared.square
  maxSquare : Option β := max.map Squared.square
  minSquare_eq : minSquare = min.map Squared.square := by rfl
  maxSquare_eq : maxSquare = max.map Squared.square := by rfl

namespace SquaredBounds

variable {α β : Type} [Squared α β]

def ofBounds (b : Bounds α) : SquaredBounds α := { b with }

/-- Whether a square lies within the squares of the ends. -/
def holdsSquare (b : SquaredBounds α) (v : β) : Bool :=
  b.minSquare.all (Squared.le α · v) && b.maxSquare.all (Squared.le α v ·)

def scan [Quantity α] : Scan (SquaredBounds α) := ofBounds <$> Bounds.scan

def ofString [Quantity α] (s : String) : Except LineError (SquaredBounds α) :=
  ofBounds <$> Bounds.ofString s

theorem ofBounds_toBounds (b : SquaredBounds α) : ofBounds b.toBounds = b := by
  obtain ⟨b, minSquare, maxSquare, rfl, rfl⟩ := b
  rfl

end SquaredBounds

def Bounds.holdsSquare {α β : Type} [Squared α β] (b : Bounds α) (v : β) : Bool :=
  (SquaredBounds.ofBounds b).holdsSquare v

end CommandConsole
