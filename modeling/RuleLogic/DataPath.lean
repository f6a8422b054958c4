import RuleLogic.Json.Value

/-!
# Paths into data

A path is a text of segments with dots between them.  Each segment is a key of an object or an
index of an array, and walking a path follows its segments from the data inwards.  The empty path
is the data itself.

    walk data (p.q) = walk data p, and from there walk q
    a miss tells what has been reached, and why the next segment leads nowhere
-/

namespace RuleLogic

/-- Why a segment leads nowhere. -/
inductive MissCause where
  | noKey (key : String)
  | indexOutOfRange (index length : Nat)
  | notAnIndex (segment : String)
  | primitive (segment : String) (kind : Kind)
deriving DecidableEq

/-- A path that does not resolve: the part in front of the failing segment, and the cause. -/
structure Miss where
  reached : String
  cause : MissCause
deriving DecidableEq

namespace DataPath

/-! ## Segments -/

/-- The pieces of a text between its dots; there is always at least one. -/
def splitDots : List Char → List (List Char)
  | [] => [[]]
  | c :: rest =>
    if c = '.' then [] :: splitDots rest
    else
      match splitDots rest with
      | piece :: pieces => (c :: piece) :: pieces
      | [] => [[c]]

def segments (path : String) : List String := (splitDots path.toList).map String.ofList

/-- An array index: digits, perhaps behind a plus sign, for a number of at most 64 bits. -/
def index? (segment : String) : Option Nat :=
  let ds :=
    match segment.toList with
    | '+' :: rest => rest
    | all => all
  let n := Nat.ofDigitChars 10 ds 0
  if !ds.isEmpty && ds.all Char.isDigit && n < 18446744073709551616 then some n else none

/-! ## Walking -/

/-- The value that one segment leads to. -/
def follow (v : Value) (segment : String) : Except MissCause Value :=
  match v with
  | .obj entries =>
    match Value.find? segment entries with
    | some w => .ok w
    | none => .error (.noKey segment)
  | .arr items =>
    match index? segment with
    | none => .error (.notAnIndex segment)
    | some i =>
      match items[i]? with
      | some w => .ok w
      | none => .error (.indexOutOfRange i items.length)
  | v => .error (.primitive segment v.kind)

/-- The path of a segment behind what has been reached; nothing is put in front of the first. -/
def extend (reached segment : String) : String :=
  if reached.isEmpty then segment else reached ++ "." ++ segment

/-- Follow the segments from a value that the path so far has reached. -/
def walkFrom (reached : String) (v : Value) : List String → Except Miss Value
  | [] => .ok v
  | segment :: rest =>
    match follow v segment with
    | .ok w => walkFrom (extend reached segment) w rest
    | .error cause => .error ⟨reached, cause⟩

/-- Follow a path into the data. -/
def walk (data : Value) (path : String) : Except Miss Value :=
  if path.isEmpty then .ok data else walkFrom "" data (segments path)

/-- The value at a path, if there is one. -/
def resolve? (data : Value) (path : String) : Option Value := (walk data path).toOption

end DataPath

/-! ## Wording -/

namespace Miss

/-- The part that was reached, as it is shown. -/
def place (m : Miss) : String :=
  if m.reached.isEmpty then "<root>" else "\"" ++ m.reached ++ "\""

def message (m : Miss) : String :=
  match m.cause with
  | .noKey key => "key \"" ++ key ++ "\" not found at " ++ m.place
  | .indexOutOfRange index length =>
    "index " ++ toString index ++ " out of range at " ++ m.place
      ++ " (length " ++ toString length ++ ")"
  | .notAnIndex segment => "\"" ++ segment ++ "\" is not a valid array index at " ++ m.place
  | .primitive segment kind =>
    "cannot read \"" ++ segment ++ "\" from " ++ kind.name ++ " at " ++ m.place

end Miss

end RuleLogic
