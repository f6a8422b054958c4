import RuleLogic.Json.Value

/-!
# Reading JSON texts

The reader takes a text one character at a time.  Its state is what it expects next and the
containers that are open around it; a text is read iff every character is accepted and the last
state holds one complete value.

* At most 127 containers are open at once.
* A key that comes again keeps its first place and takes the last value.
* A number is gathered until a character that no number holds, and then read as a whole.
* A string holds no raw character below U+0020 and no surrogate without its partner.

    read s = some v    iff    the characters of s lead from `start` to a state that is v alone
-/

namespace RuleLogic

namespace Reader

/-! ## States -/

/-- A container that is open around a value: its items, latest first, or its entries and the key
of the value. -/
inductive Frame where
  | array (items : List Value)
  | object (entries : List (String × Value)) (key : String)

/-- Where a string stands: it is a value, or a key behind the entries of its object. -/
inductive StringRole where
  | value
  | key (entries : List (String × Value))

/-- How much of an escape in a string has been read. -/
inductive Escape where
  | none
  | backslash
  | hex (count code : Nat)
  | lowBackslash (high : Nat)
  | lowLetter (high : Nat)
  | lowHex (high count code : Nat)

/-- What the reader expects next. -/
inductive Mode where
  /-- A value. -/
  | value
  /-- A value, or the end of an empty array. -/
  | firstItem
  /-- A key, or the end of an empty object. -/
  | firstKey
  /-- A key behind the entries read so far. -/
  | nextKey (entries : List (String × Value))
  /-- The colon behind a key. -/
  | colon (entries : List (String × Value)) (key : String)
  /-- The rest of a word that stands for the value. -/
  | word (rest : List Char) (v : Value)
  /-- More of a number, whose characters are held latest first. -/
  | number (text : List Char)
  /-- More of a string, whose characters are held latest first. -/
  | string (role : StringRole) (text : List Char) (escape : Escape)
  /-- What may follow a complete value. -/
  | done (v : Value)

structure State where
  mode : Mode
  frames : List Frame

def start : State := ⟨.value, []⟩

/-- The most containers that may be open at once. -/
def maxDepth : Nat := 127

/-! ## Steps -/

def isBlank (c : Char) : Bool := c == ' ' || c == '\n' || c == '\t' || c == '\r'

/-- Open a container, unless too many are open. -/
def openContainer (mode : Mode) (frames : List Frame) : Option State :=
  if frames.length < maxDepth then some ⟨mode, frames⟩ else none

/-- The first character of a value. -/
def startValue (frames : List Frame) (c : Char) : Option State :=
  match c with
  | '"' => some ⟨.string .value [] .none, frames⟩
  | '[' => openContainer .firstItem frames
  | '{' => openContainer .firstKey frames
  | 'n' => some ⟨.word "ull".toList .null, frames⟩
  | 't' => some ⟨.word "rue".toList (.bool true), frames⟩
  | 'f' => some ⟨.word "alse".toList (.bool false), frames⟩
  | c => if c == '-' || c.isDigit then some ⟨.number [c], frames⟩ else none

/-- A character behind a complete value. -/
def afterValue (v : Value) (frames : List Frame) (c : Char) : Option State :=
  if isBlank c then some ⟨.done v, frames⟩
  else
    match frames, c with
    | .array items :: outer, ',' => some ⟨.value, .array (v :: items) :: outer⟩
    | .array items :: outer, ']' => some ⟨.done (.arr (v :: items).reverse), outer⟩
    | .object entries key :: outer, ',' => some ⟨.nextKey (Value.put key v entries), outer⟩
    | .object entries key :: outer, '}' => some ⟨.done (.obj (Value.put key v entries)), outer⟩
    | _, _ => none

/-- The value of a hexadecimal digit. -/
def hexValue? (c : Char) : Option Nat :=
  if '0' ≤ c ∧ c ≤ '9' then some (c.toNat - '0'.toNat)
  else if 'a' ≤ c ∧ c ≤ 'f' then some (c.toNat - 'a'.toNat + 10)
  else if 'A' ≤ c ∧ c ≤ 'F' then some (c.toNat - 'A'.toNat + 10)
  else none

/-- The character that a letter behind a backslash stands for. -/
def unescape? : Char → Option Char
  | '"' => some '"'
  | '\\' => some '\\'
  | '/' => some '/'
  | 'b' => some '\x08'
  | 'f' => some '\x0c'
  | 'n' => some '\n'
  | 'r' => some '\r'
  | 't' => some '\t'
  | _ => none

def isHighSurrogate (code : Nat) : Bool := 0xD800 ≤ code && code ≤ 0xDBFF

def isLowSurrogate (code : Nat) : Bool := 0xDC00 ≤ code && code ≤ 0xDFFF

/-- The character that a pair of surrogates stands for. -/
def pairedChar (high low : Nat) : Char :=
  Char.ofNat (0x10000 + (high - 0xD800) * 0x400 + (low - 0xDC00))

/-- The state behind the closing quote of a string. -/
def endString (role : StringRole) (text : List Char) (frames : List Frame) : State :=
  let s := String.ofList text.reverse
  match role with
  | .value => ⟨.done (.str s), frames⟩
  | .key entries => ⟨.colon entries s, frames⟩

/-- A character inside a string. -/
def inString (role : StringRole) (text : List Char) (escape : Escape) (frames : List Frame)
    (c : Char) : Option State :=
  let goOn (text : List Char) (escape : Escape) : Option State :=
    some ⟨.string role text escape, frames⟩
  match escape with
  | .none =>
    if c == '"' then some (endString role text frames)
    else if c == '\\' then goOn text .backslash
    else if c.toNat < 0x20 then none
    else goOn (c :: text) .none
  | .backslash =>
    if c == 'u' then goOn text (.hex 0 0)
    else (unescape? c).bind fun escaped => goOn (escaped :: text) .none
  | .hex count code => do
    let code := 16 * code + (← hexValue? c)
    if count < 3 then goOn text (.hex (count + 1) code)
    else if isHighSurrogate code then goOn text (.lowBackslash code)
    else if isLowSurrogate code then none
    else goOn (Char.ofNat code :: text) .none
  | .lowBackslash high => if c == '\\' then goOn text (.lowLetter high) else none
  | .lowLetter high => if c == 'u' then goOn text (.lowHex high 0 0) else none
  | .lowHex high count code => do
    let code := 16 * code + (← hexValue? c)
    if count < 3 then goOn text (.lowHex high (count + 1) code)
    else if isLowSurrogate code then goOn (pairedChar high code :: text) .none
    else none

/-- The state behind one more character, if it is accepted. -/
def step (s : State) (c : Char) : Option State :=
  match s.mode with
  | .value => if isBlank c then some s else startValue s.frames c
  | .firstItem =>
    if isBlank c then some s
    else if c == ']' then some ⟨.done (.arr []), s.frames⟩
    else startValue (.array [] :: s.frames) c
  | .firstKey =>
    if isBlank c then some s
    else if c == '}' then some ⟨.done (.obj []), s.frames⟩
    else if c == '"' then some ⟨.string (.key []) [] .none, s.frames⟩
    else none
  | .nextKey entries =>
    if isBlank c then some s
    else if c == '"' then some ⟨.string (.key entries) [] .none, s.frames⟩
    else none
  | .colon entries key =>
    if isBlank c then some s
    else if c == ':' then some ⟨.value, .object entries key :: s.frames⟩
    else none
  | .word [] _ => none
  | .word [last] v => if c == last then some ⟨.done v, s.frames⟩ else none
  | .word (next :: rest) v => if c == next then some ⟨.word rest v, s.frames⟩ else none
  | .number text =>
    if Number.isTextChar c then some ⟨.number (c :: text), s.frames⟩
    else (Number.read? text.reverse).bind fun n => afterValue (.num n) s.frames c
  | .string role text escape => inString role text escape s.frames c
  | .done v => afterValue v s.frames c

/-- The value of a text that ends in the state. -/
def finish (s : State) : Option Value :=
  match s.frames, s.mode with
  | [], .done v => some v
  | [], .number text => (Number.read? text.reverse).map .num
  | _, _ => none

/-- The state behind further characters. -/
def run (s : State) (cs : List Char) : Option State := cs.foldlM step s

end Reader

/-- The value that a JSON text writes. -/
def Value.read? (text : String) : Option Value :=
  (Reader.run Reader.start text.toList).bind Reader.finish

end RuleLogic
