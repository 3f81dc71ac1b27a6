import Interchange.Json.Token

/-! # The outline of a JSON text

The value of a text as far as it can be followed, with the place and the token at which it breaks
off. `Outline.ofBytes` computes it from the tokens, one `Outline.step` at a time.

Text is malformed at one place only, since nothing behind it is looked at. Whoever walks the outline
in text order meets that place exactly where a reader of the text would, after everything that
stands before it. What is reported there is `Expecting.error`, and `skipError?` to one who skips the
value.
-/

namespace Interchange.Json

/-- What has to come next when a text breaks off inside an array or an object. -/
inductive Expecting
  /-- An item or the end, right after the opening bracket. -/
  | firstItem
  /-- An item, after a comma. -/
  | item
  /-- A comma or the end of the array. -/
  | itemEnd
  /-- A key or the end, right after the opening brace. -/
  | firstKey
  /-- A key, after a comma. -/
  | key
  | colon (key : Except SyntaxError String)
  /-- A comma or the end of the object. -/
  | memberEnd
  deriving Repr

/-- How an array or an object ends. In `stopped`, `found` is the token that did not fit, `none` the
end of the text. -/
inductive Ending
  | closed
  /-- The text breaks off inside the last item or member. -/
  | cut
  | stopped (expecting : Expecting) (found : Option Token)
  deriving Repr

inductive Outline
  | null
  | bool (b : Bool)
  | number (n : Numeral)
  | string (text : Except SyntaxError String)
  | array (items : List Outline) (ending : Ending)
  | object (members : List (Except SyntaxError String × Outline)) (ending : Ending)
  /-- No value starts here. -/
  | broken (found : Option Token)
  deriving Repr, Inhabited

namespace Outline

/-- A place that waits for a value: after items of an array, or after a key and the members
before it. What was read before comes last first. -/
inductive Frame
  | items (before : List Outline)
  | member (before : List (Except SyntaxError String × Outline)) (key : Except SyntaxError String)

/-- What is read next. Items and members that are complete come last first. -/
inductive State
  | value
  | firstItem
  | item (before : List Outline)
  | itemEnd (before : List Outline)
  | firstKey
  | key (before : List (Except SyntaxError String × Outline))
  | colon (before : List (Except SyntaxError String × Outline)) (key : Except SyntaxError String)
  | memberEnd (before : List (Except SyntaxError String × Outline))

/-- The outline of a text that breaks off in `x`, inside the open places around it. -/
def cutOff (x : Outline) : List Frame → Outline
  | [] => x
  | .items before :: fs => cutOff (.array (x :: before).reverse .cut) fs
  | .member before k :: fs => cutOff (.object ((k, x) :: before).reverse .cut) fs

/-- A single token that is a value. -/
def scalar? : Token → Option Outline
  | .word .null => some .null
  | .word .true => some (.bool true)
  | .word .false => some (.bool false)
  | .number n => some (.number n)
  | .string s => some (.string s)
  | _ => none

/-- The result of one `step`: reading goes on, or the outline is complete. -/
inductive Step
  | more (state : State) (stack : List Frame)
  | done (x : Outline)

/-- Puts a complete value in its place, the innermost `Frame`. -/
def place (x : Outline) : List Frame → Step
  | [] => .done x
  | .items before :: fs => .more (.itemEnd (x :: before)) fs
  | .member before k :: fs => .more (.memberEnd ((k, x) :: before)) fs

def stop (x : Outline) (stack : List Frame) : Step := .done (cutOff x stack)

def startValue (t : Token) (stack : List Frame) : Step :=
  match t with
  | .beginList => .more .firstItem stack
  | .beginObject => .more .firstKey stack
  | t =>
    match scalar? t with
    | some x => place x stack
    | none => stop (.broken (some t)) stack

def step (t : Token) (stack : List Frame) : State → Step
  | .value => startValue t stack
  | .firstItem =>
    match t with
    | .endList => place (.array [] .closed) stack
    | t => startValue t (.items [] :: stack)
  | .item before =>
    match t with
    | .endList => stop (.array before.reverse (.stopped .item (some t))) stack
    | t => startValue t (.items before :: stack)
  | .itemEnd before =>
    match t with
    | .comma => .more (.item before) stack
    | .endList => place (.array before.reverse .closed) stack
    | t => stop (.array before.reverse (.stopped .itemEnd (some t))) stack
  | .firstKey =>
    match t with
    | .endObject => place (.object [] .closed) stack
    | .string k => .more (.colon [] k) stack
    | t => stop (.object [] (.stopped .firstKey (some t))) stack
  | .key before =>
    match t with
    | .string k => .more (.colon before k) stack
    | t => stop (.object before.reverse (.stopped .key (some t))) stack
  | .colon before k =>
    match t with
    | .colon => .more .value (.member before k :: stack)
    | t => stop (.object before.reverse (.stopped (.colon k) (some t))) stack
  | .memberEnd before =>
    match t with
    | .comma => .more (.key before) stack
    | .endObject => place (.object before.reverse .closed) stack
    | t => stop (.object before.reverse (.stopped .memberEnd (some t))) stack

/-- The outline of a text that ends in a given state. -/
def atEnd (stack : List Frame) : State → Outline
  | .value => cutOff (.broken none) stack
  | .firstItem => cutOff (.array [] (.stopped .firstItem none)) stack
  | .item before => cutOff (.array before.reverse (.stopped .item none)) stack
  | .itemEnd before => cutOff (.array before.reverse (.stopped .itemEnd none)) stack
  | .firstKey => cutOff (.object [] (.stopped .firstKey none)) stack
  | .key before => cutOff (.object before.reverse (.stopped .key none)) stack
  | .colon before k => cutOff (.object before.reverse (.stopped (.colon k) none)) stack
  | .memberEnd before => cutOff (.object before.reverse (.stopped .memberEnd none)) stack

/-- Follows the tokens by `step` until the value is complete or one does not fit. -/
def follow (state : State) (stack : List Frame) : List Token → Outline
  | [] => atEnd stack state
  | t :: ts =>
    match step t stack state with
    | .done x => x
    | .more state stack => follow state stack ts

/-- The outline of a text. What stands behind its value is not looked at. -/
def ofBytes (bs : List UInt8) : Outline := follow .value [] (tokens bs)

end Outline

/-! ## What is reported where a text breaks off -/

/-- The error for a token in the place of a value. -/
def Token.valueError : Option Token → SyntaxError
  | none => .endInValue
  | some (.badWord _ true) => .endInValue
  | some (.badWord _ false) => .expectedWord
  | some (.badNumber true) => .endInValue
  | some (.badNumber false) => .invalidNumber
  | some (.badString reading _) => reading
  | some _ => .expectedValue

/-- The same as `Token.valueError` for one who skips, who takes no notice of where a number breaks
off. -/
def Token.skippedValueError : Option Token → SyntaxError
  | some (.badNumber _) => .invalidNumber
  | some (.badString _ skipping) => skipping
  | found => Token.valueError found

/-- The error for a token that does not fit in an array or an object that is read. -/
def Expecting.error : Expecting → Option Token → SyntaxError
  | .firstItem, none => .endInList
  | .firstItem, found => Token.valueError found
  | .item, some .endList => .trailingComma
  | .item, found => Token.valueError found
  | .itemEnd, none => .endInList
  | .itemEnd, some _ => .expectedListEnd
  | .firstKey, none => .endInObject
  | .key, none => .endInValue
  | .key, some .endObject => .trailingComma
  | .firstKey, some (.badString reading _) | .key, some (.badString reading _) => reading
  | .firstKey, some _ | .key, some _ => .keyNotString
  | .colon _, none => .endInObject
  | .colon _, some _ => .expectedColon
  | .memberEnd, none => .endInObject
  | .memberEnd, some _ => .expectedObjectEnd

/-- The same as `Expecting.error` for an array or an object that is skipped. -/
def Expecting.skippedError : Expecting → Option Token → SyntaxError
  | .item, some .endList => .expectedValue
  | .item, found => Token.skippedValueError found
  | .key, none => .endInObject
  | .key, some .endObject => .keyNotString
  | .firstKey, some (.badString _ skipping) | .key, some (.badString _ skipping) => skipping
  | e, found => e.error found

namespace Outline

mutual

/-- What one who skips the value reports, if the text breaks off in it. -/
def skipError? : Outline → Option SyntaxError
  | .array items ending => skipEnding ending (skipItems items)
  | .object members ending => skipEnding ending (skipMembers members)
  | .broken found => some (Token.skippedValueError found)
  | _ => none

def skipEnding : Ending → Option SyntaxError → Option SyntaxError
  | .closed, _ => none
  | .cut, inner => inner
  | .stopped e found, _ => some (e.skippedError found)

def skipItems : List Outline → Option SyntaxError
  | [] => none
  | [x] => skipError? x
  | _ :: x :: xs => skipItems (x :: xs)

def skipMembers : List (Except SyntaxError String × Outline) → Option SyntaxError
  | [] => none
  | [(_, x)] => skipError? x
  | _ :: m :: ms => skipMembers (m :: ms)

end

end Outline

end Interchange.Json
