import Interchange.Json.Numeral

/-! # Splitting JSON text into tokens

Text is given as bytes, and `tokens` splits it. A token that breaks off is a token of its own kind
(`badWord`, `badNumber`, `badString`), which remembers what a reader of the value has to report and,
where it differs, what one who only skips it reports.
-/

namespace Interchange.Json

inductive Word
  | null | true | false
  deriving Repr, DecidableEq

inductive Token
  | beginList | endList | beginObject | endObject | colon | comma
  | word (w : Word)
  | number (n : Numeral)
  /-- A closed string; reading may still find fault with its content. -/
  | string (text : Except SyntaxError String)
  | badWord (w : Word) (atEnd : Bool)
  | badNumber (atEnd : Bool)
  | badString (reading skipping : SyntaxError)
  /-- A byte that starts no token. -/
  | other
  deriving Repr

namespace Token

def isBlank (c : UInt8) : Bool := c == 0x20 || c == 0x09 || c == 0x0a || c == 0x0d

def isDigit (c : UInt8) : Bool := 0x30 ≤ c && c ≤ 0x39

def digitValue (c : UInt8) : Nat := c.toNat - 0x30

/-- The digits at the front of a text, and the rest of it. -/
def digits (bs : List UInt8) : List Nat × List UInt8 :=
  ((bs.takeWhile isDigit).map digitValue, bs.dropWhile isDigit)

/-! ## Words and numbers -/

/-- The rest of a word whose first letter has been read. -/
def word? (w : Word) : List UInt8 → List UInt8 → Token × List UInt8
  | [], bs => (.word w, bs)
  | _ :: _, [] => (.badWord w true, [])
  | e :: es, b :: bs => if b = e then word? w es bs else (.badWord w false, bs)

def exponentPart (n : Numeral) (bs : List UInt8) : Token × List UInt8 :=
  match bs with
  | [] => (.number n, [])
  | c :: cs =>
    if c = 0x65 ∨ c = 0x45 then
      let (neg, cs) :=
        match cs with
        | s :: cs' => if s = 0x2d then (true, cs') else if s = 0x2b then (false, cs') else (false, s :: cs')
        | [] => (false, [])
      match digits cs with
      | ([], rest) => (.badNumber rest.isEmpty, rest)
      | (ds, rest) => (.number { n with exponent := some (neg, ds) }, rest)
    else (.number n, c :: cs)

def fractionPart (n : Numeral) (bs : List UInt8) : Token × List UInt8 :=
  match bs with
  | [] => (.number n, [])
  | c :: cs =>
    if c = 0x2e then
      match digits cs with
      | ([], rest) => (.badNumber rest.isEmpty, rest)
      | (ds, rest) => exponentPart { n with fraction := some ds } rest
    else exponentPart n (c :: cs)

/-- A number after its sign. A leading zero stands alone. -/
def numeral (neg : Bool) (bs : List UInt8) : Token × List UInt8 :=
  match digits bs with
  | ([], rest) => (.badNumber rest.isEmpty, rest)
  | (0 :: _ :: _, rest) => (.badNumber false, rest)
  | (ds, rest) => fractionPart ⟨neg, ds, none, none⟩ rest

/-! ## Strings -/

def hexValue (c : UInt8) : Option Nat :=
  if 0x30 ≤ c ∧ c ≤ 0x39 then some (c.toNat - 0x30)
  else if 0x41 ≤ c ∧ c ≤ 0x46 then some (c.toNat - 0x41 + 10)
  else if 0x61 ≤ c ∧ c ≤ 0x66 then some (c.toNat - 0x61 + 10)
  else none

/-- The four hex digits of an escape. -/
def hexEscape : List UInt8 → Except SyntaxError Nat
  | a :: b :: c :: d :: _ =>
    match hexValue a, hexValue b, hexValue c, hexValue d with
    | some a, some b, some c, some d => .ok (((a * 16 + b) * 16 + c) * 16 + d)
    | _, _, _, _ => .error .invalidEscape
  | _ => .error .endInString

/-- What the four digits of `hexEscape` are: a character, or one half of a surrogate pair. -/
inductive CodeUnit
  | scalar (n : Nat)
  | leading (n : Nat)
  | trailing (n : Nat)

def CodeUnit.ofNat (n : Nat) : CodeUnit :=
  if n < 0xd800 ∨ 0xdfff < n then .scalar n else if n < 0xdc00 then .leading n else .trailing n

/-- The character of a surrogate pair, from the values of its two halves. -/
def pairValue (leading trailing : Nat) : Nat :=
  (leading - 0xd800) * 0x400 + (trailing - 0xdc00) + 0x10000

/-- The trailing half of a surrogate pair, which must follow its leading half at once. -/
def trailingHalf : List UInt8 → Except SyntaxError Nat
  | [] => .error .endInString
  | s :: bs =>
    if s ≠ 0x5c then .error .brokenSurrogatePair
    else match bs with
      | [] => .error .endInString
      | u :: bs =>
        if u ≠ 0x75 then .error .brokenSurrogatePair
        else match hexEscape bs with
          | .error e => .error e
          | .ok n =>
            match CodeUnit.ofNat n with
            | .trailing n => .ok n
            | _ => .error .unpairedSurrogate

/-- Escapes of one letter. -/
def shortEscape (c : UInt8) : Option UInt8 :=
  if c = 0x22 ∨ c = 0x5c ∨ c = 0x2f then some c
  else if c = 0x62 then some 0x08
  else if c = 0x66 then some 0x0c
  else if c = 0x6e then some 0x0a
  else if c = 0x72 then some 0x0d
  else if c = 0x74 then some 0x09
  else none

def encode (n : Nat) : List UInt8 := String.utf8EncodeChar (Char.ofNat n)

/-- The content of a string, from its bytes last first and the first fault met in it. -/
def content (bytes : List UInt8) : Option SyntaxError → Except SyntaxError String
  | some e => .error e
  | none =>
    match String.fromUTF8? ⟨bytes.reverse.toArray⟩ with
    | some s => .ok s
    | none => .error .invalidCodePoint

/-- A string that breaks off with `e`; a reader reports the first fault met before. -/
def cutString (fault : Option SyntaxError) (e : SyntaxError) : Token × List UInt8 :=
  (.badString (fault.getD e) e, [])

/-- A string after its opening quote. A misused surrogate is a fault only to one who reads the
string, so the scan goes on behind it. -/
def scanString (bytes : List UInt8) (fault : Option SyntaxError) (bs : List UInt8) : Token × List UInt8 :=
  match bs with
  | [] => cutString fault .endInString
  | c :: cs =>
    if c = 0x22 then (.string (content bytes fault), cs)
    else if c = 0x5c then
      match cs with
      | [] => cutString fault .endInString
      | e :: cs =>
        match shortEscape e with
        | some b => scanString (b :: bytes) fault cs
        | none =>
          if e = 0x75 then
            match hexEscape cs with
            | .error err => cutString fault err
            | .ok n =>
              match CodeUnit.ofNat n with
              | .scalar n => scanString ((encode n).reverse ++ bytes) fault (cs.drop 4)
              | .trailing _ => scanString bytes (fault <|> some .unpairedSurrogate) (cs.drop 4)
              | .leading n =>
                match trailingHalf (cs.drop 4) with
                | .ok n' => scanString ((encode (pairValue n n')).reverse ++ bytes) fault (cs.drop 10)
                | .error err => scanString bytes (fault <|> some err) (cs.drop 4)
          else cutString fault .invalidEscape
    else if c < 0x20 then cutString fault .controlCharacter
    else scanString (c :: bytes) fault cs
termination_by bs.length
decreasing_by all_goals simp <;> omega

/-! ## The token stream -/

/-- The token that starts with `c`, which is no blank, and the text behind it. -/
def next (c : UInt8) (cs : List UInt8) : Token × List UInt8 :=
  if c = 0x5b then (.beginList, cs)
  else if c = 0x5d then (.endList, cs)
  else if c = 0x7b then (.beginObject, cs)
  else if c = 0x7d then (.endObject, cs)
  else if c = 0x3a then (.colon, cs)
  else if c = 0x2c then (.comma, cs)
  else if c = 0x22 then scanString [] none cs
  else if c = 0x6e then word? .null [0x75, 0x6c, 0x6c] cs
  else if c = 0x74 then word? .true [0x72, 0x75, 0x65] cs
  else if c = 0x66 then word? .false [0x61, 0x6c, 0x73, 0x65] cs
  else if c = 0x2d then numeral true cs
  else if isDigit c then numeral false (c :: cs)
  else (.other, cs)

theorem length_digits_le (bs : List UInt8) : (digits bs).2.length ≤ bs.length :=
  (List.dropWhile_suffix isDigit).length_le

theorem length_word?_le (w : Word) (es bs : List UInt8) : (word? w es bs).2.length ≤ bs.length := by
  fun_induction word? w es bs <;> simp
  omega

theorem length_exponentPart_le (n : Numeral) (bs : List UInt8) :
    (exponentPart n bs).2.length ≤ bs.length := by
  unfold exponentPart
  split
  · simp
  · rename_i c cs
    split
    · generalize hs : (match cs with
        | s :: cs' => if s = 0x2d then (true, cs') else if s = 0x2b then (false, cs') else (false, s :: cs')
        | [] => (false, [])) = signed
      have hle : signed.2.length ≤ cs.length := by
        rw [← hs]
        split
        · split
          · simp
          · split <;> simp
        · simp
      have hd := length_digits_le signed.2
      obtain ⟨neg, rest⟩ := signed
      simp only
      split <;> rename_i heq <;> rw [heq] at hd <;> simp at * <;> omega
    · simp

theorem length_fractionPart_le (n : Numeral) (bs : List UInt8) :
    (fractionPart n bs).2.length ≤ bs.length := by
  unfold fractionPart
  split
  · simp
  · rename_i c cs
    have hd := length_digits_le cs
    split
    · split
      · rename_i heq
        rw [heq] at hd
        simp at *
        omega
      · rename_i ds rest _ heq
        rw [heq] at hd
        have := length_exponentPart_le { n with fraction := some ds } rest
        simp at *
        omega
    · exact length_exponentPart_le _ _

/-- Reading a number takes its first `digits` at least. -/
theorem length_numeral_le_digits (neg : Bool) (bs : List UInt8) :
    (numeral neg bs).2.length ≤ (digits bs).2.length := by
  unfold numeral
  split <;> rename_i heq
  · exact Nat.le_of_eq (by rw [heq])
  · exact Nat.le_of_eq (by rw [heq])
  · exact heq ▸ length_fractionPart_le _ _

theorem length_scanString_le (bytes : List UInt8) (fault : Option SyntaxError) (bs : List UInt8) :
    (scanString bytes fault bs).2.length ≤ bs.length := by
  fun_induction scanString bytes fault bs <;> simp [cutString] at * <;> omega

theorem length_next_le (c : UInt8) (cs : List UInt8) : (next c cs).2.length ≤ cs.length := by
  have hneg := Nat.le_trans (length_numeral_le_digits true cs) (length_digits_le cs)
  have hpos : isDigit c = true → (numeral false (c :: cs)).2.length ≤ cs.length := fun h =>
    Nat.le_trans (length_numeral_le_digits false (c :: cs)) (by
      simpa [digits, h] using length_digits_le cs)
  unfold next
  repeat'
    refine iteInduction (motive := fun r : Token × List UInt8 => r.2.length ≤ cs.length)
      (fun h => ?_) (fun h => ?_)
  all_goals first
    | exact Nat.le_refl _
    | exact length_scanString_le _ _ _
    | exact length_word?_le _ _ _
    | exact hneg
    | exact hpos (by assumption)

end Token

/-- The tokens of a text. -/
def tokens (bs : List UInt8) : List Token :=
  match bs with
  | [] => []
  | c :: cs => if Token.isBlank c then tokens cs else (Token.next c cs).1 :: tokens (Token.next c cs).2
termination_by bs.length
decreasing_by
  · simp
  · have := Token.length_next_le c cs
    simp
    omega

end Interchange.Json
