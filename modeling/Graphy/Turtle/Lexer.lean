import Graphy.Turtle.Parser

/-!
# The tokenizer

One tokenizer serves every format.  It looks at the bytes it has not consumed yet and
gives a token, an error, or asks for more input where the bytes end inside a token that
may still grow.
-/

namespace Graphy.Turtle

/-- How scanning a token goes; an error counts its bytes from the token's start. -/
inductive Scan (α : Type) where
  | needMore
  | error (off : Nat) (message : String)
  | done (a : α)
deriving DecidableEq, Repr

namespace Scan

variable {α β : Type}

def andThen (m : Scan α) (f : α → Scan β) : Scan β :=
  match m with
  | .needMore => .needMore
  | .error off message => .error off message
  | .done a => f a

instance : Monad Scan where
  pure := .done
  bind := andThen

/-- The bytes end: an error at the end of the input, else more may come. -/
def ended (eof : Bool) (off : Nat) (message : String) : Scan α :=
  if eof then .error off message else .needMore

@[simp] theorem pure_eq (a : α) : (pure a : Scan α) = .done a := rfl

@[simp] theorem done_bind (a : α) (f : α → Scan β) : (Scan.done a >>= f) = f a := rfl

theorem bind_done {m : Scan α} {f : α → Scan β} {b : β} (h : (m >>= f) = .done b) :
    ∃ a, m = .done a ∧ f a = .done b := by
  cases m with
  | needMore => cases h
  | error off message => cases h
  | done a => exact ⟨a, rfl, h⟩

@[simp] theorem ended_ne_done (eof : Bool) (off : Nat) (message : String) (a : α) :
    (ended eof off message : Scan α) ≠ .done a := by
  unfold ended
  split <;> simp

end Scan

/-! ## Characters -/

/-- Width of the character that a byte opens. -/
def charWidth (b : UInt8) : Option Nat :=
  if b < 0x80 then some 1
  else if 0xC0 ≤ b ∧ b ≤ 0xDF then some 2
  else if 0xE0 ≤ b ∧ b ≤ 0xEF then some 3
  else if 0xF0 ≤ b ∧ b ≤ 0xF7 then some 4
  else none

/-- Decode the character the bytes open with, `off` bytes into the token. -/
def charAt (eof : Bool) (off : Nat) (bytes : Bytes) : Scan (Char × Nat) :=
  match bytes.head?.bind charWidth with
  | none => .error off "invalid UTF-8"
  | some width =>
      if bytes.length < width then .ended eof off "invalid UTF-8"
      else
        match utf8 (bytes.take width) with
        | .ok s => .done (s.toList.headD '\x00', width)
        | .error _ => .error off "invalid UTF-8"

/-- Text the scan has checked to be UTF-8. -/
def textOf (bytes : Bytes) : String := (utf8 bytes).toOption.getD ""

def isAsciiAlphabeticByte (b : UInt8) : Bool :=
  decide (0x41 ≤ b ∧ b ≤ 0x5A) || decide (0x61 ≤ b ∧ b ≤ 0x7A)

def isAsciiDigitByte (b : UInt8) : Bool := decide (0x30 ≤ b ∧ b ≤ 0x39)

def isAsciiAlphanumericByte (b : UInt8) : Bool := isAsciiAlphabeticByte b || isAsciiDigitByte b

def isAsciiHexdigitByte (b : UInt8) : Bool :=
  isAsciiDigitByte b || decide (0x41 ≤ b ∧ b ≤ 0x46) || decide (0x61 ≤ b ∧ b ≤ 0x66)

/-- Bytes forbidden in an IRI reference: controls, the space and some punctuation. -/
def isForbiddenIriByte (b : UInt8) : Bool :=
  decide (b ≤ 0x20) || [0x3C, 0x3E, 0x22, 0x7B, 0x7D, 0x7C, 0x5E, 0x60, 0x5C].contains b

/-- Characters that a local name escapes. -/
def isPnLocalEsc (b : UInt8) : Bool :=
  [0x5F, 0x7E, 0x2E, 0x2D, 0x21, 0x24, 0x26, 0x27, 0x28, 0x29, 0x2A, 0x2B, 0x2C, 0x3B, 0x3D, 0x2F,
    0x3F, 0x23, 0x40, 0x25].contains b

/-- A character as error messages show it; a character beyond ASCII is always shown as it is. -/
def debugChar (c : Char) : String :=
  if c = '\t' then "'\\t'"
  else if c = '\n' then "'\\n'"
  else if c = '\r' then "'\\r'"
  else if c = '\x00' then "'\\0'"
  else if c = '\'' then "'\\''"
  else if c = '\\' then "'\\\\'"
  else if c.toNat < 0x20 ∨ c = '\x7f' then
    "'\\u\x7b" ++ String.ofList (Nat.toDigits 16 c.toNat) ++ "\x7d'"
  else "'" ++ c.toString ++ "'"

/-! ## Escapes -/

/-- The character of the first `n` hexadecimal digits. -/
def hexChar (n : Nat) (s : List Char) : Option (Char × Nat) :=
  let digits := s.take n
  let v := digits.foldl (fun v c => v * 16 + (Iri.digitValue 16 c).getD 0) 0
  if digits.length = n ∧ digits.all isAsciiHexdigit ∧ v.isValidChar then
    some (Char.ofNat v, 2 + n)
  else none

/-- `\uXXXX` and `\UXXXXXXXX`: the character and what it takes. -/
def decodeUchar : List Char → Option (Char × Nat)
  | '\\' :: 'u' :: s => hexChar 4 s
  | '\\' :: 'U' :: s => hexChar 8 s
  | _ => none

/-- The single-character escapes of strings. -/
def decodeEchar : List Char → Option (Char × Nat)
  | '\\' :: 't' :: _ => some ('\t', 2)
  | '\\' :: 'b' :: _ => some ('\x08', 2)
  | '\\' :: 'n' :: _ => some ('\n', 2)
  | '\\' :: 'r' :: _ => some ('\r', 2)
  | '\\' :: 'f' :: _ => some ('\x0c', 2)
  | '\\' :: '"' :: _ => some ('"', 2)
  | '\\' :: '\'' :: _ => some ('\'', 2)
  | '\\' :: '\\' :: _ => some ('\\', 2)
  | _ => none

/-- Decode the escapes of some text that begins `off` bytes into the token. -/
def unescape (escape : List Char → Except String (Char × Nat)) (off : Nat) :
    List Char → Scan (List Char)
  | [] => .done []
  | c :: s =>
      if c = '\\' then
        match escape (c :: s) with
        | .error message => .error off message
        | .ok (d, used) => do
            let rest ← unescape escape (off + used) (s.drop (used - 1))
            return d :: rest
      else do
        let rest ← unescape escape (off + c.utf8Size) s
        return c :: rest
termination_by s => s.length
decreasing_by
  all_goals simp only [List.length_cons, List.length_drop]
  all_goals omega

def iriEscape (s : List Char) : Except String (Char × Nat) :=
  match decodeUchar s with
  | none => .error "invalid \\u escape in IRI"
  | some (c, used) =>
      if c.toNat < 0x80 ∧ isForbiddenIriByte (UInt8.ofNat c.toNat) = true then
        .error s!"escape encodes {debugChar c}, not allowed in IRI"
      else .ok (c, used)

def stringEscape (s : List Char) : Except String (Char × Nat) :=
  match (decodeEchar s).or (decodeUchar s) with
  | none => .error "invalid string escape"
  | some r => .ok r

/-! ## IRIs -/

/-- First byte of the content that an untrusted IRI may not hold. -/
def forbiddenAt (trusted : Bool) (content : Bytes) : Option Nat :=
  if trusted then none else content.findIdx? fun b => b != 0x5C && isForbiddenIriByte b

def lexIriref (eof trusted : Bool) (bytes : Bytes) : Scan (Nat × Token) :=
  match (bytes.drop 1).idxOf? 0x3E with
  | none => .ended eof 0 "unterminated IRI"
  | some gt =>
      let content := (bytes.drop 1).take gt
      match forbiddenAt trusted content with
      | some i => .error (1 + i)
          s!"character {debugChar (Char.ofNat ((content.getD i 0).toNat))} not allowed in IRI"
      | none =>
          match utf8 content with
          | .error _ => .error 1 "invalid UTF-8 in IRI"
          | .ok s => do
              let text ← unescape iriEscape 1 s.toList
              return (gt + 2, .iri (String.ofList text))

def lexLt (eof trusted : Bool) (bytes : Bytes) : Scan (Nat × Token) :=
  match bytes[1]? with
  | none => if eof then lexIriref eof trusted bytes else .needMore
  | some b =>
      if b = 0x3C then
        match bytes[2]? with
        | none => if eof then .done (2, .ltLt) else .needMore
        | some c => if c = 0x28 then .done (3, .ltLtParen) else .done (2, .ltLt)
      else lexIriref eof trusted bytes

/-! ## Strings -/

/-- Find the quote that closes a short string; `k` bytes of the token are behind.  Gives its
place and whether an escape came before it. -/
def scanShort (eof trusted : Bool) (q : UInt8) (k : Nat) (escaped : Bool) :
    Bytes → Scan (Nat × Bool)
  | [] => .ended eof 0 "unterminated string"
  | b :: rest =>
      if b = q then .done (k, escaped)
      else if b = 0x5C then
        match rest with
        | [] => .ended eof k "unterminated escape"
        | _ :: rest => scanShort eof trusted q (k + 2) true rest
      else if b = 0x0A ∧ trusted = false then .error k "newline in single-line string"
      else scanShort eof trusted q (k + 1) escaped rest

/-- Whether an odd run of backslashes stands before the byte. -/
def isEscapedAt (content : Bytes) (i : Nat) : Bool :=
  decide (((content.take i).reverse.takeWhile (· == 0x5C)).length % 2 = 1)

/-- Check and decode the content, which begins `off` bytes into the token. -/
def finishStringContent (off : Nat) (content : Bytes) : Scan String :=
  match utf8 content with
  | .error _ => .error off "invalid UTF-8 in string"
  | .ok s => do
      let text ← unescape stringEscape off s.toList
      return String.ofList text

def lexShortString (eof trusted : Bool) (q : UInt8) (bytes : Bytes) : Scan (Nat × Token) := do
  let (ce, escaped) ← scanShort eof trusted q 1 false (bytes.drop 1)
  let content := (bytes.drop 1).take (ce - 1)
  let finish := do
    let text ← finishStringContent 1 content
    return (ce + 1, .string text false (q == 0x27))
  match if trusted then none else content.idxOf? 0x0D with
  | none => finish
  | some r =>
      if escaped && isEscapedAt content r then finish
      else .error (1 + r) "carriage return in single-line string"

/-- Find the three quotes that close a long string. -/
def scanLong (eof : Bool) (q : UInt8) (k : Nat) (bytes : Bytes) : Scan Nat :=
  match bytes with
  | [] => .ended eof 0 "unterminated long string"
  | b :: rest =>
      if b = 0x5C then
        match rest with
        | [] => .ended eof k "unterminated escape"
        | _ :: rest => scanLong eof q (k + 2) rest
      else if b = q then
        let run := 1 + (rest.takeWhile (· == q)).length
        if run = bytes.length ∧ eof = false then .needMore
        else if 3 < run then .error k "long string content may not end with unescaped quotes"
        else if run = 3 then .done k
        else scanLong eof q (k + run) (rest.drop (run - 1))
      else scanLong eof q (k + 1) rest
termination_by bytes.length
decreasing_by
  all_goals simp only [List.length_cons, List.length_drop]
  all_goals omega

def lexLongString (eof : Bool) (q : UInt8) (bytes : Bytes) : Scan (Nat × Token) := do
  let ce ← scanLong eof q 3 (bytes.drop 3)
  let text ← finishStringContent 3 ((bytes.drop 3).take (ce - 3))
  return (ce + 3, .string text true (q == 0x27))

def lexString (eof trusted : Bool) (q : UInt8) (bytes : Bytes) : Scan (Nat × Token) :=
  match bytes[1]?, bytes[2]? with
  | some b, some c =>
      if b = q then
        if c = q then lexLongString eof q bytes else .done (2, .string "" false (q == 0x27))
      else lexShortString eof trusted q bytes
  | some b, none =>
      if b = q then if eof then .done (2, .string "" false (q == 0x27)) else .needMore
      else lexShortString eof trusted q bytes
  | none, _ => .ended eof 0 "unterminated string"

/-! ## Blank nodes -/

/-- The rest of a label: characters of names and dots, none of them last.  `stop` is the end
after the last character that may end it. -/
def scanLabel (eof : Bool) (i stop : Nat) (bytes : Bytes) : Scan Nat :=
  match bytes with
  | [] => if eof then .done stop else .needMore
  | b :: rest =>
      if b = 0x2E then scanLabel eof (i + 1) stop rest
      else
        match charAt eof i (b :: rest) with
        | .needMore => .needMore
        | .error off message => .error off message
        | .done (c, w) =>
            if isPnChars c then scanLabel eof (i + w) (i + w) (rest.drop (w - 1)) else .done stop
termination_by bytes.length
decreasing_by
  all_goals simp only [List.length_cons, List.length_drop]
  all_goals omega

def lexBlank (eof : Bool) (bytes : Bytes) : Scan (Nat × Token) :=
  match bytes[1]? with
  | none => .ended eof 0 "expected '_:'"
  | some b =>
      if b ≠ 0x3A then .error 0 "expected '_:'"
      else if bytes.drop 2 = [] then .ended eof 0 "blank node label required"
      else do
        let (c, w) ← charAt eof 2 (bytes.drop 2)
        if isPnCharsU c || isAsciiDigit c then do
          let stop ← scanLabel eof (2 + w) (2 + w) (bytes.drop (2 + w))
          return (stop, .blankLabel (textOf ((bytes.take stop).drop 2)))
        else .error 2 "invalid blank node label start"

/-! ## Language tags and directives -/

def tooLong : String := "language tag subtag longer than 8 characters"

/-- Subtags, then perhaps a base direction; gives the end of the token, the end of the tag
and the direction. -/
def scanSubtags (eof : Bool) (i : Nat) (bytes : Bytes) : Scan (Nat × Nat × Option Dir) :=
  match bytes with
  | [] => .done (i, i, none)
  | b :: rest =>
      if b ≠ 0x2D then .done (i, i, none)
      else
        match rest with
        | [] => if eof then .done (i, i, none) else .needMore
        | c :: rest' =>
            if c = 0x2D then
              let letters := rest'.takeWhile isAsciiAlphabeticByte
              if letters.length = rest'.length ∧ eof = false then .needMore
              else if letters = strBytes "ltr" then .done (i + 2 + letters.length, i, some .ltr)
              else if letters = strBytes "rtl" then .done (i + 2 + letters.length, i, some .rtl)
              else .error i "base direction must be --ltr or --rtl"
            else if isAsciiAlphanumericByte c then
              let sub := (c :: rest').takeWhile isAsciiAlphanumericByte
              if sub.length = (c :: rest').length ∧ eof = false then .needMore
              else if 8 < sub.length then .error (i + 1) tooLong
              else scanSubtags eof (i + 1 + sub.length) ((c :: rest').drop sub.length)
            else .done (i, i, none)
termination_by bytes.length
decreasing_by
  all_goals simp only [List.length_cons, List.length_drop]
  all_goals omega

/-- The directive that a word after `@` spells. -/
def directiveAt (primary : Bytes) : Option Token :=
  if primary = strBytes "prefix" then some .kwPrefixAt
  else if primary = strBytes "base" then some .kwBaseAt
  else if primary = strBytes "version" then some .kwVersionAt
  else none

/-- A language tag behind its primary part. -/
def lexTag (eof : Bool) (bytes primary : Bytes) : Scan (Nat × Token) :=
  if 8 < primary.length then .error 0 tooLong
  else do
    let (stop, tagEnd, dir) ← scanSubtags eof (1 + primary.length) (bytes.drop (1 + primary.length))
    return (stop, .langTag (textOf ((bytes.take tagEnd).drop 1)) dir)

def lexAt (eof : Bool) (bytes : Bytes) : Scan (Nat × Token) :=
  let primary := (bytes.drop 1).takeWhile isAsciiAlphabeticByte
  let i := 1 + primary.length
  if i = bytes.length ∧ eof = false then .needMore
  else if primary = [] then .error 0 "expected language tag or directive after '@'"
  else
    match if bytes[i]? = some 0x2D then none else directiveAt primary with
    | some t => .done (i, t)
    | none => lexTag eof bytes primary

/-! ## Numbers -/

/-- Digits from `i`, and whether the bytes end with them. -/
def digitsAt (bytes : Bytes) (i : Nat) : Nat := ((bytes.drop i).takeWhile isAsciiDigitByte).length

/-- Width of the sign at `i`, if there is one. -/
def signAt (bytes : Bytes) (i : Nat) : Nat :=
  if bytes[i]? = some 0x2B ∨ bytes[i]? = some 0x2D then 1 else 0

/-- The end of an exponent that begins at `e`. -/
def scanExponent (eof : Bool) (bytes : Bytes) (e : Nat) : Scan Nat :=
  let ds := e + 1 + signAt bytes (e + 1)
  let i := ds + digitsAt bytes ds
  if i = bytes.length ∧ eof = false then .needMore
  else if i = ds then .error e "invalid exponent"
  else .done i

def isExponentMark (b : Option UInt8) : Bool := b == some 0x65 || b == some 0x45

def lexNumber (eof : Bool) (bytes : Bytes) : Scan (Nat × Token) :=
  let ds := signAt bytes 0
  let d := digitsAt bytes ds
  let i := ds + d
  let upTo (n : Nat) := textOf (bytes.take n)
  if i = bytes.length ∧ eof = false then .needMore
  else if bytes[i]? = some 0x2E then
    let d2 := digitsAt bytes (i + 1)
    let j := i + 1 + d2
    if j = bytes.length ∧ eof = false then .needMore
    else if isExponentMark bytes[j]? ∧ 0 < d + d2 then do
      let stop ← scanExponent eof bytes j
      return (stop, .double (upTo stop))
    else if 0 < d2 then .done (j, .decimal (upTo j))
    -- the dot ends the statement
    else if 0 < d then .done (i, .integer (upTo i))
    else .error 0 "invalid number"
  else if isExponentMark bytes[i]? ∧ 0 < d then do
    let stop ← scanExponent eof bytes i
    return (stop, .double (upTo stop))
  else if 0 < d then .done (i, .integer (upTo i))
  else .error 0 "invalid number"

/-! ## Bare words and prefixed names -/

/-- A local name from `i`; `stop` is the end after the last character that may end it and
`text` what it says so far, in reverse, up to that end. -/
def scanLocal (eof : Bool) (i stop : Nat) (first : Bool) (dots text : Bytes) (bytes : Bytes) :
    Scan (Nat × Bytes) :=
  match bytes with
  | [] => if eof then .done (stop, text) else .needMore
  | b :: rest =>
      if b = 0x25 then
        match rest with
        | x :: y :: rest' =>
            if isAsciiHexdigitByte x && isAsciiHexdigitByte y then
              scanLocal eof (i + 3) (i + 3) false [] (text ++ dots ++ [b, x, y]) rest'
            else .error i "invalid %-sequence in local name"
        | _ => .ended eof i "invalid %-sequence in local name"
      else if b = 0x5C then
        match rest with
        | [] => .ended eof i "invalid escape in local name"
        | x :: rest' =>
            if isPnLocalEsc x then
              scanLocal eof (i + 2) (i + 2) false [] (text ++ dots ++ [x]) rest'
            else .error i "invalid escape in local name"
      else if b = 0x3A then scanLocal eof (i + 1) (i + 1) false [] (text ++ dots ++ [b]) rest
      else if b = 0x2E ∧ first = false then
        scanLocal eof (i + 1) stop false (dots ++ [b]) text rest
      else
        match charAt eof i (b :: rest) with
        | .needMore => .needMore
        | .error off message => .error off message
        | .done (c, w) =>
            if (first && (isPnCharsU c || isAsciiDigit c)) || (!first && isPnChars c) then
              scanLocal eof (i + w) (i + w) false []
                (text ++ dots ++ (b :: rest).take w) (rest.drop (w - 1))
            else .done (stop, text)
termination_by bytes.length
decreasing_by
  all_goals simp only [List.length_cons, List.length_drop]
  all_goals omega

/-- The rest of a prefix; gives where the scan stopped and the end after the last character
that may end it. -/
def scanPrefix (eof : Bool) (i stop : Nat) (bytes : Bytes) : Scan (Nat × Nat) :=
  match bytes with
  | [] => if eof then .done (i, stop) else .needMore
  | b :: rest =>
      if b = 0x2E then scanPrefix eof (i + 1) stop rest
      else if b = 0x3A then .done (i, stop)
      else
        match charAt eof i (b :: rest) with
        | .needMore => .needMore
        | .error off message => .error off message
        | .done (c, w) =>
            if isPnChars c then scanPrefix eof (i + w) (i + w) (rest.drop (w - 1))
            else .done (i, stop)
termination_by bytes.length
decreasing_by
  all_goals simp only [List.length_cons, List.length_drop]
  all_goals omega

/-- The keyword that a bare word spells. -/
def keyword (word : String) : Option Token :=
  if word = "a" then some .kwA
  else if word = "true" then some .kwTrue
  else if word = "false" then some .kwFalse
  else if word.toLower = "prefix" then some .kwPrefixSparql
  else if word.toLower = "base" then some .kwBaseSparql
  else if word.toLower = "graph" then some .kwGraph
  else if word.toLower = "version" then some .kwVersionSparql
  else none

def lexPname (eof : Bool) (bytes : Bytes) (colon : Nat) : Scan (Nat × Token) := do
  let (stop, text) ← scanLocal eof (colon + 1) (colon + 1) true [] [] (bytes.drop (colon + 1))
  return (stop, .pname (textOf (bytes.take colon)) (textOf text))

def lexWord (eof : Bool) (bytes : Bytes) : Scan (Nat × Token) :=
  if bytes.head? = some 0x3A then lexPname eof bytes 0
  else do
    let (c, w) ← charAt eof 0 bytes
    if isPnCharsBase c then do
      let (i, stop) ← scanPrefix eof w w (bytes.drop w)
      if bytes[i]? = some 0x3A ∧ i = stop then lexPname eof bytes i
      else
        match keyword (textOf (bytes.take stop)) with
        | some t => .done (stop, t)
        | none => .error stop "expected ':' after prefix"
    else .error 0 s!"unexpected character {debugChar c}"

/-! ## Tokens -/

/-- A token of two bytes, or of its first byte alone. -/
def lexPair (eof : Bool) (bytes : Bytes) (second : UInt8) (both : Token)
    (alone : Scan (Nat × Token)) : Scan (Nat × Token) :=
  match bytes[1]? with
  | none => if eof then alone else .needMore
  | some b => if b = second then .done (2, both) else alone

/-- A dot, or a number that begins with one. -/
def lexDot (eof : Bool) (bytes : Bytes) : Scan (Nat × Token) :=
  match bytes[1]? with
  | none => if eof then .done (1, .dot) else .needMore
  | some b => if isAsciiDigitByte b then lexNumber eof bytes else .done (1, .dot)

def lexRParen (eof : Bool) (bytes : Bytes) : Scan (Nat × Token) :=
  match bytes[1]?, bytes[2]? with
  | some b, some c => .done (if b = 0x3E ∧ c = 0x3E then (3, .rParenGtGt) else (1, .rParen))
  | some b, none => if b = 0x3E ∧ eof = false then .needMore else .done (1, .rParen)
  | none, _ => if eof then .done (1, .rParen) else .needMore

/-- What the first byte of a token tells. -/
inductive Opening where
  | lt
  | quote
  | underscore
  | atSign
  | number
  | dot
  | rParen
  | lBrace
  | bar
  | caret
  | gt
  /-- The byte is a token of its own. -/
  | punct (t : Token)
  | word
deriving DecidableEq, Repr

def opening (b : UInt8) : Opening :=
  if b = 0x3C then .lt
  else if b = 0x22 ∨ b = 0x27 then .quote
  else if b = 0x5F then .underscore
  else if b = 0x40 then .atSign
  else if isAsciiDigitByte b ∨ b = 0x2B ∨ b = 0x2D then .number
  else if b = 0x2E then .dot
  else if b = 0x3B then .punct .semicolon
  else if b = 0x2C then .punct .comma
  else if b = 0x28 then .punct .lParen
  else if b = 0x5B then .punct .lBracket
  else if b = 0x5D then .punct .rBracket
  else if b = 0x7D then .punct .rBrace
  else if b = 0x7E then .punct .tilde
  else if b = 0x29 then .rParen
  else if b = 0x7B then .lBrace
  else if b = 0x7C then .bar
  else if b = 0x5E then .caret
  else if b = 0x3E then .gt
  else .word

/-- Scan the token that the bytes open with; they open with no space and no comment. -/
def lexToken (eof trusted : Bool) (bytes : Bytes) : Scan (Nat × Token) :=
  match bytes with
  | [] => .needMore
  | b :: _ =>
      match opening b with
      | .lt => lexLt eof trusted bytes
      | .quote => lexString eof trusted b bytes
      | .underscore => lexBlank eof bytes
      | .atSign => lexAt eof bytes
      | .number => lexNumber eof bytes
      | .dot => lexDot eof bytes
      | .rParen => lexRParen eof bytes
      | .lBrace => lexPair eof bytes 0x7C .annoOpen (.done (1, .lBrace))
      | .bar => lexPair eof bytes 0x7D .annoClose (.error 0 "unexpected '|'")
      | .caret => lexPair eof bytes 0x5E .doubleCaret (.error 0 "expected '^^'")
      | .gt => lexPair eof bytes 0x3E .gtGt (.error 0 "unexpected '>'")
      | .punct t => .done (1, t)
      | .word => lexWord eof bytes

/-! ## Progress -/

theorem lexIriref_pos {eof trusted : Bool} {bytes : Bytes} {n : Nat} {t : Token}
    (h : lexIriref eof trusted bytes = .done (n, t)) : 0 < n := by
  unfold lexIriref at h
  split at h
  · simp at h
  · simp only at h
    split at h
    · cases h
    · split at h
      · cases h
      · obtain ⟨text, -, h⟩ := Scan.bind_done h
        cases h
        omega

theorem lexString_pos {eof trusted : Bool} {q : UInt8} {bytes : Bytes} {n : Nat} {t : Token}
    (h : lexString eof trusted q bytes = .done (n, t)) : 0 < n := by
  have short : lexShortString eof trusted q bytes = .done (n, t) → 0 < n := by
    intro h
    unfold lexShortString at h
    obtain ⟨⟨ce, escaped⟩, -, h⟩ := Scan.bind_done h
    simp only at h
    split at h
    · obtain ⟨text, -, h⟩ := Scan.bind_done h
      cases h
      omega
    · split at h
      · obtain ⟨text, -, h⟩ := Scan.bind_done h
        cases h
        omega
      · cases h
  have long : lexLongString eof q bytes = .done (n, t) → 0 < n := by
    intro h
    unfold lexLongString at h
    obtain ⟨ce, -, h⟩ := Scan.bind_done h
    obtain ⟨text, -, h⟩ := Scan.bind_done h
    cases h
    omega
  unfold lexString at h
  split at h
  · split at h
    · split at h
      · exact long h
      · cases h
        omega
    · exact short h
  · split at h
    · split at h
      · cases h
        omega
      · cases h
    · exact short h
  · simp at h

theorem le_scanLabel {eof : Bool} {i stop : Nat} {bytes : Bytes} {n : Nat} (le : stop ≤ i)
    (h : scanLabel eof i stop bytes = .done n) : stop ≤ n := by
  fun_induction scanLabel eof i stop bytes with
  | case1 => cases h; omega
  | case2 => cases h
  | case3 i stop rest ih => exact ih (by omega) h
  | case4 => cases h
  | case5 => cases h
  | case6 i stop b rest notDot c w found pn ih => 
      have := ih (by omega) h
      omega
  | case7 => cases h; omega

theorem lexBlank_pos {eof : Bool} {bytes : Bytes} {n : Nat} {t : Token}
    (h : lexBlank eof bytes = .done (n, t)) : 0 < n := by
  unfold lexBlank at h
  split at h
  · simp at h
  · split at h
    · cases h
    · split at h
      · simp at h
      · obtain ⟨⟨c, w⟩, -, h⟩ := Scan.bind_done h
        simp only at h
        split at h
        · obtain ⟨stop, scanned, h⟩ := Scan.bind_done h
          cases h
          have := le_scanLabel (Nat.le_refl _) scanned
          omega
        · cases h

theorem le_scanSubtags {eof : Bool} {i : Nat} {bytes : Bytes} {r : Nat × Nat × Option Dir}
    (h : scanSubtags eof i bytes = .done r) : i ≤ r.1 := by
  fun_induction scanSubtags eof i bytes
  case case11 ih => exact Nat.le_trans (by omega) (ih h)
  all_goals cases h
  all_goals simp only
  all_goals omega

theorem lexTag_pos {eof : Bool} {bytes primary : Bytes} {n : Nat} {t : Token}
    (h : lexTag eof bytes primary = .done (n, t)) : 0 < n := by
  unfold lexTag at h
  split at h
  · cases h
  · obtain ⟨⟨stop, tagEnd, dir⟩, scanned, h⟩ := Scan.bind_done h
    cases h
    have := le_scanSubtags scanned
    simp only at this
    omega

theorem lexAt_pos {eof : Bool} {bytes : Bytes} {n : Nat} {t : Token}
    (h : lexAt eof bytes = .done (n, t)) : 0 < n := by
  unfold lexAt at h
  simp only at h
  split at h
  · cases h
  · split at h
    · cases h
    · split at h
      · cases h
        omega
      · exact lexTag_pos h

theorem le_scanExponent {eof : Bool} {bytes : Bytes} {e n : Nat}
    (h : scanExponent eof bytes e = .done n) : e < n := by
  unfold scanExponent at h
  simp only at h
  split at h
  · cases h
  · split at h
    · cases h
    · cases h
      omega

theorem lexNumber_pos {eof : Bool} {bytes : Bytes} {n : Nat} {t : Token}
    (h : lexNumber eof bytes = .done (n, t)) : 0 < n := by
  unfold lexNumber at h
  simp only at h
  split at h
  · cases h
  · split at h
    · split at h
      · cases h
      · split at h
        · obtain ⟨stop, scanned, h⟩ := Scan.bind_done h
          cases h
          exact Nat.zero_lt_of_lt (le_scanExponent scanned)
        · split at h
          · cases h
            omega
          · split at h
            · cases h
              omega
            · cases h
    · split at h
      · obtain ⟨stop, scanned, h⟩ := Scan.bind_done h
        cases h
        exact Nat.zero_lt_of_lt (le_scanExponent scanned)
      · split at h
        · cases h
          omega
        · cases h

theorem le_scanLocal {eof : Bool} {i stop : Nat} {first : Bool} {dots text bytes : Bytes}
    {r : Nat × Bytes} (le : stop ≤ i) (h : scanLocal eof i stop first dots text bytes = .done r) :
    stop ≤ r.1 := by
  fun_induction scanLocal eof i stop first dots text bytes
  all_goals first
    | (rename_i ih; exact Nat.le_trans (by omega) (ih (by omega) h))
    | (cases h; exact Nat.le_refl _)
    | cases h
    | simp at h

theorem le_scanPrefix {eof : Bool} {i stop : Nat} {bytes : Bytes} {r : Nat × Nat} (le : stop ≤ i)
    (h : scanPrefix eof i stop bytes = .done r) : stop ≤ r.1 ∧ stop ≤ r.2 := by
  fun_induction scanPrefix eof i stop bytes
  all_goals first
    | (rename_i ih; have := ih (by omega) h; omega)
    | (cases h; done)
    | (cases h; simp only; omega)

theorem charAt_width {eof : Bool} {off : Nat} {bytes : Bytes} {r : Char × Nat}
    (h : charAt eof off bytes = .done r) : 0 < r.2 := by
  unfold charAt at h
  split at h
  · cases h
  · rename_i width found
    split at h
    · simp at h
    · split at h
      · cases h
        obtain ⟨b, -, wide⟩ := Option.bind_eq_some_iff.mp found
        unfold charWidth at wide
        repeat' split at wide
        all_goals cases wide
        all_goals simp only
        all_goals omega
      · cases h

theorem lexPname_pos {eof : Bool} {bytes : Bytes} {colon n : Nat} {t : Token}
    (h : lexPname eof bytes colon = .done (n, t)) : 0 < n := by
  unfold lexPname at h
  obtain ⟨⟨stop, text⟩, scanned, h⟩ := Scan.bind_done h
  cases h
  have := le_scanLocal (Nat.le_refl _) scanned
  simp only at this
  omega

theorem lexWord_pos {eof : Bool} {bytes : Bytes} {n : Nat} {t : Token}
    (h : lexWord eof bytes = .done (n, t)) : 0 < n := by
  unfold lexWord at h
  split at h
  · exact lexPname_pos h
  · obtain ⟨⟨c, w⟩, read, h⟩ := Scan.bind_done h
    have wide := charAt_width read
    simp only at h wide
    split at h
    · obtain ⟨⟨i, stop⟩, scanned, h⟩ := Scan.bind_done h
      have le := le_scanPrefix (Nat.le_refl _) scanned
      simp only at h le
      split at h
      · exact lexPname_pos h
      · split at h
        · cases h
          omega
        · cases h
    · cases h

theorem lexPair_pos {eof : Bool} {bytes : Bytes} {second : UInt8} {both : Token}
    {alone : Scan (Nat × Token)} {n : Nat} {t : Token}
    (single : ∀ n t, alone = .done (n, t) → 0 < n)
    (h : lexPair eof bytes second both alone = .done (n, t)) : 0 < n := by
  unfold lexPair at h
  split at h
  · split at h
    · exact single n t h
    · cases h
  · split at h
    · cases h
      omega
    · exact single n t h

theorem lexLt_pos {eof trusted : Bool} {bytes : Bytes} {n : Nat} {t : Token}
    (h : lexLt eof trusted bytes = .done (n, t)) : 0 < n := by
  unfold lexLt at h
  split at h
  · split at h
    · exact lexIriref_pos h
    · cases h
  · split at h
    · split at h
      · split at h
        · cases h
          omega
        · cases h
      · split at h
        · cases h
          omega
        · cases h
          omega
    · exact lexIriref_pos h

theorem lexDot_pos {eof : Bool} {bytes : Bytes} {n : Nat} {t : Token}
    (h : lexDot eof bytes = .done (n, t)) : 0 < n := by
  unfold lexDot at h
  split at h
  · split at h
    · cases h
      omega
    · cases h
  · split at h
    · exact lexNumber_pos h
    · cases h
      omega

theorem lexRParen_pos {eof : Bool} {bytes : Bytes} {n : Nat} {t : Token}
    (h : lexRParen eof bytes = .done (n, t)) : 0 < n := by
  unfold lexRParen at h
  split at h
  · split at h
    · cases h
      omega
    · cases h
      omega
  · split at h
    · cases h
    · cases h
      omega
  · split at h
    · cases h
      omega
    · cases h

/-- A token takes at least one byte. -/
theorem lexToken_pos {eof trusted : Bool} {bytes : Bytes} {n : Nat} {t : Token}
    (h : lexToken eof trusted bytes = .done (n, t)) : 0 < n := by
  have refused : ∀ (message : String) (n : Nat) (t : Token),
      (Scan.error 0 message : Scan (Nat × Token)) = .done (n, t) → 0 < n :=
    fun _ _ _ h => nomatch h
  have brace : ∀ (n : Nat) (t : Token),
      (Scan.done (1, Token.lBrace) : Scan (Nat × Token)) = .done (n, t) → 0 < n := by
    intro n t same
    cases same
    omega
  cases bytes with
  | nil => cases h
  | cons b rest =>
      unfold lexToken at h
      cases kind : opening b <;> simp only [kind] at h
      case lt => exact lexLt_pos h
      case quote => exact lexString_pos h
      case underscore => exact lexBlank_pos h
      case atSign => exact lexAt_pos h
      case number => exact lexNumber_pos h
      case dot => exact lexDot_pos h
      case rParen => exact lexRParen_pos h
      case lBrace => exact lexPair_pos brace h
      case bar => exact lexPair_pos (refused _) h
      case caret => exact lexPair_pos (refused _) h
      case gt => exact lexPair_pos (refused _) h
      case punct =>
        cases h
        omega
      case word => exact lexWord_pos h

/-! ## The consume cursor -/

/-- The position behind some bytes. -/
def Position.advance (p : Position) : Bytes → Position
  | [] => p
  | b :: bytes =>
      Position.advance
        (if b = 0x0A then ⟨p.offset + 1, p.line + 1, 1⟩ else ⟨p.offset + 1, p.line, p.column + 1⟩)
        bytes

/-- The bytes not consumed yet, and where they begin. -/
structure Cursor where
  rest : Bytes
  position : Position
deriving DecidableEq, Repr

namespace Cursor

def accept (c : Cursor) (n : Nat) : Cursor where
  rest := c.rest.drop n
  position := c.position.advance (c.rest.take n)

/-- Append a chunk. -/
def feed (c : Cursor) (chunk : Bytes) : Cursor := { c with rest := c.rest ++ chunk }

def isSpace (b : UInt8) : Bool := [0x20, 0x09, 0x0D, 0x0A].contains b

/-- Skip spaces and comments; whether no comment may go on behind the bytes. -/
def skipSpace (eof : Bool) (c : Cursor) : Bool × Cursor :=
  match _h : c.rest with
  | [] => (true, c)
  | b :: rest =>
      if isSpace b then skipSpace eof (c.accept (1 + (rest.takeWhile isSpace).length))
      else if b = 0x23 then
        match rest.idxOf? 0x0A with
        | some i => skipSpace eof (c.accept (i + 2))
        | none => if eof then (true, c.accept c.rest.length) else (false, c)
      else (true, c)
termination_by c.rest.length
decreasing_by
  all_goals
    simp only [accept, List.length_drop, _h, List.length_cons]
    omega

/-- The position that an error about the token of the next `n` bytes reports: the offset of its
start on the line behind it, with the column counted from that line's start.  The column is
zero where that start lies behind the token's. -/
def tokenPosition (c : Cursor) (n : Nat) : Position :=
  let behind := c.position.advance (c.rest.take n)
  let lineStart := behind.offset + 1 - behind.column
  ⟨c.position.offset, behind.line, c.position.offset + 1 - lineStart⟩

/-- The next token and the cursor behind it. -/
def next (eof trusted : Bool) (c : Cursor) : Lexed × Cursor :=
  match c.skipSpace eof with
  | (false, c) => (.needMore, c)
  | (true, c) =>
      match c.rest with
      | [] => (if eof then .eof c.position else .needMore, c)
      | _ =>
          match lexToken eof trusted c.rest with
          | .needMore => (.needMore, c)
          | .error off message => (.error ⟨message, c.position.advance (c.rest.take off)⟩, c)
          | .done (n, t) => (.token (c.tokenPosition n) t, c.accept n)

theorem skipSpace_nil {eof : Bool} {c : Cursor} (h : c.rest = []) :
    c.skipSpace eof = (true, c) := by
  rw [skipSpace]
  split
  · rfl
  · rename_i same
    cases h.symm.trans same

theorem skipSpace_cons {eof : Bool} {c : Cursor} {b : UInt8} {rest : Bytes}
    (h : c.rest = b :: rest) : c.skipSpace eof =
      if isSpace b then skipSpace eof (c.accept (1 + (rest.takeWhile isSpace).length))
      else if b = 0x23 then
        match rest.idxOf? 0x0A with
        | some i => skipSpace eof (c.accept (i + 2))
        | none => if eof then (true, c.accept c.rest.length) else (false, c)
      else (true, c) := by
  rw [skipSpace]
  split
  · rename_i same
    cases h.symm.trans same
  · rename_i same
    cases h.symm.trans same
    rfl

theorem length_skipSpace_le (eof : Bool) (c : Cursor) :
    (c.skipSpace eof).2.rest.length ≤ c.rest.length := by
  have shrinks : ∀ (c : Cursor) (n : Nat), (c.accept n).rest.length ≤ c.rest.length := by
    intro c n
    simp [accept]
  fun_induction skipSpace eof c with
  | case2 c b rest h space ih => exact Nat.le_trans ih (shrinks c _)
  | case3 c rest h space i found ih => exact Nat.le_trans ih (shrinks c _)
  | case4 c rest h space found ended => exact shrinks c _
  | _ => exact Nat.le_refl _

/-- A token takes bytes off the cursor. -/
theorem next_token_lt {eof trusted : Bool} {c c' : Cursor} {position : Position} {t : Token}
    (h : c.next eof trusted = (.token position t, c')) : c'.rest.length < c.rest.length := by
  have le := length_skipSpace_le eof c
  unfold next at h
  split at h
  · cases h
  · rename_i c1 skipped
    rw [skipped] at le
    simp only at h le
    split at h
    · split at h <;> cases h
    · rename_i more
      split at h
      · cases h
      · cases h
      · rename_i n t found
        cases h
        have some_ := lexToken_pos found
        have := List.length_pos_iff.mpr more
        simp only [accept, List.length_drop]
        omega

theorem next_le {eof trusted : Bool} {c c' : Cursor} {lexed : Lexed}
    (h : c.next eof trusted = (lexed, c')) : c'.rest.length ≤ c.rest.length := by
  have le := length_skipSpace_le eof c
  unfold next at h
  split at h
  · rename_i c1 skipped
    rw [skipped] at le
    cases h
    exact le
  · rename_i c1 skipped
    rw [skipped] at le
    split at h
    · cases h
      exact le
    · split at h
      · cases h
        exact le
      · cases h
        exact le
      · cases h
        refine Nat.le_trans ?_ le
        simp [accept]

/-- Discard bytes through the next newline; whether there was one. -/
def skipPast (c : Cursor) : Bool × Cursor :=
  match c.rest.idxOf? 0x0A with
  | some i => (true, c.accept (i + 1))
  | none => (false, c.accept c.rest.length)

end Cursor

end Graphy.Turtle
