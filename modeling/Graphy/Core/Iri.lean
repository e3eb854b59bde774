import Graphy.Core.Term
import Graphy.Core.Text

/-!
# IRI validation

The structural grammar of an IRI reference: forbidden characters, complete
percent-encodings, the five components and the characters each may hold.  An
absolute IRI is a reference with a scheme.
-/

namespace Graphy

/-- Errors constructing or decoding terms. -/
inductive TermError where
  | invalidIri (iri : String) (pos : Nat) (reason : String)
  | relativeBase (base : String)
  | invalidLangTag (tag : String)
  | invalidBlankNodeLabel (label : String)
  | invalidConcise (reason : String)
  | invalidUtf8
  | tripleTermDepth (max : Nat)
  | invalidPosition (what : String)
deriving DecidableEq, Repr

def TermError.message : TermError → String
  | .invalidIri iri pos reason => s!"invalid IRI ({reason}) at byte {pos}: {iri.quote}"
  | .relativeBase base =>
      s!"cannot resolve relative IRI reference against non-absolute base {base.quote}"
  | .invalidLangTag tag => s!"invalid language tag: {tag.quote}"
  | .invalidBlankNodeLabel label => s!"invalid blank node label: {label.quote}"
  | .invalidConcise reason => s!"invalid concise term encoding: {reason}"
  | .invalidUtf8 => "term is not valid UTF-8"
  | .tripleTermDepth max => s!"triple term nesting exceeds the maximum depth of {max}"
  | .invalidPosition what => s!"{what} is not a valid term kind for this position"

namespace Iri

/-- Components of a reference. -/
structure IriParts where
  scheme : Option (List Char)
  authority : Option (List Char)
  path : List Char
  query : Option (List Char)
  fragment : Option (List Char)
deriving DecidableEq, Repr

inductive Component where
  | path
  | queryOrFragment
deriving DecidableEq, Repr

def isUcschar (c : Char) : Bool :=
  inRanges [(0xA0, 0xD7FF), (0xF900, 0xFDCF), (0xFDF0, 0xFFEF), (0x10000, 0x1FFFD),
    (0x20000, 0x2FFFD), (0x30000, 0x3FFFD), (0x40000, 0x4FFFD), (0x50000, 0x5FFFD),
    (0x60000, 0x6FFFD), (0x70000, 0x7FFFD), (0x80000, 0x8FFFD), (0x90000, 0x9FFFD),
    (0xA0000, 0xAFFFD), (0xB0000, 0xBFFFD), (0xC0000, 0xCFFFD), (0xD0000, 0xDFFFD),
    (0xE1000, 0xEFFFD)] c

def isIprivate (c : Char) : Bool :=
  inRanges [(0xE000, 0xF8FF), (0xF0000, 0xFFFFD), (0x100000, 0x10FFFD)] c

def isUnreservedAscii (c : Char) : Bool :=
  isAsciiAlphanumeric c || ['-', '.', '_', '~'].contains c

def isIunreserved (c : Char) : Bool := isUnreservedAscii c || isUcschar c

def isSubDelim (c : Char) : Bool :=
  ['!', '$', '&', '\'', '(', ')', '*', '+', ',', ';', '='].contains c

def isIpchar (c : Char) : Bool := isIunreserved c || isSubDelim c || [':', '@'].contains c

/-- Characters that stand raw nowhere in a reference. -/
def isForbidden (c : Char) : Bool :=
  decide (c ≤ ' ') || ['<', '>', '"', '\x7b', '\x7d', '|', '\\', '^', '\x60', '\x7f'].contains c

/-- Byte offset of the first forbidden character, `pos` bytes into the text. -/
@[grind =] def findForbidden (pos : Nat) : List Char → Option Nat
  | [] => none
  | c :: s => if isForbidden c then some pos else findForbidden (pos + c.utf8Size) s

section

/-- Properties of every character are not decided by running through all of them. -/
noncomputable local instance (priority := 2000) decidableForallChar (P : Char → Prop) :
    Decidable (∀ c, P c) := Classical.propDecidable _

/-- Percent-encodings must be complete; `pos` bytes of the text come before. -/
def percentComplete (iri : String) (pos : Nat) : List Char → Except TermError Unit
  | [] => .ok ()
  | '%' :: a :: b :: s =>
      if isAsciiHexdigit a && isAsciiHexdigit b then percentComplete iri (pos + 3) s
      else .error (.invalidIri iri pos "invalid percent-encoding")
  | ['%', a] =>
      if a.utf8Size = 1 then .error (.invalidIri iri pos "truncated percent-encoding")
      else .error (.invalidIri iri pos "invalid percent-encoding")
  | ['%'] => .error (.invalidIri iri pos "truncated percent-encoding")
  | c :: s => percentComplete iri (pos + c.utf8Size) s

/-- The first character, outside percent-encodings, that is not allowed, with its
byte offset. -/
def findRefused (allowed : Char → Bool) (pos : Nat) : List Char → Option Nat
  | [] => none
  | '%' :: _ :: _ :: s => findRefused allowed (pos + 3) s
  | ['%', _] => none
  | ['%'] => none
  | c :: s => if allowed c then findRefused allowed (pos + c.utf8Size) s else some pos

end

def validateComponent (iri : String) (value : List Char) (component : Component) :
    Except TermError Unit :=
  let allowed := fun c => isIpchar c || c == '/' ||
    (decide (component = .queryOrFragment) && (c == '?' || isIprivate c))
  match findRefused allowed 0 value with
  | none => .ok ()
  | some i => .error (.invalidIri iri (iri.utf8ByteSize - utf8Len value + i)
      "character not allowed in IRI component")

def validateAsciiComponent (iri : String) (value : List Char) (allowed : Char → Bool) :
    Except TermError Unit :=
  match findRefused allowed 0 value with
  | none => .ok ()
  | some _ => .error (.invalidIri iri 0 "character not allowed in authority")

/-! ## Address literals -/

/-- Value of a digit in the radix. -/
def digitValue (radix : Nat) (c : Char) : Option Nat :=
  let v :=
    if isAsciiDigit c then some (c.toNat - 0x30)
    else if inRanges [(0x41, 0x46)] c then some (c.toNat - 0x37)
    else if inRanges [(0x61, 0x66)] c then some (c.toNat - 0x57)
    else none
  v.filter fun v => decide (v < radix)

/-- Read the digits of a number; too many digits, a value above `bound` or a leading
zero that is not accepted refuse it. -/
def readNumber (radix maxDigits bound : Nat) (zeroPrefix : Bool) (s : List Char) :
    Option (List Char) :=
  let digits := s.takeWhile fun c => (digitValue radix c).isSome
  let value := digits.foldl (fun v c => v * radix + (digitValue radix c).getD 0) 0
  if digits.length = 0 ∨ maxDigits < digits.length ∨ bound < value then none
  else if !zeroPrefix && digits.head? == some '0' && decide (1 < digits.length) then none
  else some (s.drop digits.length)

/-- Read the separator before every item but the first. -/
def readSeparated (sep : Char) (i : Nat) (read : List Char → Option (List Char)) (s : List Char) :
    Option (List Char) :=
  if i = 0 then read s
  else
    match s with
    | [] => none
    | c :: s => if c = sep then read s else none

/-- Read a dotted address of four decimal numbers. -/
def readIpv4 (s : List Char) : Option (List Char) :=
  let number := readNumber 10 3 255 false
  (((readSeparated '.' 0 number s).bind (readSeparated '.' 1 number)).bind
    (readSeparated '.' 2 number)).bind (readSeparated '.' 3 number)

/-- Read up to `left` more groups after `i`; a dotted address may take the place of two.
Gives the number of groups, whether it ended in a dotted address, and the rest. -/
def readGroups : Nat → Nat → List Char → Nat × Bool × List Char
  | 0, i, s => (i, false, s)
  | left + 1, i, s =>
      match (if 0 < left then readSeparated ':' i readIpv4 s else none) with
      | some rest => (i + 2, true, rest)
      | none =>
          match readSeparated ':' i (readNumber 16 4 0xFFFF true) s with
          | some rest => readGroups left (i + 1) rest
          | none => (i, false, s)

/-- Whether the text is an IPv6 address. -/
def isIpv6Addr (s : List Char) : Bool :=
  match readGroups 8 0 s with
  | (8, _, rest) => rest.isEmpty
  | (_, true, _) => false
  | (n, false, ':' :: ':' :: rest) => (readGroups (8 - (n + 1)) 0 rest).2.2.isEmpty
  | _ => false

def isIpvFuture (s : List Char) : Bool :=
  match s with
  | [] => false
  | c :: r =>
      if c = 'v' ∨ c = 'V' then
        (splitOnce '.' r).any fun (version, body) =>
          !version.isEmpty && version.all isAsciiHexdigit && !body.isEmpty &&
            body.all fun c => isUnreservedAscii c || isSubDelim c || c == ':'
      else false

/-! ## References -/

def validateAuthority (iri : String) (authority : List Char) : Except TermError Unit := do
  let invalid (reason : String) : Except TermError Unit := .error (.invalidIri iri 0 reason)
  let hostPort ←
    match rsplitOnce '@' authority with
    | some (userinfo, hostPort) => do
        validateAsciiComponent iri userinfo fun c => isIunreserved c || isSubDelim c || c == ':'
        pure hostPort
    | none => pure authority
  match hostPort with
  | '[' :: bracketed =>
      match splitOnce ']' bracketed with
      | none => invalid "unterminated IP literal"
      | some (address, tail) =>
          if tail.contains '[' || tail.contains ']' then invalid "invalid bracket in authority"
          else do
            match tail with
            | [] => pure ()
            | ':' :: port => if port.all isAsciiDigit then pure () else invalid "invalid port"
            | _ => invalid "characters after IP literal"
            if !isIpv6Addr address && !isIpvFuture address then invalid "invalid IP literal"
  | _ =>
      if hostPort.contains '[' || hostPort.contains ']' then invalid "invalid bracket in authority"
      else
        match rsplitOnce ':' hostPort with
        | none => validateAsciiComponent iri hostPort fun c => isIunreserved c || isSubDelim c
        | some (host, port) =>
            if host.contains ':' then invalid "IPv6 address must be bracketed"
            else if !port.all isAsciiDigit then invalid "invalid port"
            else validateAsciiComponent iri host fun c => isIunreserved c || isSubDelim c

def isScheme (candidate : List Char) : Bool :=
  (candidate.head?.any isAsciiAlphabetic) &&
    candidate.all fun c => isAsciiAlphanumeric c || ['+', '-', '.'].contains c

/-- The scheme, when what stands before the first colon is one, and the rest. -/
def splitScheme (rest : List Char) : Option (List Char) × List Char :=
  match splitOnce ':' rest with
  | none => (none, rest)
  | some (candidate, after) => if isScheme candidate then (some candidate, after) else (none, rest)

/-- The authority, when the rest opens one, and the path. -/
def splitAuthority (rest : List Char) : Option (List Char) × List Char :=
  match rest with
  | '/' :: '/' :: after =>
      let (authority, path) := after.span fun c => !(['/', '?', '#'].contains c)
      (some authority, path)
  | _ => (none, rest)

/-- Parse a reference into components, validating what each holds. -/
def parseReference (iri : String) : Except TermError IriParts := do
  let s := iri.toList
  if let some pos := findForbidden 0 s then
    throw (.invalidIri iri pos "forbidden character")
  percentComplete iri 0 s
  let (fragment, rest) ←
    match splitOnce '#' s with
    | none => pure (none, s)
    | some (before, fragment) =>
        if fragment.contains '#' then
          throw (.invalidIri iri (utf8Len before + 1) "multiple fragment delimiters")
        else pure (some fragment, before)
  let (query, rest) :=
    match splitOnce '?' rest with
    | none => (none, rest)
    | some (before, query) => (some query, before)
  let (scheme, rest) := splitScheme rest
  let (authority, path) := splitAuthority rest
  match authority with
  | some authority => do
      validateAuthority iri authority
      if !path.isEmpty && path.head? != some '/' then
        throw (.invalidIri iri 0 "authority path must be empty or begin with '/'")
  | none =>
      if scheme.isNone then
        let first := path.takeWhile fun c => c != '/'
        if first.contains ':' then
          throw (.invalidIri iri (utf8Len (first.takeWhile fun c => c != ':'))
            "relative first path segment contains ':'")
  validateComponent iri path .path
  if let some query := query then validateComponent iri query .queryOrFragment
  if let some fragment := fragment then validateComponent iri fragment .queryOrFragment
  return { scheme, authority, path, query, fragment }

/-- Validate an absolute IRI. -/
def validateIri (iri : String) : Except TermError Unit := do
  let parts ← parseReference iri
  if parts.scheme.isNone then
    throw (.invalidIri iri 0 "relative IRI where an absolute IRI is required")

/-- Validate a reference, which may be relative. -/
def validateReference (iriRef : String) : Except TermError Unit := do
  let _ ← parseReference iriRef

/-! ## Resolution -/

/-- The path of a reference merged onto the base's. -/
def mergePaths (base : IriParts) (refPath : List Char) : List Char :=
  if base.authority.isSome && base.path.isEmpty then '/' :: refPath
  else
    match rsplitOnce '/' base.path with
    | some (before, _) => before ++ '/' :: refPath
    | none => refPath

def popSegment (output : List Char) : List Char :=
  match rsplitOnce '/' output with
  | some (before, _) => before
  | none => []

/-- Drop the dot segments of what is left of a path, after the output so far. -/
def removeDotSegmentsFrom (output : List Char) : List Char → List Char
  | [] => output
  | '.' :: '.' :: '/' :: rest => removeDotSegmentsFrom output rest
  | '.' :: '/' :: rest => removeDotSegmentsFrom output rest
  | '/' :: '.' :: '/' :: rest => removeDotSegmentsFrom output ('/' :: rest)
  | ['/', '.'] => removeDotSegmentsFrom output ['/']
  | '/' :: '.' :: '.' :: '/' :: rest => removeDotSegmentsFrom (popSegment output) ('/' :: rest)
  | ['/', '.', '.'] => removeDotSegmentsFrom (popSegment output) ['/']
  | ['.'] => output
  | ['.', '.'] => output
  | c :: rest =>
      removeDotSegmentsFrom (output ++ c :: rest.takeWhile fun c => c != '/')
        (rest.dropWhile fun c => c != '/')
termination_by input => input.length
decreasing_by
  all_goals simp_wf
  all_goals try omega
  have := (List.dropWhile_sublist (fun c => c != '/') (l := rest)).length_le
  omega

def removeDotSegments (path : List Char) : List Char := removeDotSegmentsFrom [] path

/-- Resolve a reference against an absolute base. -/
def resolve (base reference : String) : Except TermError String := do
  let b ← parseReference base
  if b.scheme.isNone then throw (.relativeBase base)
  let r ← parseReference reference
  let (scheme, authority, path, query) :=
    if r.scheme.isSome then (r.scheme, r.authority, removeDotSegments r.path, r.query)
    else if r.authority.isSome then (b.scheme, r.authority, removeDotSegments r.path, r.query)
    else if r.path.isEmpty then (b.scheme, b.authority, b.path, r.query.or b.query)
    else if r.path.head? = some '/' then
      (b.scheme, b.authority, removeDotSegments r.path, r.query)
    else (b.scheme, b.authority, removeDotSegments (mergePaths b r.path), r.query)
  return String.ofList
    ((scheme.elim [] fun s => s ++ [':']) ++ (authority.elim [] fun a => '/' :: '/' :: a) ++
      path ++ (query.elim [] fun q => '?' :: q) ++ (r.fragment.elim [] fun f => '#' :: f))

end Iri

end Graphy
